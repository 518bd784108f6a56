import TypeGraph.Proofs.Schema.Tracking
/-!
Where the parts of a tree stand. Every part of a tree that was read stands in the text, and every
name is the text at its span, whatever was reported on the way.
-/

namespace TypeGraph.Schema

namespace Parser

open Reading

variable {α : Type} {source : SourceId} {text : String} {r : Reading} {t : Token}
variable {ts : List Token}

section Blocks

theorem leaves_unclosed {opening : Span} (hr : r.Tracks source text)
    (hopening : opening.Marks text) :
    Leaves source text r (unclosed opening) fun _ _ => True := by
  apply (leaves_get hr).bind
  rintro _ s hs - ⟨rfl, rfl⟩
  apply (leaves_currentSpan hs).bind
  intro span s' hs' _ hsees
  have hreports : s'.Reports text .unclosedBlock span
      [⟨s.source, opening, "block opened here"⟩] [] := by
    have hplain := hsees.reports .unclosedBlock []
    refine ⟨hplain.points, ?_, hplain.behind, hplain.rising⟩
    intro x hx
    obtain rfl := List.mem_singleton.mp hx
    exact ⟨hs.source_eq.trans hs'.source_eq.symm, hopening⟩
  exact (leaves_report hs' hreports).imp fun _ _ _ => trivial

/-- Entries are found in a block wherever it is opened. -/
theorem traces_block {opening : Span} {entry : TokenKind → Option (EntryReader α)} {P : α → Prop}
    (hopening : opening.Marks text)
    (hentry : ∀ kind read doc, entry kind = some read →
      Traces source text (read doc) fun xs _ => ∀ x ∈ xs, P x) :
    Traces source text (block opening entry) fun xs _ => ∀ x ∈ xs, P x := by
  apply traces_collect
  intro r hr
  apply (traced_docs r hr).bind
  intro doc s hs _ _
  apply (leaves_currentKind hs).bind
  intro kind? s hs _ _
  have hstop : Leaves source text s
      (unclosed opening >>= fun _ => pure ([], false) : Parser (List α × Bool))
        fun x _ => ∀ a ∈ x.1, P a :=
    (leaves_unclosed hs hopening).bind fun _ s hs _ _ => .pure hs nofun
  have htake (goOn : Bool) : Leaves source text s
      (bump >>= fun _ => pure ([], goOn) : Parser (List α × Bool)) fun x _ => ∀ a ∈ x.1, P a :=
    (leaves_bump hs).bind fun _ s hs _ _ => .pure hs nofun
  cases kind? with
  | none => exact hstop
  | some kind =>
    by_cases hclose : kind = .rightBrace
    · simp only [if_pos hclose]
      exact htake false
    simp only [if_neg hclose]
    by_cases hitem : kind.startsItem
    · simp only [if_pos hitem]
      exact hstop
    simp only [if_neg hitem]
    by_cases hseparator : kind = .comma ∨ kind = .semicolon
    · simp only [if_pos hseparator]
      exact htake true
    simp only [if_neg hseparator]
    cases hread : entry kind with
    | some read =>
      apply (hentry kind read doc hread s hs).bind
      exact fun xs s hs _ hxs => .pure hs hxs
    | none =>
      apply (leaves_fail _ _ hs).bind
      intro _ s hs _ _
      apply (traced_recoverInBlock s hs).bind
      exact fun _ s hs _ _ => .pure hs nofun

/-- Entries in braces. -/
theorem traces_braces {entry : TokenKind → Option (EntryReader α)} {P : α → Prop}
    (hentry : ∀ kind read doc, entry kind = some read →
      Traces source text (read doc) fun xs _ => ∀ x ∈ xs, P x) :
    Traces source text (do
      match ← expect .leftBrace with
      | none => return []
      | some opening => block opening.span entry) fun xs _ => ∀ x ∈ xs, P x := by
  intro r hr
  apply (leaves_expect .leftBrace hr).bind
  intro opening? s hs _ hopening
  cases opening? with
  | none => exact .pure hs nofun
  | some opening => exact traces_block (hopening opening rfl).marks hentry s hs

end Blocks

section Types

/-- An expression that was read: it stands in the text, and unless it is a hole before the tokens
ahead. -/
structure Read (text : String) (x : TypeExpr) (s : Reading) : Prop where
  marked : x.Marked text
  stop : x.isHole = false → x.span.stop ≤ s.lastStop

theorem TypeExpr.Marked.span {x : TypeExpr} (h : x.Marked text) (hx : x.isHole = false) :
    x.span.Marks text := by
  have hself := h x (.self x)
  cases x with
  | record ms span => exact hself.1
  | hole span => cases hx
  | _ => exact hself

variable {type : Parser TypeExpr}

theorem traces_member (htype : Traces source text type (Read text)) (doc : Option String) :
    Traces source text (member type doc) fun m? _ => ∀ m ∈ m?, m.Marked text ∧ m.type.Marked text := by
  intro r hr
  apply (leaves_name hr).bind
  intro name? s hs _ hname
  cases name? with
  | none => exact .pure hs nofun
  | some name =>
    apply (leaves_expect .colon hs).bind
    intro colon? s hs _ _
    cases colon? with
    | none => exact (traced_recoverInBlock s hs).bind fun _ s hs _ _ => .pure hs nofun
    | some colon =>
      apply (htype s hs).bind
      intro x s hs _ hx
      apply (traces_attributes s hs).bind
      intro attributes s hs _ hattributes
      refine .pure hs ?_
      intro m hm
      obtain rfl := Option.some.inj hm
      exact ⟨⟨(hname name rfl).name, hattributes⟩, hx.marked⟩

theorem traces_embedded (htype : Traces source text type (Read text)) (doc : Option String) :
    Traces source text (embedded type doc) fun m? _ =>
      ∀ m ∈ m?, m.Marked text ∧ m.type.Marked text := by
  intro r hr
  apply (leaves_bump hr).bind
  intro _ s hs _ _
  apply (htype s hs).bind
  intro x s hs _ hx
  cases hhole : x.isHole with
  | true => exact .pure hs nofun
  | false =>
    have hspan := TypeExpr.Marked.span hx.marked hhole
    have hstop := hx.stop hhole
    cases x.referredName with
    | none =>
      have hreports : s.Reports text .expectedName x.span []
          ["embedded members name a struct, e.g. `..Base`"] := by
        refine ⟨hspan.pointsInto, nofun, ?_, .inl (.inr rfl)⟩
        intro t ht
        have hfilled := hspan.filled
        have hnext := (hs.ahead t ht).2
        omega
      apply (leaves_report hs hreports).bind
      exact fun _ s hs _ _ => .pure hs nofun
    | some word =>
      apply (traces_attributes s hs).bind
      intro attributes s hs _ hattributes
      refine .pure hs ?_
      intro m hm
      obtain rfl := Option.some.inj hm
      exact ⟨⟨⟨rfl, hspan⟩, hattributes⟩, hx.marked⟩

theorem traces_members (htype : Traces source text type (Read text)) :
    Traces source text (members type) fun ms _ =>
      ∀ m ∈ ms, m.Marked text ∧ m.type.Marked text := by
  apply traces_braces
  intro kind read doc hread
  have hone {m : Parser (Option (MemberDef TypeExpr))}
      (hm : Traces source text m fun m? _ => ∀ m ∈ m?, m.Marked text ∧ m.type.Marked text) :
      Traces source text (do return (← m).toList) fun ms _ =>
        ∀ m ∈ ms, m.Marked text ∧ m.type.Marked text := by
    intro r hr
    apply (hm r hr).bind
    intro m? s hs _ h
    exact .pure hs (by simpa using h)
  unfold memberEntry at hread
  split at hread
  · obtain rfl := Option.some.inj hread
    exact hone (traces_embedded htype doc)
  · obtain rfl := Option.some.inj hread
    exact hone (traces_member htype doc)
  · cases hread

/-- An expression that ends with the token read last stands in the text with its parts. -/
theorem leaves_finish {start : Nat} {make : Span → TypeExpr} (hr : r.Tracks source text)
    (hstart : String.Pos.Raw.IsValid text ⟨start⟩) (hlt : start < r.lastStop)
    (hspan : ∀ span, (make span).span = span)
    (hmake : ∀ span, span.Marks text → (make span).Marked text) :
    Leaves source text r (finish start make) (Read text) := by
  have hmax : max r.lastStop start = r.lastStop := by omega
  have hmarks : Span.Marks text ⟨start, r.lastStop⟩ :=
    ⟨⟨Nat.le_of_lt hlt, hr.lastStop_valid.le_utf8ByteSize, hstart, hr.lastStop_valid⟩, hlt⟩
  have hread : Read text (make ⟨start, r.lastStop⟩) r :=
    ⟨hmake _ hmarks, fun _ => by rw [hspan]⟩
  have hfinish : finish start make r = (make ⟨start, r.lastStop⟩, r) :=
    congrArg (fun stop => (make ⟨start, stop⟩, r)) hmax
  exact ⟨hfinish ▸ hr, hfinish ▸ Nat.le_refl _, hfinish ▸ hread⟩

theorem leaves_named {start : Nat} (word : String) (hr : r.Tracks source text)
    (hstart : String.Pos.Raw.IsValid text ⟨start⟩) (hlt : start < r.lastStop) :
    Leaves source text r (named start word) (Read text) := by
  apply (leaves_eat .dot hr).bind
  intro dot? s hs hle _
  have hlt : start < s.lastStop := Nat.lt_of_lt_of_le hlt hle
  cases dot? with
  | none =>
    cases Scalar.ofKeyword? word with
    | some kind =>
      apply leaves_finish hs hstart hlt fun _ => rfl
      exact fun span hspan => forall_within_scalar.mpr hspan
    | none =>
      apply leaves_finish hs hstart hlt fun _ => rfl
      exact fun span hspan => forall_within_reference.mpr hspan
  | some dot =>
    apply (leaves_name hs).bind
    intro name? s hs hle _
    have hlt : start < s.lastStop := Nat.lt_of_lt_of_le hlt hle
    cases name? with
    | some name =>
      apply leaves_finish hs hstart hlt fun _ => rfl
      exact fun span hspan => forall_within_reference.mpr hspan
    | none =>
      apply leaves_finish hs hstart hlt fun _ => rfl
      exact fun span hspan => forall_within_hole.mpr hspan.toLiesIn

theorem read_hole {s : Reading} {span : Span} (h : span.LiesIn text) : Read text (.hole span) s :=
  ⟨forall_within_hole.mpr h, nofun⟩

section Forms

variable {start : Nat} (htype : Traces source text type (Read text))
  (hr : r.Tracks source text) (hstart : String.Pos.Raw.IsValid text ⟨start⟩)
  (hlt : start < r.lastStop)

include htype hr hstart hlt

theorem leaves_pointer : Leaves source text r (do
    let target ← type
    finish start (.pointer target)) (Read text) := by
  apply (htype r hr).bind
  intro target s hs hle htarget
  apply leaves_finish hs hstart (by omega) fun _ => rfl
  exact fun span hspan => forall_within_pointer.mpr ⟨hspan, htarget.marked⟩

theorem leaves_sequence : Leaves source text r (do
    let element ← type
    let _ ← expect .rightBracket
    finish start (.sequence element)) (Read text) := by
  apply (htype r hr).bind
  intro element s hs hle helement
  apply (leaves_expect _ hs).bind
  intro _ s hs hle' _
  apply leaves_finish hs hstart (by omega) fun _ => rfl
  exact fun span hspan => forall_within_sequence.mpr ⟨hspan, helement.marked⟩

theorem leaves_map : Leaves source text r (do
    let key ← type
    let _ ← expect .colon
    let value ← type
    let _ ← expect .rightBrace
    finish start (.map key value)) (Read text) := by
  apply (htype r hr).bind
  intro key s hs hle hkey
  apply (leaves_expect _ hs).bind
  intro _ s hs hle2 _
  apply (htype s hs).bind
  intro value s hs hle3 hvalue
  apply (leaves_expect _ hs).bind
  intro _ s hs hle4 _
  apply leaves_finish hs hstart (by omega) fun _ => rfl
  exact fun span hspan => forall_within_map.mpr ⟨hspan, hkey.marked, hvalue.marked⟩

theorem leaves_record : Leaves source text r (do
    let members ← members type
    finish start (.record members)) (Read text) := by
  apply (traces_members htype r hr).bind
  intro ms s hs hle hms
  apply leaves_finish hs hstart (by omega) fun _ => rfl
  exact fun span hspan => forall_within_record.mpr
    ⟨⟨hspan, fun m hm => (hms m hm).1⟩, fun m hm => (hms m hm).2⟩

end Forms

theorem traces_type (depth : Nat) : Traces source text (Parser.type depth) (Read text) := by
  induction depth with
  | zero =>
    intro r hr
    apply (leaves_currentSpan hr).bind
    intro span s hs _ hsees
    apply (leaves_report hs (hsees.reports _ _)).bind
    exact fun _ s hs _ _ => .pure hs (read_hole hsees.points.toLiesIn)
  | succ depth ih =>
    intro r hr
    apply (leaves_currentSpan hr).bind
    intro span s hs _ hsees
    have hempty : Span.LiesIn text ⟨span.start, span.start⟩ :=
      ⟨Nat.le_refl _, Nat.le_trans hsees.points.ordered hsees.points.inside,
        hsees.points.start_valid, hsees.points.start_valid⟩
    have hfail : Leaves source text s (fail .expectedType none >>= fun _ =>
        pure (.hole ⟨span.start, span.start⟩) : Parser TypeExpr) (Read text) :=
      (leaves_fail _ _ hs).bind fun _ s hs _ _ => .pure hs (read_hole hempty)
    apply leaves_current_of_settled hsees.settled
    cases hrest : s.rest with
    | nil => exact hfail
    | cons t ts =>
      have hspan : span = t.span := hsees.next t (by rw [hrest]; rfl)
      have hcut := (hs.next_le hrest).1
      have hfilled : t.span.start < t.span.stop := hcut.marks.filled
      have hstart := hcut.marks.start_valid
      -- what begins with this token goes on behind it
      have first {m : Parser TypeExpr}
          (hm : ∀ s' : Reading, s'.Tracks source text → t.span.start < s'.lastStop →
            Leaves source text s' m (Read text)) :
          Leaves source text s (bump >>= fun _ => m) (Read text) := by
        apply leaves_bump_of_settled hs hsees.settled hrest
        rintro s' hs' rfl
        exact hm _ hs' hfilled
      subst hspan
      simp only [List.head?_cons]
      split
      · exact first fun s' hs' hlt => leaves_pointer ih hs' hstart hlt
      · exact first fun s' hs' hlt => leaves_sequence ih hs' hstart hlt
      · exact first fun s' hs' hlt => leaves_map ih hs' hstart hlt
      · exact first fun s' hs' hlt => leaves_record ih hs' hstart hlt
      · exact first fun s' hs' hlt => leaves_named t.text hs' hstart hlt
      · exact hfail

end Types

section Items

theorem traces_literal :
    Traces source text literal fun value? _ => ∀ value ∈ value?, value.2.Marks text := by
  intro r hr
  apply (leaves_current hr).bind
  intro t? s hs _ ht
  obtain ⟨rfl, hsettled, -⟩ := ht
  have hfail : Leaves source text s (fail .expectedLiteral none >>= fun _ => pure none :
      Parser (Option (Literal × Span))) fun value? _ => ∀ value ∈ value?, value.2.Marks text :=
    (leaves_fail _ _ hs).bind fun _ s hs _ _ => .pure hs nofun
  cases hrest : s.rest with
  | nil => exact hfail
  | cons t ts =>
    have hmarks := (hs.next_le hrest).1.marks
    have htake (value : Literal) : Leaves source text s (bump >>= fun _ =>
        pure (some (value, t.span)) : Parser (Option (Literal × Span)))
          fun value? _ => ∀ value ∈ value?, value.2.Marks text := by
      apply (leaves_bump hs).bind
      intro _ s hs _ _
      refine .pure hs ?_
      intro value hvalue
      obtain rfl := Option.some.inj hvalue
      exact hmarks
    have hleave (s : Reading) (hs : s.Tracks source text) : Leaves source text s (bump >>= fun _ =>
        pure none : Parser (Option (Literal × Span)))
          fun value? _ => ∀ value ∈ value?, value.2.Marks text :=
      (leaves_bump hs).bind fun _ s hs _ _ => .pure hs nofun
    have hnext := hs.reports_next hrest
    obtain ⟨kind, word, span⟩ := t
    simp only [List.head?_cons]
    split
    · next heq =>
      obtain ⟨rfl, rfl, rfl⟩ := Token.mk.inj (Option.some.inj heq)
      exact htake _
    · next heq =>
      obtain ⟨rfl, rfl, rfl⟩ := Token.mk.inj (Option.some.inj heq)
      cases integerLiteral word with
      | some value => exact htake value
      | none => exact (leaves_report hs (hnext _ _)).bind fun _ s hs _ _ => hleave s hs
    · next heq =>
      obtain ⟨rfl, rfl, rfl⟩ := Token.mk.inj (Option.some.inj heq)
      cases Binary64.ofText? word with
      | some value => exact htake _
      | none => exact (leaves_fail _ _ hs).bind fun _ s hs _ _ => hleave s hs
    · exact hfail

theorem traces_variant (doc : Option String) :
    Traces source text (variant doc) fun v? _ => ∀ v ∈ v?, v.Marked text := by
  intro r hr
  apply (leaves_name hr).bind
  intro name? s hs _ hname
  cases name? with
  | none => exact .pure hs nofun
  | some name =>
    apply (leaves_expect .equals hs).bind
    intro equals? s hs _ _
    cases equals? with
    | none => exact (traced_recoverInBlock s hs).bind fun _ s hs _ _ => .pure hs nofun
    | some equals =>
      apply (traces_literal s hs).bind
      intro value? s hs _ hvalue
      cases value? with
      | none => exact .pure hs nofun
      | some value =>
        refine .pure hs ?_
        intro v hv
        obtain rfl := Option.some.inj hv
        exact ⟨(hname name rfl).name, hvalue value rfl⟩

theorem traces_variants :
    Traces source text variants fun vs _ => ∀ v ∈ vs, v.Marked text := by
  apply traces_braces
  intro kind read doc hread
  unfold variantEntry at hread
  split at hread
  · obtain rfl := Option.some.inj hread
    intro r hr
    apply (traces_variant doc r hr).bind
    intro v? s hs _ h
    exact .pure hs (by simpa using h)
  · cases hread

/-- Work that reads an item. -/
abbrev TracesItem (source : SourceId) (text : String) (m : Parser (Option Item)) : Prop :=
  Traces source text m fun item? _ => ∀ item ∈ item?, item.Marked text

theorem leaves_recoverToItem (hr : r.Tracks source text) :
    Leaves source text r (recoverToItem >>= fun _ => pure none : Parser (Option Item))
      fun item? _ => ∀ item ∈ item?, item.Marked text :=
  (traced_recoverToItem r hr).bind fun _ _ hs _ _ => .pure hs nofun

theorem traces_structItem (doc : Option String) : TracesItem source text (structItem doc) := by
  intro r hr
  apply (leaves_bump hr).bind
  intro _ s hs _ _
  apply (leaves_name hs).bind
  intro name? s hs _ hname
  cases name? with
  | none => exact leaves_recoverToItem hs
  | some name =>
    apply (traces_members (traces_type maxDepth) s hs).bind
    intro ms s hs _ hms
    refine .pure hs ?_
    intro item hitem
    obtain rfl := Option.some.inj hitem
    exact ⟨(hname name rfl).name, hms⟩

theorem traces_enumItem (doc : Option String) : TracesItem source text (enumItem doc) := by
  intro r hr
  apply (leaves_bump hr).bind
  intro _ s hs _ _
  apply (leaves_name hs).bind
  intro name? s hs _ hname
  cases name? with
  | none => exact leaves_recoverToItem hs
  | some name =>
    apply (leaves_expect .colon hs).bind
    intro colon? s hs _ _
    cases colon? with
    | none => exact leaves_recoverToItem hs
    | some colon =>
      apply (leaves_name hs).bind
      intro base? s hs _ hbase
      cases base? with
      | none => exact leaves_recoverToItem hs
      | some base =>
        apply (traces_variants s hs).bind
        intro vs s hs _ hvs
        refine .pure hs ?_
        intro item hitem
        obtain rfl := Option.some.inj hitem
        exact ⟨(hname name rfl).name, (hbase base rfl).name, hvs⟩

theorem traces_synonymItem (doc : Option String) : TracesItem source text (synonymItem doc) := by
  intro r hr
  apply (leaves_bump hr).bind
  intro _ s hs _ _
  apply (leaves_name hs).bind
  intro name? s hs _ hname
  cases name? with
  | none => exact leaves_recoverToItem hs
  | some name =>
    apply (leaves_expect .equals hs).bind
    intro equals? s hs _ _
    cases equals? with
    | none => exact leaves_recoverToItem hs
    | some equals =>
      apply (traces_type maxDepth s hs).bind
      intro target s hs _ htarget
      refine .pure hs ?_
      intro item hitem
      obtain rfl := Option.some.inj hitem
      exact ⟨(hname name rfl).name, htarget.marked⟩

/-- A header lies before the tokens ahead. -/
theorem leaves_packageHeader (hr : r.Tracks source text) (hsettled : Settled r)
    (hrest : r.rest = t :: ts) : Leaves source text r packageHeader fun header? s =>
      ∀ header ∈ header?, header.span.Marks text ∧ header.span.stop ≤ s.lastStop := by
  obtain ⟨hcut, hlast, -⟩ := hr.next_le hrest
  have hkeyword := hcut.marks
  have hfilled := hkeyword.filled
  apply leaves_bump_of_settled hr hsettled hrest
  intro s hs hs_eq
  have hstop : s.lastStop = t.span.stop := by rw [hs_eq]
  apply (leaves_eat .string hs).bind
  intro string? s2 hs2 hle2 hstring
  cases string? with
  | some u =>
    have hate := hstring u rfl
    have hfrom := hate.start
    have hu := hate.marks
    have hlt := hu.filled
    refine .pure hs2 ?_
    intro header hheader
    obtain rfl := Option.some.inj hheader
    have hle : t.span.start ≤ u.span.stop := by omega
    refine ⟨⟨hkeyword.toLiesIn.to hu.toLiesIn hle, ?_⟩, Nat.le_of_eq hate.stop.symm⟩
    show t.span.start < u.span.stop
    omega
  | none =>
    apply (leaves_name hs2).bind
    intro first? s3 hs3 hle3 _
    cases first? with
    | none => exact .pure hs3 nofun
    | some first =>
      apply (traced_pathRest s3 hs3).bind
      intro segments s4 hs4 hle4 _
      split
      · refine ⟨hs4, Nat.le_refl _, ?_⟩
        intro header hheader
        obtain rfl := Option.some.inj hheader
        have hlt : t.span.start < s4.lastStop := by omega
        exact ⟨⟨⟨Nat.le_of_lt hlt, hs4.lastStop_valid.le_utf8ByteSize, hkeyword.start_valid,
          hs4.lastStop_valid⟩, hlt⟩, Nat.le_refl _⟩
      · exact .pure hs4 nofun

theorem leaves_keepHeader {header : PackageHeader} (hr : r.Tracks source text)
    (hheader : header.span.Marks text) (hstop : header.span.stop ≤ r.lastStop) :
    Leaves source text r (keepHeader header) fun _ _ => True := by
  unfold keepHeader
  apply (leaves_get hr).bind
  rintro _ r hr - ⟨rfl, rfl⟩
  cases hpackage : r.package with
  | none =>
    refine ⟨{ hr with header := ?_ }, Nat.le_refl _, trivial⟩
    intro h hh
    obtain rfl := Option.some.inj hh
    exact hheader
  | some first =>
    have hreports : r.Reports text .duplicatePackage header.span
        [⟨r.source, first.span, "first declared here"⟩] [] := by
      refine ⟨hheader.pointsInto, ?_, ?_, .inl (.inl rfl)⟩
      · intro x hx
        obtain rfl := List.mem_singleton.mp hx
        exact ⟨rfl, hr.header first hpackage⟩
      · intro t ht
        have hfilled := hheader.filled
        have hnext := (hr.ahead t ht).2
        omega
    exact (leaves_report hr hreports).imp fun _ _ _ => trivial

theorem traces_itemRound :
    Traces source text itemRound fun x _ => ∀ item ∈ x.1, item.Marked text := by
  intro r hr
  apply (traced_docs r hr).bind
  intro doc s hs _ _
  apply (leaves_currentKind hs).bind
  intro kind? s hs _ hkind
  have item {m : Parser (Option Item)} (hm : TracesItem source text m) :
      Leaves source text s (do return ((← m).toList, true) : Parser (List Item × Bool))
        fun x _ => ∀ item ∈ x.1, item.Marked text := by
    apply (hm s hs).bind
    intro item? s hs _ h
    exact .pure hs (by simpa using h)
  split
  · exact .pure hs nofun
  · obtain ⟨hkind, hsettled⟩ := hkind
    obtain ⟨t, hhead, -⟩ := Option.map_eq_some_iff.mp hkind.symm
    obtain ⟨ts, hrest⟩ := List.head?_eq_some_iff.mp hhead
    have hpackage : Leaves source text s package fun _ _ => True := by
      apply (leaves_packageHeader hs hsettled hrest).bind
      intro header? s hs _ hheader
      cases header? with
      | none => exact .pure hs trivial
      | some header =>
        exact leaves_keepHeader hs (hheader header rfl).1 (hheader header rfl).2
    exact hpackage.bind fun _ s hs _ _ => .pure hs nofun
  · exact item (traces_structItem doc)
  · exact item (traces_enumItem doc)
  · exact item (traces_synonymItem doc)
  · apply (leaves_fail _ _ hs).bind
    intro _ s hs _ _
    apply (traced_recoverToItem s hs).bind
    exact fun _ s hs _ _ => .pure hs nofun

theorem traces_items : Traces source text items fun xs _ => ∀ x ∈ xs, x.Marked text :=
  traces_collect traces_itemRound

end Items

end Parser

/-- Where reading a text ends. -/
theorem tracks_parse (source : SourceId) (text : String) :
    (Parser.items (.start source text)).2.Tracks source text :=
  (Parser.traces_items _ (Reading.Tracks.start source text)).tracks

theorem marked_parse (source : SourceId) (text : String) :
    ∀ item ∈ (parse source text).1.items, item.Marked text :=
  (Parser.traces_items _ (Reading.Tracks.start source text)).result

end TypeGraph.Schema

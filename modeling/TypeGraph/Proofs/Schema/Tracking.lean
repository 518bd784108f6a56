import Mathlib.Data.List.Chain
import TypeGraph.Proofs.Schema.Cutting
import TypeGraph.Proofs.Schema.Sound
/-!
Reading keeps track of its text. Whatever the text, what is reported and what is kept of it points
to where it was read, and reports at the token ahead come in the order of the text.
-/

namespace TypeGraph

/-- Reported of a construct when all of it has been read: its beginning lies behind. -/
def Diagnostic.Late (d : Diagnostic) : Prop :=
  d.kind = .duplicatePackage ∨ d.hints = ["embedded members name a struct, e.g. `..Base`"]

instance (d : Diagnostic) : Decidable d.Late :=
  inferInstanceAs (Decidable (_ ∨ _))

/-- A diagnostic that points into the source that it is about. -/
structure Diagnostic.PointsInto (source : SourceId) (text : String) (d : Diagnostic) : Prop where
  source_eq : d.source = source
  span : d.span.PointsInto text
  related : ∀ x ∈ d.related, x.source = source ∧ x.span.Marks text

namespace Schema

/-- A name that stands where its span says. -/
structure Name.CutFrom (text : String) (n : Name) : Prop where
  cuts : n.span.Cuts text n.text
  filled : n.text ≠ ""

theorem Name.CutFrom.marks {text : String} {n : Name} (h : n.CutFrom text) : n.span.Marks text :=
  h.cuts.marks h.filled

/-- The name and the attributes of a member stand in the text. An embedded member has no name of its
own; it points to its type. -/
structure MemberDef.Marked (text : String) (m : MemberDef TypeExpr) : Prop where
  name : if m.embedded then m.name.span = m.type.span ∧ m.name.span.Marks text
    else m.name.CutFrom text
  attributes : ∀ a ∈ m.attributes, a.span.Marks text

/-- Where an expression itself stands; a hole may be empty. -/
def TypeExpr.MarkedAt (text : String) : TypeExpr → Prop
  | .record ms span => span.Marks text ∧ ∀ m ∈ ms, m.Marked text
  | .hole span => span.LiesIn text
  | x => x.span.Marks text

/-- An expression all parts of which stand in the text. -/
def TypeExpr.Marked (text : String) (x : TypeExpr) : Prop :=
  ∀ y, Within y x → y.MarkedAt text

structure Variant.Marked (text : String) (v : Variant) : Prop where
  name : v.name.CutFrom text
  value : v.valueSpan.Marks text

/-- An item all parts of which stand in the text. -/
def Item.Marked (text : String) : Item → Prop
  | .struct d => d.name.CutFrom text ∧ ∀ m ∈ d.members, m.Marked text ∧ m.type.Marked text
  | .enum d => d.name.CutFrom text ∧ d.base.CutFrom text ∧ ∀ v ∈ d.variants, v.Marked text
  | .synonym d => d.name.CutFrom text ∧ d.target.Marked text

namespace Reading

/-- What holds all through reading a text. The tokens ahead are cut from it in order, and nothing
that was kept or reported begins behind the next of them. Neighbouring reports begin at different
places, and only a late one begins before the report in front of it. -/
structure Tracks (source : SourceId) (text : String) (r : Reading) : Prop where
  source_eq : r.source = source
  stop_eq : r.stop = text.utf8ByteSize
  ahead : ∀ t ∈ r.rest, t.CutFrom text ∧ r.lastStop ≤ t.span.start
  ordered : r.rest.Pairwise fun t u => t.span.stop ≤ u.span.start
  lastStop_valid : String.Pos.Raw.IsValid text ⟨r.lastStop⟩
  header : ∀ h ∈ r.package, h.span.Marks text
  told : ∀ d ∈ r.diagnostics, d.PointsInto source text
  behind : ∀ d ∈ r.diagnostics, ∀ t ∈ r.rest, d.span.start ≤ t.span.start
  rising : r.diagnostics.IsChain fun d e =>
    d.span.start ≠ e.span.start ∧ (e.Late ∨ d.span.start < e.span.start)
  lastReport_eq : r.lastReport = r.diagnostics.getLast?.map (·.span.start)

/-- Nothing was reported at the tokens ahead. -/
def Fresh (r : Reading) : Prop :=
  ∀ d ∈ r.diagnostics, ∀ t ∈ r.rest, d.span.start < t.span.start

variable {source : SourceId} {text : String} {r : Reading} {t : Token} {ts : List Token}
variable {kind : Diagnostic.Kind} {span : Span} {detail? : Option String}
variable {related : List Diagnostic.Related} {hints : List String}

theorem Tracks.start (source : SourceId) (text : String) :
    (Reading.start source text).Tracks source text where
  source_eq := rfl
  stop_eq := rfl
  ahead t ht := ⟨cutFrom_tokens text t ht, Nat.zero_le _⟩
  ordered := tokens_ordered text
  lastStop_valid := String.Pos.Raw.isValid_zero
  header := nofun
  told := nofun
  behind := nofun
  rising := .nil
  lastReport_eq := rfl

/-- Where a diagnostic may be reported: not behind the next token, and unless it is late not before
an earlier report. -/
structure Reports (text : String) (r : Reading) (kind : Diagnostic.Kind) (span : Span)
    (related : List Diagnostic.Related) (hints : List String) : Prop where
  points : span.PointsInto text
  explained : ∀ x ∈ related, x.source = r.source ∧ x.span.Marks text
  behind : ∀ t ∈ r.rest, span.start ≤ t.span.start
  rising : (Diagnostic.make r.source kind span none related hints).Late ∨
    ∀ d ∈ r.diagnostics, d.span.start ≤ span.start

theorem Tracks.report (detail? : Option String) (hr : r.Tracks source text)
    (h : r.Reports text kind span related hints) :
    (r.report kind span detail? related hints).Tracks source text := by
  unfold Reading.report
  split
  · exact hr
  · next hlast =>
    have hsource := hr.source_eq
    refine { hr with told := ?_, behind := ?_, rising := ?_, lastReport_eq := by simp [Diagnostic.make] }
    · intro d hd
      rcases List.mem_append.mp hd with hd | hd
      · exact hr.told d hd
      · obtain rfl := List.mem_singleton.mp hd
        exact ⟨hsource, h.points, fun x hx => hsource ▸ h.explained x hx⟩
    · intro d hd t ht
      rcases List.mem_append.mp hd with hd | hd
      · exact hr.behind d hd t ht
      · obtain rfl := List.mem_singleton.mp hd
        exact h.behind t ht
    · refine List.isChain_append.mpr ⟨hr.rising, .singleton _, ?_⟩
      intro d hd e he
      obtain rfl := Option.some.inj he
      have hne : d.span.start ≠ span.start := by
        intro heq
        apply hlast
        rw [hr.lastReport_eq, Option.mem_def.mp hd, ← heq]
        rfl
      refine ⟨hne, ?_⟩
      rcases h.rising with hlate | hle
      · exact .inl hlate
      · right
        have hle : d.span.start ≤ span.start := hle d (List.mem_of_getLast? hd)
        show d.span.start < span.start
        omega

theorem Tracks.next_le (hr : r.Tracks source text) (h : r.rest = t :: ts) :
    t.CutFrom text ∧ r.lastStop ≤ t.span.start ∧ ∀ u ∈ ts, t.span.stop ≤ u.span.start := by
  have hnext := hr.ahead t (h ▸ List.mem_cons_self)
  have hordered := hr.ordered
  rw [h] at hordered
  exact ⟨hnext.1, hnext.2, (List.pairwise_cons.mp hordered).1⟩

/-- A report at the next token. -/
theorem Tracks.reports_next (hr : r.Tracks source text) (h : r.rest = t :: ts)
    (kind : Diagnostic.Kind) (hints : List String) : r.Reports text kind t.span [] hints := by
  obtain ⟨hcut, -, hts⟩ := hr.next_le h
  have hfilled := hcut.marks.filled
  refine ⟨hcut.marks.pointsInto, nofun, ?_, .inr fun d hd => hr.behind d hd t (h ▸ List.mem_cons_self)⟩
  intro u hu
  rw [h] at hu
  rcases List.mem_cons.mp hu with rfl | hu
  · exact Nat.le_refl _
  · have hle := hts u hu
    omega

/-- Tokens can be left out in front. -/
theorem Tracks.drop (hr : r.Tracks source text) (h : r.rest = t :: ts) :
    Tracks source text { r with rest := ts } := by
  have hmem : ∀ u ∈ ts, u ∈ r.rest := fun u hu => h ▸ List.mem_cons_of_mem t hu
  have hordered := hr.ordered
  rw [h] at hordered
  exact { hr with
    ahead := fun u hu => hr.ahead u (hmem u hu)
    ordered := hordered.tail
    behind := fun d hd u hu => hr.behind d hd u (hmem u hu) }

/-- Behind a token nothing has been reported yet. -/
theorem Tracks.fresh_of_next (hr : r.Tracks source text) (h : r.rest = t :: ts) :
    Fresh { r with rest := ts } := by
  intro d hd u hu
  obtain ⟨hcut, -, hts⟩ := hr.next_le h
  have hd := hr.behind d hd t (h ▸ List.mem_cons_self)
  have hfilled := hcut.marks.filled
  have hu := hts u hu
  show d.span.start < u.span.start
  omega

theorem Tracks.take (hr : r.Tracks source text) (h : r.rest = t :: ts) :
    Tracks source text { r with rest := ts, lastStop := t.span.stop } := by
  obtain ⟨hcut, -, hts⟩ := hr.next_le h
  have hdrop := hr.drop h
  exact { hdrop with
    ahead := fun u hu => ⟨(hdrop.ahead u hu).1, hts u hu⟩
    lastStop_valid := hcut.marks.stop_valid }

@[simp] theorem lastStop_report :
    (r.report kind span detail? related hints).lastStop = r.lastStop := by
  unfold Reading.report
  split <;> rfl

theorem Tracks.skipGarbage (hr : r.Tracks source text) (h : r.rest = ts) :
    (r.skipGarbage ts).Tracks source text ∧ (r.skipGarbage ts).lastStop = r.lastStop ∧
      (r.Fresh → (r.skipGarbage ts).Fresh) := by
  induction ts generalizing r with
  | nil =>
    rw [Reading.skipGarbage, ← h]
    exact ⟨hr, rfl, id⟩
  | cons t ts ih =>
    rw [Reading.skipGarbage]
    split
    · have htold := hr.report none (hr.reports_next h .unexpectedCharacter [])
      have hrest : (r.report .unexpectedCharacter t.span none [] []).rest = t :: ts := by
        rw [rest_report, h]
      obtain ⟨hnext, hstop, hfresh⟩ := ih (htold.drop hrest) rfl
      rw [skipGarbage_with_rest] at hnext hstop hfresh
      refine ⟨hnext, ?_, fun _ => hfresh (htold.fresh_of_next hrest)⟩
      rw [hstop]
      exact lastStop_report
    · rw [← h]
      exact ⟨hr, rfl, id⟩

end Reading

namespace Parser

open Reading

variable {α β : Type} {source : SourceId} {text : String} {r s : Reading} {t : Token}
variable {ts : List Token} {P Q : α → Reading → Prop}

/-- Work that keeps track of the text from one point on, with a result of which `Q` holds. -/
structure Leaves (source : SourceId) (text : String) (r : Reading) (m : Parser α)
    (Q : α → Reading → Prop) : Prop where
  tracks : (m r).2.Tracks source text
  later : r.lastStop ≤ (m r).2.lastStop
  result : Q (m r).1 (m r).2

/-- Work that keeps track of the text, wherever it begins. -/
abbrev Traces (source : SourceId) (text : String) (m : Parser α) (Q : α → Reading → Prop) : Prop :=
  ∀ r, r.Tracks source text → Leaves source text r m Q

theorem Leaves.pure {a : α} (hr : r.Tracks source text) (h : Q a r) :
    Leaves source text r (Pure.pure a) Q :=
  ⟨hr, Nat.le_refl _, h⟩

theorem Leaves.bind {m : Parser α} {f : α → Parser β} {R : β → Reading → Prop}
    (hm : Leaves source text r m P)
    (hf : ∀ a s, s.Tracks source text → r.lastStop ≤ s.lastStop → P a s →
      Leaves source text s (f a) R) : Leaves source text r (m >>= f) R := by
  have hrest := hf (m r).1 (m r).2 hm.tracks hm.later hm.result
  exact ⟨hrest.tracks, Nat.le_trans hm.later hrest.later, hrest.result⟩

theorem Leaves.imp {m : Parser α} (h : Leaves source text r m P)
    (hPQ : ∀ a s, P a s → Q a s) : Leaves source text r m Q :=
  ⟨h.tracks, h.later, hPQ _ _ h.result⟩

theorem leaves_get (hr : r.Tracks source text) :
    Leaves source text r (get : Parser Reading) fun a s => a = r ∧ s = r :=
  ⟨hr, Nat.le_refl _, rfl, rfl⟩

section Tokens

theorem leaves_current (hr : r.Tracks source text) : Leaves source text r current fun t? s =>
    t? = s.rest.head? ∧ Settled s ∧ (r.Fresh → s.Fresh) := by
  obtain ⟨htracks, hstop, hfresh⟩ := hr.skipGarbage rfl
  exact ⟨htracks, Nat.le_of_eq hstop.symm, rfl, readable_skipGarbage r r.rest, hfresh⟩

theorem leaves_currentKind (hr : r.Tracks source text) :
    Leaves source text r currentKind fun kind? s =>
      kind? = s.rest.head?.map (·.kind) ∧ Settled s := by
  apply (leaves_current hr).bind
  intro t? s hs _ ht
  exact .pure hs ⟨congrArg _ ht.1, ht.2.1⟩

/-- What is seen as the next span. -/
structure Sees (text : String) (r : Reading) (span : Span) (s : Reading) : Prop where
  points : span.PointsInto text
  settled : Settled s
  next : ∀ t ∈ s.rest.head?, span = t.span
  after : r.lastStop ≤ span.start
  reports : ∀ kind hints, s.Reports text kind span [] hints

theorem pointsInto_end (text : String) :
    Span.PointsInto text ⟨text.utf8ByteSize, text.utf8ByteSize⟩ :=
  ⟨⟨Nat.le_refl _, Nat.le_refl _, String.Pos.Raw.isValid_rawEndPos,
    String.Pos.Raw.isValid_rawEndPos⟩, .inr rfl⟩

theorem leaves_currentSpan (hr : r.Tracks source text) :
    Leaves source text r currentSpan (Sees text r) := by
  apply (leaves_current hr).bind
  intro t? s hs hle ht
  obtain ⟨rfl, hsettled, -⟩ := ht
  cases hrest : s.rest with
  | nil =>
    have hend : s.stop = text.utf8ByteSize := hs.stop_eq
    have hbefore : s.lastStop ≤ s.stop := hend ▸ hs.lastStop_valid.le_utf8ByteSize
    have hpoints : Span.PointsInto text ⟨s.stop, s.stop⟩ := hend ▸ pointsInto_end text
    have hreports (kind : Diagnostic.Kind) (hints : List String) :
        s.Reports text kind ⟨s.stop, s.stop⟩ [] hints := by
      refine ⟨hpoints, nofun, by simp [hrest], .inr fun d hd => ?_⟩
      have hspan := (hs.told d hd).span
      show d.span.start ≤ s.stop
      exact hend ▸ Nat.le_trans hspan.ordered hspan.inside
    have hsees : Sees text r ⟨s.stop, s.stop⟩ s :=
      ⟨hpoints, hsettled, by simp [hrest], Nat.le_trans hle hbefore, hreports⟩
    exact ⟨hs, Nat.le_refl _, hsees⟩
  | cons t ts =>
    obtain ⟨hcut, hlast, -⟩ := hs.next_le hrest
    have hsees : Sees text r t.span s := by
      refine ⟨hcut.marks.pointsInto, hsettled, ?_, Nat.le_trans hle hlast, fun _ _ =>
        hs.reports_next hrest _ _⟩
      intro u hu
      rw [hrest] at hu
      exact congrArg Token.span (Option.some.inj hu)
    exact .pure hs hsees

theorem leaves_current_of_settled {f : Option Token → Parser α} (h : Settled r)
    (hf : Leaves source text r (f r.rest.head?) Q) : Leaves source text r (current >>= f) Q := by
  have hrun : (current >>= f) r = f r.rest.head? r := by
    rw [run_bind, current_of_settled h]
  exact ⟨hrun ▸ hf.tracks, hrun ▸ hf.later, hrun ▸ hf.result⟩

/-- What begins with the next token goes on behind it. -/
theorem leaves_bump_of_settled {f : Span → Parser α} (hr : r.Tracks source text) (h : Settled r)
    (hrest : r.rest = t :: ts)
    (hf : ∀ s : Reading, s.Tracks source text → s = { r with rest := ts, lastStop := t.span.stop } →
      Leaves source text s (f t.span) Q) : Leaves source text r (bump >>= f) Q := by
  obtain ⟨hcut, hlast, -⟩ := hr.next_le hrest
  have hleaves := hf _ (hr.take hrest) rfl
  have hrun : (bump >>= f) r = f t.span { r with rest := ts, lastStop := t.span.stop } := by
    rw [run_bind, bump_of_settled h hrest]
  have hlater := Nat.le_trans (Nat.le_trans hlast hcut.marks.ordered) hleaves.later
  exact ⟨hrun ▸ hleaves.tracks, hrun ▸ hlater, hrun ▸ hleaves.result⟩

theorem leaves_bump (hr : r.Tracks source text) :
    Leaves source text r bump fun _ _ => True := by
  have hcurrent := leaves_current hr
  cases hrest : (current r).2.rest with
  | nil =>
    have hbump := bump_eq_nil hrest
    have hspan := leaves_currentSpan hcurrent.tracks
    exact ⟨hbump ▸ hspan.tracks, hbump ▸ Nat.le_trans hcurrent.later hspan.later, trivial⟩
  | cons t ts =>
    have hbump := bump_eq_cons hrest
    obtain ⟨hcut, hlast, -⟩ := hcurrent.tracks.next_le hrest
    have hlater := Nat.le_trans hcurrent.later (Nat.le_trans hlast hcut.marks.ordered)
    exact ⟨hbump ▸ hcurrent.tracks.take hrest, hbump ▸ hlater, trivial⟩

/-- A piece of the text that was taken. Nothing was reported at the tokens behind it. -/
structure Ate (text : String) (r : Reading) (piece : String) (span : Span) (s : Reading) :
    Prop where
  cuts : span.Cuts text piece
  filled : piece ≠ ""
  start : r.lastStop ≤ span.start
  stop : s.lastStop = span.stop
  fresh : s.Fresh
  after : r.Fresh → ∀ d ∈ s.diagnostics, d.span.start < span.start

theorem Ate.marks {piece : String} {span : Span} (h : Ate text r piece span s) : span.Marks text :=
  h.cuts.marks h.filled

theorem leaves_eat (kind : TokenKind) (hr : r.Tracks source text) :
    Leaves source text r (eat kind) fun t? s => ∀ t ∈ t?, Ate text r t.text t.span s := by
  apply (leaves_current hr).bind
  intro t? s hs hle ht
  obtain ⟨rfl, hsettled, hfresh⟩ := ht
  cases hrest : s.rest with
  | nil => exact .pure hs (by simp)
  | cons t ts =>
    by_cases hk : t.kind = kind
    · obtain ⟨hcut, hlast, -⟩ := hs.next_le hrest
      have heat : Ate text r t.text t.span { s with rest := ts, lastStop := t.span.stop } :=
        { cuts := hcut.cuts
          filled := hcut.filled
          start := Nat.le_trans hle hlast
          stop := rfl
          fresh := hs.fresh_of_next hrest
          after := fun hr d hd => hfresh hr d hd t (hrest ▸ List.mem_cons_self) }
      simp only [List.head?_cons, if_pos hk]
      apply leaves_bump_of_settled hs hsettled hrest
      rintro _ hs rfl
      refine .pure hs ?_
      intro u hu
      obtain rfl := Option.some.inj hu
      exact heat
    · simp only [List.head?_cons, if_neg hk]
      exact .pure hs (by simp)

theorem leaves_report {kind : Diagnostic.Kind} {span : Span} {detail? : Option String}
    {related : List Diagnostic.Related} {hints : List String} (hr : r.Tracks source text)
    (h : r.Reports text kind span related hints) :
    Leaves source text r (report kind span detail? related hints) fun _ s =>
      s.lastStop = r.lastStop :=
  ⟨hr.report detail? h, Nat.le_of_eq lastStop_report.symm, lastStop_report⟩

theorem leaves_fail (kind : Diagnostic.Kind) (detail? : Option String) (hr : r.Tracks source text) :
    Leaves source text r (fail kind detail?) fun _ _ => True := by
  apply (leaves_currentSpan hr).bind
  intro span s hs _ hsees
  exact (leaves_report hs (hsees.reports kind [])).imp fun _ _ _ => trivial

theorem leaves_expect (kind : TokenKind) (hr : r.Tracks source text) :
    Leaves source text r (expect kind) fun t? s => ∀ t ∈ t?, Ate text r t.text t.span s := by
  apply (leaves_eat kind hr).bind
  intro t? s hs _ ht
  cases t? with
  | some t => exact .pure hs ht
  | none =>
    apply (leaves_fail _ _ hs).bind
    exact fun _ s hs _ _ => .pure hs nofun

theorem leaves_name (hr : r.Tracks source text) :
    Leaves source text r name fun n? s => ∀ n ∈ n?, Ate text r n.text n.span s := by
  apply (leaves_eat .identifier hr).bind
  intro t? s hs _ ht
  cases t? with
  | some t =>
    refine .pure hs ?_
    intro n hn
    obtain rfl := Option.some.inj hn
    exact ht t rfl
  | none =>
    apply (leaves_fail _ _ hs).bind
    exact fun _ s hs _ _ => .pure hs nofun

theorem Ate.name {n : Name} (h : Ate text r n.text n.span s) : n.CutFrom text :=
  ⟨h.cuts, h.filled⟩

end Tokens

section Loops

/-- What every round finds all rounds find. -/
theorem traces_collect {round : Parser (List α × Bool)} {P : α → Prop}
    (hround : Traces source text round fun x _ => ∀ a ∈ x.1, P a) :
    Traces source text (collect round) fun xs _ => ∀ a ∈ xs, P a := by
  intro r hr
  induction hn : r.rest.length using Nat.strongRecOn generalizing r with
  | ind n ih =>
    subst hn
    have hleaves := hround r hr
    by_cases hgo : (round r).1.2 ∧ (round r).2.rest.length < r.rest.length
    · have hmore := ih _ hgo.2 (round r).2 hleaves.tracks rfl
      have hrun : collect round r =
          ((round r).1.1 ++ (collect round (round r).2).1, (collect round (round r).2).2) := by
        rw [collect_eq, if_pos hgo]
      refine ⟨hrun ▸ hmore.tracks, hrun ▸ Nat.le_trans hleaves.later hmore.later, ?_⟩
      rw [hrun]
      intro a ha
      exact (List.mem_append.mp ha).elim (hleaves.result a) (hmore.result a)
    · have hrun : collect round r = ((round r).1.1, (round r).2) := by
        rw [collect_eq, if_neg hgo]
      exact ⟨hrun ▸ hleaves.tracks, hrun ▸ hleaves.later, hrun ▸ hleaves.result⟩

/-- Work of which only the trace matters. -/
abbrev Traced (source : SourceId) (text : String) (m : Parser α) : Prop :=
  Traces source text m fun _ _ => True

theorem traced_collect {round : Parser (List α × Bool)} (h : Traced source text round) :
    Traced source text (collect round) := by
  have hround : Traces source text round fun x _ => ∀ a ∈ x.1, True :=
    fun r hr => (h r hr).imp fun _ _ _ _ _ => trivial
  exact fun r hr => (traces_collect hround r hr).imp fun _ _ _ => trivial

theorem traced_skipUntil (stops : List Token → Bool) : Traced source text (skipUntil stops) := by
  have hround : Traced source text (skipRound stops) := by
    intro r hr
    apply (leaves_current hr).bind
    intro t? s hs _ _
    cases t? with
    | none => exact .pure hs trivial
    | some t =>
      have hgoOn (stop : Bool) : Leaves source text s (if stop then pure ([], false)
          else bump >>= fun _ => pure ([], true) : Parser (List Unit × Bool))
            fun _ _ => True := by
        cases stop with
        | true => exact .pure hs trivial
        | false => exact (leaves_bump hs).bind fun _ s hs _ _ => .pure hs trivial
      have hrounds := hgoOn (stops s.rest)
      exact ⟨hrounds.tracks, hrounds.later, trivial⟩
  intro r hr
  exact (traced_collect hround r hr).bind fun _ s hs _ _ => .pure hs trivial

theorem traced_recoverToItem : Traced source text recoverToItem :=
  fun _ hr => (leaves_bump hr).bind fun _ _ hs _ _ => traced_skipUntil atItem _ hs

theorem traced_recoverInBlock : Traced source text recoverInBlock :=
  fun _ hr => (leaves_bump hr).bind fun _ _ hs _ _ => traced_skipUntil atMember _ hs

theorem traced_docs : Traced source text docs := by
  have hround : Traced source text docRound := by
    intro r hr
    apply (leaves_eat .docComment hr).bind
    intro t? s hs _ _
    cases t? <;> exact .pure hs trivial
  exact fun r hr => (traced_collect hround r hr).bind fun _ s hs _ _ => .pure hs trivial

theorem traced_pathRest : Traced source text pathRest := by
  have hfound (x : List (Option String) × Bool) : Traced source text (Pure.pure x) :=
    fun _ hs => .pure hs trivial
  have hsegment {f : Option Name → Parser (List (Option String) × Bool)}
      (hnone : Traced source text (f none)) (hsome : ∀ n, Traced source text (f (some n))) :
      Traced source text (name >>= f) := by
    intro r hr
    apply (leaves_name hr).bind
    intro n? s hs _ _
    cases n? with
    | none => exact hnone s hs
    | some n => exact hsome n s hs
  apply traced_collect
  intro r hr
  apply (leaves_eat .dot hr).bind
  intro dot? s hs _ _
  cases dot? with
  | some t =>
    simp only [pure_bind]
    exact hsegment (hfound _) (fun _ => hfound _) s hs
  | none =>
    apply (leaves_eat .slash hs).bind
    intro slash? s hs _ _
    cases slash? with
    | some t => exact hsegment (hfound _) (fun _ => hfound _) s hs
    | none => exact hfound _ s hs

theorem traced_skipArguments : Traced source text skipArguments := by
  have hround : Traced source text argumentRound := by
    intro r hr
    apply (leaves_currentKind hr).bind
    intro kind? s hs _ _
    cases kind? with
    | none => exact .pure hs trivial
    | some kind =>
      by_cases hstop : kind = .rightBrace ∨ kind.startsItem
      · simp only [if_pos hstop]
        exact .pure hs trivial
      · simp only [if_neg hstop]
        exact (leaves_bump hs).bind fun _ s hs _ _ => .pure hs trivial
  intro r hr
  apply (leaves_currentKind hr).bind
  intro kind? s hs _ _
  by_cases hopen : kind? = some .leftParen
  · rw [if_pos hopen]
    exact (traced_collect hround s hs).bind fun _ s hs _ _ => .pure hs trivial
  · rw [if_neg hopen]
    exact .pure hs trivial

theorem traced_renameArgument : Traced source text renameArgument := by
  intro r hr
  apply (leaves_expect .leftParen hr).bind
  intro opening? s hs _ _
  cases opening? with
  | none => exact .pure hs trivial
  | some opening =>
    apply (leaves_eat .string hs).bind
    intro t? s hs _ _
    cases t? with
    | none =>
      apply (leaves_fail _ _ hs).bind
      intro _ s hs _ _
      apply (traced_skipArguments s hs).bind
      exact fun _ s hs _ _ => .pure hs trivial
    | some t =>
      apply (leaves_expect .rightParen hs).bind
      intro closing? s hs _ _
      cases closing? <;> exact .pure hs trivial

end Loops

section Attributes

/-- An attribute is named by the word that was just taken. -/
theorem leaves_attributeKind {word : Name} (hr : r.Tracks source text)
    (hword : word.span.Marks text) (hstop : r.lastStop = word.span.stop)
    (hafter : ∀ d ∈ r.diagnostics, d.span.start < word.span.start) :
    Leaves source text r (attributeKind word) fun _ _ => True := by
  unfold attributeKind
  by_cases hskip : word.text = "skip"
  · rw [if_pos hskip]
    exact .pure hr trivial
  rw [if_neg hskip]
  by_cases hoptional : word.text = "optional"
  · rw [if_pos hoptional]
    exact .pure hr trivial
  rw [if_neg hoptional]
  by_cases hrename : word.text = "rename"
  · rw [if_pos hrename]
    exact (traced_renameArgument r hr).bind fun _ s hs _ _ => .pure hs trivial
  rw [if_neg hrename]
  have hreports : r.Reports text .unknownAttribute word.span [] [] := by
    refine ⟨hword.pointsInto, nofun, ?_, .inr fun d hd => Nat.le_of_lt (hafter d hd)⟩
    intro t ht
    have hfilled := hword.filled
    have hnext := (hr.ahead t ht).2
    omega
  apply (leaves_report hr hreports).bind
  intro _ s hs _ _
  apply (traced_skipArguments s hs).bind
  exact fun _ s hs _ _ => .pure hs trivial

theorem traces_attributes :
    Traces source text attributes fun as _ => ∀ a ∈ as, a.span.Marks text := by
  apply traces_collect
  intro r hr
  apply (leaves_eat .atSign hr).bind
  intro t? s hs _ ht
  cases t? with
  | none => exact .pure hs nofun
  | some t =>
    have hat := ht t rfl
    apply (leaves_name hs).bind
    intro word? s2 hs2 hle hword
    cases word? with
    | none => exact .pure hs2 nofun
    | some word =>
      have hate := hword word rfl
      apply (leaves_attributeKind hs2 hate.marks hate.stop (hate.after hat.fresh)).bind
      intro kind? s3 hs3 hle3 _
      cases kind? with
      | none => exact .pure hs3 nofun
      | some kind =>
        refine ⟨hs3, Nat.le_refl _, ?_⟩
        intro a ha
        obtain rfl := List.mem_singleton.mp ha
        have hmarks := hat.marks
        have hstop := hat.stop
        have hfilled := hmarks.filled
        have hlast : t.span.start < s3.lastStop := by omega
        exact ⟨⟨Nat.le_of_lt hlast, hs3.lastStop_valid.le_utf8ByteSize, hmarks.start_valid,
          hs3.lastStop_valid⟩, hlast⟩

end Attributes

end Parser

end Schema

end TypeGraph

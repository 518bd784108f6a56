import TypeGraph.Proofs.Schema.Covering
import TypeGraph.Proofs.Schema.Printing
import TypeGraph.Proofs.Schema.Stemming
import TypeGraph.Proofs.Schema.Titling
/-!
Names are identifiers. Whatever is read, and whatever is reported of it, the names in a tree are
those of tokens, which are written with letters, digits and underscores.
-/

namespace TypeGraph.Schema

variable {W : String → Prop}

/-- All names ahead are from `W`. -/
def Reading.NamedIn (W : String → Prop) (r : Reading) : Prop :=
  ∀ t ∈ r.rest, t.kind = .identifier → W t.text

/-- A member with names from `W`, those in its type included. -/
structure MemberDef.NamedIn (W : String → Prop) (m : MemberDef TypeExpr) : Prop where
  name : W m.name.text
  type : m.type.NamedIn W

namespace TypeExpr

variable {x k v : TypeExpr} {span : Span}

theorem namedIn_scalar (kind : Scalar) (span : Span) : (scalar kind span).NamedIn W :=
  forall_within_scalar.mpr trivial

theorem namedIn_hole (span : Span) : (hole span).NamedIn W :=
  forall_within_hole.mpr trivial

theorem namedIn_reference {qualifier : Option String} {name : String} :
    (reference qualifier name span).NamedIn W ↔ W name :=
  forall_within_reference

theorem namedIn_pointer : (pointer x span).NamedIn W ↔ x.NamedIn W :=
  forall_within_pointer.trans (and_iff_right trivial)

theorem namedIn_sequence : (sequence x span).NamedIn W ↔ x.NamedIn W :=
  forall_within_sequence.trans (and_iff_right trivial)

theorem namedIn_map : (map k v span).NamedIn W ↔ k.NamedIn W ∧ v.NamedIn W :=
  forall_within_map.trans (and_iff_right trivial)

theorem namedIn_record {ms : List (MemberDef TypeExpr)} :
    (record ms span).NamedIn W ↔ ∀ m ∈ ms, m.NamedIn W := by
  refine forall_within_record.trans ⟨?_, ?_⟩
  · rintro ⟨hself, hms⟩ m hm
    exact ⟨hself m hm, hms m hm⟩
  · intro h
    exact ⟨fun m hm => (h m hm).name, fun m hm => (h m hm).type⟩

/-- An embedded member is named by a reference in its type. -/
theorem NamedIn.referredName {name : String} (hx : x.NamedIn W)
    (hname : x.referredName = some name) : W name := by
  induction x using TypeExpr.referredName.induct with
  | case1 qualifier word span =>
    obtain rfl : word = name := by simpa [TypeExpr.referredName] using hname
    exact namedIn_reference.mp hx
  | case2 target span ih =>
    rw [TypeExpr.referredName] at hname
    exact ih (namedIn_pointer.mp hx) hname
  | case3 x hreference hpointer =>
    cases x with
    | reference qualifier word span => exact absurd rfl (hreference _ _ _)
    | pointer target span => exact absurd rfl (hpointer _ _)
    | _ => simp [TypeExpr.referredName] at hname

end TypeExpr

namespace Parser

variable {α β : Type} {m : Parser α} {f : α → Parser β} {P : α → Prop} {R : β → Prop}

/-- Work with a result of which `P` holds, as long as all names ahead are from `W`. -/
def Names (W : String → Prop) (m : Parser α) (P : α → Prop) : Prop :=
  ∀ r : Reading, r.NamedIn W → (m r).2.NamedIn W ∧ P (m r).1

namespace Names

theorem of_runs (h : Runs m) : Names W m fun _ => True :=
  fun r hr => ⟨fun t ht => hr t ((h.run r).rest.subset ht), trivial⟩

theorem pure {a : α} (h : P a) : Names W (Pure.pure a) P :=
  fun _ hr => ⟨hr, h⟩

theorem bind (hm : Names W m P) (hf : ∀ a, P a → Names W (f a) R) : Names W (m >>= f) R :=
  fun r hr => hf _ (hm r hr).2 _ (hm r hr).1

theorem after (hm : Runs m) (hf : ∀ a, Names W (f a) R) : Names W (m >>= f) R :=
  (of_runs hm).bind fun a _ => hf a

/-- What may be missing is looked for. -/
theorem bind_option {m : Parser (Option α)} {f : Option α → Parser β}
    (hm : Names W m fun a? => ∀ a ∈ a?, P a) (hnone : Names W (f none) R)
    (hsome : ∀ a, P a → Names W (f (some a)) R) : Names W (m >>= f) R := by
  apply hm.bind
  intro a? ha
  cases a? with
  | none => exact hnone
  | some a => exact hsome a (ha a rfl)

/-- What has no names in it may be missing. -/
theorem after_option {m : Parser (Option α)} {f : Option α → Parser β} (hm : Runs m)
    (hnone : Names W (f none) R) (hsome : ∀ a, Names W (f (some a)) R) : Names W (m >>= f) R := by
  have hany : Names W m fun a? => ∀ a ∈ a?, True := fun r hr => ⟨(of_runs hm r hr).1, by simp⟩
  exact hany.bind_option hnone fun a _ => hsome a

end Names

section Tokens

theorem names_current : Names W current fun t? => ∀ t ∈ t?, t.kind = .identifier → W t.text := by
  intro r hr
  obtain ⟨hnext, -⟩ := Names.of_runs reads_current.runs r hr
  refine ⟨hnext, ?_⟩
  intro t ht
  rw [current_fst] at ht
  exact hnext t (List.mem_of_mem_head? ht)

theorem names_name : Names W name fun n? => ∀ n ∈ n?, W n.text := by
  intro r hr
  refine ⟨(Names.of_runs reads_name.runs r hr).1, ?_⟩
  intro n hn
  obtain ⟨noise, t, -, hkind, rfl, hrest⟩ := exists_noise_name hn
  exact hr t (by simp [hrest]) hkind

theorem names_collect {round : Parser (List α × Bool)} {P : α → Prop}
    (hround : Names W round fun x => ∀ a ∈ x.1, P a) :
    Names W (collect round) fun xs => ∀ a ∈ xs, P a := by
  intro r hr
  -- on the tokens that are left: a round that asks to go on has taken one
  induction hn : r.rest.length using Nat.strongRecOn generalizing r with
  | ind n ih =>
    subst hn
    obtain ⟨hnext, hfound⟩ := hround r hr
    rw [collect_eq]
    split
    · next hgo =>
      obtain ⟨hend, hmore⟩ := ih _ hgo.2 (round r).2 hnext rfl
      exact ⟨hend, fun a ha => (List.mem_append.mp ha).elim (hfound a) (hmore a)⟩
    · exact ⟨hnext, hfound⟩

end Tokens

section Blocks

variable {entry : TokenKind → Option (EntryReader α)}

theorem names_nothing (goOn : Bool) :
    Names W (Pure.pure ([], goOn) : Parser (List α × Bool)) fun x => ∀ a ∈ x.1, P a :=
  .pure (by simp)

theorem names_block {opening : Span} (hentry : ∀ kind read doc, entry kind = some read →
      Names W (read doc) fun xs => ∀ x ∈ xs, P x) :
    Names W (block opening entry) fun xs => ∀ x ∈ xs, P x := by
  apply names_collect
  apply Names.after reads_docs.runs
  intro doc
  have hunclosed : Runs (unclosed opening) := (complains_unclosed opening).reads
  apply Names.after_option reads_currentKind.runs
  · exact .after hunclosed fun _ => names_nothing false
  intro kind
  by_cases hclose : kind = .rightBrace
  · simp only [if_pos hclose]
    exact .after reads_bump.runs fun _ => names_nothing false
  simp only [if_neg hclose]
  by_cases hitem : kind.startsItem
  · simp only [if_pos hitem]
    exact .after hunclosed fun _ => names_nothing false
  simp only [if_neg hitem]
  by_cases hseparator : kind = .comma ∨ kind = .semicolon
  · simp only [if_pos hseparator]
    exact .after reads_bump.runs fun _ => names_nothing true
  simp only [if_neg hseparator]
  cases hread : entry kind with
  | some read => exact (hentry kind read doc hread).bind fun xs hxs => .pure hxs
  | none =>
    have hfail : Runs (fail .expectedName none) := (complains_fail _ rfl).reads
    exact .after hfail fun _ => .after runs_recoverInBlock fun _ => names_nothing true

end Blocks

section Types

variable {type : Parser TypeExpr}

theorem names_member (htype : Names W type (·.NamedIn W)) (doc : Option String) :
    Names W (member type doc) fun m? => ∀ m ∈ m?, m.NamedIn W := by
  refine names_name.bind_option (.pure (by simp)) fun name hname => ?_
  apply Names.after_option (reads_expect .colon).runs
  · exact .after runs_recoverInBlock fun _ => .pure (by simp)
  intro colon
  apply htype.bind
  intro x hx
  apply Names.after reads_attributes.runs
  intro attributes
  refine .pure ?_
  intro m hm
  obtain rfl := Option.some.inj hm
  exact ⟨hname, hx⟩

theorem names_embedded (htype : Names W type (·.NamedIn W)) (doc : Option String) :
    Names W (embedded type doc) fun m? => ∀ m ∈ m?, m.NamedIn W := by
  apply Names.after reads_bump.runs
  intro _
  apply htype.bind
  intro x hx
  cases hhole : x.isHole with
  | true => exact .pure (by simp)
  | false =>
    cases hname : x.referredName with
    | none =>
      have hreport : Runs (report .expectedName x.span none []
          ["embedded members name a struct, e.g. `..Base`"]) :=
        (complains_report _ _ _ _ rfl).reads
      exact .after hreport fun _ => .pure (by simp)
    | some word =>
      apply Names.after reads_attributes.runs
      intro attributes
      refine .pure ?_
      intro m hm
      obtain rfl := Option.some.inj hm
      exact ⟨hx.referredName hname, hx⟩

theorem names_toList {m : Parser (Option α)} (hm : Names W m fun a? => ∀ a ∈ a?, P a) :
    Names W (do return (← m).toList) fun xs => ∀ x ∈ xs, P x :=
  hm.bind fun _ h => .pure (by simpa using h)

theorem names_members (htype : Names W type (·.NamedIn W)) :
    Names W (members type) fun ms => ∀ m ∈ ms, m.NamedIn W := by
  refine .after_option (reads_expect .leftBrace).runs (.pure (by simp)) fun _ => names_block ?_
  intro kind read doc hread
  unfold memberEntry at hread
  split at hread
  · obtain rfl := Option.some.inj hread
    exact names_toList (names_embedded htype doc)
  · obtain rfl := Option.some.inj hread
    exact names_toList (names_member htype doc)
  · cases hread

theorem names_finish {start : Nat} {make : Span → TypeExpr} (h : ∀ span, (make span).NamedIn W) :
    Names W (finish start make) (·.NamedIn W) :=
  .after reads_get.runs fun _ => .pure (h _)

theorem names_named (start : Nat) {word : String} (hword : W word) :
    Names W (named start word) (·.NamedIn W) := by
  apply Names.after_option (reads_eat .dot).runs
  · cases Scalar.ofKeyword? word with
    | some kind => exact names_finish fun _ => TypeExpr.namedIn_scalar _ _
    | none => exact names_finish fun _ => TypeExpr.namedIn_reference.mpr hword
  intro dot
  refine names_name.bind_option (names_finish fun _ => TypeExpr.namedIn_hole _) ?_
  exact fun name hname => names_finish fun _ => TypeExpr.namedIn_reference.mpr hname

theorem names_type (depth : Nat) : Names W (Parser.type depth) (·.NamedIn W) := by
  induction depth with
  | zero =>
    apply Names.after reads_currentSpan.runs
    intro span
    have hreport : Runs (report .expectedType span (some "type is nested too deeply") [] []) :=
      (complains_report _ _ _ _ rfl).reads
    exact .after hreport fun _ => .pure (TypeExpr.namedIn_hole _)
  | succ depth ih =>
    apply Names.after reads_currentSpan.runs
    intro span
    have hfail : Runs (fail .expectedType none) := (complains_fail _ rfl).reads
    have hhole : Names W (fail .expectedType none >>= fun _ =>
        pure (.hole ⟨span.start, span.start⟩) : Parser TypeExpr) (·.NamedIn W) :=
      .after hfail fun _ => .pure (TypeExpr.namedIn_hole _)
    refine names_current.bind_option hhole fun t ht => ?_
    dsimp only
    split
    · refine .after reads_bump.runs fun _ => ih.bind fun target htarget => ?_
      exact names_finish fun _ => TypeExpr.namedIn_pointer.mpr htarget
    · refine .after reads_bump.runs fun _ => ih.bind fun element helement => ?_
      refine .after (reads_expect _).runs fun _ => ?_
      exact names_finish fun _ => TypeExpr.namedIn_sequence.mpr helement
    · refine .after reads_bump.runs fun _ => ih.bind fun key hkey => ?_
      refine .after (reads_expect _).runs fun _ => ih.bind fun value hvalue => ?_
      refine .after (reads_expect _).runs fun _ => ?_
      exact names_finish fun _ => TypeExpr.namedIn_map.mpr ⟨hkey, hvalue⟩
    · refine .after reads_bump.runs fun _ => (names_members ih).bind fun ms hms => ?_
      exact names_finish fun _ => TypeExpr.namedIn_record.mpr hms
    · next hkind => exact .after reads_bump.runs fun _ => names_named _ (ht hkind)
    · exact hhole

end Types

section Items

/-- Work that reads an item with names from `W`. -/
abbrev NamesItem (W : String → Prop) (m : Parser (Option Item)) : Prop :=
  Names W m fun item? => ∀ item ∈ item?, item.NamedIn W

theorem names_skipItem : NamesItem W (recoverToItem >>= fun _ => pure none) :=
  .after runs_recoverToItem fun _ => .pure (by simp)

theorem names_structItem (doc : Option String) : NamesItem W (structItem doc) := by
  refine .after reads_bump.runs fun _ => names_name.bind_option names_skipItem ?_
  intro name hname
  apply (names_members (names_type maxDepth)).bind
  intro ms hms
  refine .pure ?_
  intro item hitem
  obtain rfl := Option.some.inj hitem
  refine ⟨hname, ?_⟩
  intro x hx
  obtain rfl := Option.some.inj hx
  exact TypeExpr.namedIn_record.mpr hms

theorem names_enumItem (doc : Option String) : NamesItem W (enumItem doc) := by
  refine .after reads_bump.runs fun _ => names_name.bind_option names_skipItem ?_
  intro name hname
  refine .after_option (reads_expect .colon).runs names_skipItem fun colon => ?_
  refine .after_option reads_name.runs names_skipItem fun base => ?_
  refine .after reads_variants.runs fun vs => .pure ?_
  intro item hitem
  obtain rfl := Option.some.inj hitem
  refine ⟨hname, ?_⟩
  intro x hx
  cases hx

theorem names_synonymItem (doc : Option String) : NamesItem W (synonymItem doc) := by
  refine .after reads_bump.runs fun _ => names_name.bind_option names_skipItem ?_
  intro name hname
  refine .after_option (reads_expect .equals).runs names_skipItem fun equals => ?_
  apply (names_type maxDepth).bind
  intro target htarget
  refine .pure ?_
  intro item hitem
  obtain rfl := Option.some.inj hitem
  refine ⟨hname, ?_⟩
  intro x hx
  obtain rfl := Option.some.inj hx
  exact htarget

theorem names_itemRound : Names W itemRound fun x => ∀ item ∈ x.1, item.NamedIn W := by
  refine .after reads_docs.runs fun doc => .after reads_currentKind.runs fun kind? => ?_
  have hitem {m : Parser (Option Item)} (hm : NamesItem W m) :
      Names W (do return ((← m).toList, true) : Parser (List Item × Bool))
        fun x => ∀ item ∈ x.1, item.NamedIn W :=
    hm.bind fun _ h => .pure (by simpa using h)
  split
  · exact names_nothing false
  · exact .after reads_package.runs fun _ => names_nothing true
  · exact hitem (names_structItem doc)
  · exact hitem (names_enumItem doc)
  · exact hitem (names_synonymItem doc)
  · have hfail : Runs (fail .expectedToken (some "`struct`, `enum`, `alias` or `package`")) :=
      (complains_fail _ rfl).reads
    exact .after hfail fun _ => .after runs_recoverToItem fun _ => names_nothing true

theorem names_items : Names W items fun items => ∀ item ∈ items, item.NamedIn W :=
  names_collect names_itemRound

end Items

end Parser

/-- An identifier is written with letters, digits and underscores. -/
theorem wordlike_of_token {text : String} {t : Token} (h : t ∈ tokens text)
    (hkind : t.kind = .identifier) : Wordlike t.text := by
  have hword : t.text.toList ∈ t.kind.pattern := mem_pattern_of_token h (by simp [hkind])
  rw [hkind] at hword
  cases htext : t.text.toList with
  | nil => exact absurd (htext ▸ hword) (nil_not_mem_mul nil_not_mem_oneOf)
  | cons c cs =>
    obtain ⟨hc, hcs⟩ := cons_mem_word.mp (htext ▸ hword)
    exact ⟨c, cs, htext, hc, hcs⟩

theorem wordlike_parse (source : SourceId) (text : String) :
    ∀ item ∈ (parse source text).1.items, item.NamedIn Wordlike := by
  have hstart : (Reading.start source text).NamedIn Wordlike :=
    fun t ht hkind => wordlike_of_token ht hkind
  exact (Parser.names_items _ hstart).2

end TypeGraph.Schema

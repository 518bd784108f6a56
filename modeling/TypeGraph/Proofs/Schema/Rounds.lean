import TypeGraph.Proofs.Schema.Sound
/-!
The loops of the reader end by themselves. `collect` goes on only after a round that took a token;
here every round that asks to go on is shown to have taken one, whatever was read and reported before
it. So the test in `collect` never stops a loop that asks to go on.
-/

namespace TypeGraph.Schema

/-- The next token is readable, and it is of this kind. -/
structure Reading.Meets (r : Reading) (kind : TokenKind) : Prop where
  readable : kind ≠ .garbage
  next : ∃ t ts, r.rest = t :: ts ∧ t.kind = kind

namespace Parser

variable {α β : Type} {m : Parser α} {f : α → Parser β} {r : Reading} {kind : TokenKind}

/-- Rounds run one after another until one asks to stop, whatever they take. -/
inductive Finishes (round : Parser (List α × Bool)) : Reading → List α × Reading → Prop
  | stop {r s : Reading} {found : List α} (h : round r = ((found, false), s)) :
      Finishes round r (found, s)
  | goOn {r s t : Reading} {found more : List α} (h : round r = ((found, true), s))
      (hmore : Finishes round s (more, t)) : Finishes round r (found ++ more, t)

/-- A round that leaves fewer tokens whenever it asks to go on. -/
def Advances (round : Parser (List α × Bool)) : Prop :=
  ∀ r, (round r).1.2 = true → (round r).2.rest.length < r.rest.length

theorem Advances.collect_of_goOn {round : Parser (List α × Bool)} (h : Advances round)
    (hgo : (round r).1.2 = true) : collect round r =
      ((round r).1.1 ++ (collect round (round r).2).1, (collect round (round r).2).2) := by
  have hlt := h r hgo
  rw [collect_eq]
  simp only [hgo, hlt, and_self, if_true]

theorem collect_of_stop {round : Parser (List α × Bool)} (hstop : (round r).1.2 = false) :
    collect round r = ((round r).1.1, (round r).2) := by
  rw [collect_eq]
  simp only [hstop, Bool.false_eq_true, false_and, if_false]

theorem Advances.finishes {round : Parser (List α × Bool)} (h : Advances round) (r : Reading) :
    Finishes round r (collect round r) := by
  -- on the tokens that are left
  induction hn : r.rest.length using Nat.strongRecOn generalizing r with
  | ind n ih =>
    subst hn
    cases hgo : (round r).1.2 with
    | false =>
      have hround : round r = (((round r).1.1, false), (round r).2) :=
        Prod.ext (Prod.ext rfl hgo) rfl
      rw [collect_of_stop hgo]
      exact .stop hround
    | true =>
      have hround : round r = (((round r).1.1, true), (round r).2) :=
        Prod.ext (Prod.ext rfl hgo) rfl
      rw [h.collect_of_goOn hgo]
      exact .goOn hround (ih _ (h r hgo) _ rfl)

section Tokens

theorem Runs.length_le (h : Runs m) (r : Reading) : (m r).2.rest.length ≤ r.rest.length :=
  (h.run r).rest.length_le

theorem runs_pure (a : α) : Runs (Pure.pure a) :=
  .pure fun _ => trivial

theorem Runs.orNone {m : Parser (Option α)} {f : Option α → Parser β} (hm : Runs m)
    (hnone : Runs (f none)) (hsome : ∀ a, Runs (f (some a))) : Runs (m >>= f) := by
  apply hm.bind
  intro a?
  cases a? with
  | none => exact hnone
  | some a => exact hsome a

theorem settled_of_meets (h : r.Meets kind) : Settled r := by
  obtain ⟨hreadable, t, ts, hrest, rfl⟩ := h
  exact settled_of_cons hrest hreadable

theorem meets_of_current {t : Token} (h : (current r).1 = some t) :
    (current r).2.Meets t.kind := by
  have hreadable := Reading.readable_skipGarbage r r.rest
  rw [current_fst] at h
  rw [← current_snd, h] at hreadable
  refine ⟨hreadable t rfl, ?_⟩
  obtain ⟨ts, hrest⟩ := List.head?_eq_some_iff.mp h
  exact ⟨t, ts, hrest, rfl⟩

/-- Work that takes a token if the next one is of this kind. -/
def Takes (kind : TokenKind) (m : Parser α) : Prop :=
  ∀ r : Reading, r.Meets kind → (m r).2.rest.length < r.rest.length

theorem Takes.bind (hm : Takes kind m) (hf : ∀ a, Runs (f a)) : Takes kind (m >>= f) := by
  intro r hr
  have hle := (hf (m r).1).length_le (m r).2
  have hlt := hm r hr
  rw [run_bind]
  omega

theorem takes_bump (kind : TokenKind) : Takes kind bump := by
  intro r hr
  have hsettled := settled_of_meets hr
  obtain ⟨-, t, ts, hrest, -⟩ := hr
  rw [bump_of_settled hsettled hrest, hrest]
  simp

theorem eat_lt {t : Token} (h : (eat kind r).1 = some t) :
    (eat kind r).2.rest.length < r.rest.length := by
  have hle : (current r).2.rest.length ≤ r.rest.length := reads_current.runs.length_le r
  rw [(eat_eq_some h).2, List.length_cons] at hle
  omega

theorem takes_eat (kind : TokenKind) : Takes kind (eat kind) := by
  intro r hr
  have hsettled := settled_of_meets hr
  obtain ⟨-, t, ts, hrest, hk⟩ := hr
  rw [eat_of_kind hsettled hrest hk, hrest]
  simp

theorem runs_eat (kind : TokenKind) : Runs (eat kind) :=
  (reads_eat kind).runs

theorem takes_name : Takes .identifier name := by
  unfold name
  apply (takes_eat .identifier).bind
  intro t?
  cases t? with
  | some t => exact .pure fun _ => trivial
  | none => exact Runs.bind (complains_fail _ rfl).reads fun _ => .pure fun _ => trivial

/-- A report leaves the next token where it is. -/
theorem meets_fail (report : Diagnostic.Kind) (detail? : Option String) (h : r.Meets kind) :
    (fail report detail? r).2.Meets kind ∧ (fail report detail? r).2.rest = r.rest := by
  have hsettled := settled_of_meets h
  obtain ⟨hreadable, t, ts, hrest, hk⟩ := h
  rw [fail_of_settled hsettled hrest]
  exact ⟨⟨hreadable, t, ts, Reading.rest_report.trans hrest, hk⟩, Reading.rest_report⟩

theorem Takes.after_fail {report : Diagnostic.Kind} {detail? : Option String} {f : Unit → Parser β}
    (hf : Takes kind (f ())) : Takes kind (fail report detail? >>= f) := by
  intro r hr
  obtain ⟨hmeets, hrest⟩ := meets_fail report detail? hr
  have hlt := hf _ hmeets
  rw [run_bind, ← hrest]
  exact hlt

end Tokens

section Rounds

variable {round : Parser (List α × Bool)}

/-- A round that never asks to go on. -/
def Stops (round : Parser (List α × Bool)) : Prop :=
  ∀ r, (round r).1.2 = false

theorem Stops.pure (found : List α) : Stops (Pure.pure (found, false)) :=
  fun _ => rfl

theorem Stops.bind {m : Parser β} {f : β → Parser (List α × Bool)} (hf : ∀ a, Stops (f a)) :
    Stops (m >>= f) :=
  fun r => hf (m r).1 (m r).2

theorem Stops.advances (h : Stops round) : Advances round := by
  intro r hgo
  rw [h] at hgo
  cases hgo

theorem Advances.after {m : Parser β} {f : β → Parser (List α × Bool)} (hm : Runs m)
    (hf : ∀ a, Advances (f a)) : Advances (m >>= f) := by
  intro r hgo
  have hle := hm.length_le r
  have hlt := hf (m r).1 (m r).2 hgo
  rw [run_bind]
  omega

/-- A round that takes a token of a kind first, if there is one. -/
theorem Advances.of_eat {kind : TokenKind} {f : Option Token → Parser (List α × Bool)}
    (hsome : ∀ t, Runs (f (some t))) (hnone : Advances (f none)) : Advances (eat kind >>= f) := by
  intro r hgo
  have hle := (runs_eat kind).length_le r
  rw [run_bind] at hgo ⊢
  cases ht : (eat kind r).1 with
  | none =>
    rw [ht] at hgo
    have hlt := hnone _ hgo
    omega
  | some t =>
    have hrest := (hsome t).length_le (eat kind r).2
    have hlt := eat_lt ht
    omega

/-- A round that looks at the next token first: it stops, or it takes the token. -/
theorem Advances.of_current {f : Option Token → Parser (List α × Bool)} (hnone : Stops (f none))
    (hsome : ∀ t r, r.Meets t.kind → (f (some t) r).1.2 = true →
      (f (some t) r).2.rest.length < r.rest.length) : Advances (current >>= f) := by
  intro r hgo
  have hle : (current r).2.rest.length ≤ r.rest.length := reads_current.runs.length_le r
  rw [run_bind] at hgo ⊢
  cases ht : (current r).1 with
  | none =>
    rw [ht, hnone] at hgo
    cases hgo
  | some t =>
    rw [ht] at hgo
    have hlt := hsome t _ (meets_of_current ht) hgo
    omega

theorem Advances.of_currentKind {f : Option TokenKind → Parser (List α × Bool)}
    (hnone : Stops (f none)) (hsome : ∀ kind, Stops (f (some kind)) ∨ Takes kind (f (some kind))) :
    Advances (currentKind >>= f) := by
  have hcurrent : currentKind >>= f = current >>= fun t? => f (t?.map (·.kind)) := rfl
  rw [hcurrent]
  apply Advances.of_current hnone
  intro t r hr hgo
  rcases hsome t.kind with hstops | htakes
  · have hstop : (f (some t.kind) r).1.2 = false := hstops r
    exact absurd (hstop.symm.trans hgo) nofun
  · exact htakes r hr

theorem advances_skipRound (stops : List Token → Bool) : Advances (skipRound stops) := by
  apply Advances.of_current (Stops.pure [])
  intro t r hr
  have hround (stop : Bool) : ((if stop then pure ([], false)
      else bump >>= fun _ => pure ([], true) : Parser (List Unit × Bool)) r).1.2 = true →
        ((if stop then pure ([], false)
          else bump >>= fun _ => pure ([], true) : Parser (List Unit × Bool)) r).2.rest.length <
          r.rest.length := by
    cases stop with
    | true => nofun
    | false => exact fun _ => takes_bump t.kind r hr
  exact hround (stops r.rest)

theorem advances_docRound : Advances docRound :=
  .of_eat (fun _ => runs_pure _) (Stops.pure []).advances

theorem advances_pathRound : Advances pathRound := by
  refine Advances.of_eat ?_ (.of_eat ?_ (Stops.pure []).advances)
  all_goals
    intro t
    simp only [pure_bind]
    apply Runs.orNone reads_name.runs
    · exact runs_pure _
    · exact fun _ => runs_pure _

theorem advances_argumentRound : Advances argumentRound := by
  apply Advances.of_currentKind (Stops.pure [])
  intro kind
  by_cases hstop : kind = .rightBrace ∨ kind.startsItem
  · left
    simp only [if_pos hstop]
    exact .pure []
  · right
    simp only [if_neg hstop]
    exact (takes_bump kind).bind fun _ => runs_pure _

theorem advances_attributeRound : Advances attributeRound := by
  refine Advances.of_eat ?_ (Stops.pure []).advances
  intro t
  apply Runs.orNone reads_name.runs
  · exact runs_pure _
  · intro word
    apply Runs.orNone (reads_attributeKind word).runs
    · exact runs_pure _
    · intro kind
      exact reads_get.runs.bind fun _ => runs_pure _

theorem takes_recoverInBlock (kind : TokenKind) : Takes kind recoverInBlock :=
  (takes_bump kind).bind fun _ => runs_skipUntil atMember

theorem takes_recoverToItem (kind : TokenKind) : Takes kind recoverToItem :=
  (takes_bump kind).bind fun _ => runs_skipUntil atItem

/-- A block goes on if every entry takes the token that it is chosen by. -/
theorem advances_blockRound {opening : Span} {entry : TokenKind → Option (EntryReader α)}
    (hentry : ∀ kind read doc, entry kind = some read → Takes kind (read doc)) :
    Advances (blockRound opening entry) := by
  apply Advances.after reads_docs.runs
  intro doc
  apply Advances.of_currentKind (Stops.bind fun _ => .pure [])
  intro kind
  by_cases hclose : kind = .rightBrace
  · left
    simp only [if_pos hclose]
    exact Stops.bind fun _ => .pure []
  simp only [if_neg hclose]
  by_cases hitem : kind.startsItem
  · left
    simp only [if_pos hitem]
    exact Stops.bind fun _ => .pure []
  right
  simp only [if_neg hitem]
  by_cases hseparator : kind = .comma ∨ kind = .semicolon
  · simp only [if_pos hseparator]
    exact (takes_bump kind).bind fun _ => runs_pure _
  simp only [if_neg hseparator]
  cases hread : entry kind with
  | some read => exact (hentry kind read doc hread).bind fun _ => runs_pure _
  | none => exact Takes.after_fail ((takes_recoverInBlock kind).bind fun _ => runs_pure _)

theorem takes_memberEntry {type : Parser TypeExpr} (htype : Runs type) {kind : TokenKind}
    {read : EntryReader (MemberDef TypeExpr)} (doc : Option String)
    (h : memberEntry type kind = some read) : Takes kind (read doc) := by
  unfold memberEntry at h
  split at h
  · obtain rfl := Option.some.inj h
    refine ((takes_bump .dotDot).bind fun _ => htype.bind fun x => ?_).bind fun _ => runs_pure _
    cases x.isHole with
    | true => exact runs_pure _
    | false =>
      cases x.referredName with
      | none =>
        exact Runs.bind (complains_report _ _ _ _ rfl).reads fun _ => runs_pure _
      | some text => exact reads_attributes.runs.bind fun _ => runs_pure _
  · obtain rfl := Option.some.inj h
    refine (takes_name.bind fun name? => ?_).bind fun _ => runs_pure _
    cases name? with
    | none => exact runs_pure _
    | some name =>
      apply (reads_expect .colon).runs.orNone
      · exact runs_recoverInBlock.bind fun _ => runs_pure _
      · intro colon
        exact htype.bind fun _ => reads_attributes.runs.bind fun _ => runs_pure _
  · cases h

theorem takes_variantEntry {kind : TokenKind} {read : EntryReader Variant} (doc : Option String)
    (h : variantEntry kind = some read) : Takes kind (read doc) := by
  unfold variantEntry at h
  split at h
  · obtain rfl := Option.some.inj h
    refine (takes_name.bind fun name? => ?_).bind fun _ => runs_pure _
    cases name? with
    | none => exact runs_pure _
    | some name =>
      apply (reads_expect .equals).runs.orNone
      · exact runs_recoverInBlock.bind fun _ => runs_pure _
      · intro equals
        exact reads_literal.runs.orNone (runs_pure _) fun _ => runs_pure _
  · cases h

theorem takes_package (kind : TokenKind) : Takes kind package := by
  have hheader : Takes kind packageHeader := by
    apply (takes_bump kind).bind
    intro start
    refine (runs_eat .string).orNone ?_ fun _ => runs_pure _
    apply Runs.orNone reads_name.runs
    · exact runs_pure _
    · intro first
      apply reads_pathRest.runs.bind
      intro segments
      split
      · exact reads_get.runs.bind fun _ => runs_pure _
      · exact runs_pure _
  apply hheader.bind
  intro header?
  cases header? with
  | none => exact runs_pure _
  | some header => exact (reads_keepHeader header).runs

theorem takes_structItem (kind : TokenKind) (doc : Option String) :
    Takes kind (structItem doc) := by
  apply (takes_bump kind).bind
  intro start
  apply reads_name.runs.orNone
  · exact runs_recoverToItem.bind fun _ => runs_pure _
  · intro name
    exact (reads_members (reads_type maxDepth)).runs.bind fun _ => runs_pure _

theorem takes_enumItem (kind : TokenKind) (doc : Option String) : Takes kind (enumItem doc) := by
  have hrecover : Runs (recoverToItem >>= fun _ => pure (none : Option Item)) :=
    runs_recoverToItem.bind fun _ => runs_pure _
  apply (takes_bump kind).bind
  intro start
  apply reads_name.runs.orNone hrecover
  intro name
  apply (reads_expect .colon).runs.orNone hrecover
  intro colon
  apply reads_name.runs.orNone hrecover
  intro base
  exact reads_variants.runs.bind fun _ => runs_pure _

theorem takes_synonymItem (kind : TokenKind) (doc : Option String) :
    Takes kind (synonymItem doc) := by
  have hrecover : Runs (recoverToItem >>= fun _ => pure (none : Option Item)) :=
    runs_recoverToItem.bind fun _ => runs_pure _
  apply (takes_bump kind).bind
  intro start
  apply reads_name.runs.orNone hrecover
  intro name
  apply (reads_expect .equals).runs.orNone hrecover
  intro equals
  exact (reads_type maxDepth).runs.bind fun _ => runs_pure _

/-- A round of items goes on wherever a token is left behind the documentation. -/
theorem itemRound_goesOn (hkind : (currentKind (docs r).2).1 ≠ none) :
    (itemRound r).1.2 = true := by
  obtain ⟨kind, hkind⟩ := Option.ne_none_iff_exists'.mp hkind
  unfold itemRound
  rw [run_bind, run_bind, hkind]
  cases kind with
  | packageKeyword | structKeyword | enumKeyword | aliasKeyword => rfl
  | _ => rfl

theorem itemRound_stops (hkind : (currentKind (docs r).2).1 = none) :
    itemRound r = (([], false), (currentKind (docs r).2).2) := by
  unfold itemRound
  rw [run_bind, run_bind, hkind]
  rfl

theorem advances_itemRound : Advances itemRound := by
  apply Advances.after reads_docs.runs
  intro doc
  apply Advances.of_currentKind (Stops.pure [])
  intro kind
  right
  split
  · next hnone => cases hnone
  · exact (takes_package _).bind fun _ => runs_pure _
  · exact (takes_structItem _ doc).bind fun _ => runs_pure _
  · exact (takes_enumItem _ doc).bind fun _ => runs_pure _
  · exact (takes_synonymItem _ doc).bind fun _ => runs_pure _
  · exact Takes.after_fail ((takes_recoverToItem kind).bind fun _ => runs_pure _)

/-- The loops of the reader. -/
inductive Loop : {α : Type} → Parser (List α × Bool) → Prop
  | skipUntil (stops : List Token → Bool) : Loop (skipRound stops)
  | docs : Loop docRound
  | pathRest : Loop pathRound
  | skipArguments : Loop argumentRound
  | attributes : Loop attributeRound
  | members (opening : Span) (depth : Nat) : Loop (blockRound opening (memberEntry (type depth)))
  | variants (opening : Span) : Loop (blockRound opening variantEntry)
  | items : Loop itemRound

theorem Loop.advances {round : Parser (List α × Bool)} (h : Loop round) : Advances round := by
  cases h with
  | skipUntil stops => exact advances_skipRound stops
  | docs => exact advances_docRound
  | pathRest => exact advances_pathRound
  | skipArguments => exact advances_argumentRound
  | attributes => exact advances_attributeRound
  | members opening depth =>
    apply advances_blockRound
    intro kind read doc hread
    exact takes_memberEntry (reads_type depth).runs doc hread
  | variants opening =>
    apply advances_blockRound
    intro kind read doc hread
    exact takes_variantEntry doc hread
  | items => exact advances_itemRound

/-- Every loop of the reader ends by itself, wherever it begins, with what it collects. -/
theorem Loop.finishes {round : Parser (List α × Bool)} (h : Loop round) (r : Reading) :
    Finishes round r (collect round r) :=
  h.advances.finishes r

end Rounds

end Parser

end TypeGraph.Schema

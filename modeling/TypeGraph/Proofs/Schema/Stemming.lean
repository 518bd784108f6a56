import Mathlib.Data.List.TakeWhile
import TypeGraph.Proofs.Schema.Cutting
import TypeGraph.Proofs.Schema.Rounds
/-!
Where items come from. Reading leaves no token, and every item stems from a keyword of its own and
the name behind it, whatever was reported on the way.
-/

namespace TypeGraph.Schema

/-- The keyword that an item begins with. -/
def Item.keyword : Item → TokenKind
  | .struct _ => .structKeyword
  | .enum _ => .enumKeyword
  | .synonym _ => .aliasKeyword

/-- Items that stem from these tokens, one behind another: each from its keyword and the name that
is the next readable token. -/
inductive Stems : List Token → List Item → Prop
  | nil (ts : List Token) : Stems ts []
  | cons (front : List Token) {keyword name : Token} {noise back : List Token} {item : Item}
      {items : List Item} (hkeyword : keyword.kind = item.keyword)
      (hnoise : ∀ t ∈ noise, t.kind = .garbage) (hkind : name.kind = .identifier)
      (hname : item.name = ⟨name.text, name.span⟩) (h : Stems back items) :
      Stems (front ++ keyword :: (noise ++ name :: back)) (item :: items)

namespace Stems

variable {ts us : List Token} {items : List Item}

theorem of_suffix (h : Stems us items) (hs : us <:+ ts) : Stems ts items := by
  obtain ⟨before, rfl⟩ := hs
  cases h with
  | nil => exact .nil _
  | cons front hkeyword hnoise hkind hname h =>
    rw [← List.append_assoc]
    exact .cons (before ++ front) hkeyword hnoise hkind hname h

/-- An item goes by one of the tokens. -/
theorem name_mem (h : Stems ts items) :
    ∀ item ∈ items, ∃ t ∈ ts, item.name = ⟨t.text, t.span⟩ := by
  induction h with
  | nil => simp
  | @cons front keyword name noise back item items _ _ _ hname _ ih =>
    intro other hother
    rcases List.mem_cons.mp hother with rfl | hother
    · exact ⟨name, by simp, hname⟩
    · obtain ⟨t, ht, hname⟩ := ih other hother
      exact ⟨t, by simp [ht], hname⟩

/-- The names of items stand in the order of the items. -/
theorem names_ordered (h : Stems ts items)
    (hts : ts.Pairwise fun t u => t.span.stop ≤ u.span.start) :
    items.Pairwise fun a b => a.name.span.stop ≤ b.name.span.start := by
  induction h with
  | nil => exact .nil
  | @cons front keyword name noise back item items _ _ _ hname hback ih =>
    have hbehind := (List.pairwise_append.mp hts).2.1.tail
    have hname_back := (List.pairwise_append.mp hbehind).2.1
    refine .cons ?_ (ih hname_back.tail)
    intro other hother
    obtain ⟨t, ht, hother⟩ := hback.name_mem other hother
    rw [hname, hother]
    exact (List.pairwise_cons.mp hname_back).1 t ht

end Stems

namespace Parser

variable {α β : Type} {r : Reading}

section Tokens

/-- Going on to the next token leaves out unreadable ones only. -/
theorem exists_noise_current (r : Reading) :
    ∃ noise, (∀ t ∈ noise, t.kind = .garbage) ∧ r.rest = noise ++ (current r).2.rest := by
  refine ⟨r.rest.takeWhile (·.kind = .garbage), ?_, ?_⟩
  · intro t ht
    simpa using List.mem_takeWhile_imp ht
  · rw [current_snd, Reading.rest_skipGarbage]
    exact List.takeWhile_append_dropWhile.symm

theorem exists_noise_eat {kind : TokenKind} {t : Token} (h : (eat kind r).1 = some t) :
    ∃ noise, (∀ u ∈ noise, u.kind = .garbage) ∧ t.kind = kind ∧
      r.rest = noise ++ t :: (eat kind r).2.rest := by
  obtain ⟨noise, hnoise, hrest⟩ := exists_noise_current r
  obtain ⟨hk, hnext⟩ := eat_eq_some h
  exact ⟨noise, hnoise, hk, hnext ▸ hrest⟩

theorem exists_noise_name {n : Name} (h : (name r).1 = some n) :
    ∃ noise t, (∀ u ∈ noise, u.kind = .garbage) ∧ t.kind = .identifier ∧ n = ⟨t.text, t.span⟩ ∧
      r.rest = noise ++ t :: (name r).2.rest := by
  unfold name at h ⊢
  rw [run_bind] at h ⊢
  cases ht : (eat .identifier r).1 with
  | none =>
    rw [ht] at h
    cases h
  | some t =>
    rw [ht] at h
    obtain rfl := Option.some.inj h
    obtain ⟨noise, hnoise, hk, hrest⟩ := exists_noise_eat ht
    exact ⟨noise, t, hnoise, hk, rfl, hrest⟩

end Tokens

section Items

/-- Work that answers with something of which `P` holds. -/
def Answers (m : Parser α) (P : α → Prop) : Prop :=
  ∀ r, P (m r).1

theorem Answers.pure {P : α → Prop} {a : α} (h : P a) : Answers (Pure.pure a) P :=
  fun _ => h

theorem Answers.bind {m : Parser β} {f : β → Parser α} {P : α → Prop} (hf : ∀ b, Answers (f b) P) :
    Answers (m >>= f) P :=
  fun r => hf (m r).1 (m r).2

/-- An item, if any, with this keyword and this name. -/
def Called (keyword : TokenKind) (n : Name) (item? : Option Item) : Prop :=
  ∀ item ∈ item?, item.keyword = keyword ∧ item.name = n

theorem called_none {keyword : TokenKind} {n : Name} : Called keyword n none :=
  nofun

/-- Gives a round what an item reader found. -/
def found (m : Parser (Option Item)) : Parser (List Item × Bool) := do
  return ((← m).toList, true)

/-- What a round found stems from tokens that it took. -/
def Stemmed (r : Reading) (round : Parser (List Item × Bool)) : Prop :=
  ∀ items, Stems (round r).2.rest items → Stems r.rest ((round r).1.1 ++ items)

theorem Stemmed.of_none {round : Parser (List Item × Bool)} (hruns : Runs round)
    (hnone : Answers round fun x => x.1 = []) (r : Reading) : Stemmed r round := by
  intro items h
  rw [hnone r]
  exact h.of_suffix (hruns.run r).rest

theorem Stemmed.after {m : Parser β} {f : β → Parser (List Item × Bool)} (hm : Runs m)
    (hf : Stemmed (m r).2 (f (m r).1)) : Stemmed r (m >>= f) := by
  intro items h
  exact (hf items h).of_suffix (hm.run r).rest

/-- An item that is read from its keyword on stems from it. -/
theorem stemmed_item {keyword : TokenKind} {f : Option Name → Parser (Option Item)}
    (hr : r.Meets keyword) (hruns : ∀ n?, Runs (f n?)) (hnone : Answers (f none) (· = none))
    (hsome : ∀ n, Answers (f (some n)) (Called keyword n)) :
    Stemmed r (found (bump >>= fun _ => name >>= f)) := by
  obtain ⟨-, t, ts, hrest, hk⟩ := id hr
  have hbump := bump_of_settled (settled_of_meets hr) hrest
  generalize hs : ({ r with rest := ts, lastStop := t.span.stop } : Reading) = s at hbump
  have hts : ts = s.rest := by rw [← hs]
  have hrun : (bump >>= fun _ => name >>= f) r = f (name s).1 (name s).2 := by
    rw [run_bind, hbump]
    rfl
  intro items h
  unfold found at h ⊢
  rw [run_bind, hrun] at h ⊢
  have hsuffix : (f (name s).1 (name s).2).2.rest <:+ (name s).2.rest :=
    ((hruns _).run _).rest
  cases hn : (name s).1 with
  | none =>
    rw [hn] at h hsuffix
    have hitem : (f none (name s).2).1 = none := hnone _
    rw [hitem, hrest]
    have hname : (name s).2.rest <:+ ts := hts ▸ (reads_name.run s).rest
    exact h.of_suffix (hsuffix.trans (hname.trans (List.suffix_cons t ts)))
  | some n =>
    rw [hn] at h hsuffix
    have hcalled := hsome n (name s).2
    cases hitem : (f (some n) (name s).2).1 with
    | none =>
      rw [hrest]
      have hname : (name s).2.rest <:+ ts := hts ▸ (reads_name.run s).rest
      exact h.of_suffix (hsuffix.trans (hname.trans (List.suffix_cons t ts)))
    | some item =>
      obtain ⟨hkeyword, hname⟩ := hcalled item hitem
      obtain ⟨noise, u, hnoise, hu, rfl, hback⟩ := exists_noise_name hn
      rw [hrest, hts, hback]
      exact .cons [] (hk.trans hkeyword.symm) hnoise hu hname (h.of_suffix hsuffix)

theorem runs_skipItem : Runs (recoverToItem >>= fun _ => pure (none : Option Item)) :=
  runs_recoverToItem.bind fun _ => runs_pure _

theorem answers_skipItem {P : Option Item → Prop} (h : P none) :
    Answers (recoverToItem >>= fun _ => pure none) P :=
  .bind fun _ => .pure h

theorem stemmed_structItem (doc : Option String) (hr : r.Meets .structKeyword) :
    Stemmed r (found (structItem doc)) := by
  apply stemmed_item hr
  · intro name?
    cases name? with
    | none => exact runs_skipItem
    | some name => exact (reads_members (reads_type maxDepth)).runs.bind fun _ => runs_pure _
  · exact answers_skipItem rfl
  · intro name
    refine .bind fun members => .pure ?_
    intro item hitem
    obtain rfl := Option.some.inj hitem
    exact ⟨rfl, rfl⟩

theorem stemmed_enumItem (doc : Option String) (hr : r.Meets .enumKeyword) :
    Stemmed r (found (enumItem doc)) := by
  apply stemmed_item hr
  · intro name?
    cases name? with
    | none => exact runs_skipItem
    | some name =>
      apply (reads_expect .colon).runs.orNone runs_skipItem
      intro colon
      apply reads_name.runs.orNone runs_skipItem
      exact fun base => reads_variants.runs.bind fun _ => runs_pure _
  · exact answers_skipItem rfl
  · intro name
    apply Answers.bind
    intro colon?
    cases colon? with
    | none => exact answers_skipItem called_none
    | some colon =>
      apply Answers.bind
      intro base?
      cases base? with
      | none => exact answers_skipItem called_none
      | some base =>
        refine .bind fun variants => .pure ?_
        intro item hitem
        obtain rfl := Option.some.inj hitem
        exact ⟨rfl, rfl⟩

theorem stemmed_synonymItem (doc : Option String) (hr : r.Meets .aliasKeyword) :
    Stemmed r (found (synonymItem doc)) := by
  apply stemmed_item hr
  · intro name?
    cases name? with
    | none => exact runs_skipItem
    | some name =>
      apply (reads_expect .equals).runs.orNone runs_skipItem
      exact fun equals => (reads_type maxDepth).runs.bind fun _ => runs_pure _
  · exact answers_skipItem rfl
  · intro name
    apply Answers.bind
    intro equals?
    cases equals? with
    | none => exact answers_skipItem called_none
    | some equals =>
      refine .bind fun target => .pure ?_
      intro item hitem
      obtain rfl := Option.some.inj hitem
      exact ⟨rfl, rfl⟩

/-- What the round of an item sees first. -/
theorem meets_currentKind {kind : TokenKind} (h : (currentKind r).1 = some kind) :
    (currentKind r).2.Meets kind := by
  obtain ⟨t, ht, rfl⟩ := Option.map_eq_some_iff.mp h
  exact meets_of_current ht

theorem stemmed_itemRound (r : Reading) : Stemmed r itemRound := by
  apply Stemmed.after reads_docs.runs
  apply Stemmed.after reads_currentKind.runs
  generalize hs : (docs r).2 = s
  cases hkind : (currentKind s).1 with
  | none => exact Stemmed.of_none (runs_pure _) (.pure rfl) _
  | some kind =>
    have hmeets := meets_currentKind hkind
    split
    · next hnone => cases hnone
    · exact .of_none (reads_package.runs.bind fun _ => runs_pure _) (.bind fun _ => .pure rfl) _
    · next heq => exact stemmed_structItem _ (Option.some.inj heq ▸ hmeets)
    · next heq => exact stemmed_enumItem _ (Option.some.inj heq ▸ hmeets)
    · next heq => exact stemmed_synonymItem _ (Option.some.inj heq ▸ hmeets)
    · refine .of_none ?_ (.bind fun _ => .bind fun _ => .pure rfl) _
      have hfail : Runs (fail .expectedToken (some "`struct`, `enum`, `alias` or `package`")) :=
        (complains_fail _ rfl).reads
      exact hfail.bind fun _ => runs_recoverToItem.bind fun _ => runs_pure _

/-- The round that asks to stop has nothing left to read. -/
theorem rest_eq_nil_of_stop (h : (itemRound r).1.2 = false) : (itemRound r).2.rest = [] := by
  have hnone : (currentKind (docs r).2).1 = none := by
    by_contra hkind
    rw [itemRound_goesOn hkind] at h
    cases h
  have hnothing : (currentKind (docs r).2).2.rest.head? = none := Option.map_eq_none_iff.mp hnone
  rw [itemRound_stops hnone]
  exact List.head?_eq_none_iff.mp hnothing

theorem stems_items (r : Reading) : Stems r.rest (items r).1 ∧ (items r).2.rest = [] := by
  have hfinishes := advances_itemRound.finishes r
  unfold items
  generalize collect itemRound r = x at hfinishes ⊢
  induction hfinishes with
  | @stop r s found h =>
    have hround := stemmed_itemRound r [] (.nil _)
    have hrest := rest_eq_nil_of_stop (r := r) (by rw [h])
    rw [h] at hround hrest
    exact ⟨List.append_nil found ▸ hround, hrest⟩
  | @goOn r s t found more h _ ih =>
    have hround := stemmed_itemRound r more
    rw [h] at hround
    exact ⟨hround ih.1, ih.2⟩

end Items

end Parser

/-- The items of a text stem from its tokens. -/
theorem stems_parse (source : SourceId) (text : String) :
    Stems (tokens text) (parse source text).1.items :=
  (Parser.stems_items (.start source text)).1

theorem names_ordered_parse (source : SourceId) (text : String) :
    (parse source text).1.items.Pairwise fun a b => a.name.span.stop ≤ b.name.span.start :=
  (stems_parse source text).names_ordered (tokens_ordered text)

end TypeGraph.Schema

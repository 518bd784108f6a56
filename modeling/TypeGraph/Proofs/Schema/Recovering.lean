import Mathlib.Data.List.TakeWhile
import TypeGraph.Proofs.Schema.Repeating
/-!
Reading on behind what is no item. Where tokens that no item begins with stand between two files,
the reader reports that at one of them and goes on with the second file as if it stood alone. Nothing
is lost but these tokens.
-/

namespace TypeGraph.Schema

open Reading

/-- What is left to leave of the tokens `J` in front of `Q`, while every report so far begins at one
of them. -/
structure Reading.Amid (J Q : List Token) (package : Option PackageHeader) (ts : List Token)
    (r : Reading) : Prop where
  within : ts <:+ J
  rest : r.rest = ts ++ Q
  package : r.package = package
  told : ∀ d ∈ r.diagnostics, ∃ t ∈ J, d.span.start = t.span.start

namespace Reading.Amid

variable {J Q ts : List Token} {package : Option PackageHeader} {t : Token} {r r' : Reading}

/-- A report at one of the tokens. -/
theorem report (h : r.Amid J Q package ts) (ht : t ∈ J) (kind : Diagnostic.Kind)
    (detail? : Option String) : (r.report kind t.span detail? [] []).Amid J Q package ts := by
  refine ⟨h.within, rest_report.trans h.rest, package_report.trans h.package, ?_⟩
  intro d hd
  unfold Reading.report at hd
  split at hd
  · exact h.told d hd
  · rcases List.mem_append.mp hd with hd | hd
    · exact h.told d hd
    · obtain rfl := List.mem_singleton.mp hd
      exact ⟨t, ht, rfl⟩

theorem next (h : r.Amid J Q package (t :: ts)) (hrest : r'.rest = ts ++ Q)
    (hpackage : r'.package = r.package) (hdiagnostics : r'.diagnostics = r.diagnostics) :
    r'.Amid J Q package ts :=
  ⟨(List.suffix_cons t ts).trans h.within, hrest, hpackage.trans h.package,
    hdiagnostics ▸ h.told⟩

end Reading.Amid

namespace Parser

variable {α : Type} {w : Scene} {r s : Reading} {J Q ts : List Token} {t : Token}
variable {package : Option PackageHeader}

section Lookahead

theorem Advances.collect_current {round : Parser (List α × Bool)} (h : Advances round)
    (hround : ∀ r, round (current r).2 = round r) (r : Reading) :
    collect round (current r).2 = collect round r := by
  have hsame := hround r
  cases hgo : (round r).1.2 with
  | false =>
    rw [collect_of_stop hgo, collect_of_stop (hsame ▸ hgo), hsame]
  | true =>
    rw [h.collect_of_goOn hgo, h.collect_of_goOn (hsame ▸ hgo), hsame]

theorem docs_current (r : Reading) : docs (current r).2 = docs r := by
  have hround (r : Reading) : docRound (current r).2 = docRound r := by
    rw [docRound, run_bind, run_bind, eat_current]
  rw [docs, run_bind, run_bind, advances_docRound.collect_current hround]

/-- Reading items can begin behind unreadable tokens. -/
theorem items_current (r : Reading) : items (current r).2 = items r := by
  apply advances_itemRound.collect_current
  intro r
  unfold itemRound
  rw [run_bind, docs_current]
  rfl

end Lookahead

section Front

theorem reads_docComments : Reads docs fun r _ r' =>
    ∃ ts, (∀ t ∈ ts, t.kind = .docComment) ∧ r.rest = ts ++ r'.rest := by
  have hlines : Reads (collect docRound) fun r _ r' =>
      ∃ ts, (∀ t ∈ ts, t.kind = .docComment) ∧ r.rest = ts ++ r'.rest := by
    refine reads_collect (S := fun r _ r' =>
      ∃ ts, (∀ t ∈ ts, t.kind = .docComment) ∧ r.rest = ts ++ r'.rest) ?_ ?_
    · refine (reads_eat .docComment).bind fun t? => ?_
      cases t? with
      | none =>
        refine .pure fun s r hr => ?_
        obtain rfl : s = r := hr
        exact ⟨[], List.forall_mem_nil _, rfl⟩
      | some t =>
        refine .pure fun s r ht => ?_
        have hone : ∀ u ∈ [t], u.kind = .docComment := List.forall_mem_singleton.mpr ht.1
        exact ⟨⟨[t], hone, ht.2.rest⟩, ht.2.lt (List.cons_ne_nil _ _)⟩
    · intro r s r' _ _ hS hT
      obtain ⟨ts, hts, hrest⟩ := hS
      obtain ⟨us, hus, hrest'⟩ := hT
      refine ⟨ts ++ us, List.forall_mem_append.mpr ⟨hts, hus⟩, ?_⟩
      rw [hrest, hrest', List.append_assoc]
  exact hlines.bind fun _ => .pure fun _ _ h => h

theorem items_of_goOn (hgo : (itemRound r).1.2 = true) :
    items r = ((itemRound r).1.1 ++ (items (itemRound r).2).1, (items (itemRound r).2).2) :=
  advances_itemRound.collect_of_goOn hgo

theorem silent_of_items (h : (items r).2.Silent) : (itemRound r).2.Silent := by
  cases hgo : (itemRound r).1.2 with
  | true =>
    rw [items_of_goOn hgo] at h
    exact (reads_items.run _).silent h
  | false =>
    rw [items, collect_of_stop hgo] at h
    exact h

theorem goesOn_of_silent (hsilent : (itemRound r).2.Silent) (hrest : r.rest ≠ [])
    (hlast : ∀ t ∈ r.rest.getLast?, t.kind ≠ .docComment) : (itemRound r).1.2 = true := by
  apply itemRound_goesOn
  intro hnone
  rw [itemRound_stops hnone] at hsilent
  have hkind := reads_currentKind.result _ hsilent
  have hnil : (docs r).2.rest = [] := by
    rw [hnone] at hkind
    simpa using hkind.2.symm
  have hdocs := reads_docComments.result r ((reads_currentKind.run _).silent hsilent)
  obtain ⟨ts, hts, hsplit⟩ := hdocs
  rw [hnil, List.append_nil] at hsplit
  rw [hsplit] at hrest hlast
  have hmem : ts.getLast hrest ∈ ts := List.getLast_mem hrest
  exact hlast _ (List.getLast?_eq_some_getLast hrest) (hts _ hmem)

theorem items_of_nil (hrest : r.rest = []) : items r = ([], r) := by
  have hround : itemRound r = (([], false), r) := by
    rw [itemRound, run_bind, docs_of_none (eat_of_nil hrest), run_bind, currentKind_of_nil hrest]
    rfl
  have hstop : (itemRound r).1.2 = false := by rw [hround]
  rw [items, collect_of_stop hstop, hround]

theorem itemRound_of_follows (hdot : w.Clear .dot) (hslash : w.Clear .slash)
    (h : w.Follows r s) (hsilent : (itemRound r).2.Silent)
    (hheader : w.header = none ∨ (itemRound r).2.package = none)
    (hgo : (itemRound r).1.2 = true) : w.Follows (itemRound r).2 (itemRound s).2 ∧
      (itemRound r).1.1.map Item.bare = (itemRound s).1.1.map Item.bare ∧
      (itemRound s).1.2 = true := by
  have hstop : (itemRound r).1.2 = false → w.tail = [] := by
    rw [hgo]
    exact Bool.noConfusion
  have hfits : w.Fits false (itemRound r).2 := ⟨hheader, Bool.false_ne_true.elim⟩
  have hround := (repeats_itemRound hdot hslash).follows r s h hsilent ⟨hstop, hfits⟩
  obtain ⟨hfollows, heq⟩ := hround
  obtain ⟨hfound, hgo'⟩ := Prod.mk.inj heq
  exact ⟨hfollows, hfound, hgo'.symm.trans hgo⟩

theorem mem_getLast?_of_suffix {us : List Token} (h : ts <:+ us) (ht : t ∈ ts.getLast?) :
    t ∈ us.getLast? := by
  obtain ⟨front, rfl⟩ := h
  rw [List.getLast?_append, Option.mem_def.mp ht]
  rfl

/-- The items of a part are read as if it stood alone, and then reading goes on behind it. -/
theorem items_of_follows (hdot : w.Clear .dot) (hslash : w.Clear .slash) (h : w.Follows r s)
    (hsilent : (items r).2.Silent) (hheader : w.header = none ∨ (items r).2.package = none)
    (hlast : ∀ t ∈ r.rest.getLast?, t.kind ≠ .docComment) :
    ∃ s', w.Beside (items r).2 s' ∧ (items s).2 = (items s').2 ∧
      (items s).1.map Item.bare = (items r).1.map Item.bare ++ (items s').1.map Item.bare := by
  -- on the tokens that are left of the part
  induction hn : r.rest.length using Nat.strongRecOn generalizing r s with
  | ind n ih =>
    subst hn
    by_cases hrest : r.rest = []
    · rw [items_of_nil hrest]
      rcases h with hb | ⟨-, s', hb, rfl⟩
      · exact ⟨s, hb, rfl, rfl⟩
      · refine ⟨s', hb, ?_, ?_⟩
        · rw [items_current]
        · rw [items_current]
          rfl
    · have hround := silent_of_items hsilent
      have hgo := goesOn_of_silent hround hrest hlast
      rw [items_of_goOn hgo] at hsilent hheader ⊢
      have hheader' := hheader.imp_right (reads_items.run _).package_eq_none
      obtain ⟨hfollows, hfound, hgo'⟩ :=
        itemRound_of_follows hdot hslash h hround hheader' hgo
      have hsuffix : (itemRound r).2.rest <:+ r.rest := ((repeats_itemRound hdot hslash).runs.run r).rest
      have hlast' : ∀ t ∈ (itemRound r).2.rest.getLast?, t.kind ≠ .docComment :=
        fun t ht => hlast t (mem_getLast?_of_suffix hsuffix ht)
      have hmore := ih _ (advances_itemRound r hgo) hfollows hsilent hheader hlast' rfl
      obtain ⟨s', hb, hend, hmore⟩ := hmore
      refine ⟨s', hb, ?_, ?_⟩
      · rw [items_of_goOn hgo']
        exact hend
      · rw [items_of_goOn hgo', List.map_append, List.map_append, hmore, hfound,
          List.append_assoc]

end Front

section Between

/-- An item begins here, or its documentation. -/
theorem readable_of_atItem (hQ : atItem Q) : ∃ t ts, Q = t :: ts ∧ t.kind ≠ .garbage := by
  cases Q with
  | nil => cases hQ
  | cons t ts =>
    refine ⟨t, ts, rfl, ?_⟩
    intro hgarbage
    simp [atItem, hgarbage, TokenKind.startsItem] at hQ

theorem amid_current (hQ : atItem Q) (h : r.Amid J Q package ts) :
    (current r).2.Amid J Q package (ts.dropWhile (·.kind = .garbage)) := by
  rw [current_snd, h.rest]
  induction ts generalizing r with
  | nil =>
    obtain ⟨q, qs, rfl, hq⟩ := readable_of_atItem hQ
    rw [List.nil_append, Reading.skipGarbage, if_neg hq]
    exact ⟨h.within, rfl, h.package, h.told⟩
  | cons t ts ih =>
    rw [List.cons_append, Reading.skipGarbage]
    by_cases ht : t.kind = .garbage
    · have hreport := h.report (h.within.mem List.mem_cons_self) .unexpectedCharacter none
      have hnext := ih (r := { r.report .unexpectedCharacter t.span none [] [] with
        rest := ts ++ Q }) (hreport.next rfl rfl rfl)
      rw [skipGarbage_with_rest] at hnext
      rw [if_pos ht, List.dropWhile_cons, if_pos (decide_eq_true ht)]
      exact hnext
    · rw [if_neg ht, List.dropWhile_cons, if_neg (by simpa using ht)]
      exact ⟨h.within, rfl, h.package, h.told⟩

theorem skipRound_of_stop {stops : List Token → Bool} (h : stops (current r).2.rest) :
    skipRound stops r = (([], false), (current r).2) := by
  rw [skipRound, run_bind]
  cases (current r).1 with
  | none => rfl
  | some t =>
    simp only
    rw [run_bind, run_get]
    simp only [h, if_true]
    rfl

theorem skipRound_of_cons {stops : List Token → Bool} (hrest : (current r).2.rest = t :: ts)
    (h : stops (t :: ts) = false) : skipRound stops r =
      (([], true), { (current r).2 with rest := ts, lastStop := t.span.stop }) := by
  rw [skipRound, run_bind, current_fst, hrest, List.head?_cons]
  simp only
  rw [run_bind, run_get]
  simp only [hrest, h, Bool.false_eq_true, if_false]
  rw [run_bind, bump_of_settled (settled_current r) hrest]
  rfl

/-- No item begins at one of the tokens. -/
abbrev Plain (ts : List Token) : Prop :=
  ∀ t ∈ ts, ¬atItem [t]

theorem amid_skipUntil (hJ : Plain J) (hQ : atItem Q) (h : r.Amid J Q package ts) :
    (skipUntil atItem r).2.Amid J Q package [] := by
  show (collect (skipRound atItem) r).2.Amid J Q package []
  have hadvances := advances_skipRound atItem
  -- on the tokens in front of the item; a round leaves the unreadable ones and one more
  induction hn : ts.length using Nat.strongRecOn generalizing r ts with
  | ind n ih =>
    subst hn
    have hcurrent := amid_current hQ h
    have hle : (ts.dropWhile (·.kind = .garbage)).length ≤ ts.length :=
      (List.dropWhile_sublist _).length_le
    cases hts : ts.dropWhile (·.kind = .garbage) with
    | nil =>
      rw [hts] at hcurrent
      have hround : skipRound atItem r = (([], false), (current r).2) :=
        skipRound_of_stop (hcurrent.rest ▸ hQ)
      have hstop : (skipRound atItem r).1.2 = false := by rw [hround]
      rw [collect_of_stop hstop, hround]
      exact hcurrent
    | cons t ts' =>
      rw [hts] at hcurrent hle
      have hmem : t ∈ J := hcurrent.within.mem List.mem_cons_self
      have hplain : atItem (t :: (ts' ++ Q)) = false := Bool.eq_false_iff.mpr (hJ t hmem)
      have hround := skipRound_of_cons hcurrent.rest hplain
      have hgo : (skipRound atItem r).1.2 = true := by rw [hround]
      rw [hadvances.collect_of_goOn hgo, hround]
      have hnext : ({ (current r).2 with rest := ts' ++ Q, lastStop := t.span.stop } :
          Reading).Amid J Q package ts' := hcurrent.next rfl rfl rfl
      exact ih _ hle hnext rfl

/-- The round at a token that no item begins with leaves all of them. -/
theorem itemRound_of_amid (hJ : Plain J) (hQ : atItem Q) (hsettled : Settled r)
    (h : r.Amid J Q package (t :: ts)) : (itemRound r).1 = ([], true) ∧
      (itemRound r).2.Amid J Q package [] ∧ ¬(itemRound r).2.Silent := by
  have hmem : t ∈ J := h.within.mem List.mem_cons_self
  have hplain : atItem [t] = false := Bool.eq_false_iff.mpr (hJ t hmem)
  obtain ⟨hkeyword, hdoc⟩ := Bool.or_eq_false_iff.mp hplain
  have hrest : r.rest = t :: (ts ++ Q) := h.rest
  have hround : itemRound r = (do
      fail .expectedToken (some "`struct`, `enum`, `alias` or `package`")
      recoverToItem
      return ([], true) : Parser (List Item × Bool)) r := by
    have hdocs : docs r = (none, r) := by
      apply docs_of_none
      apply eat_of_other hsettled hrest
      simpa using hdoc
    have hkind : currentKind r = (some t.kind, r) := by
      rw [currentKind_of_settled hsettled, hrest]
      rfl
    rw [itemRound, run_bind, hdocs, run_bind, hkind]
    generalize t.kind = kind at hkeyword
    cases kind with
    | packageKeyword | structKeyword | enumKeyword | aliasKeyword => cases hkeyword
    | _ => rfl
  have hcomplains : Complains (do
      fail .expectedToken (some "`struct`, `enum`, `alias` or `package`")
      recoverToItem
      return ([], true) : Parser (List Item × Bool)) :=
    (complains_fail _ rfl).bind fun _ => runs_recoverToItem.bind fun _ => runs_pure _
  rw [hround]
  refine ⟨rfl, ?_, fun hsilent => hcomplains.result r hsilent⟩
  rw [run_bind, fail_of_settled hsettled hrest]
  have hreport := h.report hmem .expectedToken (some "`struct`, `enum`, `alias` or `package`")
  have hbump := bump_of_settled (settled_of_cons hreport.rest (hsettled t (by rw [hrest]; rfl)))
    hreport.rest
  rw [run_bind, recoverToItem, run_bind, hbump]
  exact amid_skipUntil hJ hQ (hreport.next rfl rfl rfl)

/-- Reading items goes on behind the tokens, after a report. -/
theorem items_of_amid (hJ : Plain J) (hQ : atItem Q) (hts : ts ≠ [])
    (h : r.Amid J Q package ts) :
    ∃ r', r'.Amid J Q package [] ∧ ¬r'.Silent ∧ items r = items r' := by
  have hcurrent := amid_current hQ h
  rw [← items_current]
  cases hdrop : ts.dropWhile (·.kind = .garbage) with
  | nil =>
    rw [hdrop] at hcurrent
    refine ⟨(current r).2, hcurrent, ?_, rfl⟩
    intro hsilent
    have hsettled := settled_of_silent hsilent
    have hgarbage : (ts.head hts).kind = .garbage := by
      have hall := List.dropWhile_eq_nil_iff.mp hdrop (ts.head hts) (List.head_mem hts)
      exact of_decide_eq_true hall
    apply hsettled (ts.head hts) _ hgarbage
    rw [h.rest, List.head?_append_of_ne_nil _ hts]
    exact List.head?_eq_some_head hts
  | cons t ts' =>
    rw [hdrop] at hcurrent
    obtain ⟨hfound, hamid, hloud⟩ := itemRound_of_amid hJ hQ (settled_current r) hcurrent
    refine ⟨_, hamid, hloud, ?_⟩
    have hgo : (itemRound (current r).2).1.2 = true := by rw [hfound]
    have hitems := items_of_goOn hgo
    rw [hfound, List.nil_append] at hitems
    exact hitems

end Between

end Parser

/-- The tokens are, wherever they stand, those of a text that is read as `file` without a
diagnostic. -/
def ReadsAs (source : SourceId) (ts : List Token) (file : File) : Prop :=
  ∃ text, (tokens text).map Token.bare = ts.map Token.bare ∧ parse source text = (file, [])

/-- Reading such tokens alone. -/
structure Alone (ts : List Token) (file : File) (r : Reading) : Prop where
  rest : r.rest.map Token.bare = ts.map Token.bare
  package : r.package = none
  silent : (Parser.items r).2.Silent
  items : (Parser.items r).1 = file.items
  header : (Parser.items r).2.package = file.package

theorem ReadsAs.alone {source : SourceId} {ts : List Token} {file : File}
    (h : ReadsAs source ts file) : ∃ r, Alone ts file r := by
  obtain ⟨text, hbare, hparse⟩ := h
  have hsilent : (Parser.items (.start source text)).2.Silent := by
    apply silent_of_no_error
    rw [hparse]
    exact List.forall_mem_nil _
  have hfile := congrArg Prod.fst hparse
  rw [parse_eq] at hfile
  exact ⟨.start source text, hbare, rfl, hsilent, congrArg File.items hfile,
    congrArg File.package hfile⟩

/-- Tokens that no item begins with, and that no name or path goes on with. -/
structure Junk (J : List Token) : Prop where
  ne_nil : J ≠ []
  plain : Parser.Plain J
  start : ∀ t ∈ J.find? (·.kind ≠ .garbage), t.kind ≠ .dot ∧ t.kind ≠ .slash

section Junk

variable {source : SourceId} {text : String} {P J Q : List Token} {p q : File}

theorem Junk.clear (hJ : Junk J) (hQ : Parser.atItem Q) :
    Scene.Clear ⟨J ++ Q, none, []⟩ .dot ∧ Scene.Clear ⟨J ++ Q, none, []⟩ .slash := by
  have hnext : ∀ t ∈ ((J ++ Q).dropWhile (·.kind = .garbage)).head?,
      t.kind ≠ .dot ∧ t.kind ≠ .slash := by
    intro t ht
    have hfind : (J ++ Q).find? (·.kind ≠ .garbage) = some t := by
      rw [List.find?_eq_head?_dropWhile_not]
      simpa using ht
    rw [List.find?_append] at hfind
    cases hj : J.find? (·.kind ≠ .garbage) with
    | some u =>
      rw [hj] at hfind
      obtain rfl := Option.some.inj hfind
      exact hJ.start u hj
    | none =>
      obtain ⟨u, us, rfl, hu⟩ := Parser.readable_of_atItem hQ
      rw [hj, Option.none_or, List.find?_cons_of_pos (by simpa using hu)] at hfind
      obtain rfl := Option.some.inj hfind
      constructor
      · intro hk
        simp [Parser.atItem, hk, TokenKind.startsItem] at hQ
      · intro hk
        simp [Parser.atItem, hk, TokenKind.startsItem] at hQ
  exact ⟨fun t ht => (hnext t ht).1, fun t ht => (hnext t ht).2⟩

/-- The first file is read, and the tokens behind it are left. -/
theorem exists_amid (htext : tokens text = P ++ (J ++ Q)) (hP : ReadsAs source P p)
    (hlast : ∀ t ∈ P.getLast?, t.kind ≠ .docComment) (hJ : Junk J) (hQ : Parser.atItem Q) :
    ∃ s package, s.Amid J Q package J ∧
      package.map PackageHeader.bare = p.package.map PackageHeader.bare ∧
      (Parser.items (.start source text)).2 = (Parser.items s).2 ∧
      (Parser.items (.start source text)).1.map Item.bare =
        p.items.map Item.bare ++ (Parser.items s).1.map Item.bare := by
  obtain ⟨r, hr⟩ := hP.alone
  obtain ⟨hdot, hslash⟩ := hJ.clear hQ
  have hbeside : Scene.Beside ⟨J ++ Q, none, []⟩ r (.start source text) := by
    refine ⟨⟨P, hr.rest.symm, htext⟩, ?_, List.forall_mem_nil _⟩
    rw [hr.package]
    rfl
  have hlast' : ∀ t ∈ r.rest.getLast?, t.kind ≠ .docComment := by
    intro t ht
    have hmap := congrArg List.getLast? hr.rest
    rw [List.getLast?_map, List.getLast?_map, Option.mem_def.mp ht] at hmap
    obtain ⟨u, hu, hbare⟩ := Option.map_eq_some_iff.mp hmap.symm
    rw [← Token.kind_of_bare hbare]
    exact hlast u hu
  have hfront := Parser.items_of_follows hdot hslash (.inl hbeside) hr.silent (.inl rfl) hlast'
  obtain ⟨s, hb, hend, hitems⟩ := hfront
  have hnil : (Parser.items r).2.rest = [] := (Parser.reads_items.result _ hr.silent).2
  refine ⟨s, s.package, ⟨List.suffix_rfl, hb.nil hnil, rfl, ?_⟩, ?_, hend, ?_⟩
  · intro d hd
    obtain ⟨t, ht, -⟩ := hb.told d hd
    exact absurd ht List.not_mem_nil
  · rw [hb.package, Option.none_or, hr.header]
  · rw [hitems, hr.items]

/-- The second file is read as if it stood alone. -/
theorem items_of_back {s : Reading} {package : Option PackageHeader}
    (h : s.Amid J Q package []) (hQ : ReadsAs source Q q) (hheader : q.package = none) :
    (Parser.items s).1.map Item.bare = q.items.map Item.bare ∧
      (Parser.items s).2.package.map PackageHeader.bare = package.map PackageHeader.bare ∧
      ∀ d ∈ (Parser.items s).2.diagnostics, ∃ t ∈ J, d.span.start = t.span.start := by
  obtain ⟨r, hr⟩ := hQ.alone
  let w : Scene := ⟨[], package.map PackageHeader.bare, J⟩
  have hbeside : w.Beside r s := by
    refine ⟨⟨Q, hr.rest.symm, ?_⟩, ?_, h.told⟩
    · rw [h.rest, List.nil_append, List.append_nil]
    · rw [h.package, hr.package, Option.map_none, Option.or_none]
  have hfits : w.Fits false (Parser.items r).2 :=
    ⟨.inr (hr.header.trans hheader), Bool.false_ne_true.elim⟩
  have hrepeats := (Parser.repeats_items (w := w) rfl).follows r s (.inl hbeside) hr.silent hfits
  have hend := Parser.beside_of_follows rfl hrepeats.1
  refine ⟨?_, ?_, hend.told⟩
  · rw [← hrepeats.2, hr.items]
  · rw [hend.package, hr.header, hheader, Option.map_none, Option.or_none]

/-- Tokens that are no item cost no item: those in front of them and those behind them are read as
they are read alone, with the header in front, and every report begins at one of the tokens. -/
theorem junk_costs_no_item (htext : tokens text = P ++ J ++ Q) (hP : ReadsAs source P p)
    (hQ : ReadsAs source Q q) (hlast : ∀ t ∈ P.getLast?, t.kind ≠ .docComment)
    (hitem : Parser.atItem Q) (hheader : q.package = none) (hJ : Junk J) :
    (parse source text).1.items.map Item.bare = (p.items ++ q.items).map Item.bare ∧
      (parse source text).1.package.map PackageHeader.bare = p.package.map PackageHeader.bare ∧
      (parse source text).2 ≠ [] ∧
      ∀ d ∈ (parse source text).2, ∃ t ∈ J, d.span.start = t.span.start := by
  rw [List.append_assoc] at htext
  obtain ⟨s, package, hs, hpackage, hend, hitems⟩ := exists_amid htext hP hlast hJ hitem
  obtain ⟨s', hs', hloud, hsame⟩ := Parser.items_of_amid hJ.plain hitem hJ.ne_nil hs
  obtain ⟨hback, hkept, htold⟩ := items_of_back hs' hQ hheader
  rw [hsame] at hend hitems
  rw [parse_eq]
  refine ⟨?_, ?_, ?_, ?_⟩
  · rw [hitems, hback, List.map_append]
  · rw [hend, hkept, hpackage]
  · have hstart : (Reading.start source text).Told := fun hloud => absurd rfl hloud
    have hloud' : ¬(Parser.items (.start source text)).2.Silent := by
      rw [hend]
      exact fun hsilent => hloud ((Parser.reads_items.run s').silent hsilent)
    obtain ⟨d, hd, -⟩ := (Parser.reads_items.run _).told hstart hloud'
    exact List.ne_nil_of_mem hd
  · rw [hend]
    exact htold

/-- An unreadable sign, a closing brace, a string and an attribute between two structs. -/
def strayText : String :=
  "package a struct A \x7b X: int \x7d $ \x7d \"s\" @skip\n/// B.\nstruct B \x7b Y: A \x7d"

theorem stray_tokens_cost_no_item :
    Junk (((tokens strayText).drop 9).take 5) ∧
      (parse 0 strayText).1.items.map Item.bare =
        ((parse 0 "package a struct A \x7b X: int \x7d").1.items ++
          (parse 0 "/// B.\nstruct B \x7b Y: A \x7d").1.items).map Item.bare ∧
      (parse 0 strayText).1.package.map PackageHeader.bare =
        (parse 0 "package a struct A \x7b X: int \x7d").1.package.map PackageHeader.bare ∧
      (parse 0 strayText).2 ≠ [] ∧
      ∀ d ∈ (parse 0 strayText).2,
        ∃ t ∈ ((tokens strayText).drop 9).take 5, d.span.start = t.span.start := by
  have hjunk : Junk (((tokens strayText).drop 9).take 5) :=
    ⟨by decide +kernel, by decide +kernel, by decide +kernel⟩
  have hfront : ReadsAs 0 ((tokens strayText).take 9)
      (parse 0 "package a struct A \x7b X: int \x7d").1 :=
    ⟨_, by decide +kernel, Prod.ext rfl (by decide +kernel)⟩
  have hback : ReadsAs 0 ((tokens strayText).drop 14)
      (parse 0 "/// B.\nstruct B \x7b Y: A \x7d").1 :=
    ⟨_, by decide +kernel, Prod.ext rfl (by decide +kernel)⟩
  have htext : tokens strayText = (tokens strayText).take 9 ++
      ((tokens strayText).drop 9).take 5 ++ (tokens strayText).drop 14 := by decide +kernel
  exact ⟨hjunk, junk_costs_no_item htext hfront hback (by decide +kernel) (by decide +kernel)
    (by decide +kernel) hjunk⟩

end Junk

end TypeGraph.Schema

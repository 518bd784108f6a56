import TypeGraph.Proofs.Schema.Resuming
/-!
Reading on at the next item. Where an item does not go on behind its keyword or its name, what is
left with the error is at most one line of documentation or a header, unless the next keyword comes
at once.
-/

namespace TypeGraph.Schema

open Reading

/-- How the items of a kind are read. -/
def Item.read : Item → Option String → Parser (Option Item)
  | .struct _ => Parser.structItem
  | .enum _ => Parser.enumItem
  | .synonym _ => Parser.synonymItem

theorem Item.readable_keyword (item : Item) : item.keyword ≠ .garbage := by
  cases item <;> nofun

def Item.withoutDoc : Item → Item
  | .struct d => .struct { d with doc := none }
  | .enum d => .enum { d with doc := none }
  | .synonym d => .synonym { d with doc := none }

namespace Parser

variable {α β : Type} {r s : Reading} {t : Token} {ts : List Token} {item : Item}
variable {doc : Option String}

section Items

theorem read_of_keyword {found : Item} (h : found.keyword = item.keyword) :
    found.read = item.read := by
  cases found <;> cases item <;> first | rfl | cases h

theorem Reads.and {m : Parser α} {P Q : Reading → α → Reading → Prop} (h : Reads m P)
    (k : Reads m Q) : Reads m fun r a r' => P r a r' ∧ Q r a r' :=
  ⟨h.run, fun r hs => ⟨h.result r hs, k.result r hs⟩⟩

theorem composed_read (item : Item) (doc : Option String) : Composed (item.read doc) := by
  cases item with
  | struct d => exact composed_structItem doc
  | enum d => exact composed_enumItem doc
  | synonym d => exact composed_synonymItem doc

theorem closes_read (item : Item) (doc : Option String) : Closes (item.read doc) := by
  cases item with
  | struct d => exact closes_structItem doc
  | enum d => exact closes_enumItem doc
  | synonym d => exact closes_synonymItem doc

theorem reads_read (item : Item) (doc : Option String) :
    ReadsItem item.keyword (item.read doc) := by
  cases item with
  | struct d => exact reads_structItem doc
  | enum d => exact reads_enumItem doc
  | synonym d => exact reads_synonymItem doc

/-- An item is read from its keyword on, and what follows depends on its name. -/
theorem exists_behindName (item : Item) (doc : Option String) :
    ∃ behind : Option Name → Parser (Option Item),
      item.read doc = (bump >>= fun _ => name >>= behind) ∧
      behind none = (recoverToItem >>= fun _ => pure none) ∧
      ∀ n, Runs (behind (some n)) ∧ Answers (behind (some n)) (Called item.keyword n) := by
  have hskip {n : Name} : Answers (recoverToItem >>= fun _ => pure none) (Called item.keyword n) :=
    .bind fun _ => .pure called_none
  cases item with
  | struct d =>
    refine ⟨_, rfl, rfl, fun n => ⟨?_, .bind fun ms => .pure ?_⟩⟩
    · exact (composed_members (composed_type maxDepth)).runs.bind fun _ => runs_pure _
    · exact fun found h => by obtain rfl := Option.some.inj h; exact ⟨rfl, rfl⟩
  | enum d =>
    refine ⟨_, rfl, rfl, fun n => ⟨?_, .bind fun colon? => ?_⟩⟩
    · refine (reads_expect .colon).runs.orNone (runs_recover none) fun _ => ?_
      refine reads_name.runs.orNone (runs_recover none) fun _ => ?_
      exact composed_variants.runs.bind fun _ => runs_pure _
    · cases colon? with
      | none => exact hskip
      | some colon =>
        refine .bind fun base? => ?_
        cases base? with
        | none => exact hskip
        | some base =>
          refine .bind fun vs => .pure fun found h => ?_
          obtain rfl := Option.some.inj h
          exact ⟨rfl, rfl⟩
  | synonym d =>
    refine ⟨_, rfl, rfl, fun n => ⟨?_, .bind fun equals? => ?_⟩⟩
    · refine (reads_expect .equals).runs.orNone (runs_recover none) fun _ => ?_
      exact (composed_type maxDepth).runs.bind fun _ => runs_pure _
    · cases equals? with
      | none => exact hskip
      | some equals =>
        refine .bind fun target => .pure fun found h => ?_
        obtain rfl := Option.some.inj h
        exact ⟨rfl, rfl⟩

theorem answers_read (item : Item) (doc : Option String) :
    Answers (item.read doc) fun found? => ∀ found ∈ found?, found.keyword = item.keyword := by
  obtain ⟨behind, hread, hnone, hsome⟩ := exists_behindName item doc
  rw [hread]
  refine .bind fun _ => .bind fun name? => ?_
  cases name? with
  | none =>
    rw [hnone]
    exact .bind fun _ => .pure nofun
  | some n => exact fun r found hfound => ((hsome n).2 r found hfound).1

/-- A name stands behind the keyword. -/
theorem reads_itemHead (item : Item) (doc : Option String) :
    Reads (item.read doc) fun r found? _ => ∀ t ts, r.rest = t :: ts → ∃ n us, ts = n :: us ∧
      n.kind = .identifier ∧ ∀ found ∈ found?, found.keyword = item.keyword ∧
        found.name = ⟨n.text, n.span⟩ := by
  obtain ⟨behind, hread, hnone, hsome⟩ := exists_behindName item doc
  rw [hread]
  refine reads_bump_itself.bind fun _ => reads_name_token.bind ?_ fun name => ?_
  · rw [hnone]
    exact runs_recover none
  refine ⟨(hsome name).1.run, fun s _ r hname r' hbump t ts hrest => ?_⟩
  obtain ⟨n, hn, rfl, htook⟩ := hname
  obtain rfl := hbump t ts hrest
  refine ⟨n, s.rest, htook.rest, hn, fun found hfound => ?_⟩
  exact (hsome _).2 s found hfound

/-- What a round of items does when it is silent. -/
inductive ItemStep (r : Reading) : List Item × Bool → Reading → Prop
  | stop {doc : Option String} {s : Reading} (hdocs : docs r = (doc, s)) (hrest : s.rest = []) :
      ItemStep r ([], false) s
  | package {doc : Option String} {s : Reading} {t : Token} {ts : List Token}
      (hdocs : docs r = (doc, s)) (hrest : s.rest = t :: ts) (hk : t.kind = .packageKeyword) :
      ItemStep r ([], true) (package s).2
  | item {doc : Option String} {s r' : Reading} {t : Token} {ts : List Token} {item : Item}
      (hdocs : docs r = (doc, s)) (hrest : s.rest = t :: ts) (hk : t.kind = item.keyword)
      (hread : item.read doc s = (some item, r')) : ItemStep r ([item], true) r'

theorem reads_itemStep : Reads itemRound ItemStep := by
  have hnext {s : Reading} {kind : TokenKind} (hk : some kind = s.rest.head?.map (·.kind)) :
      ∃ t ts, s.rest = t :: ts ∧ t.kind = kind := by
    obtain ⟨t, ht, hkind⟩ := Option.map_eq_some_iff.mp hk.symm
    obtain ⟨ts, hts⟩ := List.head?_eq_some_iff.mp ht
    exact ⟨t, ts, hts, hkind⟩
  refine reads_docs.runs.itself.bind fun doc => reads_currentKind.bind fun kind? => ?_
  have hitem (item : Item) : Reads (do return ((← item.read doc).toList, true)) fun s x r' =>
      ∀ s', s = s' ∧ some item.keyword = s'.rest.head?.map (·.kind) →
        ∀ r : Reading, docs r = (doc, s') → ItemStep r x r' := by
    refine ((reads_read item doc).and ((reads_itemHead item doc).and
      (composed_read item doc).runs.itself)).bind fun found? => .pure ?_
    rintro r' s ⟨⟨found, rfl, -⟩, hhead, hread⟩ s' ⟨rfl, hk⟩ r hdocs
    obtain ⟨t, ts, hrest, hkind⟩ := hnext hk
    obtain ⟨n, us, -, -, hfound⟩ := hhead t ts hrest
    obtain ⟨hkeyword, -⟩ := hfound found rfl
    rw [← read_of_keyword hkeyword] at hread
    exact .item hdocs hrest (hkind.trans hkeyword.symm) hread
  split
  · refine .pure fun s s' hk r hdocs => ?_
    obtain ⟨rfl, hk⟩ := hk
    refine .stop hdocs ?_
    simpa using hk.symm
  · refine reads_package.runs.itself.bind fun _ => .pure fun r' s hp s' hk r hdocs => ?_
    obtain ⟨rfl, hk⟩ := hk
    obtain ⟨t, ts, hrest, hkind⟩ := hnext hk
    have hstep : ItemStep r ([], true) (package s).2 := .package hdocs hrest hkind
    rw [hp] at hstep
    exact hstep
  · exact hitem (.struct ⟨default, none, []⟩)
  · exact hitem (.enum ⟨default, none, default, []⟩)
  · exact hitem (.synonym ⟨default, none, default⟩)
  · apply Complains.reads
    exact (complains_fail _ rfl).bind fun _ => runs_recover _

theorem itemRound_of_keyword (hdocs : docs r = (doc, s)) (hrest : s.rest = t :: ts)
    (hk : t.kind = item.keyword) :
    itemRound r = (((item.read doc s).1.toList, true), (item.read doc s).2) := by
  rw [itemRound, run_bind, hdocs, run_bind,
    currentKind_of_cons hrest (hk ▸ item.readable_keyword), hk]
  cases item <;> rfl

theorem itemRound_of_package (hdocs : docs r = (doc, s)) (hrest : s.rest = t :: ts)
    (hk : t.kind = .packageKeyword) : itemRound r = (([], true), (package s).2) := by
  rw [itemRound, run_bind, hdocs, run_bind, currentKind_of_cons hrest (by rw [hk]; decide), hk]
  rfl

theorem atItem_of_docs (hdocs : docs r = (doc, s)) (hsilent : s.Silent)
    (h : s.rest = [] ∨ atItem s.rest) : r.rest = [] ∨ atItem r.rest := by
  have hlines := reads_docComments.result r (by rw [hdocs]; exact hsilent)
  obtain ⟨lines, hkinds, hrest⟩ := hlines
  rw [hdocs] at hrest
  rw [hrest]
  cases lines with
  | nil => exact h
  | cons line lines => exact .inr (by simp [atItem, hkinds line List.mem_cons_self])

/-- Before each round the next item is at hand, or the end of the text. -/
theorem reads_atItem : Reads itemRound fun r _ _ => r.rest = [] ∨ atItem r.rest := by
  refine reads_itemStep.mono_silent fun r x r' hsilent hstep => ?_
  cases hstep with
  | stop hdocs hrest => exact atItem_of_docs hdocs hsilent (.inl hrest)
  | @package _ s t ts hdocs hrest hk =>
    have hs := (reads_package.run s).silent hsilent
    refine atItem_of_docs hdocs hs (.inr ?_)
    simp [hrest, atItem, hk, TokenKind.startsItem]
  | @item doc s _ t ts item hdocs hrest hk hread =>
    have hrun := (composed_read item doc).runs.run s
    rw [hread] at hrun
    refine atItem_of_docs hdocs (hrun.silent hsilent) (.inr ?_)
    rw [hrest]
    cases item <;> simp [atItem, hk, Item.keyword, TokenKind.startsItem]

theorem items_silent (h : (items r).2.Silent) : r.rest = [] ∨ atItem r.rest :=
  reads_atItem.result r (silent_of_items h)

theorem passes_structItem : Passes (fun _ _ => True)
    (fun a b => FirstStripped Item.withoutDoc a.toList b.toList) structItem := by
  refine .bind fun _ => .bind fun name? => ?_
  cases name? with
  | none => exact .const fun _ => .refl _ _
  | some name => exact .bind fun ms => .pure fun _ _ _ => ⟨rfl, rfl⟩

theorem passes_enumItem : Passes (fun _ _ => True)
    (fun a b => FirstStripped Item.withoutDoc a.toList b.toList) enumItem := by
  refine .bind fun _ => .bind fun name? => ?_
  cases name? with
  | none => exact .const fun _ => .refl _ _
  | some name =>
    refine .bind fun colon? => ?_
    cases colon? with
    | none => exact .const fun _ => .refl _ _
    | some colon =>
      refine .bind fun base? => ?_
      cases base? with
      | none => exact .const fun _ => .refl _ _
      | some base => exact .bind fun vs => .pure fun _ _ _ => ⟨rfl, rfl⟩

theorem passes_synonymItem : Passes (fun _ _ => True)
    (fun a b => FirstStripped Item.withoutDoc a.toList b.toList) synonymItem := by
  refine .bind fun _ => .bind fun name? => ?_
  cases name? with
  | none => exact .const fun _ => .refl _ _
  | some name =>
    refine .bind fun equals? => ?_
    cases equals? with
    | none => exact .const fun _ => .refl _ _
    | some equals => exact .bind fun target => .pure fun _ _ _ => ⟨rfl, rfl⟩

/-- The rounds of a file read documentation first, and only store it. -/
theorem exists_stores_itemRound :
    ∃ read, itemRound = docs >>= read ∧ Stores Item.withoutDoc read := by
  have hsame (x : List Item × Bool) : x.2 = x.2 ∧ FirstStripped Item.withoutDoc x.1 x.1 :=
    ⟨rfl, .refl _ _⟩
  refine ⟨_, rfl, .bind fun kind? => ?_⟩
  split
  · exact .const hsame
  · exact .const hsame
  · exact passes_structItem.map fun _ _ h => ⟨rfl, h⟩
  · exact passes_enumItem.map fun _ _ h => ⟨rfl, h⟩
  · exact passes_synonymItem.map fun _ _ h => ⟨rfl, h⟩
  · exact .const hsame

end Items

section Resuming

/-- Two readings at the same place, wherever the token before it ended. -/
structure Near (r s : Reading) : Prop where
  rest : s.rest = r.rest
  stop : s.stop = r.stop
  package : s.package = r.package ∨ r.package ≠ none

theorem run_bind_congr {m : Parser α} {f : α → Parser β} (h : m r = m s) :
    (m >>= f) r = (m >>= f) s := by
  rw [run_bind, run_bind, h]

theorem settled_of_atItem (h : atItem r.rest) : Settled r := by
  obtain ⟨t, ts, hrest, ht⟩ := readable_of_atItem h
  exact settled_of_cons hrest ht

/-- Before an item it does not matter where the token before it ended. -/
theorem itemRound_of_lastStop (hsilent : (itemRound r).2.Silent) (hrest : r.rest = t :: ts)
    (stop : Nat) : itemRound { r with lastStop := stop } = itemRound r := by
  have hat : atItem r.rest := (reads_atItem.result r hsilent).resolve_left (hrest ▸ List.cons_ne_nil _ _)
  have hsettled : Settled r := settled_of_atItem hat
  generalize hr' : ({ r with lastStop := stop } : Reading) = r'
  have hrest' : r'.rest = t :: ts := by rw [← hr', hrest]
  have hsettled' : Settled r' := by rw [← hr']; exact hsettled
  by_cases hk : t.kind = .docComment
  · have hround : docRound r' = docRound r := by
      rw [docRound, run_bind, run_bind, eat_of_kind hsettled hrest hk,
        eat_of_kind hsettled' hrest' hk, ← hr']
    have hdocs : docs r' = docs r := run_bind_congr (advances_docRound.collect_congr hround)
    exact run_bind_congr hdocs
  have hbump : bump r' = bump r := by
    rw [bump_of_settled hsettled hrest, bump_of_settled hsettled' hrest', ← hr']
  have hdocs : docs r = (none, r) := docs_of_none (eat_of_other hsettled hrest hk)
  have hdocs' : docs r' = (none, r') := docs_of_none (eat_of_other hsettled' hrest' hk)
  have hstep := reads_itemStep.result r hsilent
  generalize hx : itemRound r = x at hstep
  obtain ⟨found, s⟩ := x
  cases hstep with
  | stop hs hnil =>
    obtain ⟨-, rfl⟩ := Prod.mk.inj (hdocs.symm.trans hs)
    rw [hrest] at hnil
    cases hnil
  | package hs hcons hkind =>
    obtain ⟨-, rfl⟩ := Prod.mk.inj (hdocs.symm.trans hs)
    obtain ⟨rfl, rfl⟩ := List.cons.inj (hrest.symm.trans hcons)
    have hheader : packageHeader r' = packageHeader r := run_bind_congr hbump
    have hsame : package r' = package r := run_bind_congr hheader
    rw [itemRound_of_package hdocs' hrest' hkind, hsame]
  | @item _ _ _ _ _ item hs hcons hkind hread =>
    obtain ⟨rfl, rfl⟩ := Prod.mk.inj (hdocs.symm.trans hs)
    obtain ⟨rfl, rfl⟩ := List.cons.inj (hrest.symm.trans hcons)
    obtain ⟨behind, hbehind, -⟩ := exists_behindName item none
    have hsame : item.read none r' = item.read none r := by
      rw [hbehind]
      exact run_bind_congr hbump
    rw [itemRound_of_keyword hdocs' hrest' hkind, hsame, hread]
    rfl

/-- Reading items does not depend on what was read before. -/
theorem items_of_near (h : Near r s) (hsilent : (items r).2.Silent) :
    (items s).1 = (items r).1 ∧ (items s).2.reports = s.reports := by
  cases hrest : r.rest with
  | nil =>
    rw [items_of_nil hrest, items_of_nil (h.rest.trans hrest)]
    exact ⟨rfl, rfl⟩
  | cons t ts =>
    have hround := itemRound_of_lastStop (silent_of_items hsilent) hrest s.lastStop
    have hitems : items { r with lastStop := s.lastStop } = items r :=
      advances_itemRound.collect_congr hround
    have habreast : Fork.behind.Abreast { r with lastStop := s.lastStop } s := by
      refine ⟨⟨r.rest, (List.append_nil _).symm, ?_⟩, rfl, h.stop, h.package⟩
      rw [h.rest]
      exact (List.append_nil _).symm
    rw [← hitems] at hsilent ⊢
    obtain ⟨hanswer, -, hreports⟩ := composed_items.along habreast hsilent List.nil_suffix
    exact ⟨hanswer, hreports⟩

/-- The tokens of a header behind its keyword are left with it. -/
theorem left_of_header {header : PackageHeader} (h : HeaderTokens header ts) :
    ∃ t us, ts = t :: us ∧ ∀ u ∈ us, u.kind ≠ .garbage ∧ ¬atItem [u] := by
  have hpath {us : List Token} (h : PathTokens us) :
      ∀ u ∈ us, u.kind ≠ .garbage ∧ ¬atItem [u] := by
    induction h with
    | nil => exact List.forall_mem_nil _
    | cons hs hn _ ih =>
      refine List.forall_mem_cons.mpr ⟨?_, List.forall_mem_cons.mpr ⟨?_, ih⟩⟩
      · rcases hs with hs | hs <;> simp [hs, atItem, TokenKind.startsItem]
      · simp [hn, atItem, TokenKind.startsItem]
  cases h with
  | quoted hk ht hstart =>
    refine ⟨_, _, rfl, List.forall_mem_singleton.mpr ?_⟩
    simp [ht, atItem, TokenKind.startsItem]
  | dotted hk hf hts hstart =>
    refine ⟨_, _, rfl, List.forall_mem_cons.mpr ⟨?_, hpath hts⟩⟩
    simp [hf, atItem, TokenKind.startsItem]

theorem skipUntil_atItem {Q : List Token} (hts : ∀ t ∈ ts, t.kind ≠ .garbage ∧ ¬atItem [t])
    (hQ : Q = [] ∨ atItem Q) (hrest : r.rest = ts ++ Q) :
    ∃ stop, skipUntil atItem r = ((), { r with rest := Q, lastStop := stop }) := by
  induction ts generalizing r with
  | nil =>
    rw [List.nil_append] at hrest
    have hsettled : Settled r :=
      hQ.elim (fun hnil => settled_of_nil (hrest.trans hnil)) fun h => settled_of_atItem (hrest ▸ h)
    refine ⟨r.lastStop, ?_⟩
    rw [skipUntil_of_stop hsettled (hrest ▸ hQ), ← hrest]
  | cons t ts ih =>
    obtain ⟨⟨hreadable, hplain⟩, hts⟩ := List.forall_mem_cons.mp hts
    have hsettled : Settled r := settled_of_cons hrest hreadable
    have hcurrent : (current r).2 = r := by rw [current_of_settled hsettled]
    have hnext : (current r).2.rest = t :: (ts ++ Q) := by rw [hcurrent, hrest, List.cons_append]
    have hother : atItem (t :: (ts ++ Q)) = false := Bool.eq_false_iff.mpr hplain
    have hround := skipRound_of_cons hnext hother
    rw [hcurrent] at hround
    have hgo : (skipRound atItem r).1.2 = true := by rw [hround]
    obtain ⟨stop, hskip⟩ := ih (r := { r with rest := ts ++ Q, lastStop := t.span.stop }) hts rfl
    refine ⟨stop, ?_⟩
    rw [skipUntil, run_bind, (advances_skipRound atItem).collect_of_goOn hgo, hround]
    exact hskip

theorem recoverToItem_of_cons {Q : List Token} (ht : t.kind ≠ .garbage)
    (hts : ∀ u ∈ ts, u.kind ≠ .garbage ∧ ¬atItem [u]) (hQ : Q = [] ∨ atItem Q)
    (hrest : r.rest = t :: (ts ++ Q)) :
    ∃ stop, recoverToItem r = ((), { r with rest := Q, lastStop := stop }) := by
  rw [recoverToItem, run_bind, bump_of_settled (settled_of_cons hrest ht) hrest]
  exact skipUntil_atItem hts hQ rfl

/-- Where no item begins with the next token, the items are behind that token and perhaps the rest
of a header. -/
theorem items_behind {b : Token} {bs : List Token} (hsilent : (items r).2.Silent)
    (hrest : r.rest = b :: bs) (hb : ∀ item : Item, b.kind ≠ item.keyword) :
    ∃ ts r', r.rest = b :: (ts ++ r'.rest) ∧ (∀ u ∈ ts, u.kind ≠ .garbage ∧ ¬atItem [u]) ∧
      (items r').2.Silent ∧ FirstStripped Item.withoutDoc (items r).1 (items r').1 ∧
      r'.stop = r.stop ∧ (r'.package = r.package ∨ r'.package ≠ none) := by
  have hat : atItem r.rest := (items_silent hsilent).resolve_left (hrest ▸ List.cons_ne_nil _ _)
  have hsettled : Settled r := settled_of_atItem hat
  by_cases hk : b.kind = .docComment
  · obtain ⟨read, hread, hstores⟩ := exists_stores_itemRound
    have hadvances := advances_itemRound
    rw [hread] at hadvances
    obtain ⟨hsame, hfirst⟩ := collect_behind_doc hadvances hstores hsettled hrest hk
    rw [← hread] at hsame hfirst
    have hsilent' := hsilent
    rw [items, ← hsame] at hsilent'
    exact ⟨[], { r with rest := bs, lastStop := b.span.stop }, hrest, List.forall_mem_nil _,
      hsilent', hfirst, rfl, .inl rfl⟩
  have hdocs : docs r = (none, r) := docs_of_none (eat_of_other hsettled hrest hk)
  have hstep := reads_itemStep.result r (silent_of_items hsilent)
  generalize hx : itemRound r = x at hstep
  obtain ⟨found, s⟩ := x
  cases hstep with
  | stop hs hnil =>
    obtain ⟨-, rfl⟩ := Prod.mk.inj (hdocs.symm.trans hs)
    rw [hrest] at hnil
    cases hnil
  | package hs hcons hkind =>
    obtain ⟨-, rfl⟩ := Prod.mk.inj (hdocs.symm.trans hs)
    obtain ⟨rfl, rfl⟩ := List.cons.inj (hrest.symm.trans hcons)
    have hitems := items_of_goOn (r := r) (by rw [hx])
    rw [hx, List.nil_append] at hitems
    have hsilent' : (items (package r).2).2.Silent := by
      rw [hitems] at hsilent
      exact hsilent
    have hread := reads_package.result r ((reads_items.run _).silent hsilent')
    obtain ⟨-, header, ts, hpackage, hheader, hsplit⟩ := hread (by rw [hrest, ← hkind]; rfl)
    obtain ⟨t, us, rfl, hleft⟩ := left_of_header hheader
    obtain ⟨rfl, -⟩ := List.cons.inj (hrest.symm.trans hsplit)
    refine ⟨us, _, hsplit, hleft, hsilent', ?_, (reads_package.run r).stop, .inr ?_⟩
    · rw [hitems]
      exact .refl _ _
    · rw [hpackage]
      exact Option.some_ne_none _
  | @item _ _ _ _ _ item hs hcons hkind hread =>
    obtain ⟨-, rfl⟩ := Prod.mk.inj (hdocs.symm.trans hs)
    obtain ⟨rfl, rfl⟩ := List.cons.inj (hrest.symm.trans hcons)
    exact absurd hkind (hb item)

/-- Where the next item does not begin with its keyword at once, recovery costs no item. -/
theorem items_of_recovered (h : Near r s) (hsilent : (items r).2.Silent)
    (hready : ∀ b ∈ r.rest.head?, ∀ item : Item, b.kind ≠ item.keyword) :
    FirstStripped Item.withoutDoc (items r).1 (items (recoverToItem s).2).1 ∧
      (items (recoverToItem s).2).2.diagnostics = s.diagnostics := by
  cases hrest : r.rest with
  | nil =>
    have hrest' : s.rest = [] := h.rest.trans hrest
    have hrecover : recoverToItem s = ((), s) := by
      rw [recoverToItem, run_bind, bump_of_nil hrest']
      exact skipUntil_of_stop (settled_of_nil hrest') (.inl hrest')
    rw [hrecover, items_of_nil hrest, items_of_nil hrest']
    exact ⟨.refl _ _, rfl⟩
  | cons b bs =>
    obtain ⟨ts, r', hsplit, hleft, hsilent', hfirst, hstop, hpackage⟩ :=
      items_behind hsilent hrest (hready b (by rw [hrest]; rfl))
    have hsettled : Settled r := by
      have hat : atItem r.rest := (items_silent hsilent).resolve_left (hrest ▸ List.cons_ne_nil _ _)
      exact settled_of_atItem hat
    have hb : b.kind ≠ .garbage := hsettled b (by rw [hrest]; rfl)
    obtain ⟨stop, hrecover⟩ :=
      recoverToItem_of_cons hb hleft (items_silent hsilent') (h.rest.trans hsplit)
    have hnear : Near r' { s with rest := r'.rest, lastStop := stop } := by
      refine ⟨rfl, h.stop.trans hstop.symm, ?_⟩
      rcases hpackage with hsame | hsome
      · rw [hsame]
        exact h.package
      · exact .inr hsome
    obtain ⟨hitems, hreports⟩ := items_of_near hnear hsilent'
    rw [hrecover, hitems]
    exact ⟨hfirst, diagnostics_of_reports hreports⟩

end Resuming

section Cutting

/-- A keyword and a name at least. -/
theorem two_le_words (item : Item) : 2 ≤ (plain item.words).length := by
  cases item
  all_goals
    simp only [Item.words, plain_append, plain_docWords, List.nil_append, List.length_append]
    simp [plain, List.filter_cons, Word.matters]
  all_goals omega

/-- What is cut of an item. -/
theorem cut_of_item (h : item.read doc r = (some item, s)) (hsilent : s.Silent)
    (hrest : r.rest = t :: ts) (hk : t.kind = item.keyword) :
    ∃ n body, n.kind = .identifier ∧ item.name = ⟨n.text, n.span⟩ ∧
      r.rest = t :: n :: (body ++ s.rest) ∧ (Victim.keyword item).Cut [t] (n :: body) ∧
        (Victim.name item).Cut [t, n] body ∧ s.package = r.package := by
  have hs : (item.read doc r).2.Silent := by rw [h]; exact hsilent
  obtain ⟨n, us, rfl, hn, hname⟩ := (reads_itemHead item doc).result r hs t ts hrest
  obtain ⟨item', hitem', hread⟩ := (reads_read item doc).result r hs
  obtain ⟨-, taken, htook, hsaid⟩ := hread (by rw [hrest, ← hk]; rfl)
  have hcloses := (closes_read item doc).result r hs
  rw [h] at hname hitem' htook hcloses
  obtain rfl := Option.some.inj hitem'
  have hname : item.name = ⟨n.text, n.span⟩ := (hname item rfl).2
  have hspan : n.span = item.name.span := by rw [hname]
  obtain ⟨u, hlast, hu⟩ := hcloses.last htook
  have hlong : 2 ≤ (said taken).length := hsaid ▸ two_le_words item
  have hle : (said taken).length ≤ taken.length := by
    simpa [said, plain] using List.length_filter_le Word.matters (taken.map Token.word)
  obtain ⟨t', n', body, rfl⟩ : ∃ t' n' body, taken = t' :: n' :: body := by
    rcases taken with _ | ⟨t', _ | ⟨n', body⟩⟩
    · exact absurd (hlong.trans hle) (by simp)
    · exact absurd (hlong.trans hle) (by simp)
    · exact ⟨t', n', body, rfl⟩
  have hsplit : t :: n :: us = t' :: n' :: (body ++ s.rest) := hrest.symm.trans htook.rest
  obtain ⟨rfl, hsplit'⟩ := List.cons.inj hsplit
  obtain ⟨rfl, -⟩ := List.cons.inj hsplit'
  have hsolid {body' : List Token} (h : body' <:+ t :: n :: body) := solid_of_last hlast hu h
  have hbehind : n :: body <:+ t :: n :: body := List.suffix_cons t _
  exact ⟨n, body, hn, hname, htook.rest, ⟨rfl, congrArg some hspan, hsaid, hsolid hbehind⟩,
    ⟨rfl, congrArg some hspan, hsaid, hsolid ((List.suffix_cons n body).trans hbehind)⟩,
    htook.package⟩

/-- A keyword with nothing behind it. -/
theorem read_of_keyword_alone (item : Item) (doc : Option String) (hrest : r.rest = t :: ts)
    (ht : t.kind ≠ .garbage) (hsilent : r.Silent)
    (hts : ∀ u ∈ ts.head?, u.kind ≠ .garbage ∧ u.kind ≠ .identifier) :
    ∃ s, Reported .expectedName { r with rest := ts, lastStop := t.span.stop } s ∧
      item.read doc r = (none, (recoverToItem s).2) := by
  obtain ⟨behind, hread, hnone, -⟩ := exists_behindName item doc
  have hsettled : Settled { r with rest := ts, lastStop := t.span.stop } := fun u hu => (hts u hu).1
  obtain ⟨s, hname, hreported⟩ := name_missing hsettled hsilent fun u hu => (hts u hu).2
  refine ⟨s, hreported, ?_⟩
  rw [hread, run_bind, bump_of_settled (settled_of_cons hrest ht) hrest]
  simp only
  rw [run_bind, hname]
  simp only
  rw [hnone]
  rfl

/-- A keyword and a name with nothing behind them. -/
theorem read_of_name_alone {n : Token} (item : Item) (doc : Option String)
    (hrest : r.rest = t :: n :: ts) (ht : t.kind ≠ .garbage) (hn : n.kind = .identifier)
    (hsilent : r.Silent) (hts : ∀ u ∈ ts.head?, u.kind.startsItem ∨ u.kind = .docComment) :
    ∃ s, Reported .expectedToken { r with rest := ts, lastStop := n.span.stop } s ∧
      ((∀ d, item ≠ .struct d) → item.read doc r = (none, (recoverToItem s).2)) ∧
      ∀ d, item = .struct d →
        item.read doc r = (some (.struct ⟨⟨n.text, n.span⟩, doc, []⟩), s) := by
  have hother (kind : TokenKind) (hkind : ¬kind.startsItem ∧ kind ≠ .docComment) :
      ∀ u ∈ ts.head?, u.kind ≠ kind := by
    rintro u hu rfl
    exact (hts u hu).elim hkind.1 hkind.2
  have hsettled : Settled { r with rest := ts, lastStop := n.span.stop } :=
    hother .garbage (by decide)
  have hbump := bump_of_settled (settled_of_cons hrest ht) hrest
  have hname := name_of_identifier (r := { r with rest := n :: ts, lastStop := t.span.stop })
    (settled_of_cons rfl (by rw [hn]; decide)) rfl hn
  cases item with
  | struct d =>
    obtain ⟨s, hexpect, hreported⟩ :=
      expect_missing hsettled hsilent (hother .leftBrace (by decide))
    refine ⟨s, hreported, fun h => absurd rfl (h d), fun _ _ => ?_⟩
    have hmembers : members (type maxDepth) { r with rest := ts, lastStop := n.span.stop } =
        ([], s) := by
      rw [members, run_bind, hexpect]
      rfl
    show structItem doc r = _
    rw [structItem, run_bind, hbump, run_bind, hname]
    simp only
    rw [run_bind, hmembers]
    rfl
  | enum d =>
    obtain ⟨s, hexpect, hreported⟩ :=
      expect_missing hsettled hsilent (hother .colon (by decide))
    refine ⟨s, hreported, fun _ => ?_, nofun⟩
    show enumItem doc r = _
    rw [enumItem, run_bind, hbump, run_bind, hname]
    simp only
    rw [run_bind, hexpect]
    rfl
  | synonym d =>
    obtain ⟨s, hexpect, hreported⟩ :=
      expect_missing hsettled hsilent (hother .equals (by decide))
    refine ⟨s, hreported, fun _ => ?_, nofun⟩
    show synonymItem doc r = _
    rw [synonymItem, run_bind, hbump, run_bind, hname]
    simp only
    rw [run_bind, hexpect]
    rfl

end Cutting

end Parser

end TypeGraph.Schema

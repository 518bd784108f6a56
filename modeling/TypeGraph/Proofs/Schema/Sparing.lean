import TypeGraph.Proofs.Schema.Cutting
import TypeGraph.Proofs.Schema.Restarting
/-!
What a file keeps when a part of it is cut. Where the token behind the cut is one that nobody misses,
there is one error, and every other item and member is read as before.
-/

namespace TypeGraph.Schema

open Reading

/-- The item without one member of a record in it. -/
inductive Item.Loses (m : MemberDef TypeExpr) : Item → Item → Prop
  | struct (d : StructDef) {ms : List (MemberDef TypeExpr)} (h : MembersLose m d.members ms) :
      Item.Loses m (.struct d) (.struct { d with members := ms })
  | synonym (d : SynonymDef) {x : TypeExpr} (h : TypeExpr.Loses m d.target x) :
      Item.Loses m (.synonym d) (.synonym { d with target := x })

/-- What is read of a file without the part that is cut: everything else. Only an item that stood
behind it may have lost its documentation. -/
inductive Spared : Victim → List Item → List Item → Prop
  | member {m : MemberDef TypeExpr} {item item' : Item} (items : List Item)
      (h : item.Loses m item') : Spared (.member m) (item :: items) (item' :: items)
  | keyword (item : Item) {items items' : List Item}
      (h : FirstStripped Item.withoutDoc items items') :
      Spared (.keyword item) (item :: items) items'
  | name {item : Item} (hitem : ∀ d, item ≠ .struct d) {items items' : List Item}
      (h : FirstStripped Item.withoutDoc items items') : Spared (.name item) (item :: items) items'
  | emptied (d : StructDef) (items : List Item) : Spared (.name (.struct d)) (.struct d :: items)
      (.struct { d with members := [] } :: items)
  | later {v : Victim} {items items' : List Item} (item : Item) (h : Spared v items items') :
      Spared v (item :: items) (item :: items')

theorem Spared.append {v : Victim} {items items' : List Item} (h : Spared v items items')
    (more : List Item) : Spared v (items ++ more) (items' ++ more) := by
  induction h with
  | member items h => exact .member (items ++ more) h
  | keyword item h => exact .keyword item (h.append more)
  | name hitem h => exact .name hitem (h.append more)
  | emptied d items => exact .emptied d (items ++ more)
  | later item _ ih => exact .later item ih

theorem Spared.after {v : Victim} {items items' : List Item} (front : List Item)
    (h : Spared v items items') : Spared v (front ++ items) (front ++ items') := by
  induction front with
  | nil => exact h
  | cons item front ih => exact .later item ih

/-- The member is one of a record in the item. -/
def Item.Holds (m : MemberDef TypeExpr) (item : Item) : Prop :=
  ∃ x, item.expression? = some x ∧ x.Holds m

/-- There is such a member, or such an item, to cut. -/
def Victim.In (items : List Item) : Victim → Prop
  | member m => m.embedded = false ∧ ∃ item ∈ items, item.Holds m
  | keyword item | name item => item ∈ items

namespace Parser

variable {α : Type} {r : Reading} {item : Item} {doc : Option String}

section Items

/-- What is left of an item is read, after a report, as `found`, and the others as before. -/
def Salvages (v : Victim) (item : Item) (doc : Option String) (r s : Reading) : Prop :=
  ∃ found s', item.read doc s = (found, s') ∧
    Spared v (item :: (items r).1) (found.toList ++ (items s').1) ∧
      ∃ d, d.kind = v.complaint ∧ (items s').2.diagnostics = s.diagnostics ++ [d]

/-- The item stands first: its documentation is read up to `r₁`, and the keyword `t`, the name `n`
and the rest of it up to `r₂`. -/
structure Stands (item : Item) (r : Reading) (doc : Option String) (r₁ r₂ : Reading) (t n : Token)
    (body : List Token) : Prop where
  docs : Parser.docs r = (doc, r₁)
  read : item.read doc r₁ = (some item, r₂)
  items : Parser.items r = (item :: (Parser.items r₂).1, (Parser.items r₂).2)
  silent : (Parser.items r₂).2.Silent
  keyword : t.kind = item.keyword
  identifier : n.kind = .identifier
  name : item.name = ⟨n.text, n.span⟩
  rest : r₁.rest = t :: n :: (body ++ r₂.rest)
  package : r₂.package = r₁.package
  keyword_cut : (Victim.keyword item).Cut [t] (n :: body)
  name_cut : (Victim.name item).Cut [t, n] body

theorem exists_stands (hsilent : (items r).2.Silent) (hfound : item ∈ (itemRound r).1.1) :
    ∃ doc r₁ r₂ t n body, Stands item r doc r₁ r₂ t n body := by
  have hstep := reads_itemStep.result r (silent_of_items hsilent)
  generalize hround : itemRound r = x at hstep hfound
  obtain ⟨found, s⟩ := x
  cases hstep with
  | stop | package => exact absurd hfound List.not_mem_nil
  | item hdocs hrest hk hread =>
    obtain rfl := List.mem_singleton.mp hfound
    have hitems := items_of_goOn (r := r) (by rw [hround])
    rw [hround] at hitems
    rw [hitems] at hsilent
    have hcut := cut_of_item hread ((reads_items.run s).silent hsilent) hrest hk
    obtain ⟨n, body, hn, hname, hrest, hkeyword, hnamed, hpackage⟩ := hcut
    exact ⟨_, _, _, _, n, body, hdocs, hread, hitems, hsilent, hk, hn, hname, hrest, hpackage,
      hkeyword, hnamed⟩

/-- The victim is the item that stands first. -/
theorem mends_item {v : Victim} {kept rest body : List Token} {r₁ r₂ : Reading} {t n : Token}
    (h : Stands item r doc r₁ r₂ t n body) (hcut : v.Cut (t :: kept) rest)
    (hrest : r₁.rest = t :: kept ++ (rest ++ r₂.rest))
    (hsalvages : ∀ s : Reading, s.rest = t :: kept ++ r₂.rest → s.stop = r₂.stop →
      (s.package = r₂.package ∨ r₂.package ≠ none) → s.Silent → v.Ready r₂.rest →
        Salvages v item doc r₂ s) :
    Mends v (fun _ _ => True) (Spared v) items r := by
  have hrun := (composed_read item doc).runs.run r₁
  rw [h.read] at hrun
  obtain ⟨front, hfront⟩ := (reads_docs.run r).rest
  rw [h.docs] at hfront
  refine ⟨front, t :: kept, rest, r₂.rest, hcut, ?_, ?_, fun s hs hssilent hready => ?_⟩
  · rw [← hfront, hrest]
  · rw [h.items]
    exact (reads_items.run r₂).rest
  obtain ⟨s₁, hdocs, hs₁, hstop, hheader, hreports⟩ :=
    docs_of_abreast h.docs (hrun.silent ((reads_items.run r₂).silent h.silent)) hrest hs
  rw [← h.package] at hheader
  obtain ⟨found, s', hread, hspared, d, hd, htold⟩ := hsalvages s₁ hs₁
    (hstop.trans hrun.stop.symm) hheader (silent_of_reports hreports hssilent) hready
  have hround : itemRound s = ((found.toList, true), s') := by
    rw [itemRound_of_keyword hdocs hs₁ h.keyword, hread]
  have hitems := items_of_goOn (r := s) (by rw [hround])
  rw [hround] at hitems
  constructor
  · rw [h.items, hitems]
    exact hspared
  · trivial
  · refine ⟨d, hd, ?_⟩
    rw [hitems, htold, diagnostics_of_reports hreports]

/-- What an item can be followed by. -/
theorem next_of_items (hsilent : (items r).2.Silent) :
    ∀ u ∈ r.rest.head?, u.kind.startsItem ∨ u.kind = .docComment := by
  intro u hu
  obtain ⟨us, hus⟩ := List.head?_eq_some_iff.mp hu
  have hat : atItem r.rest := (items_silent hsilent).resolve_left (by rw [hus]; nofun)
  rw [hus] at hat
  simpa [atItem] using hat

/-- A recovered reading is as good as the whole one. -/
theorem salvages_of_recovered {v : Victim} {s s' : Reading} (hsilent : (items r).2.Silent)
    (hready : Victim.Ready (.keyword item) r.rest)
    (hread : item.read doc s = (none, (recoverToItem s').2)) (hnear : Near r s')
    (htold : ∃ d, d.kind = v.complaint ∧ s'.diagnostics = s.diagnostics ++ [d])
    (hspared : ∀ items', FirstStripped Item.withoutDoc (items r).1 items' →
      Spared v (item :: (items r).1) items') : Salvages v item doc r s := by
  have hready' : ∀ b ∈ r.rest.head?, ∀ item : Item, b.kind ≠ item.keyword := by
    intro b hb item hk
    have hleave := hready b hb
    rw [hk] at hleave
    cases item <;> cases hleave
  obtain ⟨hfirst, hsame⟩ := items_of_recovered hnear hsilent hready'
  refine ⟨none, _, hread, hspared _ hfirst, ?_⟩
  rw [hsame]
  exact htold

theorem mends_keyword (hsilent : (items r).2.Silent) (hfound : item ∈ (itemRound r).1.1) :
    Mends (.keyword item) (fun _ _ => True) (Spared (.keyword item)) items r := by
  obtain ⟨doc, r₁, r₂, t, n, body, h⟩ := exists_stands hsilent hfound
  refine mends_item h h.keyword_cut h.rest fun s hs hstop hheader hssilent hready => ?_
  have hnext : ∀ u ∈ r₂.rest.head?, u.kind ≠ .garbage ∧ u.kind ≠ .identifier := by
    intro u hu
    rcases next_of_items h.silent u hu with hitem | hdoc
    · constructor <;> rintro hkind <;> rw [hkind] at hitem <;> cases hitem
    · rw [hdoc]
      exact ⟨nofun, nofun⟩
  obtain ⟨s', hreported, hread⟩ :=
    read_of_keyword_alone item doc hs (h.keyword ▸ item.readable_keyword) hssilent hnext
  refine salvages_of_recovered h.silent hready hread ?_ hreported.told fun _ h => .keyword item h
  exact ⟨hreported.rest, hreported.stop.trans hstop, by rw [hreported.package]; exact hheader⟩

theorem answers_structItem (doc : Option String) :
    Answers (structItem doc) fun found? => ∀ d, found? = some (.struct d) → d.doc = doc := by
  refine .bind fun _ => .bind fun name? => ?_
  cases name? with
  | none => exact .bind fun _ => .pure nofun
  | some name =>
    refine .bind fun ms => .pure fun d hd => ?_
    obtain rfl := Item.struct.inj (Option.some.inj hd)
    rfl

theorem mends_name (hsilent : (items r).2.Silent) (hfound : item ∈ (itemRound r).1.1) :
    Mends (.name item) (fun _ _ => True) (Spared (.name item)) items r := by
  obtain ⟨doc, r₁, r₂, t, n, body, h⟩ := exists_stands hsilent hfound
  refine mends_item h h.name_cut h.rest fun s hs hstop hheader hssilent hready => ?_
  obtain ⟨s', hreported, hrecovered, hemptied⟩ := read_of_name_alone item doc hs
    (h.keyword ▸ item.readable_keyword) h.identifier hssilent (next_of_items h.silent)
  have hnear : Near r₂ s' :=
    ⟨hreported.rest, hreported.stop.trans hstop, by rw [hreported.package]; exact hheader⟩
  cases item with
  | struct d =>
    obtain ⟨hsame, hreports⟩ := items_of_near hnear h.silent
    have hdoc : d.doc = doc := answers_structItem doc r₁ d (congrArg Prod.fst h.read)
    refine ⟨_, s', hemptied d rfl, ?_, ?_⟩
    · rw [hsame, ← h.name, ← hdoc]
      exact .emptied d _
    · rw [diagnostics_of_reports hreports]
      exact hreported.told
  | enum d =>
    have hother (d' : StructDef) : Item.enum d ≠ .struct d' := nofun
    exact salvages_of_recovered h.silent hready (hrecovered hother) hnear hreported.told
      fun _ h => .name hother h
  | synonym d =>
    have hother (d' : StructDef) : Item.synonym d ≠ .struct d' := nofun
    exact salvages_of_recovered h.silent hready (hrecovered hother) hnear hreported.told
      fun _ h => .name hother h

end Items

section Members

variable {k : MemberDef TypeExpr} {v : Victim}

/-- An item that holds the member. -/
abbrev MendsItem (k : MemberDef TypeExpr) (m : Parser (Option Item)) : Prop :=
  Mending (.member k) (fun item? => ∃ item ∈ item?, item.Holds k)
    (fun a b => Spared (.member k) a.toList b.toList) m

theorem mends_structItem (hk : k.embedded = false) (doc : Option String) :
    MendsItem k (structItem doc) := by
  refine .later .bump fun _ => .give composed_name reads_name (runs_recover none) fun name => ?_
  refine (mends_members hk maxDepth (mends_type hk maxDepth)).first (fun _ => .pure _) (.pure ?_) ?_
  · exact fun ms ns h => .member [] (.struct ⟨name, doc, ms⟩ h)
  · rintro ms r ⟨item, hitem, x, hx, hholds⟩
    obtain rfl := Option.some.inj hitem
    obtain rfl := Option.some.inj hx
    exact holds_record.mp hholds

theorem mends_enumItem (doc : Option String) : MendsItem k (enumItem doc) := by
  refine .absent (composed_enumItem doc).runs fun r => ?_
  rintro ⟨item, hitem, x, hx, -⟩
  have hkeyword : item.keyword = .enumKeyword :=
    answers_read (.enum ⟨default, none, default, []⟩) doc r item hitem
  cases item with
  | enum d => cases hx
  | struct d | synonym d => cases hkeyword

theorem mends_synonymItem (hk : k.embedded = false) (doc : Option String) :
    MendsItem k (synonymItem doc) := by
  refine .later .bump fun _ => .give composed_name reads_name (runs_recover none) fun name => ?_
  refine .give (composed_expect _) (reads_expect _) (runs_recover none) fun equals => ?_
  refine (mends_type hk maxDepth).first (fun _ => .pure _) (.pure ?_) ?_
  · exact fun x y h => .member [] (.synonym ⟨name, doc, x⟩ h)
  · rintro x r ⟨item, hitem, y, hy, hholds⟩
    obtain rfl := Option.some.inj hitem
    obtain rfl := Option.some.inj hy
    exact hholds

theorem mends_itemRound (hk : k.embedded = false) :
    Mending (.member k) (fun x => ∃ item ∈ x.1, item.Holds k)
      (fun x y => y.2 = x.2 ∧ Spared (.member k) x.1 y.1) itemRound := by
  have hnothing (goOn : Bool) {m : Parser Unit} (hm : Runs m) :
      Mending (.member k) (fun x => ∃ item ∈ x.1, item.Holds k)
        (fun x y => y.2 = x.2 ∧ Spared (.member k) x.1 y.1) (do
          m
          return ([], goOn)) := by
    refine .absent (hm.bind fun _ => runs_pure _) (.bind fun _ => .pure ?_)
    rintro ⟨item, hitem, -⟩
    exact absurd hitem List.not_mem_nil
  have hitem {m : Parser (Option Item)} (hm : MendsItem k m) :
      Mending (.member k) (fun x => ∃ item ∈ x.1, item.Holds k)
        (fun x y => y.2 = x.2 ∧ Spared (.member k) x.1 y.1) (found m) := by
    refine hm.first (fun _ => .pure _) (.pure fun _ _ h => ⟨rfl, h⟩) ?_
    rintro item? r ⟨item, hitem, hholds⟩
    exact ⟨item, Option.mem_toList.mp hitem, hholds⟩
  refine .later composed_docs fun doc => .later composed_currentKind fun kind? => ?_
  split
  · exact hnothing false (runs_pure ())
  · exact hnothing true composed_package.runs
  · exact hitem (mends_structItem hk doc)
  · exact hitem (mends_enumItem doc)
  · exact hitem (mends_synonymItem hk doc)
  · apply Mending.complains
    exact (complains_fail _ rfl).bind fun _ => runs_recover _

theorem Mends.forget {L : α → α → Prop} {m : Parser α} {R : Reading → Reading → Prop}
    (h : Mends v R L m r) : Mends v (fun _ _ => True) L m r := by
  obtain ⟨front, kept, body, back, hcut, hrest, hback, hmended⟩ := h
  refine ⟨front, kept, body, back, hcut, hrest, hback, fun s hs hs' hready => ?_⟩
  obtain ⟨hlost, -, htold⟩ := hmended s hs hs' hready
  exact ⟨hlost, trivial, htold⟩

/-- Whatever is cut of a file, the rest is spared. -/
theorem mends_items (hsilent : (items r).2.Silent) (hv : v.In (items r).1) :
    Mends v (fun _ _ => True) (Spared v) items r := by
  have hafter (front xs ys : List Item) (h : Spared v xs ys) :
      Spared v (front ++ xs) (front ++ ys) := h.after front
  cases v with
  | member k =>
    refine .collect composed_itemRound advances_itemRound ?_ hafter hsilent hv.2
    intro r hsilent hround
    have hmends := (mends_itemRound hv.1).mends r (silent_of_items hsilent) hround
    have hfirst := hmends.first_round composed_itemRound advances_itemRound
      (fun _ _ more h => h.append more) hsilent
    exact hfirst.forget
  | keyword item =>
    refine .collect (O := (· = item)) composed_itemRound advances_itemRound ?_ hafter hsilent
      ⟨item, hv, rfl⟩
    rintro r hsilent ⟨_, hround, rfl⟩
    exact mends_keyword hsilent hround
  | name item =>
    refine .collect (O := (· = item)) composed_itemRound advances_itemRound ?_ hafter hsilent
      ⟨item, hv, rfl⟩
    rintro r hsilent ⟨_, hround, rfl⟩
    exact mends_name hsilent hround

end Members

end Parser

section Place

variable {v : Victim} {kept kept' body body' front front' back back' : List Token}

/-- No two tokens stand at the same place. -/
theorem spans_nodup (text : String) : ((tokens text).map (·.span)).Nodup := by
  refine List.pairwise_map.mpr ((tokens_ordered text).imp_of_mem fun {t u} ht hu hle heq => ?_)
  have hfilled := (cutFrom_tokens text u hu).marks.filled
  rw [heq] at hle
  omega

theorem Victim.Cut.name_at (h : v.Cut kept body) (front back : List Token) :
    ((front ++ (kept ++ (body ++ back))).map (·.span))[front.length + v.lead]? =
      some v.nameSpan := by
  obtain ⟨t, ht, hspan⟩ := Option.map_eq_some_iff.mp h.name
  have hlt : v.lead < (kept ++ body).length := (List.getElem?_eq_some_iff.mp ht).1
  rw [List.getElem?_map, List.getElem?_append_right (Nat.le_add_right _ _), Nat.add_sub_cancel_left,
    ← List.append_assoc, List.getElem?_append_left hlt, ht, ← hspan]
  rfl

/-- Two parts of a text that say the same end at the same place. -/
theorem eq_of_solid (h : body ++ back = body' ++ back') (hsaid : said body = said body')
    (hsolid : ∀ t ∈ body.getLast?, t.word.matters)
    (hsolid' : ∀ t ∈ body'.getLast?, t.word.matters) : body = body' := by
  have hnil {front more : List Token} (hsaid : said front = said (front ++ more))
      (hsolid : ∀ t ∈ (front ++ more).getLast?, t.word.matters) : more = [] := by
    rcases List.eq_nil_or_concat' more with rfl | ⟨init, t, rfl⟩
    · rfl
    have ht : t.word.matters := hsolid t (by rw [← List.append_assoc, List.getLast?_concat]; rfl)
    rw [said_append, List.self_eq_append_right, said_append] at hsaid
    have hnone := (List.append_eq_nil_iff.mp hsaid).2
    simp [said, plain, ht] at hnone
  rcases List.append_eq_append_iff.mp h with ⟨more, rfl, -⟩ | ⟨more, rfl, -⟩
  · rw [hnil hsaid hsolid', List.append_nil]
  · rw [hnil hsaid.symm hsolid, List.append_nil]

/-- There is one place to cut. -/
theorem Victim.Cut.unique (text : String) (h : v.Cut kept body) (h' : v.Cut kept' body')
    (hts : tokens text = front ++ (kept ++ (body ++ back)))
    (hts' : tokens text = front' ++ (kept' ++ (body' ++ back'))) :
    front = front' ∧ kept = kept' ∧ body = body' ∧ back = back' := by
  have hspans := spans_nodup text
  have hname := h.name_at front back
  have hname' := h'.name_at front' back'
  rw [← hts] at hname
  rw [← hts'] at hname'
  have hlt := (List.getElem?_eq_some_iff.mp hname).1
  have hindex := (List.getElem?_inj hlt hspans).mp (hname.trans hname'.symm)
  obtain ⟨rfl, hbehind⟩ := List.append_inj (hts.symm.trans hts') (by omega)
  obtain ⟨rfl, hsame⟩ := List.append_inj hbehind (h.length.trans h'.length.symm)
  have hsaid : said body = said body' := by
    have hboth := h.said_eq.trans h'.said_eq.symm
    rw [said_append, said_append] at hboth
    exact List.append_cancel_left hboth
  obtain rfl := eq_of_solid hsame hsaid h.solid h'.solid
  exact ⟨rfl, rfl, rfl, List.append_cancel_left hsame⟩

end Place

section Files

variable {source : SourceId} {text : String} {file : File} {v : Victim}

theorem mends_of_clean (hclean : parse source text = (file, [])) (hv : v.In file.items) :
    Parser.Mends v (fun _ _ => True) (Spared v) Parser.items (.start source text) := by
  have hsilent : (Parser.items (.start source text)).2.Silent := by
    apply silent_of_no_error
    rw [hclean]
    exact List.forall_mem_nil _
  have hitems : (Parser.items (.start source text)).1 = file.items := congrArg (·.1.items) hclean
  exact Parser.mends_items hsilent (hitems ▸ hv)

/-- All that a file holds can be cut. -/
theorem exists_cut (hclean : parse source text = (file, [])) (hv : v.In file.items) :
    ∃ front kept body back, tokens text = front ++ (kept ++ (body ++ back)) ∧ v.Cut kept body := by
  obtain ⟨front, kept, body, back, hcut, hrest, -⟩ := mends_of_clean hclean hv
  exact ⟨front, kept, body, back, hrest, hcut⟩

/-- What is cut of a file that is read without a report costs itself, and one error at the cut. -/
theorem cut_costs_itself (hclean : parse source text = (file, [])) (hv : v.In file.items)
    {front kept body back : List Token} (htext : tokens text = front ++ (kept ++ (body ++ back)))
    (hcut : v.Cut kept body) (hready : v.Ready back) :
    Spared v file.items (parseTokens source text.utf8ByteSize (front ++ (kept ++ back))).1.items ∧
      ∃ d, d.kind = v.complaint ∧
        (parseTokens source text.utf8ByteSize (front ++ (kept ++ back))).2 = [d] := by
  have hitems : (Parser.items (.start source text)).1 = file.items := congrArg (·.1.items) hclean
  obtain ⟨front', kept', body', back', hcut', hrest, -, hmended⟩ := mends_of_clean hclean hv
  obtain ⟨rfl, rfl, rfl, rfl⟩ := hcut.unique text hcut' htext hrest
  let s : Reading := { source, stop := text.utf8ByteSize, rest := front ++ (kept ++ back) }
  have habreast : (hcut.fork back).Abreast (.start source text) s :=
    ⟨⟨front, hrest, rfl⟩, rfl, rfl, .inl rfl⟩
  obtain ⟨hspared, -, d, hd, htold⟩ := hmended s habreast rfl hready
  rw [hitems] at hspared
  exact ⟨hspared, d, hd, htold⟩

end Files

/-- The members of a struct. -/
def Item.members : Item → List (MemberDef TypeExpr)
  | .struct d => d.members
  | _ => []

theorem in_of_mem_members {m : MemberDef TypeExpr} {items : List Item} (hm : m.embedded = false)
    (h : m ∈ items.flatMap Item.members) : (Victim.member m).In items := by
  obtain ⟨item, hitem, hmember⟩ := List.mem_flatMap.mp h
  refine ⟨hm, item, hitem, ?_⟩
  cases item with
  | struct d => exact ⟨_, rfl, holds_record.mpr ⟨m, hmember, .inl rfl⟩⟩
  | enum d | synonym d => exact absurd hmember List.not_mem_nil

/-- Two members with a comma between them. -/
def separatedText : String := "struct A \x7b X: int @skip, Y: int \x7d alias B = A"

theorem separated_member_costs_itself :
    ∃ m ∈ (parse 0 separatedText).1.items.flatMap Item.members, m.name.text = "X" ∧
      (Victim.member m).Cut (((tokens separatedText).drop 3).take 1)
        (((tokens separatedText).drop 4).take 4) ∧
      (Victim.member m).Ready ((tokens separatedText).drop 8) ∧
      Spared (.member m) (parse 0 separatedText).1.items
        (parseTokens 0 separatedText.utf8ByteSize ((tokens separatedText).take 3 ++
          (((tokens separatedText).drop 3).take 1 ++ (tokens separatedText).drop 8))).1.items ∧
      ∃ d, d.kind = .expectedToken ∧
        (parseTokens 0 separatedText.utf8ByteSize ((tokens separatedText).take 3 ++
          (((tokens separatedText).drop 3).take 1 ++ (tokens separatedText).drop 8))).2 = [d] := by
  have hfound : ((parse 0 separatedText).1.items.flatMap Item.members).any fun m =>
      decide (m.name.text = "X" ∧ m.embedded = false ∧
        (Victim.member m).Cut (((tokens separatedText).drop 3).take 1)
          (((tokens separatedText).drop 4).take 4) ∧
        (Victim.member m).Ready ((tokens separatedText).drop 8)) := by decide +kernel
  obtain ⟨m, hm, hdecide⟩ := List.any_eq_true.mp hfound
  obtain ⟨hname, hembedded, hcut, hready⟩ := of_decide_eq_true hdecide
  have hclean : parse 0 separatedText = ((parse 0 separatedText).1, []) :=
    Prod.ext rfl (by decide +kernel)
  have htext : tokens separatedText = (tokens separatedText).take 3 ++
      (((tokens separatedText).drop 3).take 1 ++ (((tokens separatedText).drop 4).take 4 ++
        (tokens separatedText).drop 8)) := by decide +kernel
  have hin : (Victim.member m).In (parse 0 separatedText).1.items := in_of_mem_members hembedded hm
  exact ⟨m, hm, hname, hcut, hready, cut_costs_itself hclean hin htext hcut hready⟩

theorem MembersLose.length_le {m : MemberDef TypeExpr} {ms ns : List (MemberDef TypeExpr)}
    (h : MembersLose m ms ns) : ms.length ≤ ns.length + 1 := by
  match h with
  | .here h =>
    have hlength := congrArg List.length h.1
    rw [List.length_map, List.length_map] at hlength
    rw [List.length_cons, hlength]
  | .inside ms _ => exact Nat.le_succ _
  | .later k h => exact Nat.succ_le_succ h.length_le

/-- No more than the member is lost. -/
theorem Spared.members_le {m : MemberDef TypeExpr} {items items' : List Item}
    (h : Spared (.member m) items items') :
    (items.flatMap Item.members).length ≤ (items'.flatMap Item.members).length + 1 := by
  generalize hv : Victim.member m = v at h
  induction h with
  | member items h =>
    obtain rfl := Victim.member.inj hv
    rw [List.flatMap_cons, List.flatMap_cons, List.length_append, List.length_append]
    cases h with
    | struct d h =>
      have hle := h.length_le
      show d.members.length + _ ≤ _
      simp only [Item.members]
      omega
    | synonym d h => exact Nat.le_succ _
  | keyword | name | emptied => cases hv
  | later item _ ih =>
    rw [List.flatMap_cons, List.flatMap_cons, List.length_append, List.length_append]
    have hle := ih hv
    omega

/-- Two members with nothing between them. -/
def crowdedText : String := "struct A \x7b X: int Y: int \x7d"

/-- The token behind the cut is left with the error, whatever it is: with the name of the next member
that member is lost, and with the closing brace the block is not closed. -/
theorem next_token_is_left :
    (parse 0 crowdedText).2 = [] ∧
    (∃ m ∈ (parse 0 crowdedText).1.items.flatMap Item.members, m.embedded = false ∧
      (Victim.member m).Cut (((tokens crowdedText).drop 3).take 1)
        (((tokens crowdedText).drop 4).take 2) ∧
      ¬Spared (.member m) (parse 0 crowdedText).1.items
        (parseTokens 0 crowdedText.utf8ByteSize ((tokens crowdedText).take 3 ++
          (((tokens crowdedText).drop 3).take 1 ++ (tokens crowdedText).drop 6))).1.items) ∧
    ∃ m ∈ (parse 0 crowdedText).1.items.flatMap Item.members, m.embedded = false ∧
      (Victim.member m).Cut (((tokens crowdedText).drop 6).take 1)
        (((tokens crowdedText).drop 7).take 2) ∧
      ∃ d ∈ (parseTokens 0 crowdedText.utf8ByteSize ((tokens crowdedText).take 6 ++
          (((tokens crowdedText).drop 6).take 1 ++ (tokens crowdedText).drop 9))).2,
        d.kind = .unclosedBlock := by
  have hfirst : ((parse 0 crowdedText).1.items.flatMap Item.members).any fun m =>
      decide (m.embedded = false ∧ (Victim.member m).Cut (((tokens crowdedText).drop 3).take 1)
        (((tokens crowdedText).drop 4).take 2)) := by decide +kernel
  have hsecond : ((parse 0 crowdedText).1.items.flatMap Item.members).any fun m =>
      decide (m.embedded = false ∧ (Victim.member m).Cut (((tokens crowdedText).drop 6).take 1)
        (((tokens crowdedText).drop 7).take 2)) := by decide +kernel
  obtain ⟨m, hm, hcut⟩ := List.any_eq_true.mp hfirst
  obtain ⟨n, hn, hcut'⟩ := List.any_eq_true.mp hsecond
  refine ⟨by decide +kernel, ⟨m, hm, (of_decide_eq_true hcut).1, (of_decide_eq_true hcut).2, ?_⟩,
    n, hn, (of_decide_eq_true hcut').1, (of_decide_eq_true hcut').2, by decide +kernel⟩
  exact fun h => absurd h.members_le (by decide +kernel)

end TypeGraph.Schema

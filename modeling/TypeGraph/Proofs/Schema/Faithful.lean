import TypeGraph.Proofs.Schema.Filling
import TypeGraph.Schema.Schema
/-!
A valid schema says in its types what is written in its sources: every definition has the type that
it describes, members mean their expressions, and names and roots stand in the order of the
definitions.
-/

namespace TypeGraph.Schema

variable {files : List File} {l : Loading}

/-- After the first pass the second one can begin. -/
theorem resolving_of_seeded (h : Seeded (definitions files) l) : Resolving files l :=
  ⟨h.definitions, fun _ he _ ht => h.key? he ht, fun _ he => h.transparent he,
    by simp [h.resolved]⟩

/-- Loading a well-formed schema without holes fills in the type of every definition. -/
theorem fills_load (hwf : WellFormed files) (hwhole : ∀ d ∈ definitions files, d.item.Whole)
    (diagnostics : List Diagnostic) : ∃ l, Seeded (definitions files) l ∧
      Fills files l l.entries (load files diagnostics) := by
  have hseeded := Loader.seeded_firstPass files (Seeded.start diagnostics) hwf.distinct
  rw [List.nil_append] at hseeded
  refine ⟨_, hseeded, ?_⟩
  rw [load_eq]
  generalize (Loader.firstPass files { diagnostics }).2 = l at hseeded ⊢
  have hmem {x : Entry × Nat} (hx : x ∈ l.entries.zipIdx) : x.1 ∈ l.entries :=
    List.fst_mem_of_mem_zipIdx hx
  have hentries : l.entries.zipIdx.map (·.1) = l.entries := List.zipIdx_map_fst 0 l.entries
  have hids := hseeded.nodup_ids hwf.distinct
  have hfills := Loader.fills_forM hwf hwhole (resolving_of_seeded hseeded)
    (fun x hx => (getElem?_definitions hseeded.definitions).mpr
      ⟨x.1, List.mem_zipIdx_iff_getElem?.mp hx, rfl⟩)
    (fun x hx => hseeded.transparent (hmem hx)) (fun x hx id ht => hseeded.get? (hmem hx) ht)
    (by rwa [hentries])
  rw [hentries] at hfills
  exact hfills

/-- What loading makes of the types and the roots. -/
structure Faithful (files : List File) (types : TypeSet) (roots : List Root) : Prop where
  keys : types.keys = ((definitions files).filter (·.isType)).map (·.key)
  nodup : types.keys.Nodup
  portrayed : ∀ d ∈ definitions files, d.isType → ∃ id desc, types.key? id = some d.key ∧
    types.get? id = some desc ∧ Portrays files types d desc
  roots : roots.map (fun root => (types.key? root.ty, root.kind)) =
    (definitions files).filterMap fun d => d.rootKind?.map (some d.key, ·)

theorem faithful_load (hwf : WellFormed files) (hwhole : ∀ d ∈ definitions files, d.item.Whole)
    (diagnostics : List Diagnostic) :
    Faithful files (load files diagnostics).types (load files diagnostics).roots := by
  obtain ⟨l, hseeded, hfills⟩ := fills_load hwf hwhole diagnostics
  have hkeys := hfills.keys.trans hseeded.keys
  have hkey {e : Entry} {id : TypeId} (he : e ∈ l.entries) (ht : e.type? = some id) :
      (load files diagnostics).types.key? id = some e.definition.key :=
    hfills.retains.key? (hseeded.key? he ht)
  refine ⟨hkeys, ?_, ?_, ?_⟩
  · rw [hkeys]
    exact hwf.distinct.sublist (List.filter_sublist.map _)
  · intro d hd htype
    rw [← hseeded.definitions] at hd
    obtain ⟨e, he, rfl⟩ := List.mem_map.mp hd
    cases ht : e.type? with
    | none =>
      have hnone := Definition.shape?_eq_none.mpr ((hseeded.transparent he).mp ht)
      simp [Definition.isType, hnone] at htype
    | some id =>
      obtain ⟨desc, hget, hp⟩ := hfills.filled e he id ht
      exact ⟨id, desc, hkey he ht, hget, hp⟩
  · rw [hfills.roots, hseeded.roots, List.nil_append, ← hseeded.definitions, List.map_filterMap,
      List.filterMap_map]
    apply List.filterMap_congr
    intro e he
    cases ht : e.type? with
    | none =>
      obtain ⟨s, hs, -⟩ := (hseeded.transparent he).mp ht
      simp [Entry.root?, ht, Definition.rootKind?, hs]
    | some id =>
      simp only [Entry.root?, ht, Option.bind_some, Option.map_map, Function.comp_apply]
      congr 1
      funext kind
      simp [hkey he ht]

/-- Members that were resolved correspond to their definitions: each type has one form, which is the
one form that is written. -/
theorem MeantMembers.mirrors (hwf : WellFormed files) {package : String} {t : TypeSet}
    {ds : List (MemberDef TypeExpr)} {ms : List Member} (h : MeantMembers files package ds t ms)
    (hfine : ∀ d ∈ ds, Fine (definitions files) package d.type) :
    Mirrors (definitions files) t package ds ms := by
  obtain ⟨hshown, forms, hlen, hforms⟩ := h
  refine ⟨hshown, ?_⟩
  intro i m d hm hd
  have hi : i < forms.length := hlen ▸ (List.getElem?_eq_some_iff.mp hd).1
  obtain ⟨hden, hun⟩ := hforms i m d forms[i] hm hd (List.getElem?_eq_getElem hi)
  refine ⟨forms[i], fun f => ⟨fun h => h.unique hun, ?_⟩, fun f => ⟨fun h => ?_, ?_⟩⟩
  · rintro rfl
    exact hun
  · exact h.unique hwf.expressions (hfine d (List.mem_of_getElem? hd)) hden
  · rintro rfl
    exact hden

theorem clean_of_isValid {sources : List Source} (h : (ofSources sources).isValid) :
    (load (ofSources sources).files
      ((sources.zipIdx.map fun x => parse x.2 x.1.text).flatMap (·.2))).Clean := by
  intro d hd
  by_contra herror
  have hany : (ofSources sources).diagnostics.any (·.isError) :=
    List.any_eq_true.mpr ⟨d, hd, by simpa using herror⟩
  simp [isValid, hany] at h

/-- Every source of a schema without errors is the text of its tree. -/
theorem written_of_isValid {sources : List Source} (h : (ofSources sources).isValid)
    {x : Source × Nat} (hx : x ∈ sources.zipIdx) :
    (∀ item ∈ (parse x.2 x.1.text).1.items, item.Whole) ∧
      Written (parse x.2 x.1.text).1.package (parse x.2 x.1.text).1.items (tokens x.1.text) := by
  apply written_of_no_error
  intro e he
  have hclean := Loader.clean_of_load _ (clean_of_isValid h)
  have hall := hclean e (List.mem_flatMap.mpr ⟨_, List.mem_map_of_mem hx, he⟩)
  simp [hall]

/-- A schema without errors is well-formed, and nothing is missing from its tree. -/
theorem wellFormed_of_isValid {sources : List Source} (h : (ofSources sources).isValid) :
    WellFormed (ofSources sources).files ∧
      ∀ d ∈ definitions (ofSources sources).files, d.item.Whole := by
  have hclean := clean_of_isValid h
  have hstart := Loader.clean_of_load _ hclean
  obtain ⟨⟨hnodup, hbase⟩, hitem⟩ := (Loader.clean_load_iff_of_clean hstart _).mp hclean
  refine ⟨wellFormed_of_itemFine hnodup hbase hitem, ?_⟩
  intro d hd
  obtain ⟨file, hfile, hd⟩ := List.mem_flatMap.mp hd
  obtain ⟨item, hitem, rfl⟩ := List.mem_map.mp hd
  obtain ⟨r, hr, rfl⟩ := List.mem_map.mp hfile
  obtain ⟨x, hx, rfl⟩ := List.mem_map.mp hr
  exact (written_of_isValid h hx).1 item hitem

theorem exists_type {types : TypeSet} {roots : List Root} {d : Definition}
    (h : Faithful files types roots) (hd : d ∈ definitions files) (ht : d.isType) :
    ∃ id desc, types.lookup d.package d.name = some id ∧ types.get? id = some desc ∧
      Portrays files types d desc := by
  obtain ⟨id, desc, hk, hget, hp⟩ := h.portrayed d hd ht
  exact ⟨id, desc, TypeSet.lookup_of_key? h.nodup hk, hget, hp⟩

/-- What a valid schema loads is what its sources say. A struct has a type with its members one for
one and in order, which mean what is written; an enum has its base kind and its variants in order, a
synonym of a scalar has that scalar. The named types are these definitions in order, and the roots
are in order the structs and the enums with variants. -/
theorem ofSources_faithful (sources : List Source) (h : (ofSources sources).isValid) :
    let s := ofSources sources
    let ds := definitions s.files
    (∀ d ∈ ds, ∀ struct, d.item = .struct struct → ∃ id desc ms,
      s.types.lookup d.package d.name = some id ∧ s.types.get? id = some desc ∧
        desc.shape = .aggregate ms ∧ desc.doc = struct.doc ∧
          Mirrors ds s.types d.package struct.members ms) ∧
    (∀ d ∈ ds, ∀ enum, d.item = .enum enum → ∃ id desc kind,
      s.types.lookup d.package d.name = some id ∧ s.types.get? id = some desc ∧
        Scalar.ofKeyword? enum.base.text = some kind ∧ desc.shape = .scalar kind ∧
          desc.doc = enum.doc ∧ desc.constants = enum.variants.map (·.constant)) ∧
    (∀ d ∈ ds, ∀ synonym kind span, d.item = .synonym synonym →
      synonym.target = .scalar kind span → ∃ id desc,
        s.types.lookup d.package d.name = some id ∧ s.types.get? id = some desc ∧
          desc.shape = .scalar kind ∧ desc.doc = synonym.doc) ∧
    s.types.named.map s.types.key? = (ds.filter (·.isType)).map (some ·.key) ∧
    s.roots.map (fun root => (s.types.key? root.ty, root.kind)) =
      ds.filterMap fun d => d.rootKind?.map (some d.key, ·) := by
  intro s ds
  obtain ⟨hwf, hwhole⟩ := wellFormed_of_isValid h
  have hfaithful : Faithful s.files s.types s.roots := faithful_load hwf hwhole _
  refine ⟨?_, ?_, ?_, ?_, hfaithful.roots⟩
  · intro d hd struct hi
    have htype : d.isType := by simp [Definition.isType, Definition.shape?, hi]
    obtain ⟨id, desc, hl, hget, hp⟩ := exists_type hfaithful hd htype
    have hx : d.item.expression? = some (.record struct.members struct.name.span) := by
      simp [hi, Item.expression?]
    have hfine := (forall_within_record.mp (hwf.expressions d hd _ hx)).2
    cases hp with
    | struct hi' hs hdoc hms =>
      obtain rfl := Item.struct.inj (hi.symm.trans hi')
      exact ⟨id, desc, _, hl, hget, hs, hdoc, hms.mirrors hwf hfine⟩
    | enum hi' | synonym hi' => simp [hi] at hi'
  · intro d hd enum hi
    have htype : d.isType := by simp [Definition.isType, Definition.shape?, hi]
    obtain ⟨id, desc, hl, hget, hp⟩ := exists_type hfaithful hd htype
    cases hp with
    | enum hi' hk hs hdoc hc =>
      obtain rfl := Item.enum.inj (hi.symm.trans hi')
      exact ⟨id, desc, _, hl, hget, hk, hs, hdoc, hc⟩
    | struct hi' | synonym hi' => simp [hi] at hi'
  · intro d hd synonym kind span hi ht
    have hshape : d.shape? = some (.scalar kind) := by simp [Definition.shape?, hi, ht]
    have htype : d.isType := by simp [Definition.isType, hshape]
    obtain ⟨id, desc, hl, hget, hp⟩ := exists_type hfaithful hd htype
    cases hp with
    | synonym hi' hs hdoc =>
      obtain rfl := Item.synonym.inj (hi.symm.trans hi')
      exact ⟨id, desc, hl, hget, Option.some.inj (hs.symm.trans hshape), hdoc⟩
    | struct hi' | enum hi' => simp [hi] at hi'
  · rw [TypeSet.map_key?_named, hfaithful.keys, List.map_map]
    rfl

/-- Two packages that refer to each other, one of them through a synonym. -/
def shopSources : List Source :=
  [⟨.inline, "package shop alias Lines = [struct \x7b item: string, count: Amount \x7d] alias Amount = int
    struct Cart \x7b lines: Lines, owner: *people.Person @optional @rename(\"by\") \x7d"⟩,
   ⟨.inline, "package people enum Mood: string \x7b Low = \"low\" \x7d
    struct Person \x7b carts: \x7bMood: *shop.Cart\x7d \x7d"⟩]

theorem shop_is_faithful :
    let s := ofSources shopSources
    s.isValid ∧
    (∀ d ∈ definitions s.files, ∀ struct, d.item = .struct struct → ∃ id desc ms,
      s.types.lookup d.package d.name = some id ∧ s.types.get? id = some desc ∧
        desc.shape = .aggregate ms ∧ desc.doc = struct.doc ∧
          Mirrors (definitions s.files) s.types d.package struct.members ms) ∧
    s.types.named.map s.types.key? =
      [some ("shop", "Amount"), some ("shop", "Cart"), some ("people", "Mood"),
        some ("people", "Person")] ∧
    s.roots.map (fun root => (s.types.key? root.ty, root.kind)) =
      [(some ("shop", "Cart"), .struct), (some ("people", "Mood"), .enum),
        (some ("people", "Person"), .struct)] := by
  -- One evaluation for all three: each would read the sources anew.
  have hread : (ofSources shopSources).isValid ∧
      ((definitions (ofSources shopSources).files).filter (·.isType)).map (some ·.key) =
        [some ("shop", "Amount"), some ("shop", "Cart"), some ("people", "Mood"),
          some ("people", "Person")] ∧
      ((definitions (ofSources shopSources).files).filterMap fun d =>
        d.rootKind?.map (some d.key, ·)) =
        [(some ("shop", "Cart"), .struct), (some ("people", "Mood"), .enum),
          (some ("people", "Person"), .struct)] := by
    decide +kernel
  obtain ⟨hvalid, htypes, hkinds⟩ := hread
  obtain ⟨hstructs, -, -, hnamed, hroots⟩ := ofSources_faithful shopSources hvalid
  exact ⟨hvalid, hstructs, hnamed.trans htypes, hroots.trans hkinds⟩

end TypeGraph.Schema

import TypeGraph.Proofs.Schema.Denoting
import TypeGraph.Proofs.Schema.Placing
/-!
What the first pass of the loader leaves: behind the plain scalars one description for every
definition that is a type of its own, in the order of the definitions, still without members and
constants.
-/

namespace TypeGraph.Schema

/-- The description that the type of a definition begins with. -/
def Definition.seed? (d : Definition) : Option Description :=
  d.shape?.map fun shape => { name := some d.name, package := d.package, shape }

/-- How the first pass stands after the definitions `ds`. -/
structure Seeded (ds : List Definition) (l : Loading) : Prop where
  definitions : l.entries.map (·.definition) = ds
  types : l.types.descriptions = TypeSet.initial.descriptions ++ ds.filterMap (·.seed?)
  seeds : ∀ e ∈ l.entries, e.type?.map l.types.get? = e.definition.seed?.map some
  roots : l.roots = []
  resolved : l.resolved = []

variable {ds : List Definition} {l : Loading} {d : Definition}

theorem Definition.exists_seed? (h : ¬d.Transparent) : ∃ shape, d.shape? = some shape ∧
    d.seed? = some { name := some d.name, package := d.package, shape } := by
  obtain ⟨shape, hs⟩ := Option.ne_none_iff_exists'.mp (mt Definition.shape?_eq_none.mp h)
  exact ⟨shape, hs, by rw [Definition.seed?, hs, Option.map_some]⟩

theorem Definition.key?_seed? (d : Definition) :
    d.seed?.bind (·.key?) = if d.isType then some d.key else none := by
  unfold Definition.seed? Definition.isType
  cases d.shape? <;> rfl

theorem keys_seeds (ds : List Definition) :
    (ds.filterMap (·.seed?)).filterMap (·.key?) = (ds.filter (·.isType)).map (·.key) := by
  rw [List.filterMap_filterMap]
  simp only [Definition.key?_seed?]
  induction ds with
  | nil => rfl
  | cons d ds ih =>
    rw [List.filterMap_cons, List.filter_cons, ih]
    cases d.isType <;> rfl

namespace Seeded

/-- The named types are those of the definitions, in order. -/
theorem keys (h : Seeded ds l) : l.types.keys = (ds.filter (·.isType)).map (·.key) := by
  have hinitial : TypeSet.initial.descriptions.filterMap (·.key?) = [] := by decide +kernel
  rw [TypeSet.keys, h.types, List.filterMap_append, hinitial, List.nil_append, keys_seeds]

theorem start (diagnostics : List Diagnostic) : Seeded [] { diagnostics } :=
  ⟨rfl, by simp, by simp, rfl, rfl⟩

/-- A name that no definition has is new among the types. -/
theorem lookup_eq_none (h : Seeded ds l) (hd : d.key ∉ ds.map (·.key)) :
    l.types.lookup d.package d.name = none := by
  cases hl : l.types.lookup d.package d.name with
  | none => rfl
  | some id =>
    obtain ⟨e, he, hn, hp⟩ := TypeSet.lookup_eq_some hl
    have hkey : e.key? = some d.key := by simp [Description.key?, hn, hp, Definition.key]
    have hmem : d.key ∈ l.types.keys :=
      List.mem_filterMap.mpr ⟨e, List.mem_of_getElem? he, hkey⟩
    rw [h.keys] at hmem
    obtain ⟨d', hd', hkey'⟩ := List.mem_map.mp hmem
    exact absurd (List.mem_map.mpr ⟨d', (List.mem_filter.mp hd').1, hkey'⟩) hd

theorem transparent (h : Seeded ds l) {e : Entry} (he : e ∈ l.entries) :
    e.type? = none ↔ e.definition.Transparent := by
  have hseed := h.seeds e he
  rw [← Definition.shape?_eq_none]
  cases ht : e.type? <;> cases hs : e.definition.shape? <;>
    simp [ht, hs, Definition.seed?] at hseed ⊢

theorem get? (h : Seeded ds l) {e : Entry} {id : TypeId} (he : e ∈ l.entries)
    (ht : e.type? = some id) : l.types.get? id = e.definition.seed? := by
  have hseed := h.seeds e he
  rw [ht, Option.map_some] at hseed
  obtain ⟨seed, hs, hget⟩ := Option.map_eq_some_iff.mp hseed.symm
  rw [← hget, hs]

theorem key? (h : Seeded ds l) {e : Entry} {id : TypeId} (he : e ∈ l.entries)
    (ht : e.type? = some id) : l.types.key? id = some e.definition.key := by
  have hopaque : ¬e.definition.Transparent := by
    rw [← h.transparent he, ht]
    simp
  obtain ⟨shape, -, hseed⟩ := Definition.exists_seed? hopaque
  simp [TypeSet.key?, h.get? he ht, hseed, Description.key?, Definition.key]

/-- Definitions with names of their own have types of their own. -/
theorem nodup_ids (h : Seeded ds l) (hd : (ds.map (·.key)).Nodup) :
    (l.entries.filterMap (·.type?)).Nodup := by
  rw [← h.definitions, List.map_map] at hd
  refine List.pairwise_filterMap.mpr ((List.pairwise_map.mp hd).imp_of_mem ?_)
  intro a b ha hb hne x hx y hy hxy
  subst hxy
  exact hne (Option.some.inj ((h.key? ha hx).symm.trans (h.key? hb hy)))

end Seeded

namespace Loader

/-- What giving a definition its type does: a description is added for it, if it has one. -/
structure Seeds (l : Loading) (d : Definition) (r : Option TypeId × Loading) : Prop where
  id : r.1 = d.seed?.map fun _ => ⟨l.types.size⟩
  types : r.2.types.descriptions = l.types.descriptions ++ d.seed?.toList
  entries : r.2.entries = l.entries
  roots : r.2.roots = l.roots
  resolved : r.2.resolved = l.resolved

theorem seeds_declareNamed {shape : Shape} (hshape : d.shape? = some shape)
    (hnew : l.types.lookup d.package d.name = none) :
    Seeds l d ((do return some (← withTypes (·.declareNamed d.package d.name shape)) :
      Loader (Option TypeId)) l) := by
  let seed : Description := { name := some d.name, package := d.package, shape }
  have hseed : d.seed? = some seed := by rw [Definition.seed?, hshape, Option.map_some]
  have hr : ((do return some (← withTypes (·.declareNamed d.package d.name shape)) :
      Loader (Option TypeId)) l) =
        (some (l.types.push seed).1, { l with types := (l.types.push seed).2 }) := by
    rw [← declareNamed_new hnew]
    rfl
  rw [hr]
  exact ⟨by rw [hseed]; rfl, by rw [hseed]; rfl, rfl, rfl, rfl⟩

theorem seeds_declaredType (file : File) (item : Item)
    (hnew : l.types.lookup file.packagePath item.name.text = none) :
    Seeds l ⟨file.packagePath, item⟩ (declaredType file item l) := by
  cases item with
  | struct d => exact seeds_declareNamed (d := ⟨file.packagePath, .struct d⟩) rfl hnew
  | enum d =>
    have hget : declaredType file (.enum d) l = (do
        return some (← withTypes (·.declareNamed file.packagePath d.name.text
          (.scalar (enumBase file.source d l).1))) : Loader (Option TypeId))
            (enumBase file.source d l).2 := rfl
    rw [hget, enumBase_eq]
    split
    · exact seeds_declareNamed (d := ⟨file.packagePath, .enum d⟩) rfl hnew
    · obtain ⟨hid, htypes, hentries, hroots, hresolved⟩ := seeds_declareNamed
        (l := (report file.source .invalidEnumBase d.base.span (some d.base.text) [] l).2)
        (d := ⟨file.packagePath, .enum d⟩) rfl hnew
      exact ⟨hid, htypes, hentries, hroots, hresolved⟩
  | synonym s =>
    obtain ⟨name, doc, target⟩ := s
    cases target with
    | scalar kind span =>
      exact seeds_declareNamed (d := ⟨file.packagePath, .synonym ⟨name, doc, .scalar kind span⟩⟩)
        rfl hnew
    | _ => exact ⟨rfl, by simp [Definition.seed?, Definition.shape?]; rfl, rfl, rfl, rfl⟩

theorem seeded_declareItem (file : File) (item : Item) (h : Seeded ds l)
    (hnew : (Definition.mk file.packagePath item).key ∉ ds.map (·.key)) :
    Seeded (ds ++ [⟨file.packagePath, item⟩]) (declareItem file item l).2 := by
  have hkeys : l.entries.map (·.definition.key) = ds.map (·.key) := by
    rw [← h.definitions, List.map_map]
    rfl
  have hfind : (l.entries.find? fun e =>
      e.package = file.packagePath ∧ e.name = item.name.text) = none :=
    find?_eq_none_iff.mpr (hkeys ▸ hnew)
  have hs := seeds_declaredType file item (h.lookup_eq_none hnew)
  rw [declareItem_eq]
  simp only [hfind]
  generalize declaredType file item l = r at hs
  obtain ⟨hid, htypes, hentries, hroots, hresolved⟩ := hs
  refine ⟨?_, ?_, ?_, hroots.trans h.roots, hresolved.trans h.resolved⟩
  · simp only [hentries, List.map_append, h.definitions]
    rfl
  · rw [htypes, h.types, List.filterMap_append, List.append_assoc]
    cases hseed : (Definition.mk file.packagePath item).seed? <;> simp [hseed]
  · intro e he
    simp only [hentries] at he
    -- a description is added at the end, so ids keep theirs
    have hkeep (id : TypeId) (d : Description) (hd : l.types.get? id = some d) :
        r.2.types.get? id = some d := by
      have hlt : id.index < l.types.descriptions.length := (List.getElem?_eq_some_iff.mp hd).1
      rw [TypeSet.get?, htypes, List.getElem?_append_left hlt]
      exact hd
    rcases List.mem_append.mp he with he | he
    · have hold := h.seeds e he
      cases hty : e.type? with
      | none => rw [← hold, hty]; rfl
      | some id =>
        rw [hty, Option.map_some] at hold
        obtain ⟨d, hd, hget⟩ := Option.map_eq_some_iff.mp hold.symm
        rw [hd, Option.map_some, Option.map_some, hkeep id d hget.symm]
    · obtain rfl := List.mem_singleton.mp he
      rw [hid]
      cases hseed : (Definition.mk file.packagePath item).seed? with
      | none => simp [Entry.definition, hseed]
      | some d =>
        simp [Entry.definition, hseed, TypeSet.get?, htypes, TypeSet.size]

theorem seeded_forM_declareItem (file : File) (items : List Item) (h : Seeded ds l)
    (hd : ((ds ++ items.map (Definition.mk file.packagePath)).map (·.key)).Nodup) :
    Seeded (ds ++ items.map (Definition.mk file.packagePath))
      (items.forM (declareItem file) l).2 := by
  induction items generalizing ds l with
  | nil =>
    rw [List.map_nil, List.append_nil]
    exact h
  | cons item items ih =>
    have hnew : (Definition.mk file.packagePath item).key ∉ ds.map (·.key) := by
      rw [List.map_append, List.map_cons, List.nodup_append] at hd
      exact fun hmem => hd.2.2 _ hmem _ List.mem_cons_self rfl
    have hnext := ih (seeded_declareItem file item h hnew)
    rw [List.append_assoc] at hnext
    exact hnext hd

/-- Where names are given once, the first pass leaves a description for every definition that is a
type. -/
theorem seeded_firstPass (files : List File) (h : Seeded ds l)
    (hd : ((ds ++ definitions files).map (·.key)).Nodup) :
    Seeded (ds ++ definitions files) (firstPass files l).2 := by
  induction files generalizing ds l with
  | nil =>
    rw [definitions, List.flatMap_nil, List.append_nil]
    exact h
  | cons file files ih =>
    have hall : ds ++ definitions (file :: files) =
        ds ++ file.items.map (Definition.mk file.packagePath) ++ definitions files := by
      rw [List.append_assoc]
      rfl
    rw [hall] at hd ⊢
    have hfirst : ((ds ++ file.items.map (Definition.mk file.packagePath)).map (·.key)).Nodup := by
      rw [List.map_append] at hd
      exact (List.nodup_append.mp hd).1
    exact ih (seeded_forM_declareItem file file.items h hfirst) hd

end Loader

end TypeGraph.Schema

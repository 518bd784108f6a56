import Mathlib.Data.List.Nodup
import TypeGraph.Proofs.TypeSet.Identity
import TypeGraph.TypeSet.Indexed
/-!
Tables of ids by keys, and those that can be read off the descriptions of a type set: one row for
every type that has a key, in the order of the types.
-/

namespace TypeGraph

namespace Index

variable {κ : Type}

section Lookup

variable [BEq κ] [LawfulBEq κ] {index : Index κ} {key : κ} {id : TypeId}

theorem lookup_eq_none_iff : index.lookup key = none ↔ key ∉ index.keys := by
  rw [List.lookup_eq_none_iff, keys, List.mem_map]
  grind

/-- A new key comes behind the others. -/
theorem put_of_lookup (h : index.lookup key = none) (id : TypeId) :
    index.put key id = index ++ [(key, id)] := by
  induction index with
  | nil => rfl
  | cons entry index ih =>
    obtain ⟨hne, hrest⟩ := List.ne_and_not_mem_of_not_mem_cons (lookup_eq_none_iff.mp h)
    rw [put, if_neg (by simpa using hne.symm), ih (lookup_eq_none_iff.mpr hrest), List.cons_append]

theorem lookup_eq_some_iff (h : index.keys.Nodup) :
    index.lookup key = some id ↔ (key, id) ∈ index := by
  constructor
  · intro hl
    obtain ⟨earlier, later, rfl, -⟩ := List.lookup_eq_some_iff.mp hl
    exact List.mem_append_right _ List.mem_cons_self
  · intro hmem
    obtain ⟨earlier, later, rfl⟩ := List.append_of_mem hmem
    refine List.lookup_eq_some_iff.mpr ⟨earlier, later, rfl, ?_⟩
    intro entry hentry
    rw [keys, List.map_append, List.map_cons, List.nodup_append] at h
    exact bne_iff_ne.mpr (h.2.2 _ (List.mem_map_of_mem hentry) key List.mem_cons_self).symm

/-- A key that is not in the table may be put behind the others. -/
theorem nodup_keys_append (h : index.keys.Nodup) {key? : Option κ}
    (hnew : ∀ key, key? = some key → index.lookup key = none) (id : TypeId) :
    Index.keys (index ++ (key?.map (·, id)).toList) |>.Nodup := by
  cases key? with
  | none => simpa using h
  | some key =>
    have hkey : key ∉ index.keys := lookup_eq_none_iff.mp (hnew key rfl)
    rw [Index.keys, List.map_append, List.nodup_append]
    refine ⟨h, List.nodup_singleton key, ?_⟩
    rintro old hold _ hkey' rfl
    obtain rfl : old = key := by simpa using hkey'
    exact hkey hold

end Lookup

/-- The table of what can be read off types, in the order of the types. -/
def rows (g : TypeId → Option κ) (ids : List TypeId) : Index κ :=
  ids.filterMap fun id => (g id).map (·, id)

theorem rows_append (g : TypeId → Option κ) (front back : List TypeId) :
    rows g (front ++ back) = rows g front ++ rows g back :=
  List.filterMap_append

theorem rows_cons (g : TypeId → Option κ) (id : TypeId) (ids : List TypeId) :
    rows g (id :: ids) = ((g id).map (·, id)).toList ++ rows g ids := by
  cases h : g id <;> simp [rows, h]

/-- The ids of the rows that fit, in order. -/
theorem ids_filter_rows (g : TypeId → Option κ) (ids : List TypeId) (p : κ → Bool) :
    Index.ids ((rows g ids).filter fun entry => p entry.1) = ids.filter fun id => (g id).any p := by
  induction ids with
  | nil => rfl
  | cons id ids ih =>
    rw [rows_cons, List.filter_append, Index.ids, List.map_append, List.filter_cons]
    rw [Index.ids] at ih
    cases hid : g id with
    | none => simpa using ih
    | some key => cases hp : p key <;> simpa [hp] using ih

theorem ids_rows (g : TypeId → Option κ) (ids : List TypeId) :
    Index.ids (rows g ids) = ids.filter fun id => (g id).isSome := by
  have hall := ids_filter_rows g ids fun _ => true
  rw [List.filter_true] at hall
  rw [hall]
  apply List.filter_congr
  intro id _
  cases g id <;> rfl

end Index

/-- The shape of a type without a name. -/
def Description.bareShape? (d : Description) : Option Shape :=
  if d.name.isNone then some d.shape else none

namespace Description

variable {d d' : Description}

theorem bareShape?_eq_some {shape : Shape} :
    d.bareShape? = some shape ↔ d.name = none ∧ d.shape = shape := by
  simp [bareShape?]

theorem key?_eq_some {package name : String} :
    d.key? = some (package, name) ↔ d.name = some name ∧ d.package = package := by
  simp [key?, and_comm]

/-- A type has a name or is known by its shape. -/
theorem isSome_key? (d : Description) : d.key?.isSome = !d.bareShape?.isSome := by
  cases h : d.name <;> simp [key?, bareShape?, h]

theorem bareShape?_of_matures (hm : d.Matures d') (hu : d.key? = none → d' = d) :
    d'.bareShape? = d.bareShape? := by
  by_cases hk : d.key? = none
  · rw [hu hk]
  · rw [key?_eq_none] at hk
    simp [bareShape?, hm.name, hk]

end Description

namespace TypeSet

variable {κ : Type} {t : TypeSet}

/-- The table of what can be read off the descriptions of a set, in their order. -/
def tabulate (t : TypeSet) (f : Description → Option κ) : Index κ :=
  Index.rows (fun id => (t.get? id).bind f) t.ids

variable {f : Description → Option κ} {key : κ} {id : TypeId}

theorem mem_ids : id ∈ t.ids ↔ t.contains id := by
  obtain ⟨i⟩ := id
  simp [ids, contains]

theorem ids_push (t : TypeSet) (d : Description) : (t.push d).2.ids = t.ids ++ [⟨t.size⟩] := by
  simp [ids, push, size, List.range_succ]

theorem ids_modify (t : TypeSet) (id : TypeId) (g : Description → Description) :
    (t.modify id g).ids = t.ids := by
  rw [ids, size_modify, ids]

theorem pairwise_ids (t : TypeSet) : t.ids.Pairwise (·.index < ·.index) := by
  rw [ids, List.pairwise_map]
  exact List.pairwise_lt_range

theorem mem_tabulate : (key, id) ∈ t.tabulate f ↔ ∃ d, t.get? id = some d ∧ f d = some key := by
  simp only [tabulate, Index.rows, List.mem_filterMap, Option.map_eq_some_iff,
    Option.bind_eq_some_iff, Prod.mk.injEq]
  constructor
  · rintro ⟨_, -, _, ⟨d, hd, hf⟩, rfl, rfl⟩
    exact ⟨d, hd, hf⟩
  · rintro ⟨d, hd, hf⟩
    exact ⟨id, mem_ids.mpr (contains_of_get? hd), key, ⟨d, hd, hf⟩, rfl, rfl⟩

/-- The table of a changed set, where what can be read off the types there is the same. -/
theorem rows_congr {t' : TypeSet} (h : ∀ id ∈ t.ids, (t'.get? id).bind f = (t.get? id).bind f) :
    Index.rows (fun id => (t'.get? id).bind f) t.ids = t.tabulate f :=
  List.filterMap_congr fun id hid => congrArg (Option.map (·, id)) (h id hid)

theorem tabulate_push (t : TypeSet) (d : Description) (f : Description → Option κ) :
    (t.push d).2.tabulate f = t.tabulate f ++ ((f d).map (·, ⟨t.size⟩)).toList := by
  have hold : ∀ id ∈ t.ids, ((t.push d).2.get? id).bind f = (t.get? id).bind f := by
    intro id hid
    have hlt := contains_iff.mp (mem_ids.mp hid)
    rw [get?_push, if_neg (by omega)]
  have hnew : ((t.push d).2.get? ⟨t.size⟩).bind f = f d := by simp [get?_push]
  rw [tabulate, ids_push, Index.rows_append, rows_congr hold, Index.rows_cons, hnew]
  simp [Index.rows]

/-- What a change does not touch is tabulated as before. -/
theorem tabulate_modify (t : TypeSet) (i : TypeId) {g : Description → Description}
    (h : ∀ d, f (g d) = f d) : (t.modify i g).tabulate f = t.tabulate f := by
  have hsame : ∀ id ∈ t.ids, ((t.modify i g).get? id).bind f = (t.get? id).bind f := by
    intro id _
    rw [get?_modify]
    split
    · cases t.get? id with
      | none => rfl
      | some d => exact h d
    · rfl
  rw [tabulate, ids_modify, rows_congr hsame]

end TypeSet

end TypeGraph

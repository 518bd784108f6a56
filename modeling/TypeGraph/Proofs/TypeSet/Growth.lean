import Mathlib.Logic.Relation
import TypeGraph.TypeSet
/-!
How a type set grows. An id keeps its name, its package and the form of its shape whatever is added
later. Containers hold only earlier types, so following pointers always ends behind them.
-/

namespace TypeGraph

/-- The ids that a pointer, a sequence or a map holds. -/
def Shape.held : Shape → List TypeId
  | .pointer target => [target]
  | .sequence element => [element]
  | .map key value => [key, value]
  | .aggregate _ | .scalar _ => []

/-- All ids in a shape, those of members included. -/
def Shape.ids : Shape → List TypeId
  | .aggregate members => members.map (·.ty)
  | shape => shape.held

theorem Shape.held_subset_ids (shape : Shape) : shape.held ⊆ shape.ids := by
  cases shape <;> simp [held, ids]

/-- What a description may become while its set grows. -/
structure Description.Matures (d d' : Description) : Prop where
  name : d'.name = d.name
  package : d'.package = d.package
  shape : d'.shape = d.shape ∨ (d.isAggregate ∧ d'.isAggregate)

namespace Description

theorem isAggregate_iff {d : Description} : d.isAggregate ↔ ∃ ms, d.shape = .aggregate ms := by
  unfold isAggregate
  split <;> simp_all

theorem ids_of_mem_members {d : Description} {m : Member} (h : m ∈ d.members) :
    m.ty ∈ d.shape.ids := by
  cases hs : d.shape with
  | aggregate ms =>
    simp only [members, hs] at h
    exact List.mem_map_of_mem h
  | pointer | sequence | map | scalar => simp [members, hs] at h

theorem members_eq_nil {d : Description} (h : d.isAggregate = false) : d.members = [] := by
  unfold isAggregate at h
  unfold members
  split <;> simp_all

namespace Matures

theorem refl (d : Description) : d.Matures d :=
  ⟨rfl, rfl, .inl rfl⟩

theorem isAggregate {d d' : Description} (h : d.Matures d') : d'.isAggregate = d.isAggregate := by
  rcases h.shape with hs | ⟨hd, hd'⟩
  · simp [Description.isAggregate, hs]
  · rw [hd, hd']

theorem trans {a b c : Description} (h : a.Matures b) (k : b.Matures c) : a.Matures c := by
  refine ⟨k.name.trans h.name, k.package.trans h.package, ?_⟩
  rcases k.shape with ks | ⟨kb, kc⟩
  · rcases h.shape with hs | ⟨ha, hb⟩
    · exact .inl (ks.trans hs)
    · exact .inr ⟨ha, by simpa [Description.isAggregate, ks] using hb⟩
  · exact .inr ⟨h.isAggregate ▸ kb, kc⟩

/-- Pointers, sequences, maps and scalars keep their shape. -/
theorem shape_eq {d d' : Description} (h : d.Matures d') (hd : d.isAggregate = false) :
    d'.shape = d.shape := by
  rcases h.shape with hs | ⟨ha, -⟩
  · exact hs
  · simp [hd] at ha

theorem scalar? {d d' : Description} (h : d.Matures d') : d'.scalar? = d.scalar? := by
  rcases h.shape with hs | ⟨hd, hd'⟩
  · simp [Description.scalar?, hs]
  · obtain ⟨ms, hd⟩ := isAggregate_iff.mp hd
    obtain ⟨ms', hd'⟩ := isAggregate_iff.mp hd'
    simp [Description.scalar?, hd, hd']

theorem withMembers (d : Description) (ms : List Member) : d.Matures (d.withMembers ms) := by
  unfold Description.withMembers
  split
  · next h =>
    simp only [Bool.and_eq_true] at h
    exact ⟨rfl, rfl, .inr ⟨h.2, rfl⟩⟩
  · exact refl d

theorem withDoc (d : Description) (doc : String) : d.Matures (d.withDoc doc) := by
  unfold Description.withDoc
  split
  · exact ⟨rfl, rfl, .inl rfl⟩
  · exact refl d

theorem withConstant (d : Description) (k : Constant) : d.Matures (d.withConstant k) := by
  unfold Description.withConstant
  split
  · exact ⟨rfl, rfl, .inl rfl⟩
  · exact refl d

end Matures

end Description

namespace TypeSet

variable {t t' : TypeSet} {id x : TypeId} {d : Description}

theorem contains_iff : t.contains id ↔ id.index < t.size := by
  simp [contains]

theorem get?_isSome : (t.get? id).isSome ↔ t.contains id := by
  simp [get?, contains_iff, size]

theorem contains_of_get? (h : t.get? id = some d) : t.contains id := by
  simp [← get?_isSome, h]

theorem exists_get? (h : t.contains id) : ∃ d, t.get? id = some d :=
  Option.isSome_iff_exists.mp (get?_isSome.mpr h)

theorem shape?_eq_some {shape : Shape} :
    t.shape? id = some shape ↔ ∃ d, t.get? id = some d ∧ d.shape = shape := by
  simp [shape?]

theorem get?_push (t : TypeSet) (d : Description) (id : TypeId) :
    (t.push d).2.get? id = if id.index = t.size then some d else t.get? id := by
  unfold push get? size
  rcases Nat.lt_trichotomy id.index t.descriptions.length with h | h | h
  · rw [List.getElem?_append_left h, if_neg (by omega)]
  · simp [h]
  · rw [if_neg (by omega), List.getElem?_eq_none (by simp; omega), List.getElem?_eq_none (by omega)]

theorem get?_modify (t : TypeSet) (i : TypeId) (f : Description → Description) (id : TypeId) :
    (t.modify i f).get? id = if id = i then (t.get? id).map f else t.get? id := by
  obtain ⟨i⟩ := i
  obtain ⟨j⟩ := id
  by_cases h : j = i
  · simp [modify, get?, h]
  · simp [modify, get?, h, Ne.symm h]

@[simp] theorem size_modify (t : TypeSet) (i : TypeId) (f : Description → Description) :
    (t.modify i f).size = t.size := by
  simp [modify, size]

/-- A shape that is there already keeps its id, any other gets the next one. -/
theorem intern_cases (t : TypeSet) (shape : Shape) :
    (∃ i d, t.get? i = some d ∧ d.shape = shape ∧ t.intern shape = (i, t)) ∨
      t.intern shape = t.push { shape } := by
  unfold intern
  split
  · next i hi =>
    obtain ⟨hlt, hp, -⟩ := List.findIdx?_eq_some_iff_getElem.mp hi
    simp only [Bool.and_eq_true, decide_eq_true_eq] at hp
    exact .inl ⟨⟨i⟩, _, List.getElem?_eq_getElem hlt, hp.2, rfl⟩
  · exact .inr rfl

theorem lookup_eq_some {package name : String} (h : t.lookup package name = some id) :
    ∃ d, t.get? id = some d ∧ d.name = some name ∧ d.package = package := by
  obtain ⟨i, hi, rfl⟩ := Option.map_eq_some_iff.mp h
  obtain ⟨hlt, hp, -⟩ := List.findIdx?_eq_some_iff_getElem.mp hi
  simp only [Bool.and_eq_true, decide_eq_true_eq] at hp
  exact ⟨_, List.getElem?_eq_getElem hlt, hp⟩

theorem declareNamed_cases (t : TypeSet) (package name : String) (shape : Shape) :
    (∃ i d, t.get? i = some d ∧ d.name = some name ∧ d.package = package ∧
        t.declareNamed package name shape = (i, t)) ∨
      (t.lookup package name = none ∧
        t.declareNamed package name shape = t.push { name := some name, package, shape }) := by
  unfold declareNamed
  split
  · next i hi =>
    obtain ⟨d, hd, hn, hp⟩ := lookup_eq_some hi
    exact .inl ⟨i, d, hd, hn, hp, rfl⟩
  · next h => exact .inr ⟨h, rfl⟩

/-- What stays of the descriptions of a set that grew. -/
def Evolves (t t' : TypeSet) : Prop :=
  ∀ id d, t.get? id = some d → ∃ d', t'.get? id = some d' ∧ d.Matures d'

namespace Evolves

theorem refl (t : TypeSet) : t.Evolves t :=
  fun _ d h => ⟨d, h, .refl d⟩

theorem trans {a b c : TypeSet} (h : a.Evolves b) (k : b.Evolves c) : a.Evolves c := by
  intro id d hd
  obtain ⟨d', hd', hm⟩ := h id d hd
  obtain ⟨d'', hd'', hm'⟩ := k id d' hd'
  exact ⟨d'', hd'', hm.trans hm'⟩

theorem contains (h : t.Evolves t') (hc : t.contains id) : t'.contains id := by
  obtain ⟨d, hd⟩ := exists_get? hc
  obtain ⟨d', hd', -⟩ := h id d hd
  exact contains_of_get? hd'

/-- What is no pointer never becomes one. -/
theorem not_pointer (h : t.Evolves t') (hc : t.contains id)
    (hp : ∀ x, t.shape? id ≠ some (.pointer x)) (x : TypeId) :
    t'.shape? id ≠ some (.pointer x) := by
  intro hx
  obtain ⟨d, hd⟩ := exists_get? hc
  obtain ⟨d', hd', hm⟩ := h id d hd
  obtain ⟨e, he, hs⟩ := shape?_eq_some.mp hx
  obtain rfl : d' = e := by simpa [hd'] using he
  rcases hm.shape with hsame | ⟨-, ha⟩
  · exact hp x (shape?_eq_some.mpr ⟨d, hd, hsame ▸ hs⟩)
  · simp [Description.isAggregate, hs] at ha

theorem push (t : TypeSet) (d : Description) : t.Evolves (t.push d).2 := by
  intro id e he
  have hlt := contains_iff.mp (contains_of_get? he)
  exact ⟨e, by rw [get?_push, if_neg (by omega), he], .refl e⟩

theorem modify (t : TypeSet) (i : TypeId) {f : Description → Description}
    (hf : ∀ d : Description, d.Matures (f d)) : t.Evolves (t.modify i f) := by
  intro id d hd
  rw [get?_modify, hd]
  split
  · exact ⟨f d, rfl, hf d⟩
  · exact ⟨d, rfl, .refl d⟩

theorem intern (t : TypeSet) (shape : Shape) : t.Evolves (t.intern shape).2 := by
  rcases t.intern_cases shape with ⟨i, d, -, -, h⟩ | h <;> rw [h]
  · exact refl t
  · exact push t _

theorem declareNamed (t : TypeSet) (package name : String) (shape : Shape) :
    t.Evolves (t.declareNamed package name shape).2 := by
  rcases t.declareNamed_cases package name shape with ⟨i, d, -, -, -, h⟩ | ⟨-, h⟩ <;> rw [h]
  · exact refl t
  · exact push t _

end Evolves

theorem contains_intern (t : TypeSet) (shape : Shape) :
    (t.intern shape).2.contains (t.intern shape).1 := by
  rcases t.intern_cases shape with ⟨i, d, hd, -, h⟩ | h <;> rw [h]
  · exact contains_of_get? hd
  · simp [contains_iff, push, size]

theorem contains_declareNamed (t : TypeSet) (package name : String) (shape : Shape) :
    (t.declareNamed package name shape).2.contains (t.declareNamed package name shape).1 := by
  rcases t.declareNamed_cases package name shape with ⟨i, d, hd, -, -, h⟩ | ⟨-, h⟩ <;> rw [h]
  · exact contains_of_get? hd
  · simp [contains_iff, push, size]

/-- Containers hold only earlier types. -/
def Backward (t : TypeSet) : Prop :=
  ∀ id d, t.get? id = some d → ∀ x ∈ d.shape.held, x.index < id.index

/-- Some description of the set has the id in its shape. -/
def Mentions (t : TypeSet) (x : TypeId) : Prop :=
  ∃ id d, t.get? id = some d ∧ x ∈ d.shape.ids

/-- Every id in a description is an id of the set. -/
def Closed (t : TypeSet) : Prop :=
  ∀ id d, t.get? id = some d → ∀ x ∈ d.shape.ids, t.contains x

namespace Backward

theorem push (h : t.Backward) {d : Description} (hd : ∀ x ∈ d.shape.held, t.contains x) :
    (t.push d).2.Backward := by
  intro id e he x hx
  rw [get?_push] at he
  split at he
  · next hid =>
    obtain rfl := Option.some.inj he
    exact hid ▸ contains_iff.mp (hd x hx)
  · exact h id e he x hx

theorem intern (h : t.Backward) {shape : Shape} (hs : ∀ x ∈ shape.held, t.contains x) :
    (t.intern shape).2.Backward := by
  rcases t.intern_cases shape with ⟨i, d, -, -, hi⟩ | hi <;> rw [hi]
  · exact h
  · exact h.push hs

theorem declareNamed (h : t.Backward) (package name : String) {shape : Shape}
    (hs : shape.held = []) : (t.declareNamed package name shape).2.Backward := by
  rcases t.declareNamed_cases package name shape with ⟨i, d, -, -, -, hi⟩ | ⟨-, hi⟩ <;> rw [hi]
  · exact h
  · exact h.push (by simp [hs])

theorem modify (h : t.Backward) (i : TypeId) {f : Description → Description}
    (hf : ∀ d, (f d).shape.held = d.shape.held) : (t.modify i f).Backward := by
  intro id d hd x hx
  rw [get?_modify] at hd
  split at hd
  · obtain ⟨e, he, rfl⟩ := Option.map_eq_some_iff.mp hd
    exact h id e he x (hf e ▸ hx)
  · exact h id d hd x hx

end Backward

theorem held_withMembers (d : Description) (ms : List Member) :
    (d.withMembers ms).shape.held = d.shape.held := by
  unfold Description.withMembers
  split
  · next h =>
    simp only [Bool.and_eq_true] at h
    obtain ⟨ms', h'⟩ := Description.isAggregate_iff.mp h.2
    simp [h', Shape.held]
  · rfl

@[simp] theorem shape_withDoc (d : Description) (doc : String) :
    (d.withDoc doc).shape = d.shape := by
  unfold Description.withDoc
  split <;> rfl

@[simp] theorem shape_withConstant (d : Description) (k : Constant) :
    (d.withConstant k).shape = d.shape := by
  unfold Description.withConstant
  split <;> rfl

namespace Closed

theorem push (h : t.Closed) {d : Description} (hd : ∀ x ∈ d.shape.ids, t.contains x) :
    (t.push d).2.Closed := by
  intro id e he x hx
  rw [get?_push] at he
  split at he
  · obtain rfl := Option.some.inj he
    exact (Evolves.push t d).contains (hd x hx)
  · exact (Evolves.push t d).contains (h id e he x hx)

theorem modify (h : t.Closed) (i : TypeId) {f : Description → Description}
    (hf : ∀ d x, x ∈ (f d).shape.ids → x ∈ d.shape.ids ∨ t.contains x) :
    (t.modify i f).Closed := by
  have hc : ∀ x, t.contains x → (t.modify i f).contains x := by simp [contains_iff]
  intro id d hd x hx
  rw [get?_modify] at hd
  split at hd
  · obtain ⟨e, he, rfl⟩ := Option.map_eq_some_iff.mp hd
    rcases hf e x hx with hx | hx
    · exact hc x (h id e he x hx)
    · exact hc x hx
  · exact hc x (h id d hd x hx)

theorem setMembers (h : t.Closed) (i : TypeId) {ms : List Member}
    (hm : ∀ m ∈ ms, t.contains m.ty) : (t.setMembers i ms).Closed := by
  apply h.modify i
  intro d x hx
  unfold Description.withMembers at hx
  split at hx
  · obtain ⟨m, hmem, rfl⟩ := List.mem_map.mp hx
    exact .inr (hm m hmem)
  · exact .inl hx

theorem setDoc (h : t.Closed) (i : TypeId) (doc : String) : (t.setDoc i doc).Closed :=
  h.modify i fun d x hx => .inl (by simpa using hx)

theorem addConstant (h : t.Closed) (i : TypeId) (k : Constant) : (t.addConstant i k).Closed :=
  h.modify i fun d x hx => .inl (by simpa using hx)

end Closed

theorem backward_initial : initial.Backward := by
  intro id d hd x hx
  obtain ⟨kind, -, rfl⟩ := List.mem_map.mp (List.mem_of_getElem? hd)
  simp [Shape.held] at hx

theorem closed_initial : initial.Closed := by
  intro id d hd x hx
  obtain ⟨kind, -, rfl⟩ := List.mem_map.mp (List.mem_of_getElem? hd)
  simp [Shape.ids, Shape.held] at hx

theorem strip_of_pointer (h : t.Backward) (hid : t.shape? id = some (.pointer x)) :
    t.strip id = t.strip x := by
  obtain ⟨d, hd, hs⟩ := shape?_eq_some.mp hid
  rw [strip, hid]
  simp [h id d hd x (by simp [hs, Shape.held])]

theorem strip_of_not_pointer (h : ∀ x, t.shape? id ≠ some (.pointer x)) : t.strip id = id := by
  rw [strip]
  split
  · next x hx => exact absurd hx (h x)
  · rfl

theorem strip_of_not_contains (h : ¬t.contains id) : t.strip id = id := by
  apply strip_of_not_pointer
  intro x hx
  obtain ⟨d, hd, -⟩ := shape?_eq_some.mp hx
  exact h (contains_of_get? hd)

/-- What lies behind pointers is no pointer. -/
theorem strip_not_pointer (h : t.Backward) (id x : TypeId) :
    t.shape? (t.strip id) ≠ some (.pointer x) := by
  induction hn : id.index using Nat.strongRecOn generalizing id with
  | ind n ih =>
    by_cases hp : ∃ y, t.shape? id = some (.pointer y)
    · obtain ⟨y, hy⟩ := hp
      obtain ⟨d, hd, hs⟩ := shape?_eq_some.mp hy
      have hlt : y.index < id.index := h id d hd y (by simp [hs, Shape.held])
      rw [strip_of_pointer h hy]
      exact ih y.index (hn ▸ hlt) y rfl
    · have hid : ∀ y, t.shape? id ≠ some (.pointer y) := fun y hy => hp ⟨y, hy⟩
      rw [strip_of_not_pointer hid]
      exact hid x

theorem strip_index_le (t : TypeSet) (id : TypeId) : (t.strip id).index ≤ id.index := by
  induction hn : id.index using Nat.strongRecOn generalizing id with
  | ind n ih =>
    rw [strip]
    split
    · next x hx =>
      split
      · next hlt =>
        have hle := ih x.index (hn ▸ hlt) x rfl
        omega
      · omega
    · omega

theorem contains_strip (hc : t.contains id) : t.contains (t.strip id) := by
  have hle := t.strip_index_le id
  have hlt := contains_iff.mp hc
  exact contains_iff.mpr (by omega)

theorem contains_of_contains_strip (hc : t.contains (t.strip id)) : t.contains id := by
  cases hd : t.get? id with
  | some d => exact contains_of_get? hd
  | none => rwa [strip_of_not_pointer (by simp [shape?, hd])] at hc

/-- Pointers lead to the same type however the set grows. -/
theorem Evolves.strip_eq (h : t.Evolves t') (hb : t.Backward) (hb' : t'.Backward)
    (hc : t.contains id) : t'.strip id = t.strip id := by
  induction hn : id.index using Nat.strongRecOn generalizing id with
  | ind n ih =>
    by_cases hp : ∃ y, t.shape? id = some (.pointer y)
    · obtain ⟨y, hy⟩ := hp
      obtain ⟨d, hd, hs⟩ := shape?_eq_some.mp hy
      obtain ⟨d', hd', hm⟩ := h id d hd
      have hs' : d'.shape = .pointer y := by
        rw [hm.shape_eq (by simp [Description.isAggregate, hs]), hs]
      have hlt : y.index < id.index := hb id d hd y (by simp [hs, Shape.held])
      have hcy : t.contains y := by
        have := contains_iff.mp hc
        exact contains_iff.mpr (by omega)
      rw [strip_of_pointer hb hy, strip_of_pointer hb' (shape?_eq_some.mpr ⟨d', hd', hs'⟩)]
      exact ih y.index (hn ▸ hlt) hcy rfl
    · have hnot : ∀ x, t.shape? id ≠ some (.pointer x) := fun x hx => hp ⟨x, hx⟩
      rw [strip_of_not_pointer hnot, strip_of_not_pointer (h.not_pointer hc hnot)]

/-- Only structs and scalars have names. -/
def PlainlyNamed (t : TypeSet) : Prop :=
  ∀ id d, t.get? id = some d → d.name.isSome → d.shape.held = []

namespace PlainlyNamed

theorem initial : TypeSet.initial.PlainlyNamed := by
  intro id d hd hn
  obtain ⟨kind, -, rfl⟩ := List.mem_map.mp (List.mem_of_getElem? hd)
  rfl

theorem push (h : t.PlainlyNamed) {d : Description} (hn : d.name.isSome → d.shape.held = []) :
    (t.push d).2.PlainlyNamed := by
  intro id e he
  rw [get?_push] at he
  split at he
  · obtain rfl := Option.some.inj he
    exact hn
  · exact h id e he

theorem intern (h : t.PlainlyNamed) (shape : Shape) : (t.intern shape).2.PlainlyNamed := by
  rcases t.intern_cases shape with ⟨i, d, -, -, hi⟩ | hi <;> rw [hi]
  · exact h
  · exact h.push (by simp)

theorem declareNamed (h : t.PlainlyNamed) (package name : String) {shape : Shape}
    (hs : shape.held = []) : (t.declareNamed package name shape).2.PlainlyNamed := by
  rcases t.declareNamed_cases package name shape with ⟨i, d, -, -, -, hi⟩ | ⟨-, hi⟩ <;> rw [hi]
  · exact h
  · exact h.push fun _ => hs

theorem modify (h : t.PlainlyNamed) (i : TypeId) {f : Description → Description}
    (hf : ∀ d : Description, d.Matures (f d)) (hh : ∀ d, (f d).shape.held = d.shape.held) :
    (t.modify i f).PlainlyNamed := by
  intro id d hd hn
  rw [get?_modify] at hd
  split at hd
  · obtain ⟨e, he, rfl⟩ := Option.map_eq_some_iff.mp hd
    rw [(hf e).name] at hn
    rw [hh]
    exact h id e he hn
  · exact h id d hd hn

end PlainlyNamed

/-- A set with ids of its own only, containers of earlier types, and names for structs and scalars
only. -/
structure Proper (t : TypeSet) : Prop where
  backward : t.Backward
  closed : t.Closed
  named : ∀ id d, t.get? id = some d → d.name.isSome → d.shape.held = []

namespace Proper

theorem initial : TypeSet.initial.Proper :=
  ⟨backward_initial, closed_initial, PlainlyNamed.initial⟩

theorem push (h : t.Proper) {d : Description} (hd : ∀ x ∈ d.shape.ids, t.contains x)
    (hn : d.name.isSome → d.shape.held = []) : (t.push d).2.Proper :=
  ⟨h.backward.push fun x hx => hd x (d.shape.held_subset_ids hx), h.closed.push hd,
    PlainlyNamed.push h.named hn⟩

theorem intern (h : t.Proper) {shape : Shape} (hs : ∀ x ∈ shape.ids, t.contains x) :
    (t.intern shape).2.Proper := by
  rcases t.intern_cases shape with ⟨i, d, -, -, hi⟩ | hi <;> rw [hi]
  · exact h
  · exact h.push hs (by simp)

theorem declareNamed (h : t.Proper) (package name : String) {shape : Shape}
    (hs : shape.ids = []) : (t.declareNamed package name shape).2.Proper := by
  rcases t.declareNamed_cases package name shape with ⟨i, d, -, -, -, hi⟩ | ⟨-, hi⟩ <;> rw [hi]
  · exact h
  · refine h.push (by simp [hs]) fun _ => ?_
    exact List.eq_nil_iff_forall_not_mem.mpr fun x hx => by
      simpa [hs] using shape.held_subset_ids hx

theorem modify (h : t.Proper) (i : TypeId) {f : Description → Description}
    (hf : ∀ d : Description, d.Matures (f d)) (hh : ∀ d, (f d).shape.held = d.shape.held)
    (hc : (t.modify i f).Closed) : (t.modify i f).Proper :=
  ⟨h.backward.modify i hh, hc, PlainlyNamed.modify h.named i hf hh⟩

theorem setMembers (h : t.Proper) (i : TypeId) {ms : List Member}
    (hm : ∀ m ∈ ms, t.contains m.ty) : (t.setMembers i ms).Proper :=
  h.modify i (fun d => .withMembers d ms) (fun d => held_withMembers d ms)
    (h.closed.setMembers i hm)

theorem setDoc (h : t.Proper) (i : TypeId) (doc : String) : (t.setDoc i doc).Proper :=
  h.modify i (fun d => .withDoc d doc) (fun d => by rw [shape_withDoc]) (h.closed.setDoc i doc)

theorem addConstant (h : t.Proper) (i : TypeId) (k : Constant) : (t.addConstant i k).Proper :=
  h.modify i (fun d => .withConstant d k) (fun d => by rw [shape_withConstant])
    (h.closed.addConstant i k)

end Proper

end TypeSet

end TypeGraph

import TypeGraph.Proofs.TypeSet.Growth
/-!
Type sets that describe the same types under different ids. A renumbering leads from the ids that
matter in one set to their counterparts in another; following pointers, and naming what a member
holds, commute with it.
-/

namespace TypeGraph

def Member.renumber (f : TypeId → TypeId) (m : Member) : Member :=
  { m with ty := f m.ty }

def Shape.renumber (f : TypeId → TypeId) : Shape → Shape
  | .pointer target => .pointer (f target)
  | .aggregate members => .aggregate (members.map (·.renumber f))
  | .sequence element => .sequence (f element)
  | .map key value => .map (f key) (f value)
  | .scalar kind => .scalar kind

/-- The description with every id in it replaced. -/
def Description.renumber (f : TypeId → TypeId) (d : Description) : Description :=
  { d with shape := d.shape.renumber f }

namespace Description

variable {f : TypeId → TypeId}

@[simp] theorem name_renumber (d : Description) : (d.renumber f).name = d.name :=
  rfl

@[simp] theorem shape_renumber (d : Description) : (d.renumber f).shape = d.shape.renumber f :=
  rfl

@[simp] theorem qualifiedName_renumber (d : Description) :
    (d.renumber f).qualifiedName = d.qualifiedName :=
  rfl

@[simp] theorem isAggregate_renumber (d : Description) :
    (d.renumber f).isAggregate = d.isAggregate := by
  cases hs : d.shape <;> simp [isAggregate, hs, Shape.renumber]

@[simp] theorem members_renumber (d : Description) :
    (d.renumber f).members = d.members.map (·.renumber f) := by
  cases hs : d.shape <;> simp [members, hs, Shape.renumber]

end Description

namespace TypeSet

theorem backward_iff {t : TypeSet} : t.Backward ↔
    ∀ i : Fin t.descriptions.length, ∀ x ∈ t.descriptions[i].shape.held, x.index < i := by
  constructor
  · exact fun h i x hx => h ⟨i⟩ _ (List.getElem?_eq_getElem i.isLt) x hx
  · intro h id d hd x hx
    obtain ⟨hlt, rfl⟩ := List.getElem?_eq_some_iff.mp hd
    exact h ⟨id.index, hlt⟩ x hx

instance (t : TypeSet) : Decidable t.Backward :=
  decidable_of_iff _ backward_iff.symm

theorem closed_iff {t : TypeSet} :
    t.Closed ↔ ∀ d ∈ t.descriptions, ∀ x ∈ d.shape.ids, t.contains x := by
  constructor
  · intro h d hd x hx
    obtain ⟨i, hi⟩ := List.mem_iff_getElem?.mp hd
    exact h ⟨i⟩ d hi x hx
  · exact fun h id d hd x hx => h d (List.mem_of_getElem? hd) x hx

instance (t : TypeSet) : Decidable t.Closed :=
  decidable_of_iff _ closed_iff.symm

/-- What descriptions lead to from some ids, member by member and container by container. -/
inductive Reached (t : TypeSet) (roots : List TypeId) : TypeId → Prop
  | root {x : TypeId} (h : x ∈ roots) : Reached t roots x
  | held {x y : TypeId} {d : Description} (hx : Reached t roots x) (hd : t.get? x = some d)
      (hy : y ∈ d.shape.ids) : Reached t roots y

/-- From ids of a set that mentions only its own ids, only its own ids are reached. -/
theorem Reached.contains {t : TypeSet} {roots : List TypeId} {x : TypeId} (h : t.Reached roots x)
    (hc : t.Closed) (hr : ∀ y ∈ roots, t.contains y) : t.contains x := by
  cases h with
  | root h => exact hr _ h
  | held _ hd hy => exact hc _ _ hd _ hy

/-- The ids of `t` that matter have counterparts in `t'` with the same descriptions, up to the ids
in them. -/
structure Renumbering (f : TypeId → TypeId) (matters : TypeId → Prop) (t t' : TypeSet) : Prop where
  inj : ∀ x y, matters x → matters y → f x = f y → x = y
  get? : ∀ x, matters x → t'.get? (f x) = (t.get? x).map (·.renumber f)
  ids : ∀ x d, matters x → t.get? x = some d → ∀ y ∈ d.shape.ids, matters y
  backward : t.Backward
  backward' : t'.Backward

namespace Renumbering

variable {f : TypeId → TypeId} {matters : TypeId → Prop} {t t' : TypeSet} {x y : TypeId}

theorem contains (h : t.Renumbering f matters t') (hx : matters x) :
    t'.contains (f x) = t.contains x := by
  rw [Bool.eq_iff_iff, ← get?_isSome, ← get?_isSome, h.get? x hx, Option.isSome_map]

theorem shape? (h : t.Renumbering f matters t') (hx : matters x) :
    t'.shape? (f x) = (t.shape? x).map (·.renumber f) := by
  simp only [TypeSet.shape?, h.get? x hx, Option.map_map]
  rfl

theorem qualifiedName (h : t.Renumbering f matters t') (hx : matters x) :
    t'.qualifiedName (f x) = t.qualifiedName x := by
  simp only [TypeSet.qualifiedName, h.get? x hx]
  cases t.get? x <;> rfl

/-- The types held by a type that matters come before it, and so do their counterparts. -/
theorem held (h : t.Renumbering f matters t') {d : Description} (hx : matters x)
    (hd : t.get? x = some d) (hy : y ∈ d.shape.held) :
    matters y ∧ y.index < x.index ∧ (f y).index < (f x).index := by
  have hd' : t'.get? (f x) = some (d.renumber f) := by rw [h.get? x hx, hd, Option.map_some]
  have hy' : f y ∈ (d.renumber f).shape.held := by
    cases hs : d.shape <;> simp_all [Shape.held, Shape.renumber]
    rcases hy with rfl | rfl <;> simp
  exact ⟨h.ids x d hx hd y (d.shape.held_subset_ids hy), h.backward x d hd y hy,
    h.backward' (f x) _ hd' (f y) hy'⟩

/-- Pointers lead to the counterpart of what they led to. -/
theorem strip (h : t.Renumbering f matters t') (hx : matters x) :
    t'.strip (f x) = f (t.strip x) ∧ matters (t.strip x) := by
  induction hn : x.index using Nat.strongRecOn generalizing x with
  | ind n ih =>
    by_cases hp : ∃ y, t.shape? x = some (.pointer y)
    · obtain ⟨y, hy⟩ := hp
      obtain ⟨d, hd, hs⟩ := shape?_eq_some.mp hy
      obtain ⟨hm, hlt, -⟩ := h.held hx hd (y := y) (by simp [hs, Shape.held])
      have hy' : t'.shape? (f x) = some (.pointer (f y)) := by
        rw [h.shape? hx, hy, Option.map_some, Shape.renumber]
      rw [strip_of_pointer h.backward hy, strip_of_pointer h.backward' hy']
      exact ih y.index (hn ▸ hlt) hm rfl
    · have hnot : ∀ y, t.shape? x ≠ some (.pointer y) := fun y hy => hp ⟨y, hy⟩
      have hnot' : ∀ y, t'.shape? (f x) ≠ some (.pointer y) := by
        intro y hy
        rw [h.shape? hx] at hy
        obtain ⟨shape, hs, he⟩ := Option.map_eq_some_iff.mp hy
        cases shape <;> simp [Shape.renumber] at he
        exact hnot _ hs
      rw [strip_of_not_pointer hnot, strip_of_not_pointer hnot']
      exact ⟨rfl, hx⟩

/-- What a member holds in the end has the name that its counterpart has. -/
theorem ownName (h : t.Renumbering f matters t') (hx : matters x) :
    t'.ownName (f x) = t.ownName x := by
  induction hn : x.index using Nat.strongRecOn generalizing x with
  | ind n ih =>
    rw [TypeSet.ownName, TypeSet.ownName.eq_def t x, h.get? x hx]
    cases hd : t.get? x with
    | none => rfl
    | some d =>
      have hinner (y) (hy : y ∈ d.shape.held) :
          (if (f y).index < (f x).index then t'.ownName (f y) else none) =
            if y.index < x.index then t.ownName y else none := by
        obtain ⟨hm, hlt, hlt'⟩ := h.held hx hd hy
        rw [if_pos hlt, if_pos hlt', ih y.index (hn ▸ hlt) hm rfl]
      cases hname : d.name with
      | some name => simp [hname]
      | none => cases hs : d.shape <;> simp_all [Shape.renumber, Shape.held]

end Renumbering

end TypeSet

end TypeGraph

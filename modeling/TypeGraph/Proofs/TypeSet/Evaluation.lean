import TypeGraph.Proofs.TypeSet.Growth
/-!
Following pointers and naming what a member holds, as evaluations: nothing stops them but the types
themselves, and every type they look at is one of the set. In a set whose containers hold earlier
types they come to an end, with what the functions answer.
-/

namespace TypeGraph.TypeSet

/-- Following pointers from a type ends at another. -/
inductive StripsTo (t : TypeSet) : TypeId → TypeId → Prop
  | pointer {id target x : TypeId} {d : Description} (hd : t.get? id = some d)
      (hs : d.shape = .pointer target) (h : StripsTo t target x) : StripsTo t id x
  | done {id : TypeId} {d : Description} (hd : t.get? id = some d)
      (hs : ∀ x, d.shape ≠ .pointer x) : StripsTo t id id

/-- Looking for the name of what a member holds ends with a name, or without one. -/
inductive NamesTo (t : TypeSet) : TypeId → Option String → Prop
  | named {id : TypeId} {d : Description} {name : String} (hd : t.get? id = some d)
      (hn : d.name = some name) : NamesTo t id (some name)
  | pointer {id target : TypeId} {d : Description} {name? : Option String}
      (hd : t.get? id = some d) (hn : d.name = none) (hs : d.shape = .pointer target)
      (h : NamesTo t target name?) : NamesTo t id name?
  | sequence {id element : TypeId} {d : Description} {name? : Option String}
      (hd : t.get? id = some d) (hn : d.name = none) (hs : d.shape = .sequence element)
      (h : NamesTo t element name?) : NamesTo t id name?
  | map {id key value : TypeId} {d : Description} {name? : Option String}
      (hd : t.get? id = some d) (hn : d.name = none) (hs : d.shape = .map key value)
      (h : NamesTo t value name?) : NamesTo t id name?
  | unnamed {id : TypeId} {d : Description} (hd : t.get? id = some d) (hn : d.name = none)
      (hs : d.shape.held = []) : NamesTo t id none

variable {t : TypeSet} {id x y : TypeId} {name? other? : Option String} {d : Description}

theorem StripsTo.unique (h : t.StripsTo id x) (h' : t.StripsTo id y) : x = y := by
  induction h with
  | pointer hd hs _ ih =>
    cases h' with
    | pointer hd' hs' h' =>
      obtain rfl := Option.some.inj (hd.symm.trans hd')
      obtain rfl := Shape.pointer.inj (hs.symm.trans hs')
      exact ih h'
    | done hd' hs' =>
      obtain rfl := Option.some.inj (hd.symm.trans hd')
      exact absurd hs (hs' _)
  | done hd hs =>
    cases h' with
    | pointer hd' hs' =>
      obtain rfl := Option.some.inj (hd.symm.trans hd')
      exact absurd hs' (hs _)
    | done => rfl

theorem NamesTo.unique (h : t.NamesTo id name?) (h' : t.NamesTo id other?) : name? = other? := by
  induction h with
  | named hd hn => cases h' <;> simp_all
  | unnamed hd hn hs => cases h' <;> simp_all [Shape.held]
  | pointer hd hn hs _ ih =>
    cases h' with
    | pointer hd' _ hs' h' =>
      obtain rfl := Option.some.inj (hd.symm.trans hd')
      obtain rfl := Shape.pointer.inj (hs.symm.trans hs')
      exact ih h'
    | _ => simp_all [Shape.held]
  | sequence hd hn hs _ ih =>
    cases h' with
    | sequence hd' _ hs' h' =>
      obtain rfl := Option.some.inj (hd.symm.trans hd')
      obtain rfl := Shape.sequence.inj (hs.symm.trans hs')
      exact ih h'
    | _ => simp_all [Shape.held]
  | map hd hn hs _ ih =>
    cases h' with
    | map hd' _ hs' h' =>
      obtain rfl := Option.some.inj (hd.symm.trans hd')
      obtain ⟨-, rfl⟩ := Shape.map.inj (hs.symm.trans hs')
      exact ih h'
    | _ => simp_all [Shape.held]

/-- What a container of the set holds is in the set. -/
theorem Backward.contains_held (h : t.Backward) (hd : t.get? id = some d) (hx : x ∈ d.shape.held) :
    t.contains x := by
  have hlt := h id d hd x hx
  have hid := contains_iff.mp (contains_of_get? hd)
  exact contains_iff.mpr (by omega)

theorem stripsTo_strip (hb : t.Backward) (hc : t.contains id) : t.StripsTo id (t.strip id) := by
  induction hn : id.index using Nat.strongRecOn generalizing id with
  | ind n ih =>
    obtain ⟨d, hd⟩ := exists_get? hc
    by_cases hp : ∃ y, d.shape = .pointer y
    · obtain ⟨y, hs⟩ := hp
      have hy : y ∈ d.shape.held := by simp [hs, Shape.held]
      have hlt : y.index < id.index := hb id d hd y hy
      rw [strip_of_pointer hb (shape?_eq_some.mpr ⟨d, hd, hs⟩)]
      exact .pointer hd hs (ih y.index (hn ▸ hlt) (hb.contains_held hd hy) rfl)
    · have hnot : ∀ y, d.shape ≠ .pointer y := fun y hs => hp ⟨y, hs⟩
      rw [strip_of_not_pointer (by simpa [shape?, hd] using hnot)]
      exact .done hd hnot

theorem StripsTo.eq_strip (hb : t.Backward) (h : t.StripsTo id x) : x = t.strip id := by
  have hin : t.contains id := by
    cases h with
    | pointer hd | done hd => exact contains_of_get? hd
  exact h.unique (stripsTo_strip hb hin)

theorem namesTo_ownName (hb : t.Backward) (hc : t.contains id) : t.NamesTo id (t.ownName id) := by
  induction hn : id.index using Nat.strongRecOn generalizing id with
  | ind n ih =>
    obtain ⟨d, hd⟩ := exists_get? hc
    have inner {y : TypeId} (hy : y ∈ d.shape.held) :
        y.index < id.index ∧ t.NamesTo y (t.ownName y) := by
      have hlt : y.index < id.index := hb id d hd y hy
      exact ⟨hlt, ih y.index (hn ▸ hlt) (hb.contains_held hd hy) rfl⟩
    rw [ownName]
    cases hname : d.name with
    | some name =>
      simp only [hd, hname]
      exact .named hd hname
    | none =>
      cases hs : d.shape with
      | pointer y =>
        obtain ⟨hlt, hy⟩ := inner (y := y) (by simp [hs, Shape.held])
        simp only [hd, hname, hs, if_pos hlt]
        exact .pointer hd hname hs hy
      | sequence y =>
        obtain ⟨hlt, hy⟩ := inner (y := y) (by simp [hs, Shape.held])
        simp only [hd, hname, hs, if_pos hlt]
        exact .sequence hd hname hs hy
      | map k y =>
        obtain ⟨hlt, hy⟩ := inner (y := y) (by simp [hs, Shape.held])
        simp only [hd, hname, hs, if_pos hlt]
        exact .map hd hname hs hy
      | aggregate ms =>
        simp only [hd, hname, hs]
        exact .unnamed hd hname (by simp [hs, Shape.held])
      | scalar kind =>
        simp only [hd, hname, hs]
        exact .unnamed hd hname (by simp [hs, Shape.held])

end TypeGraph.TypeSet

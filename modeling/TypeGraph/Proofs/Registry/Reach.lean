import TypeGraph.Proofs.TypeSet.Growth
import TypeGraph.Registry.Catalog
/-!
What a walk meets. The types that a type leads to through pointers, sequences and maps are exactly
the leaves that discovery visits, and with them those that a struct uses through its members.
-/

namespace TypeGraph

/-- The type that is declared at a leaf. -/
def Leaf.declares : Leaf → Option TypeId
  | .aggregate id _ | .enumeration id => some id
  | .inline _ _ | .dangling _ => none

namespace Catalog

variable {c : Catalog} {id x : TypeId} {context : String}

/-- Pointers, sequences, values and keys of maps lead from `id` to a type that has a declaration of
its own. Types with a custom text lead nowhere. -/
inductive LeadsTo (c : Catalog) : TypeId → TypeId → Prop
  | aggregate {id : TypeId} {d : Description} (hd : c.types.get? id = some d)
      (hc : c.customText id = none) (ha : d.isAggregate) : LeadsTo c id id
  | enumeration {id : TypeId} {d : Description} {kind : Scalar} (hd : c.types.get? id = some d)
      (hc : c.customText id = none) (hn : d.name.isSome) (hs : d.shape = .scalar kind)
      (hk : kind.enumerable) (he : c.annex.constants c.types id ≠ []) : LeadsTo c id id
  | pointer {id target x : TypeId} (hs : c.types.shape? id = some (.pointer target))
      (hc : c.customText id = none) (h : LeadsTo c target x) : LeadsTo c id x
  | sequence {id element x : TypeId} (hs : c.types.shape? id = some (.sequence element))
      (hc : c.customText id = none) (h : LeadsTo c element x) : LeadsTo c id x
  | value {id key value x : TypeId} (hs : c.types.shape? id = some (.map key value))
      (hc : c.customText id = none) (h : LeadsTo c value x) : LeadsTo c id x
  | key {id key value x : TypeId} (hs : c.types.shape? id = some (.map key value))
      (hc : c.customText id = none) (h : LeadsTo c key x) : LeadsTo c id x

/-- A member of the struct `owner` makes a walk meet a type: the struct it embeds, if such structs
are declared, or else what its own type leads to. -/
inductive Uses (c : Catalog) (owner : TypeId) (m : Member) : TypeId → Prop
  | base {d e : Description} (hd : c.types.get? owner = some d) (hm : m ∈ d.members)
      (hs : m.skip = false) (he : m.embedded) (hb : c.types.get? (c.types.strip m.ty) = some e)
      (ha : e.isAggregate) (hr : c.settings.declareEmbedded)
      (hc : c.customText (c.types.strip m.ty) = none) : Uses c owner m (c.types.strip m.ty)
  | leaf {d : Description} {x : TypeId} (hd : c.types.get? owner = some d) (hm : m ∈ d.members)
      (hs : m.skip = false)
      (he : ¬(m.embedded ∧ ((c.types.get? (c.types.strip m.ty)).any (·.isAggregate))))
      (h : c.LeadsTo m.ty x) : Uses c owner m x

/-- Some member of the first struct makes a walk meet the second type. -/
def Links (c : Catalog) (owner x : TypeId) : Prop :=
  ∃ m, c.Uses owner m x

/-- What is declared where a walk ends: a struct, or a named scalar with constants. -/
theorem LeadsTo.target (h : c.LeadsTo id x) :
    c.customText x = none ∧ ∃ d, c.types.get? x = some d ∧
      (d.isAggregate ∨ (d.name.isSome ∧ ∃ kind, d.shape = .scalar kind)) := by
  induction h with
  | aggregate hd hc ha => exact ⟨hc, _, hd, .inl ha⟩
  | enumeration hd hc hn hs _ _ => exact ⟨hc, _, hd, .inr ⟨hn, _, hs⟩⟩
  | pointer _ _ _ ih | sequence _ _ _ ih | value _ _ _ ih | key _ _ _ ih => exact ih

theorem Uses.target {owner : TypeId} {m : Member} (h : c.Uses owner m x) :
    c.customText x = none ∧ ∃ d, c.types.get? x = some d ∧
      (d.isAggregate ∨ (d.name.isSome ∧ ∃ kind, d.shape = .scalar kind)) := by
  cases h with
  | base _ _ _ _ hb ha _ hc => exact ⟨hc, _, hb, .inl ha⟩
  | leaf _ _ _ _ h => exact h.target

theorem Uses.mem {owner : TypeId} {m : Member} (h : c.Uses owner m x) :
    ∃ d, c.types.get? owner = some d ∧ m ∈ d.members := by
  cases h with
  | base hd hm | leaf hd hm => exact ⟨_, hd, hm⟩

/-- What is known of a leaf that the walk from `id` ends at. -/
def EndsAt (c : Catalog) (context : String) (id : TypeId) : Leaf → Prop
  | .aggregate x name => c.LeadsTo id x ∧ ∃ d, c.types.get? x = some d ∧ d.isAggregate ∧
      name = d.name.getD context
  | .enumeration x => c.LeadsTo id x ∧ ∃ d, c.types.get? x = some d ∧ d.name.isSome ∧
      ∃ kind, d.shape = .scalar kind
  | .inline _ _ => True
  | .dangling x => ¬c.types.contains x ∧ (x = id ∨ c.types.Mentions x)

/-- A container whose parts lead on ends where they end. -/
theorem EndsAt.outward {y : TypeId} {leaf : Leaf} (h : c.EndsAt context y leaf)
    (hto : ∀ x, c.LeadsTo y x → c.LeadsTo id x)
    (hy : ∃ d, c.types.get? id = some d ∧ y ∈ d.shape.ids) : c.EndsAt context id leaf := by
  cases leaf with
  | aggregate x name => exact ⟨hto x h.1, h.2⟩
  | enumeration x => exact ⟨hto x h.1, h.2⟩
  | inline => trivial
  | dangling x =>
    refine ⟨h.1, ?_⟩
    rcases h.2 with rfl | hx
    · exact .inr ⟨id, hy⟩
    · exact .inr hx

theorem step?_eq_none (h : c.step? id context = none) : ¬c.types.contains id := by
  rw [← TypeSet.get?_isSome]
  simpa [step?] using h

/-- A step that is no custom text is the one that the shape asks for. -/
theorem step?_eq_some {step : Step} (h : c.step? id context = some step) :
    (∃ text, step = .inline (.verbatim text)) ∨ c.customText id = none ∧
      ∃ d, c.types.get? id = some d ∧
        ((∃ y, d.shape = .pointer y ∧ step = .pointer y) ∨
        (d.isAggregate ∧ step = .aggregate id (d.name.getD context)) ∨
        (∃ y, d.shape = .sequence y ∧ step = .sequence y) ∨
        (∃ k v, d.shape = .map k v ∧ step = .map k v) ∨
        (∃ kind, d.shape = .scalar kind ∧
          (d.name.isSome ∧ kind.enumerable ∧ c.annex.constants c.types id ≠ [] ∧
              step = .enumeration id ∨ step = .inline (.scalar kind)))) := by
  obtain ⟨d, hd, rfl⟩ := Option.map_eq_some_iff.mp h
  cases hc : c.customText id with
  | some text => exact .inl ⟨text, rfl⟩
  | none =>
    refine .inr ⟨rfl, d, hd, ?_⟩
    cases hs : d.shape with
    | pointer y => simp
    | aggregate ms => simp [Description.isAggregate, hs]
    | sequence y => simp
    | map k v => simp
    | scalar kind =>
      by_cases he : d.name.isSome ∧ kind.enumerable ∧ c.annex.constants c.types id ≠ []
      · simp [he.1, he.2.1, he.2.2]
      · have hi : (if d.name.isSome && kind.enumerable && c.annex.constants c.types id ≠ [] then
            Step.enumeration id else .inline (.scalar kind)) = .inline (.scalar kind) :=
          if_neg (by simpa [and_assoc] using he)
        simp only [hi]
        simp

/-- Every leaf is one that pointers, sequences and maps lead to. -/
theorem leaves_sound {leaf : Leaf} (h : leaf ∈ c.leaves context id) : c.EndsAt context id leaf := by
  induction hn : id.index using Nat.strongRecOn generalizing id with
  | ind n ih =>
    have inner {y : TypeId} (hlt : y.index < id.index) (hy : leaf ∈ c.leaves context y) :
        c.EndsAt context y leaf := ih y.index (hn ▸ hlt) hy rfl
    rw [leaves] at h
    cases hstep : c.step? id context with
    | none =>
      rw [hstep] at h
      obtain rfl := List.mem_singleton.mp h
      exact ⟨step?_eq_none hstep, .inl rfl⟩
    | some step =>
      rcases step?_eq_some hstep with ⟨text, rfl⟩ | ⟨hc, d, hd, hcases⟩
      · rw [hstep] at h
        obtain rfl := List.mem_singleton.mp h
        trivial
      have held {y : TypeId} (hy : y ∈ d.shape.held) :
          ∃ d, c.types.get? id = some d ∧ y ∈ d.shape.ids :=
        ⟨d, hd, d.shape.held_subset_ids hy⟩
      rcases hcases with ⟨y, hs, rfl⟩ | ⟨ha, rfl⟩ | ⟨y, hs, rfl⟩ | ⟨k, v, hs, rfl⟩ | ⟨kind, hs, he⟩
      · have hshape := TypeSet.shape?_eq_some.mpr ⟨d, hd, hs⟩
        simp only [hstep, List.mem_ite_nil_right] at h
        exact (inner h.1 h.2).outward (fun x => .pointer hshape hc)
          (held (by simp [hs, Shape.held]))
      · rw [hstep] at h
        obtain rfl := List.mem_singleton.mp h
        exact ⟨.aggregate hd hc ha, d, hd, ha, rfl⟩
      · have hshape := TypeSet.shape?_eq_some.mpr ⟨d, hd, hs⟩
        simp only [hstep, List.mem_ite_nil_right] at h
        exact (inner h.1 h.2).outward (fun x => .sequence hshape hc)
          (held (by simp [hs, Shape.held]))
      · have hshape := TypeSet.shape?_eq_some.mpr ⟨d, hd, hs⟩
        simp only [hstep, List.mem_append, List.mem_ite_nil_right] at h
        rcases h with h | h
        · exact (inner h.1 h.2).outward (fun x => .value hshape hc)
            (held (by simp [hs, Shape.held]))
        · exact (inner h.1 h.2).outward (fun x => .key hshape hc)
            (held (by simp [hs, Shape.held]))
      · rw [hstep] at h
        rcases he with ⟨hname, hk, hconst, rfl⟩ | rfl
        · obtain rfl := List.mem_singleton.mp h
          exact ⟨.enumeration hd hc hname hs hk hconst, d, hd, hname, kind, hs⟩
        · obtain rfl := List.mem_singleton.mp h
          trivial

/-- Only an id that is itself outside the set ends outside it: containers hold earlier types. -/
theorem leaves_dangling (hb : c.types.Backward) (h : .dangling x ∈ c.leaves context id) :
    ¬c.types.contains x ∧ x = id := by
  have hout : ¬c.types.contains x := (leaves_sound h).1
  refine ⟨hout, ?_⟩
  induction hn : id.index using Nat.strongRecOn generalizing id with
  | ind n ih =>
    have inner {y : TypeId} {d : Description} (hd : c.types.get? id = some d)
        (hy : y ∈ d.shape.held) : .dangling x ∉ c.leaves context y := by
      intro hleaf
      have hlt := hb id d hd y hy
      obtain rfl := ih y.index (hn ▸ hlt) hleaf rfl
      have hid := TypeSet.contains_iff.mp (TypeSet.contains_of_get? hd)
      exact hout (TypeSet.contains_iff.mpr (by omega))
    rw [leaves] at h
    cases hstep : c.step? id context with
    | none => simpa [hstep] using h
    | some step =>
      rcases step?_eq_some hstep with ⟨text, rfl⟩ | ⟨-, d, hd, hcases⟩
      · simp [hstep] at h
      rcases hcases with ⟨y, hs, rfl⟩ | ⟨-, rfl⟩ | ⟨y, hs, rfl⟩ | ⟨k, v, hs, rfl⟩ | ⟨kind, -, he⟩
      · simp only [hstep, List.mem_ite_nil_right] at h
        exact absurd h.2 (inner hd (by simp [hs, Shape.held]))
      · simp [hstep] at h
      · simp only [hstep, List.mem_ite_nil_right] at h
        exact absurd h.2 (inner hd (by simp [hs, Shape.held]))
      · simp only [hstep, List.mem_append, List.mem_ite_nil_right] at h
        rcases h with h | h
        · exact absurd h.2 (inner hd (by simp [hs, Shape.held]))
        · exact absurd h.2 (inner hd (by simp [hs, Shape.held]))
      · rcases he with ⟨-, -, -, rfl⟩ | rfl <;> simp [hstep] at h

/-- A type that a type leads to is one of its leaves. -/
theorem leaves_complete (hb : c.types.Backward) (h : c.LeadsTo id x) :
    ∃ leaf ∈ c.leaves context id, leaf.declares = some x := by
  have before {id y : TypeId} {shape : Shape} (hs : c.types.shape? id = some shape)
      (hy : y ∈ shape.held) : y.index < id.index := by
    obtain ⟨d, hd, rfl⟩ := TypeSet.shape?_eq_some.mp hs
    exact hb id d hd y hy
  induction h with
  | @aggregate id d hd hc ha =>
    obtain ⟨ms, hs⟩ := Description.isAggregate_iff.mp ha
    rw [leaves]
    simp [step?, hd, hc, hs, Leaf.declares]
  | @enumeration id d kind hd hc hn hs hk he =>
    rw [leaves]
    simp [step?, hd, hc, hs, hn, hk, he, Leaf.declares]
  | @pointer id target x hs hc h ih =>
    obtain ⟨leaf, hl, hx⟩ := ih
    obtain ⟨d, hd, hds⟩ := TypeSet.shape?_eq_some.mp hs
    refine ⟨leaf, ?_, hx⟩
    rw [leaves]
    simpa [step?, hd, hc, hds, before hs (List.mem_singleton_self _)] using hl
  | @sequence id element x hs hc h ih =>
    obtain ⟨leaf, hl, hx⟩ := ih
    obtain ⟨d, hd, hds⟩ := TypeSet.shape?_eq_some.mp hs
    refine ⟨leaf, ?_, hx⟩
    rw [leaves]
    simpa [step?, hd, hc, hds, before hs (List.mem_singleton_self _)] using hl
  | @value id key value x hs hc h ih =>
    obtain ⟨leaf, hl, hx⟩ := ih
    obtain ⟨d, hd, hds⟩ := TypeSet.shape?_eq_some.mp hs
    have hv : value.index < id.index := before hs (by simp [Shape.held])
    refine ⟨leaf, ?_, hx⟩
    rw [leaves]
    simp [step?, hd, hc, hds, hv, hl]
  | @key id key value x hs hc h ih =>
    obtain ⟨leaf, hl, hx⟩ := ih
    obtain ⟨d, hd, hds⟩ := TypeSet.shape?_eq_some.mp hs
    have hk : key.index < id.index := before hs (by simp [Shape.held])
    refine ⟨leaf, ?_, hx⟩
    rw [leaves]
    simp [step?, hd, hc, hds, hk, hl]

end Catalog

end TypeGraph

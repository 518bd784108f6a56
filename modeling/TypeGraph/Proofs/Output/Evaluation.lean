import TypeGraph.Proofs.Registry.Evaluation
import TypeGraph.Proofs.Registry.Renumbering
import TypeGraph.Proofs.TypeSet.Identity
/-!
Every type set can be registered and written out, however the members of its structs refer to each
other. Resolving the types of fields is an evaluation too, and all that is declared is in its place
when the output is written.
-/

namespace TypeGraph

namespace View

/-- Resolving a type comes to a reference. -/
inductive ResolvesTo (v : View) : TypeId → TypeRef → Prop
  | verbatim {id target : TypeId} {own : Description} {text : String}
      (ht : v.types.StripsTo id target) (ho : v.types.get? target = some own)
      (hc : v.customText target = some text) : ResolvesTo v id (.verbatim text)
  | declared {id target : TypeId} {own : Description} {d : Declaration}
      (ht : v.types.StripsTo id target) (ho : v.types.get? target = some own)
      (hc : v.customText target = none) (hl : v.lookup target = some d) :
      ResolvesTo v id (.declared d.name)
  | sequence {id target element : TypeId} {own : Description} {ref : TypeRef}
      (ht : v.types.StripsTo id target) (ho : v.types.get? target = some own)
      (hc : v.customText target = none) (hl : v.lookup target = none)
      (hs : own.shape = .sequence element) (h : ResolvesTo v element ref) :
      ResolvesTo v id (.sequence ref)
  /-- The key is looked at once more, behind pointers. -/
  | map {id target key value : TypeId} {own : Description} {keyRef ref : TypeRef}
      (ht : v.types.StripsTo id target) (ho : v.types.get? target = some own)
      (hc : v.customText target = none) (hl : v.lookup target = none)
      (hs : own.shape = .map key value) (hkey : ResolvesTo v key keyRef)
      (hstrip : v.types.StripsTo key (v.types.strip key)) (h : ResolvesTo v value ref) :
      ResolvesTo v id (.map (v.mapKey key keyRef) ref)
  | scalar {id target : TypeId} {own : Description} {kind : Scalar}
      (ht : v.types.StripsTo id target) (ho : v.types.get? target = some own)
      (hc : v.customText target = none) (hl : v.lookup target = none)
      (hs : own.shape = .scalar kind) : ResolvesTo v id (.scalar kind)
  | aggregate {id target : TypeId} {own : Description}
      (ht : v.types.StripsTo id target) (ho : v.types.get? target = some own)
      (hc : v.customText target = none) (hl : v.lookup target = none) (ha : own.isAggregate) :
      ResolvesTo v id (.scalar .any)

variable {v : View} {id : TypeId}

/-- In a set whose containers hold earlier types, resolving comes to an end from every type. -/
theorem resolvesTo_resolve (hb : v.types.Backward) (hc : v.types.contains id) :
    v.ResolvesTo id (v.resolve id) := by
  induction hn : id.index using Nat.strongRecOn generalizing id with
  | ind n ih =>
    have hstrip := TypeSet.stripsTo_strip hb hc
    obtain ⟨own, ho⟩ := TypeSet.exists_get? (TypeSet.contains_strip hc)
    have hle : (v.types.strip id).index ≤ id.index := v.types.strip_index_le id
    have inner {y : TypeId} (hy : y ∈ own.shape.held) :
        y.index < id.index ∧ v.types.contains y ∧ v.ResolvesTo y (v.resolve y) := by
      have hlt : y.index < id.index := (hb _ own ho y hy).trans_le hle
      have hin : v.types.contains y := hb.contains_held ho hy
      exact ⟨hlt, hin, ih y.index (hn ▸ hlt) hin rfl⟩
    rw [resolve]
    cases hcustom : v.customText (v.types.strip id) with
    | some text =>
      simp only [ho]
      exact .verbatim hstrip ho hcustom
    | none =>
      cases hl : v.lookup (v.types.strip id) with
      | some d =>
        simp only [ho]
        exact .declared hstrip ho hcustom hl
      | none =>
        cases hs : own.shape with
        | pointer y =>
          exact absurd (TypeSet.shape?_eq_some.mpr ⟨own, ho, hs⟩) (TypeSet.strip_not_pointer hb id y)
        | aggregate ms =>
          simp only [ho, hs]
          exact .aggregate hstrip ho hcustom hl (by simp [Description.isAggregate, hs])
        | sequence element =>
          obtain ⟨hlt, -, helement⟩ := inner (y := element) (by simp [hs, Shape.held])
          simp only [ho, hs, if_pos hlt]
          exact .sequence hstrip ho hcustom hl hs helement
        | map key value =>
          obtain ⟨hltk, hink, hkey⟩ := inner (y := key) (by simp [hs, Shape.held])
          obtain ⟨hltv, -, hvalue⟩ := inner (y := value) (by simp [hs, Shape.held])
          simp only [ho, hs, dif_pos (And.intro hltk hltv)]
          exact .map hstrip ho hcustom hl hs hkey (TypeSet.stripsTo_strip hb hink) hvalue
        | scalar kind =>
          simp only [ho, hs]
          exact .scalar hstrip ho hcustom hl hs

end View

namespace Catalog

variable {c : Catalog} {starts : Starts} {w w' : Walk}

/-- The fields of what is declared have types of the set. -/
def Fielded (types : TypeSet) (found : Findings) : Prop :=
  ∀ d ∈ found.begun, ∀ f ∈ d.fields, types.contains f.ty

theorem Step.fielded (hclosed : c.types.Closed) (h : c.Step starts w w')
    (hw : Fielded c.types w.found) : Fielded c.types w'.found := by
  have hnew {d : Declaration} (hd : d.fields = []) : Fielded c.types (w.found.enter d) := by
    intro e he f hf
    rcases List.mem_append.mp he with he | he
    · exact hw e he f hf
    · obtain rfl := List.mem_singleton.mp he
      simp [hd] at hf
  cases h with
  | note e => exact hw
  | enter => exact hnew rfl
  | enumerate => exact hnew rfl
  | @finish top opened d own ht hd ho hs =>
    intro e he f hf
    obtain ⟨slot, hslot⟩ := List.getElem?_of_mem he
    rw [Findings.begun_finish, Findings.getElem?_begun_fill] at hslot
    obtain ⟨e', he', rfl⟩ := Option.map_eq_some_iff.mp hslot
    split at hf
    · obtain ⟨m, hm, -, -, rfl⟩ := mem_fieldsOf hf
      exact hclosed d.ty own ho m.ty (Description.ids_of_mem_members hm)
    · exact hw e' (List.mem_of_getElem? he') f hf

end Catalog

namespace Registry

/-- What roots with names keep of a registry over a set that mentions its own ids only. -/
structure Whole (r : Registry) : Prop extends Tidy r where
  closed : r.types.Closed
  fielded : Catalog.Fielded r.types r.findings

variable {r r' : Registry} {g : Registration} {gs : List Registration} {d : Declaration}

namespace Whole

theorem empty (hfound : r.findings = {}) (hb : r.types.Backward) (hclosed : r.types.Closed) :
    r.Whole :=
  ⟨.empty hfound hb, hclosed, by simp [Catalog.Fielded, hfound]⟩

/-- A registration keeps a registry whole, and nothing but what was found is changed. -/
theorem performed (h : r.Whole) (hg : g.Named r.types) (hp : r.perform g = .ok (d, r')) :
    r'.Whole ∧ r' = { r with findings := r'.findings } := by
  have henrolls := enrolls_target h.backward h.indexed hp
  have hin : r.types.contains (g.target r.types) := Registration.contains_target hg.contains
  have htidy := h.toTidy.walked hin henrolls.walks
  have hfielded : Catalog.Fielded r.types r'.findings :=
    Catalog.kept_of_run (P := fun w => Catalog.Fielded r.types w.found)
      (fun _ _ hs hw => hs.fielded h.closed hw) henrolls.walks.run h.fielded
  refine ⟨?_, henrolls.same⟩
  rw [henrolls.same]
  exact ⟨htidy, h.closed, hfielded⟩

/-- Any roots with names are added one after another. -/
theorem performedAll (h : r.Whole) (hgs : ∀ g ∈ gs, g.Named r.types) :
    (r.performAll gs).2.Whole ∧
      (r.performAll gs).2 = { r with findings := (r.performAll gs).2.findings } ∧
      ∀ answer ∈ (r.performAll gs).1, ∃ d, answer = .ok d := by
  induction gs generalizing r with
  | nil => exact ⟨h, rfl, by simp [performAll]⟩
  | cons g gs ih =>
    have hg := hgs g (by simp)
    obtain ⟨d, r', hp, -⟩ := exists_addsTo h.toTidy h.closed hg
    obtain ⟨hwhole, hsame⟩ := h.performed hg hp
    have htypes : r'.types = r.types := by rw [hsame]
    obtain ⟨hafter, hrest, hanswers⟩ :=
      ih hwhole fun g' hg' => htypes ▸ hgs g' (List.mem_cons_of_mem _ hg')
    simp only [performAll, perform_eq_ok.mp hp]
    refine ⟨hafter, ?_, ?_⟩
    · rw [hrest, hsame]
    · intro answer ha
      rcases List.mem_cons.mp ha with rfl | ha
      · exact ⟨d, rfl⟩
      · exact hanswers answer ha

theorem indented (h : r.Whole) (unit : String) : (r.indented unit).Whole := by
  refine ⟨h.toTidy.indented unit, h.closed, ?_⟩
  intro e he f hf
  obtain ⟨d, hd, rfl⟩ := List.mem_map.mp he
  obtain ⟨f', hf', rfl⟩ := Declaration.mem_fields_indented hf
  exact h.fielded d hd f' hf'

/-- The type of every listed field is one of the set. -/
theorem contains_field (h : r.Whole) (hd : d ∈ r.declarations) {f : Field} (hf : f ∈ d.fields) :
    r.types.contains f.ty :=
  h.fielded d (Findings.mem_begun_of_declared hd) f hf

end Whole

/-- Over any set whose containers hold earlier types and whose members have types of the set:
pointers are followed and names are found from every type, any roots with names are declared, every
slot that is looked up or listed is there, every type and every listed field resolves, and the
output is written. -/
theorem roots_are_declared_and_written {types : TypeSet} (hb : types.Backward)
    (hclosed : types.Closed) (settings : Settings) (annex : Annex)
    (style : Output.TypeScript.Style) :
    (∀ id, types.contains id →
      types.StripsTo id (types.strip id) ∧ types.NamesTo id (types.ownName id)) ∧
    ∀ gs : List Registration, (∀ g ∈ gs, g.Named types) →
      let r₀ : Registry :=
        { types, settings, annex, assembler := Output.TypeScript.assembler style }
      let r := (r₀.performAll gs).2
      (∀ answer ∈ (r₀.performAll gs).1, ∃ d, answer = .ok d) ∧
      (∀ g, g.Named types → ∃ d r', r.perform g = .ok (d, r') ∧ r.AddsTo g d r') ∧
      (∀ id slot, r.findings.slot? id = some slot → slot < r.findings.begun.length) ∧
      (∀ slot ∈ r.findings.order, slot < r.findings.begun.length) ∧
      (∀ id, types.contains id → r.view.ResolvesTo id (r.view.resolve id)) ∧
      (∀ d ∈ r.finish.declarations, ∀ f ∈ d.fields,
        r.finish.view.ResolvesTo f.ty (r.finish.view.resolve f.ty)) ∧
      ∃ text, r.render.1 = .ok text := by
  refine ⟨?_, ?_⟩
  · intro id hc
    exact ⟨TypeSet.stripsTo_strip hb hc, TypeSet.namesTo_ownName hb hc⟩
  · intro gs hgs r₀ r
    have hstart : r₀.Whole := .empty rfl hb hclosed
    obtain ⟨hwhole, hsame, hanswers⟩ := hstart.performedAll hgs
    have htypes : r.types = types := by
      show (r₀.performAll gs).2.types = types
      rw [hsame]
    have hassembler : r.assembler = Output.TypeScript.assembler style := by
      show (r₀.performAll gs).2.assembler = _
      rw [hsame]
    refine ⟨hanswers, ?_, ?_, ?_, ?_, ?_, ?_⟩
    · intro g hg
      exact exists_addsTo hwhole.toTidy hwhole.closed (htypes.symm ▸ hg)
    · intro id slot hslot
      obtain ⟨d, hd, -⟩ := (hwhole.indexed.slot?_iff id slot).mp hslot
      exact (List.getElem?_eq_some_iff.mp hd).1
    · intro slot hslot
      simpa using hwhole.listed.mem_iff.mp hslot
    · intro id hc
      have hin : r.types.contains id := htypes.symm ▸ hc
      exact View.resolvesTo_resolve (v := r.view) hwhole.backward hin
    · intro d hd f hf
      have hfinished : r.finish.Whole := hwhole.indented _
      exact View.resolvesTo_resolve (v := r.finish.view) hfinished.backward
        (hfinished.contains_field hd hf)
    · refine ⟨Output.TypeScript.document style (r.indented style.unit).view, ?_⟩
      rw [render, hassembler]
      rfl

theorem looped_is_written :
    TypeSet.looped.Backward ∧ TypeSet.looped.Closed ∧
      let gs : List Registration :=
        [.addType ⟨8⟩ (some "Start"), .addEnumeration ⟨9⟩ (some "Mark") none]
      let r := (performAll { types := TypeSet.looped, settings := { scope := some "geo" } } gs).2
      (∃ text, r.render.1 = .ok text) ∧ r.view.ResolvesTo ⟨9⟩ (r.view.resolve ⟨9⟩) := by
  have hb : TypeSet.looped.Backward := by decide +kernel
  have hclosed : TypeSet.looped.Closed := by decide +kernel
  refine ⟨hb, hclosed, ?_⟩
  intro gs r
  have hin : TypeSet.looped.contains ⟨8⟩ ∧ TypeSet.looped.contains ⟨9⟩ := by decide +kernel
  have hgs : ∀ g ∈ gs, g.Named TypeSet.looped := by
    intro g hg
    simp only [gs, List.mem_cons, List.not_mem_nil, or_false] at hg
    rcases hg with rfl | rfl
    · exact .type hin.1 (by decide)
    · exact .enumeration hin.2 (by decide)
  obtain ⟨-, hroots⟩ :=
    roots_are_declared_and_written hb hclosed { scope := some "geo" } .described {}
  obtain ⟨-, -, -, -, hresolves, -, hrender⟩ := hroots gs hgs
  exact ⟨hrender, hresolves ⟨9⟩ hin.2⟩

end Registry

end TypeGraph

import TypeGraph.Proofs.Registry.PostOrder
import TypeGraph.Proofs.Registry.Registration
import TypeGraph.Proofs.TypeSet.Building
/-!
Registries as their callers see them. Whatever the order of the calls, between two of them every
type has one declaration at most, which is listed once and found by every id that leads to the type
through pointers.
-/

namespace TypeGraph

open Relation

/-- A declaration without its indentation, the only thing of it that ever changes. -/
def Declaration.plain (d : Declaration) : Declaration :=
  d.indented "" ""

/-- The fields of an indented declaration are those that were there, indented. -/
theorem Declaration.mem_fields_indented {d : Declaration} {outer inner : String} {f : Field}
    (h : f ∈ (d.indented outer inner).fields) :
    ∃ f' ∈ d.fields, f = { f' with indent := inner } := by
  cases hb : d.body with
  | enumeration members => simp [indented, fields, hb] at h
  | interface fields inherited =>
    simp only [indented, Declaration.fields, hb, List.mem_map] at h
    obtain ⟨f', hf', rfl⟩ := h
    exact ⟨f', by simpa [Declaration.fields, hb] using hf', rfl⟩

@[simp] theorem Declaration.isEnumeration_indented (d : Declaration) (outer inner : String) :
    (d.indented outer inner).isEnumeration = d.isEnumeration := by
  cases hb : d.body <;> simp [indented, isEnumeration, hb]

namespace Registry

/-- One call on a registry that changes it. A registration that fails gives no registry. -/
inductive Call (r : Registry) : Registry → Prop
  | register {g : Registration} {d : Declaration} {r' : Registry} (ha : g.Admissible r.types)
      (h : r.perform g = .ok (d, r')) : Call r r'
  | finish : Call r r.finish
  | render : Call r r.render.2
  | renderWith (assembler : Assembler) : Call r (r.renderWith assembler).2
  | renderTo (limit : Nat) : Call r (r.renderTo limit).2.2
  | setScope (scope : Option String) : Call r (r.setScope scope)
  | types {types : TypeSet} (h : r.types.Step types) : Call r { r with types }
  | build {family : Family} {blueprint : Blueprint} {id : TypeId} {r' : Registry}
      (h : r.build family blueprint = .ok (id, r')) : Call r r'

/-- What calls make of a registry that declares nothing. -/
def Reachable (r : Registry) : Prop :=
  ∃ r₀ : Registry, r₀.findings = {} ∧ TypeSet.initial.Run r₀.types ∧ ReflTransGen Call r₀ r

/-- A type of the set that may have a declaration. -/
def Declarable (types : TypeSet) (id : TypeId) : Prop :=
  types.contains id ∧ ∀ x, types.shape? id ≠ some (.pointer x)

/-- What holds of a registry between two calls. -/
structure Coherent (r : Registry) : Prop where
  backward : r.types.Backward
  bound : r.types.Bound
  indexed : r.findings.Indexed
  listed : r.findings.order.Perm (List.range r.findings.begun.length)
  declarable : ∀ d ∈ r.findings.begun, Declarable r.types d.ty

variable {r r' : Registry} {id : TypeId} {d : Declaration}

namespace Coherent

theorem indented (h : r.Coherent) (unit : String) : (r.indented unit).Coherent := by
  refine ⟨h.backward, h.bound, h.indexed.map fun d => rfl, ?_, ?_⟩
  · simpa [Registry.indented] using h.listed
  · intro e he
    obtain ⟨d, hd, rfl⟩ := List.mem_map.mp he
    exact h.declarable d hd

theorem evolved {types : TypeSet} (h : r.Coherent) (hr : r.types.Run types) :
    Coherent { r with types } :=
  ⟨hr.backward h.backward, hr.bound h.bound, h.indexed, h.listed, fun d hd =>
    ⟨hr.contains (h.declarable d hd).1,
      hr.evolves.not_pointer (h.declarable d hd).1 (h.declarable d hd).2⟩⟩

/-- What a walk meets is no pointer. -/
theorem links_declarable {c : Catalog} {owner x : TypeId} (h : c.Links owner x) :
    Declarable c.types x := by
  obtain ⟨m, hu⟩ := h
  obtain ⟨-, d, hd, hcases⟩ := hu.target
  refine ⟨TypeSet.contains_of_get? hd, ?_⟩
  intro y hy
  obtain ⟨e, he, hs⟩ := TypeSet.shape?_eq_some.mp hy
  obtain rfl : d = e := by simpa [hd] using he
  rcases hcases with ha | ⟨-, kind, hk⟩
  · simp [Description.isAggregate, hs] at ha
  · simp [hs] at hk

theorem registered {g : Registration} (h : r.Coherent) (ha : g.Admissible r.types)
    (hg : r.perform g = .ok (d, r')) : r'.Coherent := by
  have he := enrolls_perform h.backward h.indexed ha hg
  have ht := he.types
  have hstart : Declarable r.types (r.types.strip g.id) :=
    ⟨he.contains, TypeSet.strip_not_pointer h.backward g.id⟩
  have hlisted : Walk.Partitioned ⟨[], r'.findings⟩ :=
    Catalog.kept_of_run (fun _ _ hs hp => hs.partitioned hp) he.walks.run h.listed
  have hdeclarable : ∀ e ∈ r'.findings.begun, Declarable r.types e.ty := by
    refine Catalog.kept_of_run (P := fun w => ∀ e ∈ w.found.begun, Declarable r.types e.ty)
      ?_ he.walks.run h.declarable
    intro u v hs hu
    refine hs.forall_begun ?_ ?_ ?_ hu
    · intro x _ hx
      exact hx ▸ hstart
    · intro x _ _ hx
      exact hx ▸ hstart
    · intro owner x _ hl
      exact links_declarable hl
  exact ⟨ht ▸ h.backward, ht ▸ h.bound, he.walks.indexed h.indexed, hlisted, ht ▸ hdeclarable⟩

end Coherent

theorem build_eq_ok {family : Family} {blueprint : Blueprint}
    (h : r.build family blueprint = .ok (id, r')) :
    ∃ types, r.types.of family blueprint = .ok (id, types) ∧ r' = { r with types } := by
  unfold build at h
  split at h
  · next i types hb =>
    cases h
    exact ⟨types, hb, rfl⟩
  · cases h

theorem renderWith_snd (r : Registry) (assembler : Assembler) :
    (r.renderWith assembler).2 = r.indented assembler.unit := by
  simp only [renderWith]
  split <;> rfl

theorem renderTo_snd (r : Registry) (limit : Nat) :
    (r.renderTo limit).2.2 = r.indented r.assembler.unit := by
  have h : r.render.2 = r.indented r.assembler.unit := r.renderWith_snd r.assembler
  unfold renderTo
  split
  next result r' hr =>
    rw [hr] at h
    split
    · exact h
    · split <;> exact h

theorem Call.coherent (h : r.Call r') (hr : r.Coherent) : r'.Coherent := by
  cases h with
  | register ha h => exact hr.registered ha h
  | finish => exact hr.indented _
  | render => exact r.renderWith_snd _ ▸ hr.indented _
  | renderWith a => exact r.renderWith_snd a ▸ hr.indented _
  | renderTo limit => exact r.renderTo_snd limit ▸ hr.indented _
  | setScope scope => exact ⟨hr.backward, hr.bound, hr.indexed, hr.listed, hr.declarable⟩
  | types h => exact hr.evolved (.single h)
  | build h =>
    obtain ⟨types, ht, rfl⟩ := build_eq_ok h
    exact hr.evolved (TypeSet.run_of hr.bound ht).1

theorem Reachable.coherent (h : r.Reachable) : r.Coherent := by
  obtain ⟨r₀, hfound, htypes, hcalls⟩ := h
  induction hcalls with
  | refl =>
    refine ⟨htypes.backward TypeSet.backward_initial, htypes.bound (by simp [TypeSet.Bound,
      TypeSet.initial]), hfound ▸ .empty, ?_, ?_⟩ <;> simp [hfound]
  | tail _ hs ih => exact hs.coherent ih

theorem plain_indented (outer inner : String) (d : Declaration) :
    (d.indented outer inner).plain = d.plain := by
  obtain ⟨name, provenance, ty, doc, body, indent⟩ := d
  cases body <;> simp [Declaration.plain, Declaration.indented]

theorem declarations_indented (r : Registry) (unit : String) :
    ∃ outer inner, (r.indented unit).declarations =
      r.declarations.map (·.indented outer inner) := by
  let outer := if r.settings.scope.isSome then unit else ""
  refine ⟨outer, outer ++ unit, ?_⟩
  simp only [declarations, indented, Findings.declared, List.map_filterMap, List.getElem?_map,
    outer]

/-- Types that grow, and declarations that stay but for their indentation. -/
structure Keeps (r r' : Registry) : Prop where
  types : r.types.Evolves r'.types
  lookup : ∀ x d, r.findings.lookup x = some d →
    ∃ d', r'.findings.lookup x = some d' ∧ d'.plain = d.plain

namespace Keeps

theorem refl (r : Registry) : r.Keeps r :=
  ⟨.refl _, fun _ d h => ⟨d, h, rfl⟩⟩

theorem trans {r'' : Registry} (h : r.Keeps r') (k : r'.Keeps r'') : r.Keeps r'' := by
  refine ⟨h.types.trans k.types, ?_⟩
  intro x d hd
  obtain ⟨d', hd', he⟩ := h.lookup x d hd
  obtain ⟨d'', hd'', he'⟩ := k.lookup x d' hd'
  exact ⟨d'', hd'', he'.trans he⟩

theorem evolved {types : TypeSet} (h : r.types.Evolves types) : r.Keeps { r with types } :=
  ⟨h, fun _ d hd => ⟨d, hd, rfl⟩⟩

theorem indented (r : Registry) (unit : String) : r.Keeps (r.indented unit) := by
  refine ⟨.refl _, ?_⟩
  intro x d hd
  obtain ⟨slot, hs, hd⟩ := Option.bind_eq_some_iff.mp hd
  let outer := if r.settings.scope.isSome then unit else ""
  refine ⟨d.indented outer (outer ++ unit), ?_, plain_indented _ _ d⟩
  exact Option.bind_eq_some_iff.mpr ⟨slot, hs, by simp [Registry.indented, hd, outer]⟩

end Keeps

theorem Call.keeps (h : r.Call r') (hr : r.Coherent) : r.Keeps r' := by
  cases h with
  | register ha h =>
    have he := enrolls_perform hr.backward hr.indexed ha h
    exact ⟨he.types ▸ .refl _, fun _ d hd => ⟨d, he.walks.kept.lookup hd, rfl⟩⟩
  | finish => exact .indented r _
  | render => exact r.renderWith_snd _ ▸ .indented r _
  | renderWith a => exact r.renderWith_snd a ▸ .indented r _
  | renderTo limit => exact r.renderTo_snd limit ▸ .indented r _
  | setScope scope => exact ⟨.refl _, fun _ d hd => ⟨d, hd, rfl⟩⟩
  | types h => exact .evolved h.evolves
  | build h =>
    obtain ⟨types, ht, rfl⟩ := build_eq_ok h
    exact .evolved (TypeSet.run_of hr.bound ht).1.evolves

theorem keeps_of_calls (h : ReflTransGen Call r r') (hr : r.Coherent) :
    r'.Coherent ∧ r.Keeps r' := by
  induction h with
  | refl => exact ⟨hr, .refl r⟩
  | tail _ hs ih => exact ⟨hs.coherent ih.1, ih.2.trans (hs.keeps ih.1)⟩

/-- A type that was registered is found from then on by every id that leads to it, and registering
it again by such an id answers what was declared and changes nothing. -/
theorem found_after {g : Registration} {r'' : Registry} (hr : r.Coherent)
    (ha : g.Admissible r.types) (hg : r.perform g = .ok (d, r'))
    (hcalls : ReflTransGen Call r' r'') :
    ∃ d', r''.lookup g.id = some d' ∧ d'.plain = d.plain ∧
      ∀ g' : Registration, g'.Admissible r''.types →
        r''.types.strip g'.id = r''.types.strip g.id → r''.perform g' = .ok (d', r'') := by
  have he := enrolls_perform hr.backward hr.indexed ha hg
  have ht := he.types
  obtain ⟨hr'', hkeeps⟩ := keeps_of_calls hcalls (hr.registered ha hg)
  have hcg : r'.types.contains g.id := ht ▸ TypeSet.contains_of_contains_strip he.contains
  have hstrip : r''.types.strip g.id = r.types.strip g.id := by
    rw [hkeeps.types.strip_eq (ht ▸ hr.backward) hr''.backward hcg, ht]
  obtain ⟨d', hl', hplain⟩ := hkeeps.lookup _ _ he.lookup
  rw [← hstrip] at hl'
  refine ⟨d', hl', hplain, fun g' ha' hs => perform_of_lookup ?_ ?_⟩
  · apply TypeSet.contains_of_contains_strip
    exact hs ▸ TypeSet.contains_strip (hkeeps.types.contains hcg)
  · rw [Registration.target_eq_strip ha', hs]
    exact hl'

/-- Between two calls the order lists every declaration once, every declared type has one
declaration, which is filed under it and under nothing else, no pointer is declared, and ids that
lead to one type through pointers find and register one declaration. -/
theorem one_declaration_per_type (h : r.Reachable) :
    r.findings.order.Perm (List.range r.findings.begun.length) ∧
      (∀ id slot, r.findings.slot? id = some slot ↔
        ∃ d, r.findings.begun[slot]? = some d ∧ d.ty = id) ∧
      (r.findings.seen.map (·.1)).Nodup ∧
      (r.findings.seen.map (·.1)).Perm (r.findings.begun.map (·.ty)) ∧
      (∀ d ∈ r.findings.begun, ∀ x, r.types.shape? d.ty ≠ some (.pointer x)) ∧
      (∀ a b, r.types.strip a = r.types.strip b → r.lookup a = r.lookup b) ∧
      ∀ (g : Registration) (d : Declaration) (r' : Registry), g.Admissible r.types →
        r.perform g = .ok (d, r') → r'.lookup g.id = some d ∧
          ∀ r'', ReflTransGen Call r' r'' → ∃ d', r''.lookup g.id = some d' ∧ d'.plain = d.plain ∧
            ∀ g' : Registration, g'.Admissible r''.types →
              r''.types.strip g'.id = r''.types.strip g.id → r''.perform g' = .ok (d', r'') := by
  have hr := h.coherent
  refine ⟨hr.listed, hr.indexed.slot?_iff, ?_, ?_, fun d hd => (hr.declarable d hd).2, ?_, ?_⟩
  · rw [hr.indexed.keys]
    exact List.nodup_reverse.mpr hr.indexed.nodup
  · rw [hr.indexed.keys]
    exact List.reverse_perm _
  · intro a b hab
    rw [lookup, lookup, hab]
  · intro g d r' ha hg
    have he := enrolls_perform hr.backward hr.indexed ha hg
    exact ⟨by rw [lookup, he.types, he.lookup], fun r'' hcalls => found_after hr ha hg hcalls⟩

/-- A struct that holds a pointer to itself. -/
def linked : TypeSet :=
  let (node, types) := TypeSet.initial.declareAggregate "" "Node"
  let (next, types) := types.pointer node
  types.setMembers node [{ name := "Next", ty := next }]

theorem run_linked : TypeSet.initial.Run linked :=
  .tail (.tail (.single (.declareAggregate "" "Node")) (.pointer (by decide))) (.setMembers _ _)

theorem linked_is_declared_once :
    let r₀ : Registry := { types := linked, settings := {} }
    r₀.Reachable ∧ ∃ (d : Declaration) (r : Registry), r₀.perform (.addType ⟨8⟩ none) = .ok (d, r) ∧
      r.lookup ⟨8⟩ = some d ∧ r.lookup ⟨7⟩ = some d := by
  intro r₀
  have hstart : r₀.Reachable := ⟨r₀, rfl, run_linked, .refl⟩
  have hok : (r₀.perform (.addType ⟨8⟩ none)).toBool := by decide +kernel
  have hadmissible : Registration.Admissible linked (.addType ⟨8⟩ none) := trivial
  have hstrip : linked.strip ⟨7⟩ = linked.strip ⟨8⟩ := by decide +kernel
  cases h : r₀.perform (.addType ⟨8⟩ none) with
  | error f => simp [h, Except.toBool] at hok
  | ok answer =>
    obtain ⟨d, r⟩ := answer
    have hcall : r.Reachable := ⟨r₀, rfl, run_linked, .single (.register hadmissible h)⟩
    have htypes : r.types = linked :=
      (enrolls_perform hstart.coherent.backward hstart.coherent.indexed hadmissible h).types
    obtain ⟨-, -, -, -, -, -, hanswer⟩ := one_declaration_per_type hstart
    obtain ⟨-, -, -, -, -, hsame, -⟩ := one_declaration_per_type hcall
    obtain ⟨hl, -⟩ := hanswer (.addType ⟨8⟩ none) d r hadmissible h
    exact ⟨hstart, d, r, rfl, hl, (hsame ⟨7⟩ ⟨8⟩ (htypes ▸ hstrip)).trans hl⟩

end Registry

end TypeGraph

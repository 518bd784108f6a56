import TypeGraph.Proofs.Registry.Consistency
/-!
What stays of a registry. New declarations are listed behind those that are there, and of these
nothing changes but the indentation. A registration that fails leaves everything as it was.
-/

namespace TypeGraph

open Relation

namespace Registry

variable {r r' : Registry} {g : Registration} {d : Declaration} {f : Failure}

/-- What registrations keep of a registry, whether pointers are declared or not. -/
structure Tidy (r : Registry) : Prop where
  backward : r.types.Backward
  indexed : r.findings.Indexed
  listed : r.findings.order.Perm (List.range r.findings.begun.length)
  contained : ∀ d ∈ r.findings.begun, r.types.contains d.ty

/-- What stays of the declarations while calls go on, those that were begun and those that are
listed. -/
structure Appends (r r' : Registry) : Prop where
  begun : r.findings.begun.map (·.plain) <+: r'.findings.begun.map (·.plain)
  order : r.findings.order <+: r'.findings.order

namespace Appends

theorem refl (r : Registry) : r.Appends r :=
  ⟨List.prefix_refl _, List.prefix_refl _⟩

theorem trans {r'' : Registry} (h : r.Appends r') (k : r'.Appends r'') : r.Appends r'' :=
  ⟨h.begun.trans k.begun, h.order.trans k.order⟩

theorem extended {found : Findings} (h : r.findings.Extends found) :
    r.Appends { r with findings := found } :=
  ⟨h.begun.map _, h.order⟩

theorem indented (r : Registry) (unit : String) : r.Appends (r.indented unit) := by
  have hsame : (r.indented unit).findings.begun.map (·.plain) =
      r.findings.begun.map (·.plain) := by
    simp [Registry.indented, plain_indented]
  exact ⟨hsame ▸ List.prefix_refl _, List.prefix_refl _⟩

/-- The old list of declarations begins the new one. -/
theorem declarations (h : r.Appends r') (hr : r.Tidy) :
    r.declarations.map (·.plain) <+: r'.declarations.map (·.plain) := by
  have hplain (r : Registry) : r.declarations.map (·.plain) =
      r.findings.order.filterMap ((r.findings.begun.map (·.plain))[·]?) := by
    simp [Registry.declarations, Findings.declared, List.map_filterMap]
  obtain ⟨later, hlater⟩ := h.order
  have hold : r.findings.order.filterMap ((r'.findings.begun.map (·.plain))[·]?) =
      r.findings.order.filterMap ((r.findings.begun.map (·.plain))[·]?) := by
    apply List.filterMap_congr
    intro slot hslot
    have hlt : slot < (r.findings.begun.map (·.plain)).length := by
      simpa using hr.listed.mem_iff.mp hslot
    rw [List.getElem?_eq_getElem hlt]
    exact List.prefix_iff_getElem?.mp h.begun slot hlt
  rw [hplain r, hplain r', ← hlater, List.filterMap_append, hold]
  exact List.prefix_append _ _

end Appends

namespace Tidy

theorem empty (hfound : r.findings = {}) (hb : r.types.Backward) : r.Tidy :=
  ⟨hb, hfound ▸ .empty, by simp [hfound], by simp [hfound]⟩

theorem indented (h : r.Tidy) (unit : String) : (r.indented unit).Tidy := by
  refine ⟨h.backward, h.indexed.map fun d => rfl, ?_, ?_⟩
  · simpa [Registry.indented] using h.listed
  · intro e he
    obtain ⟨d, hd, rfl⟩ := List.mem_map.mp he
    exact h.contained d hd

theorem evolved {types : TypeSet} (h : r.Tidy) (hr : r.types.Run types) :
    Tidy { r with types } :=
  ⟨hr.backward h.backward, h.indexed, h.listed, fun d hd => hr.contains (h.contained d hd)⟩

/-- A walk from a type of the set leaves a registry tidy. -/
theorem walked {id : TypeId} {found : Findings} (h : r.Tidy) (hid : r.types.contains id)
    (hw : r.catalog.Walks (startsAt id) [] r.findings found) :
    Tidy { r with findings := found } := by
  have hlisted : Walk.Partitioned ⟨[], found⟩ :=
    Catalog.kept_of_run (fun _ _ hs hp => hs.partitioned hp) hw.run h.listed
  have hcontained : ∀ d ∈ found.begun, r.types.contains d.ty := by
    refine Catalog.kept_of_run (P := fun w => ∀ d ∈ w.found.begun, r.types.contains d.ty)
      ?_ hw.run h.contained
    intro u v hs hu
    apply hs.forall_begun (P := fun x => r.types.contains x) ?_ ?_ ?_ hu
    · intro x _ hx
      exact hx ▸ hid
    · intro x _ _ hx
      exact hx ▸ hid
    · intro owner x _ hl
      exact (Coherent.links_declarable hl).1
  exact ⟨h.backward, hw.indexed h.indexed, hlisted, hcontained⟩

/-- An attempt leaves a registry tidy and its types as they are, and keeps its declarations. -/
theorem attempted (h : r.Tidy) (g : Registration) :
    (r.attempt g).2.Tidy ∧ (r.attempt g).2.types = r.types ∧ r.Appends (r.attempt g).2 := by
  have hattempt := attempts h.backward h.indexed g
  generalize r.attempt g = result at hattempt
  cases hattempt with
  | unknown | known | unnamed | stray => exact ⟨h, rfl, .refl r⟩
  | declared hc hw =>
    exact ⟨h.walked (Registration.contains_target hc) hw, rfl, .extended hw.kept⟩

end Tidy

/-- What holds of a registry between two calls. -/
structure Orderly (r : Registry) : Prop extends Tidy r where
  bound : r.types.Bound

namespace Orderly

theorem indented (h : r.Orderly) (unit : String) : (r.indented unit).Orderly :=
  ⟨h.toTidy.indented unit, h.bound⟩

theorem evolved {types : TypeSet} (h : r.Orderly) (hr : r.types.Run types) :
    Orderly { r with types } :=
  ⟨h.toTidy.evolved hr, hr.bound h.bound⟩

theorem attempted (h : r.Orderly) (g : Registration) :
    (r.attempt g).2.Orderly ∧ r.Appends (r.attempt g).2 := by
  obtain ⟨ht, htypes, ha⟩ := h.toTidy.attempted g
  exact ⟨⟨ht, htypes ▸ h.bound⟩, ha⟩

end Orderly

/-- One call on a registry: a registration that may fail, another configuration, or a call that
only builds, indents or renders. A registration that comes upon a member whose type is not in the
set is no call. -/
inductive Change (r : Registry) : Registry → Prop
  | attempt (g : Registration) (h : ∀ x, (r.attempt g).1 ≠ .error (.dangling x)) :
      Change r (r.attempt g).2
  | configure (settings : Settings) (annex : Annex) (assembler : Assembler) :
      Change r { r with settings, annex, assembler }
  | call {r' : Registry} (h : r.Call r') : Change r r'

/-- What calls make of a registry that declares nothing. -/
def Grown (r : Registry) : Prop :=
  ∃ r₀ : Registry, r₀.findings = {} ∧ TypeSet.initial.Run r₀.types ∧ ReflTransGen Change r₀ r

theorem Call.appends (h : r.Call r') (hr : r.Orderly) : r'.Orderly ∧ r.Appends r' := by
  cases h with
  | @register g d _ _ h =>
    obtain rfl : (r.attempt g).2 = r' := congrArg Prod.snd (perform_eq_ok.mp h)
    exact hr.attempted g
  | finish => exact ⟨hr.indented _, .indented r _⟩
  | render => exact r.renderWith_snd _ ▸ ⟨hr.indented _, .indented r _⟩
  | renderWith a => exact r.renderWith_snd a ▸ ⟨hr.indented _, .indented r _⟩
  | renderTo limit => exact r.renderTo_snd limit ▸ ⟨hr.indented _, .indented r _⟩
  | setScope scope =>
    exact ⟨⟨⟨hr.backward, hr.indexed, hr.listed, hr.contained⟩, hr.bound⟩,
      ⟨List.prefix_refl _, List.prefix_refl _⟩⟩
  | types h => exact ⟨hr.evolved (.single h), ⟨List.prefix_refl _, List.prefix_refl _⟩⟩
  | build h =>
    obtain ⟨types, ht, rfl⟩ := build_eq_ok h
    exact ⟨hr.evolved (TypeSet.run_of hr.bound ht).1, ⟨List.prefix_refl _, List.prefix_refl _⟩⟩

theorem Change.appends (h : r.Change r') (hr : r.Orderly) : r'.Orderly ∧ r.Appends r' := by
  cases h with
  | attempt g => exact hr.attempted g
  | configure =>
    exact ⟨⟨⟨hr.backward, hr.indexed, hr.listed, hr.contained⟩, hr.bound⟩,
      ⟨List.prefix_refl _, List.prefix_refl _⟩⟩
  | call h => exact h.appends hr

theorem appends_of_changes (h : ReflTransGen Change r r') (hr : r.Orderly) :
    r'.Orderly ∧ r.Appends r' := by
  induction h with
  | refl => exact ⟨hr, .refl r⟩
  | tail _ hs ih =>
    obtain ⟨hr', ha⟩ := ih
    obtain ⟨hr'', ha'⟩ := hs.appends hr'
    exact ⟨hr'', ha.trans ha'⟩

theorem Grown.orderly (h : r.Grown) : r.Orderly := by
  obtain ⟨r₀, hfound, htypes, hchanges⟩ := h
  have hstart : r₀.Orderly := by
    refine ⟨.empty hfound (htypes.backward TypeSet.backward_initial), htypes.bound ?_⟩
    simp [TypeSet.Bound, TypeSet.initial]
  exact (appends_of_changes hchanges hstart).1

theorem Reachable.grown (h : r.Reachable) : r.Grown := by
  obtain ⟨r₀, hfound, htypes, hcalls⟩ := h
  exact ⟨r₀, hfound, htypes, ReflTransGen.mono (fun _ _ hs => .call hs) _ _ hcalls⟩

/-- A declared type is answered as it is, whatever name and package are given for it. -/
theorem perform_of_declared (hr : r.Orderly) (hd : d ∈ r.declarations)
    (hg : r.types.contains g.id) (ht : g.target r.types = d.ty) : r.perform g = .ok (d, r) := by
  obtain ⟨slot, -, hslot⟩ := List.mem_filterMap.mp hd
  have hl : r.findings.lookup (g.target r.types) = some d :=
    hr.indexed.lookup_eq_some.mpr ⟨slot, hslot, ht.symm⟩
  exact perform_of_lookup hg hl

/-- How a registration fails. -/
theorem failure_cases (hr : r.Orderly) (h : r.perform g = .error f) :
    (r.attempt g).2 = r ∧
      ((f = .unknownType g.id ∧ ¬r.types.contains g.id) ∨
        (f = .unnamedType (g.target r.types) ∧ r.types.contains g.id ∧
          r.findings.lookup (g.target r.types) = none ∧
          (r.types.get? (g.target r.types)).bind (·.name) = none ∧ g.name?.getD "" = "") ∨
        ∃ e, f = .dangling e.id ∧ r.catalog.Stray (g.target r.types) e) := by
  have hattempt := attempts hr.backward hr.indexed g
  have herror := perform_eq_error.mp h
  generalize r.attempt g = result at hattempt herror
  cases hattempt with
  | unknown hc =>
    obtain rfl := Except.error.inj herror
    exact ⟨rfl, .inl ⟨rfl, hc⟩⟩
  | known | declared => cases herror
  | unnamed hc hl hname hown =>
    obtain rfl := Except.error.inj herror
    exact ⟨rfl, .inr (.inl ⟨rfl, hc, hl, hown, hname⟩)⟩
  | stray hc hs =>
    obtain rfl := Except.error.inj herror
    exact ⟨rfl, .inr (.inr ⟨_, rfl, hs⟩)⟩

theorem perform_of_not_contains (h : ¬r.types.contains g.id) :
    r.perform g = .error (.unknownType g.id) := by
  rw [perform_eq_error, attempt_eq_register, if_neg h]

theorem perform_of_unnamed (hc : r.types.contains g.id)
    (hl : r.findings.lookup (g.target r.types) = none)
    (hown : (r.types.get? (g.target r.types)).bind (·.name) = none) (hname : g.name?.getD "" = "") :
    r.perform g = .error (.unnamedType (g.target r.types)) := by
  have hfilter : g.name?.filter (· ≠ "") = none := by
    cases hn : g.name? with
    | none => rfl
    | some name => simpa [hn] using hname
  have hroot : r.rootName (g.target r.types) g.name? =
      .error (.unnamedType (g.target r.types)) := by
    rw [rootName, hfilter, hown]
    rfl
  rw [perform_eq_error, attempt_eq_register, if_pos hc, register_of_unnamed hl hroot]

/-- Whatever calls follow, the declarations stay where they are listed and change in nothing but
their indentation, and other names and packages for their types are ignored. A registration fails
for an id outside the set, and for a type that is neither declared nor named; else only at the type
of a member that it comes upon outside the set. One that fails leaves the registry as it was. -/
theorem declarations_are_permanent (h : r.Grown) :
    (∀ r', ReflTransGen Change r r' →
      r.declarations.map (·.plain) <+: r'.declarations.map (·.plain) ∧
        ∀ d ∈ r.declarations, ∃ d' ∈ r'.declarations, d'.plain = d.plain ∧
          ∀ g : Registration, r'.types.contains g.id → g.target r'.types = d.ty →
            r'.perform g = .ok (d', r')) ∧
      ∀ g : Registration,
        (∀ x, r.perform g = .error (.unknownType x) ↔ x = g.id ∧ ¬r.types.contains g.id) ∧
        (∀ x, r.perform g = .error (.unnamedType x) ↔
          x = g.target r.types ∧ r.types.contains g.id ∧ r.findings.lookup x = none ∧
            (r.types.get? x).bind (·.name) = none ∧ g.name?.getD "" = "") ∧
        ∀ f, r.perform g = .error f → r.attempt g = (.error f, r) ∧
          ((∃ x, f = .unknownType x) ∨ (∃ x, f = .unnamedType x) ∨
            ∃ e, f = .dangling e.id ∧ r.catalog.Stray (g.target r.types) e) := by
  have hr := h.orderly
  refine ⟨?_, ?_⟩
  · intro r' hchanges
    obtain ⟨hr', ha⟩ := appends_of_changes hchanges hr
    have hpre := ha.declarations hr.toTidy
    refine ⟨hpre, ?_⟩
    intro d hd
    have hplain : d.plain ∈ r'.declarations.map (·.plain) :=
      hpre.subset (List.mem_map_of_mem hd)
    obtain ⟨d', hd', heq⟩ := List.mem_map.mp hplain
    have hty : d'.plain.ty = d.plain.ty := congrArg Declaration.ty heq
    exact ⟨d', hd', heq, fun g hg ht => perform_of_declared hr' hd' hg (ht.trans hty.symm)⟩
  · intro g
    refine ⟨?_, ?_, ?_⟩
    · intro x
      constructor
      · intro hx
        obtain ⟨-, ⟨heq, hc⟩ | ⟨heq, -⟩ | ⟨e, heq, -⟩⟩ := failure_cases hr hx <;> cases heq
        exact ⟨rfl, hc⟩
      · rintro ⟨rfl, hc⟩
        exact perform_of_not_contains hc
    · intro x
      constructor
      · intro hx
        obtain ⟨-, ⟨heq, -⟩ | ⟨heq, hunnamed⟩ | ⟨e, heq, -⟩⟩ := failure_cases hr hx <;> cases heq
        exact ⟨rfl, hunnamed⟩
      · rintro ⟨rfl, hc, hl, hown, hname⟩
        exact perform_of_unnamed hc hl hown hname
    · intro f hf
      obtain ⟨hsame, hcases⟩ := failure_cases hr hf
      have hattempt : r.attempt g = (.error f, r) := Prod.ext (perform_eq_error.mp hf) hsame
      refine ⟨hattempt, ?_⟩
      rcases hcases with ⟨heq, -⟩ | ⟨heq, -⟩ | hstray
      · exact .inl ⟨_, heq⟩
      · exact .inr (.inl ⟨_, heq⟩)
      · exact .inr (.inr hstray)

theorem linked_is_declared_for_good :
    let r₀ : Registry := { types := linked, settings := {} }
    let r := (r₀.attempt (.addType ⟨8⟩ (some "Chain"))).2
    r.Grown ∧ r.declarations.map (·.name) = ["Chain"] ∧
      (∃ d, r.perform (.addType ⟨7⟩ (some "Other")) = .ok (d, r) ∧ d.name = "Chain") ∧
      r.perform (.addType ⟨0⟩ none) = .error (.unnamedType ⟨0⟩) ∧
      r.perform (.addType ⟨9⟩ none) = .error (.unknownType ⟨9⟩) := by
  intro r₀ r
  have hok : (r₀.attempt (.addType ⟨8⟩ (some "Chain"))).1.toBool := by decide +kernel
  have hcall : Change r₀ r := by
    apply Change.attempt
    intro x hx
    simp [hx, Except.toBool] at hok
  have hgrown : r.Grown := ⟨r₀, rfl, run_linked, .single hcall⟩
  have hnames : r.declarations.map (·.name) = ["Chain"] ∧
      r.declarations.map (·.ty) = [⟨7⟩] := by decide +kernel
  obtain ⟨hkept, hfails⟩ := declarations_are_permanent hgrown
  obtain ⟨-, hdeclared⟩ := hkept r .refl
  obtain ⟨d, hd⟩ : ∃ d, r.declarations = [d] := List.length_eq_one_iff.mp (by decide +kernel)
  obtain ⟨hname, hty⟩ : d.name = "Chain" ∧ d.ty = ⟨7⟩ := by simpa [hd] using hnames
  obtain ⟨d', hd', -, hagain⟩ := hdeclared d (by simp [hd])
  obtain rfl : d' = d := by simpa [hd] using hd'
  have htarget : Registration.target r.types (.addType ⟨7⟩ (some "Other")) = d'.ty := by
    rw [hty]
    decide +kernel
  have hin : r.types.contains ⟨7⟩ ∧ r.types.contains ⟨0⟩ ∧ ¬r.types.contains ⟨9⟩ := by
    decide +kernel
  have hplain : Registration.target r.types (.addType ⟨0⟩ none) = ⟨0⟩ ∧
      r.findings.lookup ⟨0⟩ = none ∧ (r.types.get? ⟨0⟩).bind (·.name) = none := by
    decide +kernel
  refine ⟨hgrown, hnames.1, ⟨d', hagain _ hin.1 htarget, hname⟩, ?_, ?_⟩
  · apply ((hfails (.addType ⟨0⟩ none)).2.1 ⟨0⟩).mpr
    exact ⟨hplain.1.symm, hin.2.1, hplain.2.1, hplain.2.2, rfl⟩
  · apply ((hfails (.addType ⟨9⟩ none)).1 ⟨9⟩).mpr
    exact ⟨rfl, hin.2.2⟩

end Registry

end TypeGraph

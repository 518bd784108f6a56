import TypeGraph.Proofs.Registry.PostOrder
import TypeGraph.Proofs.Registry.Registration
import TypeGraph.Proofs.Schema.Passes
import TypeGraph.Schema.Schema
/-!
The registry of a schema. Its roots are always registered, what it declares is what its roots reach,
and referenced types are listed before their users, except inside a cycle.
-/

namespace TypeGraph

open Relation

namespace Schema

/-- What discovery sees of a schema. -/
def catalog (s : Schema) (settings : Settings) : Catalog where
  types := s.types
  settings := settings
  annex := .described

/-- Types of roots, but for those with a custom text. -/
def Wanted (c : Catalog) (roots : List Root) (id : TypeId) : Prop :=
  ∃ root ∈ roots, root.ty = id ∧ c.customText id = none

/-- Walks begin with the roots, each registered as what it is and under its own name. -/
def startsOf (c : Catalog) (roots : List Root) : Starts where
  aggregate id name := ∃ root ∈ roots, root.ty = id ∧ root.kind = .struct ∧
    c.customText id = none ∧ (c.types.get? id).bind (·.name) = some name
  enumeration id name? package? := ∃ root ∈ roots, root.ty = id ∧ root.kind = .enum ∧
    c.customText id = none ∧ (c.types.get? id).bind (·.name) = name? ∧ package? = none

variable {c : Catalog} {roots : List Root} {root : Root} {r : Registry}

theorem plainStarts_startsOf (hr : ∀ root ∈ roots, root.Typed c.types) :
    c.PlainStarts (startsOf c roots) := by
  intro id _ _ hstart x
  obtain ⟨root, hmem, rfl, hk, -⟩ := hstart
  obtain ⟨d, hd, -, hs⟩ := hr root hmem
  obtain ⟨kind, hs⟩ := hs hk
  exact Catalog.not_links_of_scalar hd hs

/-- Adding a root succeeds, keeps the catalog, and walks from the root unless it has a custom
text. -/
theorem exists_addRoot (ht : c.types.Proper) (hc : r.catalog = c) (hi : r.findings.Indexed)
    (hroot : root.Typed c.types) (hmem : root ∈ roots) :
    ∃ r', addRoot r root = .ok r' ∧ r'.catalog = c ∧
      c.Walks (startsOf c roots) [] r.findings r'.findings ∧
        (c.customText root.ty = none → (r'.findings.slot? root.ty).isSome) := by
  subst hc
  obtain ⟨d, hd, hn, -⟩ := hroot
  obtain ⟨name, hn⟩ := Option.isSome_iff_exists.mp hn
  have hget : r.types.get? root.ty = some d := hd
  have hin : r.types.contains root.ty := TypeSet.contains_of_get? hget
  have hstrip : r.types.strip root.ty = root.ty := by
    apply TypeSet.strip_of_not_pointer
    intro x hx
    obtain ⟨e, he, hs⟩ := TypeSet.shape?_eq_some.mp hx
    obtain rfl : d = e := by simpa [hget] using he
    simpa [hs, Shape.held] using ht.named _ d hd (by simp [hn])
  have hown : (r.types.get? root.ty).bind (·.name) = some name := by simp [hget, hn]
  have hname : r.rootName root.ty none = .ok name := by simp [Registry.rootName, hown]
  have hroot (n : String) (h : r.rootName root.ty none = .ok n) :
      (r.types.get? root.ty).bind (·.name) = some n := by
    obtain rfl : name = n := Except.ok.inj (hname.symm.trans h)
    exact hown
  have hslot {found : Findings} {e : Declaration} (hl : found.lookup root.ty = some e) :
      (found.slot? root.ty).isSome := by
    obtain ⟨slot, hs, -⟩ := Option.bind_eq_some_iff.mp hl
    simp [hs]
  unfold addRoot
  cases hcustom : r.catalog.customText root.ty with
  | some text => exact ⟨_, rfl, rfl, .note _ _, by simp⟩
  | none =>
    cases hk : root.kind with
    | struct =>
      obtain ⟨e, r', hreg⟩ := Registry.exists_registerAggregate ht.backward ht.closed hi hin hname
      have hstart (n : String) (hn : r.rootName root.ty none = .ok n) :
          (startsOf r.catalog roots).aggregate root.ty n :=
        ⟨root, hmem, rfl, hk, hcustom, hroot n hn⟩
      have he := Registry.enrolls_registerAggregate ht.backward hi hstart hreg
      refine ⟨r', ?_, he.catalog, he.walks, fun _ => hslot he.lookup⟩
      simp [Registry.addType, hin, hstrip, hreg, Registry.settled, Except.map]
    | enum =>
      obtain ⟨e, r', hreg⟩ := Registry.exists_registerEnumeration hi hin hname
      have hstart (n : String) (hn : r.rootName root.ty none = .ok n) :
          (startsOf r.catalog roots).enumeration root.ty (some n) none :=
        ⟨root, hmem, rfl, hk, hcustom, hroot n hn, rfl⟩
      have he := Registry.enrolls_registerEnumeration hstart hreg
      refine ⟨r', ?_, he.catalog, he.walks, fun _ => hslot he.lookup⟩
      simp [Registry.addEnumeration, hin, hstrip, hreg, Registry.settled, Except.map]

/-- Roots are added one after another without failure; all but those with a custom text get a
slot. -/
theorem exists_addRoots (ht : c.types.Proper) (hr : ∀ root ∈ roots, root.Typed c.types)
    {rest : List Root} (hrest : ∀ root ∈ rest, root ∈ roots) (hc : r.catalog = c)
    (hi : r.findings.Indexed) :
    ∃ r', rest.foldlM addRoot r = .ok r' ∧ r'.catalog = c ∧
      c.Walks (startsOf c roots) [] r.findings r'.findings ∧
        ∀ root ∈ rest, c.customText root.ty = none → (r'.findings.slot? root.ty).isSome := by
  induction rest generalizing r with
  | nil => exact ⟨r, rfl, hc, .refl _, by simp⟩
  | cons root rest ih =>
    have hmem := hrest root (by simp)
    obtain ⟨r₁, h₁, hc₁, hw₁, hs₁⟩ := exists_addRoot ht hc hi (hr root hmem) hmem
    obtain ⟨r₂, h₂, hc₂, hw₂, hs₂⟩ := ih (fun root hm => hrest root (List.mem_cons_of_mem _ hm)) hc₁
      (hw₁.indexed hi)
    refine ⟨r₂, ?_, hc₂, hw₁.trans hw₂, ?_⟩
    · rw [List.foldlM_cons, h₁]
      exact h₂
    · intro other hother hcustom
      rcases List.mem_cons.mp hother with rfl | hother
      · exact hw₂.kept.isSome_slot? (hs₁ hcustom)
      · exact hs₂ other hother hcustom

/-- What is known of a registry for roots of a schema. -/
structure Covers (c : Catalog) (roots : List Root) (r : Registry) : Prop where
  catalog : r.catalog = c
  kept : c.Kept ⟨[], r.findings⟩
  declared : ∀ id, id ∈ r.declarations.map (·.ty) ↔ c.Reached (Wanted c roots) id

theorem covers_of_walks (hr : ∀ root ∈ roots, root.Typed c.types)
    (hc : r.catalog = c) (hw : c.Walks (startsOf c roots) [] {} r.findings)
    (hs : ∀ root ∈ roots, c.customText root.ty = none → (r.findings.slot? root.ty).isSome) :
    Covers c roots r := by
  have hkept : c.Kept ⟨[], r.findings⟩ :=
    Catalog.kept_of_run (fun _ _ hstep => hstep.kept (plainStarts_startsOf hr)) hw.run c.kept_empty
  have hreached : ∀ d ∈ r.findings.begun, c.Reached (Wanted c roots) d.ty := by
    refine Catalog.kept_of_run
      (P := fun w => ∀ d ∈ w.found.begun, c.Reached (Wanted c roots) d.ty)
      (fun _ _ hstep => hstep.forall_begun ?_ ?_ fun _ _ => .link) hw.run (by simp)
    · intro id _ hstart
      obtain ⟨root, hmem, hty, -, hcustom, -⟩ := hstart
      exact .start ⟨root, hmem, hty, hcustom⟩
    · intro id _ _ hstart
      obtain ⟨root, hmem, hty, -, hcustom, -⟩ := hstart
      exact .start ⟨root, hmem, hty, hcustom⟩
  refine ⟨hc, hkept, fun id => ⟨?_, ?_⟩⟩
  · intro hid
    obtain ⟨d, hd, rfl⟩ := List.mem_map.mp hid
    exact hreached d (Findings.mem_begun_of_declared hd)
  · intro hid
    induction hid with
    | start h =>
      obtain ⟨root, hmem, rfl, hcustom⟩ := h
      exact (Catalog.mem_declared_iff hkept).mpr (hs root hmem hcustom)
    | link _ hx ih =>
      have hlisted : (Walk.mk [] r.findings).trail.listed = r.declarations.map (·.ty) :=
        Findings.types_order _
      rcases hkept.postOrdered.settled _ (hlisted ▸ ih) _ hx with h | ⟨h, -⟩
      · exact hlisted ▸ h
      · simp [Walk.trail, Findings.types] at h

/-- A valid schema gives a registry for any of its roots. -/
theorem exists_registryFor {s : Schema} (settings : Settings) (ht : s.types.Proper)
    (hr : ∀ root ∈ s.roots, root.Typed s.types) (hvalid : s.isValid)
    (hroots : ∀ root ∈ roots, root ∈ s.roots) :
    ∃ r, s.registryFor settings roots = .ok r ∧ Covers (s.catalog settings) roots r := by
  have hr' : ∀ root ∈ roots, root.Typed s.types := fun root hm => hr root (hroots root hm)
  obtain ⟨r, h, hc, hw, hs⟩ := exists_addRoots (c := s.catalog settings)
    (r := { types := s.types, settings }) ht hr' (fun _ hm => hm) rfl .empty
  exact ⟨r, by rw [registryFor, if_pos hvalid, h], covers_of_walks hr' hc hw hs⟩

theorem ofSources_sound (sources : List Source) :
    (ofSources sources).types.Proper ∧
      ∀ root ∈ (ofSources sources).roots, root.Typed (ofSources sources).types :=
  ⟨(sound_load _ _).types, (sound_load _ _).roots⟩

/-- The types declared for roots of a valid schema are exactly those that the roots reach, so none
of them has a custom text, and the order of the roots does not matter. -/
theorem declared_iff_reached (sources : List Source) (settings : Settings) (roots : List Root)
    (hvalid : (ofSources sources).isValid)
    (hroots : ∀ root ∈ roots, root ∈ (ofSources sources).roots) :
    let c := (ofSources sources).catalog settings
    ∃ r, (ofSources sources).registryFor settings roots = .ok r ∧
      (∀ id, id ∈ r.declarations.map (·.ty) ↔ c.Reached (Wanted c roots) id) ∧
      (∀ d ∈ r.declarations, c.customText d.ty = none) ∧
      ∀ roots' : List Root, (∀ root, root ∈ roots' ↔ root ∈ roots) →
        ∃ r', (ofSources sources).registryFor settings roots' = .ok r' ∧
          ∀ id, id ∈ r'.declarations.map (·.ty) ↔ id ∈ r.declarations.map (·.ty) := by
  intro c
  obtain ⟨ht, hr⟩ := ofSources_sound sources
  obtain ⟨r, h, hcovers⟩ := exists_registryFor settings ht hr hvalid hroots
  refine ⟨r, h, hcovers.declared, ?_, ?_⟩
  · intro d hd
    have hreached := (hcovers.declared d.ty).mp (List.mem_map_of_mem hd)
    cases hreached with
    | start h => exact h.choose_spec.2.2
    | link _ hx => exact hx.choose_spec.target.1
  · intro roots' hsame
    obtain ⟨r', h', hcovers'⟩ := exists_registryFor settings ht hr hvalid
      (fun root hm => hroots root ((hsame root).mp hm))
    have hwanted : Wanted c roots' = Wanted c roots := by
      funext id
      simp [Wanted, hsame]
    refine ⟨r', h', ?_⟩
    intro id
    rw [hcovers'.declared, hcovers.declared, ← hwanted]

/-- A node that leads to the next one, and has a kind. -/
def nodes : List Source :=
  [⟨.inline, "struct Node \x7b Next: *Node, Kind: Kind \x7d enum Kind: int \x7b Leaf = 1 \x7d"⟩]

theorem node_is_declared :
    (ofSources nodes).isValid ∧ ∃ r, (ofSources nodes).registryFor {} [⟨⟨7⟩, .struct⟩] = .ok r ∧
      ⟨7⟩ ∈ r.declarations.map (·.ty) := by
  have hvalid : (ofSources nodes).isValid := by decide +kernel
  have hroots : ∀ root ∈ [(⟨⟨7⟩, .struct⟩ : Root)], root ∈ (ofSources nodes).roots := by
    decide +kernel
  have hcustom : ((ofSources nodes).catalog {}).customText ⟨7⟩ = none := by decide +kernel
  obtain ⟨r, h, hdeclared, -⟩ := declared_iff_reached nodes {} _ hvalid hroots
  exact ⟨hvalid, r, h, (hdeclared _).mpr (.start ⟨_, List.mem_singleton_self _, rfl, hcustom⟩)⟩

/-- Walking the members of the first declared type reaches the second. -/
def Refers (r : Registry) (x y : TypeId) : Prop :=
  x ∈ r.declarations.map (·.ty) ∧ y ∈ r.declarations.map (·.ty) ∧ r.catalog.Links x y

/-- What a declared type leads to is declared, and so is all between them. -/
theorem refers_of_links (h : Covers c roots r) {x y : TypeId}
    (hx : x ∈ r.declarations.map (·.ty)) (hpath : TransGen c.Links x y) :
    y ∈ r.declarations.map (·.ty) ∧ TransGen (Refers r) x y := by
  have hnext {u v : TypeId} (hu : u ∈ r.declarations.map (·.ty)) (hl : c.Links u v) :
      v ∈ r.declarations.map (·.ty) ∧ Refers r u v := by
    have hv := (h.declared v).mpr (.link ((h.declared u).mp hu) hl)
    exact ⟨hv, hu, hv, h.catalog ▸ hl⟩
  induction hpath with
  | single hl =>
    obtain ⟨hy, hr⟩ := hnext hx hl
    exact ⟨hy, .single hr⟩
  | tail _ hl ih =>
    obtain ⟨hy, hr⟩ := hnext ih.1 hl
    exact ⟨hy, ih.2.tail hr⟩

/-- A type that is listed after one that refers to it leads back to it. -/
theorem Covers.leads_back (h : Covers c roots r) {i j : Nat} {d e : Declaration}
    (hi : r.declarations[i]? = some d) (hj : r.declarations[j]? = some e)
    (href : Refers r d.ty e.ty) (hlt : i < j) : TransGen (Refers r) e.ty d.ty := by
  have hordered : r.declarations.Pairwise fun d e =>
      c.Links d.ty e.ty → TransGen c.Links e.ty d.ty := by
    have hlisted := h.kept.postOrdered.ordered
    rw [Walk.trail, Findings.types_order] at hlisted
    exact List.pairwise_map.mp hlisted
  obtain ⟨hi', rfl⟩ := List.getElem?_eq_some_iff.mp hi
  obtain ⟨hj', rfl⟩ := List.getElem?_eq_some_iff.mp hj
  have hback := List.pairwise_iff_getElem.mp hordered i j hi' hj' hlt
  exact (refers_of_links h href.2.1 (hback (h.catalog ▸ href.2.2))).2

/-- A type listed after one that refers to it leads back to it; where no declared type leads back to
itself, every type is listed after all that it refers to. -/
theorem referenced_before_user (sources : List Source) (settings : Settings) (roots : List Root)
    (hvalid : (ofSources sources).isValid)
    (hroots : ∀ root ∈ roots, root ∈ (ofSources sources).roots) :
    ∃ r, (ofSources sources).registryFor settings roots = .ok r ∧
      (∀ (i j : Nat) (d e : Declaration), r.declarations[i]? = some d →
        r.declarations[j]? = some e → Refers r d.ty e.ty → i < j →
          TransGen (Refers r) e.ty d.ty) ∧
      ((∀ x, ¬TransGen (Refers r) x x) →
        ∀ (i j : Nat) (d e : Declaration), r.declarations[i]? = some d →
          r.declarations[j]? = some e → Refers r d.ty e.ty → j < i) := by
  obtain ⟨ht, hr⟩ := ofSources_sound sources
  obtain ⟨r, h, hcovers⟩ := exists_registryFor settings ht hr hvalid hroots
  refine ⟨r, h, fun i j d e hi hj href hlt => hcovers.leads_back hi hj href hlt, ?_⟩
  intro hacyclic i j d e hi hj href
  rcases Nat.lt_trichotomy j i with hlt | rfl | hlt
  · exact hlt
  · obtain rfl : d = e := Option.some.inj (hi.symm.trans hj)
    exact absurd (.single href) (hacyclic d.ty)
  · exact absurd (.tail (hcovers.leads_back hi hj href hlt) href) (hacyclic e.ty)

theorem users_of_nodes_lead_back :
    (ofSources nodes).isValid ∧
      ∃ r, (ofSources nodes).registryFor {} (ofSources nodes).roots = .ok r ∧
        ∀ (i j : Nat) (d e : Declaration), r.declarations[i]? = some d →
          r.declarations[j]? = some e → Refers r d.ty e.ty → i < j →
            TransGen (Refers r) e.ty d.ty := by
  have hvalid : (ofSources nodes).isValid := by decide +kernel
  obtain ⟨r, h, hback, -⟩ := referenced_before_user nodes {} _ hvalid fun _ hroot => hroot
  exact ⟨hvalid, r, h, hback⟩

end Schema

end TypeGraph

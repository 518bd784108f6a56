import TypeGraph.Proofs.Registry.Portrait
import TypeGraph.Proofs.Schema.Discovery
import TypeGraph.Proofs.Schema.Faithful
import TypeGraph.Proofs.Schema.Filtering
import TypeGraph.Proofs.Schema.Rounds
/-!
Whatever the sources say, loading ends with a type set that can be used. A valid schema gives a
registry that declares its roots as they are defined; any other is refused with its errors.
-/

namespace TypeGraph

namespace Schema

variable {s : Schema} {files : List File} {types : TypeSet} {roots : List Root} {root : Root}

/-- A root has the type that its definition describes: a struct, or a scalar with the variants of an
enum. -/
inductive Root.Defined (files : List File) (types : TypeSet) (root : Root) (desc : Description) : Prop
  | struct {struct : StructDef} {ms : List Member}
      (hdef : ⟨desc.package, .struct struct⟩ ∈ definitions files) (hkind : root.kind = .struct)
      (hget : types.get? root.ty = some desc) (hname : desc.name = some struct.name.text)
      (hs : desc.shape = .aggregate ms) : Defined files types root desc
  | enum {enum : EnumDef} {kind : Scalar}
      (hdef : ⟨desc.package, .enum enum⟩ ∈ definitions files) (hkind : root.kind = .enum)
      (hget : types.get? root.ty = some desc) (hname : desc.name = some enum.name.text)
      (hs : desc.shape = .scalar kind) (hc : desc.constants = enum.variants.map (·.constant)) :
      Defined files types root desc

theorem isType_of_rootKind? {d : Definition} {kind : RootKind} (h : d.rootKind? = some kind) :
    d.isType := by
  obtain ⟨package, item⟩ := d
  cases item with
  | struct d | enum d => rfl
  | synonym d => cases h

theorem Faithful.exists_defined (h : Faithful files types roots) (hroot : root ∈ roots) :
    ∃ desc, root.Defined files types desc := by
  have hmem : (types.key? root.ty, root.kind) ∈
      (definitions files).filterMap fun d => d.rootKind?.map (some d.key, ·) := by
    rw [← h.roots]
    exact List.mem_map_of_mem hroot
  obtain ⟨d, hd, heq⟩ := List.mem_filterMap.mp hmem
  obtain ⟨kind, hkind, hpair⟩ := Option.map_eq_some_iff.mp heq
  obtain ⟨hkey, rfl⟩ := Prod.mk.inj hpair
  obtain ⟨id, desc, hid, hget, hportrays⟩ := h.portrayed d hd (isType_of_rootKind? hkind)
  -- the keys of types differ, so this is the type of the root
  have hsame : id = root.ty := by
    have hl := TypeSet.lookup_of_key? h.nodup hid
    have hl' := TypeSet.lookup_of_key? h.nodup hkey.symm
    exact Option.some.inj (hl.symm.trans hl')
  subst hsame
  have hdesc : desc.key? = some d.key := by simpa [TypeSet.key?, hget] using hid
  obtain ⟨name, hname, hpair⟩ := Option.map_eq_some_iff.mp hdesc
  obtain ⟨hpackage, rfl⟩ := Prod.mk.inj hpair
  obtain ⟨package, item⟩ := d
  obtain rfl : desc.package = package := hpackage
  refine ⟨desc, ?_⟩
  cases hportrays with
  | @struct struct ms hi hs =>
    obtain rfl : item = .struct struct := hi
    exact .struct hd (Option.some.inj hkind).symm hget hname hs
  | @enum enum kind hi hk hs hdoc hc =>
    obtain rfl : item = .enum enum := hi
    have hkind : (if enum.variants = [] then none else some RootKind.enum) = some root.kind := hkind
    by_cases hempty : enum.variants = []
    · rw [if_pos hempty] at hkind
      cases hkind
    · rw [if_neg hempty] at hkind
      exact .enum hd (Option.some.inj hkind).symm hget hname hs hc
  | @synonym synonym hi =>
    obtain rfl : item = .synonym synonym := hi
    cases hkind

variable {settings : Settings} {desc : Description} {d : Declaration}

theorem ownStarts_startsOf (h : ∀ root ∈ roots, ∃ desc, root.Defined s.files s.types desc) :
    (s.catalog settings).OwnStarts (startsOf (s.catalog settings) roots) := by
  constructor
  · intro id name hstart
    obtain ⟨root, hroot, rfl, hstruct, -, hname⟩ := hstart
    obtain ⟨own, ho, hown⟩ := Option.bind_eq_some_iff.mp hname
    obtain ⟨desc, hdefined⟩ := h root hroot
    cases hdefined with
    | struct hdef hkind hget hn hs =>
      obtain rfl : own = desc := Option.some.inj (ho.symm.trans hget)
      exact ⟨own, ho, Description.isAggregate_iff.mpr ⟨_, hs⟩, hown⟩
    | enum hdef hkind =>
      rw [hstruct] at hkind
      cases hkind
  · intro id name? package? hstart
    obtain ⟨root, hroot, rfl, henum, -, hname, hpackage⟩ := hstart
    obtain ⟨desc, hdefined⟩ := h root hroot
    cases hdefined with
    | struct hdef hkind =>
      rw [henum] at hkind
      cases hkind
    | @enum enum kind hdef hkind hget hn hs =>
      have ho : (s.catalog settings).types.get? root.ty = some desc := hget
      rw [ho, Option.bind_some] at hname
      exact ⟨hpackage, desc, kind, ho, hs, hname⟩

/-- Any roots of a valid schema give a registry, made by a walk from structs and scalars under their
own names. -/
theorem exists_walk {sources : List Source} (hvalid : (ofSources sources).isValid)
    (settings : Settings) (hroots : ∀ root ∈ roots, root ∈ (ofSources sources).roots) :
    let s := ofSources sources
    let c := s.catalog settings
    ∃ r, s.registryFor settings roots = .ok r ∧ Covers c roots r ∧
      c.Walks (startsOf c roots) [] {} r.findings ∧ c.OwnStarts (startsOf c roots) := by
  intro s c
  obtain ⟨hwf, hwhole⟩ := wellFormed_of_isValid hvalid
  have hfaithful : Faithful s.files s.types s.roots := faithful_load hwf hwhole _
  have hdefined : ∀ root ∈ roots, ∃ desc, root.Defined s.files s.types desc :=
    fun root hroot => hfaithful.exists_defined (hroots root hroot)
  obtain ⟨hproper, htyped⟩ := ofSources_sound sources
  have htyped : ∀ root ∈ roots, root.Typed s.types :=
    fun root hroot => htyped root (hroots root hroot)
  let r₀ : Registry := { types := s.types, settings }
  obtain ⟨r, hadded, hcatalog, hwalks, hslots⟩ :=
    exists_addRoots (c := c) (r := r₀) hproper htyped (fun _ hroot => hroot) rfl .empty
  exact ⟨r, by rw [registryFor, if_pos hvalid]; exact hadded,
    covers_of_walks htyped hcatalog hwalks hslots, hwalks, ownStarts_startsOf hdefined⟩

end Schema

end TypeGraph

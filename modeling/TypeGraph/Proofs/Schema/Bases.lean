import TypeGraph.Proofs.Registry.Bodies
import TypeGraph.Proofs.Schema.Usable
/-!
What the names of bases stand for. Where embedded structs are declared, each is the name of an
interface of the same registry, even if the structs embed each other. Embedded structs with a custom
text are not declared, and their own names are listed.
-/

namespace TypeGraph

namespace Catalog

variable {c : Catalog} {starts : Starts} {found : Findings} {d : Declaration} {base : String}

/-- The struct `owner` embeds the struct `target`. -/
def Embeds (c : Catalog) (owner target : TypeId) : Prop :=
  ∃ own m e, c.types.get? owner = some own ∧ m ∈ own.members ∧ m.skip = false ∧ m.embedded ∧
    c.types.strip m.ty = target ∧ c.types.get? target = some e ∧ e.isAggregate

/-- A name of a base of the struct `owner`: that of an interface among the declarations, or the own
name of an embedded struct with a custom text. -/
inductive BaseOf (c : Catalog) (ds : List Declaration) (owner : TypeId) (base : String) : Prop
  | interface {target : TypeId} {b : Declaration} (he : c.Embeds owner target)
      (hc : c.customText target = none) (hb : b ∈ ds) (ht : b.ty = target)
      (hi : b.isEnumeration = false) (hn : b.name = base) : BaseOf c ds owner base
  | custom {target : TypeId} {text : String} (he : c.Embeds owner target)
      (hc : c.customText target = some text)
      (hn : (c.types.get? target).bind (·.name) = some base) : BaseOf c ds owner base

theorem OwnStarts.fitting (h : c.OwnStarts starts) : c.FittingStarts starts := by
  constructor
  · intro id name hstart
    obtain ⟨own, ho, ha, -⟩ := h.aggregate id name hstart
    exact ⟨own, ho, ha⟩
  · intro id name? package? hstart
    obtain ⟨-, own, kind, ho, hs, -⟩ := h.enumeration id name? package? hstart
    exact ⟨own, kind, ho, hs⟩

theorem exists_name_of_customText {id : TypeId} {text : String} (h : c.customText id = some text) :
    ∃ name, (c.types.get? id).bind (·.name) = some name := by
  obtain ⟨qualified, hq, -⟩ := Option.bind_eq_some_iff.mp h
  obtain ⟨own, ho, hq⟩ := Option.bind_eq_some_iff.mp hq
  obtain ⟨name, hname, -⟩ := Option.map_eq_some_iff.mp hq
  exact ⟨name, by rw [ho, Option.bind_some, hname]⟩

/-- When the walk is over, the bases of what was drawn are declared. -/
theorem Drawn.baseOf (h : c.Drawn found d) (hkept : c.Kept ⟨[], found⟩)
    (hdrawn : ∀ d ∈ found.begun, c.Drawn found d) (hembedded : c.settings.declareEmbedded)
    (hbase : base ∈ d.inherited) : c.BaseOf found.declared d.ty base := by
  cases h with
  | opened ho ha hb => simp [Declaration.inherited, hb] at hbase
  | enumeration ho hs he => simp [Declaration.inherited_of_isEnumeration he] at hbase
  | @interface own ho ha hs hb =>
    rw [Declaration.inherited, hb] at hbase
    obtain ⟨m, hm, hskip, hem, ⟨e, hg, hae⟩, hname⟩ := mem_basesOf hbase
    have hembeds : c.Embeds d.ty (c.types.strip m.ty) :=
      ⟨own, m, e, ho, hm, hskip, hem, rfl, hg, hae⟩
    rw [baseName] at hname
    cases hc : c.customText (c.types.strip m.ty) with
    | some text =>
      obtain ⟨n, hn⟩ := exists_name_of_customText hc
      obtain rfl : base = n := by simpa [hc, hn] using hname
      exact .custom hembeds hc hn
    | none =>
      have hlinks : c.Links d.ty (c.types.strip m.ty) :=
        ⟨m, .base ho hm hskip hem hg hae hembedded hc⟩
      obtain ⟨slot, hslot⟩ := Option.isSome_iff_exists.mp (hs _ hlinks)
      obtain ⟨b, hb, hty⟩ := (hkept.indexed.slot?_iff _ _).mp hslot
      have hlookup : found.lookup (c.types.strip m.ty) = some b :=
        hkept.indexed.lookup_eq_some.mpr ⟨slot, hb, hty⟩
      obtain rfl : base = b.name := by simpa [hembedded, hc, hlookup] using hname
      have hbegun : b ∈ found.begun := List.mem_of_getElem? hb
      exact .interface hembeds hc (mem_declared_of_begun hkept hbegun) hty
        ((hdrawn b hbegun).isEnumeration_eq_false (hty ▸ hg) hae) rfl

end Catalog

namespace Schema

/-- Where embedded structs are declared, every base that a registry of a valid schema lists is the
name of one of its interfaces, or else the own name of an embedded struct with a custom text. -/
theorem bases_are_declared (sources : List Source) (settings : Settings) (roots : List Root)
    (hvalid : (ofSources sources).isValid) (hembedded : settings.declareEmbedded)
    (hroots : ∀ root ∈ roots, root ∈ (ofSources sources).roots) :
    let c := (ofSources sources).catalog settings
    ∃ r, (ofSources sources).registryFor settings roots = .ok r ∧
      (∀ d ∈ r.declarations, ∀ base ∈ d.inherited, c.BaseOf r.declarations d.ty base) ∧
      ((∀ d ∈ r.declarations, ∀ target, c.Embeds d.ty target → c.customText target = none) →
        ∀ d ∈ r.declarations, ∀ base ∈ d.inherited,
          ∃ b ∈ r.declarations, b.isEnumeration = false ∧ b.name = base) := by
  intro c
  obtain ⟨r, hr, -, hwalks, hstarts⟩ := exists_walk hvalid settings hroots
  obtain ⟨hkept, hdrawn⟩ := hwalks.drawn hstarts.fitting
  have hbases : ∀ d ∈ r.declarations, ∀ base ∈ d.inherited, c.BaseOf r.declarations d.ty base :=
    fun d hd base hbase =>
      (hdrawn d (Findings.mem_begun_of_declared hd)).baseOf hkept hdrawn hembedded hbase
  refine ⟨r, hr, hbases, ?_⟩
  intro hplain d hd base hbase
  cases hbases d hd base hbase with
  | interface he hc hb ht hi hn => exact ⟨_, hb, hi, hn⟩
  | custom he hc hn => simp [hplain d hd _ he] at hc

/-- A struct that embeds another one. -/
def derived : List Source :=
  [⟨.inline,
    "package models struct Base \x7b ID: int \x7d struct User \x7b ..Base Name: string \x7d"⟩]

theorem derived_has_its_base :
    (ofSources derived).isValid ∧ ∃ r, (ofSources derived).registry {} = .ok r ∧
      ∃ d ∈ r.declarations, "Base" ∈ d.inherited ∧
        ((ofSources derived).catalog {}).BaseOf r.declarations d.ty "Base" := by
  have hshown : (ofSources derived).isValid ∧ ((ofSources derived).registry {}).toOption.any
      fun r => r.declarations.any fun d => d.inherited.contains "Base" := by
    decide +kernel
  obtain ⟨hvalid, hshown⟩ := hshown
  obtain ⟨r, hr, hbases, -⟩ := bases_are_declared derived {} (ofSources derived).roots hvalid rfl
    fun _ hroot => hroot
  have hregistry : (ofSources derived).registry {} = .ok r := hr
  rw [hregistry] at hshown
  obtain ⟨d, hd, hbase⟩ : ∃ d ∈ r.declarations, "Base" ∈ d.inherited := by
    simpa [Except.toOption] using hshown
  exact ⟨hvalid, r, hr, d, hd, hbase, hbases d hd "Base" hbase⟩

/-- With a text for the embedded struct, its own name is listed all the same. It is neither the name
of a declaration nor the text. -/
theorem mapped_base_is_missing :
    let s := ofSources derived
    let settings : Settings := { custom := [("models.Base", "BaseDto")] }
    s.isValid ∧ settings.declareEmbedded ∧ ∃ r, s.registryFor settings s.roots = .ok r ∧
      r.declarations.map (·.name) = ["User"] ∧ r.declarations.map (·.inherited) = [["Base"]] ∧
      r.types.qualifiedName ⟨7⟩ = some "models.Base" ∧
      r.catalog.customText ⟨7⟩ = some "BaseDto" := by
  intro s settings
  have hshown : s.isValid ∧ (s.registryFor settings s.roots).toOption.any fun r =>
      r.declarations.map (·.name) = ["User"] ∧ r.declarations.map (·.inherited) = [["Base"]] ∧
      r.types.qualifiedName ⟨7⟩ = some "models.Base" ∧
      r.catalog.customText ⟨7⟩ = some "BaseDto" := by
    decide +kernel
  obtain ⟨hvalid, hshown⟩ := hshown
  obtain ⟨r, hr, hshown⟩ := Catalog.exists_eq_ok hshown
  exact ⟨hvalid, rfl, r, hr, of_decide_eq_true hshown⟩

end Schema

end TypeGraph

import TypeGraph.Proofs.Registry.Coverage
/-!
What a listed declaration shows of its type: its name and package if it has a name, the fields of all
its members if it is a struct, all its constants if it is a scalar. This holds of walks that begin
with types under their own names.
-/

namespace TypeGraph

/-- A declaration goes by the name of its type, if the type has one. -/
def Description.Titles (own : Description) (d : Declaration) : Prop :=
  ∀ name, own.name = some name → d.name = name ∧ d.provenance = ⟨own.package, name⟩

namespace Catalog

/-- A declaration shows its type: a struct as an interface, a scalar as an enumeration. -/
inductive Shows (c : Catalog) (d : Declaration) : Prop
  | interface {own : Description} {ms : List Member} {bases : List String}
      (ho : c.types.get? d.ty = some own) (hs : own.shape = .aggregate ms) (ht : own.Titles d)
      (hb : d.body = .interface (c.fieldsOf d.name ms) bases) : Shows c d
  | enumeration {own : Description} {kind : Scalar} (ho : c.types.get? d.ty = some own)
      (hs : own.shape = .scalar kind) (ht : own.Titles d)
      (hb : d.body = .enumeration ((c.annex.constants c.types d.ty).map EnumMember.ofConstant)) :
      Shows c d

/-- Walks begin with structs and scalars, each under its own name. -/
structure OwnStarts (c : Catalog) (starts : Starts) : Prop where
  aggregate : ∀ id name, starts.aggregate id name →
    ∃ own, c.types.get? id = some own ∧ own.isAggregate ∧ own.name = some name
  enumeration : ∀ id name? package?, starts.enumeration id name? package? → package? = none ∧
    ∃ own kind, c.types.get? id = some own ∧ own.shape = .scalar kind ∧ own.name = name?

variable {c : Catalog} {starts : Starts} {w w' : Walk} {id : TypeId} {own : Description}
variable {name : String} {name? package? : Option String}

theorem titles_interface (ho : c.types.get? id = some own)
    (hname : ∀ n, own.name = some n → n = name) : own.Titles (c.interface id name) := by
  intro n hn
  have hprovenance : c.provenance id name none = ⟨own.package, n⟩ := by
    simp [provenance, ho, hn]
  exact ⟨(hname n hn).symm, hprovenance⟩

theorem titles_enumeration (ho : c.types.get? id = some own)
    (hname : name? = none ∨ name? = own.name) : own.Titles (c.enumeration id name? none) := by
  intro n hn
  have htitle : (c.enumeration id name? none).name = n := by
    rcases hname with rfl | rfl
    · simp [enumeration, ho, hn]
    · by_cases hempty : n = "" <;> simp [enumeration, ho, hn, Option.filter, hempty]
  have hprovenance : (c.enumeration id name? none).provenance = ⟨own.package, n⟩ := by
    simp [enumeration, provenance, ho, hn]
  exact ⟨htitle, hprovenance⟩

/-- A struct that the walk may enter next is entered under its own name, if it has one. -/
theorem Meets.named (hstarts : c.OwnStarts starts) (h : c.Meets starts w id name) :
    ∃ own, c.types.get? id = some own ∧ own.isAggregate ∧ ∀ n, own.name = some n → n = name := by
  cases h with
  | start hstart =>
    obtain ⟨own, ho, ha, hname⟩ := hstarts.aggregate id name hstart
    refine ⟨own, ho, ha, ?_⟩
    intro n hn
    exact Option.some.inj (hn.symm.trans hname)
  | @member top opened found d m id own hd hu ho ha =>
    refine ⟨own, ho, ha, ?_⟩
    intro n hn
    rw [hn, Option.getD_some]

theorem MeetsEnumeration.named (hstarts : c.OwnStarts starts)
    (h : c.MeetsEnumeration starts w id name? package?) :
    package? = none ∧ ∃ own kind, c.types.get? id = some own ∧ own.shape = .scalar kind ∧
      (name? = none ∨ name? = own.name) := by
  cases h with
  | start hstart =>
    obtain ⟨hpackage, own, kind, ho, hs, hname⟩ := hstarts.enumeration id name? package? hstart
    exact ⟨hpackage, own, kind, ho, hs, .inr hname.symm⟩
  | member hd hu ho hn hs => exact ⟨rfl, _, _, ho, hs, .inl rfl⟩

/-- What is being declared are structs under their own names, and what is listed shows its type. -/
structure Portrayed (c : Catalog) (w : Walk) : Prop where
  opened : ∀ slot ∈ w.opened, ∃ d own, w.found.begun[slot]? = some d ∧
    c.types.get? d.ty = some own ∧ own.isAggregate ∧ own.Titles d
  listed : ∀ slot ∈ w.found.order, ∃ d, w.found.begun[slot]? = some d ∧ c.Shows d

namespace Portrayed

variable {found : Findings} {slot : Slot} {d : Declaration}

theorem entered (hw : c.Portrayed w) (hf : w.found.slot? d.ty = none) :
    c.Portrayed ⟨w.opened, w.found.enter d⟩ := by
  have hkept := Findings.Extends.enter hf
  constructor
  · intro slot hslot
    obtain ⟨e, own, he, hown⟩ := hw.opened slot hslot
    exact ⟨e, own, hkept.getElem? he, hown⟩
  · intro slot hslot
    obtain ⟨e, he, hshows⟩ := hw.listed slot hslot
    exact ⟨e, hkept.getElem? he, hshows⟩

theorem opening (hw : c.Portrayed w) (hd : w.found.begun[slot]? = some d)
    (ho : c.types.get? d.ty = some own) (ha : own.isAggregate) (ht : own.Titles d) :
    c.Portrayed ⟨slot :: w.opened, w.found⟩ := by
  refine ⟨?_, hw.listed⟩
  intro i hi
  rcases List.mem_cons.mp hi with rfl | hi
  · exact ⟨d, own, hd, ho, ha, ht⟩
  · exact hw.opened i hi

theorem listing (hw : c.Portrayed w) (hd : w.found.begun[slot]? = some d) (hs : c.Shows d) :
    c.Portrayed ⟨w.opened, w.found.finish slot⟩ := by
  refine ⟨hw.opened, ?_⟩
  intro i hi
  rcases List.mem_append.mp hi with hi | hi
  · exact hw.listed i hi
  · obtain rfl := List.mem_singleton.mp hi
    exact ⟨d, hd, hs⟩

/-- The innermost struct gets its body and is listed; what is filled in keeps its name. -/
theorem closing {opened : List Slot} {body : Body} (hw : c.Portrayed ⟨slot :: opened, found⟩)
    (hd : found.begun[slot]? = some d) (hs : c.Shows { d with body }) :
    c.Portrayed ⟨opened, (found.fill slot body).finish slot⟩ := by
  have hfill {i : Slot} {e : Declaration} (he : found.begun[i]? = some e) :
      (found.fill slot body).begun[i]? = some (if slot = i then { e with body } else e) := by
    rw [Findings.getElem?_begun_fill, he, Option.map_some]
  have hself : (found.fill slot body).begun[slot]? = some { d with body } := by
    rw [hfill hd, if_pos rfl]
  have hfilled : c.Portrayed ⟨opened, found.fill slot body⟩ := by
    constructor
    · intro i hi
      obtain ⟨e, own, he, ho, ha, ht⟩ := hw.opened i (List.mem_cons_of_mem _ hi)
      have hnew := hfill he
      by_cases hsame : slot = i
      · rw [if_pos hsame] at hnew
        exact ⟨_, own, hnew, ho, ha, ht⟩
      · rw [if_neg hsame] at hnew
        exact ⟨_, own, hnew, ho, ha, ht⟩
    · intro i hi
      by_cases hsame : slot = i
      · subst hsame
        exact ⟨_, hself, hs⟩
      · obtain ⟨e, he, hshows⟩ := hw.listed i hi
        have hnew := hfill he
        rw [if_neg hsame] at hnew
        exact ⟨e, hnew, hshows⟩
  exact hfilled.listing hself hs

end Portrayed

/-- A step enters a struct with its name, declares an enumeration at once, or gives the innermost
struct its fields. -/
theorem Step.portrayed (hstarts : c.OwnStarts starts) (h : c.Step starts w w')
    (hw : c.Portrayed w) : c.Portrayed w' := by
  have hnew (d : Declaration) : (w.found.enter d).begun[w.found.nextSlot]? = some d := by
    simp [Findings.nextSlot]
  cases h with
  | note e => exact ⟨hw.opened, hw.listed⟩
  | enter hf hc hm =>
    obtain ⟨own, ho, ha, hname⟩ := hm.named hstarts
    exact (hw.entered hf).opening (hnew _) ho ha (titles_interface ho hname)
  | enumerate hf hc hm =>
    obtain ⟨rfl, own, kind, ho, hs, hname⟩ := hm.named hstarts
    have hshows := Shows.enumeration ho hs (titles_enumeration ho hname) rfl
    exact (hw.entered hf).listing (hnew _) hshows
  | @finish top opened d own ht hd ho hs =>
    obtain ⟨d', own', hd', ho', ha, htitles⟩ := hw.opened top (ht ▸ List.mem_cons_self)
    obtain rfl : d' = d := Option.some.inj (hd'.symm.trans hd)
    obtain rfl : own' = own := Option.some.inj (ho'.symm.trans ho)
    obtain ⟨ms, hshape⟩ := Description.isAggregate_iff.mp ha
    have hms : own'.members = ms := by rw [Description.members, hshape]
    have hinner : c.Portrayed ⟨top :: opened, w.found⟩ := ht ▸ ⟨hw.opened, hw.listed⟩
    exact hinner.closing hd (.interface ho hshape htitles (by rw [← hms]))

/-- In the end every listed declaration shows its type. -/
theorem Walks.shows {found : Findings} (hstarts : c.OwnStarts starts)
    (hw : c.Walks starts [] {} found) : ∀ d ∈ found.declared, c.Shows d := by
  have hempty : c.Portrayed ⟨[], {}⟩ := ⟨by simp, by simp⟩
  have hportrayed : c.Portrayed ⟨[], found⟩ :=
    kept_of_run (fun _ _ hs => hs.portrayed hstarts) hw.run hempty
  intro d hd
  obtain ⟨slot, hslot, hbegun⟩ := List.mem_filterMap.mp hd
  obtain ⟨e, he, hshows⟩ := hportrayed.listed slot hslot
  obtain rfl : d = e := Option.some.inj (hbegun.symm.trans he)
  exact hshows

end Catalog

end TypeGraph

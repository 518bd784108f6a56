import Mathlib.Data.List.Forall2
import TypeGraph.Proofs.Registry.Bodies
import TypeGraph.Proofs.Registry.Permanence
import TypeGraph.Proofs.Registry.Termination
/-!
What every declaration says, member by member. The fields and the bases of a struct are collected
while other types are declared, and put into a declaration that others refer to already; in the end
they are what the members of the type say, whatever was declared under which name. Walks may begin
anywhere here, also with types that are neither structs nor scalars.
-/

namespace TypeGraph

open Relation

namespace Catalog

variable {c : Catalog} {starts : Starts} {w w' : Walk} {found found' : Findings} {d : Declaration}
variable {own : Description} {enclosing : String} {id x : TypeId} {m : Member} {ms : List Member}

/-- A member that embeds a struct adds a base, and no field. -/
def embedsStruct (c : Catalog) (m : Member) : Bool :=
  m.embedded && (c.types.get? (c.types.strip m.ty)).any (·.isAggregate)

/-- The members that add a field. -/
def shown (c : Catalog) (ms : List Member) : List Member :=
  ms.filter fun m => !m.skip && !c.embedsStruct m

section Members

/-- Where the types of members are in the set, every member has its part. -/
theorem part_of_contained (hm : c.types.contains m.ty) :
    c.part enclosing m = .ok (if m.skip then .nothing
      else if c.embedsStruct m then
        .base (c.types.strip m.ty) (Field.ofMember c.types m enclosing)
      else .field (Field.ofMember c.types m enclosing)) := by
  obtain ⟨e, he⟩ := TypeSet.exists_get? (TypeSet.contains_strip hm)
  cases hs : m.skip <;> cases hembedded : m.embedded <;> cases ha : e.isAggregate <;>
    simp [part, Field.ofMember, embedsStruct, hs, hembedded, he, ha]

variable (hms : ∀ m ∈ ms, c.types.contains m.ty)
include hms

theorem fieldsOf_eq : c.fieldsOf enclosing ms =
    (c.shown ms).map (Field.ofMember c.types · enclosing) := by
  induction ms with
  | nil => rfl
  | cons m ms ih =>
    obtain ⟨hm, hmore⟩ := List.forall_mem_cons.mp hms
    rw [fieldsOf_cons, ih hmore]
    cases hs : m.skip <;> cases he : c.embedsStruct m <;>
      simp [fieldsOf, part_of_contained hm, shown, hs, he]

end Members

/-- The fields of a struct are not indented when they are collected. -/
theorem plain_body_filled (c : Catalog) (d : Declaration) (enclosing : String) (ms : List Member)
    (bases : List String) :
    ({ d with body := .interface (c.fieldsOf enclosing ms) bases } : Declaration).plain.body =
      .interface (c.fieldsOf enclosing ms) bases := by
  have hfields : (c.fieldsOf enclosing ms).map (fun f => { f with indent := "" }) =
      (c.fieldsOf enclosing ms).map id := by
    apply List.map_congr_left
    intro f hf
    obtain ⟨m, -, -, -, rfl⟩ := mem_fieldsOf hf
    rfl
  rw [List.map_id] at hfields
  exact congrArg (Body.interface · bases) hfields

theorem basesOf_congr (hname : ∀ x, (found'.lookup x).map (·.name) = (found.lookup x).map (·.name))
    (enclosing : String) (ms : List Member) :
    c.basesOf found' enclosing ms = c.basesOf found enclosing ms := by
  have helim (x : TypeId) : (found'.lookup x).elim "" (·.name) =
      (found.lookup x).elim "" (·.name) := by
    have hsame := hname x
    cases hold : found.lookup x <;> cases hnew : found'.lookup x <;> simp_all
  simp only [basesOf, baseName, helim]

/-- A declaration has its body. -/
inductive Written (c : Catalog) (found : Findings) (d : Declaration) : Prop
  | interface {own : Description} (ho : c.types.get? d.ty = some own)
      (hs : ∀ x, c.Links d.ty x → (found.slot? x).isSome)
      (hb : d.plain.body = .interface (c.fieldsOf d.name own.members)
        (c.basesOf found d.name own.members))
  | enumeration (hb : d.plain.body =
      .enumeration ((c.annex.constants c.types d.ty).map EnumMember.ofConstant))

theorem Written.extended (h : c.Written found d) (hi : found.Indexed)
    (hext : found.Extends found') : c.Written found' d := by
  cases h with
  | interface ho hs hb =>
    refine .interface ho (fun x hx => hext.isSome_slot? (hs x hx)) ?_
    rw [hb, basesOf_kept hext hi ho (fun _ hm => hm) fun m _ x hu => hs x ⟨m, hu⟩]
  | enumeration hb => exact .enumeration hb

/-- Findings with other bodies. -/
theorem Written.redrawn (h : c.Written found d) (hslot : ∀ x, found'.slot? x = found.slot? x)
    (hname : ∀ x, (found'.lookup x).map (·.name) = (found.lookup x).map (·.name)) :
    c.Written found' d := by
  cases h with
  | interface ho hs hb =>
    refine .interface ho (fun x hx => hslot x ▸ hs x hx) ?_
    rw [hb, basesOf_congr hname]
  | enumeration hb => exact .enumeration hb

/-- All that is listed has its body, and everything that was begun is documented. -/
structure Kempt (c : Catalog) (found : Findings) : Prop where
  documented : ∀ d ∈ found.begun, d.doc = c.annex.doc c.types d.ty
  listed : ∀ slot ∈ found.order, ∃ d, found.begun[slot]? = some d ∧ c.Written found d

namespace Kempt

variable {slot : Slot}

theorem noted (h : c.Kempt found) (hi : found.Indexed) (e : Log.Event) :
    c.Kempt (found.note e) := by
  refine ⟨h.documented, fun slot hslot => ?_⟩
  obtain ⟨d, hd, hw⟩ := h.listed slot hslot
  exact ⟨d, hd, hw.extended hi (.note found e)⟩

theorem entered (h : c.Kempt found) (hi : found.Indexed) (hf : found.slot? d.ty = none)
    (hdoc : d.doc = c.annex.doc c.types d.ty) : c.Kempt (found.enter d) := by
  have hext := Findings.Extends.enter hf
  constructor
  · intro e he
    rcases List.mem_append.mp he with he | he
    · exact h.documented e he
    · obtain rfl := List.mem_singleton.mp he
      exact hdoc
  · intro slot hslot
    obtain ⟨e, he, hw⟩ := h.listed slot hslot
    exact ⟨e, hext.getElem? he, hw.extended hi hext⟩

theorem finished (h : c.Kempt found) (hi : found.Indexed) (hd : found.begun[slot]? = some d)
    (hw : c.Written found d) : c.Kempt (found.finish slot) := by
  have hext := Findings.Extends.finish found slot
  refine ⟨h.documented, fun i hslot => ?_⟩
  rcases List.mem_append.mp hslot with hold | hnew
  · obtain ⟨e, he, hw⟩ := h.listed i hold
    exact ⟨e, he, hw.extended hi hext⟩
  · obtain rfl := List.mem_singleton.mp hnew
    exact ⟨d, hd, hw.extended hi hext⟩

/-- The innermost struct gets its body when all that its members use has a slot; whoever refers to
it already goes by its name, which stays. -/
theorem closed (h : c.Kempt found) (hi : found.Indexed) (hd : found.begun[slot]? = some d)
    (ho : c.types.get? d.ty = some own) (hs : ∀ x, c.Links d.ty x → (found.slot? x).isSome) :
    c.Kempt ((found.fill slot (.interface (c.fieldsOf d.name own.members)
      (c.basesOf found d.name own.members))).finish slot) := by
  let body : Body := .interface (c.fieldsOf d.name own.members) (c.basesOf found d.name own.members)
  have hnames := found.name_lookup_fill slot body
  have hfill {i : Slot} {e : Declaration} (he : found.begun[i]? = some e) :
      (found.fill slot body).begun[i]? = some (if slot = i then { e with body } else e) := by
    rw [Findings.getElem?_begun_fill, he, Option.map_some]
  have hself : c.Written (found.fill slot body) { d with body } := by
    refine .interface ho hs ?_
    rw [basesOf_congr hnames]
    exact plain_body_filled c d d.name own.members _
  have hbody : (found.fill slot body).begun[slot]? = some { d with body } := by
    rw [hfill hd, if_pos rfl]
  have hfilled : c.Kempt (found.fill slot body) := by
    constructor
    · intro e he
      obtain ⟨i, hslot⟩ := List.getElem?_of_mem he
      rw [Findings.getElem?_begun_fill] at hslot
      obtain ⟨e', he', rfl⟩ := Option.map_eq_some_iff.mp hslot
      have hdoc := h.documented e' (List.mem_of_getElem? he')
      split <;> exact hdoc
    · intro i hlisted
      by_cases hsame : slot = i
      · exact ⟨_, hsame ▸ hbody, hself⟩
      · obtain ⟨e, he, hw⟩ := h.listed i hlisted
        refine ⟨e, ?_, hw.redrawn (fun _ => rfl) hnames⟩
        rw [hfill he, if_neg hsame]
  exact hfilled.finished (hi.fill slot body) hbody hself

end Kempt

/-- Only what is plain matters. -/
theorem Written.of_plain {e : Declaration} (h : c.Written found d) (hplain : e.plain = d.plain) :
    c.Written found e := by
  have hty : e.ty = d.ty := congrArg (·.ty) hplain
  have hname : e.name = d.name := congrArg (·.name) hplain
  cases h with
  | interface ho hs hb => exact .interface (hty ▸ ho) (hty ▸ hs) (by rw [hplain, hname, hb])
  | enumeration hb => exact .enumeration (by rw [hplain, hty, hb])

theorem Kempt.indented (h : c.Kempt found) (outer inner : String) :
    c.Kempt { found with begun := found.begun.map (·.indented outer inner) } := by
  have hnames (x : TypeId) :
      (Findings.lookup { found with begun := found.begun.map (·.indented outer inner) } x).map
        (·.name) = (found.lookup x).map (·.name) := by
    simp only [Findings.lookup, Findings.slot?, List.getElem?_map, Option.map_bind]
    congr 1
    funext slot
    exact Option.map_map ..
  constructor
  · intro e he
    obtain ⟨d, hd, rfl⟩ := List.mem_map.mp he
    exact h.documented d hd
  · intro slot hslot
    obtain ⟨d, hd, hw⟩ := h.listed slot hslot
    refine ⟨d.indented outer inner, by simp [hd], ?_⟩
    have hsame : (d.indented outer inner).plain = d.plain := Registry.plain_indented outer inner d
    exact (hw.of_plain hsame).redrawn (fun _ => rfl) hnames

end Catalog

namespace Registry

variable {r r₀ r' : Registry} {d : Declaration}

end Registry

end TypeGraph

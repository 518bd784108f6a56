import TypeGraph.Proofs.Registry.Permanence
import TypeGraph.Proofs.Registry.Renumbering
/-!
Skipped members do nothing. A set that has lost them strips, names and classifies its types as
before, so discovery finds the very same declarations in it, and registrations answer alike.
-/

namespace TypeGraph

def Shape.withoutSkipped : Shape → Shape
  | .aggregate members => .aggregate (members.filter (!·.skip))
  | shape => shape

def Description.withoutSkipped (d : Description) : Description :=
  { d with shape := d.shape.withoutSkipped }

namespace Description

@[simp] theorem isAggregate_withoutSkipped (d : Description) :
    d.withoutSkipped.isAggregate = d.isAggregate := by
  cases hs : d.shape <;> simp [isAggregate, withoutSkipped, Shape.withoutSkipped, hs]

@[simp] theorem members_withoutSkipped (d : Description) :
    d.withoutSkipped.members = d.members.filter (!·.skip) := by
  cases hs : d.shape <;> simp [members, withoutSkipped, Shape.withoutSkipped, hs]

end Description

namespace TypeSet

/-- The set with every skipped member deleted in its place. -/
def withoutSkipped (t : TypeSet) : TypeSet :=
  { t with descriptions := t.descriptions.map (·.withoutSkipped) }

variable {t : TypeSet} {id : TypeId}

@[simp] theorem size_withoutSkipped (t : TypeSet) : t.withoutSkipped.size = t.size := by
  simp [size, withoutSkipped]

@[simp] theorem contains_withoutSkipped (t : TypeSet) (id : TypeId) :
    t.withoutSkipped.contains id = t.contains id := by
  simp [contains]

theorem get?_withoutSkipped (t : TypeSet) (id : TypeId) :
    t.withoutSkipped.get? id = (t.get? id).map (·.withoutSkipped) := by
  simp [get?, withoutSkipped]

@[simp] theorem name?_withoutSkipped (t : TypeSet) (id : TypeId) :
    (t.withoutSkipped.get? id).bind (·.name) = (t.get? id).bind (·.name) := by
  rw [get?_withoutSkipped]
  cases t.get? id <;> rfl

@[simp] theorem qualifiedName_withoutSkipped (t : TypeSet) (id : TypeId) :
    t.withoutSkipped.qualifiedName id = t.qualifiedName id := by
  rw [qualifiedName, qualifiedName, get?_withoutSkipped]
  cases t.get? id <;> rfl

@[simp] theorem strip_withoutSkipped (t : TypeSet) (id : TypeId) :
    t.withoutSkipped.strip id = t.strip id := by
  induction hn : id.index using Nat.strongRecOn generalizing id with
  | ind n ih =>
    rw [strip, strip.eq_def t id, shape?, get?_withoutSkipped, shape?]
    cases t.get? id with
    | none => rfl
    | some d =>
      cases hs : d.shape with
      | pointer target =>
        simp only [Option.map_some, Description.withoutSkipped, hs, Shape.withoutSkipped]
        split
        · next hlt => exact ih target.index (hn ▸ hlt) target rfl
        · rfl
      | aggregate | sequence | map | scalar =>
        simp [Description.withoutSkipped, hs, Shape.withoutSkipped]

@[simp] theorem ownName_withoutSkipped (t : TypeSet) (id : TypeId) :
    t.withoutSkipped.ownName id = t.ownName id := by
  induction hn : id.index using Nat.strongRecOn generalizing id with
  | ind n ih =>
    rw [ownName, ownName.eq_def t id, get?_withoutSkipped]
    cases t.get? id with
    | none => rfl
    | some d =>
      have inner (y : TypeId) : (if y.index < id.index then t.withoutSkipped.ownName y else none) =
          if y.index < id.index then t.ownName y else none := by
        split
        · next hlt => exact ih y.index (hn ▸ hlt) y rfl
        · rfl
      cases hname : d.name with
      | some name => simp [Description.withoutSkipped, hname]
      | none =>
        cases hs : d.shape <;>
          simp [Description.withoutSkipped, hname, hs, Shape.withoutSkipped, inner]

end TypeSet

/-- Constants and documentation do not depend on skipped members. -/
structure Annex.Blind (annex : Annex) : Prop where
  constants : ∀ t id, annex.constants t.withoutSkipped id = annex.constants t id
  doc : ∀ t id, annex.doc t.withoutSkipped id = annex.doc t id

theorem Annex.blind_described : Annex.described.Blind := by
  constructor <;> intro t id <;> simp only [described, TypeSet.get?_withoutSkipped] <;>
    cases t.get? id <;> rfl

namespace Catalog

def withoutSkipped (c : Catalog) : Catalog :=
  { c with types := c.types.withoutSkipped }

variable {c : Catalog} {declare : Declare} {enclosing : String} {m : Member}

@[simp] theorem types_withoutSkipped (c : Catalog) :
    c.withoutSkipped.types = c.types.withoutSkipped :=
  rfl

@[simp] theorem settings_withoutSkipped (c : Catalog) :
    c.withoutSkipped.settings = c.settings :=
  rfl

@[simp] theorem annex_withoutSkipped (c : Catalog) : c.withoutSkipped.annex = c.annex :=
  rfl

@[simp] theorem customText_withoutSkipped (c : Catalog) (id : TypeId) :
    c.withoutSkipped.customText id = c.customText id := by
  simp [customText]

theorem step?_withoutSkipped (h : c.annex.Blind) (id : TypeId) (context : String) :
    c.withoutSkipped.step? id context = c.step? id context := by
  simp only [step?, types_withoutSkipped, annex_withoutSkipped, customText_withoutSkipped,
    TypeSet.get?_withoutSkipped, h.constants, Option.map_map]
  congr 1
  funext d
  cases hs : d.shape <;>
    simp [Function.comp_apply, Description.withoutSkipped, Shape.withoutSkipped, hs]

theorem leaves_withoutSkipped (h : c.annex.Blind) (context : String) (id : TypeId) :
    c.withoutSkipped.leaves context id = c.leaves context id := by
  induction hn : id.index using Nat.strongRecOn generalizing id with
  | ind n ih =>
    have inner (y : TypeId) :
        (if y.index < id.index then c.withoutSkipped.leaves context y else []) =
          if y.index < id.index then c.leaves context y else [] := by
      split
      · next hlt => exact ih y.index (hn ▸ hlt) y rfl
      · rfl
    rw [leaves, leaves.eq_def c, step?_withoutSkipped h]
    cases c.step? id context with
    | none => rfl
    | some step => cases step <;> simp only [inner]

theorem ofMember_withoutSkipped (t : TypeSet) (m : Member) (enclosing : String) :
    Field.ofMember t.withoutSkipped m enclosing = Field.ofMember t m enclosing := by
  simp [Field.ofMember]

@[simp] theorem part_withoutSkipped (c : Catalog) (enclosing : String) (m : Member) :
    c.withoutSkipped.part enclosing m = c.part enclosing m := by
  simp only [part, types_withoutSkipped, ofMember_withoutSkipped, TypeSet.strip_withoutSkipped,
    TypeSet.get?_withoutSkipped]
  cases c.types.get? (c.types.strip (Field.ofMember c.types m enclosing).ty) <;> simp

theorem provenance_withoutSkipped (c : Catalog) (id : TypeId) (name : String)
    (package? : Option String) :
    c.withoutSkipped.provenance id name package? = c.provenance id name package? := by
  simp only [provenance, types_withoutSkipped, TypeSet.get?_withoutSkipped]
  cases c.types.get? id <;> rfl

theorem interface_withoutSkipped (h : c.annex.Blind) (id : TypeId) (name : String) :
    c.withoutSkipped.interface id name = c.interface id name := by
  simp [interface, provenance_withoutSkipped, h.doc]

theorem enumeration_withoutSkipped (h : c.annex.Blind) (id : TypeId)
    (name? package? : Option String) :
    c.withoutSkipped.enumeration id name? package? = c.enumeration id name? package? := by
  simp [enumeration, provenance_withoutSkipped, h.doc, h.constants]

theorem declareEnumeration_withoutSkipped (h : c.annex.Blind) (id : TypeId)
    (name? package? : Option String) (found : Findings) :
    c.withoutSkipped.declareEnumeration id name? package? found =
      c.declareEnumeration id name? package? found := by
  simp only [declareEnumeration, enumeration_withoutSkipped h]

theorem visitLeaf_withoutSkipped (h : c.annex.Blind) (declare : Declare) :
    c.withoutSkipped.visitLeaf declare = c.visitLeaf declare := by
  funext found leaf
  cases leaf <;> simp only [visitLeaf, declareEnumeration_withoutSkipped h]

theorem visitMember_withoutSkipped (h : c.annex.Blind) (declare : Declare) (enclosing : String)
    (m : Member) (found : Findings) :
    c.withoutSkipped.visitMember declare enclosing m found =
      c.visitMember declare enclosing m found := by
  simp only [visitMember, part_withoutSkipped, leaves_withoutSkipped h, visitLeaf_withoutSkipped h,
    types_withoutSkipped, settings_withoutSkipped, TypeSet.name?_withoutSkipped,
    customText_withoutSkipped]

/-- A skipped member adds nothing and finds nothing. -/
theorem visitMember_of_skip (hm : m.skip) (found : Findings) :
    c.visitMember declare enclosing m found = .ok (([], []), found) := by
  have hpart : c.part enclosing m = .ok .nothing := by simp [part, Field.ofMember, hm]
  rw [visitMember, hpart]
  rfl

theorem visitMembers_withoutSkipped (h : c.annex.Blind) (declare : Declare) (enclosing : String)
    (ms : List Member) (found : Findings) :
    c.withoutSkipped.visitMembers declare enclosing (ms.filter (!·.skip)) found =
      c.visitMembers declare enclosing ms found := by
  induction ms generalizing found with
  | nil => rfl
  | cons m ms ih =>
    cases hm : m.skip with
    | true =>
      have hfilter : (m :: ms).filter (!·.skip) = ms.filter (!·.skip) := by simp [hm]
      have hskip : c.visitMembers declare enclosing (m :: ms) found =
          c.visitMembers declare enclosing ms found := by
        rw [visitMembers, visitMember_of_skip hm]
        simp only [bind, Except.bind]
        cases c.visitMembers declare enclosing ms found <;> rfl
      rw [hfilter, hskip]
      exact ih found
    | false =>
      have hfilter : (m :: ms).filter (!·.skip) = m :: ms.filter (!·.skip) := by simp [hm]
      rw [hfilter, visitMembers, visitMembers, visitMember_withoutSkipped h]
      simp only [ih]

/-- Discovery finds the same whether skipped members are there or not. -/
theorem declare_withoutSkipped (h : c.annex.Blind) (depth : Nat) :
    c.withoutSkipped.declare depth = c.declare depth := by
  induction depth with
  | zero => rfl
  | succ depth ih =>
    funext id name found
    simp only [declare, ih, types_withoutSkipped, TypeSet.get?_withoutSkipped,
      interface_withoutSkipped h]
    cases found.slot? id with
    | some slot => rfl
    | none =>
      cases c.types.get? id with
      | none => rfl
      | some d =>
        simp only [Option.map_some, Description.members_withoutSkipped,
          visitMembers_withoutSkipped h]

theorem discover_withoutSkipped (h : c.annex.Blind) (id : TypeId) (name : String)
    (found : Findings) :
    c.withoutSkipped.discover id name found = c.discover id name found := by
  simp only [discover, types_withoutSkipped, TypeSet.size_withoutSkipped,
    declare_withoutSkipped h]

end Catalog

namespace Registry

def withoutSkipped (r : Registry) : Registry :=
  { r with types := r.types.withoutSkipped }

variable {r r' : Registry} {g : Registration} {gs : List Registration} {d : Declaration}

theorem rootName_withoutSkipped (r : Registry) (id : TypeId) (name? : Option String) :
    r.withoutSkipped.rootName id name? = r.rootName id name? := by
  simp only [rootName, withoutSkipped, TypeSet.name?_withoutSkipped]

theorem target_withoutSkipped (t : TypeSet) (g : Registration) :
    g.target t.withoutSkipped = g.target t := by
  cases g <;> simp [Registration.target]

theorem discovered_withoutSkipped (h : r.annex.Blind) (g : Registration) (name : String) :
    r.withoutSkipped.discovered g name = r.discovered g name := by
  have hcatalog : r.withoutSkipped.catalog = r.catalog.withoutSkipped := rfl
  have htarget : g.target r.withoutSkipped.types = g.target r.types := target_withoutSkipped _ _
  have hblind : r.catalog.annex.Blind := h
  have hfindings : r.withoutSkipped.findings = r.findings := rfl
  cases g <;> simp only [discovered, hcatalog, htarget, hfindings,
    Catalog.discover_withoutSkipped hblind, Catalog.declareEnumeration_withoutSkipped hblind]

/-- A registration answers the same and leaves the same findings. -/
theorem attempt_withoutSkipped (h : r.annex.Blind) (g : Registration) :
    r.withoutSkipped.attempt g = ((r.attempt g).1, (r.attempt g).2.withoutSkipped) := by
  have htarget : g.target r.withoutSkipped.types = g.target r.types := target_withoutSkipped _ _
  have hcontains : r.withoutSkipped.types.contains g.id = r.types.contains g.id :=
    TypeSet.contains_withoutSkipped _ _
  have hfindings : r.withoutSkipped.findings = r.findings := rfl
  have hlookup (found : Findings) (x : TypeId) : found.lookup x = (found.lookup x).map id := by
    rw [Option.map_id_fun, id]
  have hdiscovered (name : String) :
      r.withoutSkipped.discovered g name = (r.discovered g name).map id := by
    rw [discovered_withoutSkipped h, Except.map_id, id]
  have hsame : r.withoutSkipped.attempt g =
      ((r.attempt g).1.map id, (r.attempt g).2.withoutSkipped) :=
    attempt_map hcontains htarget (hfindings ▸ hlookup r.findings)
      (fun x => rootName_withoutSkipped r x g.name?) hdiscovered hlookup fun found => rfl
  rwa [Except.map_id, id] at hsame

/-- Registrations change nothing but the findings. -/
theorem performAll_same (r : Registry) (gs : List Registration) :
    (r.performAll gs).2 = { r with findings := (r.performAll gs).2.findings } := by
  induction gs generalizing r with
  | nil => rfl
  | cons g gs ih =>
    simp only [performAll]
    rw [ih (r.attempt g).2, attempt_same r g]

/-- Registrations made one after another answer the same. -/
theorem performAll_withoutSkipped (h : r.annex.Blind) (gs : List Registration) :
    r.withoutSkipped.performAll gs =
      ((r.performAll gs).1, (r.performAll gs).2.withoutSkipped) := by
  induction gs generalizing r with
  | nil => rfl
  | cons g gs ih =>
    have hattempt := attempt_withoutSkipped h g
    have hblind : (r.attempt g).2.annex.Blind := by
      rw [attempt_same]
      exact h
    simp only [performAll, hattempt, ih hblind]

end Registry

end TypeGraph

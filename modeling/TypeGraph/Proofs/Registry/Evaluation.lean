import TypeGraph.Proofs.Registry.Permanence
import TypeGraph.Proofs.TypeSet.Evaluation
/-!
Registration as an evaluation. Neither a depth nor the order of ids stops it, and every type and
every declaration that it looks at is there. Over a set whose containers hold earlier types and
whose members have types of the set, it comes to an end from every type.
-/

namespace TypeGraph

open Relation

namespace Catalog

mutual

/-- Visiting a type, with the name that the context gives. -/
inductive VisitsTo (c : Catalog) : TypeId → String → Findings → Findings → Prop
  | pointer {id target : TypeId} {context : String} {found found' : Findings}
      (hs : c.step? id context = some (.pointer target))
      (h : VisitsTo c target context found found') : VisitsTo c id context found found'
  | sequence {id element : TypeId} {context : String} {found found' : Findings}
      (hs : c.step? id context = some (.sequence element))
      (h : VisitsTo c element context found found') : VisitsTo c id context found found'
  | map {id key value : TypeId} {context : String} {found found₁ found' : Findings}
      (hs : c.step? id context = some (.map key value))
      (hv : VisitsTo c value context found found₁) (hk : VisitsTo c key context found₁ found') :
      VisitsTo c id context found found'
  | aggregate {id x : TypeId} {name context : String} {slot : Slot} {found found' : Findings}
      (hs : c.step? id context = some (.aggregate x name))
      (h : DeclaresTo c x name found slot found') : VisitsTo c id context found found'
  | enumeration {id x : TypeId} {context : String} {found : Findings}
      (hs : c.step? id context = some (.enumeration x)) :
      VisitsTo c id context found (c.declareEnumeration x none none found).2
  | inline {id : TypeId} {what : Inline} {context : String} {found : Findings}
      (hs : c.step? id context = some (.inline what)) :
      VisitsTo c id context found (found.note (.inlined id what))

/-- Going through members of the interface `enclosing`, with the fields and the names of bases that
they add. -/
inductive MembersTo (c : Catalog) :
    String → List Member → Findings → List Field × List String → Findings → Prop
  | nil {enclosing : String} {found : Findings} : MembersTo c enclosing [] found ([], []) found
  | skipped {enclosing : String} {m : Member} {ms : List Member}
      {added : List Field × List String} {found found' : Findings}
      (hn : c.types.NamesTo m.ty (c.types.ownName m.ty)) (hs : m.skip)
      (h : MembersTo c enclosing ms found added found') :
      MembersTo c enclosing (m :: ms) found added found'
  | field {enclosing : String} {m : Member} {ms : List Member} {fields : List Field}
      {bases : List String} {found found₁ found' : Findings}
      (hn : c.types.NamesTo m.ty (c.types.ownName m.ty)) (hs : m.skip = false)
      (he : m.embedded → ∃ target own, c.types.StripsTo m.ty target ∧
        c.types.get? target = some own ∧ own.isAggregate = false)
      (hv : VisitsTo c m.ty (Field.ofMember c.types m enclosing).contextualName found found₁)
      (h : MembersTo c enclosing ms found₁ (fields, bases) found') :
      MembersTo c enclosing (m :: ms) found
        (Field.ofMember c.types m enclosing :: fields, bases) found'
  /-- An embedded struct that is not declared is a base by its own name. -/
  | named {enclosing : String} {m : Member} {ms : List Member} {target : TypeId}
      {own : Description} {fields : List Field} {bases : List String} {found found' : Findings}
      (hn : c.types.NamesTo m.ty (c.types.ownName m.ty)) (hs : m.skip = false) (he : m.embedded)
      (ht : c.types.StripsTo m.ty target) (ho : c.types.get? target = some own)
      (ha : own.isAggregate)
      (hd : !c.settings.declareEmbedded || (c.customText target).isSome)
      (h : MembersTo c enclosing ms found (fields, bases) found') :
      MembersTo c enclosing (m :: ms) found
        (fields, own.name.getD (Field.ofMember c.types m enclosing).name :: bases) found'
  /-- Any other is a base by the name in its slot. -/
  | base {enclosing : String} {m : Member} {ms : List Member} {target : TypeId}
      {own : Description} {d : Declaration} {slot : Slot} {fields : List Field}
      {bases : List String} {found found₁ found' : Findings}
      (hn : c.types.NamesTo m.ty (c.types.ownName m.ty)) (hs : m.skip = false) (he : m.embedded)
      (ht : c.types.StripsTo m.ty target) (ho : c.types.get? target = some own)
      (ha : own.isAggregate)
      (hd : ¬(!c.settings.declareEmbedded || (c.customText target).isSome))
      (hdec : DeclaresTo c target
        (own.name.getD (Field.ofMember c.types m enclosing).contextualName) found slot found₁)
      (hslot : found₁.begun[slot]? = some d)
      (h : MembersTo c enclosing ms found₁ (fields, bases) found') :
      MembersTo c enclosing (m :: ms) found (fields, d.name :: bases) found'

/-- Declaring a struct under a name, with the slot that it has then. -/
inductive DeclaresTo (c : Catalog) : TypeId → String → Findings → Slot → Findings → Prop
  | known {id : TypeId} {name : String} {slot : Slot} {found : Findings}
      (hs : found.slot? id = some slot) :
      DeclaresTo c id name found slot (found.note (.alreadyDeclared id))
  | new {id : TypeId} {name : String} {own : Description} {opened : Declaration}
      {fields : List Field} {inherited : List String} {found found₁ : Findings}
      (hs : found.slot? id = none) (ho : c.types.get? id = some own)
      (hm : MembersTo c name own.members (found.enter (c.interface id name))
        (fields, inherited) found₁)
      (hslot : found₁.begun[found.nextSlot]? = some opened) :
      DeclaresTo c id name found found.nextSlot
        (((found₁.fill found.nextSlot (.interface fields inherited)).note
          (.interfaceDeclared name (c.interface id name).provenance.qualified)).finish
            found.nextSlot)

end

variable {c : Catalog} {id : TypeId} {name context enclosing : String} {m : Member}
variable {found found' : Findings} {declare : Declare} {slot : Slot}

/-- Findings that keep what was found before, in good order. -/
structure Carries (found found' : Findings) : Prop where
  indexed : found'.Indexed
  kept : found.Extends found'

theorem Carries.trans {a b e : Findings} (h : Carries a b) (k : Carries b e) : Carries a e :=
  ⟨k.indexed, h.kept.trans k.kept⟩

theorem carries_declareEnumeration (hi : found.Indexed) (name? package? : Option String) :
    Carries found (c.declareEnumeration id name? package? found).2 := by
  unfold declareEnumeration
  cases hf : found.slot? id with
  | some slot => exact ⟨hi.note _, .note found _⟩
  | none =>
    let d := c.enumeration id name? package?
    let noted := found.note (.enumDeclared d.name d.members.length)
    have hfresh : noted.slot? d.ty = none := hf
    have hnoted : noted.Indexed := hi.note _
    have hkept : found.Extends (noted.enter d) := (Findings.Extends.note found _).trans (.enter hfresh)
    exact ⟨(hnoted.enter hfresh).finish _, hkept.trans (.finish _ _)⟩

/-- A way to declare structs that answers only what an evaluation comes to. -/
def Evaluated (c : Catalog) (declare : Declare) : Prop :=
  ∀ id name found slot found', found.Indexed → declare id name found = .ok (slot, found') →
    c.DeclaresTo id name found slot found' ∧ Carries found found' ∧ found'.slot? id = some slot

/-- The leaves of a type are what visiting it goes through. -/
theorem visitsTo_of_leaves (hb : c.types.Backward) (hdec : c.Evaluated declare)
    (hi : found.Indexed) (h : (c.leaves context id).foldlM (c.visitLeaf declare) found = .ok found') :
    c.VisitsTo id context found found' ∧ Carries found found' := by
  induction hn : id.index using Nat.strongRecOn generalizing id found found' with
  | ind n ih =>
    rw [leaves] at h
    cases hstep : c.step? id context with
    | none => simp [hstep, visitLeaf, bind, Except.bind] at h
    | some step =>
      rcases step?_eq_some hstep with ⟨text, rfl⟩ | ⟨-, d, hd, hcases⟩
      · obtain rfl : found.note (.inlined id (.verbatim text)) = found' := by
          simpa [hstep, visitLeaf, bind, Except.bind, pure, Except.pure] using h
        exact ⟨.inline hstep, hi.note _, .note found _⟩
      have inner {y : TypeId} {found found' : Findings} (hy : y ∈ d.shape.held)
          (hi : found.Indexed)
          (h : (c.leaves context y).foldlM (c.visitLeaf declare) found = .ok found') :
          c.VisitsTo y context found found' ∧ Carries found found' := by
        have hlt := hb id d hd y hy
        exact ih y.index (hn ▸ hlt) hi h rfl
      rcases hcases with ⟨y, hs, rfl⟩ | ⟨-, rfl⟩ | ⟨y, hs, rfl⟩ | ⟨k, v, hs, rfl⟩ | ⟨kind, -, he⟩
      · have hy : y ∈ d.shape.held := by simp [hs, Shape.held]
        simp only [hstep, if_pos (hb id d hd y hy)] at h
        obtain ⟨hvisit, hcarries⟩ := inner hy hi h
        exact ⟨.pointer hstep hvisit, hcarries⟩
      · simp only [hstep, List.foldlM_cons, List.foldlM_nil, bind_pure] at h
        obtain ⟨⟨slot, found₁⟩, hx, rfl⟩ := map_eq_ok h
        obtain ⟨hdeclare, hcarries, -⟩ := hdec _ _ _ _ _ hi hx
        exact ⟨.aggregate hstep hdeclare, hcarries⟩
      · have hy : y ∈ d.shape.held := by simp [hs, Shape.held]
        simp only [hstep, if_pos (hb id d hd y hy)] at h
        obtain ⟨hvisit, hcarries⟩ := inner hy hi h
        exact ⟨.sequence hstep hvisit, hcarries⟩
      · have hk : k ∈ d.shape.held := by simp [hs, Shape.held]
        have hv : v ∈ d.shape.held := by simp [hs, Shape.held]
        simp only [hstep, if_pos (hb id d hd k hk), if_pos (hb id d hd v hv),
          List.foldlM_append] at h
        obtain ⟨found₁, hvalue, hkey⟩ := bind_eq_ok h
        obtain ⟨hvisit, hcarries⟩ := inner hv hi hvalue
        obtain ⟨hvisit', hcarries'⟩ := inner hk hcarries.indexed hkey
        exact ⟨.map hstep hvisit hvisit', hcarries.trans hcarries'⟩
      · rcases he with ⟨-, -, -, rfl⟩ | rfl
        · simp only [hstep, List.foldlM_cons, List.foldlM_nil, bind_pure] at h
          obtain rfl := Except.ok.inj h
          exact ⟨.enumeration hstep, carries_declareEnumeration hi none none⟩
        · simp only [hstep, List.foldlM_cons, List.foldlM_nil, bind_pure] at h
          obtain rfl := Except.ok.inj h
          exact ⟨.inline hstep, hi.note _, .note found _⟩

/-- What is added by a member goes before what is added by those behind it. -/
theorem membersTo_cons (hb : c.types.Backward) (hdec : c.Evaluated declare) (hi : found.Indexed)
    (hc : c.types.contains m.ty) {added : List Field × List String} {found₁ : Findings}
    (h : c.visitMember declare enclosing m found = .ok (added, found₁)) :
    Carries found found₁ ∧ ∀ {ms : List Member} {fields : List Field} {bases : List String},
      c.MembersTo enclosing ms found₁ (fields, bases) found' →
      c.MembersTo enclosing (m :: ms) found (added.1 ++ fields, added.2 ++ bases) found' := by
  have hname := TypeSet.namesTo_ownName hb hc
  have hstrip := TypeSet.stripsTo_strip hb hc
  obtain ⟨part, hp, h⟩ := bind_eq_ok h
  rcases part_eq_ok hp with ⟨hs, rfl⟩ | ⟨hs, he, rfl⟩ | ⟨hs, he, own, ho, ha, rfl⟩
  · cases h
    exact ⟨⟨hi, .refl found⟩, fun hrest => .skipped hname hs hrest⟩
  · obtain ⟨found₂, hl, h⟩ := bind_eq_ok h
    cases h
    obtain ⟨hvisit, hcarries⟩ := visitsTo_of_leaves hb hdec hi hl
    have hplain : m.embedded → ∃ target own, c.types.StripsTo m.ty target ∧
        c.types.get? target = some own ∧ own.isAggregate = false := by
      intro hm
      obtain ⟨own, ho⟩ := TypeSet.exists_get? (TypeSet.contains_strip hc)
      exact ⟨_, own, hstrip, ho, by simpa [hm, ho] using he⟩
    exact ⟨hcarries, fun hrest => .field hname hs hplain hvisit hrest⟩
  · simp only [ho, Option.bind_some] at h
    split at h
    · next hd =>
      cases h
      exact ⟨⟨hi, .refl found⟩, fun hrest => .named hname hs he hstrip ho ha hd hrest⟩
    · next hd =>
      obtain ⟨⟨slot, found₂⟩, hx, h⟩ := bind_eq_ok h
      cases h
      obtain ⟨hdeclare, hcarries, hslot⟩ := hdec _ _ _ _ _ hi hx
      obtain ⟨d, hget, -⟩ := (hcarries.indexed.slot?_iff _ _).mp hslot
      have hbase : found₂.nameAt slot = d.name := by simp [Findings.nameAt, hget]
      refine ⟨hcarries, fun hrest => ?_⟩
      simp only [hbase]
      exact .base hname hs he hstrip ho ha hd hdeclare hget hrest

theorem membersTo_of_visitMembers (hb : c.types.Backward) (hdec : c.Evaluated declare)
    (hi : found.Indexed) {ms : List Member} (hc : ∀ m ∈ ms, c.types.contains m.ty)
    {added : List Field × List String}
    (h : c.visitMembers declare enclosing ms found = .ok (added, found')) :
    c.MembersTo enclosing ms found added found' ∧ Carries found found' := by
  induction ms generalizing found added with
  | nil =>
    cases h
    exact ⟨.nil, hi, .refl _⟩
  | cons m ms ih =>
    obtain ⟨⟨added₁, found₁⟩, h₁, h⟩ := bind_eq_ok h
    obtain ⟨⟨added₂, found₂⟩, h₂, h⟩ := bind_eq_ok h
    cases h
    obtain ⟨hcarries, hcons⟩ := membersTo_cons hb hdec hi (hc m (by simp)) h₁
    obtain ⟨hrest, hcarries'⟩ :=
      ih hcarries.indexed (fun n hn => hc n (List.mem_cons_of_mem _ hn)) h₂
    exact ⟨hcons hrest, hcarries.trans hcarries'⟩

/-- Whatever its depth, discovery answers what the evaluation comes to. -/
theorem evaluated_declare (hb : c.types.Backward) (hclosed : c.types.Closed) (depth : Nat) :
    c.Evaluated (c.declare depth) := by
  induction depth with
  | zero => intro id name found slot found' _ h; cases h
  | succ depth ih =>
    intro id name found slot found' hi h
    have hmeets : c.Meets ⟨fun _ _ => True, fun _ _ _ => True⟩ ⟨[], found⟩ id name := .start trivial
    obtain ⟨hwalks, hslot⟩ := walks_declare hb (depth + 1) [] id name found slot found' hi h hmeets
    refine ⟨?_, ⟨hwalks.indexed hi, hwalks.kept⟩, hslot⟩
    rw [declare] at h
    cases hf : found.slot? id with
    | some seen =>
      simp only [hf] at h
      cases h
      exact .known hf
    | none =>
      simp only [hf] at h
      cases ho : c.types.get? id with
      | none => simp [ho] at h
      | some own =>
        simp only [ho] at h
        obtain ⟨⟨⟨fields, inherited⟩, found₁⟩, h₁, h⟩ := bind_eq_ok h
        cases h
        have hfresh : found.slot? (c.interface id name).ty = none := hf
        have hmembers : ∀ m ∈ own.members, c.types.contains m.ty := fun m hm =>
          hclosed id own ho m.ty (Description.ids_of_mem_members hm)
        obtain ⟨hm, hcarries⟩ :=
          membersTo_of_visitMembers hb ih (hi.enter hfresh) hmembers h₁
        have hopened : (found.enter (c.interface id name)).begun[found.nextSlot]? =
            some (c.interface id name) := by
          simp [Findings.nextSlot]
        exact .new hf ho hm (hcarries.kept.getElem? hopened)

end Catalog

/-- A root of the set, with a name for its declaration. -/
inductive Registration.Named (types : TypeSet) : Registration → Prop
  | type {id : TypeId} {name : String} (hc : types.contains id) (hn : name ≠ "") :
      Named types (.addType id (some name))
  | enumeration {id : TypeId} {name : String} {package? : Option String} (hc : types.contains id)
      (hn : name ≠ "") : Named types (.addEnumeration id (some name) package?)

theorem Registration.Named.contains {types : TypeSet} {g : Registration} (h : g.Named types) :
    types.contains g.id := by
  cases h with
  | type hc | enumeration hc => exact hc

theorem Registration.Named.target_eq {types : TypeSet} {g : Registration} (h : g.Named types) :
    g.target types = types.strip g.id := by
  cases h <;> rfl

namespace Registry

/-- Adding a root under a name, with the declaration that it has then and the registry that is
left. -/
inductive AddsTo (r : Registry) : Registration → Declaration → Registry → Prop
  | known {g : Registration} {target : TypeId} {slot : Slot} {d : Declaration}
      (ht : r.types.StripsTo g.id target) (hs : r.findings.slot? target = some slot)
      (hd : r.findings.begun[slot]? = some d) : AddsTo r g d r
  | type {id target : TypeId} {name : String} {slot : Slot} {d : Declaration} {found : Findings}
      (ht : r.types.StripsTo id target) (hs : r.findings.slot? target = none)
      (h : r.catalog.DeclaresTo target name r.findings slot found)
      (hd : found.begun[slot]? = some d) :
      AddsTo r (.addType id (some name)) d { r with findings := found }
  | enumeration {id target : TypeId} {name : String} {package? : Option String} {own : Description}
      {slot : Slot} {d : Declaration} {found : Findings} (ht : r.types.StripsTo id target)
      (hs : r.findings.slot? target = none) (ho : r.types.get? target = some own)
      (h : r.catalog.declareEnumeration target (some name) package? r.findings = (slot, found))
      (hd : found.begun[slot]? = some d) :
      AddsTo r (.addEnumeration id (some name) package?) d { r with findings := found }

variable {r r' : Registry} {g : Registration} {id : TypeId} {d : Declaration}

theorem slot?_of_lookup {found : Findings} (hi : found.Indexed) (hl : found.lookup id = none) :
    found.slot? id = none := by
  cases hs : found.slot? id with
  | none => rfl
  | some slot =>
    obtain ⟨d, hd⟩ := lookup_of_slot? hi hs
    simp [hl] at hd

theorem getElem?_of_slot? {found : Findings} {slot : Slot} (hs : found.slot? id = some slot)
    (hl : found.lookup id = some d) : found.begun[slot]? = some d := by
  simpa [Findings.lookup, hs] using hl

theorem rootName_of_name {name : String} (h : name ≠ "") :
    r.rootName id (some name) = .ok name := by
  simp [rootName, Option.filter, h]

theorem exists_addsTo_type {name : String} (hr : r.Tidy) (hclosed : r.types.Closed)
    (hc : r.types.contains id) (hn : name ≠ "")
    (hl : r.findings.lookup (r.types.strip id) = none) :
    ∃ d r', r.perform (.addType id (some name)) = .ok (d, r') ∧
      r.AddsTo (.addType id (some name)) d r' := by
  have ht : r.types.contains (r.types.strip id) := TypeSet.contains_strip hc
  have hstrip := TypeSet.stripsTo_strip hr.backward hc
  have hs := slot?_of_lookup hr.indexed hl
  rcases discover_cases hr.backward hr.indexed ht name with
    ⟨e, -, hstray⟩ | ⟨d, found, hdisc, -, hd⟩
  · exact absurd hstray (Catalog.not_stray hclosed)
  · obtain ⟨⟨slot, found'⟩, hdec, rfl⟩ := Catalog.map_eq_ok hdisc
    have hmake : r.discovered (.addType id (some name)) name = .ok found' := by
      simp only [discovered, Registration.target, hdisc]
      rfl
    have hperform : r.perform (.addType id (some name)) =
        .ok (d, { r with findings := found' }) := by
      rw [perform_eq_ok, attempt_eq_register, Registration.id, if_pos hc]
      exact register_of_make hl (rootName_of_name hn) hmake hd
    obtain ⟨hdeclares, -, hslot⟩ := Catalog.evaluated_declare (c := r.catalog) hr.backward hclosed
      _ _ _ _ _ _ hr.indexed hdec
    exact ⟨d, _, hperform, .type hstrip hs hdeclares (getElem?_of_slot? hslot hd)⟩

theorem exists_addsTo_enumeration {name : String} {package? : Option String} (hr : r.Tidy)
    (hc : r.types.contains id) (hn : name ≠ "")
    (hl : r.findings.lookup (r.types.strip id) = none) :
    ∃ d r', r.perform (.addEnumeration id (some name) package?) = .ok (d, r') ∧
      r.AddsTo (.addEnumeration id (some name) package?) d r' := by
  have ht : r.types.contains (r.types.strip id) := TypeSet.contains_strip hc
  have hstrip := TypeSet.stripsTo_strip hr.backward hc
  have hs := slot?_of_lookup hr.indexed hl
  obtain ⟨own, ho⟩ := TypeSet.exists_get? ht
  cases he : r.catalog.declareEnumeration (r.types.strip id) (some name) package? r.findings with
  | mk slot found =>
    have hmeets : r.catalog.MeetsEnumeration (startsAt (r.types.strip id)) ⟨[], r.findings⟩
        (r.types.strip id) (some name) package? := .start rfl
    obtain ⟨hwalks, hslot⟩ := Catalog.walks_declareEnumeration ht hmeets
    rw [he] at hwalks hslot
    obtain ⟨d, hd⟩ := lookup_of_slot? (hwalks.indexed hr.indexed) hslot
    have hmake : r.discovered (.addEnumeration id (some name) package?) name = .ok found := by
      simp only [discovered, Registration.target, he]
    have hperform : r.perform (.addEnumeration id (some name) package?) =
        .ok (d, { r with findings := found }) := by
      rw [perform_eq_ok, attempt_eq_register, Registration.id, if_pos hc]
      exact register_of_make hl (rootName_of_name hn) hmake hd
    exact ⟨d, _, hperform, .enumeration hstrip hs ho he (getElem?_of_slot? hslot hd)⟩

/-- Adding a root under a name comes to an end and answers its declaration. -/
theorem exists_addsTo (hr : r.Tidy) (hclosed : r.types.Closed) (hg : g.Named r.types) :
    ∃ d r', r.perform g = .ok (d, r') ∧ r.AddsTo g d r' := by
  have hc := hg.contains
  cases hl : r.findings.lookup (r.types.strip g.id) with
  | some d =>
    obtain ⟨slot, hs, hd⟩ := Option.bind_eq_some_iff.mp hl
    have hperform : r.perform g = .ok (d, r) := perform_of_lookup hc (hg.target_eq ▸ hl)
    exact ⟨d, r, hperform, .known (TypeSet.stripsTo_strip hr.backward hc) hs hd⟩
  | none =>
    cases hg with
    | type hc hn => exact exists_addsTo_type hr hclosed hc hn hl
    | enumeration hc hn => exact exists_addsTo_enumeration hr hc hn hl

end Registry

end TypeGraph

import TypeGraph.Proofs.Registry.Termination
import TypeGraph.Registry.Registry
/-!
Registrations. Each makes a walk from what lies behind the pointers of its id, and answers the
declaration that this type has then; a type that is declared already keeps its declaration. One that
fails leaves the registry as it was.
-/

namespace TypeGraph

/-- A call that registers a type and answers its declaration. -/
inductive Registration where
  | addType (id : TypeId) (name? : Option String)
  | addEnumeration (id : TypeId) (name? package? : Option String)
  | registerAggregate (id : TypeId) (name? : Option String)
  | registerEnumeration (id : TypeId) (name? package? : Option String)

namespace Registration

def id : Registration → TypeId
  | addType id _ | addEnumeration id _ _ | registerAggregate id _ | registerEnumeration id _ _ => id

/-- The name given for the declaration. -/
def name? : Registration → Option String
  | addType _ name? | addEnumeration _ name? _ | registerAggregate _ name? |
    registerEnumeration _ name? _ => name?

/-- The type that is declared: what lies behind the pointers of the id, or the id as it is. -/
def target (types : TypeSet) : Registration → TypeId
  | addType id _ | addEnumeration id _ _ => types.strip id
  | registerAggregate id _ | registerEnumeration id _ _ => id

/-- The calls that do not look behind pointers are not made for pointers. -/
def Admissible (types : TypeSet) : Registration → Prop
  | addType _ _ | addEnumeration _ _ _ => True
  | registerAggregate id _ | registerEnumeration id _ _ =>
    ∀ x, types.shape? id ≠ some (.pointer x)

theorem target_eq_strip {types : TypeSet} {g : Registration} (h : g.Admissible types) :
    g.target types = types.strip g.id := by
  cases g with
  | addType | addEnumeration => rfl
  | registerAggregate id name? => exact (TypeSet.strip_of_not_pointer h).symm
  | registerEnumeration id name? package? => exact (TypeSet.strip_of_not_pointer h).symm

theorem contains_target {types : TypeSet} {g : Registration} (h : types.contains g.id) :
    types.contains (g.target types) := by
  cases g with
  | addType | addEnumeration => exact TypeSet.contains_strip h
  | registerAggregate | registerEnumeration => exact h

end Registration

namespace Registry

/-- What a registration answers, and the registry that it leaves, also where it fails. -/
def attempt (r : Registry) : Registration → Except Failure Declaration × Registry
  | .addType id name? => r.addType id name?
  | .addEnumeration id name? package? => r.addEnumeration id name? package?
  | .registerAggregate id name? => r.registerAggregate id name?
  | .registerEnumeration id name? package? => r.registerEnumeration id name? package?

/-- Makes registrations one after another, each on the registry that the one before it left, and
gives the answer to each. -/
def performAll (r : Registry) : List Registration → List (Except Failure Declaration) × Registry
  | [] => ([], r)
  | g :: gs =>
    let (answer, r) := r.attempt g
    let (answers, r) := r.performAll gs
    (answer :: answers, r)

/-- What a registration answers and leaves, unless it fails. -/
def perform (r : Registry) (g : Registration) : Except Failure (Declaration × Registry) :=
  settled (r.attempt g)

variable {r r' : Registry} {g : Registration} {id : TypeId} {name? package? : Option String}
  {d : Declaration} {f : Failure}

theorem settled_eq_ok {outcome : Except Failure Declaration × Registry} :
    settled outcome = .ok (d, r') ↔ outcome = (.ok d, r') := by
  obtain ⟨answer, left⟩ := outcome
  cases answer <;> simp [settled, Except.map]

theorem settled_eq_error {outcome : Except Failure Declaration × Registry} :
    settled outcome = .error f ↔ outcome.1 = .error f := by
  obtain ⟨answer, left⟩ := outcome
  cases answer <;> simp [settled, Except.map]

theorem perform_eq_ok : r.perform g = .ok (d, r') ↔ r.attempt g = (.ok d, r') :=
  settled_eq_ok

theorem perform_eq_error : r.perform g = .error f ↔ (r.attempt g).1 = .error f :=
  settled_eq_error

/-- A registration either answers what is declared already or makes new findings. -/
theorem register_eq_ok {make : String → Except Failure Findings}
    (h : r.register id name? make = (.ok d, r')) :
    (r.findings.lookup id = some d ∧ r' = r) ∨
      ∃ name found', r.rootName id name? = .ok name ∧ make name = .ok found' ∧
        found'.lookup id = some d ∧ r' = { r with findings := found' } := by
  unfold register at h
  cases hl : r.findings.lookup id with
  | some e =>
    obtain ⟨he, rfl⟩ := Prod.mk.inj (by simpa only [hl] using h)
    exact .inl ⟨congrArg some (Except.ok.inj he), rfl⟩
  | none =>
    cases hname : r.rootName id name? with
    | error f => simp [hl, hname] at h
    | ok name =>
      cases hmake : make name with
      | error f => simp [hl, hname, hmake] at h
      | ok found' =>
        simp only [hl, hname, hmake, Prod.mk.injEq] at h
        cases hd : found'.lookup id with
        | none => simp [hd] at h
        | some e =>
          obtain ⟨he, rfl⟩ := h
          obtain rfl : e = d := by simpa [hd] using he
          exact .inr ⟨name, found', rfl, hmake, hd, rfl⟩

/-- A successful registration of an id: the findings are those of a walk from it. -/
structure Enrolls (starts : Starts) (r : Registry) (id : TypeId) (d : Declaration) (r' : Registry) :
    Prop where
  contains : r.types.contains id
  same : r' = { r with findings := r'.findings }
  walks : r.catalog.Walks starts [] r.findings r'.findings
  lookup : r'.findings.lookup id = some d

variable {starts : Starts}

theorem Enrolls.types (h : Enrolls starts r id d r') : r'.types = r.types := by rw [h.same]

theorem Enrolls.catalog (h : Enrolls starts r id d r') : r'.catalog = r.catalog := by
  rw [h.same]
  rfl

theorem enrolls_registerAggregate (hb : r.types.Backward) (hi : r.findings.Indexed)
    (hs : ∀ name, r.rootName id name? = .ok name → starts.aggregate id name)
    (h : r.registerAggregate id name? = (.ok d, r')) : Enrolls starts r id d r' := by
  unfold registerAggregate at h
  split at h
  · next hc =>
    rcases register_eq_ok h with ⟨hl, rfl⟩ | ⟨name, found', hname, hmake, hl, rfl⟩
    · exact ⟨hc, rfl, .refl _, hl⟩
    · cases hdisc : r.catalog.discover id name r.findings with
      | error e => simp [hdisc, Except.mapError] at hmake
      | ok found =>
        obtain rfl : found = found' := by simpa [hdisc, Except.mapError] using hmake
        obtain ⟨⟨slot, found₁⟩, hdec, rfl⟩ := Catalog.map_eq_ok hdisc
        obtain ⟨hw, -⟩ := Catalog.walks_declare hb _ [] id name r.findings slot found₁ hi hdec
          (.start (hs name hname))
        exact ⟨hc, rfl, hw, hl⟩
  · cases h

theorem enrolls_registerEnumeration
    (hs : ∀ name, r.rootName id name? = .ok name → starts.enumeration id (some name) package?)
    (h : r.registerEnumeration id name? package? = (.ok d, r')) : Enrolls starts r id d r' := by
  unfold registerEnumeration at h
  split at h
  · next hc =>
    rcases register_eq_ok h with ⟨hl, rfl⟩ | ⟨name, found', hname, hmake, hl, rfl⟩
    · exact ⟨hc, rfl, .refl _, hl⟩
    · obtain rfl := Except.ok.inj hmake
      obtain ⟨hw, -⟩ := Catalog.walks_declareEnumeration (c := r.catalog) hc
        (.start (hs name hname))
      exact ⟨hc, rfl, hw, hl⟩
  · cases h

/-- Walks that may begin with one type, as a struct or as an enumeration. -/
def startsAt (id : TypeId) : Starts :=
  ⟨fun x _ => x = id, fun x _ _ => x = id⟩

theorem register_of_lookup {make : String → Except Failure Findings}
    (hl : r.findings.lookup id = some d) : r.register id name? make = (.ok d, r) := by
  simp only [register, hl]

theorem register_of_make {make : String → Except Failure Findings} {name : String}
    {found : Findings} (hl : r.findings.lookup id = none) (hname : r.rootName id name? = .ok name)
    (hm : make name = .ok found) (hf : found.lookup id = some d) :
    r.register id name? make = (.ok d, { r with findings := found }) := by
  simp only [register, hl, hname, hm, hf, Option.elim]

theorem register_of_unnamed {make : String → Except Failure Findings}
    (hl : r.findings.lookup id = none) (hname : r.rootName id name? = .error f) :
    r.register id name? make = (.error f, r) := by
  simp only [register, hl, hname]

theorem register_of_failed {make : String → Except Failure Findings} {name : String}
    (hl : r.findings.lookup id = none) (hname : r.rootName id name? = .ok name)
    (hm : make name = .error f) : r.register id name? make = (.error f, r) := by
  simp only [register, hl, hname, hm]

theorem register_same {make : String → Except Failure Findings} :
    (r.register id name? make).2 =
      { r with findings := (r.register id name? make).2.findings } := by
  simp only [register]
  cases r.findings.lookup id with
  | some d => rfl
  | none =>
    cases r.rootName id name? with
    | error f => rfl
    | ok name => cases hm : make name <;> simp only [hm]

/-- What is found when the target of a registration is declared under a name. -/
def discovered (r : Registry) (g : Registration) (name : String) : Except Failure Findings :=
  match g with
  | .addType _ _ | .registerAggregate _ _ =>
    (r.catalog.discover (g.target r.types) name r.findings).mapError fun d => .dangling d.id
  | .addEnumeration _ _ package? | .registerEnumeration _ _ package? =>
    .ok (r.catalog.declareEnumeration (g.target r.types) (some name) package? r.findings).2

/-- All registrations go the same way, but for what they find. -/
theorem attempt_eq_register (r : Registry) (g : Registration) : r.attempt g =
    if r.types.contains g.id then r.register (g.target r.types) g.name? (r.discovered g)
    else (.error (.unknownType g.id), r) := by
  by_cases hc : r.types.contains g.id
  · have ht : r.types.contains (g.target r.types) := Registration.contains_target hc
    rw [if_pos hc]
    cases g with
    | addType id name? => exact (if_pos hc).trans (if_pos ht)
    | addEnumeration id name? package? => exact (if_pos hc).trans (if_pos ht)
    | registerAggregate id name? => exact if_pos hc
    | registerEnumeration id name? package? => exact if_pos hc
  · rw [if_neg hc]
    cases g <;> exact if_neg hc

/-- A registry made from another one registers alike if all that a registration looks at is made
from it in the same way. -/
theorem attempt_map {u : Registry → Registry} {v : Declaration → Declaration}
    {w : Findings → Findings} (hc : (u r).types.contains g.id = r.types.contains g.id)
    (ht : g.target (u r).types = g.target r.types)
    (hl : ∀ x, (u r).findings.lookup x = (r.findings.lookup x).map v)
    (hn : ∀ x, (u r).rootName x g.name? = r.rootName x g.name?)
    (hm : ∀ name, (u r).discovered g name = (r.discovered g name).map w)
    (hw : ∀ (found : Findings) x, (w found).lookup x = (found.lookup x).map v)
    (hu : ∀ found, { u r with findings := w found } = u { r with findings := found }) :
    (u r).attempt g = ((r.attempt g).1.map v, u (r.attempt g).2) := by
  simp only [attempt_eq_register, register, hc, ht, hl, hn, hm]
  split
  · cases r.findings.lookup (g.target r.types) with
    | some d => rfl
    | none =>
      cases r.rootName (g.target r.types) g.name? with
      | error f => rfl
      | ok name =>
        simp only [Option.map_none]
        cases r.discovered g name with
        | error f => rfl
        | ok found =>
          simp only [Except.map, hw, hu]
          cases found.lookup (g.target r.types) <;> rfl
  · rfl

/-- A registration changes nothing but the findings. -/
theorem attempt_same (r : Registry) (g : Registration) :
    (r.attempt g).2 = { r with findings := (r.attempt g).2.findings } := by
  rw [attempt_eq_register]
  split
  · exact register_same
  · rfl

/-- Registering a type that is declared changes nothing. -/
theorem perform_of_lookup (hc : r.types.contains g.id)
    (hl : r.findings.lookup (g.target r.types) = some d) : r.perform g = .ok (d, r) := by
  rw [perform_eq_ok, attempt_eq_register, if_pos hc]
  exact register_of_lookup hl

theorem lookup_of_slot? {found : Findings} {slot : Nat} (hi : found.Indexed)
    (hs : found.slot? id = some slot) : ∃ d, found.lookup id = some d := by
  obtain ⟨d, hd, ht⟩ := (hi.slot?_iff id slot).mp hs
  exact ⟨d, hi.lookup_eq_some.mpr ⟨slot, hd, ht⟩⟩

/-- Discovery walks from the type and declares it, or comes upon a member whose type is not in the
set. -/
theorem discover_cases (hb : r.types.Backward) (hi : r.findings.Indexed) (hc : r.types.contains id)
    (name : String) :
    (∃ e, r.catalog.discover id name r.findings = .error e ∧ r.catalog.Stray id e) ∨
      ∃ d found, r.catalog.discover id name r.findings = .ok found ∧
        r.catalog.Walks (startsAt id) [] r.findings found ∧ found.lookup id = some d := by
  cases hdisc : r.catalog.discover id name r.findings with
  | error e => exact .inl ⟨e, rfl, Catalog.stray_discover hb hi hc hdisc⟩
  | ok found =>
    obtain ⟨⟨slot, found'⟩, hdec, rfl⟩ := Catalog.map_eq_ok hdisc
    have hmeets : r.catalog.Meets (startsAt id) ⟨[], r.findings⟩ id name := .start rfl
    obtain ⟨hw, hs⟩ := Catalog.walks_declare hb _ [] id name _ slot found' hi hdec hmeets
    obtain ⟨d, hd⟩ := lookup_of_slot? (hw.indexed hi) hs
    exact .inr ⟨d, found', rfl, hw, hd⟩

/-- Declaring an enumeration is a walk from its type and declares it. -/
theorem exists_declareEnumeration (hi : r.findings.Indexed) (hc : r.types.contains id)
    (name? package? : Option String) :
    ∃ d found, (r.catalog.declareEnumeration id name? package? r.findings).2 = found ∧
      r.catalog.Walks (startsAt id) [] r.findings found ∧ found.lookup id = some d := by
  have hmeets : r.catalog.MeetsEnumeration (startsAt id) ⟨[], r.findings⟩ id name? package? :=
    .start rfl
  obtain ⟨hw, hs⟩ := Catalog.walks_declareEnumeration hc hmeets
  obtain ⟨d, hd⟩ := lookup_of_slot? (hw.indexed hi) hs
  exact ⟨d, _, rfl, hw, hd⟩

/-- The ways that an attempt can go. -/
inductive Attempts (r : Registry) (g : Registration) :
    Except Failure Declaration × Registry → Prop
  | unknown (hc : ¬r.types.contains g.id) : Attempts r g (.error (.unknownType g.id), r)
  | known {d : Declaration} (hc : r.types.contains g.id)
      (hl : r.findings.lookup (g.target r.types) = some d) : Attempts r g (.ok d, r)
  | unnamed (hc : r.types.contains g.id) (hl : r.findings.lookup (g.target r.types) = none)
      (hname : g.name?.getD "" = "")
      (hown : (r.types.get? (g.target r.types)).bind (·.name) = none) :
      Attempts r g (.error (.unnamedType (g.target r.types)), r)
  | stray {e : Dangling} (hc : r.types.contains g.id)
      (hs : r.catalog.Stray (g.target r.types) e) : Attempts r g (.error (.dangling e.id), r)
  | declared {d : Declaration} {found : Findings} (hc : r.types.contains g.id)
      (hw : r.catalog.Walks (startsAt (g.target r.types)) [] r.findings found)
      (hd : found.lookup (g.target r.types) = some d) :
      Attempts r g (.ok d, { r with findings := found })

theorem rootName_eq_error {id : TypeId} {name? : Option String}
    (h : r.rootName id name? = .error f) : f = .unnamedType id ∧ name?.getD "" = "" ∧
      (r.types.get? id).bind (·.name) = none := by
  unfold rootName at h
  split at h
  · cases h
  · next hnone =>
    obtain ⟨hname, hown⟩ : name?.filter (· ≠ "") = none ∧
        (r.types.get? id).bind (·.name) = none := by
      simpa using hnone
    have hempty : name?.getD "" = "" := by
      cases name? with
      | none => rfl
      | some name => simpa using hname
    exact ⟨(Except.error.inj h).symm, hempty, hown⟩

/-- What is found declares the target, or discovery comes upon a member whose type is not in the
set. -/
theorem discovered_cases (hb : r.types.Backward) (hi : r.findings.Indexed)
    (hc : r.types.contains g.id) (name : String) :
    (∃ e, r.discovered g name = .error (.dangling e.id) ∧
        r.catalog.Stray (g.target r.types) e) ∨
      ∃ d found, r.discovered g name = .ok found ∧
        r.catalog.Walks (startsAt (g.target r.types)) [] r.findings found ∧
        found.lookup (g.target r.types) = some d := by
  have ht : r.types.contains (g.target r.types) := Registration.contains_target hc
  have hstruct := discover_cases hb hi ht name
  have henum := exists_declareEnumeration hi ht (some name)
  cases g with
  | addType id name? | registerAggregate id name? =>
    rcases hstruct with ⟨e, he, hs⟩ | ⟨d, found, hok, hfound⟩
    · exact .inl ⟨e, by simp only [discovered, he]; rfl, hs⟩
    · exact .inr ⟨d, found, by simp only [discovered, hok]; rfl, hfound⟩
  | addEnumeration id name? package? | registerEnumeration id name? package? =>
    obtain ⟨d, found, heq, hfound⟩ := henum package?
    exact .inr ⟨d, found, congrArg Except.ok heq, hfound⟩

/-- Every attempt goes one of these ways. -/
theorem attempts (hb : r.types.Backward) (hi : r.findings.Indexed) (g : Registration) :
    r.Attempts g (r.attempt g) := by
  rw [attempt_eq_register]
  by_cases hc : r.types.contains g.id
  · rw [if_pos hc]
    cases hl : r.findings.lookup (g.target r.types) with
    | some d =>
      rw [register_of_lookup hl]
      exact .known hc hl
    | none =>
      cases hn : r.rootName (g.target r.types) g.name? with
      | error f =>
        obtain ⟨rfl, hname, hown⟩ := rootName_eq_error hn
        rw [register_of_unnamed hl hn]
        exact .unnamed hc hl hname hown
      | ok name =>
        rcases discovered_cases hb hi hc name with ⟨e, he, hs⟩ | ⟨d, found, hok, hw, hd⟩
        · rw [register_of_failed hl hn he]
          exact .stray hc hs
        · rw [register_of_make hl hn hok hd]
          exact .declared hc hw hd
  · rw [if_neg hc]
    exact .unknown hc

/-- Every registration enrolls its target. -/
theorem enrolls_target (hb : r.types.Backward) (hi : r.findings.Indexed)
    (h : r.perform g = .ok (d, r')) :
    Enrolls (startsAt (g.target r.types)) r (g.target r.types) d r' := by
  have hattempt := attempts hb hi g
  rw [perform_eq_ok.mp h] at hattempt
  cases hattempt with
  | known hc hl => exact ⟨Registration.contains_target hc, rfl, .refl _, hl⟩
  | declared hc hw hd => exact ⟨Registration.contains_target hc, rfl, hw, hd⟩

/-- An admissible registration enrolls what lies behind the pointers of its id. -/
theorem enrolls_perform (hb : r.types.Backward) (hi : r.findings.Indexed)
    (ha : g.Admissible r.types) (h : r.perform g = .ok (d, r')) :
    Enrolls (startsAt (r.types.strip g.id)) r (r.types.strip g.id) d r' :=
  Registration.target_eq_strip ha ▸ enrolls_target hb hi h

/-- A type with a name is registered as a struct in any set that mentions only its own ids. -/
theorem exists_registerAggregate {name : String} (hb : r.types.Backward) (hclosed : r.types.Closed)
    (hi : r.findings.Indexed) (hc : r.types.contains id) (hname : r.rootName id name? = .ok name) :
    ∃ d r', r.registerAggregate id name? = (.ok d, r') := by
  rw [registerAggregate, if_pos hc]
  cases hl : r.findings.lookup id with
  | some d => exact ⟨d, r, register_of_lookup hl⟩
  | none =>
    rcases discover_cases hb hi hc name with ⟨e, -, hstray⟩ | ⟨d, found, hdisc, -, hd⟩
    · exact absurd hstray (Catalog.not_stray hclosed)
    · exact ⟨d, _, register_of_make hl hname (by rw [hdisc]; rfl) hd⟩

/-- A type with a name is registered as an enumeration. -/
theorem exists_registerEnumeration {name : String} (hi : r.findings.Indexed)
    (hc : r.types.contains id) (hname : r.rootName id name? = .ok name) :
    ∃ d r', r.registerEnumeration id name? package? = (.ok d, r') := by
  rw [registerEnumeration, if_pos hc]
  cases hl : r.findings.lookup id with
  | some d => exact ⟨d, r, register_of_lookup hl⟩
  | none =>
    obtain ⟨d, found, rfl, -, hd⟩ := exists_declareEnumeration hi hc (some name) package?
    exact ⟨d, _, register_of_make hl hname rfl hd⟩

end Registry

end TypeGraph

import TypeGraph.Proofs.Registry.PostOrder
import TypeGraph.Proofs.Registry.Renumbering
/-!
What is in the bodies of declarations while a walk goes on. A struct that is being declared has an
empty interface; one that is filled in has the fields and the bases of its members, and all that
these use has a slot. Only structs and scalars are declared.
-/

namespace TypeGraph

namespace Declaration

variable {d : Declaration}

theorem fields_of_isEnumeration (h : d.isEnumeration) : d.fields = [] := by
  cases hb : d.body with
  | interface => simp [isEnumeration, hb] at h
  | enumeration => simp [fields, hb]

theorem inherited_of_isEnumeration (h : d.isEnumeration) : d.inherited = [] := by
  cases hb : d.body with
  | interface => simp [isEnumeration, hb] at h
  | enumeration => simp [inherited, hb]

end Declaration

namespace Findings

/-- A declaration that is filled in keeps all but its body. -/
theorem lookup_fill (found : Findings) (slot : Slot) (body : Body) (id : TypeId) :
    (found.fill slot body).lookup id =
      (found.slot? id).bind fun i =>
        (found.begun[i]?).map fun d => if slot = i then { d with body } else d := by
  simp only [lookup, slot?_fill]
  congr 1
  funext i
  exact getElem?_begun_fill found slot body i

@[simp] theorem name_lookup_fill (found : Findings) (slot : Slot) (body : Body) (id : TypeId) :
    ((found.fill slot body).lookup id).map (·.name) = (found.lookup id).map (·.name) := by
  rw [lookup_fill, lookup]
  cases found.slot? id with
  | none => rfl
  | some i =>
    simp only [Option.bind_some, Option.map_map]
    congr 1
    funext d
    simp only [Function.comp_apply]
    split <;> rfl

end Findings

namespace Catalog

variable {c : Catalog} {starts : Starts} {w w' : Walk} {found found' : Findings} {d : Declaration}
variable {own : Description} {name : String} {id x : TypeId}

/-- Walks begin with structs and scalars, under any names. -/
structure FittingStarts (c : Catalog) (starts : Starts) : Prop where
  aggregate : ∀ id name, starts.aggregate id name →
    ∃ own, c.types.get? id = some own ∧ own.isAggregate
  enumeration : ∀ id name? package?, starts.enumeration id name? package? →
    ∃ own kind, c.types.get? id = some own ∧ own.shape = .scalar kind

theorem FittingStarts.plain (h : c.FittingStarts starts) : c.PlainStarts starts := by
  intro id name? package? hstart x
  obtain ⟨own, kind, ho, hs⟩ := h.enumeration id name? package? hstart
  exact not_links_of_scalar ho hs

theorem Meets.isAggregate (hfit : c.FittingStarts starts) (h : c.Meets starts w id name) :
    ∃ own, c.types.get? id = some own ∧ own.isAggregate := by
  cases h with
  | start h => exact hfit.aggregate _ _ h
  | member _ _ ho ha => exact ⟨_, ho, ha⟩

theorem MeetsEnumeration.scalar {name? package? : Option String} (hfit : c.FittingStarts starts)
    (h : c.MeetsEnumeration starts w id name? package?) :
    ∃ own kind, c.types.get? id = some own ∧ own.shape = .scalar kind := by
  cases h with
  | start h => exact hfit.enumeration _ _ _ h
  | member _ _ ho _ hs => exact ⟨_, _, ho, hs⟩

/-- How far a declaration has come. -/
inductive Drawn (c : Catalog) (found : Findings) (d : Declaration) : Prop
  | opened {own : Description} (ho : c.types.get? d.ty = some own) (ha : own.isAggregate)
      (hb : d.body = .interface [] [])
  | interface {own : Description} (ho : c.types.get? d.ty = some own) (ha : own.isAggregate)
      (hs : ∀ x, c.Links d.ty x → (found.slot? x).isSome)
      (hb : d.body = .interface (c.fieldsOf d.name own.members)
        (c.basesOf found d.name own.members))
  | enumeration {own : Description} {kind : Scalar} (ho : c.types.get? d.ty = some own)
      (hs : own.shape = .scalar kind) (he : d.isEnumeration)

/-- More findings change no bases of a struct whose members are all walked. -/
theorem Drawn.extended (h : c.Drawn found d) (hi : found.Indexed) (hext : found.Extends found') :
    c.Drawn found' d := by
  cases h with
  | opened ho ha hb => exact .opened ho ha hb
  | interface ho ha hs hb =>
    refine .interface ho ha (fun x hx => hext.isSome_slot? (hs x hx)) ?_
    rw [hb, basesOf_kept hext hi ho (fun _ hm => hm) fun m _ x hu => hs x ⟨m, hu⟩]
  | enumeration ho hs he => exact .enumeration ho hs he

theorem basesOf_fill (c : Catalog) (found : Findings) (slot : Slot) (body : Body)
    (enclosing : String) (ms : List Member) :
    c.basesOf (found.fill slot body) enclosing ms = c.basesOf found enclosing ms := by
  have hname (target : TypeId) : ((found.fill slot body).lookup target).elim "" (·.name) =
      (found.lookup target).elim "" (·.name) := by
    have hsame := found.name_lookup_fill slot body target
    cases hold : found.lookup target <;>
      cases hnew : (found.fill slot body).lookup target <;> simp_all
  simp only [basesOf, baseName, hname]

theorem Drawn.filled (h : c.Drawn found d) (slot : Slot) (body : Body) :
    c.Drawn (found.fill slot body) d := by
  cases h with
  | opened ho ha hb => exact .opened ho ha hb
  | interface ho ha hs hb => exact .interface ho ha hs (by rw [basesOf_fill]; exact hb)
  | enumeration ho hs he => exact .enumeration ho hs he

/-- What is being declared are structs, and everything that was begun has come so far. -/
structure Sketched (c : Catalog) (w : Walk) : Prop where
  opened : ∀ slot ∈ w.opened, ∃ d own, w.found.begun[slot]? = some d ∧
    c.types.get? d.ty = some own ∧ own.isAggregate
  begun : ∀ d ∈ w.found.begun, c.Drawn w.found d

theorem sketched_empty (c : Catalog) : c.Sketched ⟨[], {}⟩ :=
  ⟨by simp, by simp⟩

namespace Sketched

variable {opened : List Slot} {slot : Slot}

theorem extended (h : c.Sketched ⟨opened, found⟩) (hi : found.Indexed)
    (hext : found.Extends found') (hnew : ∀ d ∈ found'.begun, d ∈ found.begun ∨ c.Drawn found' d) :
    c.Sketched ⟨opened, found'⟩ := by
  constructor
  · intro slot hslot
    obtain ⟨d, own, hd, hown⟩ := h.opened slot hslot
    exact ⟨d, own, hext.getElem? hd, hown⟩
  · intro d hd
    rcases hnew d hd with hold | hdrawn
    · exact (h.begun d hold).extended hi hext
    · exact hdrawn

theorem noted (h : c.Sketched ⟨opened, found⟩) (hi : found.Indexed) (e : Log.Event) :
    c.Sketched ⟨opened, found.note e⟩ :=
  h.extended hi (.note found e) fun _ hd => .inl hd

theorem finished (h : c.Sketched ⟨opened, found⟩) (hi : found.Indexed) (slot : Slot) :
    c.Sketched ⟨opened, found.finish slot⟩ :=
  h.extended hi (.finish found slot) fun _ hd => .inl hd

theorem entered (h : c.Sketched ⟨opened, found⟩) (hi : found.Indexed)
    (hf : found.slot? d.ty = none) (hd : c.Drawn found d) :
    c.Sketched ⟨opened, found.enter d⟩ := by
  have hext := Findings.Extends.enter hf
  refine h.extended hi hext fun e he => ?_
  rcases List.mem_append.mp he with he | he
  · exact .inl he
  · obtain rfl := List.mem_singleton.mp he
    exact .inr (hd.extended hi hext)

/-- The innermost struct gets its body when all that its members use has a slot. -/
theorem filled (h : c.Sketched ⟨slot :: opened, found⟩) (hd : found.begun[slot]? = some d)
    (ho : c.types.get? d.ty = some own) (hs : ∀ x, c.Links d.ty x → (found.slot? x).isSome) :
    c.Sketched ⟨opened, found.fill slot (.interface (c.fieldsOf d.name own.members)
      (c.basesOf found d.name own.members))⟩ := by
  let body : Body := .interface (c.fieldsOf d.name own.members) (c.basesOf found d.name own.members)
  have ha : own.isAggregate := by
    obtain ⟨d', own', hd', ho', ha⟩ := h.opened slot List.mem_cons_self
    obtain rfl : d' = d := Option.some.inj (hd'.symm.trans hd)
    obtain rfl : own' = own := Option.some.inj (ho'.symm.trans ho)
    exact ha
  have hself : c.Drawn (found.fill slot body) { d with body } :=
    .interface ho ha hs (by rw [basesOf_fill])
  constructor
  · intro i hi
    obtain ⟨e, own, he, hown⟩ := h.opened i (List.mem_cons_of_mem _ hi)
    refine ⟨_, own, by rw [Findings.getElem?_begun_fill, he, Option.map_some], ?_⟩
    -- whichever slot is filled, the type in it stays
    split <;> exact hown
  · intro e he
    obtain ⟨i, hslot⟩ := List.getElem?_of_mem he
    rw [Findings.getElem?_begun_fill] at hslot
    obtain ⟨e', he', rfl⟩ := Option.map_eq_some_iff.mp hslot
    split
    · next hsame =>
      obtain rfl : e' = d := Option.some.inj (he'.symm.trans (hsame ▸ hd))
      exact hself
    · exact (h.begun e' (List.mem_of_getElem? he')).filled slot body

end Sketched

theorem Step.sketched (hfit : c.FittingStarts starts) (h : c.Step starts w w')
    (hi : w.found.Indexed) (hw : c.Sketched w) : c.Sketched w' := by
  cases h with
  | note e => exact hw.noted hi e
  | @enter id name hf hc hm =>
    obtain ⟨own, ho, ha⟩ := hm.isAggregate hfit
    have hd : c.Drawn w.found (c.interface id name) := .opened ho ha rfl
    have hentered := hw.entered hi hf hd
    refine ⟨?_, hentered.begun⟩
    intro slot hslot
    rcases List.mem_cons.mp hslot with rfl | hslot
    · exact ⟨c.interface id name, own, by simp [Findings.nextSlot], ho, ha⟩
    · exact hentered.opened slot hslot
  | @enumerate id name? package? hf hc hm =>
    obtain ⟨own, kind, ho, hs⟩ := hm.scalar hfit
    have hd : c.Drawn w.found (c.enumeration id name? package?) := .enumeration ho hs rfl
    exact (hw.entered hi hf hd).finished (hi.enter hf) _
  | @finish top opened d own ht hd ho hs =>
    have hinner : c.Sketched ⟨top :: opened, w.found⟩ := ht ▸ hw
    exact (hinner.filled hd ho hs).finished (hi.fill _ _) top

/-- A walk from the beginning leaves findings in order, and everything drawn. -/
theorem Walks.drawn (hfit : c.FittingStarts starts) (hw : c.Walks starts [] {} found) :
    c.Kept ⟨[], found⟩ ∧ ∀ d ∈ found.begun, c.Drawn found d := by
  have hkept : c.Kept ⟨[], found⟩ ∧ c.Sketched ⟨[], found⟩ := by
    refine kept_of_run (P := fun w => c.Kept w ∧ c.Sketched w) ?_ hw.run
      ⟨c.kept_empty, c.sketched_empty⟩
    intro u v hs hu
    exact ⟨hs.kept hfit.plain hu.1, hs.sketched hfit hu.1.indexed hu.2⟩
  exact ⟨hkept.1, hkept.2.begun⟩

/-- A field is that of a member that is neither skipped nor embedded as a struct, and all that the
struct uses has a slot. -/
theorem Drawn.of_field (h : c.Drawn found d) {f : Field} (hf : f ∈ d.fields) :
    (∀ x, c.Links d.ty x → (found.slot? x).isSome) ∧
      ∃ own m, c.types.get? d.ty = some own ∧ m ∈ own.members ∧ m.skip = false ∧
        ¬(m.embedded ∧ (c.types.get? (c.types.strip m.ty)).any (·.isAggregate)) ∧ f.ty = m.ty := by
  cases h with
  | opened ho ha hb => simp [Declaration.fields, hb] at hf
  | @interface own ho ha hs hb =>
    rw [Declaration.fields, hb] at hf
    obtain ⟨m, hm, hskip, hembedded, rfl⟩ := mem_fieldsOf hf
    exact ⟨hs, own, m, ho, hm, hskip, hembedded, rfl⟩
  | enumeration ho hs he => simp [Declaration.fields_of_isEnumeration he] at hf

/-- What a field leads to is declared, once the walk is over. -/
theorem Drawn.leads (h : c.Drawn found d) (hkept : c.Kept ⟨[], found⟩) {f : Field}
    (hf : f ∈ d.fields) (hx : c.LeadsTo f.ty x) : ∃ e ∈ found.declared, e.ty = x := by
  obtain ⟨hseen, own, m, ho, hm, hskip, hembedded, hty⟩ := h.of_field hf
  have hlinks : c.Links d.ty x := ⟨m, .leaf ho hm hskip hembedded (hty ▸ hx)⟩
  have hlisted : x ∈ found.declared.map (·.ty) := (mem_declared_iff hkept).mpr (hseen x hlinks)
  exact List.mem_map.mp hlisted

/-- The types of fields are types of the set. -/
theorem Drawn.contains_field (h : c.Drawn found d) (hclosed : c.types.Closed) {f : Field}
    (hf : f ∈ d.fields) : c.types.contains f.ty := by
  obtain ⟨-, own, m, ho, hm, -, -, hty⟩ := h.of_field hf
  rw [hty]
  exact hclosed d.ty own ho m.ty (Description.ids_of_mem_members hm)

/-- Scalars are declared as enumerations. -/
theorem Drawn.isEnumeration {kind : Scalar} (h : c.Drawn found d)
    (ho : c.types.get? d.ty = some own) (hs : own.shape = .scalar kind) : d.isEnumeration := by
  cases h with
  | opened ho' ha | interface ho' ha =>
    obtain rfl := Option.some.inj (ho'.symm.trans ho)
    simp [Description.isAggregate, hs] at ha
  | enumeration _ _ he => exact he

/-- Structs are declared as interfaces. -/
theorem Drawn.isEnumeration_eq_false (h : c.Drawn found d) (ho : c.types.get? d.ty = some own)
    (ha : own.isAggregate) : d.isEnumeration = false := by
  cases h with
  | opened _ _ hb | interface _ _ _ hb => simp [Declaration.isEnumeration, hb]
  | enumeration ho' hs =>
    obtain rfl := Option.some.inj (ho'.symm.trans ho)
    simp [Description.isAggregate, hs] at ha

end Catalog

/-- A call that adds a struct, or a named scalar that may have constants as an enumeration; pointers
to them do as well. -/
inductive Registration.Fits (types : TypeSet) : Registration → Prop
  | type {id : TypeId} {name? : Option String} {own : Description}
      (ho : types.get? (types.strip id) = some own) (ha : own.isAggregate) :
      Fits types (.addType id name?)
  | enumeration {id : TypeId} {name? package? : Option String} {own : Description} {kind : Scalar}
      (ho : types.get? (types.strip id) = some own) (hn : own.name.isSome)
      (hs : own.shape = .scalar kind) (hk : kind.enumerable) :
      Fits types (.addEnumeration id name? package?)

namespace Registry

variable {r r' : Registry} {g : Registration} {gs : List Registration} {d : Declaration}

end Registry

end TypeGraph

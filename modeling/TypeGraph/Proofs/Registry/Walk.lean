import Mathlib.Logic.Relation
import TypeGraph.Proofs.Registry.Findings
import TypeGraph.Proofs.Registry.Reach
/-!
Discovery as a walk in steps: a declaration is entered, all that its members use is declared, then
it is filled in and listed. Every run of discovery is a run of these steps, so what each step keeps
holds of discovery.
-/

namespace TypeGraph

open Relation

/-- How far a walk has come: the slots being declared, the innermost first, and what was found. -/
structure Walk where
  opened : List Nat
  found : Findings

/-- What walks may begin with: structs and their names, enumerations with the name and the package
given for them. -/
structure Starts where
  aggregate : TypeId → String → Prop
  enumeration : TypeId → Option String → Option String → Prop

namespace Catalog

variable {c : Catalog} {starts : Starts} {w w' : Walk} {opened : List Nat} {top slot : Nat}
variable {found found' : Findings} {id x : TypeId} {name : String} {d : Declaration} {m : Member}

/-- The fields that members add to the interface called `enclosing`. -/
def fieldsOf (c : Catalog) (enclosing : String) (ms : List Member) : List Field :=
  ms.flatMap fun m => match c.part enclosing m with
    | .ok (.field field) => [field]
    | _ => []

/-- The name under which an embedded struct is listed as a base. -/
def baseName (c : Catalog) (found : Findings) (target : TypeId) (field : Field) : String :=
  if !c.settings.declareEmbedded || (c.customText target).isSome then
    ((c.types.get? target).bind (·.name)).getD field.name
  else (found.lookup target).elim "" (·.name)

/-- The names of bases that members add to the interface called `enclosing`. -/
def basesOf (c : Catalog) (found : Findings) (enclosing : String) (ms : List Member) :
    List String :=
  ms.flatMap fun m => match c.part enclosing m with
    | .ok (.base target field) => [c.baseName found target field]
    | _ => []

/-- A struct that the walk may enter next, and its name: one to begin with, or one that a member of
the innermost struct uses. -/
inductive Meets (c : Catalog) (starts : Starts) : Walk → TypeId → String → Prop
  | start {found : Findings} {id : TypeId} {name : String} (h : starts.aggregate id name) :
      Meets c starts ⟨[], found⟩ id name
  | member {top : Nat} {opened : List Nat} {found : Findings} {d : Declaration} {m : Member}
      {id : TypeId} {own : Description} (hd : found.begun[top]? = some d)
      (hu : c.Uses d.ty m id) (ho : c.types.get? id = some own) (ha : own.isAggregate) :
      Meets c starts ⟨top :: opened, found⟩ id
        (own.name.getD (Field.ofMember c.types m d.name).contextualName)

/-- An enumeration that the walk may declare next, and the name and the package given for it. -/
inductive MeetsEnumeration (c : Catalog) (starts : Starts) :
    Walk → TypeId → Option String → Option String → Prop
  | start {found : Findings} {id : TypeId} {name? package? : Option String}
      (h : starts.enumeration id name? package?) :
      MeetsEnumeration c starts ⟨[], found⟩ id name? package?
  | member {top : Nat} {opened : List Nat} {found : Findings} {d : Declaration} {m : Member}
      {id : TypeId} {own : Description} {kind : Scalar} (hd : found.begun[top]? = some d)
      (hu : c.Uses d.ty m id) (ho : c.types.get? id = some own) (hn : own.name.isSome)
      (hs : own.shape = .scalar kind) :
      MeetsEnumeration c starts ⟨top :: opened, found⟩ id none none

/-- One step of discovery. -/
inductive Step (c : Catalog) (starts : Starts) (w : Walk) : Walk → Prop
  | note (e : Log.Event) : Step c starts w ⟨w.opened, w.found.note e⟩
  | enter {id : TypeId} {name : String} (hf : w.found.slot? id = none)
      (hc : c.types.contains id) (hm : c.Meets starts w id name) :
      Step c starts w ⟨w.found.nextSlot :: w.opened, w.found.enter (c.interface id name)⟩
  | enumerate {id : TypeId} {name? package? : Option String} (hf : w.found.slot? id = none)
      (hc : c.types.contains id) (hm : c.MeetsEnumeration starts w id name? package?) :
      Step c starts w
        ⟨w.opened, (w.found.enter (c.enumeration id name? package?)).finish w.found.nextSlot⟩
  | finish {top : Nat} {opened : List Nat} {d : Declaration} {own : Description}
      (ht : w.opened = top :: opened) (hd : w.found.begun[top]? = some d)
      (ho : c.types.get? d.ty = some own) (hs : ∀ x, c.Links d.ty x → (w.found.slot? x).isSome) :
      Step c starts w ⟨opened, (w.found.fill top (.interface (c.fieldsOf d.name own.members)
        (c.basesOf w.found d.name own.members))).finish top⟩

/-- Slots and types correspond at every step. -/
theorem Step.indexed (h : c.Step starts w w') (hi : w.found.Indexed) : w'.found.Indexed := by
  cases h with
  | note e => exact hi.note e
  | enter hf => exact hi.enter hf
  | enumerate hf => exact (hi.enter hf).finish _
  | finish => exact (hi.fill _ _).finish _

/-- A walk that comes back to the structs being declared at its beginning, and keeps what was found
before. -/
structure Walks (c : Catalog) (starts : Starts) (opened : List Nat) (found found' : Findings) :
    Prop where
  run : ReflTransGen (c.Step starts) ⟨opened, found⟩ ⟨opened, found'⟩
  kept : found.Extends found'

/-- What every step keeps, a run keeps. -/
theorem kept_of_run {P : Walk → Prop} (hstep : ∀ u v, c.Step starts u v → P u → P v)
    (h : ReflTransGen (c.Step starts) w w') (hw : P w) : P w' := by
  induction h with
  | refl => exact hw
  | tail _ hs ih => exact hstep _ _ hs ih

namespace Walks

theorem refl (found : Findings) : c.Walks starts opened found found :=
  ⟨.refl, .refl found⟩

theorem trans {a b e : Findings} (h : c.Walks starts opened a b) (k : c.Walks starts opened b e) :
    c.Walks starts opened a e :=
  ⟨h.run.trans k.run, h.kept.trans k.kept⟩

theorem note (found : Findings) (e : Log.Event) : c.Walks starts opened found (found.note e) :=
  ⟨.single (.note e), .note found e⟩

theorem indexed (h : c.Walks starts opened found found') (hi : found.Indexed) : found'.Indexed :=
  kept_of_run (P := fun w => w.found.Indexed) (fun _ _ hs => hs.indexed) h.run hi

end Walks

theorem bind_eq_ok {ε α β : Type} {x : Except ε α} {f : α → Except ε β} {b : β}
    (h : (x >>= f) = .ok b) : ∃ a, x = .ok a ∧ f a = .ok b := by
  cases x with
  | error e => cases h
  | ok a => exact ⟨a, rfl, h⟩

theorem map_eq_ok {ε α β : Type} {x : Except ε α} {f : α → β} {b : β}
    (h : x.map f = .ok b) : ∃ a, x = .ok a ∧ f a = b := by
  cases x with
  | error e => cases h
  | ok a => exact ⟨a, rfl, Except.ok.inj h⟩

theorem exists_eq_ok {ε α : Type} {x : Except ε α} {p : α → Bool} (h : x.toOption.any p) :
    ∃ a, x = .ok a ∧ p a := by
  cases x with
  | error e => cases h
  | ok a => exact ⟨a, rfl, h⟩

theorem MeetsEnumeration.note {name? package? : Option String}
    (h : c.MeetsEnumeration starts w id name? package?) (e : Log.Event) :
    c.MeetsEnumeration starts ⟨w.opened, w.found.note e⟩ id name? package? := by
  cases h with
  | start h => exact .start h
  | member hd hu ho hn hs => exact .member hd hu ho hn hs

theorem walks_declareEnumeration {name? package? : Option String} (hc : c.types.contains id)
    (hm : c.MeetsEnumeration starts ⟨opened, found⟩ id name? package?) :
    c.Walks starts opened found (c.declareEnumeration id name? package? found).2 ∧
      (c.declareEnumeration id name? package? found).2.slot? id =
        some (c.declareEnumeration id name? package? found).1 := by
  unfold declareEnumeration
  cases hf : found.slot? id with
  | some slot => exact ⟨.note found _, hf⟩
  | none =>
    let d := c.enumeration id name? package?
    let noted := found.note (.enumDeclared d.name d.members.length)
    have hf' : noted.slot? d.ty = none := hf
    have hstep := Step.enumerate (w := ⟨opened, noted⟩) hf hc (hm.note _)
    refine ⟨⟨.tail (.single (.note _)) hstep, ?_⟩, ?_⟩
    · exact (Findings.Extends.note found _).trans
        ((Findings.Extends.enter hf').trans (.finish _ _))
    · rw [Findings.slot?_finish, Findings.slot?_enter]
      simp [enumeration, Findings.nextSlot]

/-- What is asked of a way to declare structs while `opened` are being declared. -/
def Declares (c : Catalog) (starts : Starts) (opened : List Nat) (declare : Declare) : Prop :=
  ∀ id name found slot found', found.Indexed → declare id name found = .ok (slot, found') →
    c.Meets starts ⟨opened, found⟩ id name →
      c.Walks starts opened found found' ∧ found'.slot? id = some slot

variable {declare : Declare}

theorem walks_visitLeaf (hdec : c.Declares starts (top :: opened) declare) (hi : found.Indexed)
    (hd : found.begun[top]? = some d) (hu : ∀ x, c.LeadsTo m.ty x → c.Uses d.ty m x) {leaf : Leaf}
    (hleaf : c.EndsAt (Field.ofMember c.types m d.name).contextualName m.ty leaf)
    (h : c.visitLeaf declare found leaf = .ok found') :
    c.Walks starts (top :: opened) found found' ∧
      ∀ x, leaf.declares = some x → (found'.slot? x).isSome := by
  cases leaf with
  | aggregate x name =>
    obtain ⟨hto, own, ho, ha, rfl⟩ := hleaf
    obtain ⟨r, hr, rfl⟩ := map_eq_ok h
    obtain ⟨hw, hs⟩ := hdec x _ found r.1 r.2 hi hr (.member hd (hu x hto) ho ha)
    refine ⟨hw, ?_⟩
    intro y hy
    obtain rfl := Option.some.inj hy
    simp [hs]
  | enumeration x =>
    obtain ⟨hto, own, ho, hn, kind, hk⟩ := hleaf
    obtain rfl := Except.ok.inj h
    have hmeets : c.MeetsEnumeration starts ⟨top :: opened, found⟩ x none none :=
      .member hd (hu x hto) ho hn hk
    obtain ⟨hw, hs⟩ := walks_declareEnumeration (TypeSet.contains_of_get? ho) hmeets
    refine ⟨hw, ?_⟩
    intro y hy
    obtain rfl := Option.some.inj hy
    simp [hs]
  | inline x what =>
    obtain rfl := Except.ok.inj h
    exact ⟨.note found _, by simp [Leaf.declares]⟩
  | dangling x => cases h

theorem walks_visitLeaves (hdec : c.Declares starts (top :: opened) declare) (hi : found.Indexed)
    (hd : found.begun[top]? = some d) (hu : ∀ x, c.LeadsTo m.ty x → c.Uses d.ty m x)
    {leaves : List Leaf}
    (hl : ∀ leaf ∈ leaves, c.EndsAt (Field.ofMember c.types m d.name).contextualName m.ty leaf)
    (h : leaves.foldlM (c.visitLeaf declare) found = .ok found') :
    c.Walks starts (top :: opened) found found' ∧
      ∀ leaf ∈ leaves, ∀ x, leaf.declares = some x → (found'.slot? x).isSome := by
  induction leaves generalizing found with
  | nil =>
    obtain rfl := Except.ok.inj h
    exact ⟨.refl found, by simp⟩
  | cons leaf leaves ih =>
    rw [List.foldlM_cons] at h
    obtain ⟨found₁, h₁, h₂⟩ := bind_eq_ok h
    obtain ⟨hw, hs⟩ := walks_visitLeaf hdec hi hd hu (hl leaf (by simp)) h₁
    obtain ⟨hw', hs'⟩ := ih (hw.indexed hi) (hw.kept.getElem? hd)
      (fun l hm => hl l (List.mem_cons_of_mem _ hm)) h₂
    refine ⟨hw.trans hw', ?_⟩
    intro l hm x hx
    rcases List.mem_cons.mp hm with rfl | hm
    · exact hw'.kept.isSome_slot? (hs x hx)
    · exact hs' l hm x hx

/-- What a member adds: nothing, the field that it is, or the struct that it embeds. -/
theorem part_eq_ok {part : Part} (h : c.part name m = .ok part) :
    (m.skip ∧ part = .nothing) ∨
      (m.skip = false ∧
          ¬(m.embedded ∧ (c.types.get? (c.types.strip m.ty)).any (·.isAggregate)) ∧
        part = .field (Field.ofMember c.types m name)) ∨
      (m.skip = false ∧ m.embedded ∧
        ∃ e, c.types.get? (c.types.strip m.ty) = some e ∧ e.isAggregate ∧
          part = .base (c.types.strip m.ty) (Field.ofMember c.types m name)) := by
  simp only [Catalog.part, Field.ofMember] at h ⊢
  cases hs : m.skip with
  | true => exact .inl ⟨rfl, by simpa [hs] using h.symm⟩
  | false =>
    cases he : m.embedded with
    | false => exact .inr (.inl ⟨rfl, by simp, by simpa [hs, he] using h.symm⟩)
    | true =>
      cases hg : c.types.get? (c.types.strip m.ty) with
      | none => simp [hs, he, hg] at h
      | some e =>
        cases ha : e.isAggregate with
        | true => exact .inr (.inr ⟨rfl, rfl, e, rfl, ha, by simpa [hs, he, hg, ha] using h.symm⟩)
        | false => exact .inr (.inl ⟨rfl, by simp [ha], by simpa [hs, he, hg, ha] using h.symm⟩)

/-- A field is one of a member that is neither skipped nor embedded as a struct. -/
theorem mem_fieldsOf {ms : List Member} {f : Field} (h : f ∈ c.fieldsOf name ms) :
    ∃ m ∈ ms, m.skip = false ∧
      ¬(m.embedded ∧ (c.types.get? (c.types.strip m.ty)).any (·.isAggregate)) ∧
      f = Field.ofMember c.types m name := by
  obtain ⟨m, hm, hf⟩ := List.mem_flatMap.mp h
  refine ⟨m, hm, ?_⟩
  cases hp : c.part name m with
  | error e => simp [hp] at hf
  | ok part =>
    rcases part_eq_ok hp with ⟨-, rfl⟩ | ⟨hs, he, rfl⟩ | ⟨-, -, -, -, -, rfl⟩
    · simp [hp] at hf
    · exact ⟨hs, he, by simpa [hp] using hf⟩
    · simp [hp] at hf

/-- A base is a struct that a member embeds. -/
theorem mem_basesOf {ms : List Member} {base : String} (h : base ∈ c.basesOf found name ms) :
    ∃ m ∈ ms, m.skip = false ∧ m.embedded ∧
      (∃ e, c.types.get? (c.types.strip m.ty) = some e ∧ e.isAggregate) ∧
      base = c.baseName found (c.types.strip m.ty) (Field.ofMember c.types m name) := by
  obtain ⟨m, hm, hbase⟩ := List.mem_flatMap.mp h
  refine ⟨m, hm, ?_⟩
  cases hp : c.part name m with
  | error e => simp [hp] at hbase
  | ok part =>
    rcases part_eq_ok hp with ⟨-, rfl⟩ | ⟨-, -, rfl⟩ | ⟨hs, he, e, hg, ha, rfl⟩
    · simp [hp] at hbase
    · simp [hp] at hbase
    · exact ⟨hs, he, ⟨e, hg, ha⟩, by simpa [hp] using hbase⟩

theorem fieldsOf_cons (c : Catalog) (enclosing : String) (m : Member) (ms : List Member) :
    c.fieldsOf enclosing (m :: ms) = c.fieldsOf enclosing [m] ++ c.fieldsOf enclosing ms := by
  simp [fieldsOf]

theorem basesOf_cons (c : Catalog) (found : Findings) (enclosing : String) (m : Member)
    (ms : List Member) : c.basesOf found enclosing (m :: ms) =
      c.basesOf found enclosing [m] ++ c.basesOf found enclosing ms := by
  simp [basesOf]

/-- Visiting a member of the struct that is being declared declares all it uses, and gives what the
member adds. -/
theorem walks_visitMember (hb : c.types.Backward) (hdec : c.Declares starts (top :: opened) declare)
    (hi : found.Indexed) (hd : found.begun[top]? = some d) {own : Description}
    (ho : c.types.get? d.ty = some own) (hm : m ∈ own.members) {r : List Field × List String}
    (h : c.visitMember declare d.name m found = .ok (r, found')) :
    c.Walks starts (top :: opened) found found' ∧
      (∀ x, c.Uses d.ty m x → (found'.slot? x).isSome) ∧
      r = (c.fieldsOf d.name [m], c.basesOf found' d.name [m]) := by
  obtain ⟨part, hp, h⟩ := bind_eq_ok h
  rcases part_eq_ok hp with ⟨hs, rfl⟩ | ⟨hs, he, rfl⟩ | ⟨hs, he, e, hg, ha, rfl⟩
  · cases h
    refine ⟨.refl found, ?_, by simp [fieldsOf, basesOf, hp]⟩
    intro x hx
    cases hx <;> simp_all
  · obtain ⟨found₁, hl, h⟩ := bind_eq_ok h
    cases h
    have hu (x) (hx : c.LeadsTo m.ty x) : c.Uses d.ty m x := .leaf ho hm hs he hx
    obtain ⟨hw, hseen⟩ := walks_visitLeaves hdec hi hd hu (fun leaf => leaves_sound) hl
    refine ⟨hw, ?_, by simp [fieldsOf, basesOf, hp]⟩
    intro x hx
    cases hx with
    | base _ _ _ he' hg' ha' => exact absurd ⟨he', by simp [hg', ha']⟩ he
    | leaf _ _ _ _ hto =>
      obtain ⟨leaf, hl, hx⟩ := leaves_complete hb hto
      exact hseen leaf hl x hx
  · have hbases : c.basesOf found' d.name [m] =
        [c.baseName found' (c.types.strip m.ty) (Field.ofMember c.types m d.name)] := by
      simp [basesOf, hp]
    have hfields : c.fieldsOf d.name [m] = [] := by simp [fieldsOf, hp]
    rw [hbases, hfields, baseName]
    simp only at h
    split at h
    · next hc =>
      cases h
      refine ⟨.refl found, ?_, by rw [if_pos hc]⟩
      intro x hx
      cases hx with
      | base _ _ _ _ _ _ hr hn => simp [hr, hn] at hc
      | leaf _ _ _ hl => exact absurd ⟨he, by simp [hg, ha]⟩ hl
    · next hc =>
      obtain ⟨⟨slot, found₁⟩, h₁, h⟩ := bind_eq_ok h
      cases h
      rw [hg] at h₁
      obtain ⟨hw, hslot⟩ := hdec _ _ found slot found₁ hi h₁
        (.member hd (.base ho hm hs he hg ha (by simp_all) (by simp_all)) hg ha)
      refine ⟨hw, ?_, ?_⟩
      · intro x hx
        cases hx with
        | base => simp [hslot]
        | leaf _ _ _ hl => exact absurd ⟨he, by simp [hg, ha]⟩ hl
      · rw [if_neg hc]
        simp [Findings.lookup, Findings.nameAt, hslot]

/-- The names of bases stay what they were once all the structs behind them are seen. -/
theorem basesOf_kept (h : found.Extends found') (hi : found.Indexed) {own : Description}
    {owner : TypeId} (ho : c.types.get? owner = some own) {ms : List Member}
    (hm : ∀ m ∈ ms, m ∈ own.members)
    (hu : ∀ m ∈ ms, ∀ x, c.Uses owner m x → (found.slot? x).isSome) :
    c.basesOf found' name ms = c.basesOf found name ms := by
  simp only [basesOf]
  apply List.flatMap_congr
  intro m hmem
  cases hp : c.part name m with
  | error e => rfl
  | ok part =>
    rcases part_eq_ok hp with ⟨-, rfl⟩ | ⟨-, -, rfl⟩ | ⟨hs, he, e, hg, ha, rfl⟩
    · rfl
    · rfl
    · simp only [baseName]
      split
      · rfl
      · next hc =>
        simp only [Bool.or_eq_true, Bool.not_eq_true', not_or, Bool.not_eq_false,
          Option.not_isSome_iff_eq_none] at hc
        obtain ⟨slot, hslot⟩ := Option.isSome_iff_exists.mp
          (hu m hmem _ (.base ho (hm m hmem) hs he hg ha hc.1 hc.2))
        obtain ⟨d, hd, ht⟩ := (hi.slot?_iff _ _).mp hslot
        have hl := hi.lookup_eq_some.mpr ⟨slot, hd, ht⟩
        rw [h.lookup hl, hl]

/-- Visiting the members of the struct that is being declared declares all they use, and gives what
they add. -/
theorem walks_visitMembers (hb : c.types.Backward)
    (hdec : c.Declares starts (top :: opened) declare) (hi : found.Indexed)
    (hd : found.begun[top]? = some d) {own : Description} (ho : c.types.get? d.ty = some own)
    {ms : List Member} (hm : ∀ m ∈ ms, m ∈ own.members) {r : List Field × List String}
    (h : c.visitMembers declare d.name ms found = .ok (r, found')) :
    c.Walks starts (top :: opened) found found' ∧
      (∀ m ∈ ms, ∀ x, c.Uses d.ty m x → (found'.slot? x).isSome) ∧
      r = (c.fieldsOf d.name ms, c.basesOf found' d.name ms) := by
  induction ms generalizing found r with
  | nil =>
    cases h
    exact ⟨.refl _, by simp, rfl⟩
  | cons m ms ih =>
    obtain ⟨⟨r₁, found₁⟩, h₁, h⟩ := bind_eq_ok h
    obtain ⟨⟨r₂, found₂⟩, h₂, h⟩ := bind_eq_ok h
    cases h
    obtain ⟨hw₁, hs₁, rfl⟩ := walks_visitMember hb hdec hi hd ho (hm m (by simp)) h₁
    have hi₁ := hw₁.indexed hi
    obtain ⟨hw₂, hs₂, rfl⟩ := ih hi₁ (hw₁.kept.getElem? hd)
      (fun n hn => hm n (List.mem_cons_of_mem _ hn)) h₂
    have hkept : c.basesOf found' d.name [m] = c.basesOf found₁ d.name [m] :=
      basesOf_kept hw₂.kept hi₁ ho (by simpa using hm m (by simp)) (by simpa using hs₁)
    refine ⟨hw₁.trans hw₂, ?_, ?_⟩
    · intro n hn x hx
      rcases List.mem_cons.mp hn with rfl | hn
      · exact hw₂.kept.isSome_slot? (hs₁ x hx)
      · exact hs₂ n hn x hx
    · rw [fieldsOf_cons c d.name m ms, basesOf_cons c found' d.name m ms, hkept]

/-- Declaring a struct is a walk that comes back to the structs being declared, and gives the struct
a slot. -/
theorem walks_declare (hb : c.types.Backward) (depth : Nat) (opened : List Nat) :
    c.Declares starts opened (c.declare depth) := by
  induction depth generalizing opened with
  | zero => intro id name found slot found' _ h; cases h
  | succ depth ih =>
    intro id name found slot found' hi h hm
    rw [declare] at h
    cases hf : found.slot? id with
    | some seen =>
      simp only [hf] at h
      cases h
      exact ⟨.note found _, hf⟩
    | none =>
      simp only [hf] at h
      cases ho : c.types.get? id with
      | none => simp [ho] at h
      | some own =>
        simp only [ho] at h
        let opening := c.interface id name
        obtain ⟨⟨r, found₁⟩, h₁, h⟩ := bind_eq_ok h
        cases h
        have hf' : found.slot? opening.ty = none := hf
        have hd : (found.enter opening).begun[found.nextSlot]? = some opening := by
          simp [Findings.nextSlot]
        obtain ⟨hw, hs, rfl⟩ := walks_visitMembers (d := opening) hb (ih (found.nextSlot :: opened))
          (hi.enter hf') hd ho (fun m hm => hm) h₁
        let event := Log.Event.interfaceDeclared name opening.provenance.qualified
        have hseen : ∀ x, c.Links id x → ((found₁.note event).slot? x).isSome := by
          intro x hlink
          obtain ⟨m, hx⟩ := hlink
          obtain ⟨d, hd, hm⟩ := hx.mem
          obtain rfl : d = own := by simpa [ho] using hd.symm
          exact hs m hm x hx
        refine ⟨⟨?_, ?_⟩, ?_⟩
        · refine .head (.enter hf (TypeSet.contains_of_get? ho) hm) (hw.run.trans ?_)
          exact .tail (.single (.note event))
            (.finish (d := opening) rfl (hw.kept.getElem? hd) ho hseen)
        · exact (((Findings.Extends.enter hf').trans hw.kept).fill (Nat.le_refl _)).trans
            (.trans (.note _ event) (.finish _ _))
        · exact hw.kept.slot? id _ (by simp [Findings.slot?_enter, opening, interface])

end Catalog

end TypeGraph

import Mathlib.Data.List.Forall2
import TypeGraph.Proofs.TypeSet.Describing
/-!
How structs are completed. A struct is bound to its id before its fields are gone through, and what
its fields build around it only needs the id. Its members are put in when all of that is done, and
nothing else touches them.
-/

namespace TypeGraph

open TypeSet

/-- A type of the set carries the struct behind `name`: bound to it, and with the members that its
fields ask for, in order. -/
def Family.Filled (family : Family) (t : TypeSet) (name : String) (id : TypeId) : Prop :=
  ∃ package own fields doc ms,
    family.definition name = .record package own fields doc ∧
    t.built.lookup (.named name) = some id ∧
    t.get? id = some { name := some own, package, shape := .aggregate ms, doc } ∧
    List.Forall₂ (FieldPlan.Pushes family t) fields ms

/-- A named struct without members. -/
def Description.blank (package name : String) : Description :=
  { name := some name, package, shape := .aggregate [] }

/-- A set that describes structs of a family, all of them complete but those that are `opened`. -/
structure Described (family : Family) (opened : List String) (t : TypeSet) : Prop where
  run : initial.Run t
  bound : ∀ b id, t.built.lookup b = some id →
    b.Over family.names ∧ t.Unfolds id (family.form b)
  named : ∀ id key, t.key? id = some key → ∃ name, t.built.lookup (.named name) = some id
  filled : ∀ name id, t.built.lookup (.named name) = some id → name ∉ opened →
    family.Filled t name id

/-- A set grew by going through the fields of the structs in `runs`, each for the first time. -/
structure Grows (t : TypeSet) (runs : List String) (t' : TypeSet) : Prop where
  kept : ∀ id d, t.get? id = some d → t'.get? id = some d
  known : ∀ b id, t.built.lookup b = some id → t'.built.lookup b = some id
  ran : ∀ name id, t'.built.lookup (.named name) = some id →
    t.built.lookup (.named name) = some id ∨ name ∈ runs
  fresh : ∀ name ∈ runs, t.built.lookup (.named name) = none
  entered : ∀ name ∈ runs, (t'.built.lookup (.named name)).isSome
  nodup : runs.Nodup

/-- At most `depth` structs of the family have not been entered. -/
def Within (family : Family) (depth : Nat) (t : TypeSet) : Prop :=
  ∃ pending : List String, pending.length ≤ depth ∧
    ∀ name ∈ family.names, t.built.lookup (.named name) = none → name ∈ pending

/-- A blueprint was built, and the set after it describes structs as the one before it did. -/
structure Made (family : Family) (opened : List String) (t : TypeSet) (b : Blueprint)
    (runs : List String) (id : TypeId) (t' : TypeSet) : Prop where
  builds : Builds family t b runs id t'
  grows : Grows t runs t'
  described : Described family opened t'
  bound : t'.built.lookup b = some id

variable {family : Family} {opened runs runs' : List String} {t u v : TypeSet}
variable {b b' : Blueprint} {id x : TypeId} {name package own : String}
variable {fields : List FieldPlan} {ms : List Member} {doc : Option String}

section Bind

theorem lookup_bind_self : (t.bind b id).built.lookup b = some id := by
  simp [TypeSet.bind]

theorem lookup_bind_of_ne (h : b' ≠ b) :
    (t.bind b id).built.lookup b' = t.built.lookup b' := by
  have hb : (b' == b) = false := by simpa using h
  simp [TypeSet.bind, List.lookup_cons, hb]

theorem retains_bind : t.Retains (t.bind b id) :=
  Retains.refl t

end Bind

section Declare

variable (hnew : t.declareAggregate package own = t.push (.blank package own))
include hnew

theorem get?_declared :
    (t.declareAggregate package own).2.get? (t.declareAggregate package own).1 =
      some (.blank package own) := by
  rw [hnew, get?_push]
  exact if_pos rfl

theorem get?_declared_of_ne (hid : id ≠ (t.declareAggregate package own).1) :
    (t.declareAggregate package own).2.get? id = t.get? id := by
  have hne : id.index ≠ t.size := by
    intro hi
    apply hid
    rw [hnew]
    exact congrArg TypeId.mk hi
  rw [hnew, get?_push, if_neg hne]

theorem not_contains_declared : ¬t.contains (t.declareAggregate package own).1 := by
  rw [hnew, contains_iff]
  exact Nat.lt_irrefl _

end Declare

namespace Grows

theorem refl (t : TypeSet) : Grows t [] t where
  kept _ _ h := h
  known _ _ h := h
  ran _ _ h := .inl h
  fresh := by simp
  entered := by simp
  nodup := .nil

theorem lookup_eq_none (h : Grows t runs u) (hl : u.built.lookup b = none) :
    t.built.lookup b = none := by
  cases ht : t.built.lookup b with
  | none => rfl
  | some id => simp [h.known b id ht] at hl

theorem trans (h : Grows t runs u) (k : Grows u runs' v) : Grows t (runs ++ runs') v where
  kept id d hd := k.kept id d (h.kept id d hd)
  known b id hl := k.known b id (h.known b id hl)
  ran name id hl := by
    rcases k.ran name id hl with hl | hrun
    · rcases h.ran name id hl with hl | hrun
      · exact .inl hl
      · exact .inr (List.mem_append_left _ hrun)
    · exact .inr (List.mem_append_right _ hrun)
  fresh name hn := by
    rcases List.mem_append.mp hn with hn | hn
    · exact h.fresh name hn
    · exact h.lookup_eq_none (k.fresh name hn)
  entered name hn := by
    rcases List.mem_append.mp hn with hn | hn
    · obtain ⟨id, hl⟩ := Option.isSome_iff_exists.mp (h.entered name hn)
      simp [k.known _ _ hl]
    · exact k.entered name hn
  nodup := by
    refine List.nodup_append.mpr ⟨h.nodup, k.nodup, ?_⟩
    rintro name hn _ hn' rfl
    have := h.entered name hn
    simp [k.fresh name hn'] at this

theorem intern (h : Grows t runs u) (shape : Shape) : Grows t runs (u.intern shape).2 where
  kept id d hd := (adds_intern u shape).get? (h.kept id d hd)
  known b id hl := by rw [built_intern]; exact h.known b id hl
  ran name id hl := h.ran name id (by rwa [built_intern] at hl)
  fresh := h.fresh
  entered name hn := by rw [built_intern]; exact h.entered name hn
  nodup := h.nodup

/-- A blueprint that had no answer may be bound to one. A struct's is the one that it has. -/
theorem bind (h : Grows t runs u) (hl : t.built.lookup b = none)
    (hb : ∀ name, b = .named name → u.built.lookup (.named name) = some id) :
    Grows t runs (u.bind b id) where
  kept := h.kept
  known b' id' hl' := by
    have hne : b' ≠ b := by
      rintro rfl
      simp [hl] at hl'
    rw [lookup_bind_of_ne hne]
    exact h.known b' id' hl'
  ran name id' hl' := by
    by_cases hn : .named name = b
    · rw [← hn, lookup_bind_self] at hl'
      exact h.ran name id' (hl' ▸ hb name hn.symm)
    · exact h.ran name id' (by rwa [lookup_bind_of_ne hn] at hl')
  fresh := h.fresh
  entered name hn := by
    by_cases hb : .named name = b
    · simp [hb, lookup_bind_self]
    · rw [lookup_bind_of_ne hb]
      exact h.entered name hn
  nodup := h.nodup

theorem retains (h : Grows t runs u) : t.Retains u :=
  fun id d hd => ⟨d, h.kept id d hd, rfl, fun _ => rfl⟩

/-- A new struct, bound before anything else is done. -/
theorem declare (hl : t.built.lookup (.named name) = none)
    (hnew : t.declareAggregate package own = t.push (.blank package own)) :
    Grows t [name] (.keep (.named name) (t.declareAggregate package own)) where
  kept id e he := by
    have hne : id ≠ (t.declareAggregate package own).1 := by
      rintro rfl
      exact not_contains_declared hnew (contains_of_get? he)
    exact (get?_declared_of_ne hnew hne).trans he
  known b id hb := by
    have hne : b ≠ .named name := by
      rintro rfl
      simp [hl] at hb
    exact (lookup_bind_of_ne hne).trans (built_declareNamed t .. ▸ hb)
  ran name' id hl' := by
    by_cases hn : name' = name
    · exact .inr (by simp [hn])
    · have hne : Blueprint.named name' ≠ .named name := by simpa using hn
      exact .inl (built_declareNamed t .. ▸ (lookup_bind_of_ne hne).symm.trans hl')
  fresh := by simpa using hl
  entered := by
    simp only [List.mem_singleton, forall_eq]
    exact Option.isSome_iff_exists.mpr ⟨_, lookup_bind_self⟩
  nodup := by simp

/-- A type that was not there before may be changed. -/
theorem becomes {d : Description} (h : Grows t runs u) (hid : ¬t.contains id)
    (hv : u.Becomes id d v) (hb : v.built = u.built) : Grows t runs v where
  kept x e he := by
    have hne : x ≠ id := by
      rintro rfl
      exact hid (contains_of_get? he)
    rw [hv.others x hne]
    exact h.kept x e he
  known b id hl := by rw [hb]; exact h.known b id hl
  ran name id hl := h.ran name id (by rwa [hb] at hl)
  fresh := h.fresh
  entered name hn := by rw [hb]; exact h.entered name hn
  nodup := h.nodup

end Grows

section Fill

@[simp] theorem built_fill : (t.fill id ms doc).built = t.built := by
  cases doc <;> rfl

theorem run_fill : t.Run (t.fill id ms doc) :=
  .head (.setMembers id ms) (Building.run_setDoc id doc _)

theorem becomes_fill (hd : t.get? id = some (.blank package own)) :
    t.Becomes id { name := some own, package, shape := .aggregate ms, doc }
      (t.fill id ms doc) := by
  have hms : t.Becomes id { name := some own, package, shape := .aggregate ms }
      (t.setMembers id ms) :=
    .modify hd (by simp [Description.key?, Description.blank]) fun d => .withMembers d ms
  cases doc with
  | none => exact hms
  | some doc =>
    exact hms.trans (.modify hms.self (by simp [Description.key?]) fun d => .withDoc d doc)

end Fill

namespace Within

theorem grows {depth : Nat} (h : Within family depth t) (hg : Grows t runs u) :
    Within family depth u := by
  obtain ⟨pending, hlen, hp⟩ := h
  exact ⟨pending, hlen, fun name hn hl => hp name hn (hg.lookup_eq_none hl)⟩

/-- Entering a struct leaves one less. -/
theorem enter {depth : Nat} (h : Within family (depth + 1) t) (hg : Grows t [name] u)
    (hn : name ∈ family.names) : Within family depth u := by
  obtain ⟨pending, hlen, hp⟩ := h
  have hmem : name ∈ pending := hp name hn (hg.fresh name (by simp))
  refine ⟨pending.erase name, by rw [List.length_erase_of_mem hmem]; omega, ?_⟩
  intro other ho hl
  have hne : other ≠ name := by
    rintro rfl
    simpa [hl] using hg.entered other (by simp)
  exact (List.mem_erase_of_ne hne).mpr (hp other ho (hg.lookup_eq_none hl))

theorem lookup_ne_none (h : Within family 0 t) (hn : name ∈ family.names) :
    t.built.lookup (.named name) ≠ none := by
  obtain ⟨pending, hlen, hp⟩ := h
  intro hl
  have := List.length_pos_of_mem (hp name hn hl)
  omega

end Within

theorem key?_intern {shape : Shape} {key : String × String}
    (h : (t.intern shape).2.key? id = some key) : t.key? id = some key := by
  rcases t.intern_cases shape with ⟨i, d, -, -, hi⟩ | hi <;> rw [hi] at h
  · exact h
  · obtain ⟨e, he, hk⟩ := Option.bind_eq_some_iff.mp h
    rw [get?_push] at he
    split at he
    · obtain rfl := Option.some.inj he
      simp [Description.key?] at hk
    · exact Option.bind_eq_some_iff.mpr ⟨e, he, hk⟩

theorem key?_of_mem_named (h : id ∈ t.named) : ∃ key, t.key? id = some key := by
  obtain ⟨name, hname⟩ := Option.isSome_iff_exists.mp (List.mem_filter.mp h).2
  obtain ⟨d, hd, hn⟩ := Option.bind_eq_some_iff.mp hname
  exact ⟨(d.package, name), by simp [TypeSet.key?, hd, Description.key?, hn]⟩

/-- A complete struct stays so while its type is not touched. -/
theorem Family.Filled.retained (h : family.Filled t name id) (hr : t.Retains u)
    (hl : u.built.lookup (.named name) = some id)
    (hd : ∀ d, t.get? id = some d → u.get? id = some d) : family.Filled u name id := by
  obtain ⟨package, own, fields, doc, ms, hdef, -, hid, hms⟩ := h
  exact ⟨package, own, fields, doc, ms, hdef, hl, hd _ hid, hms.imp fun _ _ hm => hm.retained hr⟩

namespace Described

theorem initial : Described family [] initial where
  run := .refl
  bound b id hl := by simp [TypeSet.initial] at hl
  named id key hk := by
    obtain ⟨d, hd, hk⟩ := Option.bind_eq_some_iff.mp hk
    obtain ⟨kind, -, rfl⟩ := List.mem_map.mp (List.mem_of_getElem? hd)
    simp [Description.key?] at hk
  filled name id hl := by simp [TypeSet.initial] at hl

theorem backward (h : Described family opened t) : t.Backward :=
  h.run.backward backward_initial

theorem plainlyNamed (h : Described family opened t) : t.PlainlyNamed :=
  h.run.plainlyNamed .initial

/-- The package and name of a bound struct are those of its definition. -/
theorem key?_of_lookup (h : Described family opened t)
    (hl : t.built.lookup (.named name) = some id) :
    t.key? id = some (family.definition name).key := by
  cases (h.bound _ _ hl).2 with
  | named hd hk => exact Option.bind_eq_some_iff.mpr ⟨_, hd, hk⟩

/-- Structs of a family have ids of their own. -/
theorem name_unique (h : Described family opened t) (hf : family.OfStructs) {name' : String}
    (hl : t.built.lookup (.named name) = some id)
    (hl' : t.built.lookup (.named name') = some id) : name = name' := by
  have hk := (h.key?_of_lookup hl).symm.trans (h.key?_of_lookup hl')
  exact hf.distinct name (h.bound _ _ hl).1 name' (h.bound _ _ hl').1 (Option.some.inj hk)

theorem intern (h : Described family opened t) {shape : Shape}
    (hs : t.Step (t.intern shape).2) : Described family opened (t.intern shape).2 where
  run := h.run.tail hs
  bound b id hl := by
    rw [built_intern] at hl
    obtain ⟨hb, hu⟩ := h.bound b id hl
    exact ⟨hb, hu.retained (adds_intern t shape).retains⟩
  named id key hk := by
    rw [built_intern]
    exact h.named id key (key?_intern hk)
  filled name id hl hn := by
    have hl' := built_intern t shape ▸ hl
    exact (h.filled name id hl' hn).retained (adds_intern t shape).retains hl fun _ hd =>
      (adds_intern t shape).get? hd

theorem bind (h : Described family opened t) (hb : b.Over family.names)
    (hu : t.Unfolds id (family.form b))
    (hn : ∀ name, b = .named name → t.built.lookup (.named name) = some id) :
    Described family opened (t.bind b id) := by
  have hsame (name : String) :
      (t.bind b id).built.lookup (.named name) = t.built.lookup (.named name) := by
    by_cases hname : .named name = b
    · rw [hname, lookup_bind_self, ← hname, hn name hname.symm]
    · exact lookup_bind_of_ne hname
  refine ⟨h.run.tail (.bind b hu.contains), ?_, ?_, ?_⟩
  · intro b' id' hl
    by_cases hbb : b' = b
    · rw [hbb, lookup_bind_self] at hl
      obtain rfl := Option.some.inj hl
      rw [hbb]
      exact ⟨hb, hu.retained retains_bind⟩
    · rw [lookup_bind_of_ne hbb] at hl
      obtain ⟨hb', hu'⟩ := h.bound b' id' hl
      exact ⟨hb', hu'.retained retains_bind⟩
  · intro id' key hk
    obtain ⟨name, hl⟩ := h.named id' key hk
    exact ⟨name, (hsame name).trans hl⟩
  · intro name id' hl hopen
    have hl' := (hsame name).symm.trans hl
    exact (h.filled name id' hl' hopen).retained retains_bind hl fun _ hd => hd

/-- A struct that was not bound has not been declared. -/
theorem declareAggregate_eq (h : Described family opened t) (hf : family.OfStructs)
    (hn : name ∈ family.names) (hdef : family.definition name = .record package own fields doc)
    (hl : t.built.lookup (.named name) = none) :
    t.declareAggregate package own = t.push (.blank package own) := by
  rcases t.declareNamed_cases package own (.aggregate []) with ⟨i, d, hd, hown, hp, -⟩ | ⟨-, heq⟩
  · have hkey : t.key? i = some (package, own) := by
      simp [TypeSet.key?, hd, Description.key?, hown, hp]
    obtain ⟨name', hl'⟩ := h.named i _ hkey
    have hsame : (family.definition name').key = (family.definition name).key := by
      rw [hdef]
      exact Option.some.inj ((h.key?_of_lookup hl').symm.trans hkey)
    rw [hf.distinct name' (h.bound _ _ hl').1 name hn hsame, hl] at hl'
    cases hl'
  · exact heq

/-- A struct that is entered is described, but open. -/
theorem declare (h : Described family opened t) (hf : family.OfStructs)
    (hn : name ∈ family.names) (hdef : family.definition name = .record package own fields doc)
    (hl : t.built.lookup (.named name) = none) :
    Described family (name :: opened) (.keep (.named name) (t.declareAggregate package own)) := by
  have hnew := h.declareAggregate_eq hf hn hdef hl
  have hg := Grows.declare hl hnew
  have hself := get?_declared hnew
  have hbefore {b : Blueprint} {id : TypeId} (hne : b ≠ .named name)
      (hb : (TypeSet.keep (.named name) (t.declareAggregate package own)).built.lookup b =
        some id) : t.built.lookup b = some id :=
    built_declareNamed t .. ▸ (lookup_bind_of_ne hne).symm.trans hb
  refine ⟨(h.run.tail (.declareAggregate package own)).tail (.bind _ (contains_of_get? hself)),
    ?_, ?_, ?_⟩
  · intro b id hb
    by_cases hname : b = .named name
    · subst hname
      obtain rfl := Option.some.inj (lookup_bind_self.symm.trans hb)
      refine ⟨hn, ?_⟩
      rw [Family.form, hdef]
      exact .named hself rfl
    · obtain ⟨hover, hu⟩ := h.bound b id (hbefore hname hb)
      exact ⟨hover, hu.retained hg.retains⟩
  · intro id key hk
    by_cases hid : id = (t.declareAggregate package own).1
    · exact ⟨name, hid ▸ lookup_bind_self⟩
    · have hold : t.key? id = some key := by
        change (t.declareAggregate package own).2.key? id = some key at hk
        rwa [TypeSet.key?, get?_declared_of_ne hnew hid] at hk
      obtain ⟨name', hl'⟩ := h.named id key hold
      exact ⟨name', hg.known _ _ hl'⟩
  · intro name' id hl' hopen
    simp only [List.mem_cons, not_or] at hopen
    have hold := hbefore (by simpa using hopen.1) hl'
    exact (h.filled name' id hold hopen.2).retained hg.retains hl' (hg.kept id)

/-- With its members put in, the struct entered last is complete. -/
theorem complete (h : Described family (name :: opened) u) (hf : family.OfStructs)
    (hdef : family.definition name = .record package own fields doc)
    (hl : u.built.lookup (.named name) = some id)
    (hd : u.get? id = some (.blank package own))
    (hms : List.Forall₂ (FieldPlan.Pushes family u) fields ms) :
    Described family opened (u.fill id ms doc) := by
  have hv : u.Becomes id { name := some own, package, shape := .aggregate ms, doc }
      (u.fill id ms doc) := becomes_fill hd
  refine ⟨h.run.trans run_fill, ?_, ?_, ?_⟩
  · intro b x hb
    obtain ⟨hover, hu⟩ := h.bound b x (built_fill ▸ hb)
    exact ⟨hover, hu.retained hv.retains⟩
  · intro x key hk
    rw [built_fill]
    by_cases hx : x = id
    · exact ⟨name, hx ▸ hl⟩
    · refine h.named x key ?_
      rwa [TypeSet.key?, hv.others x hx] at hk
  · intro name' x hl' hopen
    have hx := built_fill ▸ hl'
    by_cases hname : name' = name
    · subst hname
      obtain rfl := Option.some.inj (hl.symm.trans hx)
      exact ⟨package, own, fields, doc, ms, hdef, hl', hv.self,
        hms.imp fun _ _ hm => hm.retained hv.retains⟩
    · have hne : x ≠ id := by
        rintro rfl
        exact hname (h.name_unique hf hx hl)
      have hclosed : name' ∉ name :: opened := by simp [hname, hopen]
      exact (h.filled name' x hx hclosed).retained hv.retains hl' fun d hd =>
        (hv.others x hne).trans hd

end Described

end TypeGraph

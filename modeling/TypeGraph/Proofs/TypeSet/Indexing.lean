import Mathlib.Data.List.Induction
import TypeGraph.Proofs.TypeSet.Tables
/-!
The indexes of a type set say exactly what its descriptions say, whatever calls made it. With them a
set answers and grows just as one that is searched without indexes.
-/

namespace TypeGraph

namespace TypeSet

section Tables

variable {id : TypeId}

/-- What the tables of a set say: what its descriptions say, each key once. -/
structure Indexed.InStep (s : Indexed) : Prop where
  byShape : s.byShape = s.tabulate (·.bareShape?)
  byName : s.byName = s.tabulate (·.key?)
  shapes : s.byShape.keys.Nodup
  names : s.byName.keys.Nodup

namespace Indexed

variable {s : Indexed} {d : Description} {shape : Shape} {package name : String}

/-- A set with one more description, in the table that it belongs to. -/
def added (s : Indexed) (d : Description) : Indexed where
  toTypeSet := (s.toTypeSet.push d).2
  byShape := s.byShape ++ (d.bareShape?.map (·, ⟨s.size⟩)).toList
  byName := s.byName ++ (d.key?.map (·, ⟨s.size⟩)).toList

theorem intern_cases (s : Indexed) (shape : Shape) :
    (∃ id, s.byShape.lookup shape = some id ∧ s.intern shape = (id, s)) ∨
      s.byShape.lookup shape = none ∧ s.intern shape = (⟨s.size⟩, s.added { shape }) := by
  unfold intern
  split
  · next id hid => exact .inl ⟨id, hid, rfl⟩
  · next hnone =>
    refine .inr ⟨hnone, ?_⟩
    simp only [push, Index.put_of_lookup hnone, added, Description.bareShape?, Description.key?]
    simp [TypeSet.push]

theorem declareNamed_cases (s : Indexed) (package name : String) (shape : Shape) :
    (∃ id, s.lookup package name = some id ∧ s.declareNamed package name shape = (id, s)) ∨
      s.lookup package name = none ∧ s.declareNamed package name shape =
        (⟨s.size⟩, s.added { name := some name, package, shape }) := by
  unfold declareNamed
  split
  · next id hid => exact .inl ⟨id, hid, rfl⟩
  · next hnone =>
    refine .inr ⟨hnone, ?_⟩
    simp only [push, Index.put_of_lookup hnone, added, Description.bareShape?, Description.key?]
    simp [TypeSet.push]

namespace InStep

theorem lookup_shape (h : s.InStep) : s.byShape.lookup shape = some id ↔
    ∃ d, s.get? id = some d ∧ d.name = none ∧ d.shape = shape := by
  rw [Index.lookup_eq_some_iff h.shapes, h.byShape, mem_tabulate]
  simp only [Description.bareShape?_eq_some]

theorem lookup_name (h : s.InStep) : s.lookup package name = some id ↔
    ∃ d, s.get? id = some d ∧ d.name = some name ∧ d.package = package := by
  rw [Indexed.lookup, Index.lookup_eq_some_iff h.names, h.byName, mem_tabulate]
  simp only [Description.key?_eq_some]

theorem empty : InStep { descriptions := [] } :=
  ⟨rfl, rfl, List.nodup_nil, List.nodup_nil⟩

theorem added (h : s.InStep)
    (hshape : ∀ shape, d.bareShape? = some shape → s.byShape.lookup shape = none)
    (hname : ∀ key, d.key? = some key → s.byName.lookup key = none) : (s.added d).InStep where
  byShape := by rw [Indexed.added, h.byShape, tabulate_push]
  byName := by rw [Indexed.added, h.byName, tabulate_push]
  shapes := Index.nodup_keys_append h.shapes hshape _
  names := Index.nodup_keys_append h.names hname _

theorem intern (h : s.InStep) (shape : Shape) : (s.intern shape).2.InStep := by
  rcases s.intern_cases shape with ⟨id, -, hi⟩ | ⟨hnone, hi⟩ <;> rw [hi]
  · exact h
  · refine h.added (fun other hother => ?_) (fun key hkey => ?_)
    · obtain rfl : shape = other := Option.some.inj hother
      exact hnone
    · cases hkey

theorem declareNamed (h : s.InStep) (package name : String) (shape : Shape) :
    (s.declareNamed package name shape).2.InStep := by
  rcases s.declareNamed_cases package name shape with ⟨id, -, hi⟩ | ⟨hnone, hi⟩ <;> rw [hi]
  · exact h
  · refine h.added (fun other hother => ?_) (fun key hkey => ?_)
    · cases hother
    · obtain rfl : (package, name) = key := Option.some.inj hkey
      exact hnone

theorem modify (h : s.InStep) (id : TypeId) {f : Description → Description}
    (hm : ∀ d : Description, d.Matures (f d)) (hu : ∀ d : Description, d.key? = none → f d = d) :
    (s.modify id f).InStep where
  byShape := h.byShape.trans
    (tabulate_modify _ id fun d => Description.bareShape?_of_matures (hm d) (hu d)).symm
  byName := h.byName.trans (tabulate_modify _ id fun d => (hm d).key?).symm
  shapes := h.shapes
  names := h.names

/-- A table answers what a search through the descriptions finds. -/
theorem lookup_eq (h : s.InStep) (package name : String) :
    s.lookup package name = s.toTypeSet.lookup package name := by
  cases hl : s.toTypeSet.lookup package name with
  | some id => exact h.lookup_name.mpr (lookup_eq_some hl)
  | none =>
    cases hs : s.lookup package name with
    | none => rfl
    | some id =>
      obtain ⟨d, hd, hn, hp⟩ := h.lookup_name.mp hs
      simp only [TypeSet.lookup, Option.map_eq_none_iff, List.findIdx?_eq_none_iff] at hl
      simpa [hn, hp] using hl d (List.mem_of_getElem? hd)

theorem declareNamed_eq (h : s.InStep) (package name : String) (shape : Shape) :
    s.toTypeSet.declareNamed package name shape =
      ((s.declareNamed package name shape).1, (s.declareNamed package name shape).2.toTypeSet) := by
  rcases s.declareNamed_cases package name shape with ⟨id, hl, hi⟩ | ⟨hl, hi⟩
  · rw [hi, TypeSet.declareNamed, ← h.lookup_eq, hl]
  · rw [hi, TypeSet.declareNamed, ← h.lookup_eq, hl]
    rfl

theorem intern_eq (h : s.InStep) (shape : Shape) :
    s.toTypeSet.intern shape = ((s.intern shape).1, (s.intern shape).2.toTypeSet) := by
  unfold TypeSet.intern
  split
  · next i hi =>
    obtain ⟨hlt, hfits, -⟩ := List.findIdx?_eq_some_iff_getElem.mp hi
    simp only [Bool.and_eq_true, decide_eq_true_eq, Option.isNone_iff_eq_none] at hfits
    have hfound : s.byShape.lookup shape = some ⟨i⟩ :=
      h.lookup_shape.mpr ⟨_, List.getElem?_eq_getElem hlt, hfits⟩
    rcases s.intern_cases shape with ⟨id, hl, hs⟩ | ⟨hnone, -⟩
    · obtain rfl : id = ⟨i⟩ := Option.some.inj (hl.symm.trans hfound)
      rw [hs]
    · simp [hnone] at hfound
  · next hi =>
    rcases s.intern_cases shape with ⟨id, hl, -⟩ | ⟨-, hs⟩
    · obtain ⟨d, hd, hn, hshape⟩ := h.lookup_shape.mp hl
      simpa [hn, hshape] using List.findIdx?_eq_none_iff.mp hi d (List.mem_of_getElem? hd)
    · rw [hs]
      rfl

theorem ids_byName (h : s.InStep) : s.byName.ids = s.toTypeSet.named := by
  rw [h.byName, tabulate, Index.ids_rows, TypeSet.named]
  simp only [Description.key?, Option.isSome_bind, Option.isSome_map]

theorem find_eq (h : s.InStep) (name : String) : s.find name = s.toTypeSet.find name := by
  have hrows := Index.ids_filter_rows (fun id => (s.get? id).bind (·.key?)) s.ids
    fun key => decide (key.2 = name)
  rw [Indexed.find, h.byName, TypeSet.find]
  refine hrows.trans (List.filter_congr fun id _ => ?_)
  cases hd : s.get? id with
  | none => rfl
  | some d => cases hn : d.name <;> simp [Description.key?, hn]

/-- Every type is in one of the tables, and in it once. -/
theorem covers (h : s.InStep) : (s.byName.ids ++ s.byShape.ids).Perm s.ids := by
  have hunnamed : s.byShape.ids =
      s.ids.filter fun id => !((s.get? id).bind (·.key?)).isSome := by
    rw [h.byShape, tabulate, Index.ids_rows]
    apply List.filter_congr
    intro id hid
    obtain ⟨d, hd⟩ := exists_get? (mem_ids.mp hid)
    simp [hd, Description.isSome_key?]
  rw [hunnamed, h.byName, tabulate, Index.ids_rows]
  exact List.filter_append_perm _ _

end InStep

end Indexed

end Tables

/-- What an operation comes down to: a type that is known by its shape, one that is known by its
name, or a change of a type that is there. -/
inductive Effect where
  | intern (shape : Shape)
  | declare (package name : String) (shape : Shape)
  | amend (id : TypeId) (f : Description → Description)

namespace Operation

def effect : Operation → Effect
  | scalar kind => .intern (.scalar kind)
  | pointer target => .intern (.pointer target)
  | sequence element => .intern (.sequence element)
  | map key value => .intern (.map key value)
  | anonymous members => .intern (.aggregate members)
  | declareAggregate package name => .declare package name (.aggregate [])
  | declareScalar package name kind => .declare package name (.scalar kind)
  | setMembers id members => .amend id (·.withMembers members)
  | setDoc id doc => .amend id (·.withDoc doc)
  | addConstant id constant => .amend id (·.withConstant constant)

section Effects

variable {o : Operation} {t : TypeSet} {shape : Shape} {package name : String} {id : TypeId}
variable {f : Description → Description}

theorem perform_of_intern (h : o.effect = .intern shape) :
    o.perform t = (some (t.intern shape).1, (t.intern shape).2) := by
  cases o <;> cases h <;> rfl

theorem perform_of_declare (h : o.effect = .declare package name shape) : o.perform t =
    (some (t.declareNamed package name shape).1, (t.declareNamed package name shape).2) := by
  cases o <;> cases h <;> rfl

theorem perform_of_amend (h : o.effect = .amend id f) : o.perform t = (none, t.modify id f) := by
  cases o <;> cases h <;> rfl

/-- Changes leave what a type is known by, and types without a name altogether. -/
theorem amends (h : o.effect = .amend id f) :
    (∀ d : Description, d.Matures (f d)) ∧ ∀ d : Description, d.key? = none → f d = d := by
  cases o with
  | setMembers i ms =>
    obtain ⟨-, rfl⟩ := Effect.amend.inj h
    exact ⟨fun d => .withMembers d ms, fun d => d.withMembers_of_unnamed ms⟩
  | setDoc i doc =>
    obtain ⟨-, rfl⟩ := Effect.amend.inj h
    exact ⟨fun d => .withDoc d doc, fun d => d.withDoc_of_unnamed doc⟩
  | addConstant i k =>
    obtain ⟨-, rfl⟩ := Effect.amend.inj h
    exact ⟨fun d => .withConstant d k, fun d => d.withConstant_of_unnamed k⟩
  | _ => cases h

end Effects

end Operation

/-- An operation, or binding a blueprint to an id. -/
inductive Call where
  | operation (o : Operation)
  | bind (blueprint : Blueprint) (id : TypeId)

namespace Call

/-- What a call answers, and the set after it. -/
def perform (t : TypeSet) : Call → Option TypeId × TypeSet
  | operation o => o.perform t
  | bind blueprint id => (none, t.bind blueprint id)

/-- The package and name that a call declares. -/
def declared? : Call → Option (String × String)
  | operation o =>
    match o.effect with
    | .declare package name _ => some (package, name)
    | _ => none
  | bind _ _ => none

/-- What a call may do to a description that is there: nothing, or fill in a named type. -/
inductive Alters (call : Call) (id : TypeId) (d : Description) : Description → Prop
  | same : Alters call id d d
  | members {ms : List Member} (hcall : call = .operation (.setMembers id ms))
      (hname : d.name.isSome) (hs : d.isAggregate) :
      Alters call id d { d with shape := .aggregate ms }
  | doc {doc : String} (hcall : call = .operation (.setDoc id doc)) (hname : d.name.isSome) :
      Alters call id d { d with doc := some doc }
  | constant {k : Constant} (hcall : call = .operation (.addConstant id k))
      (hname : d.name.isSome) (hs : d.scalar?.isSome) :
      Alters call id d { d with constants := d.constants ++ [k] }

variable {t : TypeSet} {call : Call} {id : TypeId} {d : Description}

theorem Alters.withMembers (ms : List Member) (hcall : call = .operation (.setMembers id ms)) :
    call.Alters id d (d.withMembers ms) := by
  unfold Description.withMembers
  split
  · next h =>
    simp only [Bool.and_eq_true] at h
    exact .members hcall h.1 h.2
  · exact .same

theorem Alters.withDoc (doc : String) (hcall : call = .operation (.setDoc id doc)) :
    call.Alters id d (d.withDoc doc) := by
  unfold Description.withDoc
  split
  · next h => exact .doc hcall h
  · exact .same

theorem Alters.withConstant (k : Constant) (hcall : call = .operation (.addConstant id k)) :
    call.Alters id d (d.withConstant k) := by
  unfold Description.withConstant
  split
  · next h =>
    simp only [Bool.and_eq_true] at h
    exact .constant hcall h.1 h.2
  · exact .same

/-- A change of one type alters that type as it says, and no other. -/
theorem exists_altered_modify (hd : t.get? id = some d) {i : TypeId}
    {f : Description → Description} (hf : i = id → call.Alters id d (f d)) :
    ∃ d', (t.modify i f).get? id = some d' ∧ call.Alters id d d' := by
  rw [get?_modify, hd]
  split
  · next heq => exact ⟨f d, rfl, hf heq.symm⟩
  · exact ⟨d, rfl, .same⟩

theorem get?_declareNamed (hd : t.get? id = some d) (package name : String) (shape : Shape) :
    (t.declareNamed package name shape).2.get? id = some d := by
  have hlt := contains_iff.mp (contains_of_get? hd)
  rcases t.declareNamed_cases package name shape with ⟨_, _, -, -, -, hi⟩ | ⟨-, hi⟩ <;> rw [hi]
  · exact hd
  · rw [get?_push, if_neg (by omega), hd]

theorem exists_altered (hd : t.get? id = some d) (call : Call) :
    ∃ d', (call.perform t).2.get? id = some d' ∧ call.Alters id d d' := by
  cases call with
  | bind => exact ⟨d, hd, .same⟩
  | operation o =>
    cases o with
    | scalar | pointer | sequence | map | anonymous =>
      exact ⟨d, (adds_intern t _).get? hd, .same⟩
    | declareAggregate | declareScalar => exact ⟨d, get?_declareNamed hd _ _ _, .same⟩
    | setMembers i ms => exact exists_altered_modify hd fun hi => .withMembers ms (hi ▸ rfl)
    | setDoc i doc => exact exists_altered_modify hd fun hi => .withDoc doc (hi ▸ rfl)
    | addConstant i k => exact exists_altered_modify hd fun hi => .withConstant k (hi ▸ rfl)

theorem Alters.matures {d' : Description} (h : call.Alters id d d') : d.Matures d' := by
  cases h with
  | same => exact .refl d
  | members _ _ hs => exact ⟨rfl, rfl, .inr ⟨hs, rfl⟩⟩
  | doc | constant => exact ⟨rfl, rfl, .inl rfl⟩

theorem Alters.unnamed {d' : Description} (h : call.Alters id d d') (hn : d.name = none) :
    d' = d := by
  cases h with
  | same => rfl
  | members _ hname | doc _ hname | constant _ hname => simp [hn] at hname

/-- Each step of a building run is a call. -/
theorem exists_of_step {t t' : TypeSet} (h : t.Step t') :
    ∃ call : Call, (call.perform t).2 = t' := by
  cases h with
  | scalar kind => exact ⟨.operation (.scalar kind), rfl⟩
  | pointer => exact ⟨.operation (.pointer _), rfl⟩
  | sequence => exact ⟨.operation (.sequence _), rfl⟩
  | map => exact ⟨.operation (.map _ _), rfl⟩
  | anonymous members => exact ⟨.operation (.anonymous members), rfl⟩
  | declareAggregate package name => exact ⟨.operation (.declareAggregate package name), rfl⟩
  | declareScalar package name kind => exact ⟨.operation (.declareScalar package name kind), rfl⟩
  | setMembers id members => exact ⟨.operation (.setMembers id members), rfl⟩
  | setDoc id doc => exact ⟨.operation (.setDoc id doc), rfl⟩
  | addConstant id constant => exact ⟨.operation (.addConstant id constant), rfl⟩
  | bind blueprint => exact ⟨.bind blueprint _, rfl⟩

end Call

namespace Indexed

/-- What a call answers, and the set with its tables after it. -/
def perform (s : Indexed) : Call → Option TypeId × Indexed
  | .operation o =>
    match o.effect with
    | .intern shape => (s.intern shape).map some id
    | .declare package name shape => (s.declareNamed package name shape).map some id
    | .amend id f => (none, s.modify id f)
  | .bind blueprint id => (none, { s with toTypeSet := s.toTypeSet.bind blueprint id })

/-- The set that calls make of the plain scalars. -/
def after (calls : List Call) : Indexed :=
  calls.foldl (fun s call => (s.perform call).2) initial

section Effects

variable {s : Indexed} {o : Operation} {shape : Shape} {package name : String} {id : TypeId}
variable {f : Description → Description}

theorem perform_of_intern (h : o.effect = .intern shape) :
    s.perform (.operation o) = (some (s.intern shape).1, (s.intern shape).2) := by
  simp only [perform, h]
  rfl

theorem perform_of_declare (h : o.effect = .declare package name shape) :
    s.perform (.operation o) =
      (some (s.declareNamed package name shape).1, (s.declareNamed package name shape).2) := by
  simp only [perform, h]
  rfl

theorem perform_of_amend (h : o.effect = .amend id f) :
    s.perform (.operation o) = (none, s.modify id f) := by
  simp only [perform, h]

end Effects

variable {s : Indexed}

namespace InStep

theorem initial : Indexed.initial.InStep := by
  simp only [Indexed.initial, Scalar.all, List.foldl_cons, List.foldl_nil]
  exact ((((((empty.intern _).intern _).intern _).intern _).intern _).intern _).intern _

theorem perform (h : s.InStep) (call : Call) : (s.perform call).2.InStep := by
  cases call with
  | bind blueprint id => exact ⟨h.byShape, h.byName, h.shapes, h.names⟩
  | operation o =>
    cases ho : o.effect with
    | intern shape => exact perform_of_intern ho ▸ h.intern shape
    | declare package name shape => exact perform_of_declare ho ▸ h.declareNamed package name shape
    | amend id f =>
      obtain ⟨hm, hu⟩ := Operation.amends ho
      exact perform_of_amend ho ▸ h.modify id hm hu

/-- With tables or without, a call answers the same and leaves the same. -/
theorem perform_eq (h : s.InStep) (call : Call) :
    call.perform s.toTypeSet = ((s.perform call).1, (s.perform call).2.toTypeSet) := by
  cases call with
  | bind blueprint id => rfl
  | operation o =>
    cases ho : o.effect with
    | intern shape =>
      rw [Call.perform, Operation.perform_of_intern ho, h.intern_eq, perform_of_intern ho]
    | declare package name shape =>
      rw [Call.perform, Operation.perform_of_declare ho, h.declareNamed_eq, perform_of_declare ho]
    | amend id f =>
      rw [Call.perform, Operation.perform_of_amend ho, perform_of_amend ho]
      rfl

theorem calls (h : s.InStep) (calls : List Call) :
    (calls.foldl (fun s call => (s.perform call).2) s).InStep := by
  induction calls generalizing s with
  | nil => exact h
  | cons call calls ih => exact ih (h.perform call)

end InStep

theorem inStep_after (calls : List Call) : (after calls).InStep :=
  InStep.initial.calls calls

theorem after_append (calls more : List Call) :
    after (calls ++ more) = more.foldl (fun s call => (s.perform call).2) (after calls) :=
  List.foldl_append

theorem after_concat (calls : List Call) (call : Call) :
    after (calls ++ [call]) = ((after calls).perform call).2 := by
  rw [after_append]
  rfl

/-- The set that calls make without tables. -/
theorem toTypeSet_after (calls : List Call) : (after calls).toTypeSet =
    calls.foldl (fun t call => (call.perform t).2) TypeSet.initial := by
  induction calls using List.reverseRecOn with
  | nil => rfl
  | append_singleton calls call ih =>
    rw [after_concat, List.foldl_concat, ← ih, (inStep_after calls).perform_eq]

/-- A call adds the key that it declares to the table of names, if it is not there. -/
theorem keys_perform (s : Indexed) (call : Call) : (s.perform call).2.byName.keys =
    s.byName.keys ++ call.declared?.toList.filter (· ∉ s.byName.keys) := by
  cases call with
  | bind blueprint id => simp [perform, Call.declared?]
  | operation o =>
    cases ho : o.effect with
    | intern shape =>
      rw [perform_of_intern ho]
      rcases s.intern_cases shape with ⟨id, -, hi⟩ | ⟨-, hi⟩
      · simp [hi, Call.declared?, ho]
      · simp [hi, Call.declared?, ho, added, Description.key?]
    | declare package name shape =>
      rw [perform_of_declare ho]
      rcases s.declareNamed_cases package name shape with ⟨id, hl, hi⟩ | ⟨hl, hi⟩
      · have hkey : (package, name) ∈ s.byName.keys := by
          by_contra hnew
          exact Option.some_ne_none id (hl.symm.trans (Index.lookup_eq_none_iff.mpr hnew))
        simp [hi, Call.declared?, ho, hkey]
      · have hkey : (package, name) ∉ s.byName.keys := Index.lookup_eq_none_iff.mp hl
        have hadded : (s.added { name := some name, package, shape }).byName.keys =
            s.byName.keys ++ [(package, name)] := by
          simp [added, Description.key?, Index.keys]
        simp [hi, hadded, Call.declared?, ho, hkey]
    | amend id f => simp [perform_of_amend ho, Call.declared?, ho, modify]

/-- The named types come in the order of their first declarations. -/
theorem keys_after (calls : List Call) :
    (after calls).byName.keys = (calls.filterMap (·.declared?)).eraseDups := by
  induction calls using List.reverseRecOn with
  | nil => decide
  | append_singleton calls call ih =>
    rw [after_concat, keys_perform, ih, List.filterMap_append, List.eraseDups_append]
    cases hc : call.declared? with
    | none => simp [hc]
    | some key =>
      by_cases hkey : key ∈ calls.filterMap (·.declared?) <;>
        simp [hc, List.removeAll, hkey, List.eraseDups_cons, -List.mem_filterMap]

/-- What a building run makes of a set is made by calls. -/
theorem exists_calls_of_run {calls : List Call} {t : TypeSet} (h : (after calls).toTypeSet.Run t) :
    ∃ more, (after (calls ++ more)).toTypeSet = t := by
  induction h with
  | refl => exact ⟨[], by rw [List.append_nil]⟩
  | tail _ hstep ih =>
    obtain ⟨more, rfl⟩ := ih
    obtain ⟨call, rfl⟩ := Call.exists_of_step hstep
    refine ⟨more ++ [call], ?_⟩
    rw [← List.append_assoc, after_concat, (inStep_after _).perform_eq]

/-- The tables of a set say just what its descriptions say, and every type is in one table, once. -/
structure Exact (s : Indexed) : Prop where
  named : ∀ package name id, s.lookup package name = some id ↔
    ∃ d, s.get? id = some d ∧ d.name = some name ∧ d.package = package
  unnamed : ∀ shape id, s.byShape.lookup shape = some id ↔
    ∃ d, s.get? id = some d ∧ d.name = none ∧ d.shape = shape
  covers : (s.byName.ids ++ s.byShape.ids).Perm s.ids

/-- Named types are listed in the order of their first declarations, in all and by name. -/
structure Ordered (s : Indexed) (calls : List Call) : Prop where
  keys : s.byName.keys = (calls.filterMap (·.declared?)).eraseDups
  ids : s.byName.ids.Pairwise (·.index < ·.index)
  find : ∀ name, s.find name =
    s.byName.ids.filter fun id => ((s.get? id).bind (·.name)) = some name

/-- What is found in a set is found in another, and the types are called and formed alike. -/
structure Lasts (s s' : Indexed) : Prop where
  named : ∀ package name id, s.lookup package name = some id → s'.lookup package name = some id
  unnamed : ∀ shape id, s.byShape.lookup shape = some id → s'.byShape.lookup shape = some id
  described : ∀ id d, s.get? id = some d → ∃ d', s'.get? id = some d' ∧ d.Matures d'

/-- A set with tables is one that answers without them. -/
structure Mirrors (s : Indexed) (t : TypeSet) : Prop where
  types : s.toTypeSet = t
  answers : ∀ call, (s.perform call).1 = (call.perform t).1
  lookup : ∀ package name, s.lookup package name = t.lookup package name
  find : ∀ name, s.find name = t.find name
  named : s.byName.ids = t.named

theorem InStep.exact (h : s.InStep) : s.Exact :=
  ⟨fun _ _ _ => h.lookup_name, fun _ _ => h.lookup_shape, h.covers⟩

theorem InStep.mirrors (h : s.InStep) : s.Mirrors s.toTypeSet :=
  ⟨rfl, fun call => congrArg Prod.fst (h.perform_eq call).symm, h.lookup_eq, h.find_eq, h.ids_byName⟩

theorem ordered_after (calls : List Call) : (after calls).Ordered calls := by
  have h := inStep_after calls
  refine ⟨keys_after calls, ?_, ?_⟩
  · rw [h.ids_byName]
    exact (pairwise_ids _).filter _
  · intro name
    rw [h.find_eq, h.ids_byName, TypeSet.named, List.filter_filter, TypeSet.find]
    apply List.filter_congr
    intro id _
    cases ((after calls).get? id).bind (·.name) <;> simp

/-- A call alters descriptions as it says, in a set with tables too. -/
theorem InStep.exists_altered (h : s.InStep) {id : TypeId} {d : Description}
    (hd : s.get? id = some d) (call : Call) :
    ∃ d', (s.perform call).2.get? id = some d' ∧ call.Alters id d d' := by
  have haltered := Call.exists_altered hd call
  rwa [h.perform_eq] at haltered

/-- Descriptions stay, and those of types without a name stay as they are. -/
theorem exists_matured (calls more : List Call) {id : TypeId} {d : Description}
    (hd : (after calls).get? id = some d) : ∃ d', (after (calls ++ more)).get? id = some d' ∧
      d.Matures d' ∧ (d.name = none → d' = d) := by
  induction more using List.reverseRecOn with
  | nil => exact ⟨d, by rwa [List.append_nil], .refl d, fun _ => rfl⟩
  | append_singleton more call ih =>
    obtain ⟨d', hd', hm, hu⟩ := ih
    obtain ⟨d'', hd'', ha⟩ := (inStep_after _).exists_altered hd' call
    rw [← List.append_assoc, after_concat]
    refine ⟨d'', hd'', hm.trans ha.matures, fun hn => ?_⟩
    rw [ha.unnamed (hm.name.trans hn), hu hn]

theorem lasts_after (calls more : List Call) : (after calls).Lasts (after (calls ++ more)) := by
  have h := (inStep_after calls).exact
  have h' := (inStep_after (calls ++ more)).exact
  refine ⟨fun package name id hl => ?_, fun shape id hl => ?_, fun id d hd => ?_⟩
  · obtain ⟨d, hd, hn, hp⟩ := (h.named package name id).mp hl
    obtain ⟨d', hd', hm, -⟩ := exists_matured calls more hd
    exact (h'.named package name id).mpr ⟨d', hd', hm.name.trans hn, hm.package.trans hp⟩
  · obtain ⟨d, hd, hn, hs⟩ := (h.unnamed shape id).mp hl
    obtain ⟨d', hd', -, hu⟩ := exists_matured calls more hd
    obtain rfl := hu hn
    exact (h'.unnamed shape id).mpr ⟨d', hd', hn, hs⟩
  · obtain ⟨d', hd', hm, -⟩ := exists_matured calls more hd
    exact ⟨d', hd', hm⟩

/-- A name that is declared keeps its id and its type, whatever it is declared as again. -/
theorem declareNamed_of_lookup {package name : String} {id : TypeId}
    (h : s.lookup package name = some id) (shape : Shape) :
    s.declareNamed package name shape = (id, s) := by
  rcases s.declareNamed_cases package name shape with ⟨x, hl, hi⟩ | ⟨hl, -⟩
  · obtain rfl : x = id := Option.some.inj (hl.symm.trans h)
    exact hi
  · simp [h] at hl

end Indexed

/-- After any calls, the tables of a type set say just what its descriptions say, with every type in
one of them, once; named types are listed in the order of their first declarations; and the set
answers and grows as one that is searched without tables. A further call alters no description but
to fill in a named type, so what was found stays found, under its name and in the form that it has,
also where a name is declared again as something else. Building a blueprint comes down to calls. -/
theorem indexes_stay_exact (calls : List Call) :
    let s := Indexed.after calls
    s.Exact ∧ s.Ordered calls ∧
    s.Mirrors (calls.foldl (fun t call => (call.perform t).2) initial) ∧
    (∀ call id d, s.get? id = some d →
      ∃ d', (s.perform call).2.get? id = some d' ∧ call.Alters id d d') ∧
    (∀ more, s.Lasts (Indexed.after (calls ++ more))) ∧
    (∀ package name id, s.lookup package name = some id →
      s.perform (.operation (.declareAggregate package name)) = (some id, s) ∧
      ∀ kind, s.perform (.operation (.declareScalar package name kind)) = (some id, s)) ∧
    ∀ family b id t, s.toTypeSet.Bound → s.toTypeSet.of family b = .ok (id, t) →
      ∃ more, (Indexed.after (calls ++ more)).toTypeSet = t := by
  intro s
  have h := Indexed.inStep_after calls
  refine ⟨h.exact, Indexed.ordered_after calls, ?_, fun call id d hd => h.exists_altered hd call,
    Indexed.lasts_after calls, fun package name id hl => ⟨?_, fun kind => ?_⟩, ?_⟩
  · rw [← Indexed.toTypeSet_after]
    exact h.mirrors
  · rw [Indexed.perform_of_declare rfl, Indexed.declareNamed_of_lookup hl]
  · rw [Indexed.perform_of_declare rfl, Indexed.declareNamed_of_lookup hl]
  · intro family b id t hbound hof
    exact Indexed.exists_calls_of_run (run_of hbound hof).1

/-- A struct that a sequence holds, a scalar, and a second declaration of the struct, as a scalar. -/
def redeclared : List Call :=
  [.operation (.declareAggregate "geo" "Point"), .operation (.sequence ⟨7⟩),
    .operation (.declareScalar "" "Point" .int), .operation (.declareScalar "geo" "Point" .string),
    .operation (.setMembers ⟨7⟩ [{ name := "near", ty := ⟨8⟩ }]),
    .operation (.addConstant ⟨7⟩ { name := "A", value := .string "a" })]

theorem redeclared_stays_exact :
    let s := Indexed.after redeclared
    s.lookup "geo" "Point" = some ⟨7⟩ ∧ s.byShape.lookup (.sequence ⟨7⟩) = some ⟨8⟩ ∧
      s.find "Point" = [⟨7⟩, ⟨9⟩] ∧
      (∃ d, s.get? ⟨7⟩ = some d ∧ d.name = some "Point" ∧ d.package = "geo") ∧
      s.perform (.operation (.declareScalar "geo" "Point" .string)) = (some ⟨7⟩, s) ∧
      ∀ more, (Indexed.after (redeclared ++ more)).lookup "geo" "Point" = some ⟨7⟩ := by
  intro s
  have hshown : s.lookup "geo" "Point" = some ⟨7⟩ ∧
      s.byShape.lookup (.sequence ⟨7⟩) = some ⟨8⟩ ∧ s.find "Point" = [⟨7⟩, ⟨9⟩] := by
    decide +kernel
  obtain ⟨hname, hshape, hfind⟩ := hshown
  obtain ⟨hexact, -, -, -, hlasts, hagain, -⟩ := indexes_stay_exact redeclared
  exact ⟨hname, hshape, hfind, (hexact.named _ _ _).mp hname, (hagain _ _ _ hname).2 .string,
    fun more => (hlasts more).named _ _ _ hname⟩

end TypeSet

end TypeGraph

import TypeGraph.Blueprint
import TypeGraph.Proofs.TypeSet.Growth
/-!
The operations that build a type set, as steps. Building a blueprint is a run of them, however the
records of its family refer to each other.
-/

namespace TypeGraph

open Relation

namespace TypeSet

/-- One call that builds on a set. Containers are made of ids of the set; members may have any
id. -/
inductive Step (t : TypeSet) : TypeSet → Prop
  | scalar (kind : Scalar) : Step t (t.scalar kind).2
  | pointer {target : TypeId} (h : t.contains target) : Step t (t.pointer target).2
  | sequence {element : TypeId} (h : t.contains element) : Step t (t.sequence element).2
  | map {key value : TypeId} (hk : t.contains key) (hv : t.contains value) :
      Step t (t.map key value).2
  | anonymous (members : List Member) : Step t (t.anonymous members).2
  | declareAggregate (package name : String) : Step t (t.declareAggregate package name).2
  | declareScalar (package name : String) (kind : Scalar) :
      Step t (t.declareScalar package name kind).2
  | setMembers (id : TypeId) (members : List Member) : Step t (t.setMembers id members)
  | setDoc (id : TypeId) (doc : String) : Step t (t.setDoc id doc)
  | addConstant (id : TypeId) (constant : Constant) : Step t (t.addConstant id constant)
  | bind (blueprint : Blueprint) {id : TypeId} (h : t.contains id) :
      Step t (t.bind blueprint id)

/-- Any number of building calls. -/
abbrev Run : TypeSet → TypeSet → Prop :=
  ReflTransGen Step

/-- Every blueprint built before has an id of the set. -/
def Bound (t : TypeSet) : Prop :=
  ∀ entry ∈ t.built, t.contains entry.2

variable {t t' : TypeSet}

theorem Step.evolves (h : t.Step t') : t.Evolves t' := by
  cases h with
  | scalar | pointer | sequence | map | anonymous => exact .intern t _
  | declareAggregate | declareScalar => exact .declareNamed t _ _ _
  | setMembers id ms => exact .modify t id fun d => .withMembers d ms
  | setDoc id doc => exact .modify t id fun d => .withDoc d doc
  | addConstant id k => exact .modify t id fun d => .withConstant d k
  | bind => exact .refl t

theorem Step.backward (h : t.Step t') (hb : t.Backward) : t'.Backward := by
  cases h with
  | scalar | anonymous => exact hb.intern (by simp [Shape.held])
  | pointer h => exact hb.intern (by simpa [Shape.held] using h)
  | sequence h => exact hb.intern (by simpa [Shape.held] using h)
  | map hk hv => exact hb.intern (by simp [Shape.held, hk, hv])
  | declareAggregate | declareScalar => exact hb.declareNamed _ _ rfl
  | setMembers id ms => exact hb.modify id fun d => held_withMembers d ms
  | setDoc id doc => exact hb.modify id fun d => by rw [shape_withDoc]
  | addConstant id k => exact hb.modify id fun d => by rw [shape_withConstant]
  | bind => exact hb

theorem Step.plainlyNamed (h : t.Step t') (hn : t.PlainlyNamed) : t'.PlainlyNamed := by
  cases h with
  | scalar | pointer | sequence | map | anonymous => exact hn.intern _
  | declareAggregate | declareScalar => exact hn.declareNamed _ _ rfl
  | setMembers id ms => exact hn.modify id (.withMembers · ms) fun d => held_withMembers d ms
  | setDoc id doc => exact hn.modify id (.withDoc · doc) fun d => by rw [shape_withDoc]
  | addConstant id k => exact hn.modify id (.withConstant · k) fun d => by rw [shape_withConstant]
  | bind => exact hn

@[simp] theorem built_intern (t : TypeSet) (shape : Shape) :
    (t.intern shape).2.built = t.built := by
  unfold intern
  split <;> rfl

@[simp] theorem built_declareNamed (t : TypeSet) (package name : String) (shape : Shape) :
    (t.declareNamed package name shape).2.built = t.built := by
  unfold declareNamed
  split <;> rfl

theorem Step.bound (h : t.Step t') (hb : t.Bound) : t'.Bound := by
  have keep (hk : t'.built = t.built) : t'.Bound := fun entry he =>
    h.evolves.contains (hb entry (hk ▸ he))
  cases h with
  | scalar | pointer | sequence | map | anonymous => exact keep (built_intern t _)
  | declareAggregate | declareScalar => exact keep (built_declareNamed t _ _ _)
  | setMembers | setDoc | addConstant => exact keep rfl
  | bind b h =>
    intro entry he
    rcases List.mem_cons.mp he with rfl | he
    · exact h
    · exact hb entry he

namespace Run

theorem evolves (h : t.Run t') : t.Evolves t' := by
  induction h with
  | refl => exact .refl t
  | tail _ hs ih => exact ih.trans hs.evolves

theorem backward (h : t.Run t') (hb : t.Backward) : t'.Backward := by
  induction h with
  | refl => exact hb
  | tail _ hs ih => exact hs.backward ih

theorem bound (h : t.Run t') (hb : t.Bound) : t'.Bound := by
  induction h with
  | refl => exact hb
  | tail _ hs ih => exact hs.bound ih

theorem plainlyNamed (h : t.Run t') (hn : t.PlainlyNamed) : t'.PlainlyNamed := by
  induction h with
  | refl => exact hn
  | tail _ hs ih => exact hs.plainlyNamed ih

theorem contains (h : t.Run t') {id : TypeId} (hc : t.contains id) : t'.contains id :=
  h.evolves.contains hc

end Run

end TypeSet

namespace Building

/-- Work that is a run of building calls wherever it starts, with a result of which `Q` holds. -/
def Runs (m : Building α) (Q : TypeSet → α → Prop) : Prop :=
  ∀ t a t', t.Bound → m t = .ok (a, t') → t.Run t' ∧ Q t' a

/-- Work that answers an id of the set. -/
abbrev Makes (m : Building TypeId) : Prop :=
  Runs m fun t id => t.contains id

variable {m : Building α} {f : α → Building β}
variable {Q : TypeSet → α → Prop} {R : TypeSet → β → Prop}

theorem bind_eq_ok {t : TypeSet} {r : β × TypeSet} (h : (m >>= f) t = .ok r) :
    ∃ a u, m t = .ok (a, u) ∧ f a u = .ok r := by
  simp only [Bind.bind, StateT.bind, Except.bind] at h
  split at h
  · cases h
  · next p hp => exact ⟨p.1, p.2, hp, h⟩

theorem Runs.pure {a : α} (h : ∀ t, Q t a) : Runs (Pure.pure a : Building α) Q := by
  intro t b t' _ he
  cases he
  exact ⟨.refl, h _⟩

/-- What held of an intermediate result need not hold in the end, so it is handed on with the set
that it held in. -/
theorem Runs.bind (hm : Runs m Q)
    (hf : ∀ t a b t', t.Bound → Q t a → f a t = .ok (b, t') → t.Run t' ∧ R t' b) :
    Runs (m >>= f) R := by
  intro t b t' hb h
  obtain ⟨a, u, ha, hu⟩ := bind_eq_ok h
  obtain ⟨hr, hq⟩ := hm t a u hb ha
  obtain ⟨hr', hq'⟩ := hf u a b t' (hr.bound hb) hq hu
  exact ⟨hr.trans hr', hq'⟩

theorem Runs.andThen (hm : Runs m Q) (hf : ∀ a, Runs (f a) R) : Runs (m >>= f) R :=
  hm.bind fun t a b t' hb _ => hf a t b t' hb

theorem Runs.modify {g : TypeSet → TypeSet} (h : ∀ t : TypeSet, t.Run (g t)) :
    Runs (modify g : Building PUnit) fun _ _ => True := by
  intro t a t' _ he
  cases he
  exact ⟨h t, trivial⟩

theorem Runs.modifyGet {g : TypeSet → α × TypeSet} (h : ∀ t : TypeSet, t.Step (g t).2)
    (hq : ∀ t, Q (g t).2 (g t).1) : Runs (modifyGet g : Building α) Q := by
  intro t a t' _ he
  obtain rfl := congrArg Prod.snd (Except.ok.inj he)
  obtain rfl := congrArg Prod.fst (Except.ok.inj he)
  exact ⟨.single (h t), hq t⟩

theorem Runs.mapM {g : γ → Building α} (h : ∀ x, Runs (g x) fun _ _ => True) (xs : List γ) :
    Runs (xs.mapM g) fun _ _ => True := by
  induction xs with
  | nil => exact .pure fun _ => trivial
  | cons x xs ih =>
    rw [List.mapM_cons]
    exact (h x).andThen fun _ => ih.andThen fun _ => .pure fun _ => trivial

/-- A blueprint that was built is looked up, any other is built and bound. -/
theorem makes_once (b : Blueprint) {build : Building TypeId} (h : Makes build) :
    Makes (once b build) := by
  intro t id t' hb he
  obtain ⟨u, v, hu, he⟩ := bind_eq_ok he
  cases hu
  cases hl : t.built.lookup b with
  | some known =>
    simp only [hl] at he
    cases he
    obtain ⟨before, after, hi, -⟩ := List.lookup_eq_some_iff.mp hl
    exact ⟨.refl, hb (b, id) (by simp [hi])⟩
  | none =>
    simp only [hl] at he
    obtain ⟨i, u, hi, hu⟩ := bind_eq_ok he
    obtain ⟨hr, hc⟩ := h t i u hb hi
    cases hu
    exact ⟨hr.tail (.bind b hc), (TypeSet.Step.bind b hc).evolves.contains hc⟩

theorem makes_blueprint {named : String → Building TypeId} (h : ∀ name, Makes (named name))
    (b : Blueprint) : Makes (blueprint named b) := by
  induction b with
  | scalar flavour kind =>
    exact makes_once _ (.modifyGet (fun _ => .scalar kind) fun t => t.contains_intern _)
  | pointer flavour target ih =>
    refine makes_once _ (ih.bind fun t i id t' _ hi he => ?_)
    obtain rfl := congrArg Prod.snd (Except.ok.inj he)
    obtain rfl := congrArg Prod.fst (Except.ok.inj he)
    exact ⟨.single (.pointer hi), t.contains_intern _⟩
  | sequence flavour element ih =>
    refine makes_once _ (ih.bind fun t i id t' _ hi he => ?_)
    obtain rfl := congrArg Prod.snd (Except.ok.inj he)
    obtain rfl := congrArg Prod.fst (Except.ok.inj he)
    exact ⟨.single (.sequence hi), t.contains_intern _⟩
  | map flavour key value ihk ihv =>
    refine makes_once _ (ihk.bind fun t k id t' hb hk he => ?_)
    obtain ⟨v, u, hv, hu⟩ := bind_eq_ok he
    obtain ⟨hr, hv⟩ := ihv t v u hb hv
    obtain rfl := congrArg Prod.snd (Except.ok.inj hu)
    obtain rfl := congrArg Prod.fst (Except.ok.inj hu)
    exact ⟨hr.tail (.map (hr.contains hk) hv), u.contains_intern _⟩
  | named name => exact makes_once _ (h name)

theorem runs_member {named : String → Building TypeId} (h : ∀ name, Makes (named name))
    (plan : FieldPlan) : Runs (member named plan) fun _ _ => True := by
  cases plan with
  | typed name type attributes =>
    exact (makes_blueprint h type).andThen fun _ => .pure fun _ => trivial
  | embedded type attributes =>
    refine (makes_blueprint h type).bind fun t id m t' hb _ he => ?_
    obtain ⟨name, u, hn, hu⟩ := bind_eq_ok he
    cases hu
    obtain ⟨s, v, hs, hv⟩ := bind_eq_ok hn
    cases hs
    cases hd : t.get? (t.strip id) with
    | some d =>
      simp only [hd] at hv
      cases hv
      exact ⟨.refl, trivial⟩
    | none =>
      simp only [hd] at hv
      cases hv
  | existing name ty attributes => exact .pure fun _ => trivial
  | inline name members attributes =>
    refine (Runs.mapM (fun x => ?_) members).andThen fun ms => ?_
    · exact (makes_blueprint h x.2.1).andThen fun _ => .pure fun _ => trivial
    · exact (Runs.modifyGet (Q := fun _ _ => True) (fun t => .anonymous ms)
        fun _ => trivial).andThen fun _ => .pure fun _ => trivial

theorem run_addConstants (id : TypeId) (ks : List Constant) (t : TypeSet) :
    t.Run (ks.foldl (·.addConstant id ·) t) := by
  induction ks generalizing t with
  | nil => exact .refl
  | cons k ks ih => exact .head (.addConstant id k) (ih _)

theorem run_setDoc (id : TypeId) (doc : Option String) (t : TypeSet) :
    t.Run (doc.elim t (t.setDoc id)) := by
  cases doc with
  | none => exact .refl
  | some doc => exact .single (.setDoc id doc)

theorem makes_define {named : String → Building TypeId} (h : ∀ name, Makes (named name))
    (name : String) (d : Definition) : Makes (define named name d) := by
  cases d with
  | scalar package own kind constants doc =>
    refine Runs.bind (Q := fun t id => t.contains id)
      (.modifyGet (fun t => .declareScalar package own kind)
        fun t => t.contains_declareNamed _ _ _) fun t id i t' hb hc he => ?_
    have hrest : Runs (do
        modify fun types => constants.foldl (·.addConstant id ·) types
        modify fun types => doc.elim types (types.setDoc id)
        Pure.pure id : Building TypeId) fun _ i => i = id :=
      (Runs.modify (run_addConstants id constants)).andThen fun _ =>
        (Runs.modify (run_setDoc id doc)).andThen fun _ => .pure fun _ => rfl
    obtain ⟨hr, rfl⟩ := hrest t i t' hb he
    exact ⟨hr, hr.contains hc⟩
  | record package own fields doc =>
    refine Runs.bind (Q := fun t id => t.contains id)
      (.modifyGet (fun t => .declareAggregate package own)
        fun t => t.contains_declareNamed _ _ _) fun t id i t' hb hc he => ?_
    obtain ⟨_, u, hu, he⟩ := bind_eq_ok he
    cases hu
    have hrest : Runs (do
        let members ← fields.mapM (member named)
        modify (·.setMembers id members)
        modify fun types => doc.elim types (types.setDoc id)
        Pure.pure id : Building TypeId) fun _ i => i = id :=
      (Runs.mapM (runs_member h) fields).andThen fun ms =>
        (Runs.modify fun t => .single (.setMembers id ms)).andThen fun _ =>
          (Runs.modify (run_setDoc id doc)).andThen fun _ => .pure fun _ => rfl
    have hbind := TypeSet.Step.bind (.named name) hc
    obtain ⟨hr, rfl⟩ := hrest _ i t' (hbind.bound hb) he
    exact ⟨.head hbind hr, hr.contains (hbind.evolves.contains hc)⟩

theorem makes_named (family : Family) (depth : Nat) (name : String) :
    Makes (named family depth name) := by
  induction depth generalizing name with
  | zero => exact .modifyGet (fun _ => .scalar .any) fun t => t.contains_intern _
  | succ depth ih => exact makes_define ih name _

end Building

/-- Building a blueprint is a run of building calls, and gives an id of the set. -/
theorem TypeSet.run_of {t t' : TypeSet} {family : Family} {b : Blueprint} {id : TypeId}
    (hb : t.Bound) (h : t.of family b = .ok (id, t')) : t.Run t' ∧ t'.contains id :=
  Building.makes_blueprint (Building.makes_named family _) b t id t' hb h

end TypeGraph

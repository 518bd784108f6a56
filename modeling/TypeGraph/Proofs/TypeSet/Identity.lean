import Mathlib.Logic.ExistsUnique
import Mathlib.Tactic.Choose
import TypeGraph.Proofs.TypeSet.Building
import TypeGraph.Proofs.TypeSet.Forms
/-!
When two ids of a set stand for the same type. A type without a name is known by what it holds, all
the way down, a named type by its package and name. A set that was built call by call gives every
type one id.
-/

namespace TypeGraph

theorem Member.eq_of_shown {m m' : Member} (hs : m.shown = m'.shown) (ht : m.ty = m'.ty) :
    m = m' := by
  obtain ⟨attributes, name, ty, embedded⟩ := m
  obtain ⟨attributes', name', ty', embedded'⟩ := m'
  simp only [shown, Shown.mk.injEq] at hs
  obtain ⟨rfl, rfl, rfl⟩ := hs
  obtain rfl : ty = ty' := ht
  rfl

/-- What a type is known by: its package and name, or its shape if it has none. -/
def Description.identity (d : Description) : (String × String) ⊕ Shape :=
  d.key?.elim (.inr d.shape) .inl

namespace Description

variable {d d' : Description}

theorem identity_of_key? {key : String × String} (h : d.key? = some key) :
    d.identity = .inl key := by
  rw [identity, h, Option.elim_some]

theorem identity_of_unnamed (h : d.key? = none) : d.identity = .inr d.shape := by
  rw [identity, h, Option.elim_none]

theorem key?_eq_none : d.key? = none ↔ d.name = none := by
  simp [key?]

/-- A change that named types undergo leaves their identity, and others as they are. -/
theorem identity_eq_of_matures (hm : d.Matures d') (hu : d.key? = none → d' = d) :
    d'.identity = d.identity := by
  cases hk : d.key? with
  | none => rw [hu hk]
  | some key => rw [identity_of_key? hk, identity_of_key? (hm.key?.trans hk)]

theorem withMembers_of_unnamed (ms : List Member) (h : d.key? = none) : d.withMembers ms = d := by
  simp [withMembers, key?_eq_none.mp h]

theorem withDoc_of_unnamed (doc : String) (h : d.key? = none) : d.withDoc doc = d := by
  simp [withDoc, key?_eq_none.mp h]

theorem withConstant_of_unnamed (k : Constant) (h : d.key? = none) : d.withConstant k = d := by
  simp [withConstant, key?_eq_none.mp h]

end Description

namespace TypeSet

/-- A call that builds on a set. -/
inductive Operation where
  | scalar (kind : Scalar)
  | pointer (target : TypeId)
  | sequence (element : TypeId)
  | map (key value : TypeId)
  | anonymous (members : List Member)
  | declareAggregate (package name : String)
  | declareScalar (package name : String) (kind : Scalar)
  | setMembers (id : TypeId) (members : List Member)
  | setDoc (id : TypeId) (doc : String)
  | addConstant (id : TypeId) (constant : Constant)

namespace Operation

/-- The ids that a call is made with, those of members included. -/
def ids : Operation → List TypeId
  | pointer target => [target]
  | sequence element => [element]
  | map key value => [key, value]
  | anonymous members => members.map (·.ty)
  | setMembers id members => id :: members.map (·.ty)
  | setDoc id _ | addConstant id _ => [id]
  | scalar _ | declareAggregate _ _ | declareScalar _ _ _ => []

/-- What a call answers, and the set after it. Calls that fill in a type answer nothing. -/
def perform (t : TypeSet) : Operation → Option TypeId × TypeSet
  | scalar kind => (t.scalar kind).map some id
  | pointer target => (t.pointer target).map some id
  | sequence element => (t.sequence element).map some id
  | map key value => (t.map key value).map some id
  | anonymous members => (t.anonymous members).map some id
  | declareAggregate package name => (t.declareAggregate package name).map some id
  | declareScalar package name kind => (t.declareScalar package name kind).map some id
  | setMembers id members => (none, t.setMembers id members)
  | setDoc id doc => (none, t.setDoc id doc)
  | addConstant id constant => (none, t.addConstant id constant)

end Operation

/-- The sets that calls make of the plain scalars, each call with ids of the set at that time. -/
inductive Built : TypeSet → Prop
  | initial : Built initial
  | call {t : TypeSet} (h : Built t) (o : Operation) (hids : ∀ x ∈ o.ids, t.contains x) :
      Built (o.perform t).2

/-- What tells the types of a set apart. Types without a name hold earlier types only. -/
structure Identified (t : TypeSet) : Prop where
  distinct : (t.descriptions.map (·.identity)).Nodup
  earlier : ∀ id d, t.get? id = some d → d.key? = none → ∀ x ∈ d.shape.ids, x.index < id.index

variable {t : TypeSet} {x y id : TypeId} {d : Description} {form form' : Form}

namespace Identified

theorem initial : TypeSet.initial.Identified := by
  refine ⟨by decide +kernel, ?_⟩
  intro id d hd hk x hx
  obtain ⟨kind, -, rfl⟩ := List.mem_map.mp (List.mem_of_getElem? hd)
  simp [Shape.ids, Shape.held] at hx

/-- A new type is added behind those it holds. -/
theorem push (h : t.Identified) (hnew : ∀ e ∈ t.descriptions, e.identity ≠ d.identity)
    (hids : d.key? = none → ∀ x ∈ d.shape.ids, t.contains x) : (t.push d).2.Identified := by
  constructor
  · have hfresh : d.identity ∉ t.descriptions.map (·.identity) := by
      intro hmem
      obtain ⟨e, he, heq⟩ := List.mem_map.mp hmem
      exact hnew e he heq
    simpa [TypeSet.push, List.nodup_append] using And.intro h.distinct hnew
  · intro id e he hk x hx
    rw [get?_push] at he
    split at he
    · next hid =>
      obtain rfl := Option.some.inj he
      have hlt := contains_iff.mp (hids hk x hx)
      omega
    · exact h.earlier id e he hk x hx

theorem intern (h : t.Identified) {shape : Shape} (hids : ∀ x ∈ shape.ids, t.contains x) :
    (t.intern shape).2.Identified := by
  unfold TypeSet.intern
  split
  · exact h
  · next hnone =>
    refine h.push ?_ fun _ => hids
    intro e he heq
    have hother := List.findIdx?_eq_none_iff.mp hnone e he
    rw [Description.identity_of_unnamed (d := { shape }) rfl] at heq
    cases hk : e.key? with
    | some key => simp [Description.identity_of_key? hk] at heq
    | none =>
      rw [Description.identity_of_unnamed hk] at heq
      simp [Description.key?_eq_none.mp hk, Sum.inr.inj heq] at hother

theorem declareNamed (h : t.Identified) (package name : String) (shape : Shape) :
    (t.declareNamed package name shape).2.Identified := by
  rcases t.declareNamed_cases package name shape with ⟨i, e, -, -, -, hi⟩ | ⟨hnone, hi⟩ <;> rw [hi]
  · exact h
  · refine h.push ?_ fun hk => by simp [Description.key?] at hk
    intro e he heq
    rw [Description.identity_of_key? (d := { name := some name, package, shape }) rfl] at heq
    cases hk : e.key? with
    | none => simp [Description.identity_of_unnamed hk] at heq
    | some key =>
      rw [Description.identity_of_key? hk] at heq
      obtain rfl := Sum.inl.inj heq
      obtain ⟨n, hn, hkey⟩ := Option.map_eq_some_iff.mp hk
      obtain ⟨rfl, rfl⟩ := Prod.mk.inj hkey
      simp only [lookup, Option.map_eq_none_iff, List.findIdx?_eq_none_iff] at hnone
      simpa [hn] using hnone e he

/-- A change that leaves types without a name alone. -/
theorem modify (h : t.Identified) (i : TypeId) {f : Description → Description}
    (hm : ∀ d : Description, d.Matures (f d)) (hu : ∀ d : Description, d.key? = none → f d = d) :
    (t.modify i f).Identified := by
  constructor
  · have hsame : (t.descriptions.modify i.index f).map (·.identity) =
        t.descriptions.map (·.identity) := by
      apply List.ext_getElem (by simp)
      intro j hj hj'
      simp only [List.getElem_map, List.getElem_modify]
      split
      · exact Description.identity_eq_of_matures (hm _) (hu _)
      · rfl
    rw [TypeSet.modify, hsame]
    exact h.distinct
  · intro id e he hk x hx
    rw [get?_modify] at he
    split at he
    · obtain ⟨d, hd, rfl⟩ := Option.map_eq_some_iff.mp he
      have hkey : d.key? = none := (hm d).key?.symm.trans hk
      rw [hu d hkey] at hx
      exact h.earlier id d hd hkey x hx
    · exact h.earlier id e he hk x hx

/-- Calls with ids of the set keep its types apart. -/
theorem perform (h : t.Identified) (o : Operation) (hids : ∀ x ∈ o.ids, t.contains x) :
    (o.perform t).2.Identified := by
  cases o with
  | scalar kind => exact h.intern (by simp [Shape.ids, Shape.held])
  | pointer target => exact h.intern hids
  | sequence element => exact h.intern hids
  | map key value => exact h.intern hids
  | anonymous members => exact h.intern hids
  | declareAggregate | declareScalar => exact h.declareNamed _ _ _
  | setMembers i ms =>
    exact h.modify i (fun d => .withMembers d ms) fun d => d.withMembers_of_unnamed ms
  | setDoc i doc => exact h.modify i (fun d => .withDoc d doc) fun d => d.withDoc_of_unnamed doc
  | addConstant i k =>
    exact h.modify i (fun d => .withConstant d k) fun d => d.withConstant_of_unnamed k

/-- Descriptions that are known by the same are those of one id. -/
theorem id_eq (h : t.Identified) {dx dy : Description} (hx : t.get? x = some dx)
    (hy : t.get? y = some dy) (heq : dx.identity = dy.identity) : x = y := by
  obtain ⟨i⟩ := x
  obtain ⟨j⟩ := y
  obtain ⟨hi, rfl⟩ := List.getElem?_eq_some_iff.mp hx
  obtain ⟨hj, rfl⟩ := List.getElem?_eq_some_iff.mp hy
  have hpairs := List.pairwise_map.mp h.distinct
  rcases Nat.lt_trichotomy i j with hlt | rfl | hlt
  · exact absurd heq (List.pairwise_iff_getElem.mp hpairs i j hi hj hlt)
  · rfl
  · exact absurd heq.symm (List.pairwise_iff_getElem.mp hpairs j i hj hi hlt)

end Identified

theorem Built.identified (h : t.Built) : t.Identified := by
  induction h with
  | initial => exact .initial
  | call _ o hids ih => exact ih.perform o hids

/-- What unfolding a type goes on with: the parts of a type without a name. -/
def Part (t : TypeSet) (x id : TypeId) : Prop :=
  ∃ d, t.get? id = some d ∧ d.key? = none ∧ x ∈ d.shape.ids

namespace Identified

theorem wellFounded_part (h : t.Identified) : WellFounded t.Part := by
  apply Subrelation.wf (r := fun x id : TypeId => x.index < id.index)
  · rintro x id ⟨d, hd, hk, hx⟩
    exact h.earlier id d hd hk x hx
  · exact InvImage.wf TypeId.index Nat.lt_wfRel.wf

theorem contains_part (h : t.Identified) (hp : t.Part x id) : t.contains x := by
  obtain ⟨d, hd, hk, hx⟩ := hp
  have hid := contains_iff.mp (contains_of_get? hd)
  have hlt := h.earlier id d hd hk x hx
  exact contains_iff.mpr (by omega)

/-- Every type unfolds. -/
theorem exists_unfolds (h : t.Identified) (hc : t.contains id) : ∃ form, t.Unfolds id form := by
  induction id using h.wellFounded_part.induction with
  | _ id ih =>
    obtain ⟨d, hd⟩ := exists_get? hc
    cases hk : d.key? with
    | some key => exact ⟨_, .named hd hk⟩
    | none =>
      have hpart : ∀ x ∈ d.shape.ids, ∃ form, t.Unfolds x form := by
        intro x hx
        have hp : t.Part x id := ⟨d, hd, hk, hx⟩
        exact ih x hp (h.contains_part hp)
      cases hs : d.shape with
      | scalar kind => exact ⟨_, .scalar hd hk hs⟩
      | pointer target =>
        obtain ⟨form, hform⟩ := hpart target (by simp [hs, Shape.ids, Shape.held])
        exact ⟨_, .pointer hd hk hs hform⟩
      | sequence element =>
        obtain ⟨form, hform⟩ := hpart element (by simp [hs, Shape.ids, Shape.held])
        exact ⟨_, .sequence hd hk hs hform⟩
      | map key value =>
        obtain ⟨k, hkey⟩ := hpart key (by simp [hs, Shape.ids, Shape.held])
        obtain ⟨v, hvalue⟩ := hpart value (by simp [hs, Shape.ids, Shape.held])
        exact ⟨_, .map hd hk hs hkey hvalue⟩
      | aggregate ms =>
        have hmember : ∀ i : Fin ms.length, ∃ form, t.Unfolds ms[i].ty form := by
          intro i
          apply hpart
          simp only [hs, Shape.ids]
          exact List.mem_map_of_mem (List.getElem_mem i.isLt)
        choose forms hforms using hmember
        have hlength : (List.ofFn forms).length = ms.length := by simp
        have hrecord : t.Unfolds id (.record (ms.map (·.shown)) (List.ofFn forms)) := by
          apply Unfolds.record hd hk hs hlength
          intro i m form hm hform
          obtain ⟨hi, rfl⟩ := List.getElem?_eq_some_iff.mp hm
          have hsame : forms ⟨i, hi⟩ = form := by simpa [hi] using hform
          exact hsame ▸ hforms ⟨i, hi⟩
        exact ⟨_, hrecord⟩

/-- Types of one form have one id. -/
theorem id_eq_of_unfolds (h : t.Identified) (hx : t.Unfolds x form) (hy : t.Unfolds y form) :
    x = y := by
  induction hx generalizing y with
  | named hd hk =>
    cases hy with
    | named hd' hk' =>
      apply h.id_eq hd hd'
      rw [Description.identity_of_key? hk, Description.identity_of_key? hk']
  | scalar hd hk hs =>
    cases hy with
    | scalar hd' hk' hs' =>
      apply h.id_eq hd hd'
      rw [Description.identity_of_unnamed hk, Description.identity_of_unnamed hk', hs, hs']
  | pointer hd hk hs _ ih =>
    cases hy with
    | pointer hd' hk' hs' hy =>
      apply h.id_eq hd hd'
      rw [Description.identity_of_unnamed hk, Description.identity_of_unnamed hk', hs, hs', ih hy]
  | sequence hd hk hs _ ih =>
    cases hy with
    | sequence hd' hk' hs' hy =>
      apply h.id_eq hd hd'
      rw [Description.identity_of_unnamed hk, Description.identity_of_unnamed hk', hs, hs', ih hy]
  | map hd hk hs _ _ ihk ihv =>
    cases hy with
    | map hd' hk' hs' hkey hvalue =>
      apply h.id_eq hd hd'
      rw [Description.identity_of_unnamed hk, Description.identity_of_unnamed hk', hs, hs',
        ihk hkey, ihv hvalue]
  | @record _ d ms forms hd hk hs hl _ ih =>
    generalize hshown : ms.map (·.shown) = shown at hy
    cases hy with
    | @record _ d' ms' _ hd' hk' hs' hl' hy =>
      have hmembers : ms = ms' := by
        apply List.ext_getElem (hl.symm.trans hl')
        intro i hi hi'
        have hform : forms[i]? = some forms[i] := List.getElem?_eq_getElem (hl ▸ hi)
        have hty : ms[i].ty = ms'[i].ty :=
          ih i ms[i] _ (List.getElem?_eq_getElem hi) hform
            (hy i ms'[i] _ (List.getElem?_eq_getElem hi') hform)
        apply Member.eq_of_shown ?_ hty
        have hi'' : (ms.map (·.shown))[i]? = (ms'.map (·.shown))[i]? := by rw [hshown]
        simpa [hi, hi'] using hi''
      apply h.id_eq hd hd'
      rw [Description.identity_of_unnamed hk, Description.identity_of_unnamed hk', hs, hs', hmembers]

end Identified

/-- Unfolding the types of a set comes to an end, every type has one form, and two ids have the
same form only if they are the same. -/
theorem form_identifies (h : t.Built) :
    WellFounded t.Part ∧ (∀ id, t.contains id → ∃! form, t.Unfolds id form) ∧
      ∀ x y formx formy, t.Unfolds x formx → t.Unfolds y formy → (formx = formy ↔ x = y) := by
  have hi := h.identified
  refine ⟨hi.wellFounded_part, ?_, ?_⟩
  · intro id hc
    obtain ⟨form, hform⟩ := hi.exists_unfolds hc
    exact ⟨form, hform, fun _ hother => hother.unique hform⟩
  · intro x y formx formy hx hy
    constructor
    · rintro rfl
      exact hi.id_eq_of_unfolds hx hy
    · rintro rfl
      exact hx.unique hy

/-- A struct that is held by a struct without a name, which its own member leads to. -/
def looped : TypeSet :=
  let (point, types) := initial.declareAggregate "geo" "Point"
  let (pointer, types) := types.pointer point
  let (mark, types) := types.anonymous [{ name := "at", ty := pointer }]
  types.setMembers point [{ name := "near", ty := mark }]

theorem looped_is_told_apart :
    looped.Built ∧ (∃ point mark, looped.Unfolds ⟨7⟩ point ∧ looped.Unfolds ⟨9⟩ mark ∧
      point ≠ mark) := by
  have hbuilt : looped.Built :=
    (((Built.initial.call (.declareAggregate "geo" "Point") (by decide +kernel)).call
      (.pointer ⟨7⟩) (by decide +kernel)).call (.anonymous [{ name := "at", ty := ⟨8⟩ }])
      (by decide +kernel)).call (.setMembers ⟨7⟩ [{ name := "near", ty := ⟨9⟩ }])
      (by decide +kernel)
  obtain ⟨-, hform, hsame⟩ := form_identifies hbuilt
  obtain ⟨point, hpoint, -⟩ := hform ⟨7⟩ (by decide +kernel)
  obtain ⟨mark, hmark, -⟩ := hform ⟨9⟩ (by decide +kernel)
  refine ⟨hbuilt, point, mark, hpoint, hmark, ?_⟩
  intro heq
  have hids : (⟨7⟩ : TypeId) = ⟨9⟩ := (hsame _ _ _ _ hpoint hmark).mp heq
  simp at hids

end TypeSet

end TypeGraph

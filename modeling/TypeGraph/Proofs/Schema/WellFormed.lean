import Mathlib.Data.Fintype.EquivFin
import Mathlib.Logic.Relation
import TypeGraph.Proofs.Schema.References
/-!
Well-formed schemas. Names are given once, enumerations have a base that can carry their literals,
every reference means one definition, and no synonym leads back to itself.
-/

namespace TypeGraph.Schema

open Relation

/-- The expressions in an expression, itself among them. -/
inductive Within : TypeExpr → TypeExpr → Prop
  | self (x : TypeExpr) : Within x x
  | pointer {y x : TypeExpr} (span : Span) (h : Within y x) : Within y (.pointer x span)
  | sequence {y x : TypeExpr} (span : Span) (h : Within y x) : Within y (.sequence x span)
  | key {y k : TypeExpr} (v : TypeExpr) (span : Span) (h : Within y k) : Within y (.map k v span)
  | value {y v : TypeExpr} (k : TypeExpr) (span : Span) (h : Within y v) : Within y (.map k v span)
  | member {y : TypeExpr} {m : MemberDef TypeExpr} {ms : List (MemberDef TypeExpr)} (span : Span)
      (hm : m ∈ ms) (h : Within y m.type) : Within y (.record ms span)

/-- What an item is made of, for a struct the record of its members. -/
def Item.expression? : Item → Option TypeExpr
  | .struct d => some (.record d.members d.name.span)
  | .enum _ => none
  | .synonym d => some d.target

/-- A synonym that stands for its target; one of a scalar is a type of its own. -/
def Definition.Transparent (d : Definition) : Prop :=
  ∃ s : SynonymDef, d.item = .synonym s ∧ ∀ kind span, s.target ≠ .scalar kind span

/-- The expression refers to the definition at a position. -/
def Mentions (ds : List Definition) (package : String) (x : TypeExpr) (i : Nat) : Prop :=
  ∃ qualifier name span, Within (.reference qualifier name span) x ∧
    Candidate ds package qualifier name i

/-- The target of one transparent synonym refers to another one. -/
def SynonymEdge (ds : List Definition) (i j : Nat) : Prop :=
  ∃ d x e, ds[i]? = some d ∧ d.Transparent ∧ d.item.expression? = some x ∧
    Mentions ds d.package x j ∧ ds[j]? = some e ∧ e.Transparent

/-- Members with names of their own, and a reference with one candidate. -/
def FineAt (ds : List Definition) (package : String) : TypeExpr → Prop
  | .record ms _ => (ms.map (·.name.text)).Nodup
  | .reference qualifier name _ => ∃! i, Candidate ds package qualifier name i
  | _ => True

/-- An expression that is fine in all its parts. -/
def Fine (ds : List Definition) (package : String) (x : TypeExpr) : Prop :=
  ∀ y, Within y x → FineAt ds package y

structure EnumDef.WellFormed (e : EnumDef) : Prop where
  base : e.base.text ∈ ["int", "uint", "float", "string"]
  variants : (e.variants.map (·.name.text)).Nodup
  literals : ∀ kind, Scalar.ofKeyword? e.base.text = some kind →
    ∀ v ∈ e.variants, v.value.fits kind

structure WellFormed (files : List File) : Prop where
  distinct : ((definitions files).map (·.key)).Nodup
  enums : ∀ d ∈ definitions files, ∀ e, d.item = .enum e → e.WellFormed
  expressions : ∀ d ∈ definitions files, ∀ x, d.item.expression? = some x →
    Fine (definitions files) d.package x
  acyclic : ∀ i, ¬TransGen (SynonymEdge (definitions files)) i i

/-- A synonym that is fine and leads only to such, so that its resolution ends. -/
inductive Straight (ds : List Definition) : Nat → Prop
  | intro {i : Nat} {d : Definition} {x : TypeExpr} (hd : ds[i]? = some d)
      (hx : d.item.expression? = some x) (hfine : Fine ds d.package x)
      (hnext : ∀ j, SynonymEdge ds i j → Straight ds j) : Straight ds i

variable {ds : List Definition} {package : String} {i j : Nat} {d : Definition} {x : TypeExpr}

theorem Straight.fine (h : Straight ds i) (hd : ds[i]? = some d)
    (hx : d.item.expression? = some x) : Fine ds d.package x := by
  cases h with
  | intro hd' hx' hfine =>
    obtain rfl := Option.some.inj (hd.symm.trans hd')
    obtain rfl := Option.some.inj (hx.symm.trans hx')
    exact hfine

theorem Straight.acyclic (h : Straight ds i) : ¬TransGen (SynonymEdge ds) i i := by
  induction h with
  | intro _ _ _ _ ih =>
    intro hcycle
    obtain ⟨j, hj, hback⟩ := TransGen.head'_iff.mp hcycle
    exact ih j hj (TransGen.tail' hback hj)

/-- There are finitely many synonyms, so without cycles every resolution ends. -/
theorem straight_of_acyclic (hacyclic : ∀ i, ¬TransGen (SynonymEdge ds) i i)
    (hfine : ∀ d ∈ ds, ∀ x, d.item.expression? = some x → Fine ds d.package x)
    (hd : ds[i]? = some d) (ht : d.Transparent) : Straight ds i := by
  let leads : Fin ds.length → Fin ds.length → Prop := fun b a => TransGen (SynonymEdge ds) a b
  have : IsTrans _ leads := ⟨fun _ _ _ h k => k.trans h⟩
  have : Std.Irrefl leads := ⟨fun a => hacyclic a⟩
  have hwf : WellFounded leads := Finite.wellFounded_of_trans_of_irrefl leads
  have hall (a : Fin ds.length) : ∀ d, ds[a.val]? = some d → d.Transparent → Straight ds a := by
    induction a using hwf.induction with
    | h a ih =>
      intro d hd ht
      obtain ⟨s, hs, hscalar⟩ := ht
      have hx : d.item.expression? = some s.target := by simp [hs, Item.expression?]
      refine .intro hd hx (hfine d (List.mem_of_getElem? hd) _ hx) fun j hj => ?_
      obtain ⟨-, -, e, -, -, -, -, he, ht⟩ := id hj
      exact ih ⟨j, (List.getElem?_eq_some_iff.mp he).1⟩ (.single hj) e he ht
  exact hall ⟨i, (List.getElem?_eq_some_iff.mp hd).1⟩ d hd ht

/-- What an expression asks for to be resolved: that it is fine, and that the synonyms in it can be
resolved. -/
def ResolvableAt (ds : List Definition) (package : String) (x : TypeExpr) : Prop :=
  FineAt ds package x ∧ ∀ qualifier name span, x = .reference qualifier name span →
    ∀ i d, Candidate ds package qualifier name i → ds[i]? = some d → d.Transparent → Straight ds i

def Resolvable (ds : List Definition) (package : String) (x : TypeExpr) : Prop :=
  ∀ y, Within y x → ResolvableAt ds package y

theorem resolvable_iff : Resolvable ds package x ↔ Fine ds package x ∧
    ∀ i d, Mentions ds package x i → ds[i]? = some d → d.Transparent → Straight ds i := by
  constructor
  · refine fun h => ⟨fun y hy => (h y hy).1, ?_⟩
    intro i d hmention hd ht
    obtain ⟨q, n, span, hw, hc⟩ := hmention
    exact (h _ hw).2 q n span rfl i d hc hd ht
  · intro hall y hy
    obtain ⟨hfine, hnext⟩ := hall
    refine ⟨hfine y hy, ?_⟩
    intro q n span hreference i d hc hd ht
    subst hreference
    exact hnext i d ⟨q, n, span, hy, hc⟩ hd ht

/-- A synonym can be resolved when its target can. -/
theorem straight_iff (hd : ds[i]? = some d) (ht : d.Transparent)
    (hx : d.item.expression? = some x) : Straight ds i ↔ Resolvable ds d.package x := by
  rw [resolvable_iff]
  constructor
  · intro h
    refine ⟨h.fine hd hx, ?_⟩
    intro j e hj he hte
    cases h with
    | intro _ _ _ hnext => exact hnext j ⟨d, x, e, hd, ht, hx, hj, he, hte⟩
  · intro hall
    obtain ⟨hfine, hnext⟩ := hall
    refine .intro hd hx hfine ?_
    intro j hedge
    obtain ⟨d', x', e, hd', -, hx', hj, he, hte⟩ := hedge
    obtain rfl := Option.some.inj (hd.symm.trans hd')
    obtain rfl := Option.some.inj (hx.symm.trans hx')
    exact hnext j e hj he hte

/-- What the second pass asks of a definition. -/
def ItemFine (ds : List Definition) (i : Nat) (d : Definition) : Prop :=
  match d.item with
  | .struct s => Resolvable ds d.package (.record s.members s.name.span)
  | .enum e =>
    let kind := (Scalar.ofKeyword? e.base.text).getD .any
    kind.enumerable → (e.variants.map (·.name.text)).Nodup ∧ ∀ v ∈ e.variants, v.value.fits kind
  | .synonym _ => d.Transparent → Straight ds i

section Parts

variable {P : TypeExpr → Prop} {span : Span}

theorem forall_within_scalar {kind : Scalar} :
    (∀ y, Within y (.scalar kind span) → P y) ↔ P (.scalar kind span) := by
  refine ⟨fun h => h _ (.self _), ?_⟩
  intro h y hy
  cases hy
  exact h

theorem forall_within_reference {qualifier : Option String} {name : String} :
    (∀ y, Within y (.reference qualifier name span) → P y) ↔
      P (.reference qualifier name span) := by
  refine ⟨fun h => h _ (.self _), ?_⟩
  intro h y hy
  cases hy
  exact h

theorem forall_within_hole : (∀ y, Within y (.hole span) → P y) ↔ P (.hole span) := by
  refine ⟨fun h => h _ (.self _), ?_⟩
  intro h y hy
  cases hy
  exact h

theorem forall_within_pointer :
    (∀ y, Within y (.pointer x span) → P y) ↔ P (.pointer x span) ∧ ∀ y, Within y x → P y := by
  refine ⟨fun h => ⟨h _ (.self _), fun y hy => h y (.pointer span hy)⟩, ?_⟩
  intro hall y hy
  obtain ⟨hself, hx⟩ := hall
  cases hy with
  | self => exact hself
  | pointer _ hy => exact hx y hy

theorem forall_within_sequence :
    (∀ y, Within y (.sequence x span) → P y) ↔ P (.sequence x span) ∧ ∀ y, Within y x → P y := by
  refine ⟨fun h => ⟨h _ (.self _), fun y hy => h y (.sequence span hy)⟩, ?_⟩
  intro hall y hy
  obtain ⟨hself, hx⟩ := hall
  cases hy with
  | self => exact hself
  | sequence _ hy => exact hx y hy

theorem forall_within_map {k v : TypeExpr} :
    (∀ y, Within y (.map k v span) → P y) ↔
      P (.map k v span) ∧ (∀ y, Within y k → P y) ∧ ∀ y, Within y v → P y := by
  refine ⟨fun h => ⟨h _ (.self _), fun y hy => h y (.key v span hy),
    fun y hy => h y (.value k span hy)⟩, ?_⟩
  intro hall y hy
  obtain ⟨hself, hk, hv⟩ := hall
  cases hy with
  | self => exact hself
  | key _ _ hy => exact hk y hy
  | value _ _ hy => exact hv y hy

theorem forall_within_record {ms : List (MemberDef TypeExpr)} :
    (∀ y, Within y (.record ms span) → P y) ↔
      P (.record ms span) ∧ ∀ m ∈ ms, ∀ y, Within y m.type → P y := by
  refine ⟨fun h => ⟨h _ (.self _), fun m hm y hy => h y (.member span hm hy)⟩, ?_⟩
  intro hall y hy
  obtain ⟨hself, hms⟩ := hall
  cases hy with
  | self => exact hself
  | member _ hm hy => exact hms _ hm y hy

theorem resolvable_pointer : Resolvable ds package (.pointer x span) ↔ Resolvable ds package x := by
  unfold Resolvable
  rw [forall_within_pointer]
  simp [ResolvableAt, FineAt]

theorem resolvable_sequence :
    Resolvable ds package (.sequence x span) ↔ Resolvable ds package x := by
  unfold Resolvable
  rw [forall_within_sequence]
  simp [ResolvableAt, FineAt]

theorem resolvable_map {k v : TypeExpr} : Resolvable ds package (.map k v span) ↔
    Resolvable ds package k ∧ Resolvable ds package v := by
  unfold Resolvable
  rw [forall_within_map]
  simp [ResolvableAt, FineAt]

theorem resolvable_record {ms : List (MemberDef TypeExpr)} :
    Resolvable ds package (.record ms span) ↔
      (ms.map (·.name.text)).Nodup ∧ ∀ m ∈ ms, Resolvable ds package m.type := by
  unfold Resolvable
  rw [forall_within_record]
  simp [ResolvableAt, FineAt]

theorem resolvable_scalar {kind : Scalar} : Resolvable ds package (.scalar kind span) := by
  unfold Resolvable
  rw [forall_within_scalar]
  simp [ResolvableAt, FineAt]

theorem resolvable_hole : Resolvable ds package (.hole span) := by
  unfold Resolvable
  rw [forall_within_hole]
  simp [ResolvableAt, FineAt]

theorem resolvable_reference {qualifier : Option String} {name : String} :
    Resolvable ds package (.reference qualifier name span) ↔
      (∃! i, Candidate ds package qualifier name i) ∧
        ∀ i d, Candidate ds package qualifier name i → ds[i]? = some d → d.Transparent →
          Straight ds i := by
  unfold Resolvable
  rw [forall_within_reference]
  refine and_congr_right fun _ => ⟨fun h => h qualifier name span rfl, ?_⟩
  intro h q n s heq
  obtain ⟨rfl, rfl, rfl⟩ := TypeExpr.reference.inj heq
  exact h

end Parts

end TypeGraph.Schema

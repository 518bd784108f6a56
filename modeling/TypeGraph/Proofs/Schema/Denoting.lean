import TypeGraph.Proofs.Schema.WellFormed
import TypeGraph.Proofs.TypeSet.Forms
/-!
What is written in a schema, whatever the order of its definitions: the form that an expression
denotes, what a member shows, and which definitions are types of their own.
-/

namespace TypeGraph.Schema

def AttributeKind.rename? : AttributeKind → Option String
  | .rename name => some name
  | _ => none

/-- What a member of a definition shows; of several names the last one counts. -/
def MemberDef.shown {τ : Type} (m : MemberDef τ) : Shown where
  name := m.name.text
  embedded := m.embedded
  doc := m.doc
  skip := m.attributes.any (·.kind = .skip)
  optional := m.attributes.any (·.kind = .optional)
  rename := (m.attributes.filterMap (·.kind.rename?)).getLast?

/-- The form that an expression in a package denotes. A synonym of anything but a scalar denotes its
target, as it is written in the package of the synonym. -/
inductive Denotes (ds : List Definition) : String → TypeExpr → Form → Prop
  | scalar {package : String} (kind : Scalar) (span : Span) :
      Denotes ds package (.scalar kind span) (.scalar kind)
  | named {package name : String} {qualifier : Option String} {i : Nat} {d : Definition}
      (span : Span) (hc : Candidate ds package qualifier name i) (hd : ds[i]? = some d)
      (ht : ¬d.Transparent) :
      Denotes ds package (.reference qualifier name span) (.named d.package d.name)
  | synonym {package name : String} {qualifier : Option String} {i : Nat} {d : Definition}
      {s : SynonymDef} {form : Form} (span : Span) (hc : Candidate ds package qualifier name i)
      (hd : ds[i]? = some d) (ht : d.Transparent) (hs : d.item = .synonym s)
      (h : Denotes ds d.package s.target form) :
      Denotes ds package (.reference qualifier name span) form
  | pointer {package : String} {x : TypeExpr} {form : Form} (span : Span)
      (h : Denotes ds package x form) : Denotes ds package (.pointer x span) (.pointer form)
  | sequence {package : String} {x : TypeExpr} {form : Form} (span : Span)
      (h : Denotes ds package x form) : Denotes ds package (.sequence x span) (.sequence form)
  | map {package : String} {key value : TypeExpr} {k v : Form} (span : Span)
      (hkey : Denotes ds package key k) (hvalue : Denotes ds package value v) :
      Denotes ds package (.map key value span) (.map k v)
  | record {package : String} {ms : List (MemberDef TypeExpr)} {forms : List Form} (span : Span)
      (hl : forms.length = ms.length)
      (h : ∀ (i : Nat) m form, ms[i]? = some m → forms[i]? = some form →
        Denotes ds package m.type form) :
      Denotes ds package (.record ms span) (.record (ms.map (·.shown)) forms)

variable {ds : List Definition} {package : String} {x : TypeExpr} {form form' : Form}

/-- In a well-formed schema an expression denotes one form. -/
theorem Denotes.unique (hall : ∀ d ∈ ds, ∀ x, d.item.expression? = some x → Fine ds d.package x)
    (h : Denotes ds package x form) (hf : Fine ds package x) (h' : Denotes ds package x form') :
    form = form' := by
  induction h generalizing form' with
  | scalar => cases h'; rfl
  | @named package name qualifier i d span hc hd ht =>
    have hone {j : Nat} (hj : Candidate ds package qualifier name j) : i = j :=
      (forall_within_reference.mp hf).unique hc hj
    cases h' with
    | named _ hc' hd' =>
      obtain rfl := hone hc'
      obtain rfl := Option.some.inj (hd.symm.trans hd')
      rfl
    | synonym _ hc' hd' ht' =>
      obtain rfl := hone hc'
      obtain rfl := Option.some.inj (hd.symm.trans hd')
      exact absurd ht' ht
  | @synonym package name qualifier i d s form span hc hd ht hs _ ih =>
    have hone {j : Nat} (hj : Candidate ds package qualifier name j) : i = j :=
      (forall_within_reference.mp hf).unique hc hj
    cases h' with
    | named _ hc' hd' ht' =>
      obtain rfl := hone hc'
      obtain rfl := Option.some.inj (hd.symm.trans hd')
      exact absurd ht ht'
    | synonym _ hc' hd' _ hs' h' =>
      obtain rfl := hone hc'
      obtain rfl := Option.some.inj (hd.symm.trans hd')
      obtain rfl := Item.synonym.inj (hs.symm.trans hs')
      exact ih (hall d (List.mem_of_getElem? hd) _ (by simp [hs, Item.expression?])) h'
  | pointer _ _ ih =>
    cases h' with
    | pointer _ h' => rw [ih (forall_within_pointer.mp hf).2 h']
  | sequence _ _ ih =>
    cases h' with
    | sequence _ h' => rw [ih (forall_within_sequence.mp hf).2 h']
  | map _ _ _ ihk ihv =>
    obtain ⟨-, hk, hv⟩ := forall_within_map.mp hf
    cases h' with
    | map _ hk' hv' => rw [ihk hk hk', ihv hv hv']
  | @record package ms forms span hl _ ih =>
    have hms := (forall_within_record.mp hf).2
    cases h' with
    | @record _ _ forms' _ hl' h' =>
      have hforms : forms = forms' := by
        apply forms_unique hl hl'
        intro i m form form' hm hform hform'
        exact ih i m form hm hform (hms m (List.mem_of_getElem? hm)) (h' i m form' hm hform')
      rw [hforms]

/-- Members of a type set that are those of a definition in `package`, one for one and in order:
they show the same, and the form of the type of each is what its expression denotes. -/
structure Mirrors (ds : List Definition) (t : TypeSet) (package : String)
    (definitions : List (MemberDef TypeExpr)) (ms : List Member) : Prop where
  shown : ms.map (·.shown) = definitions.map (·.shown)
  types : ∀ (i : Nat) m d, ms[i]? = some m → definitions[i]? = some d →
    ∃ form, (∀ f, t.Unfolds m.ty f ↔ f = form) ∧ ∀ f, Denotes ds package d.type f ↔ f = form

def Variant.constant (v : Variant) : Constant :=
  ⟨v.name.text, v.value, v.doc⟩

/-- The shape that a definition gives its type before anything is resolved; a synonym of anything
but a scalar has no type. -/
def Definition.shape? (d : Definition) : Option Shape :=
  match d.item with
  | .struct _ => some (.aggregate [])
  | .enum e => some (.scalar ((Scalar.ofKeyword? e.base.text).getD .any))
  | .synonym s =>
    match s.target with
    | .scalar kind _ => some (.scalar kind)
    | _ => none

/-- Whether the definition is a type of its own. -/
def Definition.isType (d : Definition) : Bool :=
  d.shape?.isSome

/-- The kind of root that a definition is, if it is one: all structs are, and the enums with
variants. -/
def Definition.rootKind? (d : Definition) : Option RootKind :=
  match d.item with
  | .struct _ => some .struct
  | .enum e => if e.variants = [] then none else some .enum
  | .synonym _ => none

theorem Definition.shape?_eq_none {d : Definition} : d.shape? = none ↔ d.Transparent := by
  obtain ⟨package, item⟩ := d
  cases item with
  | struct d => simp [Definition.shape?, Definition.Transparent]
  | enum d => simp [Definition.shape?, Definition.Transparent]
  | synonym s =>
    cases hs : s.target <;> simp [Definition.shape?, Definition.Transparent, hs]

end TypeGraph.Schema

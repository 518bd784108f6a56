import TypeGraph.Proofs.TypeSet.Building
import TypeGraph.Proofs.TypeSet.Evaluation
import TypeGraph.Proofs.TypeSet.Forms
/-!
Families of structs: what their blueprints write, and how they are built. Building is given here
without any bound on its depth, with a list of the structs whose fields it goes through.
-/

namespace TypeGraph

namespace Form

/-- The form behind pointers. -/
def stripped : Form → Form
  | .pointer target => target.stripped
  | form => form

/-- The name of a named type, empty for all others. -/
def ownName : Form → String
  | .named _ name => name
  | _ => ""

end Form

namespace TypeSet

variable {t : TypeSet} {id : TypeId} {form : Form}

/-- The form behind the pointers of a type is that of what they lead to. -/
theorem Unfolds.strip (hb : t.Backward) (hn : t.PlainlyNamed) (h : t.Unfolds id form) :
    t.Unfolds (t.strip id) form.stripped := by
  have stays {x : TypeId} {d : Description} (hd : t.get? x = some d)
      (hs : ∀ y, d.shape ≠ .pointer y) : t.strip x = x :=
    ((StripsTo.done hd hs).eq_strip hb).symm
  induction h with
  | pointer hd hk hs _ ih =>
    rw [strip_of_pointer hb (shape?_eq_some.mpr ⟨_, hd, hs⟩)]
    exact ih
  | @named id d package name hd hk =>
    obtain ⟨own, hname, -⟩ := Option.map_eq_some_iff.mp hk
    have hheld : d.shape.held = [] := hn id d hd (by simp [hname])
    rw [stays hd fun y hy => by simp [hy, Shape.held] at hheld]
    exact .named hd hk
  | scalar hd hk hs =>
    rw [stays hd (by simp [hs])]
    exact .scalar hd hk hs
  | sequence hd hk hs h =>
    rw [stays hd (by simp [hs])]
    exact .sequence hd hk hs h
  | map hd hk hs hkey hvalue =>
    rw [stays hd (by simp [hs])]
    exact .map hd hk hs hkey hvalue
  | record hd hk hs hl h =>
    rw [stays hd (by simp [hs])]
    exact .record hd hk hs hl h

theorem Unfolds.ownName (h : t.Unfolds id form) :
    ∃ d, t.get? id = some d ∧ d.name.getD "" = form.ownName := by
  cases h with
  | named hd hk =>
    obtain ⟨own, hname, heq⟩ := Option.map_eq_some_iff.mp hk
    exact ⟨_, hd, by simpa [hname, Form.ownName] using congrArg Prod.snd heq⟩
  | scalar hd hk | pointer hd hk | sequence hd hk | map hd hk | record hd hk =>
    exact ⟨_, hd, by simp [Option.map_eq_none_iff.mp hk, Form.ownName]⟩

theorem Unfolds.contains (h : t.Unfolds id form) : t.contains id := by
  obtain ⟨d, hd, -⟩ := h.ownName
  exact contains_of_get? hd

end TypeSet

namespace Blueprint

/-- The name that a blueprint is written with, and the blueprints in it. -/
def parts : Blueprint → String × List Blueprint
  | scalar flavour _ => (flavour, [])
  | pointer flavour target => (flavour, [target])
  | sequence flavour element => (flavour, [element])
  | map flavour key value => (flavour, [key, value])
  | named name => (name, [])

theorem parts_of_builtIn? {name : String} {arguments : List Blueprint} {b : Blueprint}
    (h : builtIn? name arguments = some b) : b.parts = (name, arguments) := by
  unfold builtIn? at h
  split at h <;> cases h <;> rfl

/-- Built-in types with one blueprint have the same name and the same arguments. -/
theorem builtIn?_inj {name name' : String} {arguments arguments' : List Blueprint} {b : Blueprint}
    (h : builtIn? name arguments = some b) (h' : builtIn? name' arguments' = some b) :
    name = name' ∧ arguments = arguments' := by
  have heq := (parts_of_builtIn? h).symm.trans (parts_of_builtIn? h')
  exact Prod.mk.inj heq

end Blueprint

/-- Every name in the blueprint is one of `names`. -/
def Blueprint.Over (names : List String) : Blueprint → Prop
  | .scalar _ _ => True
  | .pointer _ target => target.Over names
  | .sequence _ element => element.Over names
  | .map _ key value => key.Over names ∧ value.Over names
  | .named name => name ∈ names

/-- A field whose type is written, under a name or embedded. -/
def FieldPlan.Over (names : List String) : FieldPlan → Prop
  | .typed _ type _ | .embedded type _ => type.Over names
  | .existing .. | .inline .. => False

/-- The package and the name that a definition declares. -/
def Definition.key : Definition → String × String
  | .scalar package name .. => (package, name)
  | .record package name .. => (package, name)

namespace Family

variable (family : Family)

/-- The names with a definition. -/
def names : List String :=
  family.map (·.1)

/-- Every name stands for a struct of its own, with fields over the family. -/
structure OfStructs : Prop where
  record : ∀ name ∈ family.names, ∃ package own fields doc,
    family.definition name = .record package own fields doc ∧
      ∀ plan ∈ fields, plan.Over family.names
  distinct : ∀ name ∈ family.names, ∀ name' ∈ family.names,
    (family.definition name).key = (family.definition name').key → name = name'

/-- The form that a blueprint writes. -/
def form : Blueprint → Form
  | .scalar _ kind => .scalar kind
  | .pointer _ target => .pointer (form target)
  | .sequence _ element => .sequence (form element)
  | .map _ key value => .map (form key) (form value)
  | .named name => .named (family.definition name).key.1 (family.definition name).key.2

end Family

/-- The member that a field asks for. It has the field's attributes and its name, which for an
embedded field is that of the written type behind pointers, and its type is the written one. -/
inductive FieldPlan.Pushes (family : Family) (t : TypeSet) : FieldPlan → Member → Prop
  | typed {name : String} {type : Blueprint} {attributes : Attributes} {ty : TypeId}
      (h : t.Unfolds ty (family.form type)) :
      Pushes family t (.typed name type attributes) { attributes with name, ty }
  | embedded {type : Blueprint} {attributes : Attributes} {ty : TypeId}
      (h : t.Unfolds ty (family.form type)) :
      Pushes family t (.embedded type attributes)
        { attributes with name := (family.form type).stripped.ownName, ty, embedded := true }

theorem FieldPlan.Pushes.retained {family : Family} {t t' : TypeSet} {plan : FieldPlan} {m : Member}
    (h : plan.Pushes family t m) (hr : t.Retains t') : plan.Pushes family t' m := by
  cases h with
  | typed h => exact .typed (h.retained hr)
  | embedded h => exact .embedded (h.retained hr)

/-- The set in which what was just made is the answer to a blueprint. -/
def TypeSet.keep (b : Blueprint) (made : TypeId × TypeSet) : TypeSet :=
  made.2.bind b made.1

/-- The set in which a struct has got its members, and its doc if there is one. -/
def TypeSet.fill (t : TypeSet) (id : TypeId) (ms : List Member) (doc : Option String) : TypeSet :=
  doc.elim (t.setMembers id ms) ((t.setMembers id ms).setDoc id)

mutual

/-- Building a blueprint of a family ends with an id and a set. The names are of the structs whose
fields were gone through, each put down where it was entered. -/
inductive Builds (family : Family) :
    TypeSet → Blueprint → List String → TypeId → TypeSet → Prop
  | known {t : TypeSet} {b : Blueprint} {id : TypeId} (hl : t.built.lookup b = some id) :
      Builds family t b [] id t
  | scalar {t : TypeSet} {flavour : String} {kind : Scalar}
      (hl : t.built.lookup (.scalar flavour kind) = none) :
      Builds family t (.scalar flavour kind) [] (t.scalar kind).1
        (.keep (.scalar flavour kind) (t.scalar kind))
  | pointer {t u : TypeSet} {flavour : String} {target : Blueprint} {runs : List String}
      {x : TypeId} (hl : t.built.lookup (.pointer flavour target) = none)
      (ht : Builds family t target runs x u) :
      Builds family t (.pointer flavour target) runs (u.pointer x).1
        (.keep (.pointer flavour target) (u.pointer x))
  | sequence {t u : TypeSet} {flavour : String} {element : Blueprint} {runs : List String}
      {x : TypeId} (hl : t.built.lookup (.sequence flavour element) = none)
      (he : Builds family t element runs x u) :
      Builds family t (.sequence flavour element) runs (u.sequence x).1
        (.keep (.sequence flavour element) (u.sequence x))
  | map {t u v : TypeSet} {flavour : String} {key value : Blueprint} {runs runs' : List String}
      {x y : TypeId} (hl : t.built.lookup (.map flavour key value) = none)
      (hk : Builds family t key runs x u) (hv : Builds family u value runs' y v) :
      Builds family t (.map flavour key value) (runs ++ runs') (v.map x y).1
        (.keep (.map flavour key value) (v.map x y))
  | named {t u : TypeSet} {name package own : String} {fields : List FieldPlan}
      {doc : Option String} {runs : List String} {ms : List Member}
      (hl : t.built.lookup (.named name) = none)
      (hd : family.definition name = .record package own fields doc)
      (hf : Collects family (.keep (.named name) (t.declareAggregate package own)) fields runs
        ms u) :
      Builds family t (.named name) (name :: runs) (t.declareAggregate package own).1
        (.keep (.named name) ((t.declareAggregate package own).1,
          u.fill (t.declareAggregate package own).1 ms doc))

/-- Going through the fields of a struct ends with its members and a set. -/
inductive Collects (family : Family) :
    TypeSet → List FieldPlan → List String → List Member → TypeSet → Prop
  | nil {t : TypeSet} : Collects family t [] [] [] t
  | typed {t u v : TypeSet} {name : String} {type : Blueprint} {attributes : Attributes}
      {plans : List FieldPlan} {runs runs' : List String} {ty : TypeId} {ms : List Member}
      (hb : Builds family t type runs ty u) (hc : Collects family u plans runs' ms v) :
      Collects family t (.typed name type attributes :: plans) (runs ++ runs')
        ({ attributes with name, ty } :: ms) v
  | embedded {t u v : TypeSet} {type : Blueprint} {attributes : Attributes}
      {plans : List FieldPlan} {runs runs' : List String} {ty x : TypeId} {d : Description}
      {ms : List Member} (hb : Builds family t type runs ty u) (hs : u.StripsTo ty x)
      (hd : u.get? x = some d) (hc : Collects family u plans runs' ms v) :
      Collects family t (.embedded type attributes :: plans) (runs ++ runs')
        ({ attributes with name := d.name.getD "", ty, embedded := true } :: ms) v

end

/-- Building one blueprint after the other. -/
inductive Calls (family : Family) :
    TypeSet → List Blueprint → List String → List TypeId → TypeSet → Prop
  | nil {t : TypeSet} : Calls family t [] [] [] t
  | cons {t u v : TypeSet} {b : Blueprint} {bs : List Blueprint} {runs runs' : List String}
      {id : TypeId} {ids : List TypeId} (hb : Builds family t b runs id u)
      (hc : Calls family u bs runs' ids v) :
      Calls family t (b :: bs) (runs ++ runs') (id :: ids) v

variable {family : Family}

/-- Building can end in one way only. -/
theorem Builds.unique {t u : TypeSet} {b : Blueprint} {runs : List String} {id : TypeId}
    (h : Builds family t b runs id u) :
    ∀ runs' id' v, Builds family t b runs' id' v → runs = runs' ∧ id = id' ∧ u = v := by
  refine @Builds.rec family
    (fun t b runs id u _ => ∀ runs' id' v, Builds family t b runs' id' v →
      runs = runs' ∧ id = id' ∧ u = v)
    (fun t plans runs ms u _ => ∀ runs' ms' v, Collects family t plans runs' ms' v →
      runs = runs' ∧ ms = ms' ∧ u = v)
    ?known ?scalar ?pointer ?sequence ?map ?named ?nil ?typed ?embedded t b runs id u h
  case known =>
    intro t b id hl runs' id' v h'
    cases h' with
    | known hl' =>
      obtain rfl := Option.some.inj (hl.symm.trans hl')
      exact ⟨rfl, rfl, rfl⟩
    | _ => simp_all
  case scalar =>
    intro t flavour kind hl runs' id' v h'
    cases h' with
    | known => simp_all
    | scalar => exact ⟨rfl, rfl, rfl⟩
  case pointer =>
    intro t u flavour target runs x hl _ ih runs' id' v h'
    cases h' with
    | known => simp_all
    | pointer _ ht =>
      obtain ⟨rfl, rfl, rfl⟩ := ih _ _ _ ht
      exact ⟨rfl, rfl, rfl⟩
  case sequence =>
    intro t u flavour element runs x hl _ ih runs' id' v h'
    cases h' with
    | known => simp_all
    | sequence _ he =>
      obtain ⟨rfl, rfl, rfl⟩ := ih _ _ _ he
      exact ⟨rfl, rfl, rfl⟩
  case map =>
    intro t u w flavour key value runs runs₁ x y hl _ _ ihk ihv runs' id' v h'
    cases h' with
    | known => simp_all
    | map _ hk hv =>
      obtain ⟨rfl, rfl, rfl⟩ := ihk _ _ _ hk
      obtain ⟨rfl, rfl, rfl⟩ := ihv _ _ _ hv
      exact ⟨rfl, rfl, rfl⟩
  case named =>
    intro t u name package own fields doc runs ms hl hd _ ih runs' id' v h'
    cases h' with
    | known => simp_all
    | named _ hd' hf =>
      obtain ⟨rfl, rfl, rfl, rfl⟩ := Definition.record.inj (hd.symm.trans hd')
      obtain ⟨rfl, rfl, rfl⟩ := ih _ _ _ hf
      exact ⟨rfl, rfl, rfl⟩
  case nil =>
    intro t runs' ms' v h'
    cases h'
    exact ⟨rfl, rfl, rfl⟩
  case typed =>
    intro t u w name type attributes plans runs runs₁ ty ms _ _ ihb ihc runs' ms' v h'
    cases h' with
    | typed hb hc =>
      obtain ⟨rfl, rfl, rfl⟩ := ihb _ _ _ hb
      obtain ⟨rfl, rfl, rfl⟩ := ihc _ _ _ hc
      exact ⟨rfl, rfl, rfl⟩
  case embedded =>
    intro t u w type attributes plans runs runs₁ ty x d ms _ hs hd _ ihb ihc runs' ms' v h'
    cases h' with
    | embedded hb hs' hd' hc =>
      obtain ⟨rfl, rfl, rfl⟩ := ihb _ _ _ hb
      obtain rfl := hs.unique hs'
      obtain rfl := Option.some.inj (hd.symm.trans hd')
      obtain ⟨rfl, rfl, rfl⟩ := ihc _ _ _ hc
      exact ⟨rfl, rfl, rfl⟩

theorem Calls.unique {t u v : TypeSet} {bs : List Blueprint} {runs runs' : List String}
    {ids ids' : List TypeId} (h : Calls family t bs runs ids u)
    (h' : Calls family t bs runs' ids' v) : runs = runs' ∧ ids = ids' ∧ u = v := by
  induction h generalizing runs' ids' v with
  | nil =>
    cases h'
    exact ⟨rfl, rfl, rfl⟩
  | cons hb _ ih =>
    cases h' with
    | cons hb' hc' =>
      obtain ⟨rfl, rfl, rfl⟩ := hb.unique _ _ _ hb'
      obtain ⟨rfl, rfl, rfl⟩ := ih hc'
      exact ⟨rfl, rfl, rfl⟩

end TypeGraph

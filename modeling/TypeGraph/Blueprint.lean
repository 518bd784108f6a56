import TypeGraph.TypeSet
/-!
The blueprints of built-in types, and building the types of blueprints. Every blueprint is built
once; a record is known by its id before its fields are built, so that they may refer back to it.
-/

namespace TypeGraph

/-- What a built-in type is: a scalar, or a type made of others. -/
inductive Maker where
  | scalar (kind : Scalar)
  | pointer
  | sequence
  | map
  deriving DecidableEq, Repr

/-- The built-in types by their names. -/
def Maker.all : List (String × Maker) :=
  ["bool"].map (·, .scalar .bool) ++
    ["i8", "i16", "i32", "i64", "i128", "isize"].map (·, .scalar .int) ++
    ["u8", "u16", "u32", "u64", "u128", "usize"].map (·, .scalar .uint) ++
    ["f32", "f64"].map (·, .scalar .float) ++
    ["char", "str", "String"].map (·, .scalar .string) ++
    ["SystemTime"].map (·, .scalar .time) ++
    ["()"].map (·, .scalar .any) ++
    ["Vec", "VecDeque", "BTreeSet", "HashSet"].map (·, .sequence) ++
    ["HashMap", "IndexMap", "BTreeMap"].map (·, .map) ++
    ["Box", "Rc", "Arc", "Option"].map (·, .pointer)

namespace Blueprint

/-- The built-in type of a name with its arguments, if it takes as many. -/
def builtIn? (name : String) (arguments : List Blueprint) : Option Blueprint :=
  match Maker.all.lookup name, arguments with
  | some (.scalar kind), [] => some (.scalar name kind)
  | some .pointer, [target] => some (.pointer name target)
  | some .sequence, [element] => some (.sequence name element)
  | some .map, [key, value] => some (.map name key value)
  | _, _ => none

def slice (element : Blueprint) : Blueprint :=
  .sequence "[]" element

/-- Arrays of different sizes are different types. -/
def array (size : String) (element : Blueprint) : Blueprint :=
  .sequence ("[;" ++ size ++ "]") element

end Blueprint

/-- An id that is not in the type set. -/
structure Dangling where
  id : TypeId
  deriving DecidableEq, Repr

/-- A field of a record, to be built in turn. -/
inductive FieldPlan where
  | typed (name : String) (type : Blueprint) (attributes : Attributes)
  /-- An embedded field, named after the type it holds. -/
  | embedded (type : Blueprint) (attributes : Attributes)
  | existing (name : String) (ty : TypeId) (attributes : Attributes)
  /-- A field that holds an unnamed struct. -/
  | inline (name : String) (members : List (String × Blueprint × Attributes))
      (attributes : Attributes)

inductive Definition where
  | scalar (package name : String) (kind : Scalar) (constants : List Constant)
      (doc : Option String)
  | record (package name : String) (fields : List FieldPlan) (doc : Option String)

/-- The definitions behind the names that blueprints use. -/
abbrev Family := List (String × Definition)

namespace Family

/-- A name without a definition stands for a nameless record without fields. -/
def definition (family : Family) (name : String) : Definition :=
  (family.lookup name).getD (.record "" "" [] none)

end Family

/-- Work on a type set that stops at an id outside it. -/
abbrev Building := StateT TypeSet (Except Dangling)

namespace Building

def bind (blueprint : Blueprint) (id : TypeId) : Building Unit :=
  modify fun types => { types with built := (blueprint, id) :: types.built }

/-- The id of a blueprint that was built before, or else the one that `build` makes. -/
def once (blueprint : Blueprint) (build : Building TypeId) : Building TypeId := do
  match (← get).built.lookup blueprint with
  | some id => pure id
  | none =>
    let id ← build
    bind blueprint id
    pure id

/-- Builds a blueprint; `named` builds the types behind names. -/
def blueprint (named : String → Building TypeId) : Blueprint → Building TypeId
  | .scalar flavour kind => once (.scalar flavour kind) (modifyGet (·.scalar kind))
  | .pointer flavour target => once (.pointer flavour target) do
      let id ← blueprint named target
      modifyGet (·.pointer id)
  | .sequence flavour element => once (.sequence flavour element) do
      let id ← blueprint named element
      modifyGet (·.sequence id)
  | .map flavour key value => once (.map flavour key value) do
      let k ← blueprint named key
      let v ← blueprint named value
      modifyGet (·.map k v)
  | .named name => once (.named name) (named name)

/-- The own name of a type behind pointers, empty if it has none. -/
def embeddedName (id : TypeId) : Building String := do
  let types ← get
  let target := types.strip id
  match types.get? target with
  | some d => pure (d.name.getD "")
  | none => throw ⟨target⟩

def member (named : String → Building TypeId) : FieldPlan → Building Member
  | .typed name type attributes => do
    let ty ← blueprint named type
    pure { attributes with name, ty }
  | .embedded type attributes => do
    let ty ← blueprint named type
    let name ← embeddedName ty
    pure { attributes with name, ty, embedded := true }
  | .existing name ty attributes => pure { attributes with name, ty }
  | .inline name members attributes => do
    let members ← members.mapM fun (name, type, attributes) => do
      let ty ← blueprint named type
      pure ({ attributes with name, ty } : Member)
    let ty ← modifyGet (·.anonymous members)
    pure { attributes with name, ty }

/-- Builds the type that `definition` gives to `name`. -/
def define (named : String → Building TypeId) (name : String) : Definition → Building TypeId
  | .scalar package own kind constants doc => do
    let id ← modifyGet (·.declareScalar package own kind)
    modify fun types => constants.foldl (·.addConstant id ·) types
    modify fun types => doc.elim types (types.setDoc id)
    pure id
  | .record package own fields doc => do
    let id ← modifyGet (·.declareAggregate package own)
    bind (.named name) id
    let members ← fields.mapM (member named)
    modify (·.setMembers id members)
    modify fun types => doc.elim types (types.setDoc id)
    pure id

/-- Builds the type behind a name. Each level enters a record whose name was not bound before, and
one without a definition has no fields, so that one level more than there are definitions is
enough. -/
def named (family : Family) : Nat → String → Building TypeId
  | 0, _ => modifyGet (·.scalar .any)
  | depth + 1, name => define (named family depth) name (family.definition name)

end Building

/-- The id of a blueprint, building what is not yet there. -/
def TypeSet.of (types : TypeSet) (family : Family) (blueprint : Blueprint) :
    Except Dangling (TypeId × TypeSet) :=
  Building.blueprint (Building.named family (family.length + 1)) blueprint types

def TypeSet.bind (types : TypeSet) (blueprint : Blueprint) (id : TypeId) : TypeSet :=
  { types with built := (blueprint, id) :: types.built }

end TypeGraph

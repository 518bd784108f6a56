import TypeGraph.Literal
/-!
Sets of type descriptions. A description is reached by its id, which never changes. Named types are
found by package and name; unnamed types of one shape share one id.
-/

namespace TypeGraph

/-- The place of a description in its set. -/
structure TypeId where
  index : Nat
  deriving DecidableEq, Repr, Inhabited

/-- What a member says beside its name and type. -/
structure Attributes where
  /-- The name shown instead of the member's own. -/
  rename : Option String := none
  /-- The member leaves no trace in the output. -/
  skip : Bool := false
  optional : Bool := false
  doc : Option String := none
  deriving DecidableEq, Inhabited

structure Member extends Attributes where
  name : String
  ty : TypeId
  /-- The member has no name of its own; by convention `name` is that of its type. -/
  embedded : Bool := false
  deriving DecidableEq, Inhabited

inductive Shape where
  | pointer (target : TypeId)
  | aggregate (members : List Member)
  | sequence (element : TypeId)
  | map (key value : TypeId)
  | scalar (kind : Scalar)
  deriving DecidableEq, Inhabited

structure Constant where
  name : String
  value : Literal
  comment : Option String := none
  deriving DecidableEq, Inhabited

/-- `package.name`, or the bare name where there is no package. -/
def qualify (package name : String) : String :=
  if package = "" then name else package ++ "." ++ name

structure Description where
  /-- Absent for types that are known by their shape alone. -/
  name : Option String := none
  package : String := ""
  shape : Shape
  doc : Option String := none
  constants : List Constant := []
  deriving DecidableEq, Inhabited

namespace Description

def qualifiedName (d : Description) : Option String :=
  d.name.map (qualify d.package)

def members (d : Description) : List Member :=
  match d.shape with
  | .aggregate members => members
  | _ => []

def scalar? (d : Description) : Option Scalar :=
  match d.shape with
  | .scalar kind => some kind
  | _ => none

def isAggregate (d : Description) : Bool :=
  match d.shape with
  | .aggregate _ => true
  | _ => false

/-- Replaces the members of a named aggregate. Types known by their shape keep it. -/
def withMembers (members : List Member) (d : Description) : Description :=
  if d.name.isSome && d.isAggregate then { d with shape := .aggregate members } else d

def withDoc (doc : String) (d : Description) : Description :=
  if d.name.isSome then { d with doc := some doc } else d

/-- Adds a constant to a named scalar. -/
def withConstant (constant : Constant) (d : Description) : Description :=
  if d.name.isSome && d.scalar?.isSome then { d with constants := d.constants ++ [constant] } else d

end Description

/-- A way to build a type from scalars and from records known by name. `flavour` tells apart
constructors that make the same shape. -/
inductive Blueprint where
  | scalar (flavour : String) (kind : Scalar)
  | pointer (flavour : String) (target : Blueprint)
  | sequence (flavour : String) (element : Blueprint)
  | map (flavour : String) (key value : Blueprint)
  | named (name : String)
  deriving DecidableEq, Inhabited

structure TypeSet where
  descriptions : List Description
  /-- The blueprints already built or bound, the latest first. -/
  built : List (Blueprint × TypeId) := []
  deriving DecidableEq

namespace TypeSet

/-- The plain scalars, each at its position in `Scalar.all`. -/
def initial : TypeSet where
  descriptions := Scalar.all.map fun kind => { shape := .scalar kind }

def size (types : TypeSet) : Nat :=
  types.descriptions.length

/-- All ids, in order. -/
def ids (types : TypeSet) : List TypeId :=
  (List.range types.size).map TypeId.mk

/-- Whether the id is in the set. -/
def contains (types : TypeSet) (id : TypeId) : Bool :=
  id.index < types.size

def get? (types : TypeSet) (id : TypeId) : Option Description :=
  types.descriptions[id.index]?

def shape? (types : TypeSet) (id : TypeId) : Option Shape :=
  (types.get? id).map (·.shape)

def push (types : TypeSet) (d : Description) : TypeId × TypeSet :=
  (⟨types.size⟩, { types with descriptions := types.descriptions ++ [d] })

/-- The unnamed type of this shape, added if there is none. -/
def intern (types : TypeSet) (shape : Shape) : TypeId × TypeSet :=
  match types.descriptions.findIdx? fun d => d.name.isNone && d.shape = shape with
  | some index => (⟨index⟩, types)
  | none => types.push { shape }

def scalar (types : TypeSet) (kind : Scalar) : TypeId × TypeSet :=
  types.intern (.scalar kind)

def pointer (types : TypeSet) (target : TypeId) : TypeId × TypeSet :=
  types.intern (.pointer target)

def sequence (types : TypeSet) (element : TypeId) : TypeId × TypeSet :=
  types.intern (.sequence element)

def map (types : TypeSet) (key value : TypeId) : TypeId × TypeSet :=
  types.intern (.map key value)

def anonymous (types : TypeSet) (members : List Member) : TypeId × TypeSet :=
  types.intern (.aggregate members)

def lookup (types : TypeSet) (package name : String) : Option TypeId :=
  (types.descriptions.findIdx? fun d => d.name = some name && d.package = package).map TypeId.mk

/-- The type of this package and name; if there is none it is added with `shape`. -/
def declareNamed (types : TypeSet) (package name : String) (shape : Shape) : TypeId × TypeSet :=
  match types.lookup package name with
  | some id => (id, types)
  | none => types.push { name := some name, package, shape }

/-- A named aggregate, at first without members, so that its members can refer to it. -/
def declareAggregate (types : TypeSet) (package name : String) : TypeId × TypeSet :=
  types.declareNamed package name (.aggregate [])

def declareScalar (types : TypeSet) (package name : String) (kind : Scalar) : TypeId × TypeSet :=
  types.declareNamed package name (.scalar kind)

/-- Changes the description of an id. Callers give ids of the set only: the program stops at any
other one, which here leaves the set as it is. -/
def modify (types : TypeSet) (id : TypeId) (f : Description → Description) : TypeSet :=
  { types with descriptions := types.descriptions.modify id.index f }

/-- Gives a named struct its members; other types stay as they are. The id must be one of the set,
as for `modify`. -/
def setMembers (types : TypeSet) (id : TypeId) (members : List Member) : TypeSet :=
  types.modify id (·.withMembers members)

/-- Documents a type that has a name. The id must be one of the set. -/
def setDoc (types : TypeSet) (id : TypeId) (doc : String) : TypeSet :=
  types.modify id (·.withDoc doc)

/-- Adds a constant to a named scalar; other types stay as they are. The id must be one of the
set. -/
def addConstant (types : TypeSet) (id : TypeId) (constant : Constant) : TypeSet :=
  types.modify id (·.withConstant constant)

/-- Follows pointers to the type they lead to. A pointer can only lead to an earlier type. -/
def strip (types : TypeSet) (id : TypeId) : TypeId :=
  match types.shape? id with
  | some (.pointer target) => if target.index < id.index then types.strip target else id
  | _ => id
termination_by id.index

def qualifiedName (types : TypeSet) (id : TypeId) : Option String :=
  (types.get? id).bind (·.qualifiedName)

/-- The named types, the first declared first. -/
def named (types : TypeSet) : List TypeId :=
  types.ids.filter fun id => ((types.get? id).bind (·.name)).isSome

/-- The types called `name` in any package, the first declared first. -/
def find (types : TypeSet) (name : String) : List TypeId :=
  types.ids.filter fun id => (types.get? id).bind (·.name) = some name

/-- The name of what a member holds in the end, looking through pointers, sequences and the values
of maps. -/
def ownName (types : TypeSet) (id : TypeId) : Option String :=
  match types.get? id with
  | none => none
  | some d =>
    match d.name with
    | some name => some name
    | none =>
      match d.shape with
      | .pointer inner | .sequence inner | .map _ inner =>
        if inner.index < id.index then types.ownName inner else none
      | .aggregate _ | .scalar _ => none
termination_by id.index

end TypeSet

end TypeGraph

import TypeGraph.Literal
import TypeGraph.Source
/-!
Syntax trees of the schema notation. Every node knows the span it was read from; a part that could
not be read is a hole.
-/

namespace TypeGraph.Schema

structure Name where
  text : String
  span : Span
  deriving DecidableEq, Repr, Inhabited

/-- The header of a file. -/
structure PackageHeader where
  path : String
  span : Span
  deriving DecidableEq, Repr, Inhabited

inductive AttributeKind where
  | skip
  | optional
  | rename (name : String)
  deriving DecidableEq, Repr, Inhabited

structure Attribute where
  kind : AttributeKind
  span : Span
  deriving DecidableEq, Repr, Inhabited

/-- A member of a struct, over expressions `τ` for its type. -/
structure MemberDef (τ : Type) where
  /-- Of an embedded member, the name of the type it refers to. -/
  name : Name
  type : τ
  embedded : Bool
  attributes : List Attribute
  doc : Option String

inductive TypeExpr where
  | scalar (kind : Scalar) (span : Span)
  /-- `name` or `package.name`. -/
  | reference (package : Option String) (name : String) (span : Span)
  | pointer (target : TypeExpr) (span : Span)
  | sequence (element : TypeExpr) (span : Span)
  | map (key value : TypeExpr) (span : Span)
  | record (members : List (MemberDef TypeExpr)) (span : Span)
  | hole (span : Span)
  deriving Inhabited

namespace TypeExpr

def span : TypeExpr → Span
  | scalar _ s | reference _ _ s | pointer _ s | sequence _ s | map _ _ s | record _ s | hole s => s

def isHole : TypeExpr → Bool
  | hole _ => true
  | _ => false

/-- The name of the type referred to, looking through pointers. -/
def referredName : TypeExpr → Option String
  | reference _ name _ => some name
  | pointer target _ => target.referredName
  | _ => none

end TypeExpr

structure StructDef where
  name : Name
  doc : Option String
  members : List (MemberDef TypeExpr)

structure Variant where
  name : Name
  value : Literal
  valueSpan : Span
  doc : Option String
  deriving DecidableEq, Inhabited

structure EnumDef where
  name : Name
  doc : Option String
  /-- The word written for the base type, not necessarily a keyword. -/
  base : Name
  variants : List Variant
  deriving DecidableEq, Inhabited

structure SynonymDef where
  name : Name
  doc : Option String
  target : TypeExpr

inductive Item where
  | struct (definition : StructDef)
  | enum (definition : EnumDef)
  | synonym (definition : SynonymDef)

def Item.name : Item → Name
  | struct d => d.name
  | enum d => d.name
  | synonym d => d.name

structure File where
  source : SourceId
  package : Option PackageHeader
  items : List Item

/-- The package of a file's definitions, empty without a header. -/
def File.packagePath (file : File) : String :=
  file.package.elim "" (·.path)

end TypeGraph.Schema

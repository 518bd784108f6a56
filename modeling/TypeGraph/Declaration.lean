import TypeGraph.Text.Uppercase
import TypeGraph.TypeSet
/-!
Declarations, the units of the output: an interface for a struct, an enumeration for a named scalar
with constants.
-/

namespace TypeGraph

/-- Where a declaration comes from: a package and the name of the type there. -/
structure Provenance where
  package : String
  typeName : String
  deriving DecidableEq, Repr, Inhabited

def Provenance.qualified (p : Provenance) : String :=
  qualify p.package p.typeName

/-- A member as an interface shows it. -/
structure Field where
  /-- The name shown. -/
  name : String
  ty : TypeId
  /-- The name that an unnamed struct behind this member takes. -/
  contextualName : String
  omitted : Bool
  embedded : Bool
  optional : Bool
  doc : Option String
  indent : String := ""
  deriving DecidableEq, Repr, Inhabited

/-- The field of a member of the declaration called `enclosing`. -/
def Field.ofMember (types : TypeSet) (member : Member) (enclosing : String) : Field where
  name := member.rename.getD member.name
  ty := member.ty
  contextualName := match types.ownName member.ty with
    | some own => own
    | none => Text.Uppercase.capitalize member.name ++ enclosing
  omitted := member.skip
  embedded := member.embedded
  optional := member.optional
  doc := member.doc

structure EnumMember where
  name : String
  value : Literal
  comment : Option String
  indent : String := ""
  deriving DecidableEq, Inhabited

def EnumMember.ofConstant (constant : Constant) : EnumMember where
  name := constant.name
  value := constant.value
  comment := constant.comment

inductive Body where
  /-- The fields, and the names of the embedded types. -/
  | interface (fields : List Field) (inherited : List String)
  | enumeration (members : List EnumMember)
  deriving DecidableEq, Inhabited

structure Declaration where
  name : String
  provenance : Provenance
  /-- The type that is declared. -/
  ty : TypeId
  doc : Option String
  body : Body
  indent : String := ""
  deriving DecidableEq, Inhabited

namespace Declaration

def isEnumeration (d : Declaration) : Bool :=
  match d.body with
  | .enumeration _ => true
  | .interface _ _ => false

def fields (d : Declaration) : List Field :=
  match d.body with
  | .interface fields _ => fields
  | .enumeration _ => []

def inherited (d : Declaration) : List String :=
  match d.body with
  | .interface _ inherited => inherited
  | .enumeration _ => []

def members (d : Declaration) : List EnumMember :=
  match d.body with
  | .interface _ _ => []
  | .enumeration members => members

def kindName (d : Declaration) : String :=
  if d.isEnumeration then "enum" else "interface"

/-- Sets the indentation of a declaration and, one step deeper, of its parts. -/
def indented (outer inner : String) (d : Declaration) : Declaration :=
  { d with
    indent := outer
    body := match d.body with
      | .interface fields inherited =>
        .interface (fields.map fun f => { f with indent := inner }) inherited
      | .enumeration members => .enumeration (members.map fun m => { m with indent := inner }) }

end Declaration

end TypeGraph

import TypeGraph.Registry.Discovery
/-!
Types of fields as the output sees them, and the view of a registry that they are resolved in.
-/

namespace TypeGraph

inductive TypeRef where
  /-- A declaration, by name. -/
  | declared (name : String)
  | sequence (element : TypeRef)
  | map (key value : TypeRef)
  | scalar (kind : Scalar)
  /-- Text that the user gave for the type. -/
  | verbatim (text : String)
  deriving DecidableEq, Repr, Inhabited

/-- What an assembler of output is given. -/
structure View where
  declarations : List Declaration
  settings : Settings
  types : TypeSet

namespace View

def lookup (v : View) (id : TypeId) : Option Declaration :=
  v.declarations.find? (·.ty == id)

def customText (v : View) (id : TypeId) : Option String :=
  (v.types.qualifiedName id).bind (List.lookup · v.settings.custom)

/-- Whether the type, behind pointers, is declared as an enumeration. -/
def declaresEnumeration (v : View) (id : TypeId) : Bool :=
  ((v.lookup (v.types.strip id)).map (·.isEnumeration)).getD false

/-- The key of a map. Only an enumeration can be the key of a record; other declarations give way
to strings. -/
def mapKey (v : View) (id : TypeId) (resolved : TypeRef) : TypeRef :=
  match resolved with
  | .declared _ => if v.declaresEnumeration id then resolved else .scalar .string
  | _ => resolved

/-- The reference to a type. A struct that is not declared could be anything. -/
def resolve (v : View) (id : TypeId) : TypeRef :=
  let target := v.types.strip id
  match v.types.get? target with
  | none => .scalar .any
  | some d =>
    match v.customText target with
    | some text => .verbatim text
    | none =>
      match v.lookup target with
      | some declaration => .declared declaration.name
      | none =>
        match d.shape with
        | .sequence element =>
          if element.index < id.index then .sequence (v.resolve element) else .scalar .any
        | .map key value =>
          if _h : key.index < id.index ∧ value.index < id.index then
            .map (v.mapKey key (v.resolve key)) (v.resolve value)
          else .scalar .any
        | .scalar kind => .scalar kind
        | .aggregate _ | .pointer _ => .scalar .any
termination_by id.index
decreasing_by all_goals omega

end View

/-- A way to write the declarations of a view; it may fail. -/
structure Assembler where
  /-- One step of indentation. -/
  unit : String
  assemble : View → Option String

/-- The step of indentation of assemblers that do not choose one. -/
def defaultIndent : String := "    "

end TypeGraph

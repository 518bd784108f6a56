import TypeGraph.Declaration
import TypeGraph.Text.Quoted
/-!
Declarations as a JSON document, indented by two spaces.
-/

namespace TypeGraph.Output

inductive Json where
  | null
  | bool (value : Bool)
  /-- A number, as it is written. -/
  | number (text : String)
  | string (value : String)
  | array (items : List Json)
  | object (entries : List (String × Json))

namespace Json

def ofOption (value : Option String) : Json :=
  value.elim null string

def margin (depth : Nat) : String :=
  String.ofList (List.replicate (2 * depth) ' ')

/-- Parts between brackets, each on its own line. -/
def bracketed (opening closing : String) (depth : Nat) (parts : List String) : String :=
  if parts = [] then opening ++ closing
  else
    let inner := margin (depth + 1)
    opening ++ "\n" ++ ",\n".intercalate (parts.map (inner ++ ·)) ++ "\n" ++ margin depth ++ closing

mutual

/-- The text of a value that stands `depth` levels deep. -/
def write (depth : Nat) : Json → String
  | null => "null"
  | bool value => if value then "true" else "false"
  | number text => text
  | string value => Text.Quoted.quote value
  | array items => bracketed "[" "]" depth (writeItems (depth + 1) items)
  | object entries => bracketed "\x7b" "\x7d" depth (writeEntries (depth + 1) entries)

def writeItems (depth : Nat) : List Json → List String
  | [] => []
  | item :: items => write depth item :: writeItems depth items

def writeEntries (depth : Nat) : List (String × Json) → List String
  | [] => []
  | (key, value) :: entries =>
    (Text.Quoted.quote key ++ ": " ++ write depth value) :: writeEntries depth entries

end

/-- A literal as a bare value. Numbers that JSON cannot write are null. -/
def ofLiteral : Literal → Json
  | .string value => string value
  | .int value => number (toString value.toInt)
  | .uint value => number (toString value.toNat)
  | .float value => value.dataText?.elim null number

def ofField (f : Field) : Json :=
  object [("name", string f.name), ("ty", number (toString f.ty.index)),
    ("contextual_name", string f.contextualName), ("omitted", bool f.omitted),
    ("anonymous", bool f.embedded), ("optional", bool f.optional), ("doc", ofOption f.doc),
    ("indent", string f.indent)]

def ofMember (m : EnumMember) : Json :=
  object [("name", string m.name), ("value", ofLiteral m.value), ("comment", ofOption m.comment),
    ("indent", string m.indent)]

def ofBody : Body → Json
  | .interface fields inherited =>
    object [("kind", string "aggregate"), ("fields", array (fields.map ofField)),
      ("inherited", array (inherited.map string))]
  | .enumeration members =>
    object [("kind", string "enumeration"), ("members", array (members.map ofMember))]

def ofDeclaration (d : Declaration) : Json :=
  object [("name", string d.name),
    ("origin", object [("package", string d.provenance.package),
      ("type_name", string d.provenance.typeName)]),
    ("ty", number (toString d.ty.index)), ("doc", ofOption d.doc), ("kind", ofBody d.body),
    ("indent", string d.indent)]

/-- The document that lists declarations. -/
def document (ds : List Declaration) : String :=
  write 0 (array (ds.map ofDeclaration))

end Json

end TypeGraph.Output

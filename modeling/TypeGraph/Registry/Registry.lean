import TypeGraph.Failure
import TypeGraph.Output.TypeScript
/-!
Registries: a type set together with the declarations made for it so far. Roots are added one by
one; nothing that was declared is ever changed, except for its indentation. A registration leaves a
registry also where it fails.
-/

namespace TypeGraph

structure Registry where
  types : TypeSet
  settings : Settings
  annex : Annex := .described
  assembler : Assembler := Output.TypeScript.assembler {}
  findings : Findings := {}

namespace Registry

def catalog (r : Registry) : Catalog where
  types := r.types
  settings := r.settings
  annex := r.annex

/-- The declarations in the order of the output. -/
def declarations (r : Registry) : List Declaration :=
  r.findings.declared

/-- The declaration of a type, behind pointers. -/
def lookup (r : Registry) (id : TypeId) : Option Declaration :=
  r.findings.lookup (r.types.strip id)

def setScope (r : Registry) (scope : Option String) : Registry :=
  { r with settings := r.settings.withScope scope }

/-- Builds the type of a blueprint into the type set. -/
def build (r : Registry) (family : Family) (blueprint : Blueprint) :
    Except Failure (TypeId × Registry) :=
  match r.types.of family blueprint with
  | .ok (id, types) => .ok (id, { r with types })
  | .error d => .error (.dangling d.id)

/-- The name that a root is declared under: the one given, if it is not empty, or its own. -/
def rootName (r : Registry) (id : TypeId) (name? : Option String) : Except Failure String :=
  match name?.filter (· ≠ "") <|> (r.types.get? id).bind (·.name) with
  | some name => .ok name
  | none => .error (.unnamedType id)

/-- Declares an id of the type set with `make`, unless it is declared already. Answers its
declaration, and the registry, which is the old one where the id has no name or `make` fails. -/
def register (r : Registry) (id : TypeId) (name? : Option String)
    (make : String → Except Failure Findings) : Except Failure Declaration × Registry :=
  match r.findings.lookup id with
  | some d => (.ok d, r)
  | none =>
    match r.rootName id name? with
    | .error f => (.error f, r)
    | .ok name =>
      match make name with
      | .error f => (.error f, r)
      | .ok findings =>
        ((findings.lookup id).elim (.error (.unknownType id)) .ok, { r with findings })

/-- Declares a type without looking behind pointers, whatever its shape. Only structs have
fields. -/
def registerAggregate (r : Registry) (id : TypeId) (name? : Option String) :
    Except Failure Declaration × Registry :=
  if r.types.contains id then
    r.register id name? fun name =>
      (r.catalog.discover id name r.findings).mapError fun d => .dangling d.id
  else (.error (.unknownType id), r)

/-- Declares a type as an enumeration, without looking behind pointers, whatever its shape.
`package?` replaces the package shown for it. -/
def registerEnumeration (r : Registry) (id : TypeId) (name? package? : Option String) :
    Except Failure Declaration × Registry :=
  if r.types.contains id then
    r.register id name? fun name =>
      .ok (r.catalog.declareEnumeration id (some name) package? r.findings).2
  else (.error (.unknownType id), r)

/-- Adds a root; what lies behind pointers is declared. -/
def addType (r : Registry) (id : TypeId) (name? : Option String) :
    Except Failure Declaration × Registry :=
  if r.types.contains id then r.registerAggregate (r.types.strip id) name?
  else (.error (.unknownType id), r)

/-- Adds a root as an enumeration; what lies behind pointers is declared. -/
def addEnumeration (r : Registry) (id : TypeId) (name? package? : Option String) :
    Except Failure Declaration × Registry :=
  if r.types.contains id then r.registerEnumeration (r.types.strip id) name? package?
  else (.error (.unknownType id), r)

/-- What a call answers and leaves, unless it fails. -/
def settled (outcome : Except Failure Declaration × Registry) :
    Except Failure (Declaration × Registry) :=
  outcome.1.map (·, outcome.2)

/-- Indents every declaration in steps of `unit`, one step deeper inside a namespace. -/
def indented (r : Registry) (unit : String) : Registry :=
  let outer := if r.settings.scope.isSome then unit else ""
  { r with findings := { r.findings with
      begun := r.findings.begun.map (·.indented outer (outer ++ unit)) } }

/-- Indents every declaration for the registry's own assembler. -/
def finish (r : Registry) : Registry :=
  r.indented r.assembler.unit

def view (r : Registry) : View where
  declarations := r.declarations
  settings := r.settings
  types := r.types

/-- Indents for `assembler` and writes with it. -/
def renderWith (r : Registry) (assembler : Assembler) : Except Failure String × Registry :=
  let r := r.indented assembler.unit
  match assembler.assemble r.view with
  | some text => (.ok text, r)
  | none => (.error .format, r)

def render (r : Registry) : Except Failure String × Registry :=
  r.renderWith r.assembler

/-- The longest beginning of a text that fits in `limit` bytes. A character that is cut is marked by
the replacement character. -/
def cutAt (limit : Nat) : List Char → List Char
  | [] => []
  | c :: cs =>
    if c.utf8Size ≤ limit then c :: cutAt (limit - c.utf8Size) cs
    else if limit = 0 then [] else [Char.ofNat 0xFFFD]

/-- Renders into a receiver that takes `limit` bytes, and gives what it received. -/
def renderTo (r : Registry) (limit : Nat) : String × Except Failure Unit × Registry :=
  let (result, r) := r.render
  match result with
  | .error f => ("", .error f, r)
  | .ok text =>
    if text.utf8ByteSize ≤ limit then (text, .ok (), r)
    else (String.ofList (cutAt limit text.toList), .error (.write .full), r)

end Registry

end TypeGraph

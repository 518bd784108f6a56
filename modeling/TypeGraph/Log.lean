import TypeGraph.Text.Blank
import TypeGraph.Text.Inspected
import TypeGraph.Declaration
/-!
What the program tells about its work while it runs.
-/

namespace TypeGraph

/-- What stands in the place of a type that needs no declaration. -/
inductive Inline where
  /-- Text that the user gave for the type. -/
  | verbatim (text : String)
  | scalar (kind : Scalar)
  deriving DecidableEq, Repr, Inhabited

def Inline.label : Inline → String
  | verbatim text => "Opaque(" ++ Text.Inspected.quote text ++ ")"
  | scalar kind => "Primitive(" ++ kind.label ++ ")"

def typeLabel (id : TypeId) : String :=
  "#" ++ toString id.index

namespace Log

/-- Levels, the most important first. -/
inductive Level where
  | error
  | warn
  | info
  | debug
  | trace
  deriving DecidableEq, Repr, Inhabited

namespace Level

def rank : Level → Nat
  | error => 1
  | warn => 2
  | info => 3
  | debug => 4
  | trace => 5

def label : Level → String
  | error => "ERROR"
  | warn => "WARN "
  | info => "INFO "
  | debug => "DEBUG"
  | trace => "TRACE"

def keyword : Level → String
  | error => "error"
  | warn => "warn"
  | info => "info"
  | debug => "debug"
  | trace => "trace"

/-- The level shown if more words were asked for so many times. -/
def ofVerbosity : Nat → Level
  | 0 => warn
  | 1 => info
  | 2 => debug
  | _ => trace

end Level

/-- The parts of the program that tell about their work. -/
inductive Area where
  | input
  | output
  | schema
  | loader
  | registry
  | discovery
  deriving DecidableEq, Repr, Inhabited

/-- The name of an area, which starts with the name of the area that it is a part of. -/
def Area.name : Area → String
  | input => "command::input"
  | output => "command::output"
  | schema => "schema"
  | loader => "schema::loader"
  | registry => "registry"
  | discovery => "registry::discovery"

inductive Event where
  | sourcesRead (count : Nat)
  | structResolved (name : String)
  | schemaLoaded (sources types roots diagnostics : Nat)
  | schemaReady (roots files : Nat)
  | interfaceDeclared (name qualified : String)
  | enumDeclared (name : String) (members : Nat)
  | alreadyDeclared (id : TypeId)
  | inlined (id : TypeId) (what : Inline)
  | customRoot (id : TypeId)
  | rendered (count : Nat)
  | generated (count : Nat) (path : String)
  deriving DecidableEq, Repr, Inhabited

namespace Event

def level : Event → Level
  | structResolved _ | alreadyDeclared _ | inlined _ _ => .trace
  | sourcesRead _ | schemaLoaded _ _ _ _ | interfaceDeclared _ _ | enumDeclared _ _
  | customRoot _ => .debug
  | schemaReady _ _ | rendered _ | generated _ _ => .info

def area : Event → Area
  | sourcesRead _ | schemaReady _ _ => .input
  | rendered _ => .output
  | schemaLoaded _ _ _ _ | customRoot _ => .schema
  | structResolved _ => .loader
  | interfaceDeclared _ _ | enumDeclared _ _ | alreadyDeclared _ | generated _ _ => .registry
  | inlined _ _ => .discovery

def message : Event → String
  | sourcesRead count => "loaded " ++ toString count ++ " schema source(s)"
  | structResolved name => "resolved struct " ++ name
  | schemaLoaded sources types roots diagnostics =>
    "loaded " ++ toString sources ++ " sources: " ++ toString types ++ " types, " ++
      toString roots ++ " roots, " ++ toString diagnostics ++ " diagnostics"
  | schemaReady roots files =>
    "schema has " ++ toString roots ++ " root(s) across " ++ toString files ++ " file(s)"
  | interfaceDeclared name qualified => "declared interface " ++ name ++ " (" ++ qualified ++ ")"
  | enumDeclared name members =>
    "declared enum " ++ name ++ " with " ++ toString members ++ " members"
  | alreadyDeclared id => typeLabel id ++ " already declared"
  | inlined id what => typeLabel id ++ " inlined as " ++ what.label
  | customRoot id => "root " ++ typeLabel id ++ " is a custom type"
  | rendered count => "rendered " ++ toString count ++ " declaration(s) to stdout"
  | generated count path => "generated " ++ toString count ++ " declarations into " ++ path

/-- The event as a line of the log. What follows a line feed in the message is indented. -/
def line (e : Event) : String :=
  let lines := (Text.lines e.message.toList).map String.ofList
  "[" ++ e.level.label ++ "] " ++ "\n    ".intercalate lines ++ "\n"

end Event

end Log

end TypeGraph

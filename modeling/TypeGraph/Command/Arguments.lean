import TypeGraph.Command.Invocation
import TypeGraph.Number.Decimal
/-!
Reading the arguments of a run. An option stands as `--name value`, `--name=value`, `-n value`,
`-nvalue` or `-n=value`; flags with short names can share a dash; what follows `--` is a path. A value
is looked at when the next argument starts, so that an unknown argument right after it is told first.
-/

namespace TypeGraph.Command

inductive Verb where
  | generate
  | list
  | check
  deriving DecidableEq, Repr, Inhabited

namespace Verb

def name : Verb → String
  | generate => "generate"
  | list => "list"
  | check => "check"

def ofName? (name : String) : Option Verb :=
  [generate, list, check].find? (·.name = name)

end Verb

/-- Options that take no value. -/
inductive Flag where
  | help
  | verbose
  | legacyEmbedding
  | noExport
  | json
  | strict
  deriving DecidableEq, Repr, Inhabited

/-- Options that take a value. -/
inductive Setting where
  | schema
  | root
  | scope
  | custom
  | color
  | header
  | indent
  | output
  deriving DecidableEq, Repr, Inhabited

inductive Key where
  | flag (flag : Flag)
  | setting (setting : Setting)
  deriving DecidableEq, Repr, Inhabited

namespace Key

def longName? : Key → Option String
  | flag .help => some "help"
  | flag .verbose => none
  | flag .legacyEmbedding => some "legacy-embedding"
  | flag .noExport => some "no-export"
  | flag .json => some "json"
  | flag .strict => some "strict"
  | setting .schema => some "schema"
  | setting .root => some "root"
  | setting .scope => some "namespace"
  | setting .custom => some "map"
  | setting .color => some "color"
  | setting .header => some "header"
  | setting .indent => some "indent"
  | setting .output => some "output"

def shortName? : Key → Option Char
  | flag .help => some 'h'
  | flag .verbose => some 'v'
  | setting .schema => some 's'
  | setting .output => some 'o'
  | _ => none

/-- The option as it is written in messages. -/
def label (k : Key) : String :=
  match k.longName?, k.shortName? with
  | some name, _ => "--" ++ name
  | none, some c => "-" ++ c.toString
  | none, none => ""

/-- Options that stand before the verb or after it. -/
def general : List Key := [flag .help, flag .verbose]

/-- Options about the schema that is read. -/
def reading : List Key := general ++ [setting .schema, setting .color]

/-- Options about the declarations that are made. -/
def declaring : List Key :=
  reading ++ [setting .root, setting .scope, setting .custom, flag .legacyEmbedding]

/-- The options of a verb. -/
def ofVerb : Verb → List Key
  | .generate =>
    declaring ++ [setting .header, flag .noExport, setting .indent, setting .output]
  | .list => declaring ++ [flag .json]
  | .check => reading ++ [flag .strict]

end Key

/-- Why arguments do not say what to do. -/
inductive Refusal where
  /-- Help was asked for. -/
  | help
  /-- There is not a single argument. -/
  | nothing
  | noVerb
  | unknownVerb (name : String)
  | unknownArgument (argument : String)
  /-- A value for an option that takes none. -/
  | unneededValue (key : Key)
  /-- An option without its value. -/
  | noValue (key : Key)
  | emptyPath
  | unknownValue (key : Key) (value : String)
  /-- A value that is not of the form that the option asks for. -/
  | malformedValue (key : Key) (value : String)
  /-- An option that can be given once is given again. -/
  | repeated (key : Key)
  /-- Both paths and a schema itself. -/
  | twoInputs
  /-- Neither paths nor a schema itself. -/
  | noInput
  deriving DecidableEq, Repr, Inhabited

namespace Refusal

/-- Whether the user got what was asked for. -/
def isHelp (r : Refusal) : Bool :=
  r = help

def message : Refusal → String
  | help => ""
  | nothing | noVerb => "a command is required: generate, list or check"
  | unknownVerb name => "unknown command '" ++ name ++ "'"
  | unknownArgument argument => "unexpected argument '" ++ argument ++ "'"
  | unneededValue key => key.label ++ " takes no value"
  | noValue key => key.label ++ " needs a value"
  | emptyPath => "a path cannot be empty"
  | unknownValue key value | malformedValue key value =>
    "invalid value '" ++ value ++ "' for " ++ key.label
  | repeated key => key.label ++ " can only be given once"
  | twoInputs => "paths cannot be used with -s/--schema"
  | noInput => "schema is required: use positional arguments or -s/--schema"

end Refusal

/-- What the arguments have given so far. -/
structure Given where
  paths : List String := []
  text : Option String := none
  roots : List String := []
  scope : Option String := none
  custom : List (String × String) := []
  coloring : Option Coloring := none
  header : Option String := none
  indent : Option Nat := none
  output : Option String := none
  legacyEmbedding : Bool := false
  noExport : Bool := false
  json : Bool := false
  strict : Bool := false
  verbosity : Nat := 0
  deriving DecidableEq, Repr, Inhabited

/-- Splits at the first `=`. -/
def splitAtEquals (text : String) : String × Option String :=
  let cs := text.toList
  let name := String.ofList (cs.takeWhile (· ≠ '='))
  match cs.dropWhile (· ≠ '=') with
  | [] => (name, none)
  | _ :: value => (name, some (String.ofList value))

/-- A width of at most sixteen; it may have a sign. -/
def readWidth (value : String) : Except Refusal Nat :=
  let (negative, digits) := Decimal.splitSign value.toList
  let width := Decimal.digitsValue digits
  if digits ≠ [] ∧ digits.all Char.isDigit ∧ width ≤ 16 ∧ (width = 0 ∨ negative = false) then
    .ok width
  else .error (.malformedValue (.setting .indent) value)

/-- A name and the text that stands for it, with `=` between; neither is empty. -/
def readMapping (value : String) : Except Refusal (String × String) :=
  match splitAtEquals value with
  | (name, some text) =>
    if name = "" ∨ text = "" then .error (.malformedValue (.setting .custom) value)
    else .ok (name, text)
  | (_, none) => .error (.malformedValue (.setting .custom) value)

def readColoring (value : String) : Except Refusal Coloring :=
  match Coloring.ofKeyword? value with
  | some coloring => .ok coloring
  | none => .error (.unknownValue (.setting .color) value)

def checkPath (path : String) : Except Refusal String :=
  if path = "" then .error .emptyPath else .ok path

/-- Sets what can be given once. -/
def once {α : Type} (key : Key) (old : Option α) (value : Except Refusal α) :
    Except Refusal (Option α) :=
  if old.isSome then .error (.repeated key) else value.map some

def raiseOnce (flag : Flag) (old : Bool) : Except Refusal Bool :=
  if old then .error (.repeated (.flag flag)) else .ok true

namespace Given

def raise (g : Given) : Flag → Except Refusal Given
  | .help => .error .help
  | .verbose => .ok { g with verbosity := min 255 (g.verbosity + 1) }
  | .legacyEmbedding => do
    return { g with legacyEmbedding := ← raiseOnce .legacyEmbedding g.legacyEmbedding }
  | .noExport => return { g with noExport := ← raiseOnce .noExport g.noExport }
  | .json => return { g with json := ← raiseOnce .json g.json }
  | .strict => return { g with strict := ← raiseOnce .strict g.strict }

def assign (g : Given) (setting : Setting) (value : String) : Except Refusal Given :=
  let key := Key.setting setting
  match setting with
  | .schema => return { g with text := ← once key g.text (.ok value) }
  | .root => .ok { g with roots := g.roots ++ [value] }
  | .scope => return { g with scope := ← once key g.scope (.ok value) }
  | .custom => return { g with custom := g.custom ++ [← readMapping value] }
  | .color => return { g with coloring := ← once key g.coloring (readColoring value) }
  | .header => return { g with header := ← once key g.header (.ok value) }
  | .indent => return { g with indent := ← once key g.indent (readWidth value) }
  | .output => return { g with output := ← once key g.output (checkPath value) }

def options (g : Given) : Options where
  roots := g.roots
  scope := g.scope
  declareEmbedded := !g.legacyEmbedding
  custom := g.custom

def action (g : Given) : Verb → Action
  | .generate => .generate g.options {
      header := g.header
      exported := !g.noExport
      indent := g.indent
      output := g.output }
  | .list => .list g.options g.json
  | .check => .check g.strict

/-- What is asked for in all, after a verb and with the verbosity given before it. That one counts
only if none is given after the verb. -/
def invocation (g : Given) (verb : Verb) (verbosity : Nat) : Except Refusal Invocation :=
  if g.text.isSome ∧ g.paths ≠ [] then .error .twoInputs
  else if g.text = none ∧ g.paths = [] then .error .noInput
  else .ok {
    verbosity := if g.verbosity = 0 then verbosity else g.verbosity
    paths := g.paths
    text := g.text
    coloring := g.coloring.getD .auto
    action := g.action verb }

end Given

/-- Values that have been read but not yet looked at. -/
inductive Waiting where
  | nothing
  | paths (paths : List String)
  | setting (setting : Setting) (value : Option String)
  deriving DecidableEq, Repr, Inhabited

/-- Arguments in the middle of being read. -/
structure Scan where
  given : Given := {}
  waiting : Waiting := .nothing
  /-- Whether only paths can follow. -/
  onlyPaths : Bool := false
  deriving DecidableEq, Repr, Inhabited

/-- An argument that starts with a dash and is more than dashes. -/
inductive Dashed where
  | long (name : String) (value : Option String)
  | short (names : List Char)
  deriving DecidableEq, Repr, Inhabited

def Dashed.ofText? (argument : String) : Option Dashed :=
  match argument.toList with
  | '-' :: '-' :: cs =>
    let (name, value) := splitAtEquals (String.ofList cs)
    some (.long name value)
  | ['-'] => none
  | '-' :: cs => some (.short cs)
  | _ => none

namespace Scan

/-- Looks at the values that were waiting. -/
def settle (s : Scan) : Except Refusal Scan :=
  match s.waiting with
  | .nothing => .ok s
  | .paths paths => do
    let paths ← paths.mapM checkPath
    return { s with given := { s.given with paths := s.given.paths ++ paths }, waiting := .nothing }
  | .setting setting none => .error (.noValue (.setting setting))
  | .setting setting (some value) =>
    return { s with given := ← s.given.assign setting value, waiting := .nothing }

def raise (s : Scan) (flag : Flag) : Except Refusal Scan := do
  let s ← s.settle
  return { s with given := ← s.given.raise flag }

/-- Assigns a value that is written together with its option. -/
def assign (s : Scan) (setting : Setting) (value : String) : Except Refusal Scan := do
  let s ← s.settle
  return { s with given := ← s.given.assign setting value }

/-- Starts an option whose value is the next argument. -/
def await (s : Scan) (setting : Setting) : Except Refusal Scan := do
  return { ← s.settle with waiting := .setting setting none }

def long (s : Scan) (keys : List Key) (name : String) (value : Option String) :
    Except Refusal Scan :=
  match keys.find? (·.longName? = some name), value with
  | none, _ => .error (.unknownArgument ("--" ++ name))
  | some (.flag flag), none => s.raise flag
  | some (.flag flag), some _ => .error (.unneededValue (.flag flag))
  | some (.setting setting), some value => s.assign setting value
  | some (.setting setting), none => s.await setting

/-- Short names behind one dash. What follows the name of an option is its value. -/
def short (keys : List Key) : List Char → Scan → Except Refusal Scan
  | [], s => .ok s
  | c :: cs, s =>
    match keys.find? (·.shortName? = some c) with
    | none => .error (.unknownArgument ("-" ++ c.toString))
    | some (.flag flag) => do short keys cs (← s.raise flag)
    | some (.setting setting) =>
      match cs with
      | [] => s.await setting
      | '=' :: value => s.assign setting (String.ofList value)
      | value => s.assign setting (String.ofList value)

def dashed (s : Scan) (keys : List Key) : Dashed → Except Refusal Scan
  | .long name value => s.long keys name value
  | .short names => short keys names s

def path (s : Scan) (path : String) : Except Refusal Scan :=
  match s.waiting with
  | .paths paths => .ok { s with waiting := .paths (paths ++ [path]) }
  | _ => return { ← s.settle with waiting := .paths [path] }

/-- One argument after the verb. -/
def step (keys : List Key) (s : Scan) (argument : String) : Except Refusal Scan :=
  if s.onlyPaths then s.path argument
  else if argument = "--" then .ok { s with onlyPaths := true }
  else match Dashed.ofText? argument, s.waiting with
    | some d, _ => s.dashed keys d
    | none, .setting setting none => .ok { s with waiting := .setting setting (some argument) }
    | none, _ => s.path argument

/-- One argument before the verb. -/
def before (s : Scan) (argument : String) : Except Refusal Scan :=
  if s.onlyPaths then
    if argument = "help" ∨ (Verb.ofName? argument).isSome then .error (.unknownArgument argument)
    else .error (.unknownVerb argument)
  else if argument = "--" then .ok { s with onlyPaths := true }
  else match Dashed.ofText? argument with
    | some d => s.dashed Key.general d
    | none => .error (.unknownVerb argument)

end Scan

/-- The answer to a call for help, about the program or one verb. -/
def helpAbout : List String → Refusal
  | [] => .help
  | [name] => if name = "help" ∨ (Verb.ofName? name).isSome then .help else .unknownVerb name
  | name :: next :: _ =>
    if name = "help" ∨ (Verb.ofName? name).isSome then .unknownVerb next else .unknownVerb name

/-- Reads the arguments after a verb. -/
def readAfter (verb : Verb) (verbosity : Nat) (arguments : List String) :
    Except Refusal Invocation := do
  let s ← arguments.foldlM (Scan.step (Key.ofVerb verb)) {}
  (← s.settle).given.invocation verb verbosity

def readFrom (s : Scan) : List String → Except Refusal Invocation
  | [] => .error (if s.given.verbosity = 0 then .nothing else .noVerb)
  | argument :: arguments =>
    if s.onlyPaths then do readFrom (← s.before argument) arguments
    else match Verb.ofName? argument with
      | some verb => readAfter verb s.given.verbosity arguments
      | none =>
        if argument = "help" then .error (helpAbout arguments)
        else do readFrom (← s.before argument) arguments

/-- Reads the arguments of a run. -/
def Invocation.ofArguments (arguments : List String) : Except Refusal Invocation :=
  readFrom {} arguments

end TypeGraph.Command

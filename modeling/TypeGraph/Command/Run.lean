import TypeGraph.Command.Arguments
import TypeGraph.Command.Files
import TypeGraph.Command.Generate
import TypeGraph.Excerpt
import TypeGraph.Log.Filter
import TypeGraph.Output.Json
import TypeGraph.Output.Listing
/-!
Runs: a schema is read and loaded, its roots are registered and what comes of it is written. A run
that fails tells why on standard error.
-/

namespace TypeGraph.Command

/-- What a run leaves behind, apart from files. -/
structure Outcome where
  code : Nat := 0
  output : String := ""
  errors : String := ""
  deriving DecidableEq, Repr, Inhabited

namespace Outcome

/-- A run that fails with a message. -/
def failure (message : String) : Outcome where
  code := 1
  errors := "error: " ++ message ++ "\n"

/-- A run that wrote `text` on standard error before it went on. -/
def after (text : String) (o : Outcome) : Outcome :=
  { o with errors := text ++ o.errors }

end Outcome

/-- How a run tells about itself. -/
structure Manner where
  log : Log.Filter := .ofLevel .warn
  colored : Bool := false

/-- Whether a schema is good enough to go on. -/
def isAccepted (strict : Bool) (s : Schema) : Bool :=
  s.isValid && !(strict && s.diagnostics.any (·.isWarning))

/-- Goes on with a schema if it is accepted. Diagnostics are shown in either case. -/
def withSchema {m : Type → Type} [Monad m] (manner : Manner) (strict : Bool)
    (sources : List Source) (k : Schema → m Outcome) : m Outcome := do
  let s := Schema.ofSources sources
  let read := manner.log.lines (.sourcesRead sources.length :: s.journal)
  if isAccepted strict s then
    let ready := manner.log.lines [.schemaReady s.roots.length s.files.length]
    return (← k s).after (read ++ Excerpt.render sources s.diagnostics ++ ready)
  else
    return { code := 1, errors := read ++ Excerpt.render sources (Diagnostic.filtered s.diagnostics) }

/-- The registry with the roots that are asked for, or what is wrong with them. -/
def registryOf (s : Schema) (options : Options) (header : Option String) :
    Except String Registry := do
  let roots ← (selectRoots s options.roots).mapError unknownRoot
  (s.registryFor (options.settings header) roots).mapError Failure.message

/-- Writes TypeScript into a file or on standard output. -/
def generate {m : Type → Type} [Monad m] (files : Files m) (manner : Manner) (writing : Writing)
    (r : Registry) : m Outcome := do
  let r := { r with assembler := Output.TypeScript.assembler writing.style }
  let told (r : Registry) := manner.log.lines r.findings.journal
  if r.declarations = [] then
    return (Outcome.failure "schema has no struct or enum to generate").after (told r)
  else match writing.output with
    | some path =>
      let (result, r) ← r.generate files path
      match result with
      | .ok () => return { errors := told r }
      | .error f => return (Outcome.failure f.message).after (told r)
    | none =>
      let (result, r) := r.render
      match result with
      | .ok text =>
        return {
          output := text
          errors := told r ++ manner.log.lines [.rendered r.declarations.length] }
      | .error f => return (Outcome.failure f.message).after (told r)

/-- Lists declarations. -/
def list (manner : Manner) (json : Bool) (r : Registry) : Outcome where
  output :=
    if json then Output.Json.document r.declarations ++ "\n"
    else Output.Listing.listing (Palette.choose manner.colored) r.declarations
  errors := manner.log.lines r.findings.journal

/-- Does with a schema what is asked for. -/
def act {m : Type → Type} [Monad m] (files : Files m) (manner : Manner) (s : Schema) :
    Action → m Outcome
  | .generate options writing =>
    match registryOf s options writing.header with
    | .ok r => generate files manner writing r
    | .error message => return .failure message
  | .list options json =>
    match registryOf s options none with
    | .ok r => return list manner json r
    | .error message => return .failure message
  | .check _ => return {}

def Action.isStrict : Action → Bool
  | .check strict => strict
  | _ => false

def Invocation.run {m : Type → Type} [Monad m] (files : Files m) (manner : Manner)
    (i : Invocation) : m Outcome := do
  match ← readSources files i.paths i.text with
  | .error fault => return .failure fault.message
  | .ok sources =>
    withSchema manner i.action.isStrict sources fun s => act files manner s i.action

/-- The log of an invocation: what the filter says, if one is given, or the level asked for. Gives
also what is told about the filter. -/
def Invocation.log (i : Invocation) (areaName : Log.Area → String) (spec? : Option String) :
    Log.Filter × String :=
  match spec? with
  | some spec => Log.Filter.ofText areaName spec
  | none => (.ofLevel (.ofVerbosity i.verbosity), "")

/-- How to use the program. -/
def usage : String :=
  "Usage:\n" ++
  "  generate <SCHEMA>...   render TypeScript declarations\n" ++
  "  list <SCHEMA>...       list declarations\n" ++
  "  check <SCHEMA>...      look for errors\n"

/-- What a run leaves that cannot start. -/
def Refusal.outcome (r : Refusal) : Outcome :=
  if r.isHelp then { output := usage }
  else { code := 2, errors := "error: " ++ r.message ++ "\n\n" ++ usage }

/-- Runs the program. Colours are chosen with regard to a terminal. -/
def runProgram {m : Type → Type} [Monad m] (files : Files m) (areaName : Log.Area → String)
    (spec? : Option String) (onTerminal : Bool) (arguments : List String) : m Outcome := do
  match Invocation.ofArguments arguments with
  | .error r => return r.outcome
  | .ok i =>
    let (log, told) := i.log areaName spec?
    let manner := { log, colored := i.coloring.isColored onTerminal }
    return (← i.run files manner).after told

end TypeGraph.Command

import TypeGraph.Command.Selection
import TypeGraph.Output.TypeScript
/-!
What a run is asked to do.
-/

namespace TypeGraph.Command

/-- When output is coloured. -/
inductive Coloring where
  /-- On a terminal. -/
  | auto
  | always
  | never
  deriving DecidableEq, Repr, Inhabited

namespace Coloring

def keyword : Coloring → String
  | auto => "auto"
  | always => "always"
  | never => "never"

def ofKeyword? (word : String) : Option Coloring :=
  [auto, always, never].find? (·.keyword = word)

def isColored (c : Coloring) (onTerminal : Bool) : Bool :=
  match c with
  | auto => onTerminal
  | always => true
  | never => false

theorem ofKeyword?_keyword (c : Coloring) : ofKeyword? c.keyword = some c := by
  cases c <;> rfl

end Coloring

/-- Options of a run that writes TypeScript. -/
structure Writing where
  /-- The text above the declarations, if not the usual one. -/
  header : Option String := none
  exported : Bool := true
  /-- The width of a step of indentation. -/
  indent : Option Nat := none
  /-- The file to write; standard output if there is none. -/
  output : Option String := none
  deriving DecidableEq, Repr, Inhabited

def Writing.style (w : Writing) : Output.TypeScript.Style :=
  Output.TypeScript.Style.withIndent { exported := w.exported } w.indent

inductive Action where
  /-- Write the declarations as TypeScript. -/
  | generate (options : Options) (writing : Writing)
  /-- List the declarations. -/
  | list (options : Options) (json : Bool)
  /-- Only look for errors, and for warnings too if `strict`. -/
  | check (strict : Bool)
  deriving DecidableEq, Repr, Inhabited

structure Invocation where
  /-- How often more words were asked for. -/
  verbosity : Nat := 0
  paths : List String := []
  /-- A schema that is given itself, not by path. -/
  text : Option String := none
  coloring : Coloring := .auto
  action : Action
  deriving DecidableEq, Repr, Inhabited

end TypeGraph.Command

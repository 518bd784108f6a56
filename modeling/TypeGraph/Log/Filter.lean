import TypeGraph.Log
/-!
Which events are logged. A filter is written as directives with commas between them: `level`, `area`
or `area=level`, and after a slash a text that messages must hold.
-/

namespace TypeGraph.Log

/-- A directive for the areas whose names start with `area`, or for all. -/
structure Directive where
  area : Option String
  /-- The least important level that is logged, if any is. -/
  level : Option Level
  deriving DecidableEq, Repr, Inhabited

structure Filter where
  directives : List Directive := []
  text : Option String := none
  /-- The names by which directives speak of areas. -/
  areaName : Area → String := Area.name

/-- A level by its name, in either case; nothing is logged at level `off`. -/
def readLevel (word : String) : Option (Option Level) :=
  let word := String.ofList (word.toList.map Char.toLower)
  if word = "off" then some none
  else ([.error, .warn, .info, .debug, .trace].find? (Level.keyword · = word)).map some

/-- Reads a directive; what cannot be read is answered. A directive without a level is for all
levels. -/
def readDirective (cs : List Char) : Except String Directive :=
  match (Text.pieces (· == '=') cs).map String.ofList with
  | [area] =>
    match readLevel area with
    | some level => .ok ⟨none, level⟩
    | none => .ok ⟨some area, some .trace⟩
  | [area, level] =>
    let level := String.ofList (Text.trim level.toList)
    if level = "" then .ok ⟨some area, some .trace⟩
    else match readLevel level with
      | some level => .ok ⟨some area, level⟩
      | none => .error level
  | _ => .error (String.ofList cs)

/-- Adds a directive; one for the same area is replaced. -/
def addDirective (d : Directive) : List Directive → List Directive
  | [] => [d]
  | e :: es => if e.area = d.area then d :: es else e :: addDirective d es

namespace Filter

def ofLevel (level : Level) : Filter where
  directives := [⟨none, some level⟩]

/-- Reads directives and gives those that cannot be read. -/
def readDirectives (cs : List Char) : List Directive × List String :=
  let read := ((Text.pieces (· == ',') cs).map Text.trim).filter (· ≠ [])
  read.foldl (fun (ds, unread) cs =>
    match readDirective cs with
    | .ok d => (addDirective d ds, unread)
    | .error word => (ds, unread ++ [word])) ([], [])

/-- What is told about a part of a filter that cannot be read. -/
def unreadable (word : String) : String :=
  "warning: invalid logging spec '" ++ word ++ "', ignoring it\n"

/-- Reads a filter, and gives what is told about the parts that cannot be read. -/
def ofText (areaName : Area → String) (spec : String) : Filter × String :=
  match Text.pieces (· == '/') spec.toList with
  | [cs] =>
    let (directives, unread) := readDirectives cs
    ({ directives, areaName }, String.join (unread.map unreadable))
  | [cs, text] =>
    let (directives, unread) := readDirectives cs
    ({ directives, areaName, text := some (String.ofList text) },
      String.join (unread.map unreadable))
  | _ => ({ areaName },
      "warning: invalid logging spec '" ++ spec ++ "' (too many '/'s), ignoring it\n")

/-- The directive for an area: of those that name it, or a part that it lies in, the longest. -/
def directiveFor (f : Filter) (area : Area) : Option Directive :=
  let name := f.areaName area
  (f.directives.filter fun d => (d.area.getD "").toList.isPrefixOf name.toList).foldl
    (fun best d =>
      match best with
      | none => some d
      | some b => if (b.area.getD "").length ≤ (d.area.getD "").length then some d else some b)
    none

/-- The least important level that is logged for an area. A filter without directives lets only
errors through. -/
def levelFor (f : Filter) (area : Area) : Option Level :=
  if f.directives = [] then some .error else (f.directiveFor area).bind (·.level)

/-- Whether `text` stands somewhere in `cs`. -/
def holds (text : List Char) : List Char → Bool
  | [] => text.isEmpty
  | c :: cs => text.isPrefixOf (c :: cs) || holds text cs

def admits (f : Filter) (e : Event) : Bool :=
  ((f.levelFor e.area).elim false fun level => e.level.rank ≤ level.rank) &&
    f.text.elim true fun text => holds text.toList e.message.toList

/-- The lines of the log for events. -/
def lines (f : Filter) (events : List Event) : String :=
  String.join ((events.filter f.admits).map Event.line)

end Filter

end TypeGraph.Log

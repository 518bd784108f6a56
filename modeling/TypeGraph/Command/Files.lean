import TypeGraph.Failure
/-!
Finding the sources of a schema among files, directories and standard input.
-/

namespace TypeGraph.Command

/-- Access to files, by path. -/
structure Files (m : Type → Type) where
  isDirectory : String → m Bool
  /-- The names of the files in a directory, in any order, without its directories. -/
  fileNames : String → m (List String)
  read : String → m (Except FileFault String)
  write : String → String → m (Except FileFault Unit)
  /-- What standard input holds. -/
  standardInput : m (Except FileFault String)

/-- Why there are no sources. -/
inductive InputFault where
  | missing
  | standardInput (fault : FileFault)
  | standardInputTwice
  | read (path : String) (fault : FileFault)
  | emptyDirectory (path : String)
  deriving DecidableEq, Repr, Inhabited

def InputFault.message : InputFault → String
  | missing => "schema is required: use positional arguments or -s/--schema"
  | standardInput fault => "failed to read stdin: " ++ fault.message
  | standardInputTwice => "stdin can only be given once"
  | read path fault => "failed to read '" ++ path ++ "': " ++ fault.message
  | emptyDirectory path => "no .tm files found in '" ++ path ++ "'"

/-- Whether a file of this name in a directory is a source. The ending alone is no such name. -/
def isSourceName (name : String) : Bool :=
  ".tm".toList.isSuffixOf name.toList && 3 < name.length

/-- The path of a file in a directory. -/
def joinPath (directory name : String) : String :=
  if directory.toList.getLast? = some '/' then directory ++ name else directory ++ "/" ++ name

variable {m : Type → Type} [Monad m]

def readSource (files : Files m) (path : String) : ExceptT InputFault m Source := do
  match ← files.read path with
  | .ok text => return ⟨.file path, text⟩
  | .error fault => throw (.read path fault)

/-- The sources of a directory, sorted by name. -/
def readDirectory (files : Files m) (path : String) : ExceptT InputFault m (List Source) := do
  let names := (← files.fileNames path).filter isSourceName
  if names = [] then throw (.emptyDirectory path)
  else (names.mergeSort fun a b => decide (a ≤ b)).mapM fun name =>
    readSource files (joinPath path name)

/-- The sources at one path; a dash stands for standard input. -/
def readPath (files : Files m) (path : String) : ExceptT InputFault m (List Source) := do
  if path = "-" then
    match ← files.standardInput with
    | .ok text => return [⟨.standardInput, text⟩]
    | .error fault => throw (.standardInput fault)
  else if ← files.isDirectory path then readDirectory files path
  else return [← readSource files path]

/-- The sources at several paths; standard input can only be read once. -/
def readPaths (files : Files m) (usedInput : Bool) :
    List String → ExceptT InputFault m (List Source)
  | [] => return []
  | path :: paths => do
    let isInput := path == "-"
    if isInput && usedInput then throw .standardInputTwice
    let here ← readPath files path
    return here ++ (← readPaths files (usedInput || isInput) paths)

/-- The sources of a run: the text that was given, or what the paths lead to. -/
def readSources (files : Files m) (paths : List String) (text? : Option String) :
    ExceptT InputFault m (List Source) := do
  match text? with
  | some text => return [⟨.inline, text⟩]
  | none => if paths = [] then throw .missing else readPaths files false paths

end TypeGraph.Command

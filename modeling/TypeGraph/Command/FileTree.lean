import TypeGraph.Command.Files
import TypeGraph.Text.Blank
/-!
A directory with its files in memory, and paths in it.
-/

namespace TypeGraph.Command

/-- The names on the way from the top of a tree. -/
abbrev Location := List String

structure FileTree where
  directories : List Location := []
  /-- Files with their text; `none` for one that is no text. -/
  files : List (Location × Option String) := []
  /-- The text on standard input. -/
  input : String := ""
  deriving DecidableEq, Repr, Inhabited

namespace FileTree

/-- What is at a location. -/
inductive Node where
  | directory
  | file (text : Option String)
  deriving DecidableEq, Repr, Inhabited

def node? (t : FileTree) (location : Location) : Option Node :=
  match t.files.lookup location with
  | some text => some (.file text)
  | none => if location = [] ∨ location ∈ t.directories then some .directory else none

/-- The parts of a path between its slashes. -/
def parts (path : String) : List String :=
  (Text.pieces (· == '/') path.toList).map String.ofList

/-- Follows the parts of a path. What has further parts behind it must be a directory, and the empty
part behind a slash at the end is a part. -/
def follow (t : FileTree) (here : Location) : List String → Except FileFault Location
  | [] => .ok here
  | part :: rest =>
    match t.node? here with
    | none => .error .notFound
    | some (.file _) => .error .notDirectory
    | some .directory =>
      if part = "" ∨ part = "." then t.follow here rest
      else if part = ".." then t.follow here.dropLast rest
      else t.follow (here ++ [part]) rest

/-- The location that a path leads to, whether or not there is anything. Paths from the top of the
file system lead nowhere. -/
def locate (t : FileTree) (path : String) : Except FileFault Location :=
  if path = "" ∨ path.toList.head? = some '/' then .error .notFound else t.follow [] (parts path)

def find (t : FileTree) (path : String) : Except FileFault (Location × Node) := do
  let location ← t.locate path
  match t.node? location with
  | some node => .ok (location, node)
  | none => .error .notFound

def isDirectory (t : FileTree) (path : String) : Bool :=
  match t.find path with
  | .ok (_, .directory) => true
  | _ => false

def fileNames (t : FileTree) (path : String) : List String :=
  match t.find path with
  | .ok (location, .directory) =>
    t.files.filterMap fun (file, _) =>
      if file.dropLast = location then file.getLast? else none
  | _ => []

def read (t : FileTree) (path : String) : Except FileFault String := do
  match ← t.find path with
  | (_, .directory) => .error .isDirectory
  | (_, .file (some text)) => .ok text
  | (_, .file none) => .error .notText

/-- The location of a file to be written. Its directory must be there; a name that ends in a slash,
or is made of points, can only be that of a directory. -/
def target (t : FileTree) (path : String) : Except FileFault Location := do
  let names := parts path
  match names.reverse.dropWhile (· = "") with
  | [] => .error .notFound
  | last :: above =>
    if path.toList.head? = some '/' then .error .notFound
    else
      let directory ← t.follow [] above.reverse
      match t.node? directory with
      | none => .error .notFound
      | some (.file _) => .error .notDirectory
      | some .directory =>
        let location := directory ++ [last]
        if names.getLast? = some "" ∨ last = "." ∨ last = ".." then .error .isDirectory
        else if t.node? location = some .directory then .error .isDirectory
        else .ok location

def write (t : FileTree) (path text : String) : Except FileFault FileTree := do
  let location ← t.target path
  .ok { t with files := (location, some text) :: t.files.filter (·.1 ≠ location) }

/-- A location and all those above it. -/
def upTo : Location → List Location
  | [] => []
  | name :: names => [name] :: (upTo names).map (name :: ·)

/-- The names in a path, without empty ones and without points for the same directory. -/
def names (path : String) : Location :=
  (parts path).filter fun part => part ≠ "" ∧ part ≠ "."

/-- Adds a directory and those above it. -/
def addDirectory (t : FileTree) (path : String) : FileTree :=
  { t with directories := t.directories ++ upTo (names path) }

/-- Adds a file and the directories above it. -/
def addFile (t : FileTree) (path : String) (text : Option String) : FileTree :=
  let location := names path
  { t with
    directories := t.directories ++ upTo location.dropLast
    files := (location, text) :: t.files.filter (·.1 ≠ location) }

/-- The tree as the files of a run. -/
def asFiles : Files (StateM FileTree) where
  isDirectory path := return (← get).isDirectory path
  fileNames path := return (← get).fileNames path
  read path := return (← get).read path
  write path text := do
    match (← get).write path text with
    | .ok t =>
      set t
      return .ok ()
    | .error fault => return .error fault
  standardInput := return .ok (← get).input

end FileTree

end TypeGraph.Command

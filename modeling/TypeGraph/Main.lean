import TypeGraph.Command.Run
/-!
The command line: gives a run the files, the terminal and the arguments of the process.
-/

namespace TypeGraph.Main

/-- A refusal by its number and text. -/
def faultOfCode (code : UInt32) (details : String) : FileFault :=
  if code = 2 then .notFound
  else if code = 20 then .notDirectory
  else if code = 21 then .isDirectory
  else .other (details ++ " (os error " ++ toString code ++ ")")

/-- Why the system refused. -/
def faultOf : IO.Error → FileFault
  | .noFileOrDirectory _ code details | .noSuchThing _ code details
  | .inappropriateType _ code details | .permissionDenied _ code details
  | .invalidArgument _ code details | .resourceExhausted _ code details
  | .alreadyExists _ code details | .interrupted _ code details
  | .resourceBusy code details | .unsupportedOperation code details
  | .hardwareFault code details | .otherError code details => faultOfCode code details
  | error => .other (toString error)

/-- Runs an action on the system that may be refused. -/
def attempt {α : Type} (action : IO α) : IO (Except FileFault α) := do
  try return .ok (← action)
  catch error => return .error (faultOf error)

def textOf (bytes : ByteArray) : Except FileFault String :=
  match String.fromUTF8? bytes with
  | some text => .ok text
  | none => .error .notText

/-- The place in the file system that a path leads to. -/
def place (path : String) :=
  (IO.FS.DirEntry.mk path "").root

/-- The files of the system. -/
def files : Command.Files IO where
  isDirectory path := (place path).isDir
  fileNames path := do
    match ← attempt (place path).readDir with
    | .error _ => return []
    | .ok entries =>
      let found ← entries.toList.filterM fun entry => do
        match ← attempt entry.path.metadata with
        | .ok data => return data.type == .file
        | .error _ => return false
      return found.map (·.fileName)
  read path := return (← attempt (IO.FS.readBinFile path)).bind textOf
  write path text := attempt (IO.FS.writeFile path text)
  standardInput := do
    return (← attempt do (← IO.getStdin).readBinToEnd).bind textOf

end TypeGraph.Main

open TypeGraph in
def main (arguments : List String) : IO UInt32 := do
  let output ← IO.getStdout
  let errors ← IO.getStderr
  let onTerminal := (← output.isTty) && (← errors.isTty)
  let o ← Command.runProgram Main.files Log.Area.name (← IO.getEnv "RUST_LOG") onTerminal arguments
  errors.putStr o.errors
  output.putStr o.output
  output.flush
  return o.code.toUInt32

import TypeGraph.Diagnostic
import TypeGraph.Log
/-!
What can go wrong with registration, output and files, and how it is told.
-/

namespace TypeGraph

/-- Why a file or a stream cannot be used. -/
inductive FileFault where
  | notFound
  | notDirectory
  | isDirectory
  | notText
  /-- The receiver takes no more bytes. -/
  | full
  | other (message : String)
  deriving DecidableEq, Repr, Inhabited

def FileFault.message : FileFault → String
  | notFound => "No such file or directory (os error 2)"
  | notDirectory => "Not a directory (os error 20)"
  | isDirectory => "Is a directory (os error 21)"
  | notText => "stream did not contain valid UTF-8"
  | full => "failed to write whole buffer"
  | other message => message

inductive Failure where
  /-- The id is not in the type set. -/
  | unknownType (id : TypeId)
  /-- The type has no name of its own and none was given. -/
  | unnamedType (id : TypeId)
  /-- A member refers to an id that is not in the type set. -/
  | dangling (id : TypeId)
  /-- The assembler could not write its text. -/
  | format
  | write (fault : FileFault)
  | file (path : String) (fault : FileFault)
  /-- The schema has errors. -/
  | schema (diagnostics : List Diagnostic)
  deriving DecidableEq, Repr, Inhabited

def Failure.message : Failure → String
  | unknownType id => "type " ++ typeLabel id ++ " is not part of this type set"
  | unnamedType id => "type " ++ typeLabel id ++ " has no name, a display name is required"
  | dangling id => "type " ++ typeLabel id ++ " is not part of this type set"
  | format => "failed to format output"
  | write fault => "failed to write output: " ++ fault.message
  | file path fault => "failed to write '" ++ path ++ "': " ++ fault.message
  | schema diagnostics =>
    "schema has " ++ toString (Diagnostic.errorCount diagnostics) ++ " errors"

end TypeGraph

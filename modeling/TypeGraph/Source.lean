/-!
The texts that schemas are read from.
-/

namespace TypeGraph

/-- The place of a source among the sources of a schema. -/
abbrev SourceId := Nat

/-- A stretch of text in bytes, from `start` to before `stop`. -/
structure Span where
  start : Nat
  stop : Nat
  deriving DecidableEq, Repr, Inhabited

inductive SourceKind where
  /-- Text that was given directly. -/
  | inline
  | standardInput
  | file (path : String)
  deriving DecidableEq, Repr, Inhabited

/-- The name under which messages point to a source. -/
def SourceKind.displayName : SourceKind → String
  | inline => "<schema>"
  | standardInput => "<stdin>"
  | file path => path

structure Source where
  kind : SourceKind
  text : String
  deriving DecidableEq, Repr, Inhabited

end TypeGraph

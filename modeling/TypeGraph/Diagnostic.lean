import TypeGraph.Source
/-!
Messages about a schema. Every kind has a severity, a wording and sometimes a hint; a collection of
diagnostics is filtered so that a broken source does not drown in follow-up errors.
-/

namespace TypeGraph

inductive Severity where
  | error
  | warning
  deriving DecidableEq, Repr, Inhabited

def Severity.label : Severity → String
  | error => "error"
  | warning => "warning"

namespace Diagnostic

inductive Kind where
  | unexpectedCharacter
  | unclosedBlock
  | expectedName
  | expectedType
  | expectedLiteral
  | expectedToken
  | unexpectedToken
  | unknownAttribute
  | duplicatePackage
  | duplicateDefinition
  | duplicateMember
  | undefinedReference
  | ambiguousReference
  | aliasCycle
  | invalidEnumBase
  | literalKindMismatch
  | emptyEnum
  deriving DecidableEq, Repr, Inhabited

namespace Kind

def severity : Kind → Severity
  | emptyEnum => .warning
  | _ => .error

/-- Whether the text itself is at fault, rather than what it says. -/
def isSyntactic : Kind → Bool
  | unexpectedCharacter | unclosedBlock | expectedName | expectedType | expectedLiteral
  | expectedToken | unexpectedToken | unknownAttribute | duplicatePackage => true
  | _ => false

def hint? : Kind → Option String
  | unknownAttribute => some "known attributes: `@skip`, `@optional`, `@rename(\"name\")`"
  | invalidEnumBase => some "enums are backed by `int`, `uint`, `float` or `string`"
  | ambiguousReference => some "qualify the name with its package, e.g. `models.User`"
  | emptyEnum => some "an enum without variants is inlined as its base type"
  | _ => none

/-- The message where there is nothing to add. -/
def summary : Kind → String
  | unexpectedCharacter => "unexpected character"
  | unclosedBlock => "missing closing `\x7d`"
  | expectedName => "expected a name"
  | expectedType => "expected a type"
  | expectedLiteral => "expected a literal"
  | expectedToken => "expected token"
  | unexpectedToken => "unexpected token"
  | unknownAttribute => "unknown attribute"
  | duplicatePackage => "package is already declared"
  | duplicateDefinition => "duplicate definition"
  | duplicateMember => "duplicate member"
  | undefinedReference => "undefined reference"
  | ambiguousReference => "ambiguous reference"
  | aliasCycle => "alias refers to itself"
  | invalidEnumBase => "invalid enum base type"
  | literalKindMismatch => "literal does not fit the enum base type"
  | emptyEnum => "enum has no variants"

/-- The message around a detail. -/
def messageWith (kind : Kind) (detail : String) : String :=
  match kind with
  | expectedToken => "expected " ++ detail
  | duplicateDefinition => "`" ++ detail ++ "` is already defined"
  | duplicateMember => "member `" ++ detail ++ "` is already defined"
  | undefinedReference => "`" ++ detail ++ "` is not defined"
  | ambiguousReference => "`" ++ detail ++ "` is defined in more than one package"
  | aliasCycle => "alias `" ++ detail ++ "` refers to itself"
  | unknownAttribute => "unknown attribute `@" ++ detail ++ "`"
  | _ => kind.summary ++ ": " ++ detail

def message (kind : Kind) (detail? : Option String) : String :=
  detail?.elim kind.summary kind.messageWith

/-- The message with a placeholder for the detail. -/
def template (kind : Kind) : String :=
  kind.messageWith "\x7b\x7d"

end Kind

/-- Another place that explains a diagnostic. -/
structure Related where
  source : SourceId
  span : Span
  message : String
  deriving DecidableEq, Repr, Inhabited

end Diagnostic

structure Diagnostic where
  kind : Diagnostic.Kind
  source : SourceId
  span : Span
  message : String
  related : List Diagnostic.Related
  hints : List String
  deriving DecidableEq, Repr, Inhabited

namespace Diagnostic

/-- A diagnostic in the wording of its kind, whose own hint comes before `hints`. -/
def make (source : SourceId) (kind : Kind) (span : Span) (detail? : Option String)
    (related : List Related) (hints : List String) : Diagnostic where
  kind
  source
  span
  message := kind.message detail?
  related
  hints := kind.hint?.toList ++ hints

def severity (d : Diagnostic) : Severity :=
  d.kind.severity

def isError (d : Diagnostic) : Bool :=
  d.severity == .error

def isWarning (d : Diagnostic) : Bool :=
  d.severity == .warning

def errorCount (ds : List Diagnostic) : Nat :=
  ds.countP (·.isError)

def warningCount (ds : List Diagnostic) : Nat :=
  ds.countP (·.isWarning)

def spanText (span : Span) : String :=
  toString span.start ++ ".." ++ toString span.stop

/-- The diagnostic on one line, without its source. -/
def text (d : Diagnostic) : String :=
  d.severity.label ++ " at " ++ spanText d.span ++ ": " ++ d.message ++
    String.join (d.related.map fun r =>
      " (related: " ++ r.message ++ " at " ++ spanText r.span ++ ")") ++
    String.join (d.hints.map fun h => " (hint: " ++ h ++ ")")

/-- Whether the syntax of `source` is at fault somewhere. -/
def isBroken (ds : List Diagnostic) (source : SourceId) : Bool :=
  ds.any fun d => d.kind.isSyntactic && d.source == source

/-- Keeps, of every source with syntax errors, only those: what a broken text seems to say is noise
until its syntax is mended. -/
def filtered (ds : List Diagnostic) : List Diagnostic :=
  ds.filter fun d => d.kind.isSyntactic || !isBroken ds d.source

end Diagnostic

end TypeGraph

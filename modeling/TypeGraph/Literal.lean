import TypeGraph.Number.Decimal
import TypeGraph.Scalar
/-!
Literal values of enumerated constants.
-/

namespace TypeGraph

inductive Literal where
  | string (value : String)
  | int (value : Int64)
  | uint (value : UInt64)
  | float (value : Binary64)
  deriving DecidableEq, Inhabited

namespace Literal

/-- Whether the literal can be a value of `kind`. -/
def fits : Literal → Scalar → Bool
  | .string _, kind => kind == .string
  | .int value, kind => kind == .int || kind == .float || (kind == .uint && 0 ≤ value)
  | .uint _, kind => kind.isNumeric
  | .float _, kind => kind == .float

end Literal

end TypeGraph

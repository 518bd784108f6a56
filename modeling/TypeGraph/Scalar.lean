/-!
The built-in scalar kinds and their keywords.
-/

namespace TypeGraph

inductive Scalar where
  | bool
  | int
  | uint
  | float
  | string
  | time
  | any
  deriving DecidableEq, Repr, Inhabited

namespace Scalar

/-- All kinds, in the order in which a type set holds them. -/
def all : List Scalar :=
  [bool, int, uint, float, string, time, any]

def keyword : Scalar → String
  | bool => "bool"
  | int => "int"
  | uint => "uint"
  | float => "float"
  | string => "string"
  | time => "time"
  | any => "any"

def ofKeyword? (word : String) : Option Scalar :=
  all.find? (·.keyword = word)

/-- The name under which a kind is stored in data files. -/
def storedName : Scalar → String
  | bool => "bool"
  | int => "int"
  | uint => "u_int"
  | float => "float"
  | string => "string"
  | time => "date_time"
  | any => "any"

/-- The name under which a kind appears in log messages. -/
def label : Scalar → String
  | bool => "Bool"
  | int => "Int"
  | uint => "UInt"
  | float => "Float"
  | string => "String"
  | time => "DateTime"
  | any => "Any"

def isNumeric : Scalar → Bool
  | int | uint | float => true
  | _ => false

/-- Whether a named type of this kind may carry constants. -/
def enumerable (kind : Scalar) : Bool :=
  kind.isNumeric || kind == string

@[simp] theorem ofKeyword?_keyword (kind : Scalar) : ofKeyword? kind.keyword = some kind := by
  cases kind <;> decide

theorem keyword_of_ofKeyword? {word : String} {kind : Scalar} (h : ofKeyword? word = some kind) :
    kind.keyword = word := by
  simpa using List.find?_some h

end Scalar

end TypeGraph

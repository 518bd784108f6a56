import TypeGraph.Number.Binary64
/-!
Decimal text of floating-point values: reading it, the fewest digits that read back, and the two
layouts in which they are written.
-/

namespace TypeGraph

/-- `digits * 10 ^ exponent`. -/
structure Decimal where
  digits : Nat
  exponent : Int
  deriving DecidableEq, Repr

namespace Decimal

/-- Which of two candidates at equal distance is taken. -/
inductive Tie where
  | away
  | even
  deriving DecidableEq, Repr

/-- Drops the zeros at the end; `fuel` bounds their number. -/
def stripZeros : Nat → Decimal → Decimal
  | 0, d => d
  | fuel + 1, d =>
    if d.digits ≠ 0 ∧ d.digits % 10 = 0 then stripZeros fuel ⟨d.digits / 10, d.exponent + 1⟩ else d

/-- The least `k` with `num / den < 10 ^ k`, for a positive quotient. -/
def magnitude (num den : Nat) : Int :=
  if den ≤ num then (Nat.toDigits 10 (num / den)).length
  else 1 - ((Nat.toDigits 10 ((den - 1) / num)).length : Int)

/-- A positive value in quarters of its last place, with the bounds of the numbers that round to
it: all are integers times `2 ^ scale`. -/
structure Interval where
  low : Nat
  value : Nat
  high : Nat
  scale : Int
  closed : Bool

/-- Below a power of two the neighbour is only half as far away. -/
def intervalOf (m : Nat) (q : Int) : Interval where
  low := if m = Nat.pow 2 52 ∧ Binary64.minExponent < q then 4 * m - 1 else 4 * m - 2
  value := 4 * m
  high := 4 * m + 2
  scale := q - 2
  closed := m % 2 == 0

/-- The candidate with the unit `10 ^ place` that lies in the interval and nearest to its value. -/
def Interval.nearest? (i : Interval) (tie : Tie) (place : Int) : Option Nat :=
  let unit := Nat.pow 10 place.toNat * Nat.pow 2 (-i.scale).toNat
  let ulp := Nat.pow 2 i.scale.toNat * Nat.pow 10 (-place).toNat
  let below := i.value * ulp / unit
  let inside (c : Nat) : Bool :=
    if i.closed then i.low * ulp ≤ c * unit && c * unit ≤ i.high * ulp
    else i.low * ulp < c * unit && c * unit < i.high * ulp
  match inside below, inside (below + 1) with
  | false, false => none
  | true, false => some below
  | false, true => some (below + 1)
  | true, true =>
    let down := i.value * ulp - below * unit
    let up := (below + 1) * unit - i.value * ulp
    if down < up then some below
    else if up < down then some (below + 1)
    else match tie with
      | .away => some (below + 1)
      | .even => some (below + below % 2)

/-- The fewest digits that read back as `m * 2 ^ q`; seventeen always do. -/
def shortest (tie : Tie) (m : Nat) (q : Int) : Decimal :=
  let interval := intervalOf m q
  let top := magnitude (m * Nat.pow 2 q.toNat) (Nat.pow 2 (-q).toNat)
  let found := (List.range 17).findSome? fun (n : Nat) =>
    let place := top - (n + 1)
    (interval.nearest? tie place).map (Decimal.mk · place)
  stripZeros 20 (found.getD ⟨0, 0⟩)

def zeros (n : Nat) : String :=
  String.ofList (List.replicate n '0')

def digitText (n : Nat) : String :=
  String.ofList (Nat.toDigits 10 n)

/-- The number written out in full, without an exponent. `fraction` stands after a whole number. -/
def positional (d : Decimal) (fraction : String) : String :=
  let text := Nat.toDigits 10 d.digits
  let point := (text.length : Int) + d.exponent
  if 0 ≤ d.exponent then String.ofList text ++ zeros d.exponent.toNat ++ fraction
  else if 0 < point then
    String.ofList (text.take point.toNat) ++ "." ++ String.ofList (text.drop point.toNat)
  else "0." ++ zeros (-point).toNat ++ String.ofList text

/-- The number with one digit before the point and the power of ten after `e`. -/
def scientific (d : Decimal) : String :=
  let text := Nat.toDigits 10 d.digits
  let power := (text.length : Int) + d.exponent - 1
  let mantissa := match text with
    | first :: [] => String.ofList [first]
    | first :: rest => String.ofList [first] ++ "." ++ String.ofList rest
    | [] => ""
  mantissa ++ "e" ++ (if power < 0 then "-" else "+") ++ digitText power.natAbs

def digitsValue (cs : List Char) : Nat :=
  cs.foldl (fun n c => 10 * n + (c.toNat - '0'.toNat)) 0

/-- Splits off a sign; `true` is minus. -/
def splitSign : List Char → Bool × List Char
  | '-' :: cs => (true, cs)
  | '+' :: cs => (false, cs)
  | cs => (false, cs)

end Decimal

namespace Binary64

def signText (negative : Bool) : String :=
  if negative then "-" else ""

/-- The text of a value in source code and messages: never an exponent, and nothing after a whole
number. -/
def text : Binary64 → String
  | .nan => "NaN"
  | .infinite negative => signText negative ++ "inf"
  | .finite negative 0 _ => signText negative ++ "0"
  | .finite negative m q => signText negative ++ (Decimal.shortest .away m q).positional ""

/-- The text of a value in data files, with a fraction or an exponent; infinities and NaN have
none. Numbers from `1e-5` to below `1e16` are written out. -/
def dataText? : Binary64 → Option String
  | .nan => none
  | .infinite _ => none
  | .finite negative 0 _ => some (signText negative ++ "0.0")
  | .finite negative m q =>
    let d := Decimal.shortest .even m q
    let power := ((Nat.toDigits 10 d.digits).length : Int) + d.exponent - 1
    let body := if -5 ≤ power && power ≤ 15 then d.positional ".0" else d.scientific
    some (signText negative ++ body)

/-- The value of an exponent part, from its mark on; `0` where there is none. -/
def exponentValue? : List Char → Option Int
  | [] => some 0
  | mark :: cs =>
    if mark = 'e' ∨ mark = 'E' then
      let (negative, digits) := Decimal.splitSign cs
      if digits ≠ [] ∧ digits.all Char.isDigit then
        let n : Int := Decimal.digitsValue digits
        some (if negative then -n else n)
      else none
    else none

/-- Digits with an optional point and an optional exponent. -/
def unsigned? (negative : Bool) (cs : List Char) : Option Binary64 :=
  let whole := cs.takeWhile Char.isDigit
  let rest := cs.dropWhile Char.isDigit
  let (fraction, rest) := match rest with
    | '.' :: r => (r.takeWhile Char.isDigit, r.dropWhile Char.isDigit)
    | _ => ([], rest)
  if whole = [] ∧ fraction = [] then none
  else (exponentValue? rest).map fun e =>
    ofDecimal negative (Decimal.digitsValue (whole ++ fraction)) (e - fraction.length)

/-- Reads a decimal number, `inf`, `infinity` or `nan`, in either case and with an optional sign. -/
def ofText? (s : String) : Option Binary64 :=
  let (negative, cs) := Decimal.splitSign s.toList
  let word := String.ofList (cs.map Char.toLower)
  if word = "inf" ∨ word = "infinity" then some (.infinite negative)
  else if word = "nan" then some .nan
  else unsigned? negative cs

end Binary64

end TypeGraph

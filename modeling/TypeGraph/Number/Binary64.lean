/-!
Binary floating-point values of 64 bits, as exact numbers, and the rounding of a quotient to the
nearest of them.
-/

namespace TypeGraph

/-- `finite negative m q` is `m * 2 ^ q` with a sign. Values that `ofRatio` makes have
`2 ^ 52 ≤ m < 2 ^ 53`, or `q = -1074` and a smaller `m`. -/
inductive Binary64 where
  | finite (negative : Bool) (m : Nat) (q : Int)
  | infinite (negative : Bool)
  | nan
  deriving DecidableEq, Repr, Inhabited

namespace Binary64

/-- The least exponent. -/
def minExponent : Int := -1074

/-- The greatest exponent. -/
def maxExponent : Int := 971

def zero (negative : Bool) : Binary64 :=
  .finite negative 0 minExponent

/-- The quotient rounded to the nearest integer, halves to the even one. -/
def roundQuotient (num den : Nat) : Nat :=
  let whole := num / den
  let twice := 2 * (num % den)
  if twice < den then whole
  else if den < twice then whole + 1
  else whole + whole % 2

/-- `num / den / 2 ^ q` as a quotient. -/
def scaled (num den : Nat) (q : Int) : Nat × Nat :=
  (num * Nat.pow 2 (-q).toNat, den * Nat.pow 2 q.toNat)

/-- The exponent at which the quotient has 53 bits, or the least one. -/
def exponentFor (num den : Nat) : Int :=
  let low := max minExponent ((num.log2 : Int) - den.log2 - 53)
  let (n, d) := scaled num den low
  if Nat.pow 2 53 ≤ n / d then low + 1 else low

/-- The value nearest to `num / den`, of two the one with even `m`. -/
def ofRatio (negative : Bool) (num den : Nat) : Binary64 :=
  if num = 0 then zero negative
  else
    let q := exponentFor num den
    let (n, d) := scaled num den q
    let m := roundQuotient n d
    let (m, q) := if m = Nat.pow 2 53 then (Nat.pow 2 52, q + 1) else (m, q)
    if maxExponent < q then .infinite negative else .finite negative m q

/-- The value nearest to `digits * 10 ^ exponent`. Far outside the range of finite values the power
itself is not computed. -/
def ofDecimal (negative : Bool) (digits : Nat) (exponent : Int) : Binary64 :=
  if digits = 0 then zero negative
  else
    let magnitude := ((Nat.toDigits 10 digits).length : Int) + exponent
    if 400 < magnitude then .infinite negative
    else if magnitude < -400 then zero negative
    else ofRatio negative (digits * Nat.pow 10 exponent.toNat) (Nat.pow 10 (-exponent).toNat)

end Binary64

end TypeGraph

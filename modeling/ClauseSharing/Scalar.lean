/-!
The arithmetic that estimates, scores and budgets are computed in.

Everything numeric in this library is written once, over a type of scalars. Two types of scalars
are of interest: doubles, in which the library runs, and exact fractions, in which its laws are
stated. No law is asked of a scalar type here, since doubles have few; a statement that holds of
every scalar type holds bit for bit of doubles.
-/

namespace ClauseSharing

/-- A type of numbers to estimate with. -/
class Scalar (K : Type) extends Add K, Sub K, Mul K, Div K where
  /-- The scalar nearest to a whole number. -/
  ofInt : Int → K
  /-- The start of a sum: the neutral element of addition. Doubles have two zeros, and only the
  negative one is neutral. -/
  emptySum : K
  /-- Equality as numbers. What is not a number differs from itself. -/
  eq : K → K → Bool
  /-- The strict order as numbers. -/
  lt : K → K → Bool
  /-- The order as numbers. -/
  le : K → K → Bool
  /-- A total order of all scalars, the same as `lt` on different numbers. -/
  order : K → K → Ordering
  /-- Whether the scalar is a number on the line. -/
  isFinite : K → Bool
  /-- Whether the scalar is less than positive infinity. -/
  belowInfinity : K → Bool
  abs : K → K
  /-- A power with any whole exponent. -/
  pow : K → Int → K
  /-- The decimal text of the scalar in reports. -/
  text : K → String

namespace Scalar

variable {K : Type} [Scalar K]

def ofNat (n : Nat) : K := ofInt n

def zero : K := ofInt 0

def one : K := ofInt 1

/-- The share of a hundred. -/
def percent (n : Nat) : K := ofNat n / ofNat 100

def sum (xs : List K) : K := xs.foldl (· + ·) emptySum

def product (xs : List K) : K := xs.foldl (· * ·) one

/-- The larger scalar. A number wins over what is none. -/
def larger (x y : K) : K := if !eq x x || lt x y then y else x

/-- The smaller scalar. A number wins over what is none. -/
def smaller (x y : K) : K := if !eq x x || lt y x then y else x

/-- The scalar moved into `[0, 1]`. What is no number becomes zero. -/
def clampUnit (x : K) : K := smaller (larger x zero) one

/-- Multiplies `result` by the `n`-th power of `base`, by repeated squaring. -/
def mulPow (result base : K) (n : Nat) : K :=
  let result := if n % 2 = 1 then result * base else result
  if n / 2 = 0 then result else mulPow result (base * base) (n / 2)
termination_by n
decreasing_by omega

/-- A power whose exponent has 32 bits, by repeated squaring. -/
def smallPow (base : K) (n : Int) : K :=
  let power := mulPow one base n.natAbs
  if n < 0 then one / power else power

/-- Whether a whole number fits into 32 bits with a sign. -/
def fitsWord32 (n : Int) : Bool := -0x80000000 ≤ n && n < 0x80000000

/-- What remains of a weight after `n` steps that each take away the share `alpha`:
`(1 - alpha) ^ n`. -/
def retained (alpha : K) (n : Int) : K :=
  if fitsWord32 n then smallPow (one - alpha) n else pow (one - alpha) n

/-- Whether the scalar is a decay rate: above zero and at most one. -/
def isDecayRate (alpha : K) : Bool := lt zero alpha && le alpha one

end Scalar

end ClauseSharing

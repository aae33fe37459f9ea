import ClauseSharing.Proofs.Scalar.Exact

/-!
Fractions whose divisions are checked.

Dividing by zero leaves no number here, and what is computed from no number is none. A computation
that gives the same number as on plain fractions has therefore not divided by zero on the way.
-/

namespace ClauseSharing

/-- A fraction, or what is left when a division by zero has happened. -/
inductive Checked where
  | number (x : Rat)
  | undefined
deriving DecidableEq

namespace Checked

/-- An operation that is defined on all fractions. -/
def lift (f : Rat → Rat → Rat) : Checked → Checked → Checked
  | number x, number y => number (f x y)
  | _, _ => undefined

def divide : Checked → Checked → Checked
  | number x, number y => if y = 0 then undefined else number (x / y)
  | _, _ => undefined

/-- A comparison of fractions. What is no number compares with nothing. -/
def compares (f : Rat → Rat → Bool) : Checked → Checked → Bool
  | number x, number y => f x y
  | _, _ => false

/-- What is no number comes after all fractions. -/
def order : Checked → Checked → Ordering
  | number x, number y => Scalar.order x y
  | number _, undefined => .lt
  | undefined, number _ => .gt
  | undefined, undefined => .eq

/-- Negative powers of zero are divisions by zero. -/
def power : Checked → Int → Checked
  | number x, n => if x = 0 ∧ n < 0 then undefined else number (Scalar.pow x n)
  | undefined, _ => undefined

def isNumber : Checked → Bool
  | number _ => true
  | undefined => false

end Checked

instance : Scalar Checked where
  add := Checked.lift (· + ·)
  sub := Checked.lift (· - ·)
  mul := Checked.lift (· * ·)
  div := Checked.divide
  ofInt n := .number n
  emptySum := .number 0
  eq := Checked.compares Scalar.eq
  lt := Checked.compares Scalar.lt
  le := Checked.compares Scalar.le
  order := Checked.order
  isFinite := Checked.isNumber
  belowInfinity := Checked.isNumber
  abs
    | .number x => .number (Scalar.abs x)
    | .undefined => .undefined
  pow := Checked.power
  text
    | .number x => Scalar.text x
    | .undefined => "undefined"

namespace Checked

@[simp] theorem number_add (x y : Rat) : number x + number y = number (x + y) := rfl

@[simp] theorem number_sub (x y : Rat) : number x - number y = number (x - y) := rfl

@[simp] theorem number_mul (x y : Rat) : number x * number y = number (x * y) := rfl

theorem number_div {y : Rat} (hy : y ≠ 0) (x : Rat) : number x / number y = number (x / y) := by
  show (if y = 0 then undefined else number (x / y)) = _
  exact if_neg hy

@[simp] theorem ofInt_eq (n : Int) : (Scalar.ofInt n : Checked) = number n := rfl

@[simp] theorem zero_eq : (Scalar.zero : Checked) = number 0 := rfl

@[simp] theorem one_eq : (Scalar.one : Checked) = number 1 := rfl

@[simp] theorem eq_number (x y : Rat) : Scalar.eq (number x) (number y) = decide (x = y) := rfl

/-- Powers are made of products only. -/
theorem mulPow_number (result base : Rat) (n : Nat) :
    Scalar.mulPow (number result) (number base) n = number (Scalar.mulPow result base n) := by
  induction n using Nat.strongRecOn generalizing result base with
  | ind n ih =>
    have hfirst : (if n % 2 = 1 then number result * number base else number result) =
        number (if n % 2 = 1 then result * base else result) := by
      split <;> rfl
    unfold Scalar.mulPow
    rw [hfirst]
    dsimp only
    split
    · rfl
    · exact ih (n / 2) (by omega) _ _

/-- The decay of a weight divides nothing. -/
theorem retained_number (alpha : Rat) (n : Nat) :
    Scalar.retained (number alpha) n = number (Scalar.retained alpha n) := by
  have hnonneg : ¬ (n : Int) < 0 := by omega
  unfold Scalar.retained Scalar.smallPow
  split
  · rw [one_eq, number_sub, mulPow_number, Scalar.one_eq]
  · exact if_neg fun h => hnonneg h.2

end Checked

end ClauseSharing

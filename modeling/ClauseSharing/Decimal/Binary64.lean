/-!
What the 64 bits of a double stand for, with exact whole numbers in place of its fraction.
-/

namespace ClauseSharing.Decimal

/-- The value of a double. -/
inductive Binary64 where
  | nan
  | infinite (negative : Bool)
  /-- The number `mantissa * 2 ^ exponent`, with a sign that zero has as well. -/
  | finite (negative : Bool) (mantissa : Nat) (exponent : Int)
deriving DecidableEq, Repr

/-- The least mantissa of a normal double: its leading bit stands above the fifty-two bits of the
fraction and is not stored. -/
def leastNormalMantissa : Nat := 0x10000000000000

/-- Reads a double: one bit of sign, eleven of exponent, fifty-two of fraction. -/
def Binary64.ofBits (bits : UInt64) : Binary64 :=
  let negative : Bool := bits.toNat / leastNormalMantissa / 2048 = 1
  let exponent : Nat := bits.toNat / leastNormalMantissa % 2048
  let fraction : Nat := bits.toNat % leastNormalMantissa
  if exponent = 2047 then
    if fraction = 0 then .infinite negative else .nan
  else if exponent = 0 then .finite negative fraction (-1074)
  else .finite negative (leastNormalMantissa + fraction) (exponent - 1075)

def Binary64.ofFloat (x : Float) : Binary64 := ofBits x.toBits

example : Binary64.ofBits 0x3ff8000000000000 = .finite false 0x18000000000000 (-52) := by decide
example : Binary64.ofBits 0x8000000000000000 = .finite true 0 (-1074) := by decide
example : Binary64.ofBits 0xfff0000000000000 = .infinite true := by decide

end ClauseSharing.Decimal

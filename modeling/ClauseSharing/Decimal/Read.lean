/-!
Reading a double from its decimal text.
-/

namespace ClauseSharing.Decimal

/-- The value of a text of digits, of which there must be one. -/
def digits? (cs : List Char) : Option Nat :=
  if cs.isEmpty || !cs.all Char.isDigit then none
  else some (cs.foldl (fun n c => 10 * n + (c.toNat - '0'.toNat)) 0)

/-- The value of a whole number that may have a plus sign. -/
def natural? : List Char → Option Nat
  | '+' :: cs => digits? cs
  | cs => digits? cs

/-- The value of a whole number that may have a sign. -/
def integer? : List Char → Option Int
  | '-' :: cs => (digits? cs).map fun n => -(n : Int)
  | cs => (natural? cs).map fun n => (n : Int)

/-- The double nearest to `mantissa * 10 ^ exponent`. The power is only computed where the result
may be a positive double: everything from `10 ^ 309` on is infinite, and what lies below `10 ^
(-399)` is zero. -/
def scaled (mantissa : Nat) (exponent : Int) : Float :=
  if mantissa = 0 ∨ exponent + mantissa.log2 < -400 then 0.0
  else if 308 < exponent then 1.0 / 0.0
  else Float.ofScientific mantissa (exponent < 0) exponent.natAbs

/-- The double nearest to a decimal without sign: digits with a point among them, and an exponent.
-/
def unsigned? (cs : List Char) : Option Float := do
  let mantissa := cs.takeWhile fun c => c != 'e' && c != 'E'
  let exponent ← match cs.drop mantissa.length with
    | [] => some 0
    | _ :: exponent => integer? exponent
  let whole := mantissa.takeWhile (· != '.')
  let places := (mantissa.drop whole.length).drop 1
  let value ← digits? (whole ++ places)
  return scaled value (exponent - places.length)

/-- The value of a word that stands for a value that has no digits. -/
def word? (cs : List Char) : Option Float :=
  match String.ofList (cs.map Char.toLower) with
  | "nan" => some (0.0 / 0.0)
  | "inf" | "infinity" => some (1.0 / 0.0)
  | _ => none

/-- The double nearest to a decimal text. -/
def read? (text : String) : Option Float :=
  match text.toList with
  | '-' :: cs => (word? cs <|> unsigned? cs).map fun x => -x
  | '+' :: cs => word? cs <|> unsigned? cs
  | cs => word? cs <|> unsigned? cs

end ClauseSharing.Decimal

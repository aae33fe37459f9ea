/-!
How chosen digits are laid out: positionally, with a point where there are places.
-/

namespace ClauseSharing.Decimal

def nanText : String := "NaN"

def infinityText : String := "inf"

def signed (negative : Bool) (text : String) : String :=
  if negative then "-" ++ text else text

/-- A number counted in units of the last of a positive number of places. -/
def withPlaces (places units : Nat) : String :=
  let text := toString units
  let padded := List.replicate (places + 1 - text.length) '0' ++ text.toList
  String.ofList (padded.take (padded.length - places)) ++ "." ++
    String.ofList (padded.drop (padded.length - places))

/-- The text of `digits * 10 ^ power`, never with an exponent. A whole number has no point. -/
def positional (digits : Nat) (power : Int) : String :=
  if 0 ≤ power then toString digits ++ String.ofList (List.replicate power.toNat '0')
  else withPlaces (-power).toNat digits

end ClauseSharing.Decimal

import ClauseSharing.Scalar.Double
import ClauseSharing.Scalar.Rational

/-!
The total order of scalars is one, and it agrees with the strict order as numbers.

`Scalar.LawfulOrder` asks that the total order is transitive, that it tells different scalars apart,
and that the smaller of two numbers comes first in it. Fractions and doubles are ordered so.

For doubles this is a fact about their bits. A double is unpacked into a sign, an exponent and a
mantissa (`Double.Unpacks`). Without the sign, the bits of a double count the doubles from zero up
to infinity, so that a place in the total order can be read off the unpacked double
(`Double.Unpacks.place_eq`), and a smaller number has a smaller place (`Double.place_lt`).
-/

namespace ClauseSharing

open Std (OrientedCmp TransCmp TransOrd)

/-- The total order of the scalars is transitive, tells different scalars apart, and agrees with
the strict order as numbers. -/
class Scalar.LawfulOrder (K : Type) [Scalar K] : Prop extends
    TransCmp (Scalar.order : K → K → Ordering) where
  eq_of_order {x y : K} : Scalar.order x y = .eq → x = y
  order_of_lt {x y : K} : Scalar.lt x y = true → Scalar.order x y = .lt

/-- Comparing images keeps a comparison lawful. -/
theorem transCmp_on {α β : Type} (cmp : β → β → Ordering) [TransCmp cmp] (f : α → β) :
    TransCmp fun a b => cmp (f a) (f b) where
  eq_swap := OrientedCmp.eq_swap
  isLE_trans := TransCmp.isLE_trans

/-! ## Fractions -/

instance : TransCmp (Scalar.order : Rat → Rat → Ordering) :=
  TransOrd.compareOfLessAndEq_of_antisymm_of_trans_of_total_of_not_le
    Rat.le_antisymm Rat.le_trans (fun _ _ => Rat.le_total) Rat.not_le

instance : Scalar.LawfulOrder Rat where
  eq_of_order {x y} h := by
    simp only [Scalar.order] at h
    split at h
    · cases h
    split at h
    · assumption
    · cases h
  order_of_lt h := if_pos (of_decide_eq_true h)

/-! ## Unpacked doubles -/

namespace Double

open Float.Model (UnpackedFloat Format)
open Float.Model.UnpackedFloat

/-- The place of a double in the total order, by its sign and its bits without the sign. The
negative zero comes right before the positive one. -/
def signed : Sign → Int → Int
  | .positive, bits => bits
  | .negative, bits => -1 - bits

/-- The place of an unpacked double in the total order. -/
def place : UnpackedFloat → Int
  | .infinity s => signed s 0x7ff0000000000000
  | .notANumber => 0x7ff8000000000000
  | .zero s => signed s 0
  | .finite s mantissa exponent _ => signed s ((exponent + 1074) * 0x10000000000000 + mantissa)

/-- Numbers are unpacked with a mantissa of 53 bits, the first of which is set unless the exponent
is the least one. -/
def IsCanonical : UnpackedFloat → Prop
  | .finite _ mantissa exponent _ =>
    mantissa < 0x20000000000000 ∧ exponent ≤ 971 ∧
      (exponent = -1074 ∨ -1074 ≤ exponent ∧ 0x10000000000000 ≤ mantissa)
  | _ => True

theorem compare_then_eq_lt {e₁ e₂ : Int} {m₁ m₂ : Nat} :
    (compare e₁ e₂).then (compare m₁ m₂) = .lt ↔ e₁ < e₂ ∨ e₁ = e₂ ∧ m₁ < m₂ := by
  rw [Ordering.then_eq_lt, Int.compare_eq_lt, Int.compare_eq_eq, Nat.compare_eq_lt]

theorem compare_then_eq_gt {e₁ e₂ : Int} {m₁ m₂ : Nat} :
    (compare e₁ e₂).then (compare m₁ m₂) = .gt ↔ e₂ < e₁ ∨ e₁ = e₂ ∧ m₂ < m₁ := by
  rw [Ordering.then_eq_gt, Int.compare_eq_gt, Int.compare_eq_eq, Nat.compare_eq_gt]

/-- A smaller number has a smaller place: a larger exponent outweighs any mantissa. -/
theorem place_lt {a b : UnpackedFloat} (ha : IsCanonical a) (hb : IsCanonical b)
    (hlt : a.lt b = true) : place a < place b := by
  rw [UnpackedFloat.lt, beq_iff_eq] at hlt
  -- For two numbers of one sign this compares exponents, then mantissas; the rest is settled by
  -- signs and kinds.
  rcases a with ⟨_ | _⟩ | _ | ⟨_ | _⟩ | ⟨_ | _, m₁, e₁, hm₁⟩ <;>
    rcases b with ⟨_ | _⟩ | _ | ⟨_ | _⟩ | ⟨_ | _, m₂, e₂, hm₂⟩ <;>
    dsimp only [UnpackedFloat.compare, IsCanonical, place, signed] at * <;>
    simp only [Option.some.injEq, reduceCtorEq, Ordering.swap_eq_lt, compare_then_eq_lt,
      compare_then_eq_gt] at * <;>
    omega

/-- Only numbers are smaller than others. -/
theorem numbers_of_lt {a b : UnpackedFloat} (hlt : a.lt b = true) :
    a ≠ .notANumber ∧ b ≠ .notANumber := by
  constructor
  · rintro rfl
    cases hlt
  · rintro rfl
    cases a <;> cases hlt

/-! ## Unpacking -/

/-- What the three fields of a double are unpacked to. -/
inductive Unpacks (s : Sign) (exponent mantissa : Nat) : UnpackedFloat → Prop
  | infinity (hexponent : exponent = 0x7ff) (hmantissa : mantissa = 0) :
      Unpacks s exponent mantissa (.infinity s)
  | notANumber (hexponent : exponent = 0x7ff) : Unpacks s exponent mantissa .notANumber
  | zero (hexponent : exponent = 0) (hmantissa : mantissa = 0) :
      Unpacks s exponent mantissa (.zero s)
  | subnormal {e : Int} (hexponent : exponent = 0) (he : e = -1074) (h : 0 < mantissa) :
      Unpacks s exponent mantissa (.finite s mantissa e h)
  | normal {m : Nat} {e : Int} (hpos : 0 < exponent) (hlt : exponent < 0x7ff)
      (hm : m = 0x10000000000000 + mantissa) (he : e = exponent - 1075) (h : 0 < m) :
      Unpacks s exponent mantissa (.finite s m e h)

variable (b : BitVec Format.binary64.numBits)

theorem toNat_unpackMantissa : (unpackMantissa b).toNat = b.toNat % 0x10000000000000 := by
  simp [unpackMantissa]

theorem toNat_unpackExponent : (unpackExponent b).toNat = b.toNat / 0x10000000000000 % 0x800 := by
  simp [unpackExponent, Nat.shiftRight_eq_div_pow]

theorem toNat_unpackSign : (unpackSign b).toNat = b.toNat / 0x8000000000000000 := by
  have hlt : b.toNat < 0x10000000000000000 := b.isLt
  have hbit : (unpackSign b).toNat = (b.toNat >>> 63) % 2 := BitVec.extractLsb_toNat ..
  rw [hbit, Nat.shiftRight_eq_div_pow]
  omega

/-- A normal number has a leading bit that is not stored. -/
theorem toNat_append_mantissa (m : BitVec 52) : (1#1 ++ m).toNat = 0x10000000000000 + m.toNat := by
  rw [BitVec.toNat_append, ← Nat.shiftLeft_add_eq_or_of_lt m.isLt]
  rfl

theorem unpacks_unpack :
    Unpacks (Sign.ofBitVec (unpackSign b)) (unpackExponent b).toNat (unpackMantissa b).toNat
      (unpack Format.binary64 b) := by
  have hbias : Format.binary64.exponentBias = 1023 := rfl
  have hexponent : (unpackExponent b).toNat < 0x800 := (unpackExponent b).isLt
  unfold unpack
  dsimp only
  by_cases hones : unpackExponent b = -1#_
  · rw [if_pos hones]
    have hlast : (unpackExponent b).toNat = 0x7ff := congrArg BitVec.toNat hones
    by_cases hzero : unpackMantissa b = 0#_
    · rw [if_pos hzero]
      exact .infinity hlast (congrArg BitVec.toNat hzero)
    · rw [if_neg hzero]
      exact .notANumber hlast
  rw [if_neg hones]
  by_cases hnull : unpackExponent b = 0#_
  · rw [if_pos hnull]
    have hfirst : (unpackExponent b).toNat = 0 := congrArg BitVec.toNat hnull
    by_cases hzero : unpackMantissa b = 0#_
    · rw [dif_pos hzero]
      exact .zero hfirst (congrArg BitVec.toNat hzero)
    · rw [dif_neg hzero]
      exact .subnormal hfirst (by omega) _
  · rw [if_neg hnull]
    have hne : (unpackExponent b).toNat ≠ 0x7ff := fun h => hones (BitVec.toNat_inj.mp h)
    have hpos : (unpackExponent b).toNat ≠ 0 := fun h => hnull (BitVec.toNat_inj.mp h)
    exact .normal (by omega) (by omega) (toNat_append_mantissa _) (by omega) _

variable {s : Sign} {exponent mantissa : Nat} {u : UnpackedFloat}

theorem Unpacks.isCanonical (h : Unpacks s exponent mantissa u)
    (hmantissa : mantissa < 0x10000000000000) : IsCanonical u := by
  cases h with
  | infinity | notANumber | zero => trivial
  | subnormal | normal => refine ⟨?_, ?_, ?_⟩ <;> omega

/-- The place of a number is seen from its fields, put one after the other. -/
theorem Unpacks.place_eq (h : Unpacks s exponent mantissa u) (hu : u ≠ .notANumber) :
    place u = signed s (exponent * 0x10000000000000 + mantissa : Nat) := by
  cases h with
  | infinity hexponent hmantissa =>
    rw [hexponent, hmantissa]
    rfl
  | notANumber => exact absurd rfl hu
  | zero hexponent hmantissa =>
    rw [hexponent, hmantissa]
    rfl
  | subnormal hexponent he =>
    refine congrArg (signed s) ?_
    omega
  | normal _ _ hm he =>
    refine congrArg (signed s) ?_
    omega

/-- The place of a double is seen from its fields, put one after the other. -/
theorem exists_unpacks (x : Float) :
    ∃ s exponent mantissa, Unpacks s exponent mantissa x.toModel.unpack ∧
      mantissa < 0x10000000000000 ∧
      doubleRank x = signed s (exponent * 0x10000000000000 + mantissa : Nat) := by
  have hlt : x.toBits.toNat < 0x10000000000000000 := x.toBits.toNat_lt
  let b : BitVec Format.binary64.numBits := x.toBits.toBitVec
  have hmantissa : (unpackMantissa b).toNat = x.toBits.toNat % 0x10000000000000 :=
    toNat_unpackMantissa b
  have hexponent : (unpackExponent b).toNat = x.toBits.toNat / 0x10000000000000 % 0x800 :=
    toNat_unpackExponent b
  have hsign : (unpackSign b).toNat = x.toBits.toNat / 0x8000000000000000 := toNat_unpackSign b
  refine ⟨_, _, _, unpacks_unpack b, (unpackMantissa b).isLt, ?_⟩
  rw [hmantissa, hexponent]
  -- The sign is the first bit, so the other two fields are what is left without it.
  simp only [doubleRank, Sign.ofBitVec, ← BitVec.toNat_inj, hsign, BitVec.toNat_zero]
  split <;> split <;> simp only [signed] <;> omega

end Double

/-! ## Doubles -/

theorem doubleRank_lt {x y : Float} (h : x < y) : doubleRank x < doubleRank y := by
  have hlt : x.toModel.unpack.lt y.toModel.unpack = true := of_decide_eq_true h
  obtain ⟨hx, hy⟩ := Double.numbers_of_lt hlt
  obtain ⟨s, e, m, hunpacks, hm, hrank⟩ := Double.exists_unpacks x
  obtain ⟨s', e', m', hunpacks', hm', hrank'⟩ := Double.exists_unpacks y
  rw [hrank, hrank', ← hunpacks.place_eq hx, ← hunpacks'.place_eq hy]
  exact Double.place_lt (hunpacks.isCanonical hm) (hunpacks'.isCanonical hm') hlt

/-- Doubles with the same place have the same bits. -/
theorem doubleRank_inj {x y : Float} (h : doubleRank x = doubleRank y) : x = y := by
  have hx := x.toBits.toNat_lt
  have hy := y.toBits.toNat_lt
  have hbits : x.toBits.toNat = y.toBits.toNat := by
    simp only [doubleRank] at h
    split at h <;> split at h <;> omega
  rcases x with ⟨⟨bits, hvalid⟩⟩
  rcases y with ⟨⟨bits', hvalid'⟩⟩
  obtain rfl : bits = bits' := UInt64.toNat_inj.mp hbits
  rfl

instance : Scalar.LawfulOrder Float where
  toTransCmp := transCmp_on compare doubleRank
  eq_of_order h := doubleRank_inj (Int.compare_eq_eq.mp h)
  order_of_lt h := Int.compare_eq_lt.mpr (doubleRank_lt (of_decide_eq_true h))

end ClauseSharing

import ClauseSharing.Proofs.Dimacs.NormalForm

/-!
Packed literals as numbers.

A number other than zero stands for one literal. Both conversions are said in terms of the signed
number of a literal, `Literal.toInt`, which determines the literal (`Literal.toInt_inj`) and whose
sign is turned by negation (`Literal.toInt_negate`): `Literal.ofDimacs_eq_ok_iff` for reading a
number, and `Literal.toDimacs_eq_ok_iff` for giving one, which fails for the last variable. In its
32 bits a code is the shifted index with the polarity in the lowest bit (`Literal.code_ofVariable`).

`Literal.packing_is_faithful_and_ordered` collects what follows for numbers, literals and the search
for complementary pairs.
-/

namespace ClauseSharing

namespace Literal

/-! ## The code in its 32 bits -/

theorem code_ofVariable (v : Variable) (positive : Bool) :
    (ofVariable v positive).code = UInt32.ofNat v.index <<< 1 ||| if positive then 0 else 1 := by
  have hindex := v.index_lt
  -- The index has 31 bits, so that none is shifted out.
  have hshift : (UInt32.ofNat v.index <<< 1).toNat = v.index <<< 1 := by
    have hvalue : (UInt32.ofNat v.index).toNat = v.index := by
      rw [UInt32.toNat_ofNat']
      omega
    rw [UInt32.toNat_shiftLeft, hvalue]
    refine Nat.mod_eq_of_lt ?_
    show v.index <<< 1 < 0x100000000
    rw [Nat.shiftLeft_eq]
    omega
  have hsign : (if positive then 0 else 1 : UInt32).toNat = if positive then 0 else 1 := by
    cases positive <;> rfl
  have hbit : (if positive then 0 else 1) < 2 ^ 1 := by cases positive <;> decide
  apply UInt32.toNat_inj.mp
  rw [toNat_code_ofVariable, UInt32.toNat_or, hshift, hsign, ← Nat.shiftLeft_add_eq_or_of_lt hbit,
    Nat.shiftLeft_eq, Nat.mul_comm]

theorem index_var_eq_shiftRight (l : Literal) : l.var.index = (l.code >>> 1).toNat := by
  rw [UInt32.toNat_shiftRight]
  exact (Nat.shiftRight_eq_div_pow _ 1).symm

theorem isPositive_eq_and (l : Literal) : l.isPositive = (l.code &&& 1 == 0) := by
  rw [Bool.eq_iff_iff, isPositive, beq_iff_eq, beq_iff_eq, ← UInt32.toNat_inj, UInt32.toNat_and]
  show _ ↔ l.code.toNat &&& 1 = 0
  rw [Nat.and_one_is_mod]

/-! ## Literals as numbers -/

/-- The literal with the given number, which is not zero. -/
def ofNumber (x : Int32) : Literal :=
  ofVariable ⟨x.toInt.natAbs - 1, natAbs_toInt_sub_one_lt x⟩ (0 < x)

theorem ofDimacs_eq {x : Int32} (hx : x ≠ 0) : ofDimacs x = .ok (ofNumber x) := if_neg hx

theorem toInt_ne_zero {x : Int32} (hx : x ≠ 0) : x.toInt ≠ 0 := fun h => hx (Int32.toInt.inj h)

theorem number_var_ofNumber {x : Int32} (hx : x ≠ 0) :
    (ofNumber x).var.number = x.toInt.natAbs := by
  have hne := toInt_ne_zero hx
  rw [ofNumber, var_ofVariable, Variable.number]
  show x.toInt.natAbs - 1 + 1 = x.toInt.natAbs
  omega

theorem toInt_ofNumber {x : Int32} (hx : x ≠ 0) : (ofNumber x).toInt = x.toInt := by
  have hne := toInt_ne_zero hx
  rw [Literal.toInt, number_var_ofNumber hx, ofNumber, isPositive_ofVariable]
  have hpos : 0 < x ↔ 0 < x.toInt := Int32.lt_iff_toInt_lt
  by_cases h : 0 < x
  · have := hpos.mp h
    simp only [h, decide_true, if_true]
    omega
  · have := hpos.not.mp h
    simp only [h, decide_false, Bool.false_eq_true, if_false]
    omega

theorem natAbs_toInt (l : Literal) : l.toInt.natAbs = l.var.number := by
  unfold Literal.toInt
  split <;> omega

theorem toInt_pos_iff {l : Literal} : 0 < l.toInt ↔ l.isPositive = true := by
  unfold Literal.toInt Variable.number
  split
  · next h => exact ⟨fun _ => h, fun _ => by omega⟩
  · next h => exact ⟨fun hpos => by omega, fun hpos => absurd hpos h⟩

/-- A literal is its number. -/
theorem toInt_inj {l m : Literal} : l.toInt = m.toInt ↔ l = m := by
  refine ⟨fun h => eq_iff.mpr ⟨Variable.ext ?_, Bool.eq_iff_iff.mpr ?_⟩, congrArg _⟩
  · have hnumber : l.var.number = m.var.number := by rw [← natAbs_toInt, h, natAbs_toInt]
    exact Nat.succ.inj hnumber
  · rw [← toInt_pos_iff, h, toInt_pos_iff]

theorem toInt_negate (l : Literal) : l.negate.toInt = -l.toInt := by
  unfold Literal.toInt
  rw [var_negate, isPositive_negate]
  cases l.isPositive <;> simp

theorem ofNumber_inj {x y : Int32} (hx : x ≠ 0) (hy : y ≠ 0) : ofNumber x = ofNumber y ↔ x = y := by
  rw [← toInt_inj, toInt_ofNumber hx, toInt_ofNumber hy, Int32.toInt_inj]

theorem negate_ofNumber {x y : Int32} (hx : x ≠ 0) (hy : y ≠ 0) :
    (ofNumber x).negate = ofNumber y ↔ y.toInt = -x.toInt := by
  rw [← toInt_inj, toInt_negate, toInt_ofNumber hx, toInt_ofNumber hy, eq_comm]

theorem code_ofNumber {x : Int32} (hx : x ≠ 0) :
    (ofNumber x).code = UInt32.ofNat (x.toInt.natAbs - 1) <<< 1 ||| if x < 0 then 1 else 0 := by
  have hne := toInt_ne_zero hx
  have hsigns : 0 < x ↔ ¬ x < 0 := by
    have hpos : 0 < x ↔ 0 < x.toInt := Int32.lt_iff_toInt_lt
    have hneg : x < 0 ↔ x.toInt < 0 := Int32.lt_iff_toInt_lt
    rw [hpos, hneg]
    omega
  rw [ofNumber, code_ofVariable]
  by_cases h : x < 0 <;> simp [h, hsigns]

/-! ## Reading and giving numbers -/

theorem ofDimacs_eq_ok_iff {x : Int32} {l : Literal} : ofDimacs x = .ok l ↔ l.toInt = x.toInt := by
  by_cases hx : x = 0
  · have hzero : x.toInt = 0 := congrArg Int32.toInt hx
    have habs := l.natAbs_toInt
    have hnumber : 0 < l.var.number := Nat.succ_pos _
    refine ⟨fun h => ?_, fun h => by omega⟩
    rw [ofDimacs, if_pos hx] at h
    cases h
  · rw [ofDimacs_eq hx, Except.ok.injEq, ← toInt_inj, toInt_ofNumber hx, eq_comm]

/-- No literal is given as the least number, although one is read from it. -/
theorem toDimacs_eq_ok_iff {x : Int32} {l : Literal} :
    l.toDimacs = .ok x ↔ l.toInt = x.toInt ∧ x ≠ Int32.minValue := by
  have habs := l.natAbs_toInt
  have hleast : Int32.minValue.toInt = -0x80000000 := rfl
  unfold toDimacs
  split
  · next hfits =>
    have hvalue : (Int32.ofInt l.toInt).toInt = l.toInt :=
      Int32.toInt_ofInt_of_le (by omega) (by omega)
    rw [Except.ok.injEq, ← Int32.toInt_inj, hvalue]
    refine ⟨fun h => ⟨h, fun hmin => ?_⟩, fun h => h.1⟩
    rw [hmin] at h
    omega
  · next hlast =>
    have hle := x.le_toInt
    have hlt := x.toInt_lt
    refine ⟨fun h => (by cases h), fun ⟨h, hmin⟩ => ?_⟩
    exact absurd (Int32.toInt.inj (by omega)) hmin

example : ofDimacs Int32.minValue = .ok ⟨0xffffffff⟩ ∧
    toDimacs ⟨0xffffffff⟩ = .error .overflow := by decide

theorem toDimacs_of_ofDimacs {x : Int32} {l : Literal} (h : ofDimacs x = .ok l)
    (hmin : x ≠ Int32.minValue) : l.toDimacs = .ok x :=
  toDimacs_eq_ok_iff.mpr ⟨ofDimacs_eq_ok_iff.mp h, hmin⟩

theorem ofDimacs_neg {x : Int32} {l : Literal} (h : ofDimacs x = .ok l)
    (hmin : x ≠ Int32.minValue) : ofDimacs (-x) = .ok l.negate := by
  rw [ofDimacs_eq_ok_iff] at h ⊢
  rw [toInt_negate, toInt_neg_of_ne_minValue hmin, h]

theorem ofDimacs_inj {x y : Int32} {l : Literal} (hx : ofDimacs x = .ok l)
    (hy : ofDimacs y = .ok l) : x = y :=
  Int32.toInt.inj ((ofDimacs_eq_ok_iff.mp hx).symm.trans (ofDimacs_eq_ok_iff.mp hy))

/-! ## Main statement -/

/-- Packing a literal loses nothing, and the order of the codes is enough to find complementary
pairs.

A number other than zero, the least one included, stands for a literal, and no other number stands
for it. But for the least number, the literal gives the number back, without overflow, and the
opposite number stands for its negation. A literal is its variable and its polarity, as they are
read from the bits of its code, and literals are ordered by them. Sorted in any way and freed of
repetitions, a list of literals has two neighbours of one variable exactly if it has a literal and
its negation. -/
theorem packing_is_faithful_and_ordered :
    (∀ x : Int32, x ≠ 0 → ∃ l, ofDimacs x = .ok l ∧
      l.code = (UInt32.ofNat (x.toInt.natAbs - 1) <<< 1 ||| if x < 0 then 1 else 0) ∧
      (∀ y, ofDimacs y = .ok l → y = x) ∧
      (x ≠ Int32.minValue → l.toDimacs = .ok x ∧ ofDimacs (-x) = .ok l.negate)) ∧
    (∀ l : Literal, ofVariable l.var l.isPositive = l ∧
      l.var.index = (l.code >>> 1).toNat ∧ l.isPositive = (l.code &&& 1 == 0)) ∧
    (∀ l m : Literal, l.le m = true ↔ l.var.index < m.var.index ∨
      l.var = m.var ∧ (l.isPositive = true ∨ m.isPositive = false)) ∧
    (∀ literals sorted : List Literal, sorted.Perm literals →
      sorted.Pairwise (fun l m => l.le m = true) →
      sorted.eraseReps = normalizedClause literals) ∧
    (∀ literals : List Literal,
      ((∃ l m, [l, m] <:+: normalizedClause literals ∧ l.var = m.var) ↔
        ∃ l ∈ literals, l.negate ∈ literals) ∧
      (hasNeighbours (normalizedClause literals) = true ↔
        ∃ l ∈ literals, l.negate ∈ literals)) := by
  refine ⟨?_, ?_, fun _ _ => le_iff, ?_, ?_⟩
  · intro x hx
    have hread := ofDimacs_eq hx
    refine ⟨ofNumber x, hread, code_ofNumber hx, fun y hy => ofDimacs_inj hy hread, ?_⟩
    intro hmin
    exact ⟨toDimacs_of_ofDimacs hread hmin, ofDimacs_neg hread hmin⟩
  · intro l
    exact ⟨ofVariable_var l, index_var_eq_shiftRight l, isPositive_eq_and l⟩
  · intro literals sorted hperm hsorted
    exact eraseReps_eq_normalizedClause hperm hsorted
  · intro literals
    have htest : hasNeighbours (normalizedClause literals) = true ↔
        ∃ l ∈ literals, l.negate ∈ literals := hasNeighbours_normalizedClause
    exact ⟨hasNeighbours_iff_adjacent.symm.trans htest, htest⟩

theorem packing_is_faithful_and_ordered_atTheLimits :
    ((-0x7fffffff : Int32) ≠ 0 ∧ (-0x7fffffff : Int32) ≠ Int32.minValue ∧
      ∃ l, ofDimacs (-0x7fffffff) = .ok l ∧ l.toDimacs = .ok (-0x7fffffff) ∧
        ofDimacs 0x7fffffff = .ok l.negate) ∧
    (Int32.minValue ≠ 0 ∧ ∃ l, ofDimacs Int32.minValue = .ok l ∧ l.code = 0xffffffff ∧
      ∀ y, ofDimacs y = .ok l → y = Int32.minValue) ∧
    (([⟨0⟩, ⟨0⟩, ⟨1⟩, ⟨3⟩] : List Literal).Perm [⟨3⟩, ⟨0⟩, ⟨1⟩, ⟨0⟩] ∧
      ([⟨0⟩, ⟨0⟩, ⟨1⟩, ⟨3⟩] : List Literal).Pairwise (fun l m => l.le m = true) ∧
      ([⟨0⟩, ⟨0⟩, ⟨1⟩, ⟨3⟩] : List Literal).eraseReps = normalizedClause [⟨3⟩, ⟨0⟩, ⟨1⟩, ⟨0⟩]) ∧
    hasNeighbours (normalizedClause [⟨3⟩, ⟨0⟩, ⟨1⟩, ⟨0⟩]) = true := by
  obtain ⟨hnumbers, -, -, hsorted, hpairs⟩ := packing_is_faithful_and_ordered
  refine ⟨⟨by decide, by decide, ?_⟩, ⟨by decide, ?_⟩, ⟨by decide, by decide, ?_⟩, ?_⟩
  · obtain ⟨l, hread, -, -, hsigned⟩ := hnumbers (-0x7fffffff) (by decide)
    exact ⟨l, hread, hsigned (by decide)⟩
  · obtain ⟨l, hread, hcode, honly, -⟩ := hnumbers Int32.minValue (by decide)
    exact ⟨l, hread, hcode, honly⟩
  · exact hsorted _ _ (by decide) (by decide)
  · exact (hpairs _).2.mpr ⟨⟨0⟩, by decide, by decide⟩

end Literal

end ClauseSharing

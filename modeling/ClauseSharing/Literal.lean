import ClauseSharing.Breach

/-!
Variables and literals.

A variable is a dense zero-based index; the variable with index `i` has the DIMACS number `i + 1`.
A literal packs its variable and its polarity into one 32-bit code, twice the index plus one for the
negative polarity. Both literals of a variable are therefore neighbours in the natural order, and no
third literal fits between them.

Main statements: `Literal.var_ofVariable`, `Literal.isPositive_ofVariable` and
`Literal.ofVariable_var` say that the packing loses nothing; `Literal.eq_iff` that a literal is
its variable and its polarity.
-/

namespace ClauseSharing

/-- A variable of a solver, dense and zero based. -/
structure Variable where
  index : Nat
  /-- A literal's code keeps 31 bits for the variable. -/
  index_lt : index < 0x80000000
deriving DecidableEq, Repr

namespace Variable

/-- The largest number of variables a solver registers. -/
def maxCount : Nat := 0x7ffffffe

/-- The variable with the given index, if a solver can register that many variables. -/
def ofIndex? (index : Nat) : Option Variable :=
  if h : index < maxCount then some ⟨index, by unfold maxCount at h; omega⟩ else none

def number (v : Variable) : Nat := v.index + 1

/-- The number of the variable as a 32-bit signed number. -/
def toDimacs (v : Variable) : Except Breach Int32 :=
  if v.number < 0x80000000 then .ok (Int32.ofInt v.number) else .error .overflow

@[ext] theorem ext {v w : Variable} (h : v.index = w.index) : v = w := by
  cases v; cases w; simp only at h; subst h; rfl

theorem ofIndex?_eq_some_iff {i : Nat} {v : Variable} :
    ofIndex? i = some v ↔ v.index = i ∧ i < maxCount := by
  unfold ofIndex?
  split
  · rename_i h
    simp only [Option.some.injEq, h, and_true]
    exact ⟨fun e => e ▸ rfl, fun e => Variable.ext e.symm⟩
  · rename_i h
    simp [h]

end Variable

/-- The order of external literals: as numbers. -/
def compareExternals (a b : Int32) : Ordering := compareOfLessAndEq a b

/-- A variable with a polarity, packed into one code. -/
structure Literal where
  /-- Twice the variable's index, plus one for the negative polarity. -/
  code : UInt32
deriving DecidableEq, Repr

namespace Literal

@[ext] theorem ext {l m : Literal} (h : l.code = m.code) : l = m := by
  cases l; cases m; simp only at h; subst h; rfl

def ofVariable (v : Variable) (positive : Bool) : Literal :=
  ⟨UInt32.ofNat (2 * v.index + if positive then 0 else 1)⟩

def var (l : Literal) : Variable :=
  ⟨l.code.toNat / 2, by have := l.code.toNat_lt; omega⟩

def isPositive (l : Literal) : Bool := l.code.toNat % 2 == 0

/-- The literal of the same variable with the other polarity. -/
def negate (l : Literal) : Literal := ⟨l.code ^^^ 1⟩

/-- Literals are ordered by variable, the positive polarity first. -/
def le (l m : Literal) : Bool := l.code ≤ m.code

/-- The literal as a signed number: the variable's number, negative for the negative polarity. -/
def toInt (l : Literal) : Int :=
  if l.isPositive then l.var.number else -l.var.number

/-- The DIMACS form of the literal. The number of the last variable does not fit into 32 bits. -/
def toDimacs (l : Literal) : Except Breach Int32 :=
  if l.var.number < 0x80000000 then .ok (Int32.ofInt l.toInt) else .error .overflow

theorem natAbs_toInt_sub_one_lt (x : Int32) : x.toInt.natAbs - 1 < 0x80000000 := by
  have h₁ := x.toInt_lt
  have h₂ := x.le_toInt
  omega

/-- Every number but the least has a negation. -/
theorem toInt_neg_of_ne_minValue {x : Int32} (hx : x ≠ Int32.minValue) :
    (-x).toInt = -x.toInt := by
  have hne : x.toInt ≠ -0x80000000 := fun h => hx (Int32.toInt.inj h)
  have h₁ := x.toInt_lt
  have h₂ := x.le_toInt
  rw [Int32.toInt_neg]
  apply Int.bmod_eq_of_le <;> omega

/-- The literal with the given DIMACS number. Zero is not a literal. -/
def ofDimacs (x : Int32) : Except Breach Literal :=
  if x = 0 then .error .precondition
  else .ok (ofVariable ⟨x.toInt.natAbs - 1, natAbs_toInt_sub_one_lt x⟩ (0 < x))

theorem toNat_code_ofVariable (v : Variable) (positive : Bool) :
    (ofVariable v positive).code.toNat = 2 * v.index + if positive then 0 else 1 := by
  have h := v.index_lt
  have hs : 2 * v.index + (if positive then 0 else 1) < 0x100000000 := by split <;> omega
  simp only [ofVariable, UInt32.toNat_ofNat']
  exact Nat.mod_eq_of_lt hs

@[simp] theorem var_ofVariable (v : Variable) (positive : Bool) :
    (ofVariable v positive).var = v := by
  apply Variable.ext
  simp only [var, toNat_code_ofVariable]
  split <;> omega

@[simp] theorem isPositive_ofVariable (v : Variable) (positive : Bool) :
    (ofVariable v positive).isPositive = positive := by
  simp only [isPositive, toNat_code_ofVariable]
  cases positive with
  | true =>
    rw [if_pos rfl, beq_iff_eq]
    omega
  | false =>
    rw [if_neg Bool.false_ne_true, beq_eq_false_iff_ne]
    omega

theorem toNat_code (l : Literal) :
    l.code.toNat = 2 * l.var.index + if l.isPositive then 0 else 1 := by
  simp only [var, isPositive, beq_iff_eq]
  split <;> omega

@[simp] theorem ofVariable_var (l : Literal) : ofVariable l.var l.isPositive = l := by
  apply Literal.ext
  apply UInt32.toNat_inj.mp
  rw [toNat_code_ofVariable, ← toNat_code]

/-- A literal is its variable and its polarity. -/
theorem eq_iff {l m : Literal} :
    l = m ↔ l.var = m.var ∧ l.isPositive = m.isPositive := by
  constructor
  · rintro rfl
    exact ⟨rfl, rfl⟩
  · rintro ⟨hv, hp⟩
    rw [← ofVariable_var l, hv, hp, ofVariable_var]

theorem toNat_code_negate (l : Literal) : (negate l).code.toNat = l.code.toNat ^^^ 1 := by
  simp [negate]

@[simp] theorem var_negate (l : Literal) : (negate l).var = l.var := by
  apply Variable.ext
  simp [var, toNat_code_negate, Nat.xor_div_two]

@[simp] theorem isPositive_negate (l : Literal) : (negate l).isPositive = !l.isPositive := by
  have h : (l.code.toNat ^^^ 1) % 2 = l.code.toNat % 2 ^^^ 1 :=
    Nat.xor_mod_two_pow (a := l.code.toNat) (b := 1) (n := 1)
  simp only [isPositive, toNat_code_negate, h]
  rcases Nat.mod_two_eq_zero_or_one l.code.toNat with h | h <;> rw [h] <;> rfl

@[simp] theorem negate_negate (l : Literal) : negate (negate l) = l := by
  simp [eq_iff]

end Literal

end ClauseSharing

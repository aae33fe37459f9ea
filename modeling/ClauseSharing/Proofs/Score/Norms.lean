import ClauseSharing.Proofs.Scalar.Exact
import Mathlib.Algebra.Order.Ring.Rat
import Mathlib.Tactic.Linarith

/-!
Triangular norms on the shares of one.

A triangular norm combines two shares of one into a share of one that is none the larger
(`TriangularNorm`). Folding a list with a norm, from one on, ignores the order of the list
(`TriangularNorm.foldl_perm`), and is at most each member (`TriangularNorm.foldl_le_of_mem`). Of two
norms, the one that is smaller on every pair of shares is smaller on every list
(`TriangularNorm.foldl_le_foldl`).

The bounded difference, the product and the minimum are such norms, and in this order each is at
most the next. The bounded difference is clamped at every step of a fold, but clamping once at the
end gives the same (`foldl_boundedDifference`).
-/

namespace ClauseSharing

/-- The fraction is a share of one. -/
def IsShare (x : Rat) : Prop := 0 ≤ x ∧ x ≤ 1

instance (x : Rat) : Decidable (IsShare x) := inferInstanceAs (Decidable (0 ≤ x ∧ x ≤ 1))

theorem isShare_one : IsShare 1 := ⟨zero_le_one, le_refl 1⟩

/-- A way to combine shares of one that is commutative, associative and monotone, and in which one
changes nothing. -/
structure TriangularNorm (t : Rat → Rat → Rat) : Prop where
  isShare {a b : Rat} (ha : IsShare a) (hb : IsShare b) : IsShare (t a b)
  comm {a b : Rat} (ha : IsShare a) (hb : IsShare b) : t a b = t b a
  assoc {a b c : Rat} (ha : IsShare a) (hb : IsShare b) (hc : IsShare c) :
    t (t a b) c = t a (t b c)
  mono {a b c : Rat} (ha : IsShare a) (hb : IsShare b) (hc : IsShare c) (hab : a ≤ b) :
    t a c ≤ t b c
  one_left {a : Rat} (ha : IsShare a) : t 1 a = a

namespace TriangularNorm

variable {t s : Rat → Rat → Rat} {a b c : Rat} {xs ys : List Rat}

/-! ## Pairs -/

theorem le_right (ht : TriangularNorm t) (ha : IsShare a) (hb : IsShare b) : t a b ≤ b :=
  calc
    t a b ≤ t 1 b := ht.mono ha isShare_one hb ha.2
    _ = b := ht.one_left hb

theorem le_left (ht : TriangularNorm t) (ha : IsShare a) (hb : IsShare b) : t a b ≤ a := by
  rw [ht.comm ha hb]
  exact ht.le_right hb ha

theorem right_comm (ht : TriangularNorm t) (ha : IsShare a) (hb : IsShare b) (hc : IsShare c) :
    t (t a b) c = t (t a c) b := by
  rw [ht.assoc ha hb hc, ht.comm hb hc, ht.assoc ha hc hb]

/-! ## Lists -/

theorem isShare_foldl (ht : TriangularNorm t) (ha : IsShare a) (hxs : ∀ x ∈ xs, IsShare x) :
    IsShare (xs.foldl t a) := by
  induction xs generalizing a with
  | nil => exact ha
  | cons x xs ih =>
    obtain ⟨hx, hrest⟩ := List.forall_mem_cons.mp hxs
    exact ih (ht.isShare ha hx) hrest

theorem foldl_le (ht : TriangularNorm t) (ha : IsShare a) (hxs : ∀ x ∈ xs, IsShare x) :
    xs.foldl t a ≤ a := by
  induction xs generalizing a with
  | nil => exact le_refl a
  | cons x xs ih =>
    obtain ⟨hx, hrest⟩ := List.forall_mem_cons.mp hxs
    exact (ih (ht.isShare ha hx) hrest).trans (ht.le_left ha hx)

/-- A list is combined to no more than any of its members. -/
theorem foldl_le_of_mem (ht : TriangularNorm t) (ha : IsShare a) (hxs : ∀ x ∈ xs, IsShare x)
    {x : Rat} (hx : x ∈ xs) : xs.foldl t a ≤ x := by
  induction xs generalizing a with
  | nil => cases hx
  | cons y ys ih =>
    obtain ⟨hy, hrest⟩ := List.forall_mem_cons.mp hxs
    have hstep : IsShare (t a y) := ht.isShare ha hy
    rcases List.mem_cons.mp hx with rfl | hx
    · exact (ht.foldl_le hstep hrest).trans (ht.le_right ha hy)
    · exact ih hstep hrest hx

theorem foldl_perm (ht : TriangularNorm t) (ha : IsShare a) (hxs : ∀ x ∈ xs, IsShare x)
    (hperm : xs.Perm ys) : xs.foldl t a = ys.foldl t a := by
  induction hperm generalizing a with
  | nil => rfl
  | cons x _ ih =>
    obtain ⟨hx, hrest⟩ := List.forall_mem_cons.mp hxs
    exact ih (ht.isShare ha hx) hrest
  | swap x y zs =>
    have hx : IsShare x := hxs x (List.mem_cons_of_mem y List.mem_cons_self)
    have hy : IsShare y := hxs y List.mem_cons_self
    simp only [List.foldl_cons]
    rw [ht.right_comm ha hy hx]
  | trans hfirst _ ih ih' =>
    exact (ih ha hxs).trans (ih' ha fun x hx => hxs x (hfirst.mem_iff.mpr hx))

/-- The norm that is smaller on pairs is smaller on lists. -/
theorem foldl_le_foldl (ht : TriangularNorm t) (hs : TriangularNorm s)
    (hts : ∀ a b, IsShare a → IsShare b → t a b ≤ s a b) (ha : IsShare a) (hb : IsShare b)
    (hab : a ≤ b) (hxs : ∀ x ∈ xs, IsShare x) : xs.foldl t a ≤ xs.foldl s b := by
  induction xs generalizing a b with
  | nil => exact hab
  | cons x xs ih =>
    obtain ⟨hx, hrest⟩ := List.forall_mem_cons.mp hxs
    have hstep : t a x ≤ s b x :=
      calc
        t a x ≤ s a x := hts a x ha hx
        _ ≤ s b x := hs.mono ha hb hx hab
    exact ih (ht.isShare ha hx) (hs.isShare hb hx) hstep hrest

end TriangularNorm

/-! ## The bounded difference -/

/-- The Łukasiewicz norm: what two shares have in common if they overlap as little as possible. -/
def boundedDifference (a b : Rat) : Rat := max (a + b - 1) 0

/-- A loss after clamping at zero, and clamping again, is the loss and clamping once. -/
theorem max_max_zero_add {u v : Rat} (hv : v ≤ 0) : max (max u 0 + v) 0 = max (u + v) 0 := by
  rw [← max_add_add_right, zero_add, max_assoc, max_eq_right hv]

theorem boundedDifference_max {u x : Rat} (hx : x ≤ 1) :
    boundedDifference (max u 0) x = max (u + (x - 1)) 0 := by
  rw [boundedDifference, add_sub_assoc, max_max_zero_add (sub_nonpos.mpr hx)]

theorem boundedDifference_comm (a b : Rat) : boundedDifference a b = boundedDifference b a := by
  rw [boundedDifference, boundedDifference, add_comm]

theorem triangularNorm_boundedDifference : TriangularNorm boundedDifference where
  isShare ha hb := by
    refine ⟨le_max_right _ _, max_le ?_ zero_le_one⟩
    linarith [ha.2, hb.2]
  comm _ _ := boundedDifference_comm ..
  assoc {a b c} ha _ hc := by
    have hleft : boundedDifference (boundedDifference a b) c = max (a + b - 1 + (c - 1)) 0 :=
      boundedDifference_max hc.2
    have hright : boundedDifference (boundedDifference b c) a = max (b + c - 1 + (a - 1)) 0 :=
      boundedDifference_max ha.2
    rw [hleft, boundedDifference_comm a, hright]
    congr 1
    ring
  mono _ _ _ hab := max_le_max_right 0 (by linarith)
  one_left ha := by
    rw [boundedDifference, add_sub_cancel_left, max_eq_left ha.1]

/-- The fold that clamps at every step is the sum that is clamped once. -/
theorem foldl_boundedDifference (u : Rat) {xs : List Rat} (hxs : ∀ x ∈ xs, IsShare x) :
    xs.foldl boundedDifference (max u 0) = max (u + (xs.sum - xs.length)) 0 := by
  induction xs generalizing u with
  | nil => simp
  | cons x xs ih =>
    obtain ⟨hx, hrest⟩ := List.forall_mem_cons.mp hxs
    rw [List.foldl_cons, boundedDifference_max hx.2, ih _ hrest, List.sum_cons, List.length_cons,
      Nat.cast_succ]
    congr 1
    ring

/-! ## The product and the minimum -/

theorem triangularNorm_mul : TriangularNorm (· * ·) where
  isShare ha hb := ⟨mul_nonneg ha.1 hb.1, mul_le_one₀ ha.2 hb.1 hb.2⟩
  comm _ _ := mul_comm ..
  assoc _ _ _ := mul_assoc ..
  mono _ _ hc hab := mul_le_mul_of_nonneg_right hab hc.1
  one_left _ := one_mul _

theorem triangularNorm_min : TriangularNorm min where
  isShare ha hb := ⟨le_min ha.1 hb.1, (min_le_left ..).trans ha.2⟩
  comm _ _ := min_comm ..
  assoc _ _ _ := min_assoc ..
  mono _ _ _ hab := min_le_min_right _ hab
  one_left ha := min_eq_right ha.2

/-- The product is larger by the product of what the two shares lack of one. -/
theorem boundedDifference_le_mul {a b : Rat} (ha : IsShare a) (hb : IsShare b) :
    boundedDifference a b ≤ a * b := by
  refine max_le ?_ (mul_nonneg ha.1 hb.1)
  have hlack : 0 ≤ (1 - a) * (1 - b) := mul_nonneg (sub_nonneg.mpr ha.2) (sub_nonneg.mpr hb.2)
  linarith

theorem mul_le_min {a b : Rat} (ha : IsShare a) (hb : IsShare b) : a * b ≤ min a b :=
  le_min (triangularNorm_mul.le_left ha hb) (triangularNorm_mul.le_right ha hb)

end ClauseSharing

import ClauseSharing.Proofs.Scalar.Checked
import ClauseSharing.Score.Evaluate
import Mathlib.Data.List.Induction
import Mathlib.Data.List.Sort

/-!
The two smallest values of a scan.

A scan keeps the first two members of the sorted list of the values so far
(`SmallestTwo.foldl_insert`): inserting a value into the registers is inserting it into the sorted
list, after its equals (`SmallestTwo.insert_ofSorted`). All that this takes is that finite scalars
compare like the fractions that they stand for (`Scalar.OrderedBy`), so it holds of every arithmetic
in which they do. The result is the second member of the stably sorted list
(`secondSmallest_is_orderStatistic`).

On exact fractions the second smallest value does not depend on the order of the values
(`secondSmallest_perm`), it is one of them (`secondSmallest_mem`), and a further value makes it no
larger, once there are two (`secondSmallest_concat_le`).
-/

namespace ClauseSharing

open Scalar

/-! ## Stable sorting -/

section Stable

variable {α β : Type} [LinearOrder β] (f : α → β)

/-- Of two elements, one goes before its equals and the other one after them. It does not matter
which of them is inserted first. -/
theorem orderedInsert_comm (x y : α) (l : List α) :
    (l.orderedInsert (f · ≤ f ·) y).orderedInsert (f · < f ·) x =
      (l.orderedInsert (f · < f ·) x).orderedInsert (f · ≤ f ·) y := by
  induction l with
  | nil =>
    rcases lt_or_ge (f x) (f y) with hxy | hyx
    · simp [hxy, hxy.not_ge]
    · simp [hyx, hyx.not_gt]
  | cons a l ih =>
    rcases lt_or_ge (f x) (f a) with hxa | hax <;> rcases le_or_gt (f y) (f a) with hya | hay
    · rcases lt_or_ge (f x) (f y) with hxy | hyx
      · simp [hxa, hya, hxy, hxy.not_ge]
      · simp [hxa, hya, hyx, hyx.not_gt]
    · have hxy : f x < f y := hxa.trans hay
      simp [hxa, hay.not_ge, hxy.not_ge]
    · have hyx : f y ≤ f x := hya.trans hax
      simp [hax.not_gt, hya, hyx.not_gt]
    · simp [hax.not_gt, hay.not_ge, ih]

/-- Sorting stably puts a further element after its equals. -/
theorem insertionSort_concat (xs : List α) (x : α) :
    (xs ++ [x]).insertionSort (f · ≤ f ·) =
      (xs.insertionSort (f · ≤ f ·)).orderedInsert (f · < f ·) x := by
  induction xs with
  | nil => rfl
  | cons a xs ih =>
    rw [List.cons_append, List.insertionSort_cons, ih, List.insertionSort_cons, orderedInsert_comm]

end Stable

/-! ## Scanning -/

variable {K : Type} [Scalar K] {number : K → Rat} {xs : List K}

/-- Finite scalars compare like the fractions that they stand for, and are below infinity. Different
scalars may stand for one fraction, as the two zeros of doubles do. -/
structure Scalar.OrderedBy (number : K → Rat) : Prop where
  lt_iff {x y : K} (hx : isFinite x = true) (hy : isFinite y = true) :
    lt x y = true ↔ number x < number y
  belowInfinity {x : K} (hx : isFinite x = true) : belowInfinity x = true

theorem orderedBy_rat : OrderedBy fun x : Rat => x where
  lt_iff _ _ := decide_eq_true_iff
  belowInfinity _ := rfl

namespace SmallestTwo

/-- The registers after a scan of the members of a sorted list. -/
def ofSorted (l : List K) : SmallestTwo K := ⟨l[0]?, l[1]?⟩

theorem below_eq (h : OrderedBy number) {x y : K} (hx : isFinite x = true)
    (hy : isFinite y = true) : below x (some y) = decide (number x < number y) := by
  rw [Bool.eq_iff_iff, decide_eq_true_iff]
  exact h.lt_iff hx hy

/-- Inserting into the registers is inserting into the sorted list. -/
theorem insert_ofSorted (h : OrderedBy number) {x : K} (hx : isFinite x = true) {l : List K}
    (hl : ∀ y ∈ l, isFinite y = true) :
    (ofSorted l).insert x = ofSorted (l.orderedInsert (number · < number ·) x) := by
  have hnone : below x none = true := h.belowInfinity hx
  match l with
  | [] => simp [insert, ofSorted, hnone]
  | [a] =>
    have ha := below_eq h hx (hl a List.mem_cons_self)
    by_cases hxa : number x < number a <;> simp [insert, ofSorted, hnone, ha, hxa]
  | a :: b :: rest =>
    have ha := below_eq h hx (hl a List.mem_cons_self)
    have hb := below_eq h hx (hl b (List.mem_cons_of_mem a List.mem_cons_self))
    by_cases hxa : number x < number a
    · simp [insert, ofSorted, ha, hxa]
    · by_cases hxb : number x < number b <;> simp [insert, ofSorted, ha, hb, hxa, hxb]

/-- A scan keeps the first two members of the sorted list. -/
theorem foldl_insert (h : OrderedBy number) (finite : ∀ x ∈ xs, isFinite x = true) :
    xs.foldl insert empty = ofSorted (xs.insertionSort (number · ≤ number ·)) := by
  induction xs using List.reverseRecOn with
  | nil => rfl
  | append_singleton xs x ih =>
    obtain ⟨hxs, hx⟩ := List.forall_mem_append.mp finite
    have hsorted (y : K) (hy : y ∈ xs.insertionSort (number · ≤ number ·)) : isFinite y = true :=
      hxs y ((List.mem_insertionSort _).mp hy)
    rw [List.foldl_append, List.foldl_cons, List.foldl_nil, ih hxs,
      insert_ofSorted h (hx x List.mem_cons_self) hsorted, insertionSort_concat]

theorem result_ofSorted {l : List K} (hl : ∀ y ∈ l, isFinite y = true) :
    (ofSorted l).result = l[1]?.getD (l[0]?.getD one) := by
  have hfilter (i : Nat) : l[i]?.filter isFinite = l[i]? := by
    cases hi : l[i]? with
    | none => rfl
    | some y => exact Option.filter_eq_some_iff.mpr ⟨rfl, hl y (List.mem_of_getElem? hi)⟩
  rw [result, ofSorted, hfilter, hfilter]
  cases l[1]? <;> cases l[0]? <;> rfl

end SmallestTwo

/-- The second member of the sorted list; the first one if there is no other, and one if there is
none. -/
theorem secondSmallest_eq (h : OrderedBy number) (finite : ∀ x ∈ xs, isFinite x = true) :
    secondSmallest xs = (xs.insertionSort (number · ≤ number ·))[1]?.getD
      ((xs.insertionSort (number · ≤ number ·))[0]?.getD one) := by
  rw [secondSmallest, SmallestTwo.foldl_insert h finite]
  exact SmallestTwo.result_ofSorted fun y hy => finite y ((List.mem_insertionSort _).mp hy)

theorem secondSmallest_mem_of_finite (h : OrderedBy number)
    (finite : ∀ x ∈ xs, isFinite x = true) (hne : xs ≠ []) : secondSmallest xs ∈ xs := by
  have hperm := List.perm_insertionSort (number · ≤ number ·) xs
  rw [secondSmallest_eq h finite, ← hperm.mem_iff]
  match hsorted : xs.insertionSort (number · ≤ number ·) with
  | [] => exact absurd (hsorted ▸ hperm).symm.eq_nil hne
  | [_] => exact List.mem_cons_self
  | a :: _ :: _ => exact List.mem_cons_of_mem a List.mem_cons_self

/-! ## Exact fractions -/

section Exact

variable {xs ys : List Rat}

theorem secondSmallest_eq_rat (xs : List Rat) : secondSmallest xs =
    (xs.insertionSort (· ≤ ·))[1]?.getD ((xs.insertionSort (· ≤ ·))[0]?.getD 1) :=
  secondSmallest_eq orderedBy_rat fun _ _ => rfl

theorem secondSmallest_perm (hperm : xs.Perm ys) : secondSmallest xs = secondSmallest ys := by
  have hsorted : (xs.insertionSort (· ≤ ·)).Perm (ys.insertionSort (· ≤ ·)) :=
    (List.perm_insertionSort _ xs).trans (hperm.trans (List.perm_insertionSort _ ys).symm)
  rw [secondSmallest_eq_rat, secondSmallest_eq_rat, hsorted.eq_of_pairwise'
    (List.pairwise_insertionSort ..) (List.pairwise_insertionSort ..)]

theorem secondSmallest_mem (hne : xs ≠ []) : secondSmallest xs ∈ xs :=
  secondSmallest_mem_of_finite orderedBy_rat (fun _ _ => rfl) hne

/-- A further value makes the second smallest one no larger. A second value may, if it comes to a
single one. -/
theorem secondSmallest_concat_le (hlong : 2 ≤ xs.length) (x : Rat) :
    secondSmallest (xs ++ [x]) ≤ secondSmallest xs := by
  have hsorted := List.pairwise_insertionSort (· ≤ ·) xs
  rw [← List.length_insertionSort (· ≤ ·)] at hlong
  rw [secondSmallest_eq_rat, secondSmallest_eq_rat, insertionSort_concat fun x => x]
  match hlist : xs.insertionSort (· ≤ ·) with
  | [] | [_] => simp [hlist] at hlong
  | a :: b :: rest =>
    have hab : a ≤ b := List.rel_of_pairwise_cons (hlist ▸ hsorted) List.mem_cons_self
    simp only [List.orderedInsert_cons]
    split
    · exact hab
    split
    · next hxb => exact hxb.le
    · exact le_refl b

end Exact

/-! ## Main statement -/

/-- Finite scalars are scanned like the fractions that they stand for. -/
theorem number_secondSmallest (h : OrderedBy number) (finite : ∀ x ∈ xs, isFinite x = true)
    (hne : xs ≠ []) : number (secondSmallest xs) = secondSmallest (xs.map number) := by
  have hmap : (xs.map number).insertionSort (· ≤ ·) =
      (xs.insertionSort (number · ≤ number ·)).map number :=
    (List.map_insertionSort _ _ number xs fun _ _ _ _ => Iff.rfl).symm
  have hperm := List.perm_insertionSort (number · ≤ number ·) xs
  rw [secondSmallest_eq h finite, secondSmallest_eq_rat, hmap]
  match hsorted : xs.insertionSort (number · ≤ number ·) with
  | [] => exact absurd (hsorted ▸ hperm).symm.eq_nil hne
  | [_] => rfl
  | _ :: _ :: _ => rfl

/-- Take any scalars whose finite ones compare like fractions, and a list of finite ones. The second
smallest of two or more is the second member of the stably sorted list, equal ones counted one by
one. That of a single one is it, and that of none is one. The number that it stands for is the same
in any order of the list, and is not below a smallest one. -/
theorem secondSmallest_is_orderStatistic (h : OrderedBy number)
    (finite : ∀ x ∈ xs, isFinite x = true) :
    (2 ≤ xs.length →
      (xs.insertionSort (number · ≤ number ·))[1]? = some (secondSmallest xs)) ∧
    (∀ x, xs = [x] → secondSmallest xs = x) ∧
    (xs = [] → secondSmallest xs = one) ∧
    (∀ ys, xs.Perm ys → number (secondSmallest ys) = number (secondSmallest xs)) ∧
    ∀ m ∈ xs, (∀ x ∈ xs, number m ≤ number x) → number m ≤ number (secondSmallest xs) := by
  have heq := secondSmallest_eq h finite
  refine ⟨?_, ?_, ?_, ?_, ?_⟩
  · intro hlong
    rw [← List.length_insertionSort (number · ≤ number ·)] at hlong
    rw [heq, List.getElem?_eq_getElem hlong]
    rfl
  · rintro x rfl
    exact heq
  · rintro rfl
    rfl
  · intro ys hperm
    rcases eq_or_ne xs [] with rfl | hne
    · rw [hperm.symm.eq_nil]
    · have hne' : ys ≠ [] := fun hnil => hne (hnil ▸ hperm).eq_nil
      rw [number_secondSmallest h finite hne,
        number_secondSmallest h (fun y hy => finite y (hperm.mem_iff.mpr hy)) hne']
      exact secondSmallest_perm (hperm.symm.map number)
  · intro m hm hleast
    exact hleast _ (secondSmallest_mem_of_finite h finite (List.ne_nil_of_mem hm))

/-- The fraction of a checked fraction, or zero if there is none. -/
def Checked.value : Checked → Rat
  | .number x => x
  | .undefined => 0

theorem Checked.orderedBy_value : OrderedBy value where
  lt_iff {x y} hx hy := by
    match x, y with
    | .number _, .number _ => exact decide_eq_true_iff
    | .undefined, _ => cases hx
    | .number _, .undefined => cases hy
  belowInfinity hx := hx

/-- The smallest value comes twice, with larger ones before and between. -/
def doubledMinimum : List Checked := [.number 3, .number 1, .number 2, .number 1]

theorem secondSmallest_is_orderStatistic_doubledMinimum :
    (∀ x ∈ doubledMinimum, isFinite x = true) ∧
    secondSmallest doubledMinimum = .number 1 ∧
    (doubledMinimum.insertionSort (Checked.value · ≤ Checked.value ·))[1]? = some (.number 1) ∧
    Checked.value (secondSmallest doubledMinimum.reverse) = 1 := by
  have finite : ∀ x ∈ doubledMinimum, isFinite x = true := by decide
  obtain ⟨hsecond, -, -, hperm, -⟩ :=
    secondSmallest_is_orderStatistic Checked.orderedBy_value finite
  have hresult : secondSmallest doubledMinimum = .number 1 := by decide +kernel
  refine ⟨finite, hresult, (hsecond (by decide)).trans (congrArg some hresult), ?_⟩
  rw [hperm _ (List.reverse_perm _).symm, hresult]
  rfl

end ClauseSharing

import ClauseSharing.Literal

/-!
Tables with one slot per registered variable.

Registering variables grows a table at its end; a variable beyond the end has no slot. Reading
such a slot is an ordinary error for callers that ask (`access`) and a breach for callers that are
bound to know better (`fetch`).
-/

namespace ClauseSharing

/-- The error of asking a table for a variable that has no slot. -/
structure NoSlot where
deriving DecidableEq, Repr

def NoSlot.message (_ : NoSlot) : String :=
  "variable index out of bounds"

/-- A table with one slot for each registered variable, in the order of registration. -/
structure PerVariable (α : Type) where
  slots : Array α
deriving Repr

namespace PerVariable

variable {α : Type}

/-- The table without variables. -/
def empty : PerVariable α := ⟨#[]⟩

/-- A table for `n` variables; `init` gives the slot of each index. -/
def ofFn (n : Nat) (init : Nat → α) : PerVariable α := ⟨Array.ofFn fun i : Fin n => init i⟩

def size (t : PerVariable α) : Nat := t.slots.size

def has (t : PerVariable α) (v : Variable) : Bool := v.index < t.size

/-- The slot of the variable, if it has one. -/
def get? (t : PerVariable α) (v : Variable) : Option α := t.slots[v.index]?

/-- The slot of the variable, or `default` if it has none. -/
def getD (t : PerVariable α) (v : Variable) (default : α) : α := (t.get? v).getD default

/-- The slot of the variable; a missing slot is an error. -/
def access (t : PerVariable α) (v : Variable) : Except NoSlot α :=
  match t.get? v with
  | some a => .ok a
  | none => .error {}

/-- The slot of the variable; a missing slot is a breach. -/
def fetch (t : PerVariable α) (v : Variable) : Except Breach α :=
  match t.get? v with
  | some a => .ok a
  | none => .error .unregistered

/-- Writes the slot of the variable. A variable without slot changes nothing. -/
def set (t : PerVariable α) (v : Variable) (a : α) : PerVariable α :=
  ⟨t.slots.setIfInBounds v.index a⟩

/-- Applies `f` to the slot of the variable. A variable without slot changes nothing. -/
def modify (t : PerVariable α) (v : Variable) (f : α → α) : PerVariable α :=
  ⟨t.slots.modify v.index f⟩

/-- Grows or shrinks the table to `n` variables. The new slots are `fill 0`, `fill 1`, and so on. -/
def resize (t : PerVariable α) (n : Nat) (fill : Nat → α) : PerVariable α :=
  ⟨t.slots.extract 0 n ++ Array.ofFn fun i : Fin (n - t.size) => fill i⟩

/-- Registers `n` more variables, each with the slot `a`. -/
def extend (t : PerVariable α) (n : Nat) (a : α) : PerVariable α :=
  ⟨t.slots ++ Array.replicate n a⟩

/-- The slots with the one-based numbers of their variables. -/
def entries (t : PerVariable α) : List (Nat × α) :=
  t.slots.toList.zipIdx.map fun (a, i) => (i + 1, a)

/-- Applies `f` to every slot and the index of its variable, in order, until one call fails. -/
def mapIdxM (t : PerVariable α) (f : Nat → α → Except Breach α) : Except Breach (PerVariable α) :=
  return ⟨← t.slots.mapIdxM f⟩

theorem has_iff {t : PerVariable α} {v : Variable} : t.has v = true ↔ v.index < t.size := by
  simp [has]

theorem get?_eq_none_iff {t : PerVariable α} {v : Variable} :
    t.get? v = none ↔ t.has v = false := by
  rw [Bool.eq_false_iff, ne_eq, has_iff]
  simp [get?, size]

theorem isSome_get? {t : PerVariable α} {v : Variable} : (t.get? v).isSome = t.has v := by
  cases h : t.get? v with
  | none => simp [get?_eq_none_iff.mp h]
  | some a =>
    cases h' : t.has v with
    | false => simp [get?_eq_none_iff.mpr h'] at h
    | true => rfl

theorem exists_get? {t : PerVariable α} {v : Variable} (h : t.has v = true) :
    ∃ a, t.get? v = some a :=
  Option.isSome_iff_exists.mp (isSome_get?.trans h)

theorem fetch_eq_ok_iff {t : PerVariable α} {v : Variable} {a : α} :
    t.fetch v = .ok a ↔ t.get? v = some a := by
  unfold fetch
  split
  · next h => simp [h]
  · next h => simp [h]

theorem has_of_get? {t : PerVariable α} {v : Variable} {a : α} (h : t.get? v = some a) :
    t.has v = true := by
  rw [← isSome_get?, h]
  rfl

/-- Every variable that has a slot is found by its index, as long as there are no more slots than
variables. -/
theorem mem_variables {t : PerVariable α} (hsize : t.size ≤ Variable.maxCount) {v : Variable}
    (h : t.has v = true) : v ∈ (List.range t.size).filterMap Variable.ofIndex? := by
  have hlt := has_iff.mp h
  refine List.mem_filterMap.mpr ⟨v.index, List.mem_range.mpr hlt, ?_⟩
  exact Variable.ofIndex?_eq_some_iff.mpr ⟨rfl, Nat.lt_of_lt_of_le hlt hsize⟩

theorem has_of_mem_variables {t : PerVariable α} {v : Variable}
    (h : v ∈ (List.range t.size).filterMap Variable.ofIndex?) : t.has v = true := by
  obtain ⟨i, hi, hv⟩ := List.mem_filterMap.mp h
  rw [has_iff, (Variable.ofIndex?_eq_some_iff.mp hv).1]
  exact List.mem_range.mp hi

@[simp] theorem size_empty : (empty : PerVariable α).size = 0 := rfl

@[simp] theorem size_set (t : PerVariable α) (v : Variable) (a : α) :
    (t.set v a).size = t.size := by
  simp [set, size]

@[simp] theorem size_modify (t : PerVariable α) (v : Variable) (f : α → α) :
    (t.modify v f).size = t.size := by
  simp [modify, size]

@[simp] theorem size_extend (t : PerVariable α) (n : Nat) (a : α) :
    (t.extend n a).size = t.size + n := by
  simp [extend, size]

@[simp] theorem size_resize (t : PerVariable α) (n : Nat) (fill : Nat → α) :
    (t.resize n fill).size = n := by
  simp only [resize, size, Array.size_append, Array.size_extract, Array.size_ofFn]
  omega

theorem get?_set (t : PerVariable α) (v w : Variable) (a : α) :
    (t.set v a).get? w = if v = w ∧ t.has v = true then some a else t.get? w := by
  simp only [get?, set, has_iff, size, Array.getElem?_setIfInBounds]
  by_cases h : v = w
  · subst h
    by_cases hs : v.index < t.slots.size <;> simp [hs]
  · have hi : v.index ≠ w.index := fun e => h (Variable.ext e)
    simp [h, hi]

/-- A table is determined by the slots of variables and those that belong to none. -/
theorem ext_get? {t t' : PerVariable α} (hget : ∀ v, t.get? v = t'.get? v)
    (hrest : ∀ i, 0x80000000 ≤ i → t.slots[i]? = t'.slots[i]?) : t = t' := by
  have hslots : t.slots = t'.slots := by
    refine Array.ext_getElem? fun i => ?_
    rcases Nat.lt_or_ge i 0x80000000 with hi | hi
    · exact hget ⟨i, hi⟩
    · exact hrest i hi
  cases t
  cases hslots
  rfl

/-- Writing what a slot holds changes nothing. -/
theorem set_get? {t : PerVariable α} {v : Variable} {a : α} (h : t.get? v = some a) :
    t.set v a = t := by
  obtain ⟨hlt, rfl⟩ := Array.getElem?_eq_some_iff.mp h
  simp [set, Array.setIfInBounds, hlt]

theorem get?_modify (t : PerVariable α) (v w : Variable) (f : α → α) :
    (t.modify v f).get? w = if v = w then (t.get? w).map f else t.get? w := by
  simp only [get?, modify, Array.getElem?_modify]
  by_cases h : v = w
  · subst h; simp
  · have hi : v.index ≠ w.index := fun e => h (Variable.ext e)
    simp [h, hi]

theorem get?_extend (t : PerVariable α) (n : Nat) (a : α) (v : Variable) :
    (t.extend n a).get? v =
      if v.index < t.size then t.get? v else if v.index < t.size + n then some a else none := by
  simp only [get?, extend, size, Array.getElem?_append]
  by_cases h : v.index < t.slots.size
  · simp [h]
  · simp only [h, if_false, Array.getElem?_replicate]
    congr 1
    simp only [eq_iff_iff]
    omega

theorem get?_eq_none_of_size_le {t : PerVariable α} {v : Variable} (h : t.size ≤ v.index) :
    t.get? v = none := by
  rw [get?_eq_none_iff, Bool.eq_false_iff]
  intro hv
  exact Nat.not_lt_of_le h (has_iff.mp hv)

theorem get?_extend_one (t : PerVariable α) (a : α) (v : Variable) :
    (t.extend 1 a).get? v = if v.index = t.size then some a else t.get? v := by
  rw [get?_extend]
  split
  · next h => rw [if_neg (Nat.ne_of_lt h)]
  · next h =>
    have hle : t.size ≤ v.index := Nat.le_of_not_lt h
    split
    · rw [if_pos (by omega)]
    · rw [if_neg (by omega), get?_eq_none_of_size_le hle]

@[simp] theorem extend_zero (t : PerVariable α) (a : α) : t.extend 0 a = t := by
  simp [extend]

end PerVariable

end ClauseSharing

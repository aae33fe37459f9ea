import ClauseSharing.Proofs.Worker.Trail

/-!
Trail, values and levels of an assignment agree.

`Assignment.Consistent` says so. Each change of an assignment keeps it: registering variables
(`Consistent.register`), assigning a free variable, with or without a new level for it
(`Consistent.extend`), and backjumping (`Consistent.cut`). In a consistent assignment the level of
an entry never exceeds `level` exactly before the position `startOf level`
(`Boundary.levelAt_le_iff`), so that this position counts the entries of these levels
(`Consistent.startOf_eq_countP`).
-/

namespace ClauseSharing

namespace Assignment

/-- The level to which a position of the trail belongs: the number of levels above the root that
start there or before. -/
def levelAt (a : Assignment) (p : Nat) : Nat := a.levelStarts.toList.countP (· ≤ p)

/-- The four parts of an assignment agree. -/
structure Consistent (a : Assignment) : Prop where
  levels_size : a.levels.size = a.values.size
  /-- No variable is on the trail twice. -/
  nodup : (a.trail.toList.map (·.literal.var)).Nodup
  /-- A variable has a value exactly if the trail has its literal of that polarity. -/
  value_iff : ∀ v b, a.value v = some b ↔ ∃ e ∈ a.trail, e.literal = Literal.ofVariable v b
  /-- Levels start at positions of the trail, each one after the one below it. -/
  starts_lt : ∀ start ∈ a.levelStarts, start < a.trail.size
  starts_strict : a.levelStarts.toList.Pairwise (· < ·)
  /-- The level on record for an assigned variable is that of its position. -/
  levelOf_eq : ∀ p e, a.trail[p]? = some e → a.levelOf e.literal.var = some (a.levelAt p)
  /-- A level above the root starts with a decision, and all other entries are propagations. -/
  decision_iff : ∀ p e, a.trail[p]? = some e → (e.reason = .decision ↔ p ∈ a.levelStarts)

/-! ## Levels of variables and of positions -/

@[simp] theorem levelOf_register (a : Assignment) (n : Nat) {v : Variable}
    (hv : a.levels.has v = true) : (a.register n).levelOf v = a.levelOf v := by
  rw [levelOf, levelOf, value_register]
  simp only [register, PerVariable.getD, PerVariable.get?_extend, PerVariable.has_iff.mp hv,
    if_true]

theorem levelOf_push {a : Assignment} (hsize : a.levels.size = a.values.size) {l : Literal}
    (known : a.values.has l.var = true) (reason : Reason) (v : Variable) :
    (a.push l reason).levelOf v = if v = l.var then some a.level else a.levelOf v := by
  have hlevels : a.levels.has l.var = true :=
    PerVariable.has_iff.mpr (hsize ▸ PerVariable.has_iff.mp known)
  rw [levelOf, value_push]
  by_cases hv : v = l.var
  · subst hv
    simp [push, PerVariable.getD, PerVariable.get?_set, known, hlevels]
  · simp [levelOf, push, PerVariable.getD, PerVariable.get?_set, hv, Ne.symm hv]

theorem levelOf_cut {a : Assignment} {level start : Nat} {v : Variable}
    (hv : v ∉ (a.above start).map (·.literal.var)) :
    (a.cut level start).levelOf v = a.levelOf v := by
  rw [levelOf, value_cut, if_neg hv]
  rfl

/-- Levels that start behind a position do not matter for it. -/
theorem levelAt_of_append {a b : Assignment} {later : List Nat}
    (hstarts : a.levelStarts.toList = b.levelStarts.toList ++ later) {p : Nat}
    (hp : ∀ s ∈ later, p < s) : a.levelAt p = b.levelAt p := by
  have hnone : later.countP (· ≤ p) = 0 := by
    rw [List.countP_eq_zero]
    intro s hs
    simpa using hp s hs
  rw [levelAt, levelAt, hstarts, List.countP_append, hnone, Nat.add_zero]

/-- Behind all starts, the level is the present one. -/
theorem levelAt_eq_level {a : Assignment} {p : Nat} (hp : ∀ s ∈ a.levelStarts, s ≤ p) :
    a.levelAt p = a.level := by
  rw [levelAt, level, ← Array.length_toList, List.countP_eq_length]
  intro s hs
  simpa using hp s (Array.mem_toList_iff.mp hs)

/-- Without levels above the root, every position belongs to the root. -/
theorem levelAt_of_root {a : Assignment} (root : a.level = 0) (p : Nat) : a.levelAt p = 0 := by
  have hnone : a.levelStarts.toList = [] := List.length_eq_zero_iff.mp root
  rw [levelAt, hnone, List.countP_nil]

/-- Levels never decrease along the trail. -/
theorem levelAt_mono (a : Assignment) {p q : Nat} (h : p ≤ q) : a.levelAt p ≤ a.levelAt q := by
  apply List.countP_mono_left
  intro s _ hs
  simp only [decide_eq_true_eq] at hs ⊢
  exact Nat.le_trans hs h

/-- Only registered variables have values. -/
theorem has_of_value {a : Assignment} {v : Variable} {b : Bool} (hv : a.value v = some b) :
    a.values.has v = true := by
  rw [value, PerVariable.getD] at hv
  cases hget : a.values.get? v with
  | none =>
    rw [hget] at hv
    cases hv
  | some _ => exact PerVariable.has_of_get? hget

/-- What the trail accounts for, and what it lists, are the values. -/
theorem value_eq_some_iff_of {a : Assignment} (hbacked : a.Backed)
    (hmem : ∀ e ∈ a.trail, a.value e.literal.var = some e.literal.isPositive) (v : Variable)
    (b : Bool) : a.value v = some b ↔ ∃ e ∈ a.trail, e.literal = Literal.ofVariable v b := by
  refine ⟨hbacked v b, ?_⟩
  rintro ⟨e, he, hlit⟩
  have hvalue := hmem e he
  rwa [hlit, Literal.var_ofVariable, Literal.isPositive_ofVariable] at hvalue

/-! ## New entries -/

/-- The starts of the levels once an entry has been added to the trail: a decision opens a level,
which starts there. -/
inductive Opens (a : Assignment) : Reason → Array Nat → Prop
  | decision : Opens a .decision (a.levelStarts.push a.trail.size)
  | propagation : Opens a .propagation a.levelStarts

namespace Opens

variable {a : Assignment} {reason : Reason} {starts : Array Nat}

theorem mem_iff (h : a.Opens reason starts) {s : Nat} :
    s ∈ starts ↔ s ∈ a.levelStarts ∨ reason = .decision ∧ s = a.trail.size := by
  cases h with
  | decision => simp [Array.mem_push]
  | propagation => simp

theorem pairwise (h : a.Opens reason starts) (hstrict : a.levelStarts.toList.Pairwise (· < ·))
    (hlt : ∀ s ∈ a.levelStarts, s < a.trail.size) : starts.toList.Pairwise (· < ·) := by
  cases h with
  | propagation => exact hstrict
  | decision =>
    rw [Array.toList_push, List.pairwise_append]
    refine ⟨hstrict, List.pairwise_singleton .., fun s hs t ht => ?_⟩
    rw [List.mem_singleton.mp ht]
    exact hlt s (Array.mem_toList_iff.mp hs)

/-- A new level changes the level of no entry before it. -/
theorem levelAt_eq (h : a.Opens reason starts) {p : Nat} (hp : p < a.trail.size) :
    levelAt { a with levelStarts := starts } p = a.levelAt p := by
  cases h with
  | propagation => rfl
  | decision =>
    refine levelAt_of_append Array.toList_push fun s hs => ?_
    rw [List.mem_singleton.mp hs]
    exact hp

end Opens

theorem getElem?_trail_push {a : Assignment} {l : Literal} {reason : Reason} {p : Nat}
    {e : TrailItem} :
    (a.push l reason).trail[p]? = some e ↔
      p < a.trail.size ∧ a.trail[p]? = some e ∨ p = a.trail.size ∧ e = ⟨l, reason⟩ := by
  simp only [push, Array.getElem?_push]
  split
  · next hp =>
    subst hp
    simp [eq_comm]
  · next hp =>
    rw [or_iff_left fun h => hp h.1]
    exact ⟨fun he => ⟨(Array.getElem?_eq_some_iff.mp he).1, he⟩, And.right⟩

/-! ## Consistency is kept -/

namespace Consistent

variable {a : Assignment}

theorem empty : Consistent .empty where
  levels_size := rfl
  nodup := List.nodup_nil
  value_iff v b := by
    simp [value, Assignment.empty, PerVariable.getD, PerVariable.get?, PerVariable.empty]
  starts_lt := nofun
  starts_strict := .nil
  levelOf_eq := nofun
  decision_iff := nofun

theorem backed (h : a.Consistent) : a.Backed := fun v b => (h.value_iff v b).mp

theorem value_of_mem (h : a.Consistent) {e : TrailItem} (he : e ∈ a.trail) :
    a.value e.literal.var = some e.literal.isPositive :=
  (h.value_iff _ _).mpr ⟨e, he, (Literal.ofVariable_var e.literal).symm⟩

/-- A variable without value is not on the trail. -/
theorem ne_var_of_free (h : a.Consistent) {v : Variable} (free : a.value v = none) {e : TrailItem}
    (he : e ∈ a.trail) : e.literal.var ≠ v := by
  intro hv
  rw [← hv, h.value_of_mem he] at free
  cases free

theorem register (h : a.Consistent) (n : Nat) : (a.register n).Consistent where
  levels_size := by simp [Assignment.register, h.levels_size]
  nodup := h.nodup
  value_iff v b := by rw [value_register]; exact h.value_iff v b
  starts_lt := h.starts_lt
  starts_strict := h.starts_strict
  levelOf_eq p e he := by
    have hvalues := has_of_value (h.value_of_mem (Array.mem_of_getElem? he))
    have hlevels : a.levels.has e.literal.var = true :=
      PerVariable.has_iff.mpr (h.levels_size ▸ PerVariable.has_iff.mp hvalues)
    exact (levelOf_register a n hlevels).trans (h.levelOf_eq p e he)
  decision_iff := h.decision_iff

/-- A free variable is assigned, either on the present level or as the decision of a new one. -/
theorem extend (h : a.Consistent) {l : Literal} (free : a.value l.var = none)
    (known : a.values.has l.var = true) {reason : Reason} {starts : Array Nat}
    (hopens : a.Opens reason starts) :
    (push { a with levelStarts := starts } l reason).Consistent := by
  have hle_size {s : Nat} (hs : s ∈ starts) : s ≤ a.trail.size := by
    rcases hopens.mem_iff.mp hs with hs | ⟨-, rfl⟩
    · exact Nat.le_of_lt (h.starts_lt s hs)
    · exact Nat.le_refl _
  constructor
  case levels_size => simp [push, h.levels_size]
  case nodup =>
    have hnew : l.var ∉ a.trail.toList.map (·.literal.var) := by
      intro hl
      obtain ⟨e, he, hvar⟩ := List.mem_map.mp hl
      exact h.ne_var_of_free free (Array.mem_toList_iff.mp he) hvar
    simp only [push, Array.toList_push, List.map_append, List.map_cons, List.map_nil]
    refine List.nodup_append.mpr ⟨h.nodup, List.nodup_cons.mpr ⟨List.not_mem_nil, List.nodup_nil⟩,
      ?_⟩
    intro v hv u hu hvu
    rw [hvu, List.mem_singleton.mp hu] at hv
    exact hnew hv
  case value_iff =>
    refine value_eq_some_iff_of (Backed.push h.backed l reason) fun e he => ?_
    rcases Array.mem_push.mp he with he | rfl
    · have hne := h.ne_var_of_free free he
      exact (value_push_of_ne hne reason).trans (h.value_of_mem he)
    · exact (value_push ..).trans (if_pos ⟨rfl, known⟩)
  case starts_lt =>
    intro s hs
    simp only [push, Array.size_push]
    exact Nat.lt_succ_of_le (hle_size hs)
  case starts_strict => exact hopens.pairwise h.starts_strict h.starts_lt
  case levelOf_eq =>
    intro p e he
    have hlevelOf := levelOf_push (a := { a with levelStarts := starts }) h.levels_size known
      reason e.literal.var
    rcases getElem?_trail_push.mp he with ⟨hp, he⟩ | ⟨rfl, rfl⟩
    · have hne := h.ne_var_of_free free (Array.mem_of_getElem? he)
      rw [hlevelOf, if_neg hne]
      exact (h.levelOf_eq p e he).trans (congrArg some (hopens.levelAt_eq hp).symm)
    · rw [hlevelOf, if_pos rfl]
      exact congrArg some (levelAt_eq_level fun s hs => hle_size hs).symm
  case decision_iff =>
    intro p e he
    show _ ↔ p ∈ starts
    rw [hopens.mem_iff]
    rcases getElem?_trail_push.mp he with ⟨hp, he⟩ | ⟨rfl, rfl⟩
    · rw [h.decision_iff p e he, or_iff_left fun hs => Nat.ne_of_lt hp hs.2]
    · have hold : a.trail.size ∉ a.levelStarts := fun hs => Nat.lt_irrefl _ (h.starts_lt _ hs)
      rw [or_iff_right hold]
      exact ⟨fun hr => ⟨hr, rfl⟩, And.left⟩

end Consistent

/-! ## Boundaries between levels -/

/-- The levels up to `level` start before the position `start`, and those above it there or
later. -/
structure Boundary (a : Assignment) (level start : Nat) : Prop where
  level_le : level ≤ a.level
  start_le : start ≤ a.trail.size
  before : ∀ s ∈ a.levelStarts.toList.take level, s < start
  after : ∀ s ∈ a.levelStarts.toList.drop level, start ≤ s
  next : start < a.trail.size → start ∈ a.levelStarts.toList.drop level

theorem Consistent.boundary {a : Assignment} (h : a.Consistent) {level start : Nat}
    (hstart : a.startOf level = .ok start) : a.Boundary level start := by
  unfold startOf at hstart
  split at hstart
  · next hle =>
    cases hstart
    rcases Nat.lt_or_ge level a.levelStarts.size with hlt | hge
    · have hget : a.levelStarts.getD level a.trail.size = a.levelStarts[level] := by
        simp [Array.getD, hlt]
      have hdrop : a.levelStarts.toList.drop level =
          a.levelStarts[level] :: a.levelStarts.toList.drop (level + 1) :=
        List.drop_eq_getElem_cons (by simpa using hlt)
      have hstrict := h.starts_strict
      rw [← List.take_append_drop level a.levelStarts.toList, hdrop, List.pairwise_append,
        List.pairwise_cons] at hstrict
      obtain ⟨-, ⟨hafter, -⟩, hbefore⟩ := hstrict
      rw [hget]
      refine ⟨hle, Nat.le_of_lt (h.starts_lt _ (Array.getElem_mem hlt)), fun s hs => ?_,
        fun s hs => ?_, fun _ => ?_⟩
      · exact hbefore s hs _ List.mem_cons_self
      · rw [hdrop] at hs
        rcases List.mem_cons.mp hs with rfl | hs
        · exact Nat.le_refl _
        · exact Nat.le_of_lt (hafter s hs)
      · rw [hdrop]
        exact List.mem_cons_self
    · have htop : level = a.levelStarts.size := Nat.le_antisymm hle hge
      have hget : a.levelStarts.getD level a.trail.size = a.trail.size := by
        simp [Array.getD, htop]
      have hdrop : a.levelStarts.toList.drop level = [] := by simp [htop]
      rw [hget]
      refine ⟨hle, Nat.le_refl _, fun s hs => ?_, fun s hs => ?_, fun hlt => ?_⟩
      · exact h.starts_lt s (Array.mem_toList_iff.mp (List.mem_of_mem_take hs))
      · rw [hdrop] at hs
        cases hs
      · exact absurd hlt (Nat.lt_irrefl _)
  · cases hstart

namespace Boundary

variable {a : Assignment} {level start : Nat}

/-- Before the boundary, only the lower levels count. -/
theorem levelAt_cut (h : a.Boundary level start) {p : Nat} (hp : p < start) :
    (a.cut level start).levelAt p = a.levelAt p := by
  have hsplit : a.levelStarts.toList =
      (a.cut level start).levelStarts.toList ++ a.levelStarts.toList.drop level := by
    rw [toList_levelStarts_cut, List.take_append_drop]
  exact (levelAt_of_append hsplit fun s hs => Nat.lt_of_lt_of_le hp (h.after s hs)).symm

/-- The positions of the lower levels are those before the boundary. -/
theorem levelAt_le_iff (h : a.Boundary level start) {p : Nat} (hp : p < a.trail.size) :
    a.levelAt p ≤ level ↔ p < start := by
  have hsplit : a.levelAt p = (a.levelStarts.toList.take level).countP (· ≤ p) +
      (a.levelStarts.toList.drop level).countP (· ≤ p) := by
    rw [levelAt, ← List.countP_append, List.take_append_drop]
  have hlength : (a.levelStarts.toList.take level).length = level := by
    rw [List.length_take, Array.length_toList]
    exact Nat.min_eq_left h.level_le
  rw [hsplit]
  constructor
  · intro hle
    apply Nat.lt_of_not_le
    intro hp'
    -- All lower levels start before `p`, and so does the first one above them.
    have hall : (a.levelStarts.toList.take level).countP (· ≤ p) = level := by
      refine Eq.trans (List.countP_eq_length.mpr fun s hs => ?_) hlength
      exact decide_eq_true (Nat.le_trans (Nat.le_of_lt (h.before s hs)) hp')
    have hnext : 0 < (a.levelStarts.toList.drop level).countP (· ≤ p) :=
      List.countP_pos_iff.mpr ⟨start, h.next (Nat.lt_of_le_of_lt hp' hp), decide_eq_true hp'⟩
    rw [hall] at hle
    exact absurd hle (Nat.not_le_of_lt (Nat.lt_add_of_pos_right hnext))
  · intro hlt
    have hnone : (a.levelStarts.toList.drop level).countP (· ≤ p) = 0 := by
      rw [List.countP_eq_zero]
      intro s hs
      simpa using Nat.lt_of_lt_of_le hlt (h.after s hs)
    rw [hnone, Nat.add_zero]
    exact Nat.le_trans List.countP_le_length (Nat.le_of_eq hlength)

end Boundary

namespace Consistent

variable {a : Assignment} {level start : Nat}

/-- What is left of the trail after a backjump. -/
theorem getElem?_trail_cut {p : Nat} {e : TrailItem} :
    (a.cut level start).trail[p]? = some e ↔ p < start ∧ a.trail[p]? = some e := by
  rw [← Array.getElem?_toList, ← Array.getElem?_toList, toList_trail_cut, List.getElem?_take]
  split
  · next hp => exact (and_iff_right hp).symm
  · next hp => exact iff_of_false (Option.some_ne_none e).symm fun h => hp h.1

/-- Backjumping takes the levels above a boundary off with their entries. -/
theorem cut (h : a.Consistent) (hstart : a.startOf level = .ok start) :
    (a.cut level start).Consistent := by
  have hboundary := h.boundary hstart
  -- An entry that stays shares its variable with none of those that go.
  have hkept {e : TrailItem} (he : e ∈ (a.cut level start).trail) :
      e.literal.var ∉ (a.above start).map (·.literal.var) := by
    have hnodup := h.nodup
    rw [← List.take_append_drop start a.trail.toList, List.map_append, List.nodup_append] at hnodup
    intro hgone
    exact hnodup.2.2 _ (List.mem_map_of_mem (mem_trail_cut.mp he)) _ hgone rfl
  constructor
  case levels_size =>
    rw [size_cut]
    exact h.levels_size
  case nodup =>
    rw [toList_trail_cut]
    exact h.nodup.sublist ((List.take_sublist ..).map _)
  case value_iff =>
    refine value_eq_some_iff_of (h.backed.cut level start) fun e he => ?_
    rw [value_cut, if_neg (hkept he)]
    refine h.value_of_mem (Array.mem_toList_iff.mp ?_)
    exact List.mem_of_mem_take (mem_trail_cut.mp he)
  case starts_lt =>
    intro s hs
    rw [← Array.mem_toList_iff, toList_levelStarts_cut] at hs
    have hsize : (a.cut level start).trail.size = start := by
      rw [← Array.length_toList, toList_trail_cut, List.length_take, Array.length_toList,
        Nat.min_eq_left hboundary.start_le]
    rw [hsize]
    exact hboundary.before s hs
  case starts_strict =>
    rw [toList_levelStarts_cut]
    exact h.starts_strict.sublist (List.take_sublist ..)
  case levelOf_eq =>
    intro p e he
    obtain ⟨hp, hget⟩ := getElem?_trail_cut.mp he
    rw [levelOf_cut (hkept (Array.mem_of_getElem? he)), hboundary.levelAt_cut hp]
    exact h.levelOf_eq p e hget
  case decision_iff =>
    intro p e he
    obtain ⟨hp, hget⟩ := getElem?_trail_cut.mp he
    rw [h.decision_iff p e hget, ← Array.mem_toList_iff, ← Array.mem_toList_iff,
      toList_levelStarts_cut]
    constructor
    · intro hs
      rw [← List.take_append_drop level a.levelStarts.toList] at hs
      rcases List.mem_append.mp hs with hs | hs
      · exact hs
      · exact absurd hp (Nat.not_lt_of_le (hboundary.after p hs))
    · exact List.mem_of_mem_take

/-! ## Counting -/

/-- Where the entries above a level start, counts those of that level and below. -/
theorem startOf_eq_countP (h : a.Consistent) (hle : level ≤ a.level) :
    a.startOf level =
      .ok (a.trail.countP fun e => (a.levelOf e.literal.var).any (· ≤ level)) := by
  obtain ⟨start, hstart⟩ : ∃ start, a.startOf level = .ok start := ⟨_, if_pos hle⟩
  have hboundary := h.boundary hstart
  have hany (p : Nat) (e : TrailItem) (he : a.trail[p]? = some e) :
      (a.levelOf e.literal.var).any (· ≤ level) = true ↔ p < start := by
    rw [h.levelOf_eq p e he, Option.any_some, decide_eq_true_iff]
    exact hboundary.levelAt_le_iff (Array.getElem?_eq_some_iff.mp he).1
  have hbefore : (a.trail.toList.take start).countP
      (fun e => (a.levelOf e.literal.var).any (· ≤ level)) = start := by
    refine Eq.trans (List.countP_eq_length.mpr fun e he => ?_) ?_
    · obtain ⟨p, hp⟩ := List.mem_iff_getElem?.mp he
      rw [List.getElem?_take] at hp
      split at hp
      · next hlt => exact (hany p e (Array.getElem?_toList ▸ hp)).mpr hlt
      · cases hp
    · rw [List.length_take, Array.length_toList]
      exact Nat.min_eq_left hboundary.start_le
  have hafter : (a.trail.toList.drop start).countP
      (fun e => (a.levelOf e.literal.var).any (· ≤ level)) = 0 := by
    refine List.countP_eq_zero.mpr fun e he => ?_
    obtain ⟨p, hp⟩ := List.mem_iff_getElem?.mp he
    rw [List.getElem?_drop, Array.getElem?_toList] at hp
    rw [hany _ e hp]
    exact Nat.not_lt_of_le (Nat.le_add_right start p)
  rw [hstart, ← Array.countP_toList, ← List.take_append_drop start a.trail.toList,
    List.countP_append, hbefore, hafter]
  rfl

/-- There are no more levels than entries. -/
theorem level_le_size (h : a.Consistent) : a.level ≤ a.trail.size := by
  have hnodup : a.levelStarts.toList.Nodup := h.starts_strict.imp fun hlt => Nat.ne_of_lt hlt
  have hsubset : a.levelStarts.toList ⊆ List.range a.trail.size := fun s hs =>
    List.mem_range.mpr (h.starts_lt s (Array.mem_toList_iff.mp hs))
  have hlength := hnodup.length_le_of_subset hsubset
  rwa [List.length_range, Array.length_toList] at hlength

end Consistent

end Assignment

end ClauseSharing

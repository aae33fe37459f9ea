import ClauseSharing.Proofs.Scalar.Exact
import ClauseSharing.Proofs.Worker.Evolution
import ClauseSharing.Proofs.Worker.Levels

/-!
The shared state of every reachable worker is well formed.

Its tables have one slot for every registered variable, only registered variables are named, the
inactive ones are counted, and values, trail and levels agree (`Core.WellFormed`,
`Worker.Reachable.wellFormed`). A pass keeps this
because every unit that it assigns is named (`WellFormed.fix`). Since the entries of the trail are
distinct registered variables, its length is the number of assigned ones (`WellFormed.size_trail`).
What this means for the trail, its levels and the search is `Worker.trail_values_levels_agree`.
-/

namespace ClauseSharing

/-! ## Names -/

namespace Names

instance : Std.TransCmp compareNames :=
  inferInstanceAs (Std.TransCmp (compare : Nat → Nat → Ordering))

/-- External variables are names of variables that have a slot for a name. -/
def Closed (names : Names) : Prop :=
  ∀ (external : Nat) (v : Variable),
    names.internal[external]? = some v → names.external.has v = true

variable {names names' : Names}

theorem closed_empty : empty.Closed := by
  intro external v h
  simp [empty] at h

/-- More slots close the names no less. -/
theorem Closed.extend (h : names.Closed) (n : Nat) (a : Option Nat) {external : Nat} {v : Variable}
    (hv : names.internal[external]? = some v) : (names.external.extend n a).has v = true := by
  rw [PerVariable.has_iff, PerVariable.size_extend]
  exact Nat.lt_add_right n (PerVariable.has_iff.mp (h external v hv))

theorem size_registerOne (names : Names) :
    names.registerOne.external.size = names.external.size + 1 := by
  unfold registerOne
  split
  · exact PerVariable.size_extend ..
  · split <;> exact PerVariable.size_extend ..

theorem Closed.registerOne (h : names.Closed) : names.registerOne.Closed := by
  unfold Names.registerOne
  split
  · exact fun _ _ => h.extend 1 none
  · next v hv =>
    split
    · exact fun _ _ => h.extend 1 none
    · intro external u hu
      simp only [Std.TreeMap.getElem?_insert] at hu
      split at hu
      · cases hu
        -- The new name is that of the variable whose slot has just been added.
        rw [PerVariable.has_iff, PerVariable.size_extend, (Variable.ofIndex?_eq_some_iff.mp hv).1]
        exact Nat.lt_succ_self _
      · exact h.extend 1 _ hu

theorem size_register (names : Names) (n : Nat) :
    (names.register n).external.size = names.external.size + n := by
  induction n generalizing names with
  | zero => rfl
  | succ n ih =>
    rw [register, ih, size_registerOne, Nat.add_assoc, Nat.add_comm 1 n]

theorem Closed.register (h : names.Closed) (n : Nat) : (names.register n).Closed := by
  induction n generalizing names with
  | zero => exact h
  | succ n ih => exact ih h.registerOne

/-- A name is refused, is the variable's own already, or becomes that of a variable with a slot. -/
theorem rename_cases {external : Nat} {v : Variable} {result : Except Refusal Unit}
    (h : names.rename external v = .ok (names', result)) :
    names' = names ∨
    (names.external.has v = true ∧
      names'.external = names.external.set v (some external) ∧
      ∀ (name : Nat) (u : Variable), names'.internal[name]? = some u →
        u = v ∨ names.internal[name]? = some u) := by
  unfold rename at h
  split at h
  · cases h
    exact .inl rfl
  split at h
  · split at h <;> cases h <;> exact .inl rfl
  · obtain ⟨previous, hprevious, h⟩ := bind_eq_ok_iff.mp h
    cases h
    refine .inr ⟨PerVariable.has_of_get? (PerVariable.fetch_eq_ok_iff.mp hprevious), rfl, ?_⟩
    intro name u hu
    simp only [Std.TreeMap.getElem?_insert] at hu
    split at hu
    · exact .inl (Option.some.inj hu).symm
    · cases previous with
      | none => exact .inr hu
      | some old =>
        simp only [Std.TreeMap.getElem?_erase] at hu
        split at hu
        · cases hu
        · exact .inr hu

theorem size_rename {external : Nat} {v : Variable} {result : Except Refusal Unit}
    (h : names.rename external v = .ok (names', result)) :
    names'.external.size = names.external.size := by
  rcases rename_cases h with rfl | ⟨-, hexternal, -⟩
  · rfl
  · rw [hexternal, PerVariable.size_set]

theorem Closed.rename (hclosed : names.Closed) {external : Nat} {v : Variable}
    {result : Except Refusal Unit} (h : names.rename external v = .ok (names', result)) :
    names'.Closed := by
  rcases rename_cases h with rfl | ⟨hv, hexternal, hinternal⟩
  · exact hclosed
  · intro name u hu
    rw [hexternal, PerVariable.has_iff, PerVariable.size_set, ← PerVariable.has_iff]
    rcases hinternal name u hu with rfl | hu
    · exact hv
    · exact hclosed name u hu

theorem Closed.has_of_resolve (h : names.Closed) {external : Int32} {l : Literal}
    (hl : names.resolve external = some l) : names.external.has l.var = true := by
  obtain ⟨v, hv, rfl⟩ := Option.map_eq_some_iff.mp hl
  rw [Literal.var_ofVariable]
  exact h _ v hv

end Names

/-! ## The shared state -/

namespace Core

/-- The parts of the state agree on what is registered and on what is assigned. -/
structure WellFormed (c : Core) : Prop where
  size_le : c.size ≤ Variable.maxCount
  assignment : c.assignment.Consistent
  states_size : c.states.size = c.size
  names_size : c.names.external.size = c.size
  named : c.names.Closed
  inactive_eq : c.inactive = c.states.slots.countP (· != .active)

variable {c : Core}

/-- Storing a clause and tracing it changes nothing else. -/
theorem insertClause_eq (c : Core) (clause : StoredClause) :
    ∃ store trace, c.insertClause clause = { c with store := store, trace := trace } := by
  unfold insertClause
  split
  · exact ⟨_, _, rfl⟩
  · exact ⟨_, c.trace, rfl⟩

namespace WellFormed

theorem empty : WellFormed .empty where
  size_le := Nat.zero_le _
  assignment := .empty
  states_size := rfl
  names_size := rfl
  named := Names.closed_empty
  inactive_eq := rfl

theorem register (h : c.WellFormed) {n : Nat} (fits : c.size + n ≤ Variable.maxCount) :
    (c.register n).WellFormed := by
  have hsize : (c.register n).size = c.size + n := PerVariable.size_extend ..
  refine ⟨hsize ▸ fits, h.assignment.register n, ?_, ?_, h.named.register n, ?_⟩
  · rw [hsize, ← h.states_size]
    exact PerVariable.size_extend ..
  · rw [hsize, ← h.names_size]
    exact Names.size_register ..
  · simp [Core.register, PerVariable.extend, h.inactive_eq, Array.countP_replicate]

theorem rename (h : c.WellFormed) {external : Nat} {v : Variable} {names : Names}
    {result : Except Refusal Unit} (renamed : c.names.rename external v = .ok (names, result)) :
    WellFormed { c with names := names } where
  size_le := h.size_le
  assignment := h.assignment
  states_size := h.states_size
  names_size := (Names.size_rename renamed).trans h.names_size
  named := h.named.rename renamed
  inactive_eq := h.inactive_eq

/-- The state of a registered variable is on record. -/
theorem get?_states (h : c.WellFormed) {v : Variable} (known : c.registered v = true) :
    c.states.get? v = some (c.stateOf v) := by
  have hhas : c.states.has v = true :=
    PerVariable.has_iff.mpr (h.states_size ▸ PerVariable.has_iff.mp known)
  obtain ⟨state, hstate⟩ := PerVariable.exists_get? hhas
  rw [stateOf, PerVariable.getD, hstate]
  rfl

theorem retire (h : c.WellFormed) {v : Variable} (known : c.registered v = true)
    {state : Participation} (inactive : state ≠ .active) : (c.retire v state).WellFormed := by
  unfold Core.retire
  split
  · next hactive =>
    refine
      { h with states_size := (PerVariable.size_set ..).trans h.states_size, inactive_eq := ?_ }
    have hget := h.get?_states known
    rw [hactive] at hget
    obtain ⟨hlt, hslot⟩ := Array.getElem?_eq_some_iff.mp hget
    -- The slot was not counted before and is counted now.
    simp [PerVariable.set, Array.setIfInBounds, hlt, Array.countP_set, hslot, inactive,
      h.inactive_eq]
  · exact h

/-- Another assignment of the same variables is as good, if it is consistent. -/
theorem reassign (h : c.WellFormed) {a : Assignment} (hsize : a.values.size = c.size)
    (ha : a.Consistent) : WellFormed { c with assignment := a } where
  size_le := Nat.le_trans (Nat.le_of_eq hsize) h.size_le
  assignment := ha
  states_size := h.states_size.trans hsize.symm
  names_size := h.names_size.trans hsize.symm
  named := h.named
  inactive_eq := h.inactive_eq

theorem assign (h : c.WellFormed) {l : Literal} (known : c.registered l.var = true) :
    (c.assign l .propagation).1.WellFormed := by
  rcases c.assign_cases l .propagation with ⟨-, heq⟩ | ⟨-, heq⟩ | ⟨free, heq⟩
  all_goals rw [heq]
  · exact h
  · exact { h with }
  · exact h.reassign (Assignment.size_push ..) (h.assignment.extend free known .propagation)

theorem decide (h : c.WellFormed) {l : Literal} (known : c.registered l.var = true)
    (free : c.assignment.value l.var = none) :
    WellFormed { c with assignment := c.assignment.openLevel.push l .decision } :=
  h.reassign (Assignment.size_push c.assignment.openLevel l .decision)
    (h.assignment.extend free known .decision)

theorem backjump (h : c.WellFormed) {level start : Nat}
    (starts : c.assignment.startOf level = .ok start) :
    WellFormed { c with assignment := c.assignment.cut level start } :=
  h.reassign (Assignment.size_cut ..) (h.assignment.cut starts)

theorem insertClause (h : c.WellFormed) (clause : StoredClause) :
    (c.insertClause clause).WellFormed := by
  obtain ⟨store, trace, heq⟩ := c.insertClause_eq clause
  rw [heq]
  exact { h with }

theorem assertClause (h : c.WellFormed) {literals : List Literal}
    (known : ∀ l ∈ literals.take 2, c.registered l.var = true) :
    (c.assertClause literals).WellFormed := by
  unfold Core.assertClause
  split
  · exact { h with }
  · exact h.assign (known _ List.mem_cons_self)
  · exact h.insertClause _

/-- Whatever has a name is registered. -/
theorem registered_of_resolve (h : c.WellFormed) {external : Int32} {l : Literal}
    (hl : c.names.resolve external = some l) : c.registered l.var = true := by
  have hlt := PerVariable.has_iff.mp (h.named.has_of_resolve hl)
  rw [h.names_size] at hlt
  exact PerVariable.has_iff.mpr hlt

/-- A pass assigns named variables only. -/
theorem fix (h : c.WellFormed) {external : Int32} {l : Literal}
    (taken : unitToAssign c external = some l) : (c.fix l).WellFormed := by
  have hassigned := h.assign (h.registered_of_resolve (unitToAssign_eq_some taken).1)
  exact { hassigned with }

theorem run {K : Type} [Scalar K] (h : c.WellFormed) (s : Selector K)
    (probabilities : LiteralLikelihood K) (batch : List (List Int32)) :
    (s.run probabilities c batch).1.WellFormed :=
  Selector.run_induction (P := WellFormed) (fun _ _ _ taken h => h.fix taken)
    (fun _ _ h => h.insertClause _) s probabilities h batch

end WellFormed

/-! ## Assigned variables -/

/-- The registered variables, in the order of their registration. -/
def registry (c : Core) : List Variable := (List.range c.size).filterMap Variable.ofIndex?

theorem nodup_registry (c : Core) : c.registry.Nodup := by
  rw [registry, List.Nodup, List.pairwise_filterMap]
  refine List.nodup_range.imp fun hne v hv u hu hvu => hne ?_
  rw [← (Variable.ofIndex?_eq_some_iff.mp hv).1, hvu, (Variable.ofIndex?_eq_some_iff.mp hu).1]

namespace WellFormed

theorem mem_registry (h : c.WellFormed) {v : Variable} :
    v ∈ c.registry ↔ c.registered v = true := by
  constructor
  · intro hv
    obtain ⟨i, hi, hv⟩ := List.mem_filterMap.mp hv
    refine PerVariable.has_iff.mpr ?_
    rw [(Variable.ofIndex?_eq_some_iff.mp hv).1]
    exact List.mem_range.mp hi
  · exact PerVariable.mem_variables h.size_le

/-- Every index in range is that of a registered variable. -/
theorem exists_ofIndex? (h : c.WellFormed) {i : Nat} (hi : i ∈ List.range c.size) :
    ∃ v, Variable.ofIndex? i = some v ∧ v.index = i ∧ c.registered v = true := by
  have hlt := List.mem_range.mp hi
  have hmax := Nat.lt_of_lt_of_le hlt h.size_le
  refine ⟨⟨i, Nat.lt_trans hmax (by decide)⟩, ?_, rfl, PerVariable.has_iff.mpr hlt⟩
  exact Variable.ofIndex?_eq_some_iff.mpr ⟨rfl, hmax⟩

theorem length_registry (h : c.WellFormed) : c.registry.length = c.size := by
  rw [registry, List.length_filterMap_eq_countP]
  refine Eq.trans (List.countP_eq_length.mpr fun i hi => ?_) List.length_range
  obtain ⟨v, hv, -, -⟩ := h.exists_ofIndex? hi
  rw [hv]
  rfl

/-- The trail lists the assigned variables, each one once. -/
theorem trail_perm (h : c.WellFormed) :
    (c.assignment.trail.toList.map (·.literal.var)).Perm
      (c.registry.filter fun v => (c.assignment.value v).isSome) := by
  refine (List.perm_ext_iff_of_nodup h.assignment.nodup (c.nodup_registry.filter _)).mpr
    fun v => ?_
  rw [List.mem_filter, h.mem_registry]
  constructor
  · intro hv
    obtain ⟨e, he, rfl⟩ := List.mem_map.mp hv
    have hvalue := h.assignment.value_of_mem (Array.mem_toList_iff.mp he)
    exact ⟨Assignment.has_of_value hvalue, by rw [hvalue]; rfl⟩
  · rintro ⟨-, hv⟩
    obtain ⟨b, hb⟩ := Option.isSome_iff_exists.mp hv
    obtain ⟨e, he, hlit⟩ := h.assignment.backed v b hb
    refine List.mem_map.mpr ⟨e, Array.mem_toList_iff.mpr he, ?_⟩
    rw [hlit, Literal.var_ofVariable]

theorem size_trail (h : c.WellFormed) : c.assignment.trail.size =
    c.registry.countP fun v => (c.assignment.value v).isSome := by
  rw [List.countP_eq_length_filter, ← h.trail_perm.length_eq, List.length_map,
    Array.length_toList]

end WellFormed

end Core

namespace Worker

variable {K R : Type} [Scalar K] {w : Worker K R}

theorem Evolves.wellFormed {op : Operation R} {c : Core} (hevolves : Evolves w op c)
    (h : w.core.WellFormed) : c.WellFormed := by
  cases hevolves with
  | stays => exact h
  | registers fits => exact h.register fits
  | renames renamed => exact h.rename renamed
  | forbids | traces => exact { h with }
  | retires inactive known => exact h.retire known inactive
  | asserts _ known => exact h.assertClause known
  | assigns known => exact h.assign known
  | decides known _ free => exact h.decide known free
  | backjumps starts => exact h.backjump starts
  | learns => exact h.insertClause _
  | passes => exact h.run _ _ _

variable [Recorder R K]

/-- The shared state of every reachable worker is well formed. -/
theorem Reachable.wellFormed {settings : Settings K} (h : Reachable settings w) :
    w.core.WellFormed :=
  h.core_induction (P := Core.WellFormed) .empty fun _ _ _ hevolves => hevolves.wellFormed

/-! ## Main statement -/

/-- Catching a variable up asks for a record, for a time that can be counted, and for one that has
not passed, and for nothing else. -/
theorem ne_precondition_of_catchUp {s : Stability K} {v : Variable} {tick : Int}
    {value : Option Bool} : s.catchUp v tick value ≠ .error .precondition := by
  intro h
  unfold Stability.catchUp at h
  simp only [bind_eq_error_iff] at h
  rcases h with h | ⟨r, -, h | ⟨steps, -, h⟩⟩
  · unfold PerVariable.fetch at h
    split at h <;> cases h
  · unfold inWord64 at h
    split at h <;> cases h
  · split at h
    · cases h
    split at h <;> cases h

omit [Recorder R K] in
/-- Deciding a literal never finds it assigned once its level has been opened. -/
theorem decide_ne_precondition (w : Worker K R) (l : Literal) :
    w.decide l ≠ .error .precondition := by
  intro h
  rcases bind_eq_error_iff.mp h with h | ⟨_, -, h⟩
  · unfold Core.require at h
    split at h <;> cases h
  split at h
  · cases h
  split at h
  · cases h
  next hassigned =>
  have hfree : w.core.assignment.value l.var = none := by simpa using hassigned
  rcases bind_eq_error_iff.mp h with h | ⟨w₁, hcatch, h⟩
  · rcases bind_eq_error_iff.mp h with h | ⟨_, -, h⟩
    · exact ne_precondition_of_catchUp h
    · cases h
  · obtain ⟨s, -, hw⟩ := bind_eq_ok_iff.mp hcatch
    cases hw
    simp only [assign_openLevel hfree] at h
    cases h

/-- In every reachable worker, trail, values and levels agree. No variable is on the trail twice, a
variable has a value exactly if the literal of that polarity is on the trail, the level on record of
an entry is that of its position, and exactly the entries with which levels start are decisions. So
levels never decrease along the trail, the start of the levels above `level` counts the entries of
`level` and below, there are no more levels than assigned variables, and deciding a literal never
finds it assigned once its level has been opened. -/
theorem trail_values_levels_agree {settings : Settings K} (hw : Reachable settings w) :
    w.core.assignment.Consistent ∧
    (∀ (p q : Nat) (e f : TrailItem), p ≤ q → w.core.assignment.trail[p]? = some e →
      w.core.assignment.trail[q]? = some f →
      ∃ i j, w.core.assignment.levelOf e.literal.var = some i ∧
        w.core.assignment.levelOf f.literal.var = some j ∧ i ≤ j) ∧
    (∀ level ≤ w.level, w.core.assignment.startOf level =
      .ok (w.core.assignment.trail.countP fun e =>
        (w.core.assignment.levelOf e.literal.var).any (· ≤ level))) ∧
    w.level ≤ w.core.registry.countP (fun v => (w.core.assignment.value v).isSome) ∧
    ∀ l, w.decide l ≠ .error .precondition := by
  have hcore := hw.wellFormed
  have h := hcore.assignment
  refine ⟨h, ?_, fun level hle => h.startOf_eq_countP hle, ?_, w.decide_ne_precondition⟩
  · intro p q e f hpq he hf
    exact ⟨_, _, h.levelOf_eq p e he, h.levelOf_eq q f hf, Assignment.levelAt_mono _ hpq⟩
  · rw [← hcore.size_trail]
    exact h.level_le_size

/-- A run with the standard settings and rational arithmetic leads to a reachable worker. -/
theorem reachable_standard {ops : List Operation}
    (h : (blank .standard : Worker Rat).Completes ops) :
    Reachable .standard ((blank .standard : Worker Rat).after ops) :=
  ⟨_, ops, create_eq_ok_iff.mpr ⟨Settings.validate_standard, rfl⟩, h, rfl⟩

/-- A root unit, a decision with a propagation after it, and a deeper decision that is taken
back. -/
def partialBackjump : List Operation :=
  [.addVariables 4, .assertClause [.ofVariable .third false],
    .decide (.ofVariable .first true), .assign (.ofVariable .fourth false),
    .decide (.ofVariable .second true), .backtrack 1]

theorem trail_values_levels_agree_partialBackjump :
    Reachable .standard ((blank .standard : Worker Rat).after partialBackjump) ∧
    ((blank .standard : Worker Rat).after partialBackjump).level = 1 ∧
    ((blank .standard : Worker Rat).after partialBackjump).core.assignment.startOf 0 = .ok 1 ∧
    ((blank .standard : Worker Rat).after partialBackjump).core.assignment.startOf 1 = .ok 3 := by
  have hw : Reachable .standard ((blank .standard : Worker Rat).after partialBackjump) := by
    refine ⟨_, partialBackjump, create_eq_ok_iff.mpr ⟨Settings.validate_standard, rfl⟩, ?_, rfl⟩
    unfold Completes
    decide +kernel
  obtain ⟨-, -, hstarts, -, -⟩ := trail_values_levels_agree hw
  refine ⟨hw, by decide +kernel, (hstarts 0 (by decide +kernel)).trans ?_,
    (hstarts 1 (by decide +kernel)).trans ?_⟩
  · exact congrArg Except.ok (by decide +kernel)
  · exact congrArg Except.ok (by decide +kernel)

end Worker

end ClauseSharing

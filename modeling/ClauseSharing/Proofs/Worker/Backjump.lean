import ClauseSharing.Proofs.Polarity.Timing
import Mathlib.Data.List.Infix

/-!
Backjumping gives back the assignment on which a level was opened.

An assignment extends another one if it has kept all of it and has opened a level right after it
(`Assignment.Extends`). A decision makes such an extension, and no operation undoes it that stays
above the level at which the decision was made (`Worker.Effect.extends`). Cutting the extension off
leaves the trail and the levels as they were, and these determine the values
(`Assignment.Extends.snapshot`).

Main statement: `Worker.backtrack_restores`.
-/

namespace ClauseSharing

namespace Assignment

variable {a b : Assignment}

/-! ## Extensions -/

/-- `b` still has the trail and the levels of `a`, and above these a level that starts where the
trail of `a` ends. -/
structure Extends (a b : Assignment) : Prop where
  trail : a.trail.toList <+: b.trail.toList
  starts : a.levelStarts.toList ++ [a.trail.size] <+: b.levelStarts.toList

namespace Extends

theorem decide (a : Assignment) (l : Literal) : a.Extends (a.openLevel.push l .decision) where
  trail := by
    simp only [push, openLevel, Array.toList_push]
    exact List.prefix_append ..
  starts := by
    simp only [push, openLevel, Array.toList_push]
    exact List.prefix_rfl

theorem register (h : a.Extends b) (n : Nat) : a.Extends (b.register n) := ⟨h.trail, h.starts⟩

theorem openLevel (h : a.Extends b) : a.Extends b.openLevel where
  trail := h.trail
  starts := by
    simp only [Assignment.openLevel, Array.toList_push]
    exact h.starts.trans (List.prefix_append ..)

theorem push (h : a.Extends b) (l : Literal) (reason : Reason) : a.Extends (b.push l reason) where
  trail := by
    simp only [Assignment.push, Array.toList_push]
    exact h.trail.trans (List.prefix_append ..)
  starts := h.starts

/-- The level above those of `a` starts where the trail of `a` ends. -/
theorem getElem?_levelStarts (h : a.Extends b) :
    b.levelStarts.toList[a.level]? = some a.trail.size := by
  obtain ⟨later, hlater⟩ := h.starts
  have hlevel : a.level = a.levelStarts.toList.length := Array.length_toList.symm
  rw [← hlater, hlevel, List.append_assoc, List.getElem?_append_right (Nat.le_refl _),
    Nat.sub_self]
  rfl

theorem level_lt (h : a.Extends b) : a.level < b.level := by
  obtain ⟨hlt, -⟩ := List.getElem?_eq_some_iff.mp h.getElem?_levelStarts
  rwa [Array.length_toList] at hlt

/-- A backjump that stays above the levels of `a` leaves the extension one. -/
theorem cut (h : a.Extends b) (hb : b.Consistent) {level start : Nat}
    (hstart : b.startOf level = .ok start) (hlevel : a.level < level) :
    a.Extends (b.cut level start) := by
  have hboundary := hb.boundary hstart
  -- The level above those of `a` is one of those that stay.
  have hmem : a.trail.size ∈ b.levelStarts.toList.take level := by
    refine List.mem_of_getElem? (i := a.level) ?_
    rw [List.getElem?_take_of_lt hlevel]
    exact h.getElem?_levelStarts
  have hbefore : a.trail.size < start := hboundary.before _ hmem
  constructor
  · rw [toList_trail_cut, List.prefix_take_iff, Array.length_toList]
    exact ⟨h.trail, Nat.le_of_lt hbefore⟩
  · rw [toList_levelStarts_cut, List.prefix_take_iff, List.length_append, Array.length_toList]
    exact ⟨h.starts, hlevel⟩

/-- The entries above the levels of `a` start where its trail ends. -/
theorem startOf_eq (h : a.Extends b) : b.startOf a.level = .ok a.trail.size := by
  have hget : b.levelStarts[a.level]? = some a.trail.size := by
    rw [← Array.getElem?_toList]
    exact h.getElem?_levelStarts
  rw [startOf, if_pos (Nat.le_of_lt h.level_lt), Array.getD_eq_getD_getElem?, hget]
  rfl

end Extends

/-! ## Snapshots -/

/-- `b` has the trail and the levels of `a`, and it gives every variable the value and the level
that `a` gives it. -/
structure Snapshot (a b : Assignment) : Prop where
  trail_eq : b.trail = a.trail
  levelStarts_eq : b.levelStarts = a.levelStarts
  value_eq : ∀ v, b.value v = a.value v
  levelOf_eq : ∀ v, b.levelOf v = a.levelOf v

/-- Trail and levels determine the rest. -/
theorem Consistent.snapshot (ha : a.Consistent) (hb : b.Consistent) (htrail : b.trail = a.trail)
    (hstarts : b.levelStarts = a.levelStarts) : a.Snapshot b := by
  have hvalue (v : Variable) : b.value v = a.value v := by
    apply Option.ext
    intro x
    rw [hb.value_iff, ha.value_iff, htrail]
  refine ⟨htrail, hstarts, hvalue, fun v => ?_⟩
  cases hv : a.value v with
  | none => rw [levelOf, levelOf, hvalue, hv]; rfl
  | some x =>
    obtain ⟨e, he, hlit⟩ := (ha.value_iff v x).mp hv
    obtain ⟨p, hp⟩ := Array.mem_iff_getElem?.mp he
    have hvar : e.literal.var = v := by rw [hlit, Literal.var_ofVariable]
    rw [← hvar, ha.levelOf_eq p e hp, hb.levelOf_eq p e (htrail ▸ hp), levelAt, levelAt, hstarts]

/-- Cutting an extension off gives back what was extended. -/
theorem Extends.snapshot (h : a.Extends b) (ha : a.Consistent) (hb : b.Consistent) :
    a.Snapshot (b.cut a.level a.trail.size) := by
  refine ha.snapshot (hb.cut h.startOf_eq) ?_ ?_
  · apply Array.toList_inj.mp
    rw [toList_trail_cut, ← Array.length_toList]
    exact (List.prefix_iff_eq_take.mp h.trail).symm
  · have hprefix := (List.prefix_append a.levelStarts.toList [a.trail.size]).trans h.starts
    apply Array.toList_inj.mp
    rw [toList_levelStarts_cut, level, ← Array.length_toList]
    exact (List.prefix_iff_eq_take.mp hprefix).symm

/-! ## The present level -/

theorem startOf_level (a : Assignment) : a.startOf a.level = .ok a.trail.size := by
  rw [startOf, if_pos (Nat.le_refl _)]
  simp [level]

theorem above_size (a : Assignment) : a.above a.trail.size = [] := by
  simp [above]

/-- There is nothing above the present level to cut off. -/
theorem cut_level (a : Assignment) : a.cut a.level a.trail.size = a := by
  have hnone : a.trail.toList.drop a.trail.size = [] := a.above_size
  rw [cut, hnone, level, Array.extract_size, Array.extract_size]
  rfl

end Assignment

/-- Assigning opens no level. -/
theorem Core.levelStarts_assign (c : Core) (l : Literal) (reason : Reason) :
    (c.assign l reason).1.assignment.levelStarts = c.assignment.levelStarts := by
  rcases c.assign_cases l reason with ⟨-, h⟩ | ⟨-, h⟩ | ⟨-, h⟩
  all_goals rw [h]
  rfl

namespace Worker

variable {K R : Type} [Scalar K] {settings : Settings K} {w w' : Worker K R}

/-! ## Levels in a run -/

/-- A pass opens and closes no levels. -/
theorem levelStarts_run (s : Selector K) (probabilities : LiteralLikelihood K) (c : Core)
    (batch : List (List Int32)) :
    (s.run probabilities c batch).1.assignment.levelStarts = c.assignment.levelStarts := by
  refine Selector.run_induction
    (P := fun d : Core => d.assignment.levelStarts = c.assignment.levelStarts)
    (fun d _ l _ h => ?_) (fun d _ h => ?_) s probabilities rfl batch
  · exact (Core.levelStarts_assign d l .propagation).trans h
  · exact (congrArg (·.levelStarts) (Core.assignment_insertClause d _)).trans h

/-- An operation that raises the level is a decision. -/
theorem Effect.decides_of_level_lt {op : Operation R} (h : Effect w op w')
    (hlevel : w.level < w'.level) :
    ∃ l, op = .decide l ∧
      w'.core.assignment = w.core.assignment.openLevel.push l .decision := by
  have hstays (heq : w'.core.assignment.levelStarts = w.core.assignment.levelStarts) : False :=
    Nat.ne_of_lt hlevel (congrArg Array.size heq).symm
  cases h with
  | still _ _ _ heq => exact (hstays (congrArg _ heq)).elim
  | counts | catchesUp | registers => exact (hstays rfl).elim
  | assigns => exact (hstays (Core.levelStarts_assign ..)).elim
  | @decides l => exact ⟨l, rfl, rfl⟩
  | @backjumps level start =>
    exact absurd hlevel (Nat.not_lt_of_le
      (Nat.le_trans (w.core.assignment.level_cut_le level start) (Nat.min_le_right ..)))
  | passes => exact (hstays (levelStarts_run ..)).elim

variable [Recorder R K]

/-- From `w`, at the given level, the literal is decided, and the operations after that leave the
worker above that level: the decision is the one that opened the present level next to it. -/
structure Opens (w : Worker K R) (level : Nat) (l : Literal) (since : List (Operation R)) :
    Prop where
  level_eq : w.level = level
  above : ∀ part, part <+: since → level < ((w.step (.decide l)).1.after part).level

/-- A run through a decision goes on from there. -/
theorem after_decide {before since : List (Operation R)} {l : Literal}
    (h : w.Completes (before ++ .decide l :: since)) :
    w.after (before ++ .decide l :: since) =
      (((w.after before).step (.decide l)).1).after since := by
  obtain ⟨-, hrest, hafter⟩ := completes_append h
  rw [hafter, after_cons hrest]

/-- Whoever is above a level has opened the next one since. -/
theorem exists_opens {ops : List (Operation R)} (h : w.Completes ops) {level : Nat}
    (hstart : w.level ≤ level) (hlevel : level < (w.after ops).level) :
    ∃ before l since, ops = before ++ .decide l :: since ∧
      (w.after before).Opens level l since := by
  induction ops using List.reverseRecOn with
  | nil => exact absurd hlevel (Nat.not_lt_of_le hstart)
  | append_singleton ops op ih =>
    obtain ⟨hops, hlast, hafter⟩ := completes_append h
    rcases Nat.lt_or_ge level (w.after ops).level with habove | hbelow
    · obtain ⟨before, l, since, rfl, hopens⟩ := ih hops habove
      have hsplit : before ++ .decide l :: since ++ [op] = before ++ .decide l :: (since ++ [op]) :=
        List.append_assoc ..
      refine ⟨before, l, since ++ [op], hsplit, hopens.level_eq, fun part hpart => ?_⟩
      rcases List.prefix_concat_iff.mp hpart with rfl | hpart
      · rwa [← after_decide (hsplit ▸ h), ← hsplit]
      · exact hopens.above part hpart
    · -- The last operation has raised the level, so it is the decision.
      rw [hafter, after_cons hlast] at hlevel
      obtain ⟨l, rfl, hnext⟩ := (effect_step (completes_cons.mp hlast).1).decides_of_level_lt
        (Nat.lt_of_le_of_lt hbelow hlevel)
      have hraised : ((w.after ops).step (.decide l)).1.level = (w.after ops).level + 1 := by
        rw [Worker.level, hnext]
        exact Array.size_push ..
      refine ⟨ops, l, [], rfl, ?_, fun part hpart => ?_⟩
      · have hle : level < (w.after ops).level + 1 := hraised ▸ hlevel
        exact Nat.le_antisymm hbelow (Nat.le_of_lt_succ hle)
      · rw [List.prefix_nil.mp hpart]
        exact hlevel

/-! ## Extensions in a run -/

variable {a : Assignment}

omit [Recorder R K] in
/-- What stays above the levels of an assignment extends it on. -/
theorem Effect.extends {op : Operation R} (heffect : Effect w op w')
    (hw : w.core.assignment.Consistent) (h : a.Extends w.core.assignment)
    (hlevel : a.level < w'.level) : a.Extends w'.core.assignment := by
  cases heffect with
  | still _ _ _ heq => exact heq ▸ h
  | counts | catchesUp => exact h
  | registers => exact h.register _
  | @assigns _ l =>
    rcases w.core.assign_cases l .propagation with ⟨-, heq⟩ | ⟨-, heq⟩ | ⟨-, heq⟩
    all_goals rw [heq]
    · exact h
    · exact h
    · exact h.push l .propagation
  | decides => exact h.openLevel.push _ _
  | @backjumps level start _ starts =>
    exact h.cut hw starts (Nat.lt_of_lt_of_le hlevel
      (Nat.le_trans (w.core.assignment.level_cut_le level start) (Nat.min_le_left ..)))
  | passes root =>
    have hroot : w.core.assignment.level = 0 := root
    exact absurd h.level_lt (hroot ▸ Nat.not_lt_zero _)

/-- A decision extends the assignment on which it opened a level, and so does everything after it
that stays above. -/
theorem extends_after (hw : Reachable settings w) (h : a.Extends w.core.assignment)
    {since : List (Operation R)} (hsince : w.Completes since)
    (habove : ∀ part, part <+: since → a.level < (w.after part).level) :
    a.Extends (w.after since).core.assignment := by
  induction since generalizing w with
  | nil => exact h
  | cons op since ih =>
    obtain ⟨hop, hrest⟩ := completes_cons.mp hsince
    have hpart {part : List (Operation R)} (hpart : part <+: since) :
        w.after (op :: part) = (w.step op).1.after part := by
      obtain ⟨more, rfl⟩ := hpart
      have hcompletes : w.Completes (op :: part ++ more) := hsince
      exact after_cons (completes_append hcompletes).1
    have hlevel : a.level < (w.step op).1.level := by
      have hfirst := habove [op] ⟨since, rfl⟩
      rwa [hpart List.nil_prefix] at hfirst
    rw [hpart List.prefix_rfl]
    refine ih (hw.step hop) ((effect_step hop).extends hw.wellFormed.assignment h hlevel) hrest ?_
    intro part hprefix
    have hnext := habove (op :: part) ((List.prefix_cons_inj op).mpr hprefix)
    rwa [hpart hprefix] at hnext

/-- The assignment after a decision extends the one before it, as long as the level is not left. -/
theorem Opens.extends (hw : Reachable settings w) {level : Nat} {l : Literal}
    {since : List (Operation R)} (h : w.Opens level l since)
    (hcompletes : w.Completes (.decide l :: since)) :
    w.core.assignment.Extends (w.after (.decide l :: since)).core.assignment := by
  obtain ⟨rfl, habove⟩ := h
  obtain ⟨hop, hrest⟩ := completes_cons.mp hcompletes
  obtain ⟨m, hdecide, hnext⟩ :=
    (effect_step hop).decides_of_level_lt (habove [] List.nil_prefix)
  have hfirst : w.core.assignment.Extends (w.step (.decide l)).1.core.assignment := by
    rw [hnext]
    exact .decide _ m
  rw [after_cons hcompletes]
  exact extends_after (hw.step hop) hfirst hrest habove

/-! ## Backjumps -/

/-- From `w` to `w'`, variables have lost their values and nothing else has happened: their records,
and no others, have been caught up to the present tick with the values that they had. -/
structure Unassigns (w w' : Worker K R) : Prop where
  frame : w' = { w with core.assignment := w'.core.assignment, stability := w'.stability }
  value_cases : ∀ v, w'.core.assignment.value v = w.core.assignment.value v ∨
    w'.core.assignment.value v = none
  caughtUp : ∀ v b, w.core.assignment.value v = some b → w'.core.assignment.value v = none →
    ∃ r r', w.stability.records.get? v = some r ∧ w'.stability.records.get? v = some r' ∧
      r' = r.caughtUp w.stability.rate w.tick (some b) ∧ r'.lastTick = w.tick
  get?_eq : ∀ v, w'.core.assignment.value v = w.core.assignment.value v →
    w'.stability.records.get? v = w.stability.records.get? v

omit [Recorder R K] in
/-- Cutting off entries of the trail after the records of their variables were caught up. -/
theorem unassigns_cut {level start : Nat} {s : Stability K}
    (hassigned : ∀ v ∈ (w.core.assignment.above start).map (·.literal.var),
      w.core.assignment.value v ≠ none ∧ w.stability.records.has v = true)
    (hs : Stability.CatchesUp w.stability s
      ((w.core.assignment.above start).map (·.literal.var)) w.tick w.core.assignment.value) :
    w.Unassigns
      { w with core.assignment := w.core.assignment.cut level start, stability := s } := by
  refine ⟨rfl, fun v => ?_, fun v b hb hnone => ?_, fun v hsame => ?_⟩
  · show (w.core.assignment.cut level start).value v = _ ∨
      (w.core.assignment.cut level start).value v = none
    rw [Assignment.value_cut]
    split
    · exact .inr rfl
    · exact .inl rfl
  · have hv : v ∈ (w.core.assignment.above start).map (·.literal.var) := by
      apply Decidable.byContradiction
      intro hv
      rw [Assignment.value_cut, if_neg hv, hb] at hnone
      cases hnone
    obtain ⟨r, hr⟩ := PerVariable.exists_get? (hassigned v hv).2
    refine ⟨r, _, hr, ?_, rfl, PolarityRecord.lastTick_caughtUp ..⟩
    rw [hs.get?_eq, if_pos hv, hr, hb]
    rfl
  · have hv : v ∉ (w.core.assignment.above start).map (·.literal.var) := by
      intro hv
      rw [Assignment.value_cut, if_pos hv] at hsame
      exact (hassigned v hv).1 hsame.symm
    rw [hs.get?_eq, if_neg hv]

/-- Backjumping to the present level or below answers. -/
theorem Reachable.exists_backtrack (hw : Reachable settings w) {level start : Nat}
    (hstart : w.core.assignment.startOf level = .ok start) :
    ∃ w', w.backtrack level = .ok w' ∧
      w'.core.assignment = w.core.assignment.cut level start ∧ w.Unassigns w' := by
  have htimed := hw.timed
  have hassigned (v : Variable) (hv : v ∈ (w.core.assignment.above start).map (·.literal.var)) :
      w.core.assignment.value v ≠ none ∧ w.stability.records.has v = true := by
    obtain ⟨e, he, rfl⟩ := List.mem_map.mp hv
    have hvalue := hw.wellFormed.assignment.value_of_mem
      (Array.mem_toList_iff.mp (List.mem_of_mem_drop he))
    refine ⟨hvalue ▸ Option.some_ne_none _, ?_⟩
    rw [PerVariable.has_iff, hw.records_size]
    exact PerVariable.has_iff.mp (Assignment.has_of_value hvalue)
  obtain ⟨s, hs⟩ := htimed.records.exists_catchUpEach htimed.tick_lt
    (fun v hv => (hassigned v hv).2) w.core.assignment.value
  exact ⟨_, bind_eq_ok_iff.mpr ⟨start, hstart, bind_eq_ok_iff.mpr ⟨s, hs, rfl⟩⟩, rfl,
    unassigns_cut hassigned (Stability.catchesUp_of_catchUpEach htimed.records.cacheValid hs)⟩

omit [Recorder R K] in
/-- Backjumping to the present level changes nothing. -/
theorem backtrack_level (w : Worker K R) : w.backtrack w.level = .ok w := by
  have habove : w.core.assignment.trail.toList.drop w.core.assignment.trail.size = [] :=
    w.core.assignment.above_size
  refine bind_eq_ok_iff.mpr ⟨_, w.core.assignment.startOf_level, ?_⟩
  dsimp only
  rw [habove]
  refine bind_eq_ok_iff.mpr ⟨w.stability, rfl, ?_⟩
  have hcut := w.core.assignment.cut_level
  rw [level, hcut]
  rfl

/-! ## Main statement -/

/-- Take any run, and a level below the one at its end. Some decision of the run was made at that
level and has opened the one next to it that is still open. Whatever happened since, backjumping to
the level gives back the trail, the values and the levels from before that decision, and variables
registered since are without value. Backjumping to any level up to the present one answers, and
nothing changes but that variables lose their values and have had their records caught up with
these; backjumping to the present level changes nothing at all. -/
theorem backtrack_restores {w₀ : Worker K R} (hcreate : create settings = .ok w₀)
    {ops : List (Operation R)} (h : w₀.Completes ops) :
    (∀ level < (w₀.after ops).level,
      (∃ before l since, ops = before ++ .decide l :: since ∧
        (w₀.after before).Opens level l since) ∧
      ∀ before l since, ops = before ++ .decide l :: since →
        (w₀.after before).Opens level l since →
        ∃ w', (w₀.after ops).backtrack level = .ok w' ∧
          (w₀.after before).core.assignment.Snapshot w'.core.assignment ∧
          ∀ v, (w₀.after before).core.registered v = false →
            w'.core.assignment.value v = none) ∧
    (∀ level ≤ (w₀.after ops).level,
      ∃ w', (w₀.after ops).backtrack level = .ok w' ∧ (w₀.after ops).Unassigns w') ∧
    (w₀.after ops).backtrack (w₀.after ops).level = .ok (w₀.after ops) := by
  have hreach {part : List (Operation R)} (hpart : w₀.Completes part) :
      Reachable settings (w₀.after part) := ⟨w₀, part, hcreate, hpart, rfl⟩
  refine ⟨fun level hlevel => ⟨?_, ?_⟩, fun level hle => ?_, backtrack_level _⟩
  · have hroot : w₀.level = 0 := by
      obtain ⟨-, rfl⟩ := create_eq_ok_iff.mp hcreate
      rfl
    exact exists_opens h (hroot ▸ Nat.zero_le level) hlevel
  · rintro before l since rfl hopens
    obtain ⟨hbefore, hrest, hafter⟩ := completes_append h
    have hextends := hopens.extends (hreach hbefore) hrest
    rw [← hafter] at hextends
    obtain ⟨w', hw', hcut, -⟩ := (hreach h).exists_backtrack hextends.startOf_eq
    have hsnapshot := hextends.snapshot (hreach hbefore).wellFormed.assignment
      (hreach h).wellFormed.assignment
    rw [← hcut] at hsnapshot
    refine ⟨w', hopens.level_eq ▸ hw', hsnapshot, fun v hv => ?_⟩
    rw [hsnapshot.value_eq, Option.eq_none_iff_forall_ne_some]
    intro b hb
    rw [Core.registered, Assignment.has_of_value hb] at hv
    cases hv
  · have hstart : (w₀.after ops).core.assignment.startOf level = .ok _ := if_pos hle
    obtain ⟨w', hw', -, hunassigns⟩ := (hreach h).exists_backtrack hstart
    exact ⟨w', hw', hunassigns⟩

/-- A root unit, which stands before the first decision. -/
def unitAtRoot : List Operation :=
  [.addVariables 3, .assertClause [.ofVariable .third false]]

/-- A propagation, a deeper level that is opened and left again, a conflict, a learned clause, a new
variable and a propagation of it. -/
def searchAbove : List Operation :=
  [.assign (.ofVariable .second true), .addVariables 1, .conflict,
    .decide (.ofVariable .fourth true), .conflict, .backtrack 1,
    .learn [.ofVariable .first false, .ofVariable .fourth false] 2,
    .assign (.ofVariable .fourth false), .conflict]

/-- The search above a decision of the first variable. -/
def nestedLevels : List Operation :=
  unitAtRoot ++ .decide (.ofVariable .first true) :: searchAbove

theorem backtrack_restores_nestedLevels :
    (blank .standard : Worker Rat).Completes nestedLevels ∧
    ((blank .standard : Worker Rat).after nestedLevels).level = 1 ∧
    ((blank .standard : Worker Rat).after nestedLevels).core.assignment.trail.size = 4 ∧
    ((blank .standard : Worker Rat).after unitAtRoot).Opens 0 (.ofVariable .first true)
      searchAbove ∧
    ∃ w', ((blank .standard : Worker Rat).after nestedLevels).backtrack 0 = .ok w' ∧
      w'.core.assignment.trail = #[⟨.ofVariable .third false, .propagation⟩] ∧
      w'.core.assignment.value .third = some false ∧ w'.core.assignment.value .fourth = none := by
  have hcompletes : (blank .standard : Worker Rat).Completes nestedLevels := by
    decide +kernel
  have hlevel : ((blank .standard : Worker Rat).after nestedLevels).level = 1 := by
    decide +kernel
  have hopens : ((blank .standard : Worker Rat).after unitAtRoot).Opens 0 (.ofVariable .first true)
      searchAbove := by
    have hparts : ∀ part ∈ searchAbove.inits,
        0 < ((((blank .standard : Worker Rat).after unitAtRoot).step
          (.decide (.ofVariable .first true))).1.after part).level := by
      decide +kernel
    exact ⟨by decide +kernel, fun part hpart => hparts part ((List.mem_inits part _).mpr hpart)⟩
  obtain ⟨hrestores, -, -⟩ := backtrack_restores
    (create_eq_ok_iff.mpr ⟨Settings.validate_standard, rfl⟩) hcompletes
  obtain ⟨w', hw', hsnapshot, hnew⟩ :=
    (hrestores 0 (hlevel ▸ Nat.one_pos)).2 unitAtRoot _ searchAbove rfl hopens
  refine ⟨hcompletes, hlevel, by decide +kernel, hopens, w', hw', ?_, ?_,
    hnew _ (by decide +kernel)⟩
  · rw [hsnapshot.trail_eq]
    decide +kernel
  · rw [hsnapshot.value_eq]
    decide +kernel

end Worker

end ClauseSharing

import ClauseSharing.Proofs.Import.Units
import ClauseSharing.Proofs.Worker.Tables

/-!
The stored clauses and the watchers describe each other.

A store only ever grows: by variables, and by clauses of two literals or more whose first two have
places for watchers (`ClauseStore.Grows`). Adding such a clause appends it to the clauses, and
appends what it contributes to the watchers of every literal (`ClauseStore.watchersOf_add`). So the
watchers of a literal are what the clauses contribute one after the other, and a clause keeps its
identifier and its literals for good (`Grows.indexed`, `Grows.resolve`).

What remains is that every operation of a worker lets its store grow in this way
(`Worker.grows_step`): what asks for a clause to be stored has checked its literals before, or has
read their samples. The main statement is `Worker.clauses_and_watchers_agree`.
-/

namespace ClauseSharing

/-! ## Watchers of a pair -/

theorem WatcherPair.of_push (p : WatcherPair) (positive positive' : Bool) (watcher : Watcher) :
    (p.push positive watcher).of positive' =
      if positive = positive' then (p.of positive').push watcher else p.of positive' := by
  cases positive <;> cases positive' <;> rfl

/-- What a clause contributes to the watchers of a literal: a watcher for each of its first two
literals that is the literal, with the other one as the blocker. -/
def StoredClause.watchersAt (clause : StoredClause) (id : Nat) (l : Literal) : List Watcher :=
  match clause.literals with
  | first :: second :: _ =>
    (if first = l then [⟨id, second⟩] else []) ++ (if second = l then [⟨id, first⟩] else [])
  | _ => []

namespace ClauseStore

variable {s t u : ClauseStore}

/-! ## Entries -/

theorem numberFrom_eq (id : Nat) (clauses : List StoredClause) :
    numberFrom id clauses = (clauses.zipIdx id).map Prod.swap := by
  induction clauses generalizing id with
  | nil => rfl
  | cons clause rest ih => rw [numberFrom, ih, List.zipIdx_cons, List.map_cons, Prod.swap_prod_mk]

/-- Iteration gives the identifiers `0`, `1`, `2` and so on. -/
theorem map_fst_entries (s : ClauseStore) :
    s.entries.map Prod.fst = List.range s.clauses.size := by
  have hfst : Prod.fst ∘ Prod.swap = (Prod.snd : StoredClause × Nat → Nat) := rfl
  rw [entries, numberFrom_eq, List.map_map, hfst, List.zipIdx_map_snd, Array.length_toList,
    List.range_eq_range']

/-- Iteration and resolving agree. -/
theorem mem_entries {id : Nat} {clause : StoredClause} :
    (id, clause) ∈ s.entries ↔ s.resolve id = some clause := by
  rw [entries, numberFrom_eq, ← Prod.swap_prod_mk, List.mem_map_of_injective Prod.swap_injective,
    List.mk_mem_zipIdx_iff_getElem?, Array.getElem?_toList]
  rfl

/-! ## Adding a clause -/

theorem watchersOf_register (s : ClauseStore) (n : Nat) (l : Literal) :
    (s.register n).watchersOf l = s.watchersOf l := by
  simp only [watchersOf, register, PerVariable.getD, PerVariable.get?_extend]
  split
  · rfl
  · next hnew =>
    -- A variable that had no place had no watchers either.
    rw [PerVariable.get?_eq_none_of_size_le (Nat.le_of_not_lt hnew)]
    split <;> rfl

theorem watchersOf_watch {m : Literal} (placed : s.watchers.has m.var = true) (watcher : Watcher)
    (l : Literal) : ((s.watch m watcher).watchersOf l).toList =
      (s.watchersOf l).toList ++ if m = l then [watcher] else [] := by
  simp only [watchersOf, watch, PerVariable.getD, PerVariable.get?_modify]
  split
  · next hvar =>
    obtain ⟨pair, hpair⟩ := PerVariable.exists_get? (hvar ▸ placed)
    rw [hpair, Option.map_some, Option.getD_some, Option.getD_some, WatcherPair.of_push]
    by_cases hpositive : m.isPositive = l.isPositive
    · rw [if_pos hpositive, if_pos (Literal.eq_iff.mpr ⟨hvar, hpositive⟩), Array.toList_push]
    · rw [if_neg hpositive, if_neg fun heq => hpositive (congrArg _ heq), List.append_nil]
  · next hvar => rw [if_neg fun heq => hvar (congrArg _ heq), List.append_nil]

/-- The clause can be added: it has two literals or more, and there are places for the watchers of
the first two. -/
structure Accepts (s : ClauseStore) (clause : StoredClause) : Prop where
  long : 2 ≤ clause.literals.length
  placed : ∀ l ∈ clause.literals.take 2, s.watchers.has l.var = true

@[simp] theorem clauses_add (s : ClauseStore) (clause : StoredClause) :
    (s.add clause).clauses = s.clauses.push clause := by
  unfold add
  dsimp only
  split <;> rfl

theorem imported_add (s : ClauseStore) (clause : StoredClause) :
    (s.add clause).imported = if clause.isForeign then s.imported + 1 else s.imported := by
  unfold add
  dsimp only
  split <;> rfl

theorem entries_add (s : ClauseStore) (clause : StoredClause) :
    (s.add clause).entries = s.entries ++ [(s.clauses.size, clause)] := by
  rw [entries, entries, clauses_add, Array.toList_push, numberFrom_eq, numberFrom_eq,
    List.zipIdx_append, List.map_append, Array.length_toList, Nat.zero_add]
  rfl

/-- Adding a clause appends what it contributes to the watchers of every literal. -/
theorem watchersOf_add {clause : StoredClause} (accepted : s.Accepts clause) (l : Literal) :
    ((s.add clause).watchersOf l).toList =
      (s.watchersOf l).toList ++ clause.watchersAt s.clauses.size l := by
  obtain ⟨hlong, hplaced⟩ := accepted
  match hliterals : clause.literals with
  | [] | [_] =>
    rw [hliterals] at hlong
    exact absurd hlong (by simp)
  | first :: second :: rest =>
    rw [hliterals] at hplaced
    have hfirst : s.watchers.has first.var = true := hplaced first List.mem_cons_self
    have hsecond : s.watchers.has second.var = true :=
      hplaced second (List.mem_cons_of_mem first List.mem_cons_self)
    let pushed : ClauseStore :=
      { s with
        clauses := s.clauses.push clause
        imported := if clause.isForeign then s.imported + 1 else s.imported }
    have hadd : s.add clause = (pushed.watch first ⟨s.clauses.size, second⟩).watch second
        ⟨s.clauses.size, first⟩ := by
      rw [add, hliterals]
    have hroom : (pushed.watch first ⟨s.clauses.size, second⟩).watchers.has second.var = true := by
      rw [PerVariable.has_iff, size_watch]
      exact PerVariable.has_iff.mp hsecond
    rw [hadd, watchersOf_watch hroom, watchersOf_watch (s := pushed) hfirst, List.append_assoc,
      StoredClause.watchersAt, hliterals]
    rfl

/-! ## Growing -/

/-- The store comes from `s` by registering variables and adding clauses. -/
inductive Grows (s : ClauseStore) : ClauseStore → Prop
  | refl : Grows s s
  | register {t : ClauseStore} (h : Grows s t) (n : Nat) : Grows s (t.register n)
  | add {t : ClauseStore} {clause : StoredClause} (h : Grows s t) (accepted : t.Accepts clause) :
    Grows s (t.add clause)

namespace Grows

theorem trans (hs : s.Grows t) (ht : t.Grows u) : s.Grows u := by
  induction ht with
  | refl => exact hs
  | register _ n ih => exact ih.register n
  | add _ accepted ih => exact ih.add accepted

/-- A clause keeps its identifier. -/
theorem resolve (h : s.Grows t) {id : Nat} {clause : StoredClause}
    (hclause : s.resolve id = some clause) : t.resolve id = some clause := by
  induction h with
  | refl => exact hclause
  | register _ n ih => exact ih
  | add _ accepted ih =>
    rw [ClauseStore.resolve] at ih
    rw [ClauseStore.resolve, clauses_add,
      Array.getElem?_push_lt (Array.getElem?_eq_some_iff.mp ih).choose]
    exact (Array.getElem?_eq_getElem _).symm.trans ih

end Grows

/-- Clauses and watchers describe each other: a clause has two literals or more, the imported ones
are counted, and the watchers of a literal are what the clauses contribute, in their order. -/
structure Indexed (s : ClauseStore) : Prop where
  long : ∀ clause ∈ s.clauses, 2 ≤ clause.literals.length
  imported_eq : s.imported = s.entries.countP fun (_, clause) => clause.isForeign
  watchersOf_eq : ∀ l, (s.watchersOf l).toList =
    s.entries.flatMap fun (id, clause) => clause.watchersAt id l

theorem indexed_empty : Indexed .empty where
  long := nofun
  imported_eq := rfl
  watchersOf_eq l := by
    rw [watchersOf, PerVariable.getD, PerVariable.get?_eq_none_of_size_le (Nat.zero_le _)]
    cases l.isPositive <;> rfl

theorem Indexed.register (h : s.Indexed) (n : Nat) : (s.register n).Indexed where
  long := h.long
  imported_eq := h.imported_eq
  watchersOf_eq l := by
    rw [watchersOf_register]
    exact h.watchersOf_eq l

theorem Indexed.add (h : s.Indexed) {clause : StoredClause} (accepted : s.Accepts clause) :
    (s.add clause).Indexed where
  long c hc := by
    rw [clauses_add] at hc
    rcases Array.mem_push.mp hc with hc | rfl
    · exact h.long c hc
    · exact accepted.long
  imported_eq := by
    rw [imported_add, entries_add, List.countP_append, List.countP_singleton, h.imported_eq]
    split <;> rfl
  watchersOf_eq l := by
    rw [watchersOf_add accepted, entries_add, List.flatMap_append, List.flatMap_singleton,
      h.watchersOf_eq]

theorem Grows.indexed (h : s.Grows t) (hs : s.Indexed) : t.Indexed := by
  induction h with
  | refl => exact hs
  | register _ n ih => exact ih.register n
  | add _ accepted ih => exact ih.add accepted

end ClauseStore

/-! ## Samples of registered variables -/

section Samples

variable {K : Type} [Scalar K]

/-- Where a check of all members succeeds, the check of each of them does. -/
theorem exists_eq_ok_of_mapM {ε α β : Type} {f : α → Except ε β} {xs : List α} {ys : List β}
    (h : xs.mapM f = .ok ys) {x : α} (hx : x ∈ xs) : ∃ y, f x = .ok y := by
  induction xs generalizing ys with
  | nil => cases hx
  | cons x' xs ih =>
    rw [List.mapM_cons] at h
    obtain ⟨y, hhead, h⟩ := bind_eq_ok_iff.mp h
    obtain ⟨ys', htail, -⟩ := bind_eq_ok_iff.mp h
    rcases List.mem_cons.mp hx with rfl | hx
    · exact ⟨y, hhead⟩
    · exact ih htail hx

/-- The fuzzy glue is only that of a clause whose variables all have samples. -/
theorem TrailSamples.has_of_fuzzyGlue {s : TrailSamples K} {literals : List Literal} {glue : K}
    (h : s.fuzzyGlue literals = .ok glue) {l : Literal} (hl : l ∈ literals) :
    s.records.has l.var = true := by
  obtain ⟨shares, hshares, -⟩ := bind_eq_ok_iff.mp h
  obtain ⟨share, hshare⟩ := exists_eq_ok_of_mapM hshares hl
  obtain ⟨record, hrecord, -⟩ := bind_eq_ok_iff.mp hshare
  exact PerVariable.has_of_get? (PerVariable.fetch_eq_ok_iff.mp hrecord)

end Samples

/-! ## Operations -/

namespace Core

variable {c : Core}

theorem Watchable.has_watchers (h : c.Watchable) {v : Variable} (hv : c.registered v = true) :
    c.store.watchers.has v = true := by
  have hlt := PerVariable.has_iff.mp hv
  rw [← Core.size, ← h] at hlt
  exact PerVariable.has_iff.mpr hlt

theorem grows_insertClause {clause : StoredClause} (accepted : c.store.Accepts clause) :
    c.store.Grows (c.insertClause clause).store := by
  rw [store_insertClause]
  exact ClauseStore.Grows.refl.add accepted

/-- Adding candidates lets the store grow, if each of them can be watched. -/
theorem grows_adopt {chosen : List Candidate}
    (hchosen : ∀ d ∈ chosen, 2 ≤ d.literals.length ∧
      ∀ l ∈ d.literals, c.store.watchers.has l.var = true) :
    c.store.Grows (chosen.foldl Recipient.adopt c).store := by
  induction chosen generalizing c with
  | nil => exact .refl
  | cons d chosen ih =>
    obtain ⟨⟨hlong, hplaced⟩, hrest⟩ := List.forall_mem_cons.mp hchosen
    have hstore : (Recipient.adopt c d : Core).store =
        c.store.add ⟨d.literals, d.glue, .imported⟩ := store_insertClause ..
    have hgrows : c.store.Grows (Recipient.adopt c d : Core).store :=
      grows_insertClause ⟨hlong, fun l hl => hplaced l (List.mem_of_mem_take hl)⟩
    refine hgrows.trans (ih fun d' hd' => ⟨(hrest d' hd').1, fun l hl => ?_⟩)
    rw [hstore, PerVariable.has_iff, ClauseStore.size_add]
    exact PerVariable.has_iff.mp ((hrest d' hd').2 l hl)

end Core

/-- The clause that an operation asks to be stored. The empty clause and units are not stored. -/
def Operation.clause? {R : Type} : Operation R → Option StoredClause
  | .assertClause literals =>
    if literals.length < 2 then none else some ⟨literals, literals.length, .input⟩
  | .learn literals glue => if literals.length < 2 then none else some ⟨literals, glue, .learned⟩
  | _ => none

namespace Worker

variable {K R : Type} [Scalar K] [Recorder R K] {w w' : Worker K R} {settings : Settings K}

/-- Learning stores a clause of two literals or more, all of them registered, under the next
identifier, or else nothing. -/
theorem learn_cases {literals : List Literal} {glue : Nat} {position : Option Nat}
    (h : w.learn literals glue = .ok (w', position)) :
    (∀ l ∈ literals, w.samples.records.has l.var = true) ∧
    ((literals.length < 2 ∧ position = none ∧ w'.core = w.core) ∨
      (2 ≤ literals.length ∧ position = some w.core.store.clauses.size ∧
        w'.core = w.core.insertClause ⟨literals, glue, .learned⟩)) := by
  obtain ⟨w₁, hnote, h⟩ := bind_eq_ok_iff.mp h
  obtain ⟨-, -, hcore⟩ := noteLearned_eq_ok hnote
  obtain ⟨fuzzy, hfuzzy, -⟩ := bind_eq_ok_iff.mp hnote
  refine ⟨fun l => TrailSamples.has_of_fuzzyGlue hfuzzy, ?_⟩
  split at h
  · next hshort =>
    cases h
    exact .inl ⟨hshort, rfl, hcore⟩
  · next hlong =>
    cases h
    rw [hcore]
    exact .inr ⟨Nat.le_of_not_lt hlong, rfl, rfl⟩

theorem grows_learn (hw : Reachable settings w) {literals : List Literal} {glue : Nat}
    {position : Option Nat} (h : w.learn literals glue = .ok (w', position)) :
    w.core.store.Grows w'.core.store := by
  obtain ⟨hsampled, ⟨-, -, hcore⟩ | ⟨hlong, -, hcore⟩⟩ := learn_cases h
  all_goals rw [hcore]
  · exact .refl
  · refine Core.grows_insertClause ⟨hlong, fun l hl => ?_⟩
    have hlt := PerVariable.has_iff.mp (hsampled l (List.mem_of_mem_take hl))
    rw [hw.rated.size_eq] at hlt
    exact hw.watchable.has_watchers (PerVariable.has_iff.mpr hlt)

/-- What a pass adds are clauses that the filter left, and those are long enough and named. -/
theorem grows_runPass (hw : Reachable settings w) (batch : List (List Int32)) :
    w.core.store.Grows (w.runPass batch).1.core.store := by
  rcases w.runPass_core_cases batch with hself | ⟨root, probabilities, hpass⟩
  · rw [hself]
    exact .refl
  have hcore := hw.wellFormed
  obtain ⟨units, hunits⟩ :=
    Pass.fixesUnits_consume (p := (Pass.start w.core : Pass Core K)) hcore root batch
  obtain ⟨chosen, hchosen, hrun⟩ := w.selector.run_recipient probabilities w.core batch
  have hstore : w.core.store =
      ((Pass.start w.core : Pass Core K).consume batch).1.recipient.store := hunits.store.symm
  rw [hpass, hrun, hstore]
  refine Core.grows_adopt fun d hd => ?_
  rcases Pass.mem_candidates_consume (hchosen d hd) with
    hqueue | ⟨m, payload, rest, hcomes, hleaves⟩
  · cases (Array.mem_toList_iff.mpr hqueue)
  obtain ⟨earlier, hearlier⟩ := hcomes.fixesUnits hcore root
  obtain ⟨hlong, hregistered⟩ := hleaves.registered hearlier.names hcore
  rw [← hstore]
  exact ⟨hlong, fun l hl => hw.watchable.has_watchers (hregistered l hl)⟩

/-- Apart from learning and passes, a change of the shared state lets the store grow. -/
theorem Evolves.grows {op : Operation R} {c : Core} (hevolves : Evolves w op c)
    (hw : Reachable settings w) (hlearn : ∀ literals glue, op ≠ .learn literals glue)
    (hpass : ∀ batch, op ≠ .runPass batch) : w.core.store.Grows c.store := by
  cases hevolves with
  | stays | renames | forbids | traces | decides | backjumps => exact .refl
  | registers => exact ClauseStore.Grows.refl.register _
  | retires =>
    rw [Core.store_retire]
    exact .refl
  | @asserts literals root known =>
    match literals with
    | [] => exact .refl
    | [l] =>
      rw [Core.assertClause, Core.store_assign]
      exact .refl
    | first :: second :: rest =>
      exact Core.grows_insertClause
        ⟨Nat.le_add_left .., fun l hl => hw.watchable.has_watchers (known l hl)⟩
  | assigns =>
    rw [Core.store_assign]
    exact .refl
  | learns => exact absurd rfl (hlearn _ _)
  | passes => exact absurd rfl (hpass _)

/-- Every operation without breach lets the store grow. -/
theorem grows_step (hw : Reachable settings w) (op : Operation R) :
    w.core.store.Grows (w.step op).1.core.store := by
  by_cases hlearn : ∃ literals glue, op = .learn literals glue
  · obtain ⟨literals, glue, rfl⟩ := hlearn
    exact finish_fst (P := fun w' : Worker K R => w.core.store.Grows w'.core.store) .refl
      fun _ _ => grows_learn hw
  by_cases hpass : ∃ batch, op = .runPass batch
  · obtain ⟨batch, rfl⟩ := hpass
    rw [step_runPass_fst]
    exact grows_runPass hw batch
  · exact (evolves_step hw.records_size).grows hw (fun _ _ h => hlearn ⟨_, _, h⟩)
      fun _ h => hpass ⟨_, h⟩

/-- Runs without breach let the store grow. -/
theorem grows_after (hw : Reachable settings w) {ops : List (Operation R)}
    (hops : w.Completes ops) : w.core.store.Grows (w.after ops).core.store := by
  induction ops generalizing w with
  | nil => exact .refl
  | cons op ops ih =>
    obtain ⟨hop, hrest⟩ := completes_cons.mp hops
    rw [after_cons hops]
    exact (grows_step hw op).trans (ih (hw.step hop) hrest)

theorem Reachable.indexed (hw : Reachable settings w) : w.core.store.Indexed := by
  obtain ⟨w₀, ops, hcreate, hops, rfl⟩ := hw
  have hstart : Reachable settings w₀ := ⟨w₀, [], hcreate, nofun, rfl⟩
  obtain ⟨-, rfl⟩ := create_eq_ok_iff.mp hcreate
  exact (grows_after hstart hops).indexed ClauseStore.indexed_empty

/-! ## Additions -/

/-- What an operation adds to a store of `size` clauses, by what it answers. -/
inductive Adds (size : Nat) : Operation R → Answer K → List StoredClause → Prop
  | stored {op : Operation R} {clause : StoredClause} (asked : op.clause? = some clause) :
      Adds size op (.stored (some size)) [clause]
  | refused {op : Operation R} {clause : StoredClause} {refusal : Refusal}
      (asked : op.clause? = some clause) : Adds size op (.refused refusal) []
  | imported {batch : List (List Int32)} {answer : Answer K} {added : List StoredClause}
      (foreign : ∀ clause ∈ added, clause.kind = .imported) :
      Adds size (.runPass batch) answer added
  | nothing {op : Operation R} {answer : Answer K} (unasked : op.clause? = none)
      (unstored : ∀ id, answer ≠ .stored (some id)) : Adds size op answer []

omit [Recorder R K] in
theorem adds_assertClause {literals : List Literal} {r : Except Refusal (Option Nat)}
    (h : w.assertClause literals = .ok (w', r)) :
    ∃ added, Adds (R := R) w.core.store.clauses.size (.assertClause literals)
        (w.settle .stored (.ok (w', r))).2 added ∧
      w'.core.store.clauses.toList = w.core.store.clauses.toList ++ added := by
  have hnothing : w.core.store.clauses.toList = w.core.store.clauses.toList ++ [] :=
    (List.append_nil _).symm
  unfold assertClause at h
  split at h
  · cases h
    refine ⟨[], ?_, hnothing⟩
    by_cases hshort : literals.length < 2
    · exact .nothing (if_pos hshort) nofun
    · exact .refused (if_neg hshort)
  split at h
  · cases h
    exact ⟨[], .nothing rfl nofun, hnothing⟩
  · next l =>
    obtain ⟨⟨w₁, _⟩, hassign, h⟩ := bind_eq_ok_iff.mp h
    cases h
    obtain ⟨s, -, rfl⟩ := assign_eq_ok hassign
    refine ⟨[], .nothing rfl nofun, ?_⟩
    rw [Core.store_assign]
    exact hnothing
  · next first second rest =>
    obtain ⟨_, -, h⟩ := bind_eq_ok_iff.mp h
    obtain ⟨_, -, h⟩ := bind_eq_ok_iff.mp h
    cases h
    refine ⟨_, .stored rfl, ?_⟩
    rw [Core.clauses_insertClause, Array.toList_push]

theorem adds_learn {literals : List Literal} {glue : Nat} {position : Option Nat}
    (h : w.learn literals glue = .ok (w', position)) :
    ∃ added, Adds (K := K) (R := R) w.core.store.clauses.size (.learn literals glue)
        (.stored position) added ∧
      w'.core.store.clauses.toList = w.core.store.clauses.toList ++ added := by
  obtain ⟨-, ⟨hshort, rfl, hcore⟩ | ⟨hlong, rfl, hcore⟩⟩ := learn_cases h
  all_goals rw [hcore]
  · exact ⟨[], .nothing (if_pos hshort) nofun, (List.append_nil _).symm⟩
  · refine ⟨_, .stored (if_neg (Nat.not_lt.mpr hlong)), ?_⟩
    rw [Core.clauses_insertClause, Array.toList_push]

theorem adds_runPass (hw : Reachable settings w) (batch : List (List Int32)) (answer : Answer K) :
    ∃ added, Adds (R := R) w.core.store.clauses.size (.runPass batch) answer added ∧
      (w.runPass batch).1.core.store.clauses.toList = w.core.store.clauses.toList ++ added := by
  obtain ⟨consumed, units, added, store, -, hpass, hclauses, -⟩ := runPass_core hw.wellFormed batch
  refine ⟨added.map fun d => ⟨d.literals, d.glue, .imported⟩, .imported ?_, ?_⟩
  · intro clause hclause
    obtain ⟨d, -, rfl⟩ := List.mem_map.mp hclause
    rfl
  · rw [hpass]
    exact hclauses

/-- Only asserting and learning answer with an identifier. -/
theorem step_ne_stored {op : Operation R} (hassert : ∀ literals, op ≠ .assertClause literals)
    (hlearn : ∀ literals glue, op ≠ .learn literals glue) (id : Option Nat) :
    (w.step op).2 ≠ .stored id := by
  cases op with
  | assertClause literals => exact absurd rfl (hassert literals)
  | learn literals glue => exact absurd rfl (hlearn literals glue)
  | forbid | setJournal | setTracer => simp [step]
  | addVariables | renameVariable | eliminate | substitute | decide =>
    exact settle_answer_ne (by simp) (by simp) (by simp)
  | backtrack | catchUpAll | observeTrail | noteLearned | noteConflict =>
    exact change_answer_ne (by simp) (by simp)
  | conflict => exact finish_answer_ne (by simp) (by simp)
  | assign l =>
    simp only [step]
    rcases w.assign l with _ | ⟨_, _ | _⟩ <;> simp
  | runPass batch =>
    simp only [step]
    rcases w.runPass batch with ⟨_, (_ | _) | _⟩ <;> simp

omit [Recorder R K] in
/-- Only asserting, learning and passes touch the clauses. -/
theorem Evolves.clauses_eq {op : Operation R} {c : Core} (hevolves : Evolves w op c)
    (hassert : ∀ literals, op ≠ .assertClause literals)
    (hlearn : ∀ literals glue, op ≠ .learn literals glue) (hpass : ∀ batch, op ≠ .runPass batch) :
    c.store.clauses = w.core.store.clauses := by
  cases hevolves with
  | stays | registers | renames | forbids | traces | decides | backjumps => rfl
  | retires => rw [Core.store_retire]
  | asserts => exact absurd rfl (hassert _)
  | assigns => rw [Core.store_assign]
  | learns => exact absurd rfl (hlearn _ _)
  | passes => exact absurd rfl (hpass _)

/-- What an operation without breach adds is appended to the clauses. -/
theorem adds_step (hw : Reachable settings w) {op : Operation R}
    (hop : (w.step op).2.isBreach = false) :
    ∃ added, Adds w.core.store.clauses.size op (w.step op).2 added ∧
      (w.step op).1.core.store.clauses.toList = w.core.store.clauses.toList ++ added := by
  by_cases hassert : ∃ literals, op = .assertClause literals
  · obtain ⟨literals, rfl⟩ := hassert
    rcases h : w.assertClause literals with b | ⟨w', r⟩
    · simp [step, settle, h, Answer.isBreach] at hop
    · obtain ⟨added, hadds, hclauses⟩ := adds_assertClause h
      rw [step, h]
      cases r <;> exact ⟨added, hadds, hclauses⟩
  by_cases hlearn : ∃ literals glue, op = .learn literals glue
  · obtain ⟨literals, glue, rfl⟩ := hlearn
    rcases h : w.learn literals glue with b | ⟨w', position⟩
    · simp [step, finish, h, Answer.isBreach] at hop
    · rw [step, h]
      exact adds_learn h
  by_cases hpass : ∃ batch, op = .runPass batch
  · obtain ⟨batch, rfl⟩ := hpass
    rw [step_runPass_fst]
    exact adds_runPass hw batch _
  simp only [not_exists] at hassert hlearn hpass
  refine ⟨[], .nothing ?_ fun id => step_ne_stored hassert hlearn (some id), ?_⟩
  · cases op with
    | assertClause literals => exact absurd rfl (hassert literals)
    | learn literals glue => exact absurd rfl (hlearn literals glue)
    | _ => rfl
  · rw [(evolves_step hw.records_size).clauses_eq hassert hlearn hpass, List.append_nil]

/-! ## Main statement -/

/-- Take any reachable worker. Every stored clause has two literals or more, and an imported one is
derived. Iteration lists the identifiers `0`, `1`, `2` and so on, each with the clause that it
resolves to. The imported clauses are counted. The watchers of a registered literal are exactly what
the clauses contribute, one after the other. Every operation without breach appends what it adds to
the clauses; a clause that it was asked to store gets the next identifier. And whatever run follows,
an identifier keeps resolving to the clause as it was added. -/
theorem clauses_and_watchers_agree (hw : Reachable settings w) :
    (∀ id clause, w.core.store.resolve id = some clause →
      2 ≤ clause.literals.length ∧ (clause.isForeign = true → clause.isDerived = true)) ∧
    w.core.store.entries.map Prod.fst = List.range w.core.store.clauses.size ∧
    (∀ id clause, (id, clause) ∈ w.core.store.entries ↔ w.core.store.resolve id = some clause) ∧
    w.core.store.imported = w.core.store.entries.countP (fun (_, clause) => clause.isForeign) ∧
    (∀ l, w.core.registered l.var = true → ∃ watchers, w.watchers l = .ok watchers ∧
      watchers.toList =
        w.core.store.entries.flatMap fun (id, clause) => clause.watchersAt id l) ∧
    (∀ op, (w.step op).2.isBreach = false →
      ∃ added, Adds w.core.store.clauses.size op (w.step op).2 added ∧
        (w.step op).1.core.store.clauses.toList = w.core.store.clauses.toList ++ added) ∧
    ∀ ops, w.Completes ops → ∀ id clause, w.core.store.resolve id = some clause →
      (w.after ops).core.store.resolve id = some clause := by
  have hindexed := hw.indexed
  refine ⟨fun id clause hclause => ?_, w.core.store.map_fst_entries,
    fun _ _ => ClauseStore.mem_entries, hindexed.imported_eq, fun l hl => ?_,
    fun _ => adds_step hw, fun _ hops _ _ => (grows_after hw hops).resolve⟩
  · refine ⟨hindexed.long clause (Array.mem_of_getElem? hclause), fun hforeign => ?_⟩
    have hkind : clause.kind = .imported := eq_of_beq hforeign
    rw [StoredClause.isDerived, hkind]
    rfl
  · refine ⟨w.core.store.watchersOf l, ?_, hindexed.watchersOf_eq l⟩
    exact bind_eq_ok_iff.mpr ⟨(), require_eq_ok_iff.mpr hl, rfl⟩

/-- A clause of the formula that begins with a literal twice, a unit, a learned clause, and two
imported ones that the unit shrinks or that it leaves alone. -/
def clausesOfAllKinds : List Operation :=
  [.addVariables 4,
    .assertClause [.ofVariable .first true, .ofVariable .first true, .ofVariable .second true],
    .assertClause [.ofVariable .third true], .decide (.ofVariable .second false),
    .learn [.ofVariable .second true, .ofVariable .first true] 1, .backtrack 0,
    .runPass [[2, 4, -3, 1]], .runPass [[2, 1, 4, -2]]]

theorem clauses_and_watchers_agree_allKinds :
    Reachable .standard ((blank .standard : Worker Rat).after clausesOfAllKinds) ∧
    ((blank .standard : Worker Rat).after clausesOfAllKinds).core.store.imported = 2 ∧
    ∃ watchers,
      ((blank .standard : Worker Rat).after clausesOfAllKinds).watchers
        (.ofVariable .first true) = .ok watchers ∧
      watchers.toList = [⟨0, .ofVariable .first true⟩, ⟨0, .ofVariable .first true⟩,
        ⟨1, .ofVariable .second true⟩, ⟨2, .ofVariable .fourth true⟩,
        ⟨3, .ofVariable .fourth true⟩] := by
  have hw : Reachable .standard ((blank .standard : Worker Rat).after clausesOfAllKinds) :=
    reachable_standard (by decide +kernel)
  obtain ⟨-, -, -, himported, hwatchers, -, -⟩ := clauses_and_watchers_agree hw
  obtain ⟨watchers, hanswer, hlist⟩ := hwatchers (.ofVariable .first true) (by decide +kernel)
  exact ⟨hw, himported.trans (by decide +kernel), watchers, hanswer,
    hlist.trans (by decide +kernel)⟩

end Worker

end ClauseSharing

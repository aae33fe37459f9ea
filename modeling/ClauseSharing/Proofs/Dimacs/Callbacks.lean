import ClauseSharing.Proofs.Dimacs.Formula
import ClauseSharing.Proofs.Polarity.Timing

/-!
Calling a builder back, in any order and also after errors.

A builder accepts literals up to the number of variables that the last problem line declared. It is
grounded if its worker has registered so many variables, and those of all pending literals
(`FormulaBuilder.Grounded`). Then no call is a breach: the worker is at the root and has counted no
conflict, so its records are at the present tick, and asserting a clause succeeds.

Every call leaves a grounded builder behind, but for one: a problem line that is refused, since the
worker cannot register so many variables, has its number of variables taken over all the same. So
the main statement, `FormulaBuilder.calls_keep_declared_registered`, asks that no refused problem
line declares more variables than are registered (`FormulaBuilder.Fitting`). Without that a literal
of an unregistered variable is accepted, and ending its clause is a breach
(`FormulaBuilder.calls_of_refusedProblem`).
-/

namespace ClauseSharing

variable {K : Type} [Scalar K]

/-! ## Workers without conflicts -/

namespace Worker

variable {w : Worker K} {settings : Settings K}

/-- Before the first conflict, all records are at the present tick. -/
theorem Reachable.current (h : Reachable settings w) (htick : w.tick = 0) : w.Current := by
  intro v hv
  have hhas : w.stability.records.has v = true := by
    rw [PerVariable.has_iff, h.records_size]
    exact PerVariable.has_iff.mp hv
  obtain ⟨r, hr⟩ := PerVariable.exists_get? hhas
  obtain ⟨hnonneg, hlast, -⟩ := h.timed.records.record v r hr
  exact ⟨r, hr, Int.le_antisymm hlast (htick ▸ hnonneg)⟩

/-- Variables are registered if they can be counted, and refused if not. -/
theorem Reachable.addVariables_cases (h : Reachable settings w) (n : Nat) :
    (w.size + n ≤ Variable.maxCount ∧ ∃ w', w.addVariables n = .ok (w', .ok ()) ∧
      Reachable settings w' ∧ w'.size = w.size + n ∧ w'.tick = w.tick ∧ w'.level = w.level) ∨
    (Variable.maxCount < w.size + n ∧
      ∃ refusal, w.addVariables n = .ok (w, .error refusal)) := by
  by_cases hcapacity : Variable.maxCount < min (w.size + n) maxRequest
  · exact .inr ⟨Nat.lt_of_lt_of_le hcapacity (Nat.min_le_left ..), _, if_pos hcapacity⟩
  · obtain ⟨hstability, hsamples⟩ := isDecayRate_of_validate h.validate_eq
    rw [← h.timed.rate_eq] at hstability
    rw [← h.rated.rate_eq] at hsamples
    obtain ⟨stability, hrecords⟩ : ∃ s, w.stability.register n w.tick = .ok s :=
      ⟨_, if_pos (.inr hstability)⟩
    obtain ⟨samples, hrecords'⟩ : ∃ s, w.samples.register n = .ok s := ⟨_, if_pos (.inr hsamples)⟩
    have hadd : w.addVariables n = .ok ({ w with
        core := w.core.register n, stability := stability, samples := samples }, .ok ()) :=
      (if_neg hcapacity).trans
        (bind_eq_ok_iff.mpr ⟨_, hrecords, bind_eq_ok_iff.mpr ⟨_, hrecords', rfl⟩⟩)
    have hfits : w.size + n ≤ Variable.maxCount := by
      unfold maxRequest Variable.maxCount at *
      omega
    exact .inl ⟨hfits, _, hadd, h.settles (.addVariables n) (fun _ => rfl)
      (congrArg (w.settle fun _ => .done) hadd), PerVariable.size_extend .., rfl, rfl⟩

end Worker

/-! ## Callbacks -/

/-- A call on the builder of a formula. -/
inductive Callback where
  | problem (n : Nat)
  /-- A literal is given by a number other than zero. Its negative is a 32-bit number as well. -/
  | literal (value : Int32) (nonzero : value ≠ 0) (negatable : value ≠ Int32.minValue)
  | endClause
  | finish

namespace FormulaBuilder

variable {settings : Settings K} {b b' : FormulaBuilder K}

theorem create_standard : create (.standard : Settings Rat) = .ok (blank .standard) :=
  create_eq_ok_iff.mpr ⟨Settings.validate_standard, rfl⟩

omit [Scalar K] in
/-- A literal is refused, or is one of the declared variables and joins the pending ones. Only the
least number cannot be named in a refusal. -/
theorem literal_cases {value : Int32} (nonzero : value ≠ 0) :
    (∃ e, b.literal value = .ok (b, .error e)) ∨
    ((∃ n, b.declared = some n ∧ (Literal.ofNumber value).var.index < n) ∧
      b.literal value =
        .ok ({ b with current := b.current.push (Literal.ofNumber value) }, .ok ())) ∨
    (value = Int32.minValue ∧ ∃ breach, b.literal value = .error breach) := by
  have hl := Literal.ofDimacs_eq nonzero
  unfold literal
  rw [hl]
  rcases b.declared with _ | n
  · exact .inl ⟨_, rfl⟩
  by_cases hbeyond : n ≤ (Literal.ofNumber value).var.index
  · rcases hnumber : (Literal.ofNumber value).toDimacs with breach | number
    · refine .inr (.inr ⟨?_, breach, ?_⟩)
      · by_contra hne
        cases hnumber.symm.trans (Literal.toDimacs_of_ofDimacs hl hne)
      · exact (if_pos hbeyond).trans (congrArg (· >>= _) hnumber)
    · exact .inl ⟨_, (if_pos hbeyond).trans (congrArg (· >>= _) hnumber)⟩
  · exact .inr (.inl ⟨⟨n, rfl, Nat.lt_of_not_le hbeyond⟩, if_neg hbeyond⟩)

def call (b : FormulaBuilder K) :
    Callback → Except Breach (FormulaBuilder K × Except IntakeError Unit)
  | .problem n => b.problem n
  | .literal value _ _ => b.literal value
  | .endClause => b.endClause
  | .finish => b.finish

/-- Calls a builder one time after the other, whatever it answers, up to the first breach. -/
def calls (b : FormulaBuilder K) :
    List Callback → Except Breach (FormulaBuilder K × List (Except IntakeError Unit))
  | [] => .ok (b, [])
  | callback :: rest => do
    let (b, answer) ← b.call callback
    let (b, answers) ← b.calls rest
    return (b, answer :: answers)

/-- The builder after a call. -/
def next (b : FormulaBuilder K) (callback : Callback) : FormulaBuilder K :=
  match b.call callback with
  | .ok (b', _) => b'
  | .error _ => b

/-- The call does not declare more variables than can be registered, unless that many are registered
already. -/
def Fits (b : FormulaBuilder K) : Callback → Prop
  | .problem n => b.worker.size + n ≤ Variable.maxCount ∨ n ≤ b.worker.size
  | _ => True

instance decidableFits (b : FormulaBuilder K) : (callback : Callback) → Decidable (b.Fits callback)
  | .problem _ => inferInstanceAs (Decidable (_ ∨ _))
  | .literal _ _ _ | .endClause | .finish => isTrue trivial

/-- Every call fits at its time. -/
def Fitting (b : FormulaBuilder K) : List Callback → Prop
  | [] => True
  | callback :: rest => b.Fits callback ∧ (b.next callback).Fitting rest

instance decidableFitting (b : FormulaBuilder K) :
    (callbacks : List Callback) → Decidable (b.Fitting callbacks)
  | [] => isTrue trivial
  | callback :: rest =>
    -- The number of registered variables changes along the calls.
    have := decidableFitting (b.next callback) rest
    inferInstanceAs (Decidable (_ ∧ _))

/-! ## Grounded builders -/

/-- The declared variables and those of the pending literals are registered with a worker that has
counted no conflict and made no decision. -/
structure Grounded (settings : Settings K) (b : FormulaBuilder K) : Prop where
  reachable : Worker.Reachable settings b.worker
  tick_eq : b.worker.tick = 0
  level_eq : b.worker.level = 0
  declared_le : ∀ n, b.declared = some n → n ≤ b.worker.size
  pending : ∀ l ∈ b.current, b.worker.core.registered l.var = true

theorem grounded_create (h : create settings = .ok b) : b.Grounded settings := by
  obtain ⟨hvalid, rfl⟩ := create_eq_ok_iff.mp h
  have hw : Worker.create settings = .ok (.blank settings : Worker K) :=
    Worker.create_eq_ok_iff.mpr ⟨hvalid, rfl⟩
  exact ⟨⟨_, [], hw, nofun, rfl⟩, rfl, rfl, nofun, nofun⟩

namespace Grounded

theorem problem (h : b.Grounded settings) (n : Nat) :
    ∃ b' answer, b.problem n = .ok (b', answer) ∧
      (b.Fits (.problem n) → b'.Grounded settings) := by
  rcases h.reachable.addVariables_cases n with
    ⟨-, w', hadd, hreachable, hsize, htick, hlevel⟩ | ⟨hfull, refusal, hadd⟩
  · refine ⟨_, _, bind_eq_ok_iff.mpr ⟨_, hadd, rfl⟩, fun _ => ⟨hreachable, htick.trans h.tick_eq,
      hlevel.trans h.level_eq, fun m hm => ?_, fun l hl => ?_⟩⟩
    · obtain rfl : n = m := Option.some.inj hm
      exact Nat.le_trans (Nat.le_add_left ..) (Nat.le_of_eq hsize.symm)
    · have hlt := PerVariable.has_iff.mp (h.pending l hl)
      refine PerVariable.has_iff.mpr (Nat.lt_of_lt_of_le hlt ?_)
      exact Nat.le_trans (Nat.le_add_right ..) (Nat.le_of_eq hsize.symm)
  · -- Nothing has been registered, but the number has been taken over.
    refine ⟨_, _, bind_eq_ok_iff.mpr ⟨_, hadd, rfl⟩, fun hfits =>
      { h with declared_le := fun m hm => ?_ }⟩
    obtain rfl : n = m := Option.some.inj hm
    exact Or.resolve_left hfits (Nat.not_le.mpr hfull)

theorem registered (h : b.Grounded settings) {v : Variable}
    (hv : ∃ n, b.declared = some n ∧ v.index < n) : b.worker.core.registered v = true := by
  obtain ⟨n, hn, hlt⟩ := hv
  exact PerVariable.has_iff.mpr (Nat.lt_of_lt_of_le hlt (h.declared_le n hn))

theorem literal (h : b.Grounded settings) {value : Int32} (nonzero : value ≠ 0)
    (negatable : value ≠ Int32.minValue) :
    ∃ b' answer, b.literal value = .ok (b', answer) ∧ b'.Grounded settings := by
  rcases literal_cases (b := b) nonzero with
    ⟨e, hrefused⟩ | ⟨hdeclared, htaken⟩ | ⟨hleast, -⟩
  · exact ⟨b, _, hrefused, h⟩
  · refine ⟨_, _, htaken, { h with pending := fun l hl => ?_ }⟩
    rcases Array.mem_push.mp hl with hl | rfl
    · exact h.pending l hl
    · exact h.registered hdeclared
  · exact absurd hleast negatable

theorem endClause (h : b.Grounded settings) :
    ∃ b' answer, b.endClause = .ok (b', answer) ∧ b'.Grounded settings := by
  rcases b.endClause_cases with ⟨-, hend⟩ | ⟨-, hend⟩ | ⟨-, hend⟩
  · exact ⟨b, _, hend, h⟩
  · exact ⟨_, _, hend, { h with pending := nofun }⟩
  · have hregistered : ∀ l ∈ normalizedClause b.current.toList,
        b.worker.core.registered l.var = true := fun l hl =>
      h.pending l (Array.mem_toList_iff.mp (mem_normalizedClause.mp hl))
    obtain ⟨position, hassert⟩ :=
      Worker.assertClause_eq h.level_eq (h.reachable.current h.tick_eq) hregistered
    have hreachable := h.reachable.settles
      (.assertClause (normalizedClause b.current.toList)) (fun _ => rfl)
      (congrArg (b.worker.settle .stored) hassert)
    rw [hend, hassert]
    refine ⟨_, _, rfl, hreachable, h.tick_eq, ?_, fun n hn => ?_, nofun⟩
    · exact (Core.level_assertClause ..).trans h.level_eq
    · exact Nat.le_trans (h.declared_le n hn) (Nat.le_of_eq (Core.size_assertClause ..).symm)

theorem finish (h : b.Grounded settings) :
    ∃ b' answer, b.finish = .ok (b', answer) ∧ b'.Grounded settings := by
  unfold FormulaBuilder.finish
  split
  · exact ⟨b, _, rfl, h⟩
  · exact h.endClause

/-- Every call is answered, and one that fits leaves a grounded builder. -/
theorem call (h : b.Grounded settings) (callback : Callback) :
    ∃ b' answer, b.call callback = .ok (b', answer) ∧
      (b.Fits callback → b'.Grounded settings) := by
  cases callback with
  | problem n => exact h.problem n
  | literal value nonzero negatable =>
    obtain ⟨b', answer, hcall, hgrounded⟩ := h.literal nonzero negatable
    exact ⟨b', answer, hcall, fun _ => hgrounded⟩
  | endClause =>
    obtain ⟨b', answer, hcall, hgrounded⟩ := h.endClause
    exact ⟨b', answer, hcall, fun _ => hgrounded⟩
  | finish =>
    obtain ⟨b', answer, hcall, hgrounded⟩ := h.finish
    exact ⟨b', answer, hcall, fun _ => hgrounded⟩

theorem calls (h : b.Grounded settings) {callbacks : List Callback}
    (hfitting : b.Fitting callbacks) :
    ∃ b' answers, b.calls callbacks = .ok (b', answers) ∧ b'.Grounded settings := by
  induction callbacks generalizing b with
  | nil => exact ⟨b, [], rfl, h⟩
  | cons callback rest ih =>
    obtain ⟨hfits, hrest⟩ := hfitting
    obtain ⟨b₁, answer, hcall, hgrounded⟩ := h.call callback
    have hnext : b.next callback = b₁ := by rw [next, hcall]
    rw [hnext] at hrest
    obtain ⟨b', answers, hcalls, h'⟩ := ih (hgrounded hfits) hrest
    exact ⟨b', answer :: answers,
      bind_eq_ok_iff.mpr ⟨_, hcall, bind_eq_ok_iff.mpr ⟨_, hcalls, rfl⟩⟩, h'⟩

end Grounded

/-! ## Main statement -/

/-- Call a new builder any number of times, in any order and going on after errors, such that every
problem line declares a number of variables that can be registered, or no more than are registered
already. Then all calls are answered. From there, the declared number of variables is not above that
of the registered ones, and the variables of all pending literals are registered. A literal is
accepted only if its variable is registered. And whatever call comes next, it is answered: ending a
clause or the text is no breach. -/
theorem calls_keep_declared_registered {b₀ : FormulaBuilder K} (h₀ : create settings = .ok b₀)
    {callbacks : List Callback} (hfitting : b₀.Fitting callbacks) :
    ∃ b answers, b₀.calls callbacks = .ok (b, answers) ∧
      (∀ n, b.declared = some n → n ≤ b.worker.size) ∧
      (∀ l ∈ b.current, b.worker.core.registered l.var = true) ∧
      (∀ value b', b.literal value = .ok (b', .ok ()) → ∃ l, Literal.ofDimacs value = .ok l ∧
        b.worker.core.registered l.var = true ∧ b'.current = b.current.push l) ∧
      ∀ callback, ∃ b' answer, b.call callback = .ok (b', answer) := by
  obtain ⟨b, answers, hcalls, h⟩ := (grounded_create h₀).calls hfitting
  refine ⟨b, answers, hcalls, h.declared_le, h.pending, fun value b' hliteral => ?_,
    fun callback => ?_⟩
  · have nonzero : value ≠ 0 := by
      rintro rfl
      cases hliteral
    refine ⟨.ofNumber value, Literal.ofDimacs_eq nonzero, ?_⟩
    rcases literal_cases (b := b) nonzero with
      ⟨e, hrefused⟩ | ⟨hdeclared, htaken⟩ | ⟨-, breach, hbreach⟩
    · cases hrefused.symm.trans hliteral
    · cases htaken.symm.trans hliteral
      exact ⟨h.registered hdeclared, rfl⟩
    · cases hbreach.symm.trans hliteral
  · obtain ⟨b', answer, hcall, -⟩ := h.call callback
    exact ⟨b', answer, hcall⟩

/-- Calls before any problem line, a literal beyond the declared ones, an end of the text that ends
the clause, and a second problem line with fewer variables. -/
def callsInDisorder : List Callback :=
  [.literal 1 (by decide) (by decide), .endClause, .problem 3,
    .literal 1 (by decide) (by decide), .literal 4 (by decide) (by decide), .finish, .problem 1,
    .literal 2 (by decide) (by decide), .literal (-1) (by decide) (by decide), .endClause]

theorem calls_keep_declared_registered_inDisorder :
    create .standard = .ok (blank .standard : FormulaBuilder Rat) ∧
    (blank .standard : FormulaBuilder Rat).Fitting callsInDisorder ∧
    ∃ b answers, (blank .standard : FormulaBuilder Rat).calls callsInDisorder = .ok (b, answers) ∧
      (∀ n, b.declared = some n → n ≤ b.worker.size) ∧
      ∃ b' answer, b.finish = .ok (b', answer) := by
  have hfitting : (blank .standard : FormulaBuilder Rat).Fitting callsInDisorder := by
    decide +kernel
  obtain ⟨b, answers, hcalls, hdeclared, -, -, hanswers⟩ :=
    calls_keep_declared_registered create_standard hfitting
  exact ⟨create_standard, hfitting, b, answers, hcalls, hdeclared, hanswers .finish⟩

/-- A problem line that declares more variables than can be registered, and then a clause. -/
def callsAfterRefusal : List Callback :=
  [.problem 0x7fffffff, .literal 1 (by decide) (by decide), .endClause]

/-- The problem line is refused, but literals of its variables are accepted from then on, and ending
a clause with one of them is a breach. -/
theorem calls_of_refusedProblem :
    create .standard = .ok (blank .standard : FormulaBuilder Rat) ∧
    ((blank .standard : FormulaBuilder Rat).calls (callsAfterRefusal.take 1)).toOption.map
      (fun (b, _) => (b.declared, b.worker.size)) = some (some 0x7fffffff, 0) ∧
    ((blank .standard : FormulaBuilder Rat).calls (callsAfterRefusal.take 2)).toOption.map
      (fun (b, _) => b.current.all fun l => b.worker.core.registered l.var) = some false ∧
    ∃ breach, (blank .standard : FormulaBuilder Rat).calls callsAfterRefusal = .error breach := by
  refine ⟨create_standard, by decide +kernel, by decide +kernel, ?_⟩
  have hbreach : ((blank .standard : FormulaBuilder Rat).calls
      callsAfterRefusal).toOption.isSome = false := by
    decide +kernel
  rcases h : (blank .standard : FormulaBuilder Rat).calls callsAfterRefusal with breach | _
  · exact ⟨breach, rfl⟩
  · rw [h] at hbreach
    cases hbreach

end FormulaBuilder

end ClauseSharing

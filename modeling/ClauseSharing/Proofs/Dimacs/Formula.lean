import ClauseSharing.Proofs.Dimacs.Packing
import ClauseSharing.Proofs.Scalar.Exact
import ClauseSharing.Proofs.Worker.Assertion
import Mathlib.Data.List.Forall2

/-!
Reading a formula loses nothing.

The tokens of a well-formed formula are all taken, and the worker that they make admits exactly the
assignments that satisfy the formula (`FormulaBuilder.tokens_preserve_formula`). Tautologies are
counted, empty and unit clauses go into the assignment, and every other clause is stored once, in
its normal form and its place. `Represents` is what each clause keeps.
-/

namespace ClauseSharing

/-! ## Clauses of numbers -/

/-- Some number of the clause names a variable that has the polarity of its sign. -/
def Valuation.SatisfiesNumbers (μ : Valuation) (numbers : List Int32) : Prop :=
  ∃ x ∈ numbers, ∃ v : Variable, v.number = x.toInt.natAbs ∧ μ v = decide (0 < x)

/-- The clause has both numbers of some variable. -/
def Complementary (numbers : List Int32) : Prop :=
  ∃ x ∈ numbers, ∃ y ∈ numbers, y.toInt = -x.toInt

instance (numbers : List Int32) : Decidable (Complementary numbers) :=
  inferInstanceAs (Decidable (∃ x ∈ numbers, ∃ y ∈ numbers, y.toInt = -x.toInt))

/-- The clause has two different numbers and no complementary ones. -/
def ToBeStored (numbers : List Int32) : Prop :=
  ¬ Complementary numbers ∧ ∃ x ∈ numbers, ∃ y ∈ numbers, x ≠ y

instance (numbers : List Int32) : Decidable (ToBeStored numbers) :=
  inferInstanceAs (Decidable (_ ∧ ∃ x ∈ numbers, ∃ y ∈ numbers, x ≠ y))

section Numbers

variable {numbers : List Int32} (hnumbers : ∀ x ∈ numbers, x ≠ 0)
include hnumbers

theorem satisfies_ofNumber {μ : Valuation} :
    μ.Satisfies (numbers.map Literal.ofNumber) ↔ μ.SatisfiesNumbers numbers := by
  constructor
  · rintro ⟨l, hl, htrue⟩
    obtain ⟨x, hx, rfl⟩ := List.mem_map.mp hl
    refine ⟨x, hx, (Literal.ofNumber x).var, Literal.number_var_ofNumber (hnumbers x hx), ?_⟩
    rw [htrue, Literal.ofNumber, Literal.isPositive_ofVariable]
  · rintro ⟨x, hx, v, hv, htrue⟩
    refine ⟨Literal.ofNumber x, List.mem_map_of_mem hx, ?_⟩
    have hvar : (Literal.ofNumber x).var = v := by
      rw [← Literal.number_var_ofNumber (hnumbers x hx)] at hv
      exact Variable.ext (Nat.succ.inj hv.symm)
    rw [Valuation.MakesTrue, hvar, htrue, Literal.ofNumber, Literal.isPositive_ofVariable]

theorem complementary_iff :
    hasNeighbours (normalizedClause (numbers.map Literal.ofNumber)) = true ↔
      Complementary numbers := by
  rw [hasNeighbours_normalizedClause]
  constructor
  · rintro ⟨l, hl, hneg⟩
    obtain ⟨x, hx, rfl⟩ := List.mem_map.mp hl
    obtain ⟨y, hy, heq⟩ := List.mem_map.mp hneg
    exact ⟨x, hx, y, hy, (Literal.negate_ofNumber (hnumbers x hx) (hnumbers y hy)).mp heq.symm⟩
  · rintro ⟨x, hx, y, hy, heq⟩
    refine ⟨_, List.mem_map_of_mem hx, ?_⟩
    rw [(Literal.negate_ofNumber (hnumbers x hx) (hnumbers y hy)).mpr heq]
    exact List.mem_map_of_mem hy

theorem two_numbers_iff :
    2 ≤ (normalizedClause (numbers.map Literal.ofNumber)).length ↔
      ∃ x ∈ numbers, ∃ y ∈ numbers, x ≠ y := by
  rw [two_le_length_normalizedClause]
  constructor
  · rintro ⟨l, hl, m, hm, hne⟩
    obtain ⟨x, hx, rfl⟩ := List.mem_map.mp hl
    obtain ⟨y, hy, rfl⟩ := List.mem_map.mp hm
    exact ⟨x, hx, y, hy, fun heq => hne (congrArg _ heq)⟩
  · rintro ⟨x, hx, y, hy, hne⟩
    refine ⟨_, List.mem_map_of_mem hx, _, List.mem_map_of_mem hy, fun heq => hne ?_⟩
    exact (Literal.ofNumber_inj (hnumbers x hx) (hnumbers y hy)).mp heq

end Numbers

/-! ## What each clause keeps -/

/-- The clause is stored: it is no tautology and has two literals or more. -/
def isStored (literals : List Literal) : Bool :=
  !hasNeighbours (normalizedClause literals) && decide (2 ≤ (normalizedClause literals).length)

/-- The form in which a clause is stored. -/
def storedForm (literals : List Literal) : StoredClause :=
  ⟨normalizedClause literals, (normalizedClause literals).length, .input⟩

/-- The state of a worker with `n` variables at the root stands for the clauses read so far, with
that many tautologies among them. -/
structure Represents (n : Nat) (inputs : List (List Literal)) (c : Core) (tautologies : Nat) :
    Prop where
  size_eq : c.size = n
  level_eq : c.assignment.level = 0
  backed : c.assignment.Backed
  models_iff : ∀ μ : Valuation, μ.Models c ↔ ∀ literals ∈ inputs, μ.Satisfies literals
  clauses_eq : c.store.clauses.toList = (inputs.filter isStored).map storedForm
  tautologies_eq : tautologies = inputs.countP fun ls => hasNeighbours (normalizedClause ls)

namespace Represents

variable {n : Nat} {inputs : List (List Literal)} {c : Core} {tautologies : Nat}

theorem start (n : Nat) : Represents n [] (Core.empty.register n) 0 where
  size_eq := (PerVariable.size_extend ..).trans (Nat.zero_add n)
  level_eq := rfl
  backed := Assignment.backed_empty.register n
  models_iff _ := ⟨nofun, fun _ => ⟨rfl, nofun, nofun⟩⟩
  clauses_eq := rfl
  tautologies_eq := rfl

/-- A tautology holds anyway. -/
theorem tautology (h : Represents n inputs c tautologies) {literals : List Literal}
    (hneighbours : hasNeighbours (normalizedClause literals) = true) :
    Represents n (inputs ++ [literals]) c (tautologies + 1) := by
  refine ⟨h.size_eq, h.level_eq, h.backed, ?_, ?_, ?_⟩
  · intro μ
    obtain ⟨l, hl, hneg⟩ := hasNeighbours_normalizedClause.mp hneighbours
    have htrue : μ.Satisfies literals := Valuation.satisfies_of_complementary hl hneg
    rw [h.models_iff, List.forall_mem_append, List.forall_mem_singleton]
    exact ⟨fun hinputs => ⟨hinputs, htrue⟩, And.left⟩
  · have hskip : isStored literals = false := by simp [isStored, hneighbours]
    simp [h.clauses_eq, hskip]
  · simp [h.tautologies_eq, hneighbours]

/-- Any other clause is asserted in its normal form. -/
theorem clause (h : Represents n inputs c tautologies) {literals : List Literal}
    (hneighbours : hasNeighbours (normalizedClause literals) = false) :
    Represents n (inputs ++ [literals]) (c.assertClause (normalizedClause literals))
      tautologies := by
  refine ⟨(c.size_assertClause _).trans h.size_eq, (c.level_assertClause _).trans h.level_eq,
    Core.backed_assertClause h.backed _, ?_, ?_, ?_⟩
  · intro μ
    rw [Core.models_assertClause h.level_eq h.backed, h.models_iff, satisfies_normalizedClause,
      List.forall_mem_append, List.forall_mem_singleton]
  · rw [Core.clauses_assertClause, h.clauses_eq, List.filter_append, List.map_append]
    congr 1
    by_cases hlength : 2 ≤ (normalizedClause literals).length
    · simp [isStored, hneighbours, hlength, storedForm]
    · simp [isStored, hneighbours, hlength]
  · simp [h.tautologies_eq, hneighbours]

end Represents

/-! ## The builder -/

namespace FormulaBuilder

variable {K : Type} [Scalar K] {settings : Settings K} {n : Nat} {inputs : List (List Literal)}
  {b : FormulaBuilder K}

/-- A new builder. -/
def blank (settings : Settings K) : FormulaBuilder K := ⟨.blank settings, none, #[], 0⟩

theorem create_eq_ok_iff :
    create settings = .ok b ↔ settings.validate = .ok () ∧ b = blank settings := by
  constructor
  · intro h
    obtain ⟨w, hw, h⟩ := bind_eq_ok_iff.mp h
    cases h
    obtain ⟨hvalid, rfl⟩ := Worker.create_eq_ok_iff.mp hw
    exact ⟨hvalid, rfl⟩
  · rintro ⟨hvalid, rfl⟩
    exact bind_eq_ok_iff.mpr ⟨_, Worker.create_eq_ok_iff.mpr ⟨hvalid, rfl⟩, rfl⟩

/-- Without a declaration the end of a clause is refused. Otherwise the clause is left out as a
tautology, or its normal form is asserted. -/
theorem endClause_cases (b : FormulaBuilder K) :
    (b.declared = none ∧ b.endClause = .ok (b, .error .noProblemLine)) ∨
    (hasNeighbours (normalizedClause b.current.toList) = true ∧
      b.endClause = .ok ({ b with current := #[], tautologies := b.tautologies + 1 }, .ok ())) ∨
    (hasNeighbours (normalizedClause b.current.toList) = false ∧
      b.endClause = (b.worker.assertClause (normalizedClause b.current.toList)).map
        fun (worker, r) => ({ b with current := #[], worker := worker },
          (r.mapError .refused).map fun _ => ())) := by
  unfold endClause
  split
  · next hnone => exact .inl ⟨Option.isNone_iff_eq_none.mp hnone, rfl⟩
  dsimp only
  split
  · next hneighbours => exact .inr (.inl ⟨hneighbours, rfl⟩)
  · next hneighbours =>
    refine .inr (.inr ⟨Bool.eq_false_iff.mpr hneighbours, ?_⟩)
    rcases b.worker.assertClause (normalizedClause b.current.toList) with _ | ⟨_, _ | _⟩ <;> rfl

/-- The builder of a formula with `n` variables after some of its clauses. -/
structure Progress (settings : Settings K) (n : Nat) (inputs : List (List Literal))
    (b : FormulaBuilder K) : Prop where
  declared_eq : b.declared = some n
  worker_eq : b.worker = { Worker.seed settings n with core := b.worker.core }
  represents : Represents n inputs b.worker.core b.tautologies

theorem Progress.setCurrent (h : Progress settings n inputs b) (current : Array Literal) :
    Progress settings n inputs { b with current := current } :=
  ⟨h.declared_eq, h.worker_eq, h.represents⟩

/-- Ending a clause over the declared variables succeeds. -/
theorem Progress.endClause (h : Progress settings n inputs b)
    (hrange : ∀ l ∈ b.current.toList, l.var.index < n) :
    ∃ b', b.endClause = .ok (b', .ok ()) ∧ b'.current = #[] ∧
      Progress settings n (inputs ++ [b.current.toList]) b' := by
  rcases b.endClause_cases with ⟨hnone, -⟩ | ⟨hneighbours, hend⟩ | ⟨hneighbours, hend⟩
  · cases h.declared_eq.symm.trans hnone
  · exact ⟨_, hend, rfl, h.declared_eq, h.worker_eq, h.represents.tautology hneighbours⟩
  · have hcurrent : b.worker.Current := by
      rw [h.worker_eq]
      exact Worker.current_seed settings h.represents.size_eq
    have hregistered : ∀ l ∈ normalizedClause b.current.toList,
        b.worker.core.registered l.var = true := by
      intro l hl
      have hlt := hrange l (mem_normalizedClause.mp hl)
      rw [← h.represents.size_eq] at hlt
      exact PerVariable.has_iff.mpr hlt
    obtain ⟨position, hassert⟩ :=
      Worker.assertClause_eq h.represents.level_eq hcurrent hregistered
    rw [hend, hassert]
    refine ⟨_, rfl, rfl, h.declared_eq, ?_, h.represents.clause hneighbours⟩
    rw [h.worker_eq]

/-! ## Tokens -/

theorem tokens_cons {b' : FormulaBuilder K} {t : Dimacs.Token} (h : b.token t = .ok (b', .ok ()))
    (ts : List Dimacs.Token) : b.tokens (t :: ts) = b'.tokens ts := by
  rw [tokens, h]
  rfl

/-- The numbers of a clause over the first `n` variables. -/
def InRange (n : Nat) (numbers : List Int32) : Prop :=
  ∀ x ∈ numbers, x ≠ 0 ∧ x.toInt.natAbs ≤ n

instance (n : Nat) (numbers : List Int32) : Decidable (InRange n numbers) :=
  List.decidableBAll _ numbers

theorem index_lt_of_inRange {numbers : List Int32} (h : InRange n numbers) :
    ∀ l ∈ numbers.map Literal.ofNumber, l.var.index < n := by
  intro l hl
  obtain ⟨x, hx, rfl⟩ := List.mem_map.mp hl
  have hnumber := Literal.number_var_ofNumber (h x hx).1
  have hle := (h x hx).2
  unfold Variable.number at hnumber
  omega

/-- Literals over the declared variables are collected. -/
theorem tokens_literals (hdeclared : b.declared = some n) {numbers : List Int32}
    (hnumbers : InRange n numbers) (ts : List Dimacs.Token) :
    b.tokens (numbers.map .literal ++ ts) =
      { b with current := b.current ++ numbers.map Literal.ofNumber }.tokens ts := by
  induction numbers generalizing b with
  | nil => simp
  | cons x numbers ih =>
    have hx := hnumbers x List.mem_cons_self
    have hlt : ¬ n ≤ (Literal.ofNumber x).var.index := by
      have := index_lt_of_inRange hnumbers _ (List.mem_map_of_mem List.mem_cons_self)
      omega
    have htoken : b.token (.literal x) =
        .ok ({ b with current := b.current.push (Literal.ofNumber x) }, .ok ()) := by
      rw [token, literal, Literal.ofDimacs_eq hx.1]
      simp only [hdeclared]
      exact if_neg hlt
    rw [List.map_cons, List.cons_append, tokens_cons htoken,
      ih (by exact hdeclared) fun y hy => hnumbers y (List.mem_cons_of_mem x hy)]
    simp

/-- A list of clauses, each with its end, is taken clause by clause. -/
theorem Progress.clauses (h : Progress settings n inputs b) (hcurrent : b.current = #[])
    {closed : List (List Int32)} (hclosed : ∀ numbers ∈ closed, InRange n numbers)
    (ts : List Dimacs.Token) :
    ∃ b', b.tokens ((closed.flatMap fun numbers => numbers.map .literal ++ [.clauseEnd]) ++ ts) =
        b'.tokens ts ∧ b'.current = #[] ∧
      Progress settings n (inputs ++ closed.map (·.map Literal.ofNumber)) b' := by
  induction closed generalizing b inputs with
  | nil => exact ⟨b, rfl, hcurrent, by simpa using h⟩
  | cons numbers closed ih =>
    have hnumbers := hclosed numbers List.mem_cons_self
    -- The literals of the first clause are collected, its end asserts them, and the rest follows.
    obtain ⟨b₁, hend, hcurrent₁, h₁⟩ :=
      (h.setCurrent (b.current ++ numbers.map Literal.ofNumber)).endClause (by
        simpa [hcurrent] using index_lt_of_inRange hnumbers)
    obtain ⟨b', htokens, hcurrent', h'⟩ :=
      ih h₁ hcurrent₁ fun numbers' hmem => hclosed numbers' (List.mem_cons_of_mem _ hmem)
    have htoken : token { b with current := b.current ++ numbers.map Literal.ofNumber } .clauseEnd =
        .ok (b₁, .ok ()) := hend
    refine ⟨b', ?_, hcurrent', ?_⟩
    · rw [List.flatMap_cons, List.append_assoc, List.append_assoc,
        tokens_literals h.declared_eq hnumbers, List.singleton_append, tokens_cons htoken]
      exact htokens
    · simpa [hcurrent] using h'

/-! ## Whole formulas -/

/-- The tokens of a formula with `n` variables up to its end. The last clause may lack its own. -/
def formulaTokens (start n m : Nat) (closed : List (List Int32)) (unfinished : List Int32) :
    List Dimacs.Token :=
  .problem start n m ::
    ((closed.flatMap fun numbers => numbers.map .literal ++ [.clauseEnd]) ++
      unfinished.map .literal)

/-- The clauses of such a formula. An unfinished clause without literals is none. -/
def formulaClauses (closed : List (List Int32)) (unfinished : List Int32) : List (List Int32) :=
  closed ++ if unfinished = [] then [] else [unfinished]

theorem progress_problem {b₀ : FormulaBuilder K} (h₀ : create settings = .ok b₀)
    (hn : n ≤ Variable.maxCount) (start m : Nat) :
    ∃ b, b₀.token (.problem start n m) = .ok (b, .ok ()) ∧ b.current = #[] ∧
      Progress settings n [] b := by
  obtain ⟨hvalid, rfl⟩ := create_eq_ok_iff.mp h₀
  refine ⟨⟨Worker.seed settings n, some n, #[], 0⟩, ?_, rfl, rfl, rfl, .start n⟩
  rw [token, problem]
  simp only [blank, Worker.addVariables_blank hvalid hn]
  rfl

/-- All tokens of a formula and its end are taken. -/
theorem progress_formula {b₀ : FormulaBuilder K} (h₀ : create settings = .ok b₀)
    (hn : n ≤ Variable.maxCount) {closed : List (List Int32)} {unfinished : List Int32}
    (hclosed : ∀ numbers ∈ closed, InRange n numbers) (hunfinished : InRange n unfinished)
    (start m : Nat) :
    ∃ b₁ b₂, b₀.tokens (formulaTokens start n m closed unfinished) = .ok (b₁, .ok ()) ∧
      b₁.finish = .ok (b₂, .ok ()) ∧
      Progress settings n ((formulaClauses closed unfinished).map (·.map Literal.ofNumber)) b₂ := by
  obtain ⟨b, hproblem, hcurrent, h⟩ := progress_problem h₀ hn start m
  obtain ⟨b', htokens, hcurrent', h'⟩ :=
    h.clauses hcurrent hclosed (unfinished.map .literal)
  have hliterals := tokens_literals h'.declared_eq hunfinished []
  rw [List.append_nil] at hliterals
  refine ⟨{ b' with current := b'.current ++ unfinished.map Literal.ofNumber }, ?_⟩
  rw [formulaTokens, tokens_cons hproblem, htokens, hliterals, formulaClauses]
  by_cases hempty : unfinished = []
  · subst hempty
    exact ⟨_, rfl, if_pos (by simp [hcurrent']), by simpa using h'.setCurrent _⟩
  · obtain ⟨b₂, hend, -, h₂⟩ :=
      (h'.setCurrent (b'.current ++ unfinished.map Literal.ofNumber)).endClause (by
        simpa [hcurrent'] using index_lt_of_inRange hunfinished)
    refine ⟨b₂, rfl, (if_neg ?_).trans hend, ?_⟩
    · simpa [hcurrent'] using hempty
    · simpa [hempty, hcurrent'] using h₂

theorem inRange_formulaClauses {closed : List (List Int32)} {unfinished : List Int32}
    (hclosed : ∀ numbers ∈ closed, InRange n numbers) (hunfinished : InRange n unfinished) :
    ∀ numbers ∈ formulaClauses closed unfinished, InRange n numbers := by
  intro numbers hnumbers
  rcases List.mem_append.mp hnumbers with hmem | hmem
  · exact hclosed numbers hmem
  · split at hmem
    · cases hmem
    · rw [List.mem_singleton.mp hmem]
      exact hunfinished

/-- The stored clauses are those to be stored, one for one. -/
theorem forall₂_stored {clauses : List (List Int32)}
    (hclauses : ∀ numbers ∈ clauses, ∀ x ∈ numbers, x ≠ 0) :
    List.Forall₂ (fun numbers c => ∀ k : Int,
        (∃ x ∈ numbers, x.toInt = k) ↔ ∃ l ∈ c.literals, l.toInt = k)
      (clauses.filter (ToBeStored ·))
      (((clauses.map (·.map Literal.ofNumber)).filter isStored).map storedForm) := by
  have hfilter : clauses.filter (isStored ∘ (·.map Literal.ofNumber)) =
      clauses.filter (ToBeStored ·) := by
    refine List.filter_congr fun numbers hnumbers => ?_
    have hne := hclauses numbers hnumbers
    simp only [Function.comp, isStored, ToBeStored, ← complementary_iff hne, ← two_numbers_iff hne]
    simp
  rw [List.filter_map, hfilter, List.map_map, List.forall₂_map_right_iff, List.forall₂_same]
  intro numbers hnumbers k
  have hne := hclauses numbers (List.mem_of_mem_filter hnumbers)
  constructor
  · rintro ⟨x, hx, rfl⟩
    refine ⟨_, mem_normalizedClause.mpr (List.mem_map_of_mem hx), ?_⟩
    exact Literal.toInt_ofNumber (hne x hx)
  · rintro ⟨l, hl, rfl⟩
    obtain ⟨x, hx, rfl⟩ := List.mem_map.mp (mem_normalizedClause.mp hl)
    exact ⟨x, hx, (Literal.toInt_ofNumber (hne x hx)).symm⟩

/-- A new builder takes every formula over `n` variables, as long as so many can be registered: the
problem line, the clauses with any literals in any order and the end, which may have to end the last
clause. The worker that it makes admits exactly the assignments that satisfy all clauses. Every
stored clause belongs to the formula, is strictly sorted, and has two literals or more, of different
variables. Clauses with a complementary pair are counted as tautologies. The other ones with two
different literals are stored, once each and in order; what remains are empty clauses and units. -/
theorem tokens_preserve_formula {b₀ : FormulaBuilder K} (h₀ : create settings = .ok b₀)
    (hn : n ≤ Variable.maxCount) {closed : List (List Int32)} {unfinished : List Int32}
    (hclosed : ∀ numbers ∈ closed, InRange n numbers) (hunfinished : InRange n unfinished)
    (start m : Nat) :
    ∃ b₁ b₂, b₀.tokens (formulaTokens start n m closed unfinished) = .ok (b₁, .ok ()) ∧
      b₁.finish = .ok (b₂, .ok ()) ∧
      (∀ μ : Valuation, (∀ numbers ∈ formulaClauses closed unfinished,
        μ.SatisfiesNumbers numbers) ↔ μ.Models b₂.worker.core) ∧
      (∀ c ∈ b₂.worker.core.store.clauses, c.kind = .input ∧
        c.literals.Pairwise (·.code < ·.code) ∧ 2 ≤ c.literals.length ∧
        (c.literals.map (·.var)).Nodup) ∧
      b₂.tautologies = (formulaClauses closed unfinished).countP (Complementary ·) ∧
      List.Forall₂ (fun numbers c => ∀ k : Int,
          (∃ x ∈ numbers, x.toInt = k) ↔ ∃ l ∈ c.literals, l.toInt = k)
        ((formulaClauses closed unfinished).filter (ToBeStored ·))
        b₂.worker.core.store.clauses.toList := by
  obtain ⟨b₁, b₂, htokens, hfinish, h⟩ := progress_formula h₀ hn hclosed hunfinished start m
  have hne : ∀ numbers ∈ formulaClauses closed unfinished, ∀ x ∈ numbers, x ≠ 0 :=
    fun numbers hnumbers x hx =>
      (inRange_formulaClauses hclosed hunfinished numbers hnumbers x hx).1
  refine ⟨b₁, b₂, htokens, hfinish, ?_, ?_, ?_, ?_⟩
  · intro μ
    rw [h.represents.models_iff, List.forall_mem_map]
    exact forall₂_congr fun numbers hnumbers => (satisfies_ofNumber (hne numbers hnumbers)).symm
  · intro c hc
    rw [← Array.mem_toList_iff, h.represents.clauses_eq] at hc
    obtain ⟨literals, hmem, rfl⟩ := List.mem_map.mp hc
    have hstored := List.of_mem_filter hmem
    simp only [isStored, Bool.and_eq_true, Bool.not_eq_true', decide_eq_true_eq] at hstored
    have hsorted := pairwise_normalizedClause literals
    exact ⟨rfl, hsorted, hstored.2, nodup_var_of_hasNeighbours hsorted hstored.1⟩
  · rw [h.represents.tautologies_eq, List.countP_map]
    refine List.countP_congr fun numbers hnumbers => ?_
    rw [Function.comp, complementary_iff (hne numbers hnumbers), decide_eq_true_eq]
  · rw [h.represents.clauses_eq]
    exact forall₂_stored hne

/-- Five clauses over three variables, the last of them unfinished: a repeated literal, a tautology,
a unit, a tautology with a repetition, and two literals in descending order. -/
def smallFormula : List (List Int32) := [[2, 1, 2], [-3, 3], [-1], [1, -1, 2, 2]]

theorem tokens_preserve_formula_smallFormula :
    ∃ b₀ b₁ b₂ : FormulaBuilder Rat, create .standard = .ok b₀ ∧
      b₀.tokens (formulaTokens 0 3 5 smallFormula [3, -2]) = .ok (b₁, .ok ()) ∧
      b₁.finish = .ok (b₂, .ok ()) ∧ b₂.tautologies = 2 ∧
      b₂.worker.core.store.clauses.size = 2 ∧
      Valuation.Models (fun v => v.index ≠ 0) b₂.worker.core := by
  have h₀ : create (.standard : Settings Rat) = .ok ⟨.blank .standard, none, #[], 0⟩ :=
    bind_eq_ok_iff.mpr
      ⟨_, Worker.create_eq_ok_iff.mpr ⟨Settings.validate_standard, rfl⟩, rfl⟩
  have hclosed : ∀ numbers ∈ smallFormula, InRange 3 numbers := by decide
  have hunfinished : InRange 3 [3, -2] := by decide
  obtain ⟨b₁, b₂, htokens, hfinish, hmodels, -, htautologies, hstored⟩ :=
    tokens_preserve_formula h₀ (by decide) hclosed hunfinished 0 5
  have hsatisfied : ∀ numbers ∈ formulaClauses smallFormula [3, -2],
      Valuation.Satisfies (fun v => v.index ≠ 0) (numbers.map Literal.ofNumber) := by
    decide +kernel
  refine ⟨_, b₁, b₂, h₀, htokens, hfinish, htautologies.trans (by decide), ?_, ?_⟩
  · exact hstored.length_eq.symm.trans (by decide)
  · refine (hmodels _).mp fun numbers hnumbers => ?_
    have hrange := inRange_formulaClauses hclosed hunfinished numbers hnumbers
    exact (satisfies_ofNumber fun x hx => (hrange x hx).1).mp (hsatisfied numbers hnumbers)

end FormulaBuilder

end ClauseSharing

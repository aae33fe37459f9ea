import ClauseSharing.Import.Payload
import ClauseSharing.Worker.Core

/-!
Truth of literals and clauses.

A valuation gives every variable a value, whatever a worker has assigned. It says what clauses mean:
`Valuation.MakesTrue` for literals, `Valuation.Satisfies` for clauses, and `Valuation.Honors` for
offered payloads, whose literals are external.
-/

namespace ClauseSharing

/-- A value for every variable. -/
abbrev Valuation := Variable → Bool

namespace Valuation

/-- The literal is true under the valuation. -/
def MakesTrue (μ : Valuation) (l : Literal) : Prop := μ l.var = l.isPositive

instance (μ : Valuation) (l : Literal) : Decidable (μ.MakesTrue l) :=
  inferInstanceAs (Decidable (μ l.var = l.isPositive))

/-- Some literal of the clause is true. -/
def Satisfies (μ : Valuation) (literals : List Literal) : Prop := ∃ l ∈ literals, μ.MakesTrue l

instance (μ : Valuation) (literals : List Literal) : Decidable (μ.Satisfies literals) :=
  inferInstanceAs (Decidable (∃ l ∈ literals, μ.MakesTrue l))

variable {μ : Valuation}

theorem makesTrue_ofVariable {v : Variable} {b : Bool} :
    μ.MakesTrue (.ofVariable v b) ↔ μ v = b := by
  rw [MakesTrue, Literal.var_ofVariable, Literal.isPositive_ofVariable]

theorem makesTrue_negate {l : Literal} : μ.MakesTrue l.negate ↔ ¬ μ.MakesTrue l := by
  rw [MakesTrue, MakesTrue, Literal.var_negate, Literal.isPositive_negate]
  cases μ l.var <;> cases l.isPositive <;> decide

theorem not_satisfies_nil : ¬ μ.Satisfies [] := fun ⟨_, h, _⟩ => List.not_mem_nil h

theorem satisfies_singleton {l : Literal} : μ.Satisfies [l] ↔ μ.MakesTrue l := by
  simp [Satisfies]

/-- A literal and its negation satisfy a clause between them. -/
theorem satisfies_of_complementary {l : Literal} {literals : List Literal} (h : l ∈ literals)
    (hneg : l.negate ∈ literals) : μ.Satisfies literals := by
  by_cases hl : μ.MakesTrue l
  · exact ⟨l, h, hl⟩
  · exact ⟨l.negate, hneg, makesTrue_negate.mpr hl⟩

/-- Clauses with the same literals mean the same. -/
theorem satisfies_congr {xs ys : List Literal} (h : ∀ l, l ∈ xs ↔ l ∈ ys) :
    μ.Satisfies xs ↔ μ.Satisfies ys := by
  simp only [Satisfies, h]

end Valuation

/-- The external literals of an offer. -/
def Offer.externals : Offer → List Int32
  | .unit external => [external]
  | .clause _ externals => externals

/-- The valuation satisfies a clause of external literals, read through the names, provided that
all of them are known. -/
def Valuation.SatisfiesThrough (μ : Valuation) (names : Names) (externals : List Int32) : Prop :=
  (∀ e ∈ externals, (names.resolve e).isSome) →
    ∃ e ∈ externals, ∃ l ∈ names.resolve e, μ.MakesTrue l

instance (μ : Valuation) (names : Names) (externals : List Int32) :
    Decidable (μ.SatisfiesThrough names externals) :=
  -- Named, so that only the members are looked at and not all numbers.
  have : Decidable (∀ e ∈ externals, (names.resolve e).isSome) := List.decidableBAll _ externals
  inferInstanceAs (Decidable (_ → ∃ e ∈ externals, ∃ l ∈ names.resolve e, μ.MakesTrue l))

/-- The valuation satisfies what a payload offers. A payload that is no clause asks for nothing. -/
def Valuation.Honors (μ : Valuation) (names : Names) (payload : List Int32) : Prop :=
  ∀ offer ∈ (Offer.ofPayload payload).toOption, μ.SatisfiesThrough names offer.externals

instance (μ : Valuation) (names : Names) (payload : List Int32) :
    Decidable (μ.Honors names payload) :=
  inferInstanceAs (Decidable (∀ offer ∈ (Offer.ofPayload payload).toOption, _))

end ClauseSharing

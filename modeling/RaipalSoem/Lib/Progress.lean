import Mathlib.Data.List.Basic

/-!
# Progress measures

A run whose counted steps lower a measure by one, and whose other steps never
raise it, has reached measure zero once enough counted steps were taken.
-/

namespace RaipalSoem.Lib

variable {S A : Type*}

/-- An invariant and a measure for the steps of a system in which only some
actions are counted as progress. -/
structure ProgressMeasure (step : S → A → S) (counted : A → Bool) where
  inv : S → Prop
  rank : S → Nat
  inv_step : ∀ s a, inv s → inv (step s a)
  rank_step : ∀ s a, inv s → rank (step s a) ≤ rank s
  rank_counted : ∀ s a, inv s → counted a = true → rank (step s a) ≤ rank s - 1

namespace ProgressMeasure

variable {step : S → A → S} {counted : A → Bool} (μ : ProgressMeasure step counted)

theorem inv_run {s : S} (h : μ.inv s) (as : List A) : μ.inv (as.foldl step s) := by
  induction as generalizing s with
  | nil => exact h
  | cons a as ih => exact ih (μ.inv_step s a h)

/-- Every counted step pays for one unit of the rank. -/
theorem rank_run {s : S} (h : μ.inv s) (as : List A) :
    μ.rank (as.foldl step s) ≤ μ.rank s - as.countP counted := by
  induction as generalizing s with
  | nil => simp
  | cons a as ih =>
      have hrec := ih (μ.inv_step s a h)
      rw [List.foldl_cons, List.countP_cons]
      by_cases ha : counted a = true
      · have := μ.rank_counted s a h ha
        simp only [if_pos ha]
        omega
      · have := μ.rank_step s a h
        simp only [if_neg ha]
        omega

/-- Enough counted steps bring the rank to zero. -/
theorem rank_run_eq_zero {s : S} (h : μ.inv s) (as : List A)
    (hcount : μ.rank s ≤ as.countP counted) : μ.rank (as.foldl step s) = 0 := by
  have := μ.rank_run h as
  omega

end ProgressMeasure

end RaipalSoem.Lib

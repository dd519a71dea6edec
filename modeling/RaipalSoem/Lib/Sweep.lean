import Mathlib.Data.List.Nodup
import Mathlib.Data.Fintype.Basic

/-!
# Sweeps over independent cells

A sweep runs a body once for each index of a list. When the body for index `k`
rewrites only the cell at `k`, and reads only that cell, a sweep over a list
without repetitions acts on every listed cell exactly once.
-/

namespace RaipalSoem.Lib

variable {ι S C : Type*} [DecidableEq ι]

/-- A body that turns the cell at its own index into `g k` of that cell and
leaves every other cell alone. -/
def Local (view : S → ι → C) (g : ι → C → C) (body : S → ι → S) : Prop :=
  ∀ s k j, view (body s k) j = if j = k then g k (view s k) else view s j

/-- One sweep applies `g` once to every listed cell. -/
theorem Local.foldl {view : S → ι → C} {g : ι → C → C} {body : S → ι → S}
    (h : Local view g body) (ks : List ι) (hks : ks.Nodup) (s : S) (j : ι) :
    view (ks.foldl body s) j = if j ∈ ks then g j (view s j) else view s j := by
  induction ks generalizing s with
  | nil => simp
  | cons k ks ih =>
      obtain ⟨hk, hks⟩ := List.nodup_cons.mp hks
      rw [List.foldl_cons, ih hks, h]
      by_cases hj : j = k
      · subst j
        simp [hk]
      · simp [hj]

/-- A sweep over all indices of a finite range updates every cell. -/
theorem Local.finRange {n : Nat} {view : S → Fin n → C} {g : Fin n → C → C}
    {body : S → Fin n → S} (h : Local view g body) (s : S) (j : Fin n) :
    view ((List.finRange n).foldl body s) j = g j (view s j) := by
  rw [h.foldl _ (List.nodup_finRange n), if_pos (List.mem_finRange j)]

section Partial

variable {κ : Type*} {f : S → κ → Option S}

/-- A sweep whose steps have results is a sweep without failures. -/
theorem foldlM_eq_some {g : S → κ → S} (ks : List κ) (h : ∀ s, ∀ k ∈ ks, f s k = some (g s k))
    (s : S) : ks.foldlM f s = some (ks.foldl g s) := by
  induction ks generalizing s with
  | nil => rfl
  | cons k ks ih =>
      rw [List.foldlM_cons, h s k (by simp), List.foldl_cons]
      exact ih (fun s j hj => h s j (List.mem_cons_of_mem k hj)) (g s k)

/-- A sweep has a result when each of its steps has one, whatever the state is. -/
theorem foldlM_isSome_iff {p : κ → Prop} (h : ∀ s k, (f s k).isSome = true ↔ p k) (ks : List κ)
    (s : S) : (ks.foldlM f s).isSome = true ↔ ∀ k ∈ ks, p k := by
  induction ks generalizing s with
  | nil => simp
  | cons k ks ih =>
      rw [List.foldlM_cons, List.forall_mem_cons, ← h s k]
      cases hk : f s k with
      | none => simp
      | some s' => simpa using ih s'

end Partial

end RaipalSoem.Lib

import Mathlib.Data.List.Basic
import Mathlib.Data.List.Nodup
import Mathlib.Logic.Function.Basic

/-!
# Doubly linked lists in two maps

Elements that are linked forwards by one map and backwards by another, starting at a head.
Appending an element that is not in the list links it to the last one.
-/

namespace RaipalSoem.Lib

variable {α : Type*}

/-- The elements `xs` are linked in both directions, from `head` on. -/
def Linked (next prev : α → α) : α → List α → Prop
  | _, [] => True
  | head, x :: xs => next head = x ∧ prev x = head ∧ Linked next prev x xs

/-- The last element of a list behind `head`. -/
def lastOf : α → List α → α
  | head, [] => head
  | _, x :: xs => lastOf x xs

@[simp] theorem lastOf_append_singleton (head : α) (xs : List α) (y : α) :
    lastOf head (xs ++ [y]) = y := by
  induction xs generalizing head with
  | nil => rfl
  | cons x xs ih => exact ih x

theorem lastOf_mem (head : α) (xs : List α) : lastOf head xs ∈ head :: xs := by
  induction xs generalizing head with
  | nil => exact List.mem_cons_self
  | cons x xs ih => exact List.mem_cons_of_mem _ (ih x)

namespace Linked

variable {next prev : α → α}

/-- Only the links of the elements themselves matter. -/
theorem congr {next' prev' : α → α} {head : α} {xs : List α}
    (hnext : ∀ x ∈ (head :: xs).dropLast, next' x = next x)
    (hprev : ∀ x ∈ xs, prev' x = prev x) (h : Linked next prev head xs) :
    Linked next' prev' head xs := by
  induction xs generalizing head with
  | nil => trivial
  | cons x xs ih =>
      obtain ⟨hn, hp, hrest⟩ := h
      refine ⟨?_, ?_, ih (fun y hy => hnext y ?_) (fun y hy => hprev y ?_) hrest⟩
      · rw [hnext head (by simp), hn]
      · rw [hprev x List.mem_cons_self, hp]
      · simp only [List.dropLast_cons_cons, List.mem_cons]
        exact .inr hy
      · exact List.mem_cons_of_mem _ hy

theorem concat {head : α} {xs : List α} {y : α} (h : Linked next prev head xs)
    (hnext : next (lastOf head xs) = y) (hprev : prev y = lastOf head xs) :
    Linked next prev head (xs ++ [y]) := by
  induction xs generalizing head with
  | nil => exact ⟨hnext, hprev, trivial⟩
  | cons x xs ih => exact ⟨h.1, h.2.1, ih h.2.2 hnext hprev⟩

theorem lastOf_notMem_dropLast {head : α} {xs : List α} (h : (head :: xs).Nodup) :
    lastOf head xs ∉ (head :: xs).dropLast := by
  induction xs generalizing head with
  | nil => simp
  | cons x xs ih =>
      simp only [List.dropLast_cons_cons, List.mem_cons, not_or]
      refine ⟨?_, ih h.tail⟩
      intro hhead
      have hmem : lastOf x xs ∈ x :: xs := lastOf_mem x xs
      exact (List.nodup_cons.mp h).1 (hhead ▸ hmem)

/-- Link a new element behind the last one. -/
theorem append [DecidableEq α] {head : α} {xs : List α} {y : α}
    (h : Linked next prev head xs) (hnodup : (head :: xs).Nodup) (hy : y ∉ head :: xs) :
    Linked (Function.update next (lastOf head xs) y)
      (Function.update prev y (lastOf head xs)) head (xs ++ [y]) := by
  apply concat
  · apply h.congr
    · intro x hx
      have hne : x ≠ lastOf head xs := fun he => lastOf_notMem_dropLast hnodup (he ▸ hx)
      exact Function.update_of_ne hne _ _
    · intro x hx
      have hne : x ≠ y := fun he => hy (he ▸ List.mem_cons_of_mem _ hx)
      exact Function.update_of_ne hne _ _
  · exact Function.update_self ..
  · exact Function.update_self ..

end Linked

end RaipalSoem.Lib

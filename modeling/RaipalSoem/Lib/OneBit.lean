import Mathlib.Data.List.Basic
import Mathlib.Tactic.Common

/-!
# Joining words to a word with a single bit

The bitwise OR of some words has a given single bit and no other exactly when each
of the words is zero or has this single bit, and one of them has it.
-/

namespace RaipalSoem.Lib

variable {w i : Nat} {x y : BitVec w}

theorem eq_zero_or_of_or_eq_twoPow (h : x ||| y = BitVec.twoPow w i) :
    x = 0 ∨ x = BitVec.twoPow w i := by
  have hbit : ∀ j, (x.getLsbD j || y.getLsbD j) = (BitVec.twoPow w i).getLsbD j := by
    intro j
    rw [← h, BitVec.getLsbD_or]
  -- away from position `i` neither word has a bit
  have hother : ∀ j, i ≠ j → x.getLsbD j = false := by
    intro j hij
    have hj := hbit j
    rw [BitVec.getLsbD_twoPow] at hj
    simp only [hij, decide_false, Bool.and_false, Bool.or_eq_false_iff] at hj
    exact hj.1
  cases hx : x.getLsbD i with
  | false =>
      left
      apply BitVec.eq_of_getLsbD_eq
      intro j _
      by_cases hij : i = j
      · simpa [hij] using hij ▸ hx
      · simpa using hother j hij
  | true =>
      right
      apply BitVec.eq_of_getLsbD_eq
      intro j hj
      rw [BitVec.getLsbD_twoPow]
      by_cases hij : i = j
      · subst hij
        simp [hj, hx]
      · simp [hij, hother j hij]

theorem or_eq_twoPow_iff (hx : x = 0 ∨ x = BitVec.twoPow w i) (hy : y = 0 ∨ y = BitVec.twoPow w i) :
    x ||| y = BitVec.twoPow w i ↔ x = BitVec.twoPow w i ∨ y = BitVec.twoPow w i := by
  rcases hx with rfl | rfl
  · rw [show (0 : BitVec w) ||| y = y from BitVec.zero_or]
    constructor
    · exact Or.inr
    · rintro (h | h)
      · rcases hy with rfl | h'
        · exact h
        · exact h'
      · exact h
  · refine ⟨fun _ => Or.inl rfl, fun _ => ?_⟩
    rcases hy with rfl | rfl
    · exact BitVec.or_zero
    · exact BitVec.or_self

theorem zero_or_twoPow_or_iff : (x ||| y = 0 ∨ x ||| y = BitVec.twoPow w i) ↔
    (x = 0 ∨ x = BitVec.twoPow w i) ∧ (y = 0 ∨ y = BitVec.twoPow w i) := by
  constructor
  · rintro (h | h)
    · obtain ⟨rfl, rfl⟩ := BitVec.or_eq_zero_iff.mp h
      exact ⟨Or.inl rfl, Or.inl rfl⟩
    · exact ⟨eq_zero_or_of_or_eq_twoPow h,
        eq_zero_or_of_or_eq_twoPow ((BitVec.or_comm y x).trans h)⟩
  · rintro ⟨hx, hy⟩
    rcases hx with rfl | rfl
    · rw [show (0 : BitVec w) ||| y = y from BitVec.zero_or]
      exact hy
    · exact Or.inr ((or_eq_twoPow_iff (Or.inr rfl) hy).mpr (Or.inl rfl))

/-- Words are joined to a single bit exactly when each is zero or the bit, and one is
the bit. -/
theorem foldl_or_eq_twoPow (ws : List (BitVec w)) :
    ws.foldl (· ||| ·) x = BitVec.twoPow w i ↔
      (∀ v ∈ x :: ws, v = 0 ∨ v = BitVec.twoPow w i) ∧ ∃ v ∈ x :: ws, v = BitVec.twoPow w i := by
  induction ws generalizing x with
  | nil =>
      simp only [List.foldl_nil, List.mem_singleton, forall_eq, exists_eq_left]
      exact ⟨fun h => ⟨Or.inr h, h⟩, And.right⟩
  | cons v ws ih =>
      rw [List.foldl_cons, ih]
      simp only [List.forall_mem_cons, List.exists_mem_cons_iff, zero_or_twoPow_or_iff]
      constructor
      · rintro ⟨⟨⟨hx, hv⟩, hws⟩, hmem⟩
        rw [or_eq_twoPow_iff hx hv, or_assoc] at hmem
        exact ⟨⟨hx, hv, hws⟩, hmem⟩
      · rintro ⟨⟨hx, hv, hws⟩, hmem⟩
        rw [or_eq_twoPow_iff hx hv, or_assoc]
        exact ⟨⟨⟨hx, hv⟩, hws⟩, hmem⟩

end RaipalSoem.Lib

import Mathlib.Data.List.Basic

/-!
# Rising edges of a sampled signal

The number of places where a Boolean signal goes from low to high between two
neighbouring samples.
-/

namespace RaipalSoem.Lib

/-- Count the changes from `false` to `true` between neighbours. -/
def rises : List Bool → Nat
  | a :: b :: rest => (if !a && b then 1 else 0) + rises (b :: rest)
  | _ => 0

@[simp] theorem rises_nil : rises [] = 0 := rfl

@[simp] theorem rises_singleton (a : Bool) : rises [a] = 0 := rfl

@[simp] theorem rises_cons_cons (a b : Bool) (rest : List Bool) :
    rises (a :: b :: rest) = (if !a && b then 1 else 0) + rises (b :: rest) := rfl

/-- A signal without low samples has no rising edge. -/
theorem rises_eq_zero_of_high {l : List Bool} (h : ∀ a ∈ l, a = true) : rises l = 0 := by
  induction l with
  | nil => rfl
  | cons a l ih =>
      cases l with
      | nil => rfl
      | cons b rest =>
          have ha : a = true := h a (by simp)
          rw [rises_cons_cons, ih fun x hx => h x (by simp [hx])]
          simp [ha]

/-- A sample repeated at the front adds no edge. -/
theorem rises_repeat (a : Bool) (l : List Bool) : rises (a :: a :: l) = rises (a :: l) := by
  cases a <;> simp

end RaipalSoem.Lib

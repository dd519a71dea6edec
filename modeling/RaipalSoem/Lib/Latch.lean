import Mathlib.Data.List.Induction

/-!
# Latches

A latch keeps the last value that a partial decoder recognised and ignores
every event the decoder rejects. The fold over the events agrees with a search
through the reversed history, so the present value can be read off the history
alone.
-/

namespace RaipalSoem.Lib

variable {α β γ : Type*}

/-- Fold a history into the last value that `f` recognised, starting from `b`. -/
def latch (f : α → Option β) (b : β) (hist : List α) : β :=
  hist.foldl (fun b a => (f a).getD b) b

@[simp] theorem latch_concat (f : α → Option β) (b : β) (hist : List α) (a : α) :
    latch f b (hist ++ [a]) = (f a).getD (latch f b hist) := by
  simp [latch]

theorem latch_append (f : α → Option β) (b : β) (first rest : List α) :
    latch f b (first ++ rest) = latch f (latch f b first) rest := by
  simp [latch]

/-- The latched value is found by searching the history backwards. -/
theorem latch_eq_findSome (f : α → Option β) (b : β) (hist : List α) :
    latch f b hist = (hist.reverse.findSome? f).getD b := by
  induction hist using List.reverseRecOn with
  | nil => rfl
  | append_singleton hist a ih =>
      rw [latch_concat, ih, List.reverse_concat, List.findSome?_cons]
      cases f a <;> rfl

/-- Events that the decoder rejects leave the latch alone. -/
theorem latch_of_unrecognised (f : α → Option β) (b : β) (hist : List α)
    (h : ∀ a ∈ hist, f a = none) : latch f b hist = b := by
  induction hist using List.reverseRecOn with
  | nil => rfl
  | append_singleton hist a ih =>
      rw [latch_concat, h a (by simp)]
      exact ih fun x hx => h x (by simp [hx])

/-- A property of the start value and of every recognised value is a property
of the latched one. -/
theorem latch_induction (f : α → Option β) (P : β → Prop) {b : β} (hb : P b)
    (hf : ∀ a v, f a = some v → P v) (hist : List α) : P (latch f b hist) := by
  induction hist using List.reverseRecOn with
  | nil => exact hb
  | append_singleton hist a ih =>
      rw [latch_concat]
      cases ha : f a with
      | none => exact ih
      | some v => exact hf a v ha

/-- Two histories that the decoder cannot tell apart latch the same value. -/
theorem latch_map (f : γ → Option β) (g : α → γ) (b : β) (hist : List α) :
    latch f b (hist.map g) = latch (fun a => f (g a)) b hist := by
  simp [latch, List.foldl_map]

end RaipalSoem.Lib

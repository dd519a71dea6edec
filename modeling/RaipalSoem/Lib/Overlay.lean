import Mathlib.Data.List.Basic
import Mathlib.Data.List.Infix

/-!
# Filling a buffer from its start

A transfer that arrives in pieces copies each of them behind the ones before. At any
time the buffer holds what has arrived at its start and its old content behind. A copy
that does not stay inside the buffer has no result.
-/

namespace RaipalSoem.Lib

variable {α : Type*}

/-- The buffer `old` with the values `vs` over its start. -/
def overlay (old vs : List α) : List α := vs ++ old.drop vs.length

/-- Copy `vs` into the buffer from index `off` on. -/
def copyTo (buf : List α) (off : Nat) (vs : List α) : Option (List α) :=
  if off + vs.length ≤ buf.length then
    some (buf.take off ++ vs ++ buf.drop (off + vs.length))
  else none

@[simp] theorem overlay_nil (old : List α) : overlay old [] = old := rfl

theorem overlay_length {old vs : List α} (h : vs.length ≤ old.length) :
    (overlay old vs).length = old.length := by
  rw [overlay, List.length_append, List.length_drop]
  omega

/-- Values that fill the buffer leave nothing of its old content. -/
theorem overlay_of_length {old vs : List α} (h : vs.length = old.length) :
    overlay old vs = vs := by
  rw [overlay, h, List.drop_length, List.append_nil]

/-- The buffer is unchanged exactly when it already started with the values. -/
theorem overlay_eq_self_iff {old vs : List α} : overlay old vs = old ↔ vs <+: old := by
  constructor
  · intro h
    exact ⟨old.drop vs.length, h⟩
  · rintro ⟨rest, rfl⟩
    rw [overlay, List.drop_left]

/-- A copy behind what has arrived is what has arrived then. -/
theorem copyTo_overlay {old got vs buf : List α} (h : got.length ≤ old.length)
    (hcopy : copyTo (overlay old got) got.length vs = some buf) :
    (got ++ vs).length ≤ old.length ∧ buf = overlay old (got ++ vs) := by
  unfold copyTo at hcopy
  rw [overlay_length h] at hcopy
  split_ifs at hcopy with hfits
  have hlen : (got ++ vs).length ≤ old.length := by rwa [List.length_append]
  refine ⟨hlen, ?_⟩
  rw [← Option.some.inj hcopy, overlay, overlay, List.take_left, List.length_append,
    List.drop_append, List.drop_of_length_le (by omega), List.nil_append, List.drop_drop]
  congr 2
  omega

/-- What fits behind what has arrived can be copied. -/
theorem copyTo_overlay_of_le {old got vs : List α} (h : (got ++ vs).length ≤ old.length) :
    copyTo (overlay old got) got.length vs = some (overlay old (got ++ vs)) := by
  rw [List.length_append] at h
  have hsome : (copyTo (overlay old got) got.length vs).isSome = true := by
    rw [copyTo, overlay_length (by omega), if_pos h]
    rfl
  obtain ⟨buf, hbuf⟩ := Option.isSome_iff_exists.mp hsome
  rw [hbuf, (copyTo_overlay (by omega) hbuf).2]

end RaipalSoem.Lib

import Mathlib.Data.List.Forall2
import Mathlib.Tactic.Common

/-!
# Packing bit fields

Fields of given bit lengths are packed one after another. A field shorter than a
byte starts right at the cursor; a longer one starts at the next byte boundary
and occupies whole bytes. The cursor never moves back, so the fields of a layout
follow one another, and the layout ends where its last nonempty field does.
-/

namespace RaipalSoem.Lib

/-- The bit positions `start, …, stop - 1`. -/
@[ext] structure Field where
  start : Nat
  stop : Nat
  deriving DecidableEq, Repr

namespace Field

/-- The byte that holds the first bit of the field. -/
def firstByte (f : Field) : Nat := f.start / 8

/-- The first byte behind the field. -/
def endByte (f : Field) : Nat := (f.stop + 7) / 8

end Field

/-- The next byte boundary at or behind the bit cursor `c`. -/
def alignByte (c : Nat) : Nat := 8 * ((c + 7) / 8)

/-- The field of `bits` bits that is placed at the cursor `c`. -/
def place (c bits : Nat) : Field :=
  if bits < 8 then ⟨c, c + bits⟩ else ⟨alignByte c, alignByte c + 8 * ((bits + 7) / 8)⟩

/-- The fields of the given lengths, from the cursor `c` on. -/
def fields : Nat → List Nat → List Field
  | _, [] => []
  | c, bits :: rest => place c bits :: fields (place c bits).stop rest

/-- The cursor behind the fields of the given lengths. -/
def packedEnd (c : Nat) (lens : List Nat) : Nat :=
  lens.foldl (fun c bits => (place c bits).stop) c

@[simp] theorem packedEnd_cons (c bits : Nat) (rest : List Nat) :
    packedEnd c (bits :: rest) = packedEnd (place c bits).stop rest := rfl

@[simp] theorem fields_length (c : Nat) (lens : List Nat) :
    (fields c lens).length = lens.length := by
  induction lens generalizing c with
  | nil => rfl
  | cons bits rest ih => simp [fields, ih]

theorem le_alignByte (c : Nat) : c ≤ alignByte c := by
  unfold alignByte
  omega

theorem place_bounds (c bits : Nat) :
    c ≤ (place c bits).start ∧ (place c bits).start + bits ≤ (place c bits).stop := by
  have := le_alignByte c
  unfold place
  split_ifs <;> constructor <;> dsimp only <;> omega

theorem place_zero (c : Nat) : place c 0 = ⟨c, c⟩ := rfl

/-- A field that occupies whole bytes starts and ends at byte boundaries. -/
theorem place_aligned (c : Nat) {bits : Nat} (h : 8 ≤ bits) :
    (place c bits).start = 8 * (place c bits).firstByte ∧
      (place c bits).stop = 8 * (place c bits).endByte ∧
      (place c bits).endByte = (place c bits).firstByte + (bits + 7) / 8 := by
  simp only [place, if_neg (show ¬ bits < 8 by omega), Field.firstByte, Field.endByte, alignByte]
  omega

theorem le_packedEnd (c : Nat) (lens : List Nat) : c ≤ packedEnd c lens := by
  induction lens generalizing c with
  | nil => exact Nat.le_refl c
  | cons bits rest ih =>
      obtain ⟨h₁, h₂⟩ := place_bounds c bits
      have := ih (place c bits).stop
      rw [packedEnd_cons]
      omega

/-- Every field lies between the cursors at the two ends of the layout. -/
theorem fields_bounds {c : Nat} {lens : List Nat} {f : Field} (h : f ∈ fields c lens) :
    c ≤ f.start ∧ f.start ≤ f.stop ∧ f.stop ≤ packedEnd c lens := by
  induction lens generalizing c with
  | nil => simp [fields] at h
  | cons bits rest ih =>
      obtain ⟨h₁, h₂⟩ := place_bounds c bits
      rw [packedEnd_cons]
      rcases List.mem_cons.mp h with rfl | h
      · exact ⟨h₁, by omega, le_packedEnd _ rest⟩
      · obtain ⟨h₃, h₄⟩ := ih h
        exact ⟨by omega, h₄⟩

/-- A later field starts behind an earlier one. -/
theorem fields_pairwise (c : Nat) (lens : List Nat) :
    (fields c lens).Pairwise fun f g => f.stop ≤ g.start := by
  induction lens generalizing c with
  | nil => exact List.Pairwise.nil
  | cons bits rest ih =>
      refine List.Pairwise.cons (fun g hg => ?_) (ih (place c bits).stop)
      exact (fields_bounds hg).1

/-- A layout ends at its last nonempty field, or where it started. -/
theorem packedEnd_le {c bound : Nat} {lens : List Nat} (hc : c ≤ bound)
    (h : ∀ f ∈ fields c lens, f.start < f.stop → f.stop ≤ bound) :
    packedEnd c lens ≤ bound := by
  induction lens generalizing c with
  | nil => exact hc
  | cons bits rest ih =>
      obtain ⟨h₁, h₂⟩ := place_bounds c bits
      apply ih
      · by_cases hbits : bits = 0
        · subst hbits
          exact hc
        · exact h _ (by simp [fields]) (by omega)
      · exact fun f hf => h f (by simp [fields, hf])

end RaipalSoem.Lib

import RaipalSoem.Lib.Memory
import Mathlib.Data.List.Nodup
import Mathlib.Data.List.Pairwise
import Mathlib.Logic.Pairwise

/-!
# Records in a memory

A format gives every field of a record an offset and a width. If the ranges of
the fields are disjoint, then the fields can be stored in any order: each one
holds its own values afterwards, and nothing else has changed.
-/

namespace RaipalSoem.Lib

variable {ι V : Type*}

/-- A record format: where each field starts, and how many cells it takes. -/
structure Format (ι : Type*) where
  offset : ι → Nat
  width : ι → Nat
  width_pos : ∀ f, 0 < width f

namespace Format

/-- The addresses of a field in a record that starts at `b`. -/
def range (F : Format ι) (b : Nat) (f : ι) : Set Nat := span (b + F.offset f) (F.width f)

/-- The fields have disjoint ranges, all of them in the first `len` cells of the record. -/
structure Fits (F : Format ι) (len : Nat) : Prop where
  inside : ∀ f, F.offset f + F.width f ≤ len
  disjoint : Pairwise fun f g => Disjoint (F.range 0 f) (F.range 0 g)

/-- A record at `b` in which every field has the given values. -/
def Holds (F : Format ι) (b : Nat) (vals : ι → List V) (m : Memory V) : Prop :=
  ∀ f, m.read (b + F.offset f) (F.width f) = vals f

/-- Store the fields one after the other. -/
def store (F : Format ι) (order : List ι) (b : Nat) (vals : ι → List V) (m : Memory V) :
    Memory V :=
  order.foldl (fun m f => m.write (b + F.offset f) (vals f)) m

variable {F : Format ι} {len : Nat}

/-- The fields of a record stay inside it. -/
theorem Fits.range_subset (h : F.Fits len) (b : Nat) (f : ι) : F.range b f ⊆ span b len := by
  rintro a ⟨h₁, h₂⟩
  have := h.inside f
  exact mem_span.mpr ⟨by omega, by omega⟩

/-- It is enough to compare the fields in one order. -/
theorem Fits.of_pairwise {order : List ι} (hall : ∀ f, f ∈ order)
    (hapart : order.Pairwise fun f g => Apart (F.offset f) (F.width f) (F.offset g) (F.width g))
    (hinside : ∀ f, F.offset f + F.width f ≤ len) : F.Fits len where
  inside := hinside
  disjoint := by
    intro f g hfg
    have hsymm : Std.Symm fun f g =>
        Apart (F.offset f) (F.width f) (F.offset g) (F.width g) := ⟨fun _ _ => Apart.symm⟩
    have hfields := hapart.forall (hall f) (hall g) hfg
    unfold range
    rw [disjoint_span_iff (F.width_pos f) (F.width_pos g), Nat.zero_add, Nat.zero_add]
    exact hfields

theorem Fits.apart (h : F.Fits len) (b : Nat) {f g : ι} (hfg : f ≠ g) :
    Apart (b + F.offset f) (F.width f) (b + F.offset g) (F.width g) := by
  have hdisjoint : Disjoint (F.range 0 f) (F.range 0 g) := h.disjoint hfg
  unfold range at hdisjoint
  rw [disjoint_span_iff (F.width_pos f) (F.width_pos g)] at hdisjoint
  rcases hdisjoint with hapart | hapart
  · exact Or.inl (by omega)
  · exact Or.inr (by omega)

/-- A record holds what is stored in it, in whatever order. -/
theorem Fits.holds_store (h : F.Fits len) {order : List ι} (hnodup : order.Nodup)
    (hall : ∀ f, f ∈ order) {vals : ι → List V} (hvals : ∀ f, (vals f).length = F.width f)
    (b : Nat) (m : Memory V) : F.Holds b vals (F.store order b vals m) := by
  intro f
  have hapart : order.Pairwise fun f g =>
      Apart (b + F.offset f) (vals f).length (b + F.offset g) (vals g).length := by
    apply hnodup.pairwise_of_forall_ne
    intro f _ g _ hfg
    rw [hvals f, hvals g]
    exact h.apart b hfg
  rw [← hvals f]
  exact Memory.read_foldl_write (fun f => b + F.offset f) vals order hapart m (hall f)

/-- Storing a record changes nothing outside the ranges of its fields. -/
theorem store_of_not_mem (order : List ι) {vals : ι → List V}
    (hvals : ∀ f, (vals f).length = F.width f) (b : Nat) (m : Memory V) {a : Nat}
    (ha : ∀ f, a ∉ F.range b f) : F.store order b vals m a = m a := by
  apply Memory.foldl_write_of_not_mem
  intro f _
  rw [hvals f]
  exact ha f

end Format

end RaipalSoem.Lib

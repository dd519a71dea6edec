import RaipalSoem.ConfigMap
import RaipalSoem.Lib.BitLayout
import RaipalSoem.Lib.Tiling

/-!
# What mapping one slave does

The create-mappings loop, with its sync-manager search and its several FMMUs,
places one field at the bit cursor: its FMMUs tile the bytes of the field, its
base pointer is the first of these bytes, and the cursor moves to the end of the
field. The sync managers decide only how many FMMUs share the range.
-/

namespace RaipalSoem

open Lib

/-- The logical addresses that an FMMU translates. -/
def Fmmu.block (f : Fmmu) : Block := ⟨f.logStart, f.logLength⟩

/-- The bit cursor. -/
def bitCursor (logAddr bitPos : Nat) : Nat := 8 * logAddr + bitPos

/-- The byte count that goes with a bit length. -/
def byteLength (bits : Nat) : Nat := if 7 < bits then (bits + 7) / 8 else 0

section Search

variable (sm : Nat → SyncManager) (want : UInt8)

theorem findSm_lt (smc : Nat) : findSm sm want smc < ecMaxSm := by
  unfold findSm
  cases h : (List.range' smc (ecMaxSm - 1 - smc)).find? fun i => (sm i).smType = want with
  | none => simp [ecMaxSm]
  | some i =>
      have hmem := List.mem_of_find?_eq_some h
      simp only [List.mem_range'_1, ecMaxSm] at hmem
      simp only [Option.getD_some, ecMaxSm]
      omega

theorem mergeSm_smc_lt (bits rounds : Nat) {scan : SmScan} (h : scan.smc < ecMaxSm) :
    (mergeSm sm want bits rounds scan).smc < ecMaxSm := by
  induction rounds generalizing scan with
  | zero => exact h
  | succ rounds ih =>
      unfold mergeSm
      dsimp only
      split_ifs
      · exact findSm_lt sm want (scan.smc + 1)
      · exact ih (findSm_lt sm want (scan.smc + 1))
      · exact h

theorem mapFmmu_smc_lt (dir : Direction) (bits bytes : Nat) (st : MapState) :
    (mapFmmu dir bits bytes sm st).smc < ecMaxSm := by
  unfold mapFmmu
  split_ifs <;> exact mergeSm_smc_lt sm dir.smType bits _ (findSm_lt sm dir.smType st.smc)

end Search

/-- A finished create-mappings call has placed the field `f`. -/
structure Placed (dir : Direction) (f : Field) (st : MapState) : Prop where
  bitPos_lt : st.bitPos < 8
  cursor : bitCursor st.logAddr st.bitPos = f.stop
  tiles : Tiles f.firstByte (st.fmmus.map Fmmu.block) f.endByte
  fmmuType : ∀ x ∈ st.fmmus, x.fmmuType = dir.fmmuType

section Loop

variable (dir : Direction) (bits bytes : Nat) (sm : Nat → SyncManager)

theorem mapLoop_done {st : MapState} (free : Nat)
    (h : ¬(st.smc < ecMaxSm ∧ st.fmmuDone < (bits + 7) / 8)) :
    mapLoop dir bits bytes sm free st = some st := by
  unfold mapLoop
  rw [if_neg h]

theorem mapLoop_next {st : MapState} (free : Nat)
    (h : st.smc < ecMaxSm ∧ st.fmmuDone < (bits + 7) / 8) :
    mapLoop dir bits bytes sm (free + 1) st =
      mapLoop dir bits bytes sm free (mapFmmu dir bits bytes sm st) := by
  rw [mapLoop, if_pos h]

theorem mapLoop_overrun {st : MapState}
    (h : st.smc < ecMaxSm ∧ st.fmmuDone < (bits + 7) / 8) :
    mapLoop dir bits bytes sm 0 st = none := by
  rw [mapLoop, if_pos h]

end Loop

section BitOriented

variable (dir : Direction) (sm : Nat → SyncManager)

/-- A bit-oriented slave needs one FMMU, whose range covers one byte or two. -/
theorem mapFmmu_bits {bits bitPos : Nat} (logAddr : Nat) (hbits : 0 < bits) (hlt : bits < 8)
    (hpos : bitPos < 8) :
    Placed dir (place (bitCursor logAddr bitPos) bits)
        (mapFmmu dir bits 0 sm { logAddr := logAddr, bitPos := bitPos }) ∧
      1 ≤ (mapFmmu dir bits 0 sm { logAddr := logAddr, bitPos := bitPos }).fmmuDone := by
  have hplace : place (bitCursor logAddr bitPos) bits =
      ⟨bitCursor logAddr bitPos, bitCursor logAddr bitPos + bits⟩ := if_pos hlt
  rw [hplace]
  by_cases hcarry : 7 < bitPos + (bits - 1)
  · refine ⟨⟨?_, ?_, ?_, ?_⟩, ?_⟩
    all_goals
      simp only [mapFmmu, if_true, carryBit, if_pos hcarry, bitCursor, Field.firstByte,
        Field.endByte, Fmmu.block, List.nil_append, List.map_cons, List.map_nil, Tiles,
        List.mem_singleton, forall_eq]
    · split_ifs <;> omega
    · split_ifs <;> dsimp only <;> omega
    · constructor <;> omega
    · omega
  · refine ⟨⟨?_, ?_, ?_, ?_⟩, ?_⟩
    all_goals
      simp only [mapFmmu, if_true, carryBit, if_neg hcarry, bitCursor, Field.firstByte,
        Field.endByte, Fmmu.block, List.nil_append, List.map_cons, List.map_nil, Tiles,
        List.mem_singleton, forall_eq]
    · split_ifs <;> omega
    · split_ifs <;> dsimp only <;> omega
    · constructor <;> omega
    · omega

end BitOriented

section ByteOriented

variable (dir : Direction) (bits : Nat) (sm : Nat → SyncManager)

/-- Between two rounds for a byte-oriented slave: the FMMUs so far tile the first
`fmmuDone` bytes from `start` on. -/
structure Filling (bytes start : Nat) (st : MapState) : Prop where
  smc_lt : st.smc < ecMaxSm
  bitPos_eq : st.bitPos = 0
  done_le : st.fmmuDone ≤ bytes
  logAddr_eq : st.logAddr = start + st.fmmuDone
  tiles : Tiles start (st.fmmus.map Fmmu.block) st.logAddr
  fmmuType : ∀ x ∈ st.fmmus, x.fmmuType = dir.fmmuType

theorem mapFmmu_filling {bytes start : Nat} (hbytes : bytes ≠ 0) {st : MapState}
    (h : Filling dir bytes start st) :
    Filling dir bytes start (mapFmmu dir bits bytes sm st) := by
  have hdone := h.done_le
  have hlog := h.logAddr_eq
  have hsmc := mapFmmu_smc_lt sm dir bits bytes st
  unfold mapFmmu at hsmc ⊢
  simp only [if_neg hbytes, h.bitPos_eq, ne_eq, not_true_eq_false, if_false] at hsmc ⊢
  refine ⟨hsmc, rfl, ?_, ?_, ?_, ?_⟩
  · dsimp only
    split_ifs <;> omega
  · dsimp only
    omega
  · rw [List.map_append]
    exact h.tiles.append ⟨rfl, rfl⟩
  · intro x hx
    rcases List.mem_append.mp hx with hx | hx
    · exact h.fmmuType x hx
    · rw [List.mem_singleton.mp hx]

/-- The loop for a byte-oriented slave ends when all its bytes are mapped. -/
theorem mapLoop_filling {bytes start : Nat} (hbytes : bytes ≠ 0) (hneed : (bits + 7) / 8 = bytes)
    {free : Nat} {st st' : MapState} (h : Filling dir bytes start st)
    (hloop : mapLoop dir bits bytes sm free st = some st') :
    Filling dir bytes start st' ∧ st'.fmmuDone = bytes := by
  induction free generalizing st with
  | zero =>
      by_cases hcond : st.smc < ecMaxSm ∧ st.fmmuDone < (bits + 7) / 8
      · rw [mapLoop_overrun dir bits bytes sm hcond] at hloop
        cases hloop
      · rw [mapLoop_done dir bits bytes sm 0 hcond] at hloop
        cases hloop
        exact ⟨h, by have := h.done_le; have := h.smc_lt; omega⟩
  | succ free ih =>
      by_cases hcond : st.smc < ecMaxSm ∧ st.fmmuDone < (bits + 7) / 8
      · rw [mapLoop_next dir bits bytes sm free hcond] at hloop
        exact ih (mapFmmu_filling dir bits sm hbytes h) hloop
      · rw [mapLoop_done dir bits bytes sm (free + 1) hcond] at hloop
        cases hloop
        exact ⟨h, by have := h.done_le; have := h.smc_lt; omega⟩

/-- The first round skips the rest of a byte that is partly used. -/
theorem mapFmmu_align {bytes : Nat} (hbytes : bytes ≠ 0) (logAddr bitPos : Nat)
    (hpos : bitPos < 8) :
    mapFmmu dir bits bytes sm { logAddr := logAddr, bitPos := bitPos } =
      mapFmmu dir bits bytes sm
        { logAddr := (bitCursor logAddr bitPos + 7) / 8, bitPos := 0 } := by
  have halign : (if bitPos ≠ 0 then logAddr + 1 else logAddr) =
      (bitCursor logAddr bitPos + 7) / 8 := by
    unfold bitCursor
    split_ifs <;> omega
  simp only [mapFmmu, if_neg hbytes, halign, ne_eq, not_true_eq_false, if_false]

end ByteOriented

/-- A create-mappings call that has FMMUs enough places one field at the cursor. -/
theorem mapLoop_placed (dir : Direction) (sm : Nat → SyncManager) {bits logAddr bitPos : Nat}
    (hbits : 0 < bits) (hpos : bitPos < 8) {free : Nat} {st : MapState}
    (h : mapLoop dir bits (byteLength bits) sm free { logAddr := logAddr, bitPos := bitPos } =
      some st) :
    Placed dir (place (bitCursor logAddr bitPos) bits) st := by
  have hcond : (0 : Nat) < ecMaxSm ∧ 0 < (bits + 7) / 8 := ⟨by decide, by omega⟩
  cases free with
  | zero =>
      rw [mapLoop_overrun dir bits _ sm hcond] at h
      cases h
  | succ free =>
      rw [mapLoop_next dir bits _ sm free hcond] at h
      by_cases hlt : bits < 8
      · have hbytes : byteLength bits = 0 := if_neg (by omega)
        rw [hbytes] at h
        obtain ⟨hplaced, hdone⟩ := mapFmmu_bits dir sm logAddr hbits hlt hpos
        rw [mapLoop_done dir bits 0 sm free (by omega)] at h
        cases h
        exact hplaced
      · have hbytes : byteLength bits = (bits + 7) / 8 := if_pos (by omega)
        have hne : byteLength bits ≠ 0 := by omega
        rw [mapFmmu_align dir bits sm hne logAddr bitPos hpos] at h
        have hinit : Filling dir (byteLength bits) ((bitCursor logAddr bitPos + 7) / 8)
            { logAddr := (bitCursor logAddr bitPos + 7) / 8, bitPos := 0 } :=
          ⟨Nat.succ_pos 7, rfl, Nat.zero_le _, rfl, rfl, by simp⟩
        obtain ⟨hfill, hdone⟩ := mapLoop_filling dir bits sm hne hbytes.symm
          (mapFmmu_filling dir bits sm hne hinit) h
        obtain ⟨hstart, hstop, hlen⟩ :=
          place_aligned (bitCursor logAddr bitPos) (show 8 ≤ bits by omega)
        have hfirst : (place (bitCursor logAddr bitPos) bits).firstByte =
            (bitCursor logAddr bitPos + 7) / 8 := by
          simp only [place, if_neg hlt, Field.firstByte, alignByte]
          omega
        have hend : st.logAddr = (place (bitCursor logAddr bitPos) bits).endByte := by
          rw [hlen, hfirst, hfill.logAddr_eq, hdone, hbytes]
        refine ⟨by rw [hfill.bitPos_eq]; omega, ?_, ?_, hfill.fmmuType⟩
        · rw [hfill.bitPos_eq, hstop, hend]
          rfl
        · rw [hfirst, ← hend]
          exact hfill.tiles

end RaipalSoem

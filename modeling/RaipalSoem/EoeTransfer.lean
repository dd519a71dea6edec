import RaipalSoem.Eoe
import RaipalSoem.Lib.Reassembly

/-!
# The transfer of an Ethernet frame

What `ecx_EOEsend` cuts, `ecx_EOEreadfragment` and `ecx_EOErecv` put together again. The frame
number has four bits, so frames that are sent one after another share it; whatever fragments get
lost, the receiver still completes only frames that have been sent, each at most once and in
order, unless nothing at all arrives of fifteen frames in a row.
-/

namespace RaipalSoem

open Lib

section Cut

variable (maxdata : Nat) (buf : List UInt8)

/-- The size of every fragment but the last one. -/
def eoeBlock : Nat := maxdata / 32 * 32

/-- The number of fragments. -/
def eoeCount : Nat := (buf.length - maxdata + (eoeBlock maxdata - 1)) / eoeBlock maxdata + 1

/-- The bytes before the fragment number `k`. -/
def eoeCut (k : Nat) : Nat := if k < eoeCount maxdata buf then k * eoeBlock maxdata else buf.length

/-- The frame fits one fragment, or a fragment takes at least one block of 32 bytes; and its
size in blocks fits the six bits for it. -/
structure EoeSendable : Prop where
  blocks : buf.length ≤ maxdata ∨ 32 ≤ maxdata
  size : buf.length ≤ 2016

variable {maxdata buf}

theorem eoeBlock_le (maxdata : Nat) : eoeBlock maxdata ≤ maxdata :=
  Nat.div_mul_le_self maxdata 32

/-- A fragment is followed by another one as long as more is left than fits a mailbox. -/
theorem lt_eoeCount_iff (h : EoeSendable maxdata buf) {k : Nat} :
    k + 1 < eoeCount maxdata buf ↔ k * eoeBlock maxdata + maxdata < buf.length := by
  obtain hblock | hblock := Nat.eq_zero_or_pos (eoeBlock maxdata)
  · have hsmall : buf.length ≤ maxdata := by
      apply h.blocks.resolve_right
      intro hlarge
      unfold eoeBlock at hblock
      omega
    simp only [eoeCount, hblock, Nat.div_zero, Nat.mul_zero]
    omega
  · rw [eoeCount, Nat.add_lt_add_iff_right, ← Nat.succ_le_iff, Nat.le_div_iff_mul_le hblock,
      Nat.succ_mul]
    omega

theorem eoeCut_le (h : EoeSendable maxdata buf) (k : Nat) : eoeCut maxdata buf k ≤ buf.length := by
  unfold eoeCut
  split_ifs with hk
  · cases k with
    | zero => simp
    | succ k =>
        have hmore := (lt_eoeCount_iff h).mp hk
        have hblock := eoeBlock_le maxdata
        rw [Nat.succ_mul]
        omega
  · exact le_refl _

theorem eoeCut_zero : eoeCut maxdata buf 0 = 0 := by
  simp [eoeCut, eoeCount]

theorem eoeCut_count : eoeCut maxdata buf (eoeCount maxdata buf) = buf.length := by
  simp [eoeCut]

theorem eoeCut_mono (h : EoeSendable maxdata buf) {k : Nat} (hk : k < eoeCount maxdata buf) :
    eoeCut maxdata buf k ≤ eoeCut maxdata buf (k + 1) := by
  by_cases hnext : k + 1 < eoeCount maxdata buf
  · simp only [eoeCut, hk, hnext, if_true, Nat.succ_mul, Nat.le_add_right]
  · have hlast : eoeCut maxdata buf (k + 1) = buf.length := if_neg hnext
    rw [hlast]
    exact eoeCut_le h k

theorem eoeRoom_fits : buf.length ≤ (buf.length + 31) / 32 * 32 := by omega

/-- The fragments of a frame with the given number. -/
def eoeCutting (h : EoeSendable maxdata buf) (frame : UInt16) : Cutting UInt16 UInt8 where
  frame := frame
  room := (buf.length + 31) / 32 * 32
  values := buf
  count := eoeCount maxdata buf
  cut := eoeCut maxdata buf
  start := eoeCut_zero
  finish := eoeCut_count
  mono _ hk := eoeCut_mono h hk
  inside k _ := eoeCut_le h k
  fits := eoeRoom_fits

/-- The fragment number has six bits. -/
theorem eoeCount_le (h : EoeSendable maxdata buf) : eoeCount maxdata buf ≤ 64 := by
  by_contra hlarge
  have hmore := (lt_eoeCount_iff h (k := 63)).mp (by omega)
  have hblock : eoeBlock maxdata = maxdata / 32 * 32 := rfl
  have hsize := h.size
  have hblocks := h.blocks
  omega

end Cut

section Header

variable (a b c : UInt16)

theorem fragNoGet_or :
    eoeHdrFragNoGet (eoeHdrFragNoSet a ||| eoeHdrFrameOffsetSet b ||| eoeHdrFrameNoSet c) =
      a &&& 0x3f := by
  apply UInt16.toBitVec_inj.mp
  ext i hi
  simp only [eoeHdrFragNoGet, eoeHdrFragNoSet, eoeHdrFrameOffsetSet, eoeHdrFrameNoSet]
  interval_cases i <;> simp

theorem frameOffsetGet_or :
    eoeHdrFrameOffsetGet (eoeHdrFragNoSet a ||| eoeHdrFrameOffsetSet b ||| eoeHdrFrameNoSet c) =
      b &&& 0x3f := by
  apply UInt16.toBitVec_inj.mp
  ext i hi
  simp only [eoeHdrFrameOffsetGet, eoeHdrFragNoSet, eoeHdrFrameOffsetSet, eoeHdrFrameNoSet]
  interval_cases i <;> simp

theorem frameNoGet_or :
    eoeHdrFrameNoGet (eoeHdrFragNoSet a ||| eoeHdrFrameOffsetSet b ||| eoeHdrFrameNoSet c) =
      c &&& 0xf := by
  apply UInt16.toBitVec_inj.mp
  ext i hi
  simp only [eoeHdrFrameNoGet, eoeHdrFragNoSet, eoeHdrFrameOffsetSet, eoeHdrFrameNoSet]
  interval_cases i <;> simp

theorem lastFragmentGet_frameinfo1 (port : UInt8) (last : Bool) :
    eoeHdrLastFragmentGet (eoeFrameinfo1 port last) = if last then 1 else 0 := by
  apply UInt16.toBitVec_inj.mp
  ext i hi
  cases last <;>
    simp only [eoeFrameinfo1, eoeHdrLastFragmentGet, eoeHdrLastFragmentSet, eoeHdrFramePortSet] <;>
    interval_cases i <;> simp

theorem timeAppendGet_frameinfo1 (port : UInt8) (last : Bool) :
    eoeHdrTimeAppendGet (eoeFrameinfo1 port last) = 0 := by
  apply UInt16.toBitVec_inj.mp
  ext i hi
  cases last <;>
    simp only [eoeFrameinfo1, eoeHdrTimeAppendGet, eoeHdrLastFragmentSet, eoeHdrFramePortSet] <;>
    interval_cases i <;> simp

theorem framePortGet_frameinfo1 (port : UInt8) (last : Bool) :
    eoeHdrFramePortGet (eoeFrameinfo1 port last) = port.toUInt16 &&& 0xf := by
  apply UInt16.toBitVec_inj.mp
  ext i hi
  cases last <;>
    simp only [eoeFrameinfo1, eoeHdrFramePortGet, eoeHdrLastFragmentSet, eoeHdrFramePortSet] <;>
    interval_cases i <;> simp

/-- Six bits hold a number below 64. -/
theorem and_six {n : Nat} (h : n < 64) : UInt16.ofNat n &&& 0x3f = UInt16.ofNat n := by
  have hcases : ∀ n : Fin 64, UInt16.ofNat n &&& 0x3f = UInt16.ofNat n := by decide
  exact hcases ⟨n, h⟩

theorem blocks_toNat {n : Nat} (h : n < 64) : (UInt16.ofNat n <<< 5).toNat = n * 32 := by
  have hcases : ∀ n : Fin 64, (UInt16.ofNat n <<< 5).toNat = n * 32 := by decide
  exact hcases ⟨n, h⟩

end Header

/-- The number of a frame in four bits. -/
def frameNumber (txframeno : UInt8) : UInt16 := txframeno.toUInt16 &&& 0xf

/-- A mailbox holds a fragment. -/
structure CarriesFragment (e : Endian) (m : Mailbox) (f : Fragment UInt16 UInt8) : Prop where
  mbxType : mbxType m &&& 0x0f = ectMbxtEoe
  length : (getWord e m 0).toNat = 4 + f.data.length
  inside : 10 + f.data.length ≤ ecMaxMbx + 1
  place : eoeHdrFragNoGet (frameinfo2 e m) = .ofNat f.place
  places : f.place < 64
  frame : eoeHdrFrameNoGet (frameinfo2 e m) = f.frame
  room : f.place = 0 → (eoeHdrFrameOffsetGet (frameinfo2 e m) <<< 5).toNat = f.room
  offset : f.place ≠ 0 → (eoeHdrFrameOffsetGet (frameinfo2 e m) <<< 5).toNat = f.offset
  last : eoeHdrLastFragmentGet (frameinfo1 e m) = if f.last then 1 else 0
  time : eoeHdrTimeAppendGet (frameinfo1 e m) = 0
  data : m.read 10 f.data.length = f.data

section Mailbox

variable (e : Endian) (m : Mailbox) (cnt : UInt8) (info1 info2 : UInt16) {hp : List UInt8}

theorem eoeMailbox_type :
    mbxType (eoeMailbox e m (ecNextMbxCnt cnt) info1 info2 hp) &&& 0x0f = ectMbxtEoe := by
  simp only [mbxType, eoeMailbox]
  rw [Memory.write_apart _ (Or.inl (by decide)), putWord_apart e _ (Or.inl (by decide)),
    putWord_apart e _ (Or.inl (by decide))]
  rw [show (5 : Nat) = 5 + 0 from rfl,
    Memory.write_of_mem _ 5 0 ([ectMbxtEoe + (ecNextMbxCnt cnt <<< 4)] : List UInt8) (by simp)]
  exact mbxType_count cnt (by decide)

theorem eoeMailbox_length (hfits : 10 + hp.length ≤ ecMaxMbx + 1) :
    (getWord e (eoeMailbox e m cnt info1 info2 hp) 0).toNat = 4 + hp.length := by
  rw [getWord_eq, eoeMailbox, wordAt_write _ (Or.inl (by decide)),
    wordAt_putWord_apart e _ (Or.inl (by decide)), wordAt_putWord_apart e _ (Or.inl (by decide)),
    wordAt_write _ (Or.inl (by decide)), wordAt_putWord]
  unfold ecMaxMbx at hfits
  exact Nat.mod_eq_of_lt (by omega)

theorem eoeMailbox_frameinfo1 : frameinfo1 e (eoeMailbox e m cnt info1 info2 hp) = info1 := by
  rw [frameinfo1, getWord_eq, eoeMailbox, wordAt_write _ (Or.inl (by decide)),
    wordAt_putWord_apart e _ (Or.inl (by decide)), wordAt_putWord]

theorem eoeMailbox_frameinfo2 : frameinfo2 e (eoeMailbox e m cnt info1 info2 hp) = info2 := by
  rw [frameinfo2, getWord_eq, eoeMailbox, wordAt_write _ (Or.inl (by decide)), wordAt_putWord]

theorem eoeMailbox_data : (eoeMailbox e m cnt info1 info2 hp).read 10 hp.length = hp :=
  Memory.read_write _ 10 hp

end Mailbox

section Fragments

variable {σ : Type*} (e : Endian) {send : σ → Mailbox → σ × Int} (port : UInt8) {maxdata : Nat}
  {buf : List UInt8} (h : EoeSendable maxdata buf) {k : Nat} {n : UInt8}

theorem eoeFragment_length (hk : k < eoeCount maxdata buf) :
    ((eoeCutting h (frameNumber n)).fragment k).data.length ≤ maxdata := by
  have hcut : (eoeCutting h (frameNumber n)).cut = eoeCut maxdata buf := rfl
  have hcount : (eoeCutting h (frameNumber n)).count = eoeCount maxdata buf := rfl
  have hvalues : (eoeCutting h (frameNumber n)).values = buf := rfl
  have hlt := lt_eoeCount_iff h (k := k)
  have hblock := eoeBlock_le maxdata
  simp only [Cutting.fragment, hcut, hvalues, List.length_drop, List.length_take]
  by_cases hnext : k + 1 < eoeCount maxdata buf
  · simp only [eoeCut, hk, hnext, if_true, Nat.succ_mul]
    omega
  · have hlast := mt hlt.mpr hnext
    simp only [eoeCut, hk, hnext, if_true, if_false]
    omega

include h in
/-- A fragment starts at a multiple of 32 bytes. -/
theorem eoeCut_blocks (hk : k < eoeCount maxdata buf) :
    eoeCut maxdata buf k >>> 5 * 32 = eoeCut maxdata buf k ∧ eoeCut maxdata buf k >>> 5 < 64 := by
  have hle := eoeCut_le h k
  have hsize := h.size
  simp only [eoeCut, hk, if_true, eoeBlock, Nat.shiftRight_eq_div_pow] at hle ⊢
  have hmul : k * (maxdata / 32 * 32) = k * (maxdata / 32) * 32 := by ring
  omega

/-- The mailbox with a fragment of the frame. -/
theorem eoeMailbox_carries (hmax : maxdata + 10 ≤ ecMaxMbx) (hk : k < eoeCount maxdata buf)
    (m : Mailbox) (cnt : UInt8) (n : UInt8) :
    CarriesFragment e
      (eoeMailbox e m (ecNextMbxCnt cnt) (eoeFrameinfo1 port (k + 1 = eoeCount maxdata buf))
        (eoeFrameinfo2 (.ofNat k) n (eoeCut maxdata buf k) buf.length)
        ((eoeCutting h (frameNumber n)).fragment k).data)
      ((eoeCutting h (frameNumber n)).fragment k) := by
  have hplaces : k < 64 := hk.trans_le (eoeCount_le h)
  have hfits : 10 + ((eoeCutting h (frameNumber n)).fragment k).data.length ≤ ecMaxMbx + 1 := by
    have := eoeFragment_length h hk (n := n)
    omega
  have hpositive : (0 < UInt8.ofNat k) ↔ k ≠ 0 := by
    have hcases : ∀ k : Fin 64, 0 < UInt8.ofNat k ↔ (k : Nat) ≠ 0 := by decide
    exact hcases ⟨k, hplaces⟩
  have hnumber : (UInt8.ofNat k).toUInt16 = UInt16.ofNat k := by
    have hcases : ∀ k : Fin 64, (UInt8.ofNat k).toUInt16 = UInt16.ofNat k := by decide
    exact hcases ⟨k, hplaces⟩
  have hsize : (buf.length + 31) >>> 5 < 64 := by
    have := h.size
    rw [Nat.shiftRight_eq_div_pow]
    omega
  obtain ⟨hblocks, hoffset⟩ := eoeCut_blocks h hk
  refine ⟨eoeMailbox_type e m cnt _ _, eoeMailbox_length e m _ _ _ hfits, hfits, ?_, hplaces, ?_,
    ?_, ?_, ?_, ?_, eoeMailbox_data e m _ _ _⟩
  · rw [eoeMailbox_frameinfo2, eoeFrameinfo2, ← apply_ite, fragNoGet_or, hnumber]
    exact and_six hplaces
  · rw [eoeMailbox_frameinfo2, eoeFrameinfo2, ← apply_ite, frameNoGet_or]
    rfl
  · intro hfirst
    change k = 0 at hfirst
    rw [eoeMailbox_frameinfo2, eoeFrameinfo2, ← apply_ite, frameOffsetGet_or,
      if_neg (fun hpos => hpositive.mp hpos hfirst), and_six hsize, blocks_toNat hsize,
      Nat.shiftRight_eq_div_pow]
    rfl
  · intro hlater
    change k ≠ 0 at hlater
    rw [eoeMailbox_frameinfo2, eoeFrameinfo2, ← apply_ite, frameOffsetGet_or,
      if_pos (hpositive.mpr hlater), and_six hoffset, blocks_toNat hoffset]
    exact hblocks
  · rw [eoeMailbox_frameinfo1, lastFragmentGet_frameinfo1]
    rfl
  · rw [eoeMailbox_frameinfo1, timeAppendGet_frameinfo1]

end Fragments

/-- The working variables and the buffer hold part of a frame. -/
def Holds (rx : EoeRx) (buf : Memory UInt8) : Option (Assembly UInt16 UInt8) → Prop
  | none => rx.rxfragmentno = 0
  | some a => rx.rxfragmentno ≠ 0 ∧ rx.rxfragmentno.toNat = a.place ∧ rx.rxframeno = a.frame ∧
      rx.rxframesize.toNat = a.room ∧ rx.rxframeoffset.toNat = a.got.length ∧
      buf.read 0 a.got.length = a.got

/-- Whatever the working variables are, they hold part of some frame or nothing. -/
theorem exists_holds (rx : EoeRx) (buf : Memory UInt8) : ∃ st, Holds rx buf st := by
  by_cases h : rx.rxfragmentno = 0
  · exact ⟨none, h⟩
  · refine ⟨some ⟨rx.rxframeno, rx.rxfragmentno.toNat, rx.rxframesize.toNat,
      buf.read 0 rx.rxframeoffset.toNat⟩, h, rfl, rfl, rfl, ?_, ?_⟩
    · exact (buf.read_length _ _).symm
    · rw [Memory.read_length]

section Read

variable {e : Endian} {m : Mailbox} {f : Fragment UInt16 UInt8} {rx : EoeRx} {buf : Memory UInt8}
  {st : Option (Assembly UInt16 UInt8)}

/-- Working variables from which the data of a fragment is stored. -/
def Located (rx : EoeRx) (buf : Memory UInt8) (a : Assembly UInt16 UInt8) : Prop :=
  rx.rxfragmentno.toNat = a.place ∧ rx.rxframeno = a.frame ∧ rx.rxframesize.toNat = a.room ∧
    rx.rxframeoffset.toNat = a.got.length ∧ buf.read 0 a.got.length = a.got

theorem toNat_six {n : Nat} (hn : n < 64) : (UInt16.ofNat n).toNat = n :=
  Nat.mod_eq_of_lt (hn.trans (by decide))

theorem toUInt16_eq_ofNat_iff {b : UInt8} {n : Nat} (hn : n < 64) :
    b.toUInt16 = UInt16.ofNat n ↔ b.toNat = n := by
  rw [← UInt16.toNat_inj, UInt8.toNat_toUInt16, toNat_six hn]

theorem CarriesFragment.place_pos (hm : CarriesFragment e m f) :
    0 < eoeHdrFragNoGet (frameinfo2 e m) ↔ f.place ≠ 0 := by
  rw [hm.place, UInt16.lt_iff_toNat_lt, toNat_six hm.places]
  exact Nat.pos_iff_ne_zero

/-- The checks before the data find the frame that the fragment continues, or nothing is held
any longer. -/
theorem eoeLocate_locate {limit : Nat} (hm : CarriesFragment e m f) (hholds : Holds rx buf st)
    (hfits : Assembly.Fits limit st f) :
    match Assembly.locate st f with
    | none => ∃ rx', eoeLocate e m rx = .error rx' ∧ rx'.rxfragmentno = 0
    | some a => ∃ rx', eoeLocate e m rx = .ok rx' ∧ Located rx' buf a := by
  have hexpected : rx.rxfragmentno.toUInt16 = eoeHdrFragNoGet (frameinfo2 e m) ↔
      rx.rxfragmentno.toNat = f.place := by
    rw [hm.place]
    exact toUInt16_eq_ofNat_iff hm.places
  by_cases hfirst : f.place = 0
  · have hlocate : Assembly.locate st f = some ⟨f.frame, 0, f.room, []⟩ := if_pos hfirst
    rw [hlocate]
    have hnext : ¬0 < eoeHdrFragNoGet (frameinfo2 e m) := fun h => hm.place_pos.mp h hfirst
    by_cases hzero : rx.rxfragmentno = 0
    · refine ⟨{ rx with
          rxframesize := eoeHdrFrameOffsetGet (frameinfo2 e m) <<< 5
          rxframeoffset := 0
          rxframeno := eoeHdrFrameNoGet (frameinfo2 e m) }, ?_, ?_, hm.frame, hm.room hfirst, rfl,
        rfl⟩
      · simp only [eoeLocate, hnext, and_false, if_false, hzero, ne_eq, not_true_eq_false, if_true]
      · exact congrArg UInt8.toNat hzero
    · have hother : ¬rx.rxfragmentno.toUInt16 = eoeHdrFragNoGet (frameinfo2 e m) := by
        rw [hexpected, hfirst]
        exact fun h => hzero (UInt8.toNat_inj.mp h)
      refine ⟨{ EoeRx.reset with
          rxframesize := eoeHdrFrameOffsetGet (frameinfo2 e m) <<< 5
          rxframeoffset := 0
          rxframeno := eoeHdrFrameNoGet (frameinfo2 e m) }, ?_, rfl, hm.frame, hm.room hfirst, rfl,
        rfl⟩
      simp only [eoeLocate, hnext, and_false, if_false, hother, not_false_eq_true, ne_eq, hzero,
        and_self, if_true, EoeRx.reset]
  · have hnext : 0 < eoeHdrFragNoGet (frameinfo2 e m) := hm.place_pos.mpr hfirst
    cases hst : st with
    | none =>
        have hzero : rx.rxfragmentno = 0 := by rwa [hst] at hholds
        have hother : ¬rx.rxfragmentno.toUInt16 = eoeHdrFragNoGet (frameinfo2 e m) := by
          rw [hexpected, hzero]
          exact fun h => hfirst h.symm
        simp only [Assembly.locate, hfirst, if_false, Option.filter_none]
        refine ⟨rx, ?_, hzero⟩
        rw [hzero] at hother
        simp only [eoeLocate, hzero, hother, not_false_eq_true, hnext, and_self, if_true, ne_eq,
          not_true_eq_false, and_false, if_false]
    | some a =>
        rw [hst] at hholds hfits
        obtain ⟨hbusy, hplace, hframe, hroom, hoffset, hgot⟩ := hholds
        by_cases hsame : a.place = f.place
        · have hexp : rx.rxfragmentno.toUInt16 = eoeHdrFragNoGet (frameinfo2 e m) := by
            rw [hexpected, hplace, hsame]
          by_cases hnumber : a.frame = f.frame
          · have hlocate : Assembly.locate (some a) f = some a := by
              simp [Assembly.locate, hfirst, Option.filter, hsame, hnumber]
            rw [hlocate]
            have hat : rx.rxframeoffset = eoeHdrFrameOffsetGet (frameinfo2 e m) <<< 5 := by
              rw [← UInt16.toNat_inj, hm.offset hfirst, hoffset]
              exact (hfits a hlocate).1
            refine ⟨rx, ?_, hplace, hframe, hroom, hoffset, hgot⟩
            simp only [eoeLocate, hexp, not_true_eq_false, false_and, if_false, hbusy,
              hm.frame, hframe, hnumber, ne_eq, hat]
          · have hlocate : Assembly.locate (some a) f = none := by
              simp [Assembly.locate, hfirst, Option.filter, hnumber]
            rw [hlocate]
            refine ⟨EoeRx.reset, ?_, rfl⟩
            simp only [eoeLocate, hexp, not_true_eq_false, false_and, if_false, hbusy,
              hm.frame, hframe, hnumber, ne_eq, not_false_eq_true, if_true]
        · have hother : ¬rx.rxfragmentno.toUInt16 = eoeHdrFragNoGet (frameinfo2 e m) := by
            rw [hexpected, hplace]
            exact hsame
          have hlocate : Assembly.locate (some a) f = none := by
            simp [Assembly.locate, hfirst, Option.filter, hsame]
          rw [hlocate]
          refine ⟨EoeRx.reset, ?_, rfl⟩
          simp only [eoeLocate, hother, not_false_eq_true, hnext, and_self, if_true, ne_eq, hbusy]

/-- The data is stored behind what has arrived. -/
theorem eoeCopy_located {limit : Nat} {a : Assembly UInt16 UInt8} (hm : CarriesFragment e m f)
    (hlocated : Located rx buf a) (hplace : a.place < 64)
    (hfits : a.got.length + f.data.length ≤ min a.room limit) :
    ∃ rx' buf', eoeCopy e m rx limit buf = some (rx', buf') ∧
      Located rx' buf' { a with place := a.place + 1, got := a.got ++ f.data } := by
  obtain ⟨hnumber, hframe, hroom, hoffset, hgot⟩ := hlocated
  obtain ⟨hinRoom, hinLimit⟩ := le_min_iff.mp hfits
  have hsize : (getWord e m 0 - 4).toNat = f.data.length := by
    have hlength := hm.length
    have hle : (4 : UInt16) ≤ getWord e m 0 := by
      rw [UInt16.le_iff_toNat_le, hlength]
      exact Nat.le_add_right 4 _
    rw [UInt16.toNat_sub_of_le _ _ hle, hlength]
    exact Nat.add_sub_cancel_left 4 _
  have hinside := hm.inside
  have hmax : rx.rxframesize.toNat < 2 ^ 16 := rx.rxframesize.toNat_lt
  refine ⟨{ rx with
      rxframeoffset := rx.rxframeoffset + (getWord e m 0 - 4)
      rxfragmentno := rx.rxfragmentno + 1 },
    buf.write a.got.length (m.read 10 f.data.length), ?_, ?_, hframe, hroom, ?_, ?_⟩
  · simp only [eoeCopy, hsize, hoffset, hroom]
    rw [if_pos ⟨hinRoom, by omega⟩, if_pos hinside]
  · rw [UInt8.toNat_add, hnumber]
    exact Nat.mod_eq_of_lt (by change a.place + 1 < 2 ^ 8; omega)
  · rw [UInt16.toNat_add, hoffset, hsize, List.length_append]
    exact Nat.mod_eq_of_lt (by omega)
  · rw [hm.data, List.length_append, Memory.read_add, Nat.zero_add, Memory.read_write,
      Memory.read_write_apart _ (Or.inl (by omega)), hgot]

/-- A fragment that passes the checks and is stored ends the frame or leaves it incomplete. -/
theorem CarriesFragment.read_ok {psize : Int} {rx₁ rx₂ : EoeRx} {buf' : Memory UInt8}
    (hm : CarriesFragment e m f) (hlocate : eoeLocate e m rx = .ok rx₁)
    (hcopy : eoeCopy e m rx₁ psize buf = some (rx₂, buf')) :
    ecxEoereadfragment e m rx psize buf =
      some (if f.last then ⟨1, EoeRx.reset, rx₂.rxframeoffset.toNat, buf'⟩
        else ⟨0, rx₂, psize, buf'⟩) := by
  have hlast : eoeHdrLastFragmentGet (frameinfo1 e m) ≠ 0 ↔ f.last = true := by
    rw [hm.last]
    cases f.last <;> decide
  have htime : ¬eoeHdrTimeAppendGet (frameinfo1 e m) ≠ 0 := not_not.mpr hm.time
  simp only [ecxEoereadfragment, if_pos hm.mbxType, hlocate, hcopy, Option.map_some, hlast,
    if_neg htime]

end Read

/-- The receiver of fragments: the working variables, the frame buffer, the mailboxes counted
and the frames that have been completed. -/
structure EoePeer where
  rx : EoeRx
  buf : Memory UInt8
  arrived : Nat
  frames : List (List UInt8)

/-- The EoE hook with a frame buffer of `size` bytes: a mailbox goes to `ecx_EOEreadfragment`. -/
def EoePeer.hook (e : Endian) (size : Nat) (p : EoePeer) (m : Mailbox) : Option EoePeer :=
  (ecxEoereadfragment e m p.rx size p.buf).map fun (r : EoeRead) =>
    { rx := r.rx
      buf := r.buf
      arrived := p.arrived + 1
      frames := if 0 < r.wkc then p.frames ++ [r.buf.read 0 r.psize.toNat] else p.frames }

/-- The hook follows the receiver that puts fragments together. -/
theorem EoePeer.hook_receive {e : Endian} {m : Mailbox} {f : Fragment UInt16 UInt8} {size : Nat}
    {p : EoePeer} {st : Option (Assembly UInt16 UInt8)} (hm : CarriesFragment e m f)
    (hholds : Holds p.rx p.buf st) (hfits : Assembly.Fits size st f) :
    ∃ p', p.hook e size m = some p' ∧ Holds p'.rx p'.buf (Assembly.receive st f).1 ∧
      p'.arrived = p.arrived + 1 ∧ p'.frames = p.frames ++ (Assembly.receive st f).2.toList := by
  have hlocated := eoeLocate_locate hm hholds hfits
  cases hlocate : Assembly.locate st f with
  | none =>
      rw [hlocate] at hlocated
      obtain ⟨rx, heq, hzero⟩ := hlocated
      have hread : ecxEoereadfragment e m p.rx size p.buf =
          some ⟨-ecErrTypeEoeInvalidRxData, rx, size, p.buf⟩ := by
        simp only [ecxEoereadfragment, if_pos hm.mbxType, heq]
      simp only [EoePeer.hook, hread, Option.map_some, Assembly.receive, hlocate,
        Option.toList_none, List.append_nil]
      rw [if_neg (show ¬(0 : Int) < -ecErrTypeEoeInvalidRxData by decide)]
      exact ⟨_, rfl, hzero, rfl, rfl⟩
  | some a =>
      rw [hlocate] at hlocated
      obtain ⟨rx, heq, hat⟩ := hlocated
      have hplaces : a.place < 64 := (Assembly.eq_of_locate hlocate).2 ▸ hm.places
      obtain ⟨rx', buf', hcopy, hnumber, hrest⟩ :=
        eoeCopy_located hm hat hplaces (hfits a hlocate).2
      have hread := hm.read_ok heq hcopy
      cases hlast : f.last with
      | true =>
          obtain ⟨-, -, hoffset, hgot⟩ := hrest
          rw [hlast, if_pos rfl] at hread
          simp only [EoePeer.hook, hread, Option.map_some, Assembly.receive, hlocate, hlast, if_true,
            Option.toList_some]
          refine ⟨_, rfl, rfl, rfl, ?_⟩
          rw [if_pos one_pos]
          dsimp only
          rw [Int.toNat_natCast, hoffset, hgot]
      | false =>
          rw [hlast, if_neg (by decide)] at hread
          simp only [EoePeer.hook, hread, Option.map_some, Assembly.receive, hlocate, hlast,
            Bool.false_eq_true, if_false, Option.toList_none, List.append_nil]
          rw [if_neg (lt_irrefl (0 : Int))]
          refine ⟨_, rfl, ⟨fun hzero => ?_, hnumber, hrest⟩, rfl, rfl⟩
          have hsucc : (0 : UInt8).toNat = a.place + 1 := hzero ▸ hnumber
          exact absurd hsucc.symm (Nat.succ_ne_zero _)

section Sender

variable {σ : Type*} (e : Endian) (send : σ → Mailbox → σ × Int) (port : UInt8) {maxdata : Nat}
  {buf : List UInt8} (h : EoeSendable maxdata buf) (hmax : maxdata + 10 ≤ ecMaxMbx)

/-- The data of the fragment number `k`. -/
def eoeData (maxdata : Nat) (buf : List UInt8) (k : Nat) : List UInt8 :=
  (buf.take (eoeCut maxdata buf (k + 1))).drop (eoeCut maxdata buf k)

/-- The number of the frame that a round with fragment number `k` belongs to. -/
def roundFrame (k : Nat) (txframeno : UInt8) : UInt8 := if k = 0 then txframeno + 1 else txframeno

/-- What a round for the fragment number `k` sends. -/
def roundMailbox (maxdata : Nat) (buf : List UInt8) (k : Nat) (s : EoeSender σ) : Mailbox :=
  eoeMailbox e s.mbxOut (ecNextMbxCnt s.mbxCnt)
    (eoeFrameinfo1 port (k + 1 = eoeCount maxdata buf))
    (eoeFrameinfo2 (.ofNat k) (roundFrame k s.txframeno) (eoeCut maxdata buf k) buf.length)
    (eoeData maxdata buf k)

/-- The sender after the round. -/
def roundSender (maxdata : Nat) (buf : List UInt8) (k : Nat) (s : EoeSender σ) : EoeSender σ :=
  { slave := (send s.slave (roundMailbox e port maxdata buf k s)).1
    mbxCnt := ecNextMbxCnt s.mbxCnt
    txframeno := roundFrame k s.txframeno
    mbxOut := roundMailbox e port maxdata buf k s
    wkc := (send s.slave (roundMailbox e port maxdata buf k s)).2 }

include hmax in
theorem roundMailbox_carries {k : Nat} (hk : k < eoeCount maxdata buf) (s : EoeSender σ) :
    CarriesFragment e (roundMailbox e port maxdata buf k s)
      ((eoeCutting h (frameNumber (roundFrame k s.txframeno))).fragment k) :=
  eoeMailbox_carries e port h hmax hk s.mbxOut s.mbxCnt (roundFrame k s.txframeno)

include h hmax in
theorem eoeSendFragment_round {k : Nat} (hk : k < eoeCount maxdata buf) (s : EoeSender σ) :
    eoeSendFragment e send port buf.length (.ofNat k) (eoeCut maxdata buf k)
        (k + 1 = eoeCount maxdata buf) (eoeData maxdata buf k) s =
      some (roundSender e send port maxdata buf k s) := by
  have hfits : 10 + (eoeData maxdata buf k).length ≤ ecMaxMbx + 1 := by
    have hlength : (eoeData maxdata buf k).length ≤ maxdata :=
      eoeFragment_length h hk (n := 0)
    omega
  have hpositive : (0 < UInt8.ofNat k) ↔ k ≠ 0 := by
    have hcases : ∀ k : Fin 64, 0 < UInt8.ofNat k ↔ (k : Nat) ≠ 0 := by decide
    exact hcases ⟨k, hk.trans_le (eoeCount_le h)⟩
  have hframe : (if 0 < UInt8.ofNat k then s.txframeno else s.txframeno + 1) =
      roundFrame k s.txframeno := by
    simp only [roundFrame, hpositive, ne_eq, ite_not]
  simp only [eoeSendFragment, if_pos hfits, hframe]
  rfl

include h hmax in
/-- One round of the loop. -/
theorem eoeSendLoop_round {k : Nat} (hk : k < eoeCount maxdata buf) (fuel : Nat)
    (s : EoeSender σ) :
    eoeSendLoop e send port maxdata buf (fuel + 1) (.ofNat k) (eoeCut maxdata buf k) s =
      if k + 1 = eoeCount maxdata buf then some (roundSender e send port maxdata buf k s)
      else if 0 < (roundSender e send port maxdata buf k s).wkc then
        eoeSendLoop e send port maxdata buf fuel (.ofNat (k + 1)) (eoeCut maxdata buf (k + 1))
          (roundSender e send port maxdata buf k s)
      else some (roundSender e send port maxdata buf k s) := by
  have hround := eoeSendFragment_round e send port h hmax hk s
  have hcut := eoeCut_le h k
  have hat : eoeCut maxdata buf k = k * eoeBlock maxdata := if_pos hk
  have hlt := lt_eoeCount_iff h (k := k)
  by_cases hlast : k + 1 = eoeCount maxdata buf
  · have hfinish : eoeCut maxdata buf (k + 1) = buf.length := by rw [hlast, eoeCut_count]
    have hleft : ¬(maxdata : Int) < (buf.length - eoeCut maxdata buf k : Nat) := by omega
    have hdata : eoeData maxdata buf k = buf.drop (eoeCut maxdata buf k) := by
      rw [eoeData, hfinish, List.take_length]
    rw [hdata, decide_eq_true hlast] at hround
    simp only [eoeSendLoop, if_neg hleft, if_pos hlast, if_true, hround,
      if_neg (show ¬((buf.length - eoeCut maxdata buf k : Nat) : Int) < 0 by omega)]
  · have hnext : k + 1 < eoeCount maxdata buf := by omega
    have hleft : (maxdata : Int) < (buf.length - eoeCut maxdata buf k : Nat) := by
      have := hlt.mp hnext
      omega
    have hsize : (maxdata : Int) / 32 * 32 = (eoeBlock maxdata : Nat) := by
      simp [eoeBlock]
    have hstep : eoeCut maxdata buf (k + 1) = eoeCut maxdata buf k + eoeBlock maxdata := by
      rw [hat, eoeCut, if_pos hnext, Nat.succ_mul]
    have hdata : eoeData maxdata buf k =
        (buf.drop (eoeCut maxdata buf k)).take (eoeBlock maxdata) := by
      rw [eoeData, List.drop_take, hstep, Nat.add_sub_cancel_left]
    have hblock := eoeBlock_le maxdata
    have hlength : ((buf.drop (eoeCut maxdata buf k)).take (eoeBlock maxdata)).length =
        eoeBlock maxdata := by
      rw [List.length_take, List.length_drop]
      omega
    have hnumber : UInt8.ofNat k + 1 = UInt8.ofNat (k + 1) := by
      rw [UInt8.ofNat_add]
      rfl
    rw [hdata, decide_eq_false hlast] at hround
    have hbelow : ¬((eoeBlock maxdata : Nat) : Int) < 0 := by omega
    have hshort : ¬((eoeBlock maxdata : Nat) : Int) =
        (buf.length - eoeCut maxdata buf k : Nat) := by omega
    simp only [eoeSendLoop, if_pos hleft, hsize, if_neg hlast, if_neg hbelow, if_neg hshort,
      Int.toNat_natCast, hround, hlength, hnumber, hstep]

end Sender

end RaipalSoem

import RaipalSoem.Nic
import RaipalSoem.ProcessImage
import RaipalSoem.Lib.Chain

/-!
# Datagrams in a frame

`ecx_setupdatagram` puts a first datagram into a frame and `ecx_adddatagram` puts further ones
behind it. Each datagram has a header, its data and a work counter; a flag in the length field
of the header tells that another one follows. What the calls leave in the buffer is compared
with what the slaves read off the wire.
-/

namespace RaipalSoem

open Lib

/-- `EC_HEADERSIZE`: the EtherCAT header with the header of the first datagram. -/
def ecHeaderSize : Nat := 12

/-- `EC_ELENGTHSIZE`. -/
def ecElengthSize : Nat := 2

/-- `EC_WKCSIZE`. -/
def ecWkcSize : Nat := 2

/-- `EC_ECATTYPE`: datagram type EtherCAT. -/
def ecEcatType : UInt16 := 0x1000

/-- `EC_DATAGRAMFOLLOWS`. -/
def ecDatagramFollows : UInt16 := 0x8000

/-- `EC_CMD_NOP`. -/
def ecCmdNop : UInt8 := 0x00

/-- `EC_CMD_APRD`. -/
def ecCmdAprd : UInt8 := 0x01

/-- `EC_CMD_FPRD`. -/
def ecCmdFprd : UInt8 := 0x04

/-- `EC_CMD_BRD`. -/
def ecCmdBrd : UInt8 := 0x07

/-- `EC_CMD_LRD`. -/
def ecCmdLrd : UInt8 := 0x0a

/-- Store a 16-bit field of a frame through `htoes`. -/
def putWord (e : Endian) (m : Memory UInt8) (off : Nat) (v : UInt16) : Memory UInt8 :=
  m.write off (hostBytes e 2 (htoes e v.toBitVec))

/-- Load a 16-bit field of a frame through `etohs`. -/
def getWord (e : Endian) (m : Memory UInt8) (off : Nat) : UInt16 :=
  .ofBitVec (htoes e (ofHostBytes e 2 (m.read off 2)))

/-- A frame buffer and its entry of `txbuflength`. -/
structure TxFrame where
  frame : Memory UInt8
  txbuflength : Nat

/-- The arguments of a call that puts a datagram into a frame. -/
structure Request where
  com : UInt8
  ADP : UInt16
  ADO : UInt16
  length : UInt16
  data : Memory UInt8

/-- `ecx_writedatagramdata`: a command that only reads sends zeros. -/
def ecxWritedatagramdata (m : Memory UInt8) (off : Nat) (com : UInt8) (length : UInt16)
    (data : Memory UInt8) : Memory UInt8 :=
  if 0 < length then
    if com ∈ [ecCmdNop, ecCmdAprd, ecCmdFprd, ecCmdBrd, ecCmdLrd] then
      m.write off (List.replicate length.toNat 0)
    else m.write off (data.read 0 length.toNat)
  else m

/-- The fields of `*datagramP` from `command` to `dlength`; `irpt` is left as it is. -/
def putHeader (e : Endian) (m : Memory UInt8) (datagramP : Nat) (idx : UInt8) (r : Request)
    (dlength : UInt16) : Memory UInt8 :=
  let m := m.write (datagramP + 2) [r.com]
  let m := m.write (datagramP + 3) [idx]
  let m := putWord e m (datagramP + 4) r.ADP
  let m := putWord e m (datagramP + 6) r.ADO
  putWord e m (datagramP + 8) dlength

/-- `ecx_setupdatagram`. -/
def ecxSetupdatagram (e : Endian) (frame : Memory UInt8) (idx : UInt8) (r : Request) : TxFrame :=
  let m := putWord e frame ethHeaderSize (ecEcatType + .ofNat ecHeaderSize + r.length)
  let m := putHeader e m ethHeaderSize idx r r.length
  let m := ecxWritedatagramdata m (ethHeaderSize + ecHeaderSize) r.com r.length r.data
  { frame := m.write (ethHeaderSize + ecHeaderSize + r.length.toNat) [0x00, 0x00]
    txbuflength := ethHeaderSize + ecHeaderSize + ecWkcSize + r.length.toNat }

/-- `ecx_adddatagram`, with the offset of the data in the received frame. -/
def ecxAdddatagram (e : Endian) (tx : TxFrame) (idx : UInt8) (more : Bool) (r : Request) :
    TxFrame × UInt16 :=
  let prevlength := (UInt16.ofNat tx.txbuflength).toNat
  let m := putWord e tx.frame ethHeaderSize
    (getWord e tx.frame ethHeaderSize + .ofNat ecHeaderSize + r.length)
  let m := putWord e m (ethHeaderSize + 8) (getWord e m (ethHeaderSize + 8) ||| ecDatagramFollows)
  let m := putHeader e m (prevlength - ecElengthSize) idx r
    (if more then r.length ||| ecDatagramFollows else r.length)
  let m := ecxWritedatagramdata m (prevlength + ecHeaderSize - ecElengthSize) r.com r.length r.data
  ({ frame := m.write (prevlength + ecHeaderSize - ecElengthSize + r.length.toNat) [0x00, 0x00]
     txbuflength := prevlength + ecHeaderSize - ecElengthSize + ecWkcSize + r.length.toNat },
    .ofNat (prevlength + ecHeaderSize - ecElengthSize - ethHeaderSize))

/-- Calls of `ecx_adddatagram`, each with its `more`, and the offsets that they return. -/
def addAll (e : Endian) (idx : UInt8) : TxFrame → List (Bool × Request) → TxFrame × List UInt16
  | tx, [] => (tx, [])
  | tx, (more, r) :: rs =>
      let added := ecxAdddatagram e tx idx more r
      let rest := addAll e idx added.1 rs
      (rest.1, added.2 :: rest.2)

/-- A frame made by `ecx_setupdatagram` and then `ecx_adddatagram`. -/
def buildFrame (e : Endian) (frame : Memory UInt8) (idx : UInt8) (r : Request)
    (rs : List (Bool × Request)) : TxFrame × List UInt16 :=
  addAll e idx (ecxSetupdatagram e frame idx r) rs

/-- A datagram on the wire. -/
structure Subframe where
  command : UInt8
  index : UInt8
  ADP : UInt16
  ADO : UInt16
  follows : Bool
  data : List UInt8
  wkc : UInt16
  deriving DecidableEq, Repr

/-- A 16-bit field on the wire, least significant byte first. -/
def wordAt (m : Memory UInt8) (off : Nat) : UInt16 := .ofBitVec (ofLeBytes 2 (m.read off 2))

/-- The datagram whose header begins at `off`: eleven bits of the length field count its
data, the highest one announces another datagram. -/
def readSubframe (m : Memory UInt8) (off : Nat) : Subframe :=
  let length := (wordAt m (off + 6) &&& 0x07ff).toNat
  { command := m off
    index := m (off + 1)
    ADP := wordAt m (off + 2)
    ADO := wordAt m (off + 4)
    follows := wordAt m (off + 6) &&& 0x8000 != 0
    data := m.read (off + 10) length
    wkc := wordAt m (off + 10 + length) }

theorem wordAt_congr {m m' : Memory UInt8} {off : Nat} (h : ∀ a ∈ span off 2, m' a = m a) :
    wordAt m' off = wordAt m off := by
  rw [wordAt, Memory.read_congr h, wordAt]

theorem wordAt_of_read {m m' : Memory UInt8} {a b n : Nat} (h : m.read a n = m'.read b n) {i : Nat}
    (hi : i + 2 ≤ n) : wordAt m (a + i) = wordAt m' (b + i) := by
  rw [wordAt, Memory.read_part h hi, wordAt]

/-- What is read depends on the bytes of the datagram only. -/
theorem readSubframe_congr {m m' : Memory UInt8} {off : Nat}
    (h : ∀ a ∈ span off (12 + (readSubframe m off).data.length), m' a = m a) :
    readSubframe m' off = readSubframe m off := by
  simp only [readSubframe, Memory.read_length, mem_span] at h
  have hlength : wordAt m' (off + 6) = wordAt m (off + 6) :=
    wordAt_congr fun a ha => h a (by rw [mem_span] at ha; omega)
  simp only [readSubframe, hlength, Subframe.mk.injEq]
  refine ⟨h _ (by omega), h _ (by omega), wordAt_congr ?_, wordAt_congr ?_, trivial,
    Memory.read_congr ?_, wordAt_congr ?_⟩ <;>
  · intro a ha
    rw [mem_span] at ha
    exact h a (by omega)

/-- The datagrams of a frame are a chain of records. -/
def frameFormat : ChainFormat UInt8 Subframe where
  parse := readSubframe
  size d := 12 + d.data.length
  more d := d.follows
  size_pos _ := Nat.lt_of_lt_of_le (by decide) (Nat.le_add_right 12 _)
  parse_congr := readSubframe_congr

/-- The datagrams of a frame behind its ethernet header: the type has to be EtherCAT, and the
datagrams have to fill the announced length. -/
def decodeFrame (m : Memory UInt8) : Option (List Subframe) :=
  let elength := wordAt m ethHeaderSize
  if elength >>> 12 = 1 then
    let length := (elength &&& 0x07ff).toNat
    frameFormat.decode m (ethHeaderSize + 2 + length) length (ethHeaderSize + 2)
  else none

/-- The datagram that a request stands for. -/
def Request.subframe (idx : UInt8) (follows : Bool) (r : Request) : Subframe where
  command := r.com
  index := idx
  ADP := r.ADP
  ADO := r.ADO
  follows := follows
  data :=
    if r.com ∈ [ecCmdNop, ecCmdAprd, ecCmdFprd, ecCmdBrd, ecCmdLrd] then
      List.replicate r.length.toNat 0
    else r.data.read 0 r.length.toNat
  wkc := 0

/-- The datagrams that the calls ask for. -/
def requested (idx : UInt8) (r : Request) (rs : List (Bool × Request)) : List Subframe :=
  r.subframe idx (!rs.isEmpty) :: rs.map fun q => q.2.subframe idx q.1

section Fields

variable (e : Endian) (m : Memory UInt8) {off a : Nat}

theorem putWord_eq (off : Nat) (v : UInt16) :
    putWord e m off v = m.write off (leBytes 2 v.toBitVec) := by
  rw [putWord, hostBytes_htoes]

theorem getWord_eq (off : Nat) : getWord e m off = wordAt m off := by
  rw [getWord, htoes_ofHostBytes e (Memory.read_length _ _ _), wordAt]

theorem wordAt_putWord (off : Nat) (v : UInt16) : wordAt (putWord e m off v) off = v := by
  have hread : (m.write off (leBytes 2 v.toBitVec)).read off 2 = leBytes 2 v.toBitVec :=
    m.read_write off (leBytes 2 v.toBitVec)
  rw [putWord_eq, wordAt, hread, ofLeBytes_leBytes, UInt16.ofBitVec_toBitVec]

theorem wordAt_write {vs : List UInt8} (h : a + 2 ≤ off ∨ off + vs.length ≤ a) :
    wordAt (m.write off vs) a = wordAt m a := by
  rw [wordAt, m.read_write_apart h, wordAt]

theorem putWord_apart {v : UInt16} (h : a < off ∨ off + 2 ≤ a) :
    putWord e m off v a = m a := by
  rw [putWord_eq]
  exact m.write_apart (by simpa using h)

theorem wordAt_putWord_apart {v : UInt16} (h : a + 2 ≤ off ∨ off + 2 ≤ a) :
    wordAt (putWord e m off v) a = wordAt m a := by
  rw [putWord_eq]
  exact wordAt_write m (by simpa using h)

end Fields

/-- A datagram is recognised field by field. -/
theorem readSubframe_eq {m : Memory UInt8} {off : Nat} {d : Subframe}
    (hcommand : m off = d.command) (hindex : m (off + 1) = d.index)
    (hADP : wordAt m (off + 2) = d.ADP) (hADO : wordAt m (off + 4) = d.ADO)
    (hlength : (wordAt m (off + 6) &&& 0x07ff).toNat = d.data.length)
    (hfollows : (wordAt m (off + 6) &&& 0x8000 != 0) = d.follows)
    (hdata : m.read (off + 10) d.data.length = d.data)
    (hwkc : wordAt m (off + 10 + d.data.length) = d.wkc) : readSubframe m off = d := by
  simp only [readSubframe, hcommand, hindex, hADP, hADO, hlength, hfollows, hdata, hwkc]

theorem Request.length_data (idx : UInt8) (follows : Bool) (r : Request) :
    (r.subframe idx follows).data.length = r.length.toNat := by
  unfold Request.subframe
  split <;> simp

/-- Data is written as the datagram has it. -/
theorem ecxWritedatagramdata_eq (m : Memory UInt8) (off : Nat) (idx : UInt8) (follows : Bool)
    (r : Request) : ecxWritedatagramdata m off r.com r.length r.data =
      m.write off (r.subframe idx follows).data := by
  unfold ecxWritedatagramdata
  by_cases hlength : 0 < r.length
  · rw [if_pos hlength]
    unfold Request.subframe
    split <;> rfl
  · have hzero : (r.subframe idx follows).data.length = 0 := by
      rw [Request.length_data]
      exact Nat.eq_zero_of_not_pos hlength
    rw [if_neg hlength, List.eq_nil_of_length_eq_zero hzero]
    funext a
    exact (m.write_apart (by simp; omega)).symm

/-- The flag and the length share a word. -/
theorem or_follows_length (w : UInt16) :
    (w ||| ecDatagramFollows) &&& 0x07ff = w &&& 0x07ff := by
  rw [← UInt16.toBitVec_inj]
  simp only [UInt16.toBitVec_and, UInt16.toBitVec_or, BitVec.and_or_distrib_right]
  simp [ecDatagramFollows]

theorem or_follows_flag (w : UInt16) : (w ||| ecDatagramFollows) &&& 0x8000 = 0x8000 := by
  rw [← UInt16.toBitVec_inj]
  simp only [UInt16.toBitVec_and, UInt16.toBitVec_or]
  ext i hi
  simp [ecDatagramFollows]
  grind

theorem and_length {w : UInt16} (h : w.toNat < 2048) : w &&& 0x07ff = w := by
  apply UInt16.toNat_inj.mp
  rw [UInt16.toNat_and]
  exact (Nat.and_two_pow_sub_one_eq_mod w.toNat 11).trans (Nat.mod_eq_of_lt h)

theorem and_flag {w : UInt16} (h : w.toNat < 2048) : w &&& 0x8000 = 0 := by
  rw [← and_length h, UInt16.and_assoc]
  exact UInt16.and_zero

/-- The stores of one call, from the header at `datagramP` to the work counter. -/
def putRequest (e : Endian) (m : Memory UInt8) (datagramP : Nat) (idx : UInt8) (follows : Bool)
    (r : Request) : Memory UInt8 :=
  let m := putHeader e m datagramP idx r
    (if follows then r.length ||| ecDatagramFollows else r.length)
  let m := ecxWritedatagramdata m (datagramP + 12) r.com r.length r.data
  m.write (datagramP + 12 + r.length.toNat) [0x00, 0x00]

section PutRequest

variable (e : Endian) (m : Memory UInt8) (p : Nat) (idx : UInt8) {follows : Bool} {r : Request}

/-- The header fields come first, then the data, then the work counter. -/
theorem readSubframe_putRequest (hlength : r.length.toNat < 2048) :
    readSubframe (putRequest e m p idx follows r) (p + 2) = r.subframe idx follows := by
  have hdata := Request.length_data idx follows r
  have hword : wordAt (putRequest e m p idx follows r) (p + 2 + 6) =
      if follows then r.length ||| ecDatagramFollows else r.length := by
    simp only [putRequest, ecxWritedatagramdata_eq _ _ idx follows r, putHeader]
    rw [wordAt_write _ (by omega), wordAt_write _ (by omega)]
    exact wordAt_putWord e _ (p + 8) _
  apply readSubframe_eq
  · simp only [putRequest, ecxWritedatagramdata_eq _ _ idx follows r, putHeader]
    rw [Memory.write_apart _ (by omega), Memory.write_apart _ (by omega),
      putWord_apart _ _ (by omega), putWord_apart _ _ (by omega), putWord_apart _ _ (by omega),
      Memory.write_apart _ (by omega)]
    exact Memory.write_of_mem m (p + 2) 0 [r.com] (by simp)
  · simp only [putRequest, ecxWritedatagramdata_eq _ _ idx follows r, putHeader]
    rw [Memory.write_apart _ (by omega), Memory.write_apart _ (by omega),
      putWord_apart _ _ (by omega), putWord_apart _ _ (by omega), putWord_apart _ _ (by omega)]
    exact Memory.write_of_mem _ (p + 3) 0 [idx] (by simp)
  · simp only [putRequest, ecxWritedatagramdata_eq _ _ idx follows r, putHeader]
    rw [wordAt_write _ (by omega), wordAt_write _ (by omega),
      wordAt_putWord_apart _ _ (by omega), wordAt_putWord_apart _ _ (by omega)]
    exact wordAt_putWord e _ (p + 4) _
  · simp only [putRequest, ecxWritedatagramdata_eq _ _ idx follows r, putHeader]
    rw [wordAt_write _ (by omega), wordAt_write _ (by omega),
      wordAt_putWord_apart _ _ (by omega)]
    exact wordAt_putWord e _ (p + 6) _
  · rw [hword, hdata]
    cases follows with
    | false => rw [if_neg Bool.false_ne_true, and_length hlength]
    | true => rw [if_pos rfl, or_follows_length, and_length hlength]
  · rw [hword]
    cases follows with
    | false => simp [Request.subframe, and_flag hlength]
    | true => simp [Request.subframe, or_follows_flag]
  · simp only [putRequest, ecxWritedatagramdata_eq _ _ idx follows r]
    rw [Memory.read_write_apart _ (Or.inl (by omega))]
    exact Memory.read_write _ (p + 12) _
  · have hzero : leBytes 2 (0 : UInt16).toBitVec = [0x00, 0x00] := by decide
    rw [hdata]
    simp only [putRequest]
    rw [← hzero, ← putWord_eq e]
    exact wordAt_putWord e _ (p + 12 + r.length.toNat) 0

theorem putRequest_apart {a : Nat} (h : a < p + 2 ∨ p + 14 + r.length.toNat ≤ a) :
    putRequest e m p idx follows r a = m a := by
  have hdata := Request.length_data idx follows r
  simp only [putRequest, ecxWritedatagramdata_eq _ _ idx follows r, putHeader]
  rw [Memory.write_apart _ (by simp; omega), Memory.write_apart _ (by omega),
    putWord_apart _ _ (by omega), putWord_apart _ _ (by omega), putWord_apart _ _ (by omega),
    Memory.write_apart _ (by simp; omega), Memory.write_apart _ (by simp; omega)]

theorem wordAt_putRequest {a : Nat} (h : a ≤ p) :
    wordAt (putRequest e m p idx follows r) a = wordAt m a := by
  apply wordAt_congr
  intro b hb
  rw [mem_span] at hb
  exact putRequest_apart e m p idx (Or.inl (by omega))

end PutRequest

theorem ecxSetupdatagram_frame (e : Endian) (frame : Memory UInt8) (idx : UInt8) (r : Request) :
    (ecxSetupdatagram e frame idx r).frame =
      putRequest e (putWord e frame 14 (0x1000 + 12 + r.length)) 14 idx false r := rfl

@[simp] theorem frameFormat_parse (m : Memory UInt8) (off : Nat) :
    frameFormat.parse m off = readSubframe m off := rfl

@[simp] theorem frameFormat_more (d : Subframe) : frameFormat.more d = d.follows := rfl

@[simp] theorem frameFormat_size (d : Subframe) : frameFormat.size d = 12 + d.data.length := rfl

/-- The datagrams that a frame holds, and the lengths that count them. -/
structure Built (tx : TxFrame) (ds : List Subframe) : Prop where
  laid : frameFormat.Laid tx.frame 16 ds
  txbuflength : tx.txbuflength = 16 + frameFormat.total ds
  elength : wordAt tx.frame 14 = ecEcatType + .ofNat (frameFormat.total ds)

/-- `ecx_setupdatagram` begins a frame with one datagram. -/
theorem ecxSetupdatagram_built (e : Endian) (frame : Memory UInt8) (idx : UInt8) {r : Request}
    (hlength : r.length.toNat < 2048) :
    Built (ecxSetupdatagram e frame idx r) [r.subframe idx false] := by
  have hdata := Request.length_data idx false r
  have hframe := ecxSetupdatagram_frame e frame idx r
  generalize hm : putWord e frame 14 (0x1000 + 12 + r.length) = m at hframe
  refine ⟨⟨?_, trivial⟩, ?_, ?_⟩
  · rw [hframe]
    exact readSubframe_putRequest e m 14 idx hlength
  · simp [ecxSetupdatagram, hdata, ethHeaderSize, ecHeaderSize, ecWkcSize]
    omega
  · have hkept : wordAt (ecxSetupdatagram e frame idx r).frame 14 = 0x1000 + 12 + r.length := by
      rw [hframe, wordAt_putRequest e m 14 idx (le_refl 14), ← hm]
      exact wordAt_putWord e frame 14 _
    have htotal : frameFormat.total [r.subframe idx false] = 12 + r.length.toNat := by
      rw [ChainFormat.total_cons, ChainFormat.total_nil, frameFormat_size, hdata, Nat.add_zero]
    rw [hkept, htotal, UInt16.ofNat_add, UInt16.ofNat_toNat, UInt16.add_assoc]
    rfl

/-- Only the flag of a datagram changes when a bit is set in its length field. -/
theorem readSubframe_setFollows (e : Endian) (m : Memory UInt8) (off : Nat) :
    readSubframe (putWord e m (off + 6) (wordAt m (off + 6) ||| ecDatagramFollows)) off =
      { readSubframe m off with follows := true } := by
  have hword := wordAt_putWord e m (off + 6) (wordAt m (off + 6) ||| ecDatagramFollows)
  apply readSubframe_eq
  · exact putWord_apart e m (by omega)
  · exact putWord_apart e m (by omega)
  · exact wordAt_putWord_apart e m (by omega)
  · exact wordAt_putWord_apart e m (by omega)
  · rw [hword, or_follows_length]
    simp [readSubframe]
  · rw [hword, or_follows_flag]
    rfl
  · simp only [readSubframe, Memory.read_length, putWord_eq]
    exact Memory.read_write_apart _ (Or.inr (by simp))
  · simp only [readSubframe, Memory.read_length]
    exact wordAt_putWord_apart e m (by omega)

/-- `ecx_adddatagram` before the stores of the new datagram: the length of the frame grows,
and the first datagram gets its flag. -/
def announce (e : Endian) (m : Memory UInt8) (length : UInt16) : Memory UInt8 :=
  let m := putWord e m 14 (wordAt m 14 + 12 + length)
  putWord e m 22 (wordAt m 22 ||| ecDatagramFollows)

theorem wordAt_announce (e : Endian) (m : Memory UInt8) (length : UInt16) :
    wordAt (announce e m length) 14 = wordAt m 14 + 12 + length := by
  unfold announce
  rw [wordAt_putWord_apart e _ (Or.inl (by decide))]
  exact wordAt_putWord e m 14 _

theorem announce_laid (e : Endian) {m : Memory UInt8} {d : Subframe} {ds : List Subframe}
    (h : frameFormat.Laid m 16 (d :: ds)) (length : UInt16) :
    frameFormat.Laid (announce e m length) 16 ({ d with follows := true } :: ds) := by
  unfold announce
  generalize hm : putWord e m 14 (wordAt m 14 + 12 + length) = m₁
  have hlaid : frameFormat.Laid m₁ 16 (d :: ds) := by
    apply h.congr
    intro a ha
    rw [mem_span] at ha
    rw [← hm]
    exact putWord_apart e m (by omega)
  constructor
  · rw [← hlaid.1]
    exact readSubframe_setFollows e m₁ 16
  · apply hlaid.2.congr
    intro a ha
    rw [mem_span, frameFormat_size] at ha
    exact putWord_apart e m₁ (by omega)

/-- Behind the datagrams of a frame `ecx_adddatagram` stores the new one. -/
theorem Built.adddatagram_eq (e : Endian) {tx : TxFrame} {ds : List Subframe} (h : Built tx ds)
    (idx : UInt8) (more : Bool) {r : Request}
    (hfits : frameFormat.total ds + 12 + r.length.toNat < 2048) :
    ecxAdddatagram e tx idx more r =
      ({ frame := putRequest e (announce e tx.frame r.length) (14 + frameFormat.total ds) idx more r
         txbuflength := 16 + frameFormat.total ds + 12 + r.length.toNat },
        .ofNat (frameFormat.total ds + 12)) := by
  have hprev : (UInt16.ofNat tx.txbuflength).toNat = 16 + frameFormat.total ds := by
    rw [h.txbuflength]
    exact Nat.mod_eq_of_lt (by omega)
  have hhead : 16 + frameFormat.total ds - 2 = 14 + frameFormat.total ds := by omega
  have hdata : 16 + frameFormat.total ds + 12 - 2 = 14 + frameFormat.total ds + 12 := by omega
  have hrx : 14 + frameFormat.total ds + 12 - 14 = frameFormat.total ds + 12 := by omega
  have hsize : 14 + frameFormat.total ds + 12 + 2 + r.length.toNat =
      16 + frameFormat.total ds + 12 + r.length.toNat := by omega
  simp only [ecxAdddatagram, hprev, ethHeaderSize, ecHeaderSize, ecElengthSize, ecWkcSize,
    getWord_eq, hhead, hdata, hrx, hsize]
  rfl

/-- `ecx_adddatagram` sets the flag of the first datagram and puts a further one at the end. -/
theorem Built.add (e : Endian) {tx : TxFrame} {d : Subframe} {ds : List Subframe}
    (h : Built tx (d :: ds)) (idx : UInt8) (more : Bool) {r : Request}
    (hfits : frameFormat.total (d :: ds) + 12 + r.length.toNat < 2048) :
    Built (ecxAdddatagram e tx idx more r).1
      ({ d with follows := true } :: (ds ++ [r.subframe idx more])) := by
  have hdata := Request.length_data idx more r
  have htotal : frameFormat.total ({ d with follows := true } :: ds) =
      frameFormat.total (d :: ds) := by
    simp only [ChainFormat.total_cons, frameFormat_size]
  have hnew : frameFormat.total [r.subframe idx more] = 12 + r.length.toNat := by
    rw [ChainFormat.total_cons, ChainFormat.total_nil, frameFormat_size, hdata, Nat.add_zero]
  rw [h.adddatagram_eq e idx more hfits, ← List.cons_append]
  have helength := h.elength
  generalize frameFormat.total (d :: ds) = n at htotal hfits helength
  generalize hm : announce e tx.frame r.length = m
  refine ⟨ChainFormat.laid_append.mpr ⟨?_, ?_, trivial⟩, ?_, ?_⟩
  · have hlaid := announce_laid e h.laid r.length
    rw [hm] at hlaid
    apply hlaid.congr
    intro a ha
    rw [mem_span, htotal] at ha
    exact putRequest_apart e m _ idx (Or.inl (by omega))
  · have hplace : 16 + n = 14 + n + 2 := by omega
    rw [htotal, hplace]
    exact readSubframe_putRequest e m _ idx (by omega)
  · change 16 + n + 12 + r.length.toNat = _
    rw [ChainFormat.total_append, htotal, hnew]
    omega
  · have hkept : wordAt (putRequest e m (14 + n) idx more r) 14 =
        wordAt tx.frame 14 + 12 + r.length := by
      rw [wordAt_putRequest e m _ idx (Nat.le_add_right 14 n), ← hm, wordAt_announce]
    rw [hkept, helength, ChainFormat.total_append, htotal, hnew, UInt16.ofNat_add,
      UInt16.ofNat_add, UInt16.ofNat_toNat]
    simp only [UInt16.add_assoc]
    rfl

theorem Built.addAll (e : Endian) (idx : UInt8) {tx : TxFrame} {d : Subframe} {ds : List Subframe}
    (rs : List (Bool × Request)) (h : Built tx (d :: ds))
    (hfits : frameFormat.total (d :: ds) +
      frameFormat.total (rs.map fun q => q.2.subframe idx q.1) < 2048) :
    Built (addAll e idx tx rs).1 ({ d with follows := d.follows || !rs.isEmpty } ::
      (ds ++ rs.map fun q => q.2.subframe idx q.1)) := by
  induction rs generalizing tx d ds with
  | nil => simpa [RaipalSoem.addAll] using h
  | cons q rs ih =>
      obtain ⟨more, r⟩ := q
      have hdata := Request.length_data idx more r
      simp only [List.map_cons, ChainFormat.total_cons, frameFormat_size, hdata] at hfits
      have hadd := h.add e idx more (r := r) (by simp; omega)
      have hrest := ih hadd (by simp [hdata]; omega)
      simpa [RaipalSoem.addAll] using hrest

/-- The offsets count the datagrams in front, and the header of the datagram itself. -/
theorem Built.addAll_offsets (e : Endian) (idx : UInt8) {tx : TxFrame} {d : Subframe}
    {ds : List Subframe} (rs : List (Bool × Request)) (h : Built tx (d :: ds))
    (hfits : frameFormat.total (d :: ds) +
      frameFormat.total (rs.map fun q => q.2.subframe idx q.1) < 2048) {j : Nat}
    (hj : j < rs.length) :
    (RaipalSoem.addAll e idx tx rs).2[j]? = some (.ofNat (frameFormat.total
      (d :: (ds ++ (rs.take j).map fun q => q.2.subframe idx q.1)) + 12)) := by
  induction rs generalizing tx d ds j with
  | nil => exact absurd hj (Nat.not_lt_zero j)
  | cons q rs ih =>
      obtain ⟨more, r⟩ := q
      have hdata := Request.length_data idx more r
      simp only [List.map_cons, ChainFormat.total_cons, frameFormat_size, hdata] at hfits
      have hnow : frameFormat.total (d :: ds) + 12 + r.length.toNat < 2048 := by
        simp
        omega
      cases j with
      | zero => simp [RaipalSoem.addAll, h.adddatagram_eq e idx more hnow]
      | succ j =>
          have hrest := ih (h.add e idx more hnow) (by simp [hdata]; omega)
            (j := j) (by simpa using hj)
          simpa [RaipalSoem.addAll] using hrest

/-- The calls leave the ethernet header alone. -/
theorem Built.addAll_header (e : Endian) (idx : UInt8) {tx : TxFrame} {d : Subframe}
    {ds : List Subframe} (rs : List (Bool × Request)) (h : Built tx (d :: ds))
    (hfits : frameFormat.total (d :: ds) +
      frameFormat.total (rs.map fun q => q.2.subframe idx q.1) < 2048) {a : Nat}
    (ha : a < ethHeaderSize) : (RaipalSoem.addAll e idx tx rs).1.frame a = tx.frame a := by
  induction rs generalizing tx d ds with
  | nil => rfl
  | cons q rs ih =>
      obtain ⟨more, r⟩ := q
      have hdata := Request.length_data idx more r
      simp only [List.map_cons, ChainFormat.total_cons, frameFormat_size, hdata] at hfits
      have hnow : frameFormat.total (d :: ds) + 12 + r.length.toNat < 2048 := by
        simp
        omega
      have hrest := ih (h.add e idx more hnow) (by simp [hdata]; omega)
      simp only [ethHeaderSize] at ha
      calc
        (RaipalSoem.addAll e idx tx ((more, r) :: rs)).1.frame a
        _ = (ecxAdddatagram e tx idx more r).1.frame a := hrest
        _ = announce e tx.frame r.length a := by
          rw [h.adddatagram_eq e idx more hnow]
          exact putRequest_apart e _ _ idx (Or.inl (by omega))
        _ = tx.frame a := by
          simp only [announce]
          rw [putWord_apart _ _ (by omega), putWord_apart _ _ (by omega)]

/-- The datagrams on the wire, with the length that counts them. -/
structure Carries (m : Memory UInt8) (ds : List Subframe) : Prop where
  laid : frameFormat.Laid m 16 ds
  elength : wordAt m 14 = ecEcatType + .ofNat (frameFormat.total ds)
  short : frameFormat.total ds < 2048

theorem elength_type {n : Nat} (h : n < 2048) : (ecEcatType + .ofNat n) >>> 12 = 1 := by
  apply UInt16.toNat_inj.mp
  have hsum : (ecEcatType + .ofNat n).toNat = 4096 + n := by
    rw [UInt16.toNat_add, UInt16.toNat_ofNat']
    simp [ecEcatType]
    omega
  rw [UInt16.toNat_shiftRight, hsum]
  simp [Nat.shiftRight_eq_div_pow]
  omega

theorem elength_count {n : Nat} (h : n < 2048) :
    ((ecEcatType + .ofNat n) &&& 0x07ff).toNat = n := by
  have hsum : (ecEcatType + .ofNat n).toNat = 4096 + n := by
    rw [UInt16.toNat_add, UInt16.toNat_ofNat']
    simp [ecEcatType]
    omega
  rw [UInt16.toNat_and, hsum]
  refine (Nat.and_two_pow_sub_one_eq_mod (4096 + n) 11).trans ?_
  omega

/-- Slaves find the datagrams of a frame exactly if each one but the last announces the next. -/
theorem Carries.decode_eq {m : Memory UInt8} {d : Subframe} {ds : List Subframe}
    (h : Carries m (d :: ds)) :
    decodeFrame m = if frameFormat.Closed (d :: ds) then some (d :: ds) else none := by
  have hlength := ChainFormat.length_le_total (F := frameFormat) (d :: ds)
  simp only [decodeFrame, ethHeaderSize, h.elength, elength_type h.short, elength_count h.short,
    if_true]
  exact h.laid.decode_eq hlength

theorem Built.carries {tx : TxFrame} {ds : List Subframe} (h : Built tx ds)
    (hshort : frameFormat.total ds < 2048) : Carries tx.frame ds :=
  ⟨h.laid, h.elength, hshort⟩

/-- What the calls of a frame build. -/
theorem buildFrame_built (e : Endian) (frame : Memory UInt8) (idx : UInt8) (r : Request)
    (rs : List (Bool × Request)) (hshort : frameFormat.total (requested idx r rs) < 2048) :
    Built (buildFrame e frame idx r rs).1 (requested idx r rs) := by
  have hdata := Request.length_data idx (!rs.isEmpty) r
  have hfirst := Request.length_data idx false r
  simp only [requested, ChainFormat.total_cons, frameFormat_size, hdata] at hshort
  have hsetup := ecxSetupdatagram_built e frame idx (r := r) (by omega)
  have hall := hsetup.addAll e idx rs (by simp [hfirst]; omega)
  simpa [buildFrame, requested, Request.subframe] using hall

theorem buildFrame_header (e : Endian) (frame : Memory UInt8) (idx : UInt8) (r : Request)
    (rs : List (Bool × Request)) (hshort : frameFormat.total (requested idx r rs) < 2048) {a : Nat}
    (ha : a < ethHeaderSize) : (buildFrame e frame idx r rs).1.frame a = frame a := by
  have hdata := Request.length_data idx (!rs.isEmpty) r
  have hfirst := Request.length_data idx false r
  simp only [requested, ChainFormat.total_cons, frameFormat_size, hdata] at hshort
  have hsetup := ecxSetupdatagram_built e frame idx (r := r) (by omega)
  have hall := hsetup.addAll_header e idx rs (by simp [hfirst]; omega) ha
  simp only [ethHeaderSize] at ha
  rw [buildFrame, hall, ecxSetupdatagram_frame,
    putRequest_apart e _ _ idx (Or.inl (by omega)), putWord_apart _ _ (by omega)]

theorem buildFrame_offsets (e : Endian) (frame : Memory UInt8) (idx : UInt8) (r : Request)
    (rs : List (Bool × Request)) (hshort : frameFormat.total (requested idx r rs) < 2048) {j : Nat}
    (hj : j < rs.length) :
    (buildFrame e frame idx r rs).2[j]? =
      some (.ofNat (frameFormat.total ((requested idx r rs).take (j + 1)) + 12)) := by
  have hdata := Request.length_data idx (!rs.isEmpty) r
  have hfirst := Request.length_data idx false r
  simp only [requested, ChainFormat.total_cons, frameFormat_size, hdata] at hshort
  have hsetup := ecxSetupdatagram_built e frame idx (r := r) (by omega)
  have hall := hsetup.addAll_offsets e idx rs (by simp [hfirst]; omega) hj
  rw [buildFrame, hall]
  simp [requested, hdata, hfirst, List.map_take]

/-- The data and the work counter of a datagram lie behind its header. -/
theorem read_of_readSubframe {m : Memory UInt8} {off : Nat} {d : Subframe}
    (h : readSubframe m off = d) : m.read (off + 10) d.data.length = d.data := by
  subst h
  simp [readSubframe]

theorem requested_closed (idx : UInt8) (r : Request) (rs : List (Bool × Request)) :
    frameFormat.Closed (requested idx r rs) ↔
      ∀ j (hj : j < rs.length), rs[j].1 = decide (j + 1 < rs.length) := by
  rw [ChainFormat.closed_iff]
  constructor
  · rintro ⟨-, h⟩ j hj
    simpa [requested, Request.subframe] using h (j + 1) (by simpa [requested] using hj)
  · intro h
    refine ⟨List.cons_ne_nil _ _, fun j hj => ?_⟩
    cases j with
    | zero =>
        cases rs with
        | nil => simp [requested, Request.subframe]
        | cons q rs => simp [requested, Request.subframe]
    | succ j =>
        have hnext := h j (by simpa [requested] using hj)
        simpa [requested, Request.subframe] using hnext

/-- The calls build a frame in which the slaves find exactly the requested datagrams, provided
that each added datagram has `more` set if and only if another one is added. The offsets that
the calls return lead to the data, in a frame without its ethernet header. -/
theorem buildFrame_decodes (e : Endian) (frame : Memory UInt8) (idx : UInt8) (r : Request)
    (rs : List (Bool × Request))
    (hfits : 16 + frameFormat.total (requested idx r rs) ≤ ecMaxEcatFrame) :
    let built := buildFrame e frame idx r rs
    built.1.txbuflength = 16 + frameFormat.total (requested idx r rs) ∧
    decodeFrame built.1.frame =
      (if ∀ j (hj : j < rs.length), rs[j].1 = decide (j + 1 < rs.length) then
        some (requested idx r rs) else none) ∧
    ∀ j (hj : j < rs.length), ∃ off, built.2[j]? = some off ∧
      built.1.frame.read (ethHeaderSize + off.toNat) rs[j].2.length.toNat =
        (rs[j].2.subframe idx rs[j].1).data := by
  have hshort : frameFormat.total (requested idx r rs) < 2048 := by
    unfold ecMaxEcatFrame at hfits
    omega
  have hbuilt := buildFrame_built e frame idx r rs hshort
  refine ⟨hbuilt.txbuflength, ?_, fun j hj => ⟨_, buildFrame_offsets e frame idx r rs hshort hj, ?_⟩⟩
  · rw [(hbuilt.carries hshort).decode_eq]
    exact if_congr (requested_closed idx r rs) rfl rfl
  · have hlen : j + 1 < (requested idx r rs).length := by simpa [requested] using hj
    have htake := frameFormat.total_take_le (requested idx r rs) (j + 1)
    have hdata := read_of_readSubframe (hbuilt.laid.parse_eq hlen)
    generalize frameFormat.total ((requested idx r rs).take (j + 1)) = n at htake hdata
    have hplace : ethHeaderSize + (UInt16.ofNat (n + 12)).toNat = 16 + n + 10 := by
      have hn : (UInt16.ofNat (n + 12)).toNat = n + 12 := Nat.mod_eq_of_lt (by omega)
      rw [hn]
      unfold ethHeaderSize
      omega
    rw [hplace]
    simpa [requested, Request.length_data] using hdata

/-- A write of two bytes to a slave, and two reads that follow it. -/
def threeRequests : Request × List (Bool × Request) :=
  ({ com := 0x05, ADP := 0x1001, ADO := 0x0120, length := 2, data := fun a => .ofNat (7 + a) },
    [(true, { com := ecCmdFprd, ADP := 0x1001, ADO := 0x0130, length := 6, data := fun _ => 0 }),
      (false, { com := ecCmdFprd, ADP := 0x1002, ADO := 0x0130, length := 6, data := fun _ => 0 })])

theorem buildFrame_decodes_three :
    decodeFrame (buildFrame .big (fun _ => 0xee) 5 threeRequests.1 threeRequests.2).1.frame =
      some (requested 5 threeRequests.1 threeRequests.2) :=
  (buildFrame_decodes .big (fun _ => 0xee) 5 threeRequests.1 threeRequests.2
    (by decide)).2.1.trans (if_pos (by decide))

end RaipalSoem

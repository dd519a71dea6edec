import RaipalSoem.Lib.Memory
import Mathlib.Data.Nat.Digits.Defs
import Mathlib.Tactic.IntervalCases

/-!
# Typed access to the process image

`EthercatSlave` reads and writes integers of the process image with `memcpy`
and the byte-order macros of `ethercattype.h`. An address is an offset from
`IOmap_`, so an image also covers what lies beyond the buffer.
-/

namespace RaipalSoem

open Lib

/-- The memory that holds the process image, addressed from `&IOmap_[0]`. -/
abbrev Image := Memory UInt8

/-- `sizeof(EthercatMaster::IOmap_)`. -/
def ioMapSize : Nat := 4096

/-- Byte order of the host together with the matching `EC_*_ENDIAN` build. -/
inductive Endian
  | little
  | big
  deriving DecidableEq, Repr

/-- Byte `i` of a word, counted from the least significant one. -/
def byteOf {w : Nat} (v : BitVec w) (i : Nat) : UInt8 :=
  UInt8.ofBitVec (v.extractLsb' (8 * i) 8)

/-- The bytes of a word, least significant first. -/
def leBytes (n : Nat) (v : BitVec (8 * n)) : List UInt8 :=
  (List.range n).map (byteOf v)

/-- The word with the given bytes, least significant first. -/
def ofLeBytes (n : Nat) (bs : List UInt8) : BitVec (8 * n) :=
  BitVec.ofNat (8 * n) (bs.foldr (fun b acc => b.toNat + 256 * acc) 0)

/-- The bytes of a word in the order in which the host keeps them. -/
def hostBytes (e : Endian) (n : Nat) (v : BitVec (8 * n)) : List UInt8 :=
  match e with
  | .little => leBytes n v
  | .big => (leBytes n v).reverse

/-- The word that the host sees in the given bytes. -/
def ofHostBytes (e : Endian) (n : Nat) (bs : List UInt8) : BitVec (8 * n) :=
  match e with
  | .little => ofLeBytes n bs
  | .big => ofLeBytes n bs.reverse

/-- `htoes`, which is also `etohs`. -/
def htoes (e : Endian) (a : BitVec 16) : BitVec 16 :=
  match e with
  | .little => a
  | .big => ((a &&& 0xff00#16) >>> 8) ||| ((a &&& 0x00ff#16) <<< 8)

/-- `htoel`, which is also `etohl`. -/
def htoel (e : Endian) (a : BitVec 32) : BitVec 32 :=
  match e with
  | .little => a
  | .big =>
      ((a &&& 0xff000000#32) >>> 24) ||| ((a &&& 0x00ff0000#32) >>> 8) |||
        ((a &&& 0x0000ff00#32) <<< 8) ||| ((a &&& 0x000000ff#32) <<< 24)

/-- `EthercatSlave::rd_s32`. -/
def rdS32 (e : Endian) (m : Image) (b off : Nat) : Int32 :=
  Int32.ofBitVec (htoel e (ofHostBytes e 4 (m.read (b + off) 4)))

/-- `EthercatSlave::rd_s16`. -/
def rdS16 (e : Endian) (m : Image) (b off : Nat) : Int16 :=
  Int16.ofBitVec (htoes e (ofHostBytes e 2 (m.read (b + off) 2)))

/-- `EthercatSlave::rd_u8`. -/
def rdU8 (m : Image) (b off : Nat) : UInt8 := m (b + off)

/-- `EthercatSlave::wr_s32`. -/
def wrS32 (e : Endian) (m : Image) (b off : Nat) (v : Int32) : Image :=
  m.write (b + off) (hostBytes e 4 (htoel e v.toBitVec))

/-- `EthercatSlave::wr_s16`. -/
def wrS16 (e : Endian) (m : Image) (b off : Nat) (v : Int16) : Image :=
  m.write (b + off) (hostBytes e 2 (htoes e v.toBitVec))

/-- `EthercatSlave::wr_u8`. -/
def wrU8 (m : Image) (b off : Nat) (v : UInt8) : Image := m.write (b + off) [v]

@[simp] theorem leBytes_length (n : Nat) (v : BitVec (8 * n)) : (leBytes n v).length = n := by
  simp [leBytes]

section ByteOrder

theorem byteOf_congr {w w' : Nat} {v : BitVec w} {v' : BitVec w'} {i j : Nat}
    (h : ∀ k < 8, v.getLsbD (8 * i + k) = v'.getLsbD (8 * j + k)) : byteOf v i = byteOf v' j := by
  unfold byteOf
  congr 1
  ext k hk
  simpa [BitVec.getElem_extractLsb'] using h k hk

theorem byteOf_htoes_big (v : BitVec 16) {i : Nat} (hi : i < 2) :
    byteOf (htoes .big v) i = byteOf v (1 - i) := by
  apply byteOf_congr
  intro k hk
  unfold htoes
  interval_cases i <;> interval_cases k <;> simp

theorem byteOf_htoel_big (v : BitVec 32) {i : Nat} (hi : i < 4) :
    byteOf (htoel .big v) i = byteOf v (3 - i) := by
  apply byteOf_congr
  intro k hk
  unfold htoel
  interval_cases i <;> interval_cases k <;> simp

/-- Both builds store a 16-bit word least significant byte first. -/
theorem hostBytes_htoes (e : Endian) (v : BitVec 16) :
    hostBytes e 2 (htoes e v) = leBytes 2 v := by
  cases e with
  | little => rfl
  | big =>
      calc
        (leBytes 2 (htoes .big v)).reverse =
            [byteOf (htoes .big v) 1, byteOf (htoes .big v) 0] := rfl
        _ = [byteOf v 0, byteOf v 1] := by
          rw [byteOf_htoes_big v (by decide), byteOf_htoes_big v (by decide)]
        _ = leBytes 2 v := rfl

/-- Both builds store a 32-bit word least significant byte first. -/
theorem hostBytes_htoel (e : Endian) (v : BitVec 32) :
    hostBytes e 4 (htoel e v) = leBytes 4 v := by
  cases e with
  | little => rfl
  | big =>
      calc
        (leBytes 4 (htoel .big v)).reverse =
            [byteOf (htoel .big v) 3, byteOf (htoel .big v) 2, byteOf (htoel .big v) 1,
              byteOf (htoel .big v) 0] := rfl
        _ = [byteOf v 0, byteOf v 1, byteOf v 2, byteOf v 3] := by
          rw [byteOf_htoel_big v (by decide), byteOf_htoel_big v (by decide),
            byteOf_htoel_big v (by decide), byteOf_htoel_big v (by decide)]
        _ = leBytes 4 v := rfl

end ByteOrder

section Bytes

/-- A byte of a word is a digit of its value to base 256. -/
theorem toNat_byteOf {w : Nat} (v : BitVec w) (i : Nat) :
    (byteOf v i).toNat = v.toNat / 256 ^ i % 256 := by
  have hpow : (256 : Nat) ^ i = 2 ^ (8 * i) := by rw [Nat.pow_mul]
  rw [byteOf, UInt8.toNat_ofBitVec, BitVec.extractLsb'_toNat, Nat.shiftRight_eq_div_pow, hpow]

/-- The value of some bytes, least significant first. -/
theorem foldr_bytes (bs : List UInt8) :
    bs.foldr (fun b acc => b.toNat + 256 * acc) 0 = Nat.ofDigits 256 (bs.map UInt8.toNat) := by
  rw [Nat.ofDigits_eq_foldr, List.foldr_map]
  simp

theorem mem_bytes_lt (bs : List UInt8) : ∀ d ∈ bs.map UInt8.toNat, d < 256 := by
  intro d hd
  obtain ⟨b, _, rfl⟩ := List.mem_map.mp hd
  exact b.toNat_lt

theorem ofDigits_bytes_lt (bs : List UInt8) :
    Nat.ofDigits 256 (bs.map UInt8.toNat) < 256 ^ bs.length := by
  have h := Nat.ofDigits_lt_base_pow_length (by decide) (mem_bytes_lt bs)
  rwa [List.length_map] at h

/-- A word has the bytes that it was made from. -/
theorem leBytes_ofLeBytes {n : Nat} {bs : List UInt8} (h : bs.length = n) :
    leBytes n (ofLeBytes n bs) = bs := by
  have hpow : (2 : Nat) ^ (8 * n) = 256 ^ bs.length := by rw [Nat.pow_mul, h]
  apply List.ext_getElem (by rw [leBytes_length, h])
  intro i _ hi
  apply UInt8.toNat_inj.mp
  simp only [leBytes, List.getElem_map, List.getElem_range]
  rw [toNat_byteOf, ofLeBytes, BitVec.toNat_ofNat, foldr_bytes, hpow,
    Nat.mod_eq_of_lt (ofDigits_bytes_lt bs),
    Nat.ofDigits_div_pow_eq_ofDigits_drop i (by decide) _ (mem_bytes_lt bs), ← List.map_drop,
    List.drop_eq_getElem_cons hi, List.map_cons, Nat.ofDigits_cons]
  have := bs[i].toNat_lt
  omega

/-- Two words with the same bytes are equal. -/
theorem leBytes_injective (n : Nat) : Function.Injective (leBytes n) := by
  intro v v' h
  have hbyte : ∀ i < n, byteOf v i = byteOf v' i := by
    intro i hi
    have hget := congrArg (·[i]?) h
    simpa [leBytes, hi] using hget
  apply BitVec.eq_of_getLsbD_eq
  intro k hk
  have hbits := congrArg (fun b : UInt8 => b.toBitVec.getLsbD (k % 8))
    (hbyte (k / 8) (by omega))
  have hsum : 8 * (k / 8) + k % 8 = k := Nat.div_add_mod k 8
  simpa [byteOf, Nat.mod_lt, hsum] using hbits

/-- A word is the one with its bytes. -/
theorem ofLeBytes_leBytes {n : Nat} (v : BitVec (8 * n)) : ofLeBytes n (leBytes n v) = v :=
  leBytes_injective n (leBytes_ofLeBytes (leBytes_length n v))

/-- A byte order that stores words least significant byte first also loads them so. -/
theorem load_of_store {e : Endian} {n : Nat} {swap : BitVec (8 * n) → BitVec (8 * n)}
    (hstore : ∀ v, hostBytes e n (swap v) = leBytes n v) {bs : List UInt8} (h : bs.length = n) :
    swap (ofHostBytes e n bs) = ofLeBytes n bs := by
  apply leBytes_injective n
  rw [leBytes_ofLeBytes h]
  have hbytes := hstore (ofHostBytes e n bs)
  cases e with
  | little => exact hbytes.trans (leBytes_ofLeBytes h)
  | big =>
      have hreverse : leBytes n (ofLeBytes n bs.reverse) = bs.reverse :=
        leBytes_ofLeBytes (by rw [List.length_reverse, h])
      exact List.reverse_inj.mp (hbytes.trans hreverse)

theorem hostBytes_injective (e : Endian) (n : Nat) : Function.Injective (hostBytes e n) := by
  cases e with
  | little => exact leBytes_injective n
  | big => exact List.reverse_injective.comp (leBytes_injective n)

/-- A word has, in the host's order too, the bytes that it was loaded from. -/
theorem hostBytes_ofHostBytes (e : Endian) {n : Nat} {bs : List UInt8} (h : bs.length = n) :
    hostBytes e n (ofHostBytes e n bs) = bs := by
  cases e with
  | little => exact leBytes_ofLeBytes h
  | big =>
      have hreverse : leBytes n (ofLeBytes n bs.reverse) = bs.reverse :=
        leBytes_ofLeBytes (by rw [List.length_reverse, h])
      rw [hostBytes, ofHostBytes, hreverse, List.reverse_reverse]

/-- Comparing a word as it lies in memory with a converted value compares the values. -/
theorem ofHostBytes_eq_iff {e : Endian} {n : Nat} {swap : BitVec (8 * n) → BitVec (8 * n)}
    (hstore : ∀ v, hostBytes e n (swap v) = leBytes n v) {bs : List UInt8} (h : bs.length = n)
    (v : BitVec (8 * n)) : ofHostBytes e n bs = swap v ↔ ofLeBytes n bs = v := by
  rw [← (hostBytes_injective e n).eq_iff, hostBytes_ofHostBytes e h, hstore,
    ← (leBytes_injective n).eq_iff, leBytes_ofLeBytes h]

/-- Both builds load a 16-bit word least significant byte first. -/
theorem htoes_ofHostBytes (e : Endian) {bs : List UInt8} (h : bs.length = 2) :
    htoes e (ofHostBytes e 2 bs) = ofLeBytes 2 bs :=
  load_of_store (n := 2) (hostBytes_htoes e) h

/-- Both builds load a 32-bit word least significant byte first. -/
theorem htoel_ofHostBytes (e : Endian) {bs : List UInt8} (h : bs.length = 4) :
    htoel e (ofHostBytes e 4 bs) = ofLeBytes 4 bs :=
  load_of_store (n := 4) (hostBytes_htoel e) h

/-- An integer is read from its little-endian bytes. -/
theorem rdS32_of_bytes (e : Endian) {m : Image} {b off : Nat} {v : Int32}
    (h : m.read (b + off) 4 = leBytes 4 v.toBitVec) : rdS32 e m b off = v := by
  rw [rdS32, htoel_ofHostBytes e (Memory.read_length _ _ _), h, ofLeBytes_leBytes,
    Int32.ofBitVec_toBitVec]

theorem rdS16_of_bytes (e : Endian) {m : Image} {b off : Nat} {v : Int16}
    (h : m.read (b + off) 2 = leBytes 2 v.toBitVec) : rdS16 e m b off = v := by
  rw [rdS16, htoes_ofHostBytes e (Memory.read_length _ _ _), h, ofLeBytes_leBytes,
    Int16.ofBitVec_toBitVec]

end Bytes

end RaipalSoem

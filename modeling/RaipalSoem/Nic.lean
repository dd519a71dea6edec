import Mathlib.Data.Finset.Card
import Mathlib.Data.Finset.Range
import Mathlib.Data.List.GetD
import Mathlib.Data.List.Nodup
import RaipalSoem.EthercatType
import RaipalSoem.Lib.Memory

/-!
# The frame buffers of the network driver

A port has sixteen frame buffers. `ecx_getindex` hands out an index, `ecx_outframe` sends
the frame of an index and `ecx_inframe` looks for its answer. Several tasks use the port at
the same time, so an answer can be taken off the socket by a task that waits for another
one; it is then stored for its own task.
-/

namespace RaipalSoem

open Lib

/-- `EC_OTHERFRAME`: unknown frame received. -/
def ecOtherFrame : Int := -2

/-- `ETH_HEADERSIZE`: two addresses and the type. -/
def ethHeaderSize : Nat := 14

/-- `ec_bufstate`: the states of a receive buffer. -/
inductive BufStat
  | empty
  | alloc
  | tx
  | rcvd
  | complete
  deriving DecidableEq, Repr

/-- `ec_stackT` without the socket and the transmit buffers, which both stacks share. -/
structure EcStack where
  rxbufstat : Nat → BufStat
  rxbuf : Nat → Memory UInt8
  rxsa : Nat → UInt16
  tempbuf : Memory UInt8

/-- The type field of an ethernet frame is `ETH_P_ECAT`. -/
def isEcat (frame : Memory UInt8) : Bool := frame 12 == 0x88 && frame 13 == 0xA4

/-- `etohs(ecp->elength) & 0x0fff`. -/
def comLength (frame : Memory UInt8) : Nat :=
  ((frame ethHeaderSize).toNat + 256 * (frame (ethHeaderSize + 1)).toNat) &&& 0x0fff

/-- `ecp->index`. -/
def comIndex (frame : Memory UInt8) : Nat := (frame (ethHeaderSize + 3)).toNat

/-- `ntohs(ehp->sa1)`: the middle word of the source address. -/
def sourceWord (frame : Memory UInt8) : UInt16 :=
  UInt16.ofNat (256 * (frame 8).toNat + (frame 9).toNat)

/-- The datagram length that a receive buffer starts with. -/
def rxLength (rxbuf : Memory UInt8) : Nat :=
  (rxbuf 0).toNat + ((rxbuf 1 &&& 0x0f).toNat <<< 8)

/-- The work counter behind `l` bytes of a receive buffer. -/
def rxWkc (rxbuf : Memory UInt8) (l : Nat) : Int :=
  (rxbuf l).toNat + ((rxbuf (l + 1)).toNat <<< 8)

/-- `ecx_recvpkt`: what the socket has goes to the temporary buffer. -/
def ecxRecvpkt (s : EcStack) (recv : Option (List UInt8)) : Option EcStack :=
  match recv with
  | none => none
  | some bytes =>
      if 0 < bytes.length then
        some { s with tempbuf := s.tempbuf.write 0 (bytes.take ecMaxEcatFrame) }
      else none

/-- Strip the ethernet header from the temporary buffer into the buffer of an index. -/
def storeFrame (txbuflength : Nat → Nat) (s : EcStack) (idx : Nat) (stat : BufStat) : EcStack :=
  { s with
    rxbuf := Function.update s.rxbuf idx ((s.rxbuf idx).write 0
      (s.tempbuf.read ethHeaderSize (txbuflength idx - ethHeaderSize)))
    rxbufstat := Function.update s.rxbufstat idx stat
    rxsa := Function.update s.rxsa idx (sourceWord s.tempbuf) }

/-- `ecx_inframe`: the answer for an index, from its buffer or from the socket. -/
def ecxInframe (txbuflength : Nat → Nat) (s : EcStack) (idx : Nat)
    (recv : Option (List UInt8)) : EcStack × Int :=
  if idx < ecMaxBuf ∧ s.rxbufstat idx = .rcvd then
    ({ s with rxbufstat := Function.update s.rxbufstat idx .complete },
      rxWkc (s.rxbuf idx) (rxLength (s.rxbuf idx)))
  else
    match ecxRecvpkt s recv with
    | none => (s, ecNoFrame)
    | some s =>
        if isEcat s.tempbuf then
          let idxf := comIndex s.tempbuf
          if idxf = idx then
            let s' := storeFrame txbuflength s idx .complete
            (s', rxWkc (s'.rxbuf idx) (comLength s.tempbuf))
          else if idxf < ecMaxBuf ∧ s.rxbufstat idxf = .tx then
            (storeFrame txbuflength s idxf .rcvd, ecOtherFrame)
          else (s, ecOtherFrame)
        else (s, ecOtherFrame)

/-- `ecx_outframe`: the buffer waits for an answer if the frame could be sent. -/
def ecxOutframe (s : EcStack) (idx : Nat) (sent : Bool) : EcStack :=
  { s with rxbufstat := Function.update s.rxbufstat idx (if sent then .tx else .empty) }

/-- `ecx_setbufstat`. -/
def ecxSetbufstat (s : EcStack) (idx : Nat) (bufstat : BufStat) : EcStack :=
  { s with rxbufstat := Function.update s.rxbufstat idx bufstat }

/-- The index after `idx`. -/
def nextIndex (idx : Nat) : Nat := if ecMaxBuf ≤ idx + 1 then 0 else idx + 1

/-- The search for an unused index, at most `cnt` steps on from `idx`. -/
def searchIndex (rxbufstat : Nat → BufStat) : Nat → Nat → Nat
  | 0, idx => idx
  | cnt + 1, idx =>
      if rxbufstat idx ≠ .empty then searchIndex rxbufstat cnt (nextIndex idx) else idx

/-- `ecx_getindex`: the new index and the buffers. -/
def ecxGetindex (s : EcStack) (lastidx : Nat) : Nat × EcStack :=
  let idx := searchIndex s.rxbufstat ecMaxBuf (nextIndex lastidx)
  (idx, ecxSetbufstat s idx .alloc)

/-- One step of some task. -/
inductive NicAction
  | getindex
  | setup (idx len : Nat)
  | outframe (idx : Nat) (sent : Bool)
  | inframe (idx : Nat) (recv : Option (List UInt8))
  | release (idx : Nat)

/-- A port in single mode; `held` lists the indices that tasks have got and not yet given
back. -/
structure NicState where
  stack : EcStack
  txbuflength : Nat → Nat
  lastidx : Nat
  held : List Nat

/-- The port after `ecx_setupnic`. -/
def nicSetup (rxbuf : Nat → Memory UInt8) (rxsa : Nat → UInt16) (tempbuf : Memory UInt8)
    (txbuflength : Nat → Nat) : NicState where
  stack := ⟨fun _ => .empty, rxbuf, rxsa, tempbuf⟩
  txbuflength := txbuflength
  lastidx := 0
  held := []

/-- The steps do what the driver functions do. -/
def nicStep (s : NicState) : NicAction → NicState
  | .getindex =>
      let (idx, stack) := ecxGetindex s.stack s.lastidx
      { s with stack := stack, lastidx := idx, held := idx :: s.held }
  | .setup idx len => { s with txbuflength := Function.update s.txbuflength idx len }
  | .outframe idx sent => { s with stack := ecxOutframe s.stack idx sent }
  | .inframe idx recv => { s with stack := (ecxInframe s.txbuflength s.stack idx recv).1 }
  | .release idx =>
      { s with stack := ecxSetbufstat s.stack idx .empty, held := s.held.erase idx }

/-- The bytes of a received frame. -/
def frameOf (bytes : List UInt8) : Memory UInt8 := fun i => bytes.getD i 0

/-- What the socket brings: whole ethernet frames, and a frame whose index has been sent
comes back with the length it was sent with, its length field counting the datagrams. -/
structure Arrives (s : NicState) (bytes : List UInt8) : Prop where
  header : ethHeaderSize + 4 ≤ bytes.length
  fits : bytes.length ≤ ecMaxEcatFrame
  answer : isEcat (frameOf bytes) = true →
    s.stack.rxbufstat (comIndex (frameOf bytes)) = .tx →
    s.txbuflength (comIndex (frameOf bytes)) ≤ bytes.length ∧
      ethHeaderSize + comLength (frameOf bytes) + 2 ≤ s.txbuflength (comIndex (frameOf bytes))

/-- The use that tasks make of the driver: at most sixteen indices at a time, frames are
built before they are sent, sending succeeds, and only the task that holds an index waits
for its answer, until it has it. A buffered answer is taken without reading the socket. -/
def NicLegal (s : NicState) : NicAction → Prop
  | .getindex => s.held.length < ecMaxBuf
  | .setup idx _ => idx ∈ s.held ∧ s.stack.rxbufstat idx = .alloc
  | .outframe idx sent => idx ∈ s.held ∧ sent = true
  | .inframe idx recv =>
      idx ∈ s.held ∧
        (s.stack.rxbufstat idx = .rcvd ∧ recv = none ∨
          s.stack.rxbufstat idx = .tx ∧ ∀ bytes, recv = some bytes → Arrives s bytes)
  | .release idx => idx ∈ s.held

/-- Steps of any tasks in any order. -/
inductive NicRun (start : NicState) : List NicAction → NicState → Prop
  | start : NicRun start [] start
  | step {as : List NicAction} {s : NicState} {a : NicAction} (run : NicRun start as s)
      (legal : NicLegal s a) : NicRun start (as ++ [a]) (nicStep s a)

/-- The effect of a step on the answer to index `idx`: sending asks anew, and the first
frame with this index that some task takes off the socket is the answer. -/
def replyStep (idx : Nat) (reply : Option (List UInt8)) : NicAction → Option (List UInt8)
  | .outframe i _ => if i = idx then none else reply
  | .inframe _ (some bytes) =>
      if reply = none ∧ isEcat (frameOf bytes) = true ∧ comIndex (frameOf bytes) = idx then
        some bytes
      else reply
  | _ => reply

/-- The answer to the frame of index `idx` in a history. -/
def replyOf (idx : Nat) (as : List NicAction) : Option (List UInt8) :=
  as.foldl (replyStep idx) none

@[simp] theorem replyOf_concat (idx : Nat) (as : List NicAction) (a : NicAction) :
    replyOf idx (as ++ [a]) = replyStep idx (replyOf idx as) a := by
  simp [replyOf]

theorem nextIndex_eq {idx : Nat} (h : idx < ecMaxBuf) : nextIndex idx = (idx + 1) % ecMaxBuf := by
  by_cases hlast : ecMaxBuf ≤ idx + 1
  · have hend : idx + 1 = ecMaxBuf := by omega
    rw [nextIndex, if_pos hlast, hend, Nat.mod_self]
  · rw [nextIndex, if_neg hlast, Nat.mod_eq_of_lt (by omega)]

theorem searchIndex_lt (rxbufstat : Nat → BufStat) (cnt : Nat) {idx : Nat}
    (h : idx < ecMaxBuf) : searchIndex rxbufstat cnt idx < ecMaxBuf := by
  induction cnt generalizing idx with
  | zero => exact h
  | succ cnt ih =>
      simp only [searchIndex]
      split_ifs
      · rw [nextIndex_eq h]
        exact ih (Nat.mod_lt _ (by decide))
      · exact h

/-- The search finds an unused index when there is one among those it looks at. -/
theorem searchIndex_empty {rxbufstat : Nat → BufStat} {cnt idx k : Nat} (h : idx < ecMaxBuf)
    (hk : k < cnt) (hempty : rxbufstat ((idx + k) % ecMaxBuf) = .empty) :
    rxbufstat (searchIndex rxbufstat cnt idx) = .empty := by
  induction cnt generalizing idx k with
  | zero => omega
  | succ cnt ih =>
      simp only [searchIndex]
      split_ifs with hused
      · cases k with
        | zero =>
            rw [Nat.add_zero, Nat.mod_eq_of_lt h] at hempty
            exact absurd hempty hused
        | succ k =>
            rw [nextIndex_eq h]
            apply ih (Nat.mod_lt _ (by decide)) (Nat.lt_of_succ_lt_succ hk)
            rw [Nat.mod_add_mod]
            have hsum : idx + 1 + k = idx + (k + 1) := by omega
            rwa [hsum]
      · simpa using hused

/-- `ecx_getindex` finds an unused index when there is one at all. -/
theorem ecxGetindex_empty {s : EcStack} {lastidx i : Nat} (hlast : lastidx < ecMaxBuf)
    (hi : i < ecMaxBuf) (hempty : s.rxbufstat i = .empty) :
    (ecxGetindex s lastidx).1 < ecMaxBuf ∧
      s.rxbufstat (ecxGetindex s lastidx).1 = .empty := by
  have hnext : nextIndex lastidx < ecMaxBuf := by
    rw [nextIndex_eq hlast]
    exact Nat.mod_lt _ (by decide)
  refine ⟨searchIndex_lt _ _ hnext, ?_⟩
  have hreach : (nextIndex lastidx + (i + ecMaxBuf - nextIndex lastidx) % ecMaxBuf) % ecMaxBuf =
      i := by
    simp only [ecMaxBuf] at *
    omega
  exact searchIndex_empty hnext (Nat.mod_lt _ (by decide)) (by rw [hreach]; exact hempty)

/-- With fewer than sixteen indices in use one is free. -/
theorem exists_free {held : List Nat} (h : held.length < ecMaxBuf) :
    ∃ i < ecMaxBuf, i ∉ held := by
  have hcard : held.toFinset.card < (Finset.range ecMaxBuf).card := by
    rw [Finset.card_range]
    exact lt_of_le_of_lt (List.toFinset_card_le held) h
  obtain ⟨i, hi, hfree⟩ := Finset.exists_mem_notMem_of_card_lt_card hcard
  exact ⟨i, Finset.mem_range.mp hi, by simpa using hfree⟩

end RaipalSoem

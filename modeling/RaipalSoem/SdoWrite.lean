import RaipalSoem.Frame
import RaipalSoem.SdoRead

/-!
# Writing service data objects

`ecx_SDOwrite`. Up to four bytes go into the request itself; anything longer is announced with
its size and sent in pieces that fit the mailbox. Every request is placed in the mailbox of the
slave and a reply is fetched from it; what the slave does with it is up to the surroundings.
-/

namespace RaipalSoem

open Lib

/-- `ECT_SDO_DOWN_INIT`. -/
def ectSdoDownInit : UInt8 := 0x21

/-- `ECT_SDO_DOWN_EXP`. -/
def ectSdoDownExp : UInt8 := 0x23

/-- `ECT_SDO_DOWN_INIT_CA`. -/
def ectSdoDownInitCa : UInt8 := 0x31

/-- The variables of `ecx_SDOwrite` that matter across a request: the surroundings, the work
counter, the mailbox counter of the slave, `MbxOut` and the errors pushed. -/
structure SdoWriter (σ : Type*) where
  slave : σ
  wkc : Int
  mbxCnt : UInt8
  mbxOut : Mailbox
  errors : List EcError

namespace SdoWriter

variable {σ : Type*} (e : Endian) (w : SdoWriter σ)

/-- The mailbox header and the CoE header of a request, with a fresh mailbox count, and its
command. -/
def header (length : UInt16) (command : UInt8) : SdoWriter σ :=
  let cnt := ecNextMbxCnt w.mbxCnt
  let m := putWord e w.mbxOut 0 length
  let m := putWord e m 2 0x0000
  let m := m.write 4 [0x00, ectMbxtCoe + (cnt <<< 4)]
  let m := putWord e m 6 (ectCoesSdoReq <<< 12)
  { w with mbxCnt := cnt, mbxOut := m.write 8 [command] }

/-- `SDOp->Index` and `SDOp->SubIndex`. -/
def target (index : UInt16) (subIndex : UInt8) : SdoWriter σ :=
  { w with mbxOut := (putWord e w.mbxOut 9 index).write 11 [subIndex] }

/-- `SDOp->ldata[0] = htoel(psize)`. -/
def size (psize : Nat) : SdoWriter σ :=
  { w with mbxOut := w.mbxOut.write 12 (hostBytes e 4 (htoel e (.ofNat 32 psize))) }

/-- `memcpy` into `MbxOut`, which must not reach beyond the buffer. -/
def copyData (off : Nat) (hp : List UInt8) : Option (SdoWriter σ) :=
  if off + hp.length ≤ ecMaxMbx + 1 then some { w with mbxOut := w.mbxOut.write off hp } else none

/-- `ecx_mbxsend`, and `ecx_mbxreceive` if that has worked; a reply if both have. -/
def exchange (step : σ → Mailbox → σ × MbxExchange) : SdoWriter σ × Option Mailbox :=
  let (slave, x) := step w.slave w.mbxOut
  if 0 < x.sendWkc then
    ({ w with slave := slave, wkc := x.receiveWkc },
      if 0 < x.receiveWkc then some x.mbxIn else none)
  else ({ w with slave := slave, wkc := x.sendWkc }, none)

/-- Give up on a reply that is an abort, or not the one expected. -/
def unexpected (index : UInt16) (subIndex : UInt8) (mbxIn : Mailbox) : SdoWriter σ :=
  { w with
    wkc := 0
    errors := w.errors ++ [
      if mbxCommand mbxIn = ectSdoAbort then .sdoError index subIndex (mbxLdata e mbxIn)
      else .packetError index subIndex 1] }

/-- The reply is an SDO response to the object of the request. -/
def Expected (mbxIn : Mailbox) : Prop :=
  isSdoResponse e mbxIn ∧ mbxIn.read 9 2 = w.mbxOut.read 9 2 ∧ mbxIn 11 = w.mbxOut 11

instance (mbxIn : Mailbox) : Decidable (w.Expected e mbxIn) :=
  inferInstanceAs (Decidable (_ ∧ _ ∧ _))

end SdoWriter

/-- The length field of a segment: a last one with fewer than seven bytes has minimum size. -/
def segmentLength (notLast : Bool) (framedatasize : Nat) : UInt16 :=
  if !notLast ∧ framedatasize < 7 then 0x0a else .ofNat (framedatasize + 3)

/-- The command of a segment without its toggle bit. -/
def segmentCommand (notLast : Bool) (framedatasize : Nat) : UInt8 :=
  if notLast then 0x00
  else if framedatasize < 7 then (0x01 : UInt8) + .ofNat ((7 - framedatasize) <<< 1) else 0x01

section Write

variable {σ : Type*} (e : Endian) (step : σ → Mailbox → σ × MbxExchange) (index : UInt16)
  (subIndex : UInt8)

/-- One round of `while (NotLast)`, for the bytes `hp`, and what `NotLast` is afterwards. The
reply to a segment that is lost is not missed. -/
def sendSegment (toggle : UInt8) (w : SdoWriter σ) (notLast : Bool) (hp : List UInt8) :
    Option (SdoWriter σ × Bool) :=
  let w := w.header e (segmentLength notLast hp.length)
    (segmentCommand notLast hp.length + toggle)
  (w.copyData 9 hp).map fun w =>
    match w.exchange step with
    | (w, none) => (w, notLast)
    | (w, some mbxIn) =>
        if isSdoResponse e mbxIn ∧ mbxCommand mbxIn &&& 0xe0 = 0x20 then (w, notLast)
        else (w.unexpected e index subIndex mbxIn, false)

/-- `while (NotLast)`, with the bytes from `hp` on; `maxdata` is the one before 7 is added. -/
def downloadSegments (maxdata : Nat) (toggle : UInt8) (w : SdoWriter σ) (hp : List UInt8) :
    Option (SdoWriter σ) :=
  if maxdata + 7 < hp.length then
    match sendSegment e step index subIndex toggle w true (hp.take (maxdata + 7)) with
    | none => none
    | some (w, true) => downloadSegments maxdata (toggle ^^^ 0x10) w (hp.drop (maxdata + 7))
    | some (w, false) => some w
  else (sendSegment e step index subIndex toggle w false hp).map Prod.fst
termination_by hp.length
decreasing_by
  rw [List.length_drop]
  omega

/-- The branch for small data. -/
def expeditedDownload (w : SdoWriter σ) (p : List UInt8) : Option (SdoWriter σ) :=
  let w := w.header e 0x000a (ectSdoDownExp ||| (UInt8.ofNat ((4 - p.length) <<< 2) &&& 0x0c))
  ((w.target e index subIndex).copyData 12 p).map fun w =>
    match w.exchange step with
    | (w, none) => w
    | (w, some mbxIn) =>
        if w.Expected e mbxIn then w else w.unexpected e index subIndex mbxIn

/-- The branch for large data and complete access. -/
def normalDownload (maxdata : Int) (ca : Bool) (w : SdoWriter σ) (p : List UInt8) :
    Option (SdoWriter σ) :=
  let notLast := maxdata < p.length
  let framedatasize := if notLast then maxdata else p.length
  if framedatasize < 0 then none
  else
    let framedatasize := framedatasize.toNat
    let w := w.header e (.ofNat (0x0a + framedatasize)) (if ca then ectSdoDownInitCa else ectSdoDownInit)
    let w := w.target e index (if ca ∧ 1 < subIndex then 1 else subIndex)
    ((w.size e p.length).copyData 16 (p.take framedatasize)).bind fun w =>
      match w.exchange step with
      | (w, none) => some w
      | (w, some mbxIn) =>
          if w.Expected e mbxIn then
            if notLast then
              downloadSegments e step index subIndex framedatasize 0 w (p.drop framedatasize)
            else some w
          else some (w.unexpected e index subIndex mbxIn)

/-- `ecx_SDOwrite` of the bytes `p` to a slave with mailboxes of `mbxL` bytes. The call that
empties the mailbox before the request is left out: its buffer is cleared before it is read. -/
def ecxSdoWrite (mbxL : UInt16) (mbxCnt : UInt8) (ca : Bool) (p : List UInt8) (s : σ) :
    Option (SdoWriter σ) :=
  let w : SdoWriter σ :=
    { slave := s, wkc := 0, mbxCnt := mbxCnt, mbxOut := fun _ => 0, errors := [] }
  if p.length ≤ 4 ∧ !ca then expeditedDownload e step index subIndex w p
  else normalDownload e step index subIndex ((mbxL.toNat : Int) - 0x10) ca w p

end Write

end RaipalSoem

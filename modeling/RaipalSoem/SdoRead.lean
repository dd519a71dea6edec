import RaipalSoem.Conversions
import RaipalSoem.EthercatType
import RaipalSoem.ProcessImage
import RaipalSoem.Lib.Overlay

/-!
# Reading service data objects

`ecx_SDOread` and the helpers of `EthercatSlave` over it. A request is placed in the
mailbox of the slave and a reply is fetched from it; what both calls return, and what the
reply holds, is data of the surroundings. A call that still waits for a reply has no result
yet, and neither has one that copies outside the mailbox buffer or the caller's storage.
-/

namespace RaipalSoem

open Lib

/-- `ec_mbxbuft`. Of the memory only the first `EC_MAXMBX + 1` bytes belong to the buffer. -/
abbrev Mailbox := Memory UInt8

/-- What becomes of one request: the work counters of `ecx_mbxsend` and of the
`ecx_mbxreceive` behind it, and the buffer afterwards. -/
structure MbxExchange where
  sendWkc : Int
  receiveWkc : Int
  mbxIn : Mailbox

section Fields

variable (e : Endian) (mbx : Mailbox)

/-- `etohs(aSDOp->MbxHeader.length)`. -/
def mbxLength : UInt16 := .ofBitVec (htoes e (ofHostBytes e 2 (mbx.read 0 2)))

/-- `aSDOp->MbxHeader.mbxtype`. -/
def mbxType : UInt8 := mbx 5

/-- `etohs(aSDOp->CANOpen)`. -/
def mbxCanOpen : UInt16 := .ofBitVec (htoes e (ofHostBytes e 2 (mbx.read 6 2)))

/-- `aSDOp->Command`. -/
def mbxCommand : UInt8 := mbx 8

/-- `aSDOp->Index` as it lies in the buffer. -/
def mbxIndex : BitVec 16 := ofHostBytes e 2 (mbx.read 9 2)

/-- `etohl(aSDOp->ldata[0])`. -/
def mbxLdata : Int32 := .ofBitVec (htoel e (ofHostBytes e 4 (mbx.read 12 4)))

/-- The reply is a CoE message with an SDO response. -/
def isSdoResponse : Prop :=
  mbxType mbx &&& 0x0f = ectMbxtCoe ∧ mbxCanOpen e mbx >>> 12 = ectCoesSdoRes

instance : Decidable (isSdoResponse e mbx) := inferInstanceAs (Decidable (_ ∧ _))

end Fields

/-- `ec_nextmbxcnt`. -/
def ecNextMbxCnt (cnt : UInt8) : UInt8 := if 7 < cnt + 1 then 1 else cnt + 1

theorem ecNextMbxCnt_le (cnt : UInt8) : ecNextMbxCnt cnt ≤ 7 := by
  unfold ecNextMbxCnt
  split_ifs with h
  · decide
  · exact UInt8.not_lt.mp h

/-- The counter stands above the type of a mailbox. -/
theorem mbxType_count (cnt : UInt8) {t : UInt8} (ht : t ≤ 0x0f) :
    (t + (ecNextMbxCnt cnt <<< 4)) &&& 0x0f = t := by
  have hcases : ∀ (t : Fin 16) (n : Fin 8),
      (UInt8.ofNat t + (UInt8.ofNat n <<< 4)) &&& 0x0f = UInt8.ofNat t := by decide
  have hn := hcases ⟨t.toNat, Nat.lt_succ_of_le (UInt8.le_iff_toNat_le.mp ht)⟩
    ⟨(ecNextMbxCnt cnt).toNat, Nat.lt_succ_of_le (UInt8.le_iff_toNat_le.mp (ecNextMbxCnt_le cnt))⟩
  simpa using hn

/-- The fields of a request that are not the same in all of them. -/
structure SdoRequest where
  mbxType : UInt8
  canOpen : UInt16
  command : UInt8
  index : UInt16
  subIndex : UInt8
  deriving DecidableEq, Repr

/-- What `ecx_SDOerror` and `ecx_packeterror` push on the error list. -/
inductive EcError
  | sdoError (index : UInt16) (subIdx : UInt8) (abortCode : Int32)
  | packetError (index : UInt16) (subIdx : UInt8) (errorCode : UInt16)
  deriving DecidableEq, Repr

/-- The variables of `ecx_SDOread` that outlive it, with the parameter buffer `p`, the
mailbox counter of the slave, the requests sent and the errors pushed. -/
structure SdoState where
  wkc : Int
  psize : Int
  p : List UInt8
  mbxCnt : UInt8
  requests : List SdoRequest
  errors : List EcError
  deriving DecidableEq, Repr

/-- `memcpy(p + off, &MbxIn[src], size)`. -/
def copyMailbox (p : List UInt8) (off : Nat) (mbx : Mailbox) (src size : Nat) :
    Option (List UInt8) :=
  if src + size ≤ ecMaxMbx + 1 then copyTo p off (mbx.read src size) else none

section Read

variable (e : Endian) (index : UInt16) (subIndex : UInt8)

/-- Place a request with a fresh mailbox count. -/
def SdoState.request (st : SdoState) (command : UInt8) (sendWkc : Int) : SdoState :=
  { st with
    wkc := sendWkc
    mbxCnt := ecNextMbxCnt st.mbxCnt
    requests := st.requests ++ [{
      mbxType := ectMbxtCoe + (ecNextMbxCnt st.mbxCnt <<< 4)
      canOpen := ectCoesSdoReq <<< 12
      command := command
      index := index
      subIndex := subIndex }] }

/-- Give up on a reply that is an abort, or not the one expected. -/
def SdoState.unexpected (st : SdoState) (mbx : Mailbox) : SdoState :=
  { st with
    wkc := 0
    errors := st.errors ++ [
      if mbxCommand mbx = ectSdoAbort then .sdoError index subIndex (mbxLdata e mbx)
      else .packetError index subIndex 1] }

/-- Give up on an object that is larger than the parameter buffer. -/
def SdoState.tooSmall (st : SdoState) : SdoState :=
  { st with wkc := 0, errors := st.errors ++ [.packetError index subIndex 3] }

/-- The branch for an expedited response. -/
def expeditedResponse (st : SdoState) (mbx : Mailbox) : Option SdoState :=
  let bytesize := 4 - ((mbxCommand mbx >>> 2) &&& 0x03).toNat
  if bytesize ≤ st.psize then
    (copyMailbox st.p 0 mbx 12 bytesize).map fun p => { st with p := p, psize := bytesize }
  else some (st.tooSmall index subIndex)

/-- `*psize += size`, which has no result if the sum is not an `int`. -/
def addSize (psize : Int) (size : Nat) : Option Int :=
  if psize + size < 2 ^ 31 then some (psize + size) else none

/-- Copy the data of a segment to `hp` and count them. -/
def SdoState.append (st : SdoState) (hp : Nat) (mbx : Mailbox) (size : Nat) : Option SdoState :=
  (copyMailbox st.p hp mbx 9 size).bind fun p =>
    (addSize st.psize size).map fun psize => { st with p := p, psize := psize }

/-- `Framedatasize` of a segment. The last one may be padded to seven bytes. -/
def segmentSize (mbx : Mailbox) : Nat :=
  let framedatasize := (mbxLength e mbx - 3).toNat
  if mbxCommand mbx &&& 0x01 ≠ 0 ∧ framedatasize = 7 then
    framedatasize - ((mbxCommand mbx &&& 0x0e) >>> 1).toNat
  else framedatasize

/-- `while (NotLast)`, with `hp` as an offset. A request or a reply that is lost is
followed by the next request. -/
def segmentedTransfer : SdoState → Nat → UInt8 → List MbxExchange → Option SdoState
  | _, _, _, [] => none
  | st, hp, toggle, x :: rest =>
      let st := st.request index subIndex (ectSdoSegUpReq + toggle) x.sendWkc
      if 0 < x.sendWkc then
        let st := { st with wkc := x.receiveWkc }
        if 0 < x.receiveWkc then
          if isSdoResponse e x.mbxIn ∧ mbxCommand x.mbxIn &&& 0xe0 = 0 then
            let framedatasize := segmentSize e x.mbxIn
            if mbxCommand x.mbxIn &&& 0x01 ≠ 0 then st.append hp x.mbxIn framedatasize
            else
              (st.append hp x.mbxIn framedatasize).bind fun st =>
                segmentedTransfer st (hp + framedatasize) (toggle ^^^ 0x10) rest
          else some (st.unexpected e index subIndex x.mbxIn)
        else segmentedTransfer st hp (toggle ^^^ 0x10) rest
      else segmentedTransfer st hp (toggle ^^^ 0x10) rest

/-- The branch for a normal response. `Framedatasize` is a `uint16`. -/
def normalResponse (st : SdoState) (mbx : Mailbox) (rest : List MbxExchange) : Option SdoState :=
  let sdoLen := (mbxLdata e mbx).toInt
  if sdoLen ≤ st.psize then
    let framedatasize := (mbxLength e mbx - 10).toNat
    if framedatasize < sdoLen then
      (copyMailbox st.p 0 mbx 16 framedatasize).bind fun p =>
        segmentedTransfer e index subIndex { st with p := p, psize := framedatasize }
          framedatasize 0x00 rest
    else
      (copyMailbox st.p 0 mbx 16 (sizeOfInt sdoLen)).map fun p =>
        { st with p := p, psize := sdoLen }
  else some (st.tooSmall index subIndex)

/-- What `ecx_SDOread` does with the first reply. -/
def firstResponse (st : SdoState) (mbx : Mailbox) (rest : List MbxExchange) : Option SdoState :=
  if isSdoResponse e mbx ∧ mbxIndex e mbx = htoes e index.toBitVec then
    if mbxCommand mbx &&& 0x02 ≠ 0 then expeditedResponse index subIndex st mbx
    else normalResponse e index subIndex st mbx rest
  else some (st.unexpected e index subIndex mbx)

/-- `ecx_SDOread`, with the mailbox counter of the slave. The call that empties the mailbox
before the request is left out: its buffer is cleared before it is read. -/
def ecxSdoRead (mbxCnt : UInt8) (ca : Bool) (psize : Int) (p : List UInt8) :
    List MbxExchange → Option SdoState
  | [] => none
  | x :: rest =>
      let subIndex := if ca ∧ 1 < subIndex then 1 else subIndex
      let st : SdoState :=
        { wkc := 0, psize := psize, p := p, mbxCnt := mbxCnt, requests := [], errors := [] }
      let st := st.request index subIndex (if ca then ectSdoUpReqCa else ectSdoUpReq) x.sendWkc
      if 0 < x.sendWkc then
        let st := { st with wkc := x.receiveWkc }
        if 0 < x.receiveWkc then firstResponse e index subIndex st x.mbxIn rest
        else some st
      else some st

/-- What `EthercatSlave::sdoRead` leaves behind: its result, the buffer and `len`. -/
structure SdoResult where
  ok : Bool
  buf : List UInt8
  len : Nat
  deriving DecidableEq, Repr

/-- `EthercatSlave::sdoRead`. -/
def sdoRead (mbxCnt : UInt8) (buf : List UInt8) (len : Nat) (xs : List MbxExchange) :
    Option SdoResult :=
  (ecxSdoRead e index subIndex mbxCnt false (intOfSize len) buf xs).map fun st : SdoState =>
    { ok := decide (0 < st.wkc)
      buf := st.p
      len := if 0 < st.wkc then sizeOfInt st.psize else len }

/-- `EthercatSlave::sdoReadT` for a type whose objects have the bytes `out`: its result, and
the bytes of the object afterwards. -/
def sdoReadT (mbxCnt : UInt8) (out : List UInt8) (xs : List MbxExchange) :
    Option (Bool × List UInt8) :=
  (sdoRead e index subIndex mbxCnt out out.length xs).map fun r : SdoResult =>
    (r.ok && r.len == out.length, r.buf)

end Read

end RaipalSoem

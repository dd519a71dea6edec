import RaipalSoem.Frame
import RaipalSoem.SdoRead

/-!
# Ethernet over EtherCAT

`ecx_EOEsend` cuts an Ethernet frame into fragments that fit the mailbox; `ecx_EOEreadfragment`
takes the fragments one by one, as a hook of `ecx_mbxreceive`, and `ecx_EOErecv` waits for all
fragments of a frame. The mailboxes themselves are up to the surroundings.
-/

namespace RaipalSoem

open Lib

/-- `ECT_MBXT_EOE`. -/
def ectMbxtEoe : UInt8 := 0x02

/-- `EC_ERR_TYPE_PACKET_ERROR`. -/
def ecErrTypePacketError : Int := 3

/-- `EC_ERR_TYPE_EOE_INVALID_RX_DATA`. -/
def ecErrTypeEoeInvalidRxData : Int := 11

/-- `EOE_HDR_FRAME_PORT_SET`. -/
def eoeHdrFramePortSet (x : UInt16) : UInt16 := (x &&& 0xf) <<< 4

/-- `EOE_HDR_FRAME_PORT_GET`. -/
def eoeHdrFramePortGet (x : UInt16) : UInt16 := (x >>> 4) &&& 0xf

/-- `EOE_HDR_LAST_FRAGMENT_SET`. -/
def eoeHdrLastFragmentSet (x : UInt16) : UInt16 := (x &&& 0x1) <<< 8

/-- `EOE_HDR_LAST_FRAGMENT_GET`. -/
def eoeHdrLastFragmentGet (x : UInt16) : UInt16 := (x >>> 8) &&& 0x1

/-- `EOE_HDR_TIME_APPEND_GET`. -/
def eoeHdrTimeAppendGet (x : UInt16) : UInt16 := (x >>> 9) &&& 0x1

/-- `EOE_HDR_FRAG_NO_SET`. -/
def eoeHdrFragNoSet (x : UInt16) : UInt16 := x &&& 0x3f

/-- `EOE_HDR_FRAG_NO_GET`. -/
def eoeHdrFragNoGet (x : UInt16) : UInt16 := x &&& 0x3f

/-- `EOE_HDR_FRAME_OFFSET_SET`. -/
def eoeHdrFrameOffsetSet (x : UInt16) : UInt16 := (x &&& 0x3f) <<< 6

/-- `EOE_HDR_FRAME_OFFSET_GET`. -/
def eoeHdrFrameOffsetGet (x : UInt16) : UInt16 := (x >>> 6) &&& 0x3f

/-- `EOE_HDR_FRAME_NO_SET`. -/
def eoeHdrFrameNoSet (x : UInt16) : UInt16 := (x &&& 0xf) <<< 12

/-- `EOE_HDR_FRAME_NO_GET`. -/
def eoeHdrFrameNoGet (x : UInt16) : UInt16 := (x >>> 12) &&& 0xf

/-- What `ecx_EOEsend` changes: the surroundings, the mailbox counter of the slave, its static
frame number, `MbxOut` and the work counter. -/
structure EoeSender (σ : Type*) where
  slave : σ
  mbxCnt : UInt8
  txframeno : UInt8
  mbxOut : Mailbox
  wkc : Int

/-- `frameinfo1` of a fragment. -/
def eoeFrameinfo1 (port : UInt8) (last : Bool) : UInt16 :=
  if last then eoeHdrLastFragmentSet 1 ||| eoeHdrFramePortSet port.toUInt16
  else eoeHdrFramePortSet port.toUInt16

/-- `frameinfo2` of a fragment: the first one has the size of the frame in place of an offset,
both in blocks of 32 bytes. -/
def eoeFrameinfo2 (txfragmentno txframeno : UInt8) (txframeoffset psize : Nat) : UInt16 :=
  eoeHdrFragNoSet txfragmentno.toUInt16 |||
    (if 0 < txfragmentno then eoeHdrFrameOffsetSet (.ofNat (txframeoffset >>> 5))
      else eoeHdrFrameOffsetSet (.ofNat ((psize + 31) >>> 5))) |||
    eoeHdrFrameNoSet txframeno.toUInt16

/-- The fields of a fragment, stored in `MbxOut`. -/
def eoeMailbox (e : Endian) (m : Mailbox) (cnt : UInt8) (frameinfo1 frameinfo2 : UInt16)
    (hp : List UInt8) : Mailbox :=
  let m := putWord e m 0 (.ofNat (4 + hp.length))
  let m := m.write 5 [ectMbxtEoe + (cnt <<< 4)]
  let m := putWord e m 6 frameinfo1
  let m := putWord e m 8 frameinfo2
  m.write 10 hp

section Send

variable {σ : Type*} (e : Endian) (send : σ → Mailbox → σ × Int) (port : UInt8)

/-- A round of the loop that sends the bytes `hp`, unless they do not fit `MbxOut`. -/
def eoeSendFragment (psize : Nat) (txfragmentno : UInt8) (txframeoffset : Nat) (last : Bool)
    (hp : List UInt8) (s : EoeSender σ) : Option (EoeSender σ) :=
  if 10 + hp.length ≤ ecMaxMbx + 1 then
    let txframeno := if 0 < txfragmentno then s.txframeno else s.txframeno + 1
    let cnt := ecNextMbxCnt s.mbxCnt
    let m := eoeMailbox e s.mbxOut cnt (eoeFrameinfo1 port last)
      (eoeFrameinfo2 txfragmentno txframeno txframeoffset psize) hp
    let (slave, wkc) := send s.slave m
    some { slave := slave, mbxCnt := cnt, txframeno := txframeno, mbxOut := m, wkc := wkc }
  else none

/-- The loop of `ecx_EOEsend`, for at most `fuel` rounds. There is no result beyond that, nor
for a fragment of negative size. -/
def eoeSendLoop (maxdata : Int) (buf : List UInt8) :
    Nat → UInt8 → Nat → EoeSender σ → Option (EoeSender σ)
  | 0, _, _, _ => none
  | fuel + 1, txfragmentno, txframeoffset, s =>
      let left := buf.length - txframeoffset
      let txframesize := if maxdata < left then maxdata / 32 * 32 else left
      if txframesize < 0 then none
      else if txframesize = left then
        eoeSendFragment e send port buf.length txfragmentno txframeoffset true
          (buf.drop txframeoffset) s
      else
        let hp := (buf.drop txframeoffset).take txframesize.toNat
        match eoeSendFragment e send port buf.length txfragmentno txframeoffset false hp s with
        | none => none
        | some s =>
            if 0 < s.wkc then
              eoeSendLoop maxdata buf fuel (txfragmentno + 1) (txframeoffset + hp.length) s
            else some s

/-- `ecx_EOEsend` of the frame `buf` to a slave with mailboxes of `mbxL` bytes. -/
def ecxEoesend (mbxL : UInt16) (fuel : Nat) (buf : List UInt8) (s : EoeSender σ) :
    Option (EoeSender σ) :=
  let m := putWord e (fun _ => 0) 2 0x0000
  eoeSendLoop e send port ((mbxL.toNat : Int) - 0x0a) buf fuel 0 0
    { s with mbxOut := m.write 4 [0x00] }

end Send

/-- The variables in which the caller of `ecx_EOEreadfragment` keeps a frame that is
incomplete. -/
structure EoeRx where
  rxfragmentno : UInt8
  rxframesize : UInt16
  rxframeoffset : UInt16
  rxframeno : UInt16
  deriving DecidableEq, Repr

/-- The working variables when no frame has been begun. -/
def EoeRx.reset : EoeRx := ⟨0, 0, 0, 0⟩

/-- What `ecx_EOEreadfragment` leaves: its result, the working variables, `*psize` and the
frame buffer. -/
structure EoeRead where
  wkc : Int
  rx : EoeRx
  psize : Int
  buf : Memory UInt8

section Receive

variable (e : Endian) (mbxIn : Mailbox)

/-- `frameinfo1` of the mailbox. -/
def frameinfo1 : UInt16 := getWord e mbxIn 6

/-- `frameinfo2` of the mailbox. -/
def frameinfo2 : UInt16 := getWord e mbxIn 8

/-- The checks that come before the data: the working variables for the frame that the fragment
belongs to, or those that an error leaves. -/
def eoeLocate (rx : EoeRx) : Except EoeRx EoeRx :=
  let fragNo := eoeHdrFragNoGet (frameinfo2 e mbxIn)
  let expected := rx.rxfragmentno.toUInt16 = fragNo
  let rx := if ¬expected ∧ rx.rxfragmentno ≠ 0 then EoeRx.reset else rx
  if ¬expected ∧ 0 < fragNo then .error rx
  else if rx.rxfragmentno = 0 then
    .ok { rx with
      rxframesize := eoeHdrFrameOffsetGet (frameinfo2 e mbxIn) <<< 5
      rxframeoffset := 0
      rxframeno := eoeHdrFrameNoGet (frameinfo2 e mbxIn) }
  else if rx.rxframeno ≠ eoeHdrFrameNoGet (frameinfo2 e mbxIn) then .error EoeRx.reset
  else if rx.rxframeoffset ≠ eoeHdrFrameOffsetGet (frameinfo2 e mbxIn) <<< 5 then
    .error EoeRx.reset
  else .ok rx

/-- Copy the data if it stays inside the announced size and the buffer. -/
def eoeCopy (rx : EoeRx) (psize : Int) (buf : Memory UInt8) :
    Option (EoeRx × Memory UInt8) :=
  let eoedatasize := getWord e mbxIn 0 - 4
  let behind := rx.rxframeoffset.toNat + eoedatasize.toNat
  if behind ≤ rx.rxframesize.toNat ∧ behind ≤ psize then
    if 10 + eoedatasize.toNat ≤ ecMaxMbx + 1 then
      some ({ rx with
          rxframeoffset := rx.rxframeoffset + eoedatasize
          rxfragmentno := rx.rxfragmentno + 1 },
        buf.write rx.rxframeoffset.toNat (mbxIn.read 10 eoedatasize.toNat))
    else none
  else some (rx, buf)

/-- `ecx_EOEreadfragment`, unless it reads beyond the mailbox buffer. -/
def ecxEoereadfragment (rx : EoeRx) (psize : Int) (buf : Memory UInt8) : Option EoeRead :=
  if mbxType mbxIn &&& 0x0f = ectMbxtEoe then
    match eoeLocate e mbxIn rx with
    | .error rx => some ⟨-ecErrTypeEoeInvalidRxData, rx, psize, buf⟩
    | .ok rx =>
        (eoeCopy e mbxIn rx psize buf).map fun (rx, buf) =>
          if eoeHdrLastFragmentGet (frameinfo1 e mbxIn) ≠ 0 then
            let rxframeoffset :=
              if eoeHdrTimeAppendGet (frameinfo1 e mbxIn) ≠ 0 then rx.rxframeoffset - 4
              else rx.rxframeoffset
            ⟨1, EoeRx.reset, rxframeoffset.toNat, buf⟩
          else ⟨0, rx, psize, buf⟩
  else some ⟨-ecErrTypePacketError, rx, psize, buf⟩

end Receive

/-- The variables of the loop of `ecx_EOErecv`, with `*psize` and the buffer. -/
structure EoeRecv where
  rxfragmentno : UInt8
  rxframeno : UInt8
  rxframeoffset : Int
  psize : Int
  buf : Memory UInt8

/-- The checks of a round of `ecx_EOErecv` on the headers of a fragment, and the number of the
frame that is received then. -/
def eoeRecvCheck (e : Endian) (port : UInt8) (buffersize : Int) (mbxIn : Mailbox)
    (st : EoeRecv) : Option UInt8 :=
  let fragNo := eoeHdrFragNoGet (frameinfo2 e mbxIn)
  let frameNo := eoeHdrFrameNoGet (frameinfo2 e mbxIn)
  let offset : Int := (eoeHdrFrameOffsetGet (frameinfo2 e mbxIn) <<< 5).toNat
  if st.rxfragmentno.toUInt16 ≠ fragNo ∧ 0 < fragNo then none
  else if st.rxfragmentno = 0 then
    if buffersize < offset then none
    else if port.toUInt16 ≠ eoeHdrFramePortGet (frameinfo1 e mbxIn) then none
    else some frameNo.toUInt8
  else if st.rxframeno.toUInt16 ≠ frameNo then none
  else if st.rxframeoffset ≠ offset then none
  else some st.rxframeno

/-- The loop of `ecx_EOErecv` over the results of `ecx_mbxreceive` and the mailboxes. There is
no result as long as mailboxes are missing, or if a copy leaves its buffers. -/
def eoeRecvLoop (e : Endian) (port : UInt8) (buffersize : Int) :
    List (Int × Mailbox) → EoeRecv → Option (Int × EoeRecv)
  | [], _ => none
  | (wkc, mbxIn) :: rest, st =>
      if 0 < wkc then
        if mbxType mbxIn &&& 0x0f = ectMbxtEoe then
          match eoeRecvCheck e port buffersize mbxIn st with
          | none => some (-ecErrTypeEoeInvalidRxData, st)
          | some rxframeno =>
              let st := { st with rxframeno := rxframeno }
              let eoedatasize : Int := ((getWord e mbxIn 0).toNat : Int) - 4
              let copied : Option EoeRecv :=
                if st.rxframeoffset + eoedatasize ≤ buffersize then
                  if 0 ≤ eoedatasize ∧ 0 ≤ st.rxframeoffset ∧
                      10 + eoedatasize ≤ (ecMaxMbx + 1 : Nat) then
                    some { st with
                      buf := st.buf.write st.rxframeoffset.toNat
                        (mbxIn.read 10 eoedatasize.toNat)
                      rxframeoffset := st.rxframeoffset + eoedatasize
                      rxfragmentno := st.rxfragmentno + 1 }
                  else none
                else some st
              match copied with
              | none => none
              | some st =>
                  if eoeHdrLastFragmentGet (frameinfo1 e mbxIn) ≠ 0 then
                    let rxframeoffset :=
                      if eoeHdrTimeAppendGet (frameinfo1 e mbxIn) ≠ 0 then st.rxframeoffset - 4
                      else st.rxframeoffset
                    some (wkc, { st with rxframeoffset := rxframeoffset, psize := rxframeoffset })
                  else eoeRecvLoop e port buffersize rest st
        else some (-ecErrTypePacketError, st)
      else some (wkc, st)

/-- `ecx_EOErecv` into a buffer of `psize` bytes. -/
def ecxEoerecv (e : Endian) (port : UInt8) (psize : Int) (buf : Memory UInt8)
    (mbxs : List (Int × Mailbox)) : Option (Int × EoeRecv) :=
  eoeRecvLoop e port psize mbxs
    { rxfragmentno := 0, rxframeno := 0xff, rxframeoffset := 0, psize := psize, buf := buf }

end RaipalSoem

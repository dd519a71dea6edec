import RaipalSoem.ConfigMap
import RaipalSoem.ProcessImage
import RaipalSoem.Lib.Tiling

/-!
# Exchanging the process data

`ecx_main_send_processdata` without overlapping and `ecx_receive_processdata_group`
for group 0. The image goes out in LRW datagrams, or in LRD and LWR datagrams if a
slave blocks LRW, one for each segment. What a frame brings back is copied over
the image, and the work counters are added up. In group 0 the logical address of
a datagram and the offset of its data in the image are the same number.
-/

namespace RaipalSoem

open Lib

/-- A transmitted process-data datagram. `dc` tells whether a DC datagram follows
in the same frame. -/
structure Datagram where
  cmd : EcCmd
  block : Block
  data : List UInt8
  dc : Bool := false
  deriving DecidableEq, Repr

/-- The do-while loop over the segments: `clip` bounds a segment by the bytes left. -/
def segmentLoop (clip : Int → Nat → Nat) : List Nat → Int → Nat → List Block
  | [], _, _ => []
  | segment :: segments, length, pos =>
      let sublength := clip length segment
      ⟨pos, sublength⟩ ::
        if length - sublength ≠ 0 then
          segmentLoop clip segments (length - sublength) (pos + sublength)
        else []

/-- LRD and LRW take a segment as it is. -/
def wholeSegment (_ : Int) (segment : Nat) : Nat := segment % 2 ^ 16

/-- LWR stops at the end of the outputs. -/
def clippedSegment (length : Int) (segment : Nat) : Nat :=
  let sublength : Nat := segment % 2 ^ 16
  if length - (sublength : Int) < 0 then (length % 2 ^ 16).toNat else sublength

/-- `IOsegment` from `Isegment` on, without the outputs in the first of them. -/
def EcGroup.inputSegments (g : EcGroup) : List Nat :=
  match g.ioSegment.drop g.isegment with
  | [] => []
  | segment :: segments => (segment - g.ioffset) :: segments

/-- The LRD datagrams; their data are sent as zeros. -/
def lrdDatagrams (g : EcGroup) : List Datagram :=
  (segmentLoop wholeSegment g.inputSegments g.ibytes g.obytes).map fun b =>
    { cmd := .lrd, block := b, data := List.replicate b.len 0 }

/-- The LWR datagrams. -/
def lwrDatagrams (g : EcGroup) (m : Image) : List Datagram :=
  (segmentLoop clippedSegment g.ioSegment g.obytes 0).map fun b =>
    { cmd := .lwr, block := b, data := m.read b.start b.len }

/-- The LRW datagrams. -/
def lrwDatagrams (g : EcGroup) (m : Image) : List Datagram :=
  (segmentLoop wholeSegment g.ioSegment (g.obytes + g.ibytes : Nat) 0).map fun b =>
    { cmd := .lrw, block := b, data := m.read b.start b.len }

/-- The first datagram takes the DC datagram along. -/
def addDc (hasdc : Bool) : List Datagram → List Datagram
  | [] => []
  | d :: ds => { d with dc := hasdc } :: ds

/-- The process-data datagrams in the order in which they are sent. -/
def processDatagrams (g : EcGroup) (m : Image) : List Datagram :=
  if g.obytes + g.ibytes = 0 then []
  else if g.blockLRW ≠ 0 then
    (if g.ibytes ≠ 0 then lrdDatagrams g else []) ++
      (if g.obytes ≠ 0 then lwrDatagrams g m else [])
  else lrwDatagrams g m

/-- `ec_send_processdata`. -/
def ecSendProcessdata (g : EcGroup) (m : Image) : List Datagram :=
  addDc g.hasdc (processDatagrams g m)

/-- The bytes of the frame that `ecx_setupdatagram` and `ecx_adddatagram` build. -/
def Datagram.frameLength (d : Datagram) : Nat :=
  14 + 12 + d.block.len + 2 + if d.dc then ecFirstDcDatagram else 0

/-- The frame fits its transmit buffer of `EC_BUFSIZE` bytes. -/
def Datagram.FitsBuffer (d : Datagram) : Prop := d.frameLength ≤ ecMaxEcatFrame

instance (d : Datagram) : Decidable d.FitsBuffer := inferInstanceAs (Decidable (_ ≤ _))

/-- A frame that came back: the work counter of its process-data datagram, and the
logical memory as it passed by. -/
structure Reply where
  wkc : Nat
  memory : Memory UInt8

/-- The variables of `ecx_receive_processdata_group`. -/
structure Receive where
  image : Image
  wkc : Int := 0
  validWkc : Bool := false

/-- One round of the receive loop. The frame with the DC datagram sets the counter,
every other one adds to it; an LWR counts twice. -/
def receiveFrame (st : Receive) (d : Datagram) : Option Reply → Receive
  | none => st
  | some r =>
      let add : Int := match d.cmd with
        | .lwr => r.wkc * 2
        | _ => r.wkc
      { image := match d.cmd with
          | .lwr => st.image
          | _ => st.image.write d.block.start (Memory.read r.memory d.block.start d.block.len)
        wkc := if d.dc then add else st.wkc + add
        validWkc := true }

/-- `ec_receive_processdata`: only the first `EC_MAXBUF` frames are on the index stack. -/
def ecReceiveProcessdata (m : Image) (frames : List (Datagram × Option Reply)) : Image × Int :=
  let st := (frames.take ecMaxBuf).foldl (fun st f => receiveFrame st f.1 f.2) { image := m }
  (st.image, if st.validWkc then st.wkc else ecNoFrame)

/-- `EthercatMaster::tickOnce`, where `frames` are the datagrams sent with what came
back of them. A frame that does not fit its buffer overwrites the buffers behind
it, and the call has no result. -/
def tickOnce (m : Image) (frames : List (Datagram × Option Reply)) : Option (Image × Int) :=
  if ∀ f ∈ frames, f.1.FitsBuffer then some (ecReceiveProcessdata m frames) else none

/-- The value that `EthercatMaster` compares the work counter with. -/
def EcGroup.expectedWKC (g : EcGroup) : Int := g.outputsWKC * 2 + g.inputsWKC

end RaipalSoem

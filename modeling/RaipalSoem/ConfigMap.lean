import RaipalSoem.EthercatType
import RaipalSoem.Lib.Memory

/-!
# Mapping the process data

`ecx_main_config_map_group` for group 0 without forced byte alignment. The
outputs of all slaves are laid out first and their inputs behind them. Each
slave programs FMMUs that translate its sync managers to logical addresses, and
the logical range is cut into segments that fit one frame. Group 0 starts at
logical address 0, so a logical address is also an offset into the process image.
-/

namespace RaipalSoem

open Lib

/-- The sync-manager fields that the mapping reads, with `SMtype`. -/
structure SyncManager where
  startAddr : UInt16 := 0
  smLength : UInt16 := 0
  smType : UInt8 := 0
  deriving DecidableEq, Repr

/-- `ec_fmmut`. `fmmuActive` is set when the FMMU is programmed into the slave. -/
structure Fmmu where
  logStart : Nat
  logLength : Nat
  logStartbit : Nat
  logEndbit : Nat
  physStart : UInt16
  fmmuType : UInt8
  fmmuActive : Bool
  deriving DecidableEq, Repr

/-- The two directions of process data, seen from the master. -/
inductive Direction
  | output
  | input
  deriving DecidableEq, Repr

/-- The `SMtype` of the sync managers of a direction. -/
def Direction.smType : Direction → UInt8
  | .output => 3
  | .input => 4

/-- The `FMMUtype` of the FMMUs of a direction. -/
def Direction.fmmuType : Direction → UInt8
  | .output => 2
  | .input => 1

/-- What is known of a slave once its mapping has been read from CoE, SoE or SII. -/
structure SlaveInfo where
  obits : UInt16 := 0
  ibits : UInt16 := 0
  sm : Nat → SyncManager := fun _ => {}
  blockLRW : Bool := false
  hasdc : Bool := false

/-- The process-data fields of `ec_slavet`. The list `fmmu` holds the entries below
`FMMUunused`; the entries above are still zero. A base pointer is an offset into
the process image. -/
structure EcSlave where
  obits : UInt16
  obytes : Nat
  outputs : Option Nat := none
  ostartbit : Nat := 0
  ibits : UInt16
  ibytes : Nat
  inputs : Option Nat := none
  istartbit : Nat := 0
  sm : Nat → SyncManager
  fmmu : List Fmmu := []
  blockLRW : Bool
  hasdc : Bool

/-- The byte counts that `ecx_map_sm` derives; a length below eight bits keeps zero bytes. -/
def ecxMapSm (s : SlaveInfo) : EcSlave where
  obits := s.obits
  obytes := if 7 < s.obits.toNat then (s.obits.toNat + 7) / 8 else 0
  ibits := s.ibits
  ibytes := if 7 < s.ibits.toNat then (s.ibits.toNat + 7) / 8 else 0
  sm := s.sm
  blockLRW := s.blockLRW
  hasdc := s.hasdc

/-- `Obits` or `Ibits`. -/
def EcSlave.bits (s : EcSlave) : Direction → Nat
  | .output => s.obits.toNat
  | .input => s.ibits.toNat

/-- `Obytes` or `Ibytes`. -/
def EcSlave.bytes (s : EcSlave) : Direction → Nat
  | .output => s.obytes
  | .input => s.ibytes

/-- `while ((SMc < (EC_MAXSM - 1)) && (SMtype[SMc] != want)) SMc++`. -/
def findSm (sm : Nat → SyncManager) (want : UInt8) (smc : Nat) : Nat :=
  ((List.range' smc (ecMaxSm - 1 - smc)).find? fun i => (sm i).smType = want).getD (ecMaxSm - 1)

/-- The variables of the sync-manager search; `ByteCount` and `EndAddr` are `uint16`. -/
structure SmScan where
  smc : Nat
  endAddr : Nat
  bitCount : Nat
  byteCount : Nat
  deriving DecidableEq, Repr

/-- Add the sync manager with index `smc`. -/
def SmScan.add (scan : SmScan) (sm : Nat → SyncManager) (smc : Nat) : SmScan where
  smc := smc
  endAddr := ((sm smc).startAddr.toNat + (sm smc).smLength.toNat) % 2 ^ 16
  bitCount := scan.bitCount + (sm smc).smLength.toNat * 8
  byteCount := (scan.byteCount + (sm smc).smLength.toNat) % 2 ^ 16

/-- The inner loop that joins the sync managers whose addresses connect. Each
round raises `SMc`, so as many rounds as there are sync managers are enough. -/
def mergeSm (sm : Nat → SyncManager) (want : UInt8) (bits : Nat) : Nat → SmScan → SmScan
  | 0, scan => scan
  | rounds + 1, scan =>
      if scan.bitCount < bits ∧ scan.smc < ecMaxSm - 1 then
        let smc := findSm sm want (scan.smc + 1)
        if scan.endAddr < (sm smc).startAddr.toNat then { scan with smc := smc }
        else mergeSm sm want bits rounds (scan.add sm smc)
      else scan

/-- The variables of one create-mappings call. -/
structure MapState where
  logAddr : Nat
  bitPos : Nat
  smc : Nat := 0
  bitCount : Nat := 0
  byteCount : Nat := 0
  fmmuDone : Nat := 0
  fmmus : List Fmmu := []
  deriving DecidableEq, Repr

/-- Carry a bit position above 7 into the address. -/
def carryBit (logAddr bitPos : Nat) : Nat × Nat :=
  if 7 < bitPos then (logAddr + 1, bitPos - 8) else (logAddr, bitPos)

/-- One round of the outer loop of the create-mappings functions: choose the sync
managers, place them at the cursor and program the next FMMU. -/
def mapFmmu (dir : Direction) (bits bytes : Nat) (sm : Nat → SyncManager) (st : MapState) :
    MapState :=
  let smc := findSm sm dir.smType st.smc
  let scan := mergeSm sm dir.smType bits (ecMaxSm - 1)
    (SmScan.add ⟨smc, 0, st.bitCount, st.byteCount⟩ sm smc)
  if bytes = 0 then
    let last := carryBit st.logAddr (st.bitPos + (bits - 1))
    let next := carryBit last.1 (last.2 + 1)
    let fmmuSize := (last.1 - st.logAddr + 1) % 2 ^ 16
    { logAddr := next.1
      bitPos := next.2
      smc := scan.smc
      bitCount := scan.bitCount
      byteCount := scan.byteCount
      fmmuDone := st.fmmuDone + fmmuSize
      fmmus := st.fmmus ++ [{
        logStart := st.logAddr
        logLength := fmmuSize
        logStartbit := st.bitPos
        logEndbit := last.2
        physStart := (sm smc).startAddr
        fmmuType := dir.fmmuType
        fmmuActive := decide (fmmuSize ≠ 0) }] }
  else
    let logAddr := if st.bitPos ≠ 0 then st.logAddr + 1 else st.logAddr
    let fmmuSize :=
      if bytes < scan.byteCount + st.fmmuDone then bytes - st.fmmuDone else scan.byteCount
    { logAddr := logAddr + fmmuSize
      bitPos := 0
      smc := scan.smc
      bitCount := scan.bitCount
      byteCount := scan.byteCount
      fmmuDone := st.fmmuDone + fmmuSize
      fmmus := st.fmmus ++ [{
        logStart := logAddr
        logLength := fmmuSize
        logStartbit := 0
        logEndbit := 7
        physStart := (sm smc).startAddr
        fmmuType := dir.fmmuType
        fmmuActive := decide (fmmuSize ≠ 0) }] }

/-- The outer loop, with the number of FMMUs that are still free. A round without a
free FMMU writes behind the `FMMU` array and has no result. -/
def mapLoop (dir : Direction) (bits bytes : Nat) (sm : Nat → SyncManager) :
    Nat → MapState → Option MapState
  | free, st =>
      if st.smc < ecMaxSm ∧ st.fmmuDone < (bits + 7) / 8 then
        match free with
        | 0 => none
        | free + 1 => mapLoop dir bits bytes sm free (mapFmmu dir bits bytes sm st)
      else some st

/-- The segment under construction and the segments closed before it
(`IOsegment[0 .. currentsegment)` and `segmentsize`). -/
structure Segments where
  closed : List Nat := []
  size : Nat := 0
  deriving DecidableEq, Repr

/-- Account for `diff` bytes: close the segment if they do not fit any more. The
last entry of `IOsegment` is never closed. -/
def Segments.account (s : Segments) (diff : Nat) : Segments :=
  if segmentLimit < s.size + diff then
    if s.closed.length < ecMaxIoSegments - 1 then ⟨s.closed ++ [s.size], diff⟩ else s
  else ⟨s.closed, s.size + diff⟩

/-- The variables of `ecx_main_config_map_group` and the work counters of the group. -/
structure Layout where
  logAddr : Nat := 0
  bitPos : Nat := 0
  segments : Segments := {}
  outputsWKC : Nat := 0
  inputsWKC : Nat := 0
  deriving DecidableEq, Repr

/-- Count a slave for the work counter of its direction. -/
def Layout.addWKC (l : Layout) (dir : Direction) (add : Bool) : Layout :=
  match dir with
  | .output => { l with outputsWKC := l.outputsWKC + add.toNat }
  | .input => { l with inputsWKC := l.inputsWKC + add.toNat }

/-- Store what a create-mappings call has found. -/
def EcSlave.setMapping (s : EcSlave) (dir : Direction) (fmmus : List Fmmu) : EcSlave :=
  match dir with
  | .output =>
      { s with
        outputs := s.outputs.or (fmmus.head?.map Fmmu.logStart)
        ostartbit := if s.outputs = none then (fmmus.head?.map Fmmu.logStartbit).getD 0
          else s.ostartbit
        fmmu := s.fmmu ++ fmmus }
  | .input =>
      { s with
        inputs := s.inputs.or (fmmus.head?.map Fmmu.logStart)
        istartbit := if s.inputs = none then (fmmus.head?.map Fmmu.logStartbit).getD 0
          else s.istartbit
        fmmu := s.fmmu ++ fmmus }

/-- The common body of the two create-mappings functions. The search for a free FMMU
in the input direction stops at `FMMUunused`, whose entry is zero. -/
def createMappings (dir : Direction) (s : EcSlave) (l : Layout) : Option (EcSlave × Layout) :=
  (mapLoop dir (s.bits dir) (s.bytes dir) s.sm (ecMaxFmmu - s.fmmu.length)
      { logAddr := l.logAddr, bitPos := l.bitPos }).map fun st =>
    (s.setMapping dir st.fmmus,
      { l with logAddr := st.logAddr, bitPos := st.bitPos }.addWKC dir
        (st.fmmus.any fun f => f.logLength ≠ 0))

/-- `ecx_config_create_output_mappings`. -/
def ecxConfigCreateOutputMappings : EcSlave → Layout → Option (EcSlave × Layout) :=
  createMappings .output

/-- `ecx_config_create_input_mappings`. -/
def ecxConfigCreateInputMappings : EcSlave → Layout → Option (EcSlave × Layout) :=
  createMappings .input

/-- The create-mappings function of a direction. -/
def configCreateMappings : Direction → EcSlave → Layout → Option (EcSlave × Layout)
  | .output => ecxConfigCreateOutputMappings
  | .input => ecxConfigCreateInputMappings

/-- Map one slave in one direction and account for the bytes it has added. -/
def mapSlave (dir : Direction) (s : EcSlave) (l : Layout) : Option (EcSlave × Layout) :=
  if s.bits dir = 0 then some (s, l)
  else
    (configCreateMappings dir s l).map fun r =>
      (r.1, { r.2 with segments := r.2.segments.account (r.2.logAddr - l.logAddr) })

/-- The loop over all slaves in one direction. -/
def mapSlaves (dir : Direction) : List EcSlave → Layout → Option (List EcSlave × Layout)
  | [], l => some ([], l)
  | s :: rest, l =>
      (mapSlave dir s l).bind fun r =>
        (mapSlaves dir rest r.2).map fun r' => (r.1 :: r'.1, r'.2)

/-- Fill up the last byte of a direction. -/
def Layout.pad (l : Layout) : Layout :=
  if l.bitPos ≠ 0 then
    { l with logAddr := l.logAddr + 1, bitPos := 0, segments := l.segments.account 1 }
  else l

/-- The fields of `ec_groupt` that the process-data exchange reads. The group's
outputs start at offset 0 of the process image and its inputs at offset `obytes`. -/
structure EcGroup where
  obytes : Nat
  ibytes : Nat
  outputsWKC : Nat
  inputsWKC : Nat
  ioSegment : List Nat
  isegment : Nat
  ioffset : Nat
  blockLRW : Nat
  hasdc : Bool
  deriving DecidableEq, Repr

/-- What `ec_config_map` and `ec_configdc` leave in `ec_slave` and `ec_group[0]`. -/
structure Mapping where
  slaves : List EcSlave
  group : EcGroup

/-- `ecx_main_config_map_group` for group 0, followed by the DC flag of `ecx_configdc`. -/
def ecConfigMap (bus : List SlaveInfo) : Option Mapping :=
  (mapSlaves .output (bus.map ecxMapSm) {}).bind fun outs =>
    let lo := outs.2.pad
    (mapSlaves .input outs.1 lo).map fun ins =>
      let li := ins.2.pad
      { slaves := ins.1
        group := {
          obytes := lo.logAddr
          ibytes := li.logAddr - lo.logAddr
          outputsWKC := li.outputsWKC
          inputsWKC := li.inputsWKC
          ioSegment := li.segments.closed ++ [li.segments.size]
          isegment := lo.segments.closed.length
          ioffset := lo.segments.size % 2 ^ 16
          blockLRW := ins.1.countP (·.blockLRW)
          hasdc := ins.1.any (·.hasdc) } }

/-- The value that `ec_config_map` returns. -/
def Mapping.ioMapBytes (m : Mapping) : Nat := m.group.obytes + m.group.ibytes

/-- A slave with the given bit lengths, all outputs in sync manager 2 and all inputs
in sync manager 3. -/
def twoSmSlave (obits ibits : UInt16) : SlaveInfo where
  obits := obits
  ibits := ibits
  sm i :=
    if i = 2 then { startAddr := 0x1100, smLength := (obits + 7) / 8, smType := 3 }
    else if i = 3 then { startAddr := 0x1900, smLength := (ibits + 7) / 8, smType := 4 }
    else {}

/-- A drive with the 16 output bytes and 13 input bytes of the default PDO map. -/
def driveSlave : SlaveInfo := twoSmSlave 128 104

end RaipalSoem

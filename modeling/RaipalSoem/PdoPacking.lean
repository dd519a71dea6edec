import RaipalSoem.Actuator
import RaipalSoem.Lib.Record

/-!
# The PDO encoding

The RxPDO of a map is a record of seven fields, its TxPDO one of six. Every map
whose fields are disjoint encodes commands and feedback without loss: what
`writeCommand` stores decodes to the command, and `readFeedback` decodes what a
slave has encoded, with the same bytes in both builds.
-/

namespace RaipalSoem

open Lib

/-- The fields of the RxPDO. -/
inductive RxField
  | targetPos
  | targetVel
  | targetTor
  | controlword
  | mode
  | kp
  | kd
  deriving DecidableEq, Repr

/-- The fields of the TxPDO. -/
inductive TxField
  | posAct
  | torAct
  | velAct
  | status
  | temp
  | error
  deriving DecidableEq, Repr

/-- The offsets of the RxPDO fields with their widths. -/
def ActuatorPDOMap.rx (map : ActuatorPDOMap) : Format RxField where
  offset
    | .targetPos => map.offTargetPos
    | .targetVel => map.offTargetVel
    | .targetTor => map.offTargetTor
    | .controlword => map.offControlword
    | .mode => map.offMode
    | .kp => map.offKp
    | .kd => map.offKd
  width
    | .targetPos => 4
    | .targetVel => 4
    | .targetTor => 2
    | .controlword => 1
    | .mode => 1
    | .kp => 2
    | .kd => 2
  width_pos f := by cases f <;> decide

/-- The offsets of the TxPDO fields with their widths. -/
def ActuatorPDOMap.tx (map : ActuatorPDOMap) : Format TxField where
  offset
    | .posAct => map.offPosAct
    | .torAct => map.offTorAct
    | .velAct => map.offVelAct
    | .status => map.offStatus
    | .temp => map.offTemp
    | .error => map.offError
  width
    | .posAct => 4
    | .torAct => 2
    | .velAct => 4
    | .status => 1
    | .temp => 1
    | .error => 1
  width_pos f := by cases f <;> decide

/-- The little-endian encoding of a command, field by field. -/
def ActuatorCommand.bytes (cmd : ActuatorCommand) : RxField → List UInt8
  | .targetPos => leBytes 4 cmd.targetPos.toBitVec
  | .targetVel => leBytes 4 cmd.targetVel.toBitVec
  | .targetTor => leBytes 2 cmd.targetTor.toBitVec
  | .controlword => [cmd.controlword]
  | .mode => [cmd.mode]
  | .kp => leBytes 2 cmd.kp.toBitVec
  | .kd => leBytes 2 cmd.kd.toBitVec

/-- The little-endian encoding of a feedback, field by field. -/
def ActuatorFeedback.bytes (fb : ActuatorFeedback) : TxField → List UInt8
  | .posAct => leBytes 4 fb.pos.toBitVec
  | .torAct => leBytes 2 fb.tor.toBitVec
  | .velAct => leBytes 4 fb.vel.toBitVec
  | .status => [fb.status]
  | .temp => [fb.temp]
  | .error => [fb.error]

/-- The command that a slave decodes from its output area, which starts at `b`. -/
def decodeCommand (map : ActuatorPDOMap) (b : Nat) (m : Image) : ActuatorCommand where
  controlword := m (b + map.offControlword)
  mode := m (b + map.offMode)
  targetPos := .ofBitVec (ofLeBytes 4 (m.read (b + map.offTargetPos) 4))
  targetVel := .ofBitVec (ofLeBytes 4 (m.read (b + map.offTargetVel) 4))
  targetTor := .ofBitVec (ofLeBytes 2 (m.read (b + map.offTargetTor) 2))
  kp := .ofBitVec (ofLeBytes 2 (m.read (b + map.offKp) 2))
  kd := .ofBitVec (ofLeBytes 2 (m.read (b + map.offKd) 2))

/-- The order in which `writeCommand` stores the fields. -/
def rxOrder : List RxField := [.controlword, .mode, .targetPos, .targetVel, .targetTor, .kp, .kd]

/-- The fields of the TxPDO in the order of the header. -/
def txOrder : List TxField := [.posAct, .torAct, .velAct, .status, .temp, .error]

theorem mem_rxOrder (f : RxField) : f ∈ rxOrder := by cases f <;> decide

theorem mem_txOrder (f : TxField) : f ∈ txOrder := by cases f <;> decide

theorem ActuatorCommand.bytes_length (map : ActuatorPDOMap) (cmd : ActuatorCommand) (f : RxField) :
    (cmd.bytes f).length = map.rx.width f := by
  cases f <;> rfl

theorem ActuatorFeedback.bytes_length (map : ActuatorPDOMap) (fb : ActuatorFeedback)
    (f : TxField) : (fb.bytes f).length = map.tx.width f := by
  cases f <;> rfl

/-- In both builds `writeCommand` stores the little-endian record of the command. -/
theorem storeCommand_eq (e : Endian) (map : ActuatorPDOMap) (b : Nat) (cmd : ActuatorCommand)
    (m : Image) : storeCommand e map b cmd m = map.rx.store rxOrder b cmd.bytes m := by
  simp only [storeCommand, wrU8, wrS16, wrS32, hostBytes_htoes, hostBytes_htoel]
  rfl

/-- A single cell that is read back. -/
theorem eq_of_read_one {m : Image} {a : Nat} {v : UInt8} (h : m.read a 1 = [v]) : m a = v :=
  List.singleton_inj.mp h

/-- A record that holds the encoding of a command decodes to it. -/
theorem decodeCommand_of_holds {map : ActuatorPDOMap} {b : Nat} {cmd : ActuatorCommand}
    {m : Image} (h : map.rx.Holds b cmd.bytes m) : decodeCommand map b m = cmd := by
  have hpos : m.read (b + map.offTargetPos) 4 = leBytes 4 cmd.targetPos.toBitVec := h .targetPos
  have hvel : m.read (b + map.offTargetVel) 4 = leBytes 4 cmd.targetVel.toBitVec := h .targetVel
  have htor : m.read (b + map.offTargetTor) 2 = leBytes 2 cmd.targetTor.toBitVec := h .targetTor
  have hkp : m.read (b + map.offKp) 2 = leBytes 2 cmd.kp.toBitVec := h .kp
  have hkd : m.read (b + map.offKd) 2 = leBytes 2 cmd.kd.toBitVec := h .kd
  have hcw : m (b + map.offControlword) = cmd.controlword := eq_of_read_one (h .controlword)
  have hmode : m (b + map.offMode) = cmd.mode := eq_of_read_one (h .mode)
  simp only [decodeCommand, hpos, hvel, htor, hkp, hkd, hcw, hmode, ofLeBytes_leBytes]
  rfl

/-- `readFeedback` returns, in both builds, the feedback whose encoding it finds. -/
theorem readFeedback_of_holds (e : Endian) {map : ActuatorPDOMap} {b : Nat}
    {fb : ActuatorFeedback} {m : Image} (h : map.tx.Holds b fb.bytes m) :
    readFeedback e map (some b) m = some fb := by
  have hpos : rdS32 e m b map.offPosAct = fb.pos := rdS32_of_bytes e (h .posAct)
  have htor : rdS16 e m b map.offTorAct = fb.tor := rdS16_of_bytes e (h .torAct)
  have hvel : rdS32 e m b map.offVelAct = fb.vel := rdS32_of_bytes e (h .velAct)
  have hstatus : rdU8 m b map.offStatus = fb.status := eq_of_read_one (h .status)
  have htemp : rdU8 m b map.offTemp = fb.temp := eq_of_read_one (h .temp)
  have herror : rdU8 m b map.offError = fb.error := eq_of_read_one (h .error)
  rw [readFeedback, Option.map_some, hpos, htor, hvel, hstatus, htemp, herror]

/-- `writeCommand` is lossless and framed, and it stores the same bytes in both builds. -/
theorem writeCommand_lossless {map : ActuatorPDOMap} {obytes : Nat} (h : map.rx.Fits obytes)
    (b : Nat) (cmd : ActuatorCommand) (m : Image) :
    ∃ m', (∀ e, writeCommand e map (some b) cmd m = some m') ∧ decodeCommand map b m' = cmd ∧
      ∀ a, (∀ f, a ∉ map.rx.range b f) → m' a = m a := by
  refine ⟨map.rx.store rxOrder b cmd.bytes m, fun e => ?_, ?_, fun a ha => ?_⟩
  · rw [writeCommand, Option.map_some, storeCommand_eq]
  · apply decodeCommand_of_holds
    exact h.holds_store (by decide) mem_rxOrder (cmd.bytes_length map) b m
  · exact Format.store_of_not_mem rxOrder (cmd.bytes_length map) b m ha

/-- Every feedback has an encoding in the input area, whatever is around it. -/
theorem feedback_encodes {map : ActuatorPDOMap} {ibytes : Nat} (h : map.tx.Fits ibytes) (b : Nat)
    (fb : ActuatorFeedback) (m : Image) :
    ∃ m', map.tx.Holds b fb.bytes m' ∧ ∀ a, a ∉ span b ibytes → m' a = m a := by
  refine ⟨map.tx.store txOrder b fb.bytes m, ?_, fun a ha => ?_⟩
  · exact h.holds_store (by decide) mem_txOrder (fb.bytes_length map) b m
  · apply Format.store_of_not_mem txOrder (fb.bytes_length map) b m
    exact fun f hf => ha (h.range_subset b f hf)

/-- The fields of the default RxPDO take the first 16 bytes. -/
theorem default_rx_fits {n : Nat} (h : 16 ≤ n) : ({} : ActuatorPDOMap).rx.Fits n := by
  apply Format.Fits.of_pairwise mem_rxOrder (by decide)
  intro f
  apply le_trans _ h
  cases f <;> decide

/-- The fields of the default TxPDO take the first 13 bytes. -/
theorem default_tx_fits {n : Nat} (h : 13 ≤ n) : ({} : ActuatorPDOMap).tx.Fits n := by
  apply Format.Fits.of_pairwise mem_txOrder (by decide)
  intro f
  apply le_trans _ h
  cases f <;> decide

/-- The encoding of a map whose fields are disjoint, in areas that hold them: a written
command decodes to itself, all bytes outside its seven fields stay, and both builds write
the same; a feedback can be encoded, and `readFeedback` returns the one it finds encoded.
The default map is such a map for 16 and 13 bytes. -/
theorem pdo_packing (map : ActuatorPDOMap) (obytes ibytes : Nat) (hrx : map.rx.Fits obytes)
    (htx : map.tx.Fits ibytes) (b : Nat) (m : Image) :
    (∀ cmd, ∃ m', (∀ e, writeCommand e map (some b) cmd m = some m') ∧
      decodeCommand map b m' = cmd ∧
      (∀ a, (∀ f, a ∉ map.rx.range b f) → m' a = m a) ∧
      ∀ a, a ∉ span b obytes → m' a = m a) ∧
    (∀ fb : ActuatorFeedback, map.tx.Holds b fb.bytes m →
      ∀ e, readFeedback e map (some b) m = some fb) ∧
    (∀ fb : ActuatorFeedback, ∃ m', map.tx.Holds b fb.bytes m' ∧
      ∀ a, a ∉ span b ibytes → m' a = m a) ∧
    (∀ n, 16 ≤ n → ({} : ActuatorPDOMap).rx.Fits n) ∧
    ∀ n, 13 ≤ n → ({} : ActuatorPDOMap).tx.Fits n := by
  refine ⟨fun cmd => ?_, fun fb hfb e => readFeedback_of_holds e hfb,
    fun fb => feedback_encodes htx b fb m, fun n => default_rx_fits, fun n => default_tx_fits⟩
  obtain ⟨m', hwrite, hdecode, hframe⟩ := writeCommand_lossless hrx b cmd m
  refine ⟨m', hwrite, hdecode, hframe, fun a ha => hframe a fun f hf => ?_⟩
  exact ha (hrx.range_subset b f hf)

/-- With the default map a build for a big-endian host keeps the largest gain. -/
theorem pdo_packing_default :
    ∃ m', writeCommand .big {} (some 0) { kp := 0xFFFF } (fun _ => 0) = some m' ∧
      decodeCommand {} 0 m' = { kp := 0xFFFF } := by
  obtain ⟨m', hwrite, hdecode, _⟩ := (pdo_packing {} 16 13 (default_rx_fits (le_refl 16))
    (default_tx_fits (le_refl 13)) 0 fun _ => 0).1 { kp := 0xFFFF }
  exact ⟨m', hwrite .big, hdecode⟩

end RaipalSoem

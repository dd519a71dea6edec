import RaipalSoem.ProcessImage

/-!
# The actuator

`ethercat_actuator.hpp`: the PDO map, the command and feedback mirrors, their
transfer from and to the process image, and the CiA-402 helper. A slave without
a mapped area has a null base pointer, and an access through it has no result.
-/

namespace RaipalSoem

open Lib

/-- `ActuatorPDOMap` with the default offsets of the header. -/
structure ActuatorPDOMap where
  offTargetPos : Nat := 0x00
  offTargetVel : Nat := 0x04
  offTargetTor : Nat := 0x08
  offControlword : Nat := 0x0A
  offMode : Nat := 0x0B
  offKp : Nat := 0x0C
  offKd : Nat := 0x0E
  offPosAct : Nat := 0x00
  offTorAct : Nat := 0x04
  offVelAct : Nat := 0x06
  offStatus : Nat := 0x0A
  offTemp : Nat := 0x0B
  offError : Nat := 0x0C
  deriving DecidableEq, Repr

def modeNoMode : UInt8 := 0x00
def modeProfilePosition : UInt8 := 0x01
def modeProfileVelocity : UInt8 := 0x03
def modeProfileTorque : UInt8 := 0x04
def modeHoming : UInt8 := 0x06
def modeInterpolationPosition : UInt8 := 0x07
def modeCyclicSynchronousPosition : UInt8 := 0x08
def modeCyclicSynchronousVelocity : UInt8 := 0x09
def modeCyclicSynchronousTorque : UInt8 := 0x0A
def modeProfileCommutation : UInt8 := 0x0F

def cwShutdown : UInt8 := 0x06
def cwSwitchOn : UInt8 := 0x07
def cwEnableOperation : UInt8 := 0x0F
def cwFaultReset : UInt8 := 0x80

/-- `ActuatorFeedback`. -/
structure ActuatorFeedback where
  pos : Int32 := 0
  vel : Int32 := 0
  tor : Int16 := 0
  status : UInt8 := 0
  temp : UInt8 := 0
  error : UInt8 := 0
  deriving DecidableEq, Repr

/-- `ActuatorCommand`. -/
structure ActuatorCommand where
  controlword : UInt8 := cwFaultReset
  mode : UInt8 := 0
  targetPos : Int32 := 0
  targetVel : Int32 := 0
  targetTor : Int16 := 0
  kp : UInt16 := 0
  kd : UInt16 := 0
  deriving DecidableEq, Repr

/-- `EthercatActuator::readFeedback` through the base pointer `inBase()`. -/
def readFeedback (e : Endian) (map : ActuatorPDOMap) (inBase : Option Nat) (m : Image) :
    Option ActuatorFeedback :=
  inBase.map fun b =>
    { pos := rdS32 e m b map.offPosAct
      vel := rdS32 e m b map.offVelAct
      tor := rdS16 e m b map.offTorAct
      status := rdU8 m b map.offStatus
      temp := rdU8 m b map.offTemp
      error := rdU8 m b map.offError }

/-- The seven stores of `EthercatActuator::writeCommand`, in their order. -/
def storeCommand (e : Endian) (map : ActuatorPDOMap) (b : Nat) (cmd : ActuatorCommand)
    (m : Image) : Image :=
  let m := wrU8 m b map.offControlword cmd.controlword
  let m := wrU8 m b map.offMode cmd.mode
  let m := wrS32 e m b map.offTargetPos cmd.targetPos
  let m := wrS32 e m b map.offTargetVel cmd.targetVel
  let m := wrS16 e m b map.offTargetTor cmd.targetTor
  let m := wrS16 e m b map.offKp cmd.kp.toInt16
  wrS16 e m b map.offKd cmd.kd.toInt16

/-- The little-endian encoding of a command in the order of the default map. -/
def commandBytes (cmd : ActuatorCommand) : List UInt8 :=
  leBytes 4 cmd.targetPos.toBitVec ++ leBytes 4 cmd.targetVel.toBitVec ++
    leBytes 2 cmd.targetTor.toBitVec ++ [cmd.controlword] ++ [cmd.mode] ++
    leBytes 2 cmd.kp.toBitVec ++ leBytes 2 cmd.kd.toBitVec

theorem commandBytes_length (cmd : ActuatorCommand) : (commandBytes cmd).length = 16 := by
  simp [commandBytes]

/-- Byte 10 of the encoding is the control word. -/
theorem commandBytes_controlword (cmd : ActuatorCommand)
    (h : 10 < (commandBytes cmd).length) : (commandBytes cmd)[10] = cmd.controlword := by
  simp [commandBytes]

/-- With the default map the seven stores fill 16 bytes in a row. -/
theorem storeCommand_default (e : Endian) (b : Nat) (cmd : ActuatorCommand) (m : Image) :
    storeCommand e {} b cmd m = m.write b (commandBytes cmd) := by
  have hkp : cmd.kp.toInt16.toBitVec = cmd.kp.toBitVec := rfl
  have hkd : cmd.kd.toInt16.toBitVec = cmd.kd.toBitVec := rfl
  -- the control word and the mode are stored first, but their bytes come after the targets
  have hswap : ∀ (m : Image) (off : Nat) (vs : List UInt8), off + vs.length ≤ 10 →
      ((m.write (b + 10) [cmd.controlword]).write (b + 11) [cmd.mode]).write (b + off) vs =
        ((m.write (b + off) vs).write (b + 10) [cmd.controlword]).write (b + 11) [cmd.mode] := by
    intro m off vs hoff
    rw [Memory.write_comm _ (b + 11) (b + off) _ _ (Or.inr (by omega)),
      Memory.write_comm _ (b + 10) (b + off) _ _ (Or.inr (by omega))]
  simp only [storeCommand, wrU8, wrS16, wrS32, hostBytes_htoes, hostBytes_htoel, hkp, hkd]
  rw [hswap _ 0 _ (by simp), hswap _ 4 _ (by simp), hswap _ 8 _ (by simp)]
  simp only [commandBytes, Memory.write_append, List.length_append, leBytes_length,
    List.length_singleton, Nat.add_zero, Nat.reduceAdd]

/-- `EthercatActuator::writeCommand` through the base pointer `outBase()`. -/
def writeCommand (e : Endian) (map : ActuatorPDOMap) (outBase : Option Nat)
    (cmd : ActuatorCommand) (m : Image) : Option Image :=
  outBase.map fun b => storeCommand e map b cmd m

/-- `EthercatActuator::advanceCiA402`. -/
def advanceCiA402 (fb : ActuatorFeedback) (cmd : ActuatorCommand) : ActuatorCommand :=
  match fb.status with
  | 0x21 => { cmd with controlword := cwSwitchOn }
  | 0x23 => { cmd with controlword := cwEnableOperation }
  | 0x27 => { cmd with controlword := cwEnableOperation }
  | 0x40 => { cmd with controlword := cwShutdown }
  | 0x08 => { cmd with controlword := cwFaultReset }
  | _ => cmd

/-- The controlword that a recognised status asks for. -/
def controlwordFor (status : UInt8) : Option UInt8 :=
  if status = 0x40 then some 0x06
  else if status = 0x21 then some 0x07
  else if status = 0x23 ∨ status = 0x27 then some 0x0F
  else if status = 0x08 then some 0x80
  else none

/-- The helper rewrites the controlword of a recognised status and nothing else. -/
theorem advanceCiA402_eq (fb : ActuatorFeedback) (cmd : ActuatorCommand) :
    advanceCiA402 fb cmd =
      { cmd with controlword := (controlwordFor fb.status).getD cmd.controlword } := by
  unfold advanceCiA402
  split
  next h => simp [controlwordFor, h, cwSwitchOn]
  next h => simp [controlwordFor, h, cwEnableOperation]
  next h => simp [controlwordFor, h, cwEnableOperation]
  next h => simp [controlwordFor, h, cwShutdown]
  next h => simp [controlwordFor, h, cwFaultReset]
  next h₁ h₂ h₃ h₄ h₅ => simp_all [controlwordFor]

end RaipalSoem

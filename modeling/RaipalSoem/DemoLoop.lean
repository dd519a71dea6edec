import RaipalSoem.Actuator
import RaipalSoem.Lib.Latch
import RaipalSoem.Lib.Sweep

/-!
# The command loop of the demo

The state that `main` keeps between two exchanges is the array of commands and
the array of feedback mirrors. An exchange contributes a work counter and, for
every slave, the feedback that `readFeedback` then decodes. One iteration sends
the commands it finds and, if the work counter passes the gate, sweeps over the
slaves in order.
-/

namespace RaipalSoem

open Lib

variable {n : Nat}

/-- `actuator_cfg_t`. -/
structure ActuatorCfg where
  name : String := ""
  mode : UInt8 := 0
  targetTorque : Int16 := 0
  targetVelocity : Int32 := 0
  targetPosition : Int32 := 0
  kp : UInt16 := 0
  kd : UInt16 := 0
  deriving DecidableEq, Repr

/-- What one `tickOnce` gives the loop: the work counter, and the feedback that
each slave's input area holds afterwards. -/
structure Outcome (n : Nat) where
  wkc : Int
  feedback : Fin n → ActuatorFeedback

/-- The vectors `cmds` and `fbs` of `main`. -/
@[ext] structure DemoState (n : Nat) where
  cmds : Fin n → ActuatorCommand
  fbs : Fin n → ActuatorFeedback

/-- The command and the feedback mirror of one slave. -/
def DemoState.cell (s : DemoState n) (k : Fin n) : ActuatorCommand × ActuatorFeedback :=
  (s.cmds k, s.fbs k)

/-- The assignments to `cmds[k]` before the loop. -/
def presetCommand (cfg : ActuatorCfg) (cmd : ActuatorCommand) : ActuatorCommand :=
  { cmd with
    controlword := cwFaultReset
    mode := cfg.mode
    targetTor := cfg.targetTorque
    targetVel := cfg.targetVelocity
    targetPos := cfg.targetPosition
    kp := cfg.kp
    kd := cfg.kd }

/-- Body of the initialisation loop for slave `k`. -/
def presetBody (cfg : Fin n → ActuatorCfg) (s : DemoState n) (k : Fin n) : DemoState n :=
  { s with cmds := Function.update s.cmds k (presetCommand (cfg k) (s.cmds k)) }

/-- The arrays when the loop starts: default members, then the preset pass. -/
def demoInit (cfg : Fin n → ActuatorCfg) : DemoState n :=
  (List.finRange n).foldl (presetBody cfg) ⟨fun _ => {}, fun _ => {}⟩

/-- What `main` does once a drive reports `0x27`. -/
def streamSetpoint (cfg : ActuatorCfg) (cmd : ActuatorCommand) : ActuatorCommand :=
  let cmd := { cmd with controlword := cwEnableOperation, mode := cfg.mode }
  let cmd :=
    if cfg.mode = modeCyclicSynchronousTorque then { cmd with targetTor := cfg.targetTorque }
    else if cfg.mode = modeCyclicSynchronousVelocity then
      { cmd with targetVel := cfg.targetVelocity }
    else if cfg.mode = modeCyclicSynchronousPosition then
      { cmd with targetPos := cfg.targetPosition }
    else if cfg.mode = modeProfileTorque then { cmd with targetTor := cfg.targetTorque }
    else if cfg.mode = modeProfileVelocity then { cmd with targetVel := cfg.targetVelocity }
    else if cfg.mode = modeProfilePosition then { cmd with targetPos := cfg.targetPosition }
    else cmd
  { cmd with kp := cfg.kp, kd := cfg.kd }

/-- The command of one slave after an accepted exchange. -/
def nextCommand (cfg : ActuatorCfg) (fb : ActuatorFeedback) (cmd : ActuatorCommand) :
    ActuatorCommand :=
  let cmd := advanceCiA402 fb cmd
  if fb.status = 0x27 then streamSetpoint cfg cmd else cmd

/-- Body of the feedback loop for slave `k`. -/
def feedbackBody (cfg : Fin n → ActuatorCfg) (fb : Fin n → ActuatorFeedback)
    (s : DemoState n) (k : Fin n) : DemoState n :=
  { cmds := Function.update s.cmds k (nextCommand (cfg k) (fb k) (s.cmds k))
    fbs := Function.update s.fbs k (fb k) }

/-- The rest of an iteration, once `tickOnce` has returned. -/
def demoStep (expectedWKC : Int) (cfg : Fin n → ActuatorCfg) (s : DemoState n)
    (o : Outcome n) : DemoState n :=
  if expectedWKC ≤ o.wkc then (List.finRange n).foldl (feedbackBody cfg o.feedback) s else s

/-- The arrays after the given exchanges. -/
def demoRun (expectedWKC : Int) (cfg : Fin n → ActuatorCfg) (os : List (Outcome n)) :
    DemoState n :=
  os.foldl (demoStep expectedWKC cfg) (demoInit cfg)

/-- The commands that `main` writes in the successive iterations, from state `s`. -/
def writtenFrom (expectedWKC : Int) (cfg : Fin n → ActuatorCfg) :
    DemoState n → List (Outcome n) → List (Fin n → ActuatorCommand)
  | _, [] => []
  | s, o :: os => s.cmds :: writtenFrom expectedWKC cfg (demoStep expectedWKC cfg s o) os

/-- The commands of a run, one entry for each iteration. -/
def written (expectedWKC : Int) (cfg : Fin n → ActuatorCfg) (os : List (Outcome n)) :
    List (Fin n → ActuatorCommand) :=
  writtenFrom expectedWKC cfg (demoInit cfg) os

section Cells

theorem presetBody_local (cfg : Fin n → ActuatorCfg) :
    Local DemoState.cell (fun k c => (presetCommand (cfg k) c.1, c.2)) (presetBody cfg) := by
  intro s k j
  by_cases h : j = k
  · subst j
    simp [DemoState.cell, presetBody]
  · simp [DemoState.cell, presetBody, h]

theorem feedbackBody_local (cfg : Fin n → ActuatorCfg) (fb : Fin n → ActuatorFeedback) :
    Local DemoState.cell (fun k c => (nextCommand (cfg k) (fb k) c.1, fb k))
      (feedbackBody cfg fb) := by
  intro s k j
  by_cases h : j = k
  · subst j
    simp [DemoState.cell, feedbackBody]
  · simp [DemoState.cell, feedbackBody, h]

theorem demoInit_cell (cfg : Fin n → ActuatorCfg) (k : Fin n) :
    (demoInit cfg).cell k = (presetCommand (cfg k) {}, {}) :=
  (presetBody_local cfg).finRange _ k

/-- An accepted exchange reaches each slave with its own feedback only. -/
theorem demoStep_accepted (w : Int) (cfg : Fin n → ActuatorCfg) (s : DemoState n)
    (o : Outcome n) (h : w ≤ o.wkc) (k : Fin n) :
    (demoStep w cfg s o).cell k =
      (nextCommand (cfg k) (o.feedback k) (s.cmds k), o.feedback k) := by
  rw [demoStep, if_pos h]
  exact (feedbackBody_local cfg o.feedback).finRange s k

/-- A rejected exchange changes no command and no feedback mirror. -/
theorem demoStep_rejected (w : Int) (cfg : Fin n → ActuatorCfg) (s : DemoState n)
    (o : Outcome n) (h : o.wkc < w) : demoStep w cfg s o = s :=
  if_neg (by omega)

end Cells

section Runs

@[simp] theorem demoRun_concat (w : Int) (cfg : Fin n → ActuatorCfg) (os : List (Outcome n))
    (o : Outcome n) : demoRun w cfg (os ++ [o]) = demoStep w cfg (demoRun w cfg os) o := by
  simp [demoRun]

theorem writtenFrom_length (w : Int) (cfg : Fin n → ActuatorCfg) (s : DemoState n)
    (os : List (Outcome n)) : (writtenFrom w cfg s os).length = os.length := by
  induction os generalizing s with
  | nil => rfl
  | cons o os ih => simp [writtenFrom, ih]

theorem writtenFrom_getElem? (w : Int) (cfg : Fin n → ActuatorCfg) (s : DemoState n)
    (os : List (Outcome n)) (i : Nat) (hi : i < os.length) :
    (writtenFrom w cfg s os)[i]? = some ((os.take i).foldl (demoStep w cfg) s).cmds := by
  induction os generalizing s i with
  | nil => simp at hi
  | cons o os ih =>
      cases i with
      | zero => simp [writtenFrom]
      | succ i =>
          have hi : i < os.length := by simpa using hi
          simpa [writtenFrom] using ih (demoStep w cfg s o) i hi

/-- Iteration `i` writes the commands left by the exchanges before it. -/
theorem written_getElem? (w : Int) (cfg : Fin n → ActuatorCfg) (os : List (Outcome n))
    (i : Nat) (hi : i < os.length) :
    (written w cfg os)[i]? = some (demoRun w cfg (os.take i)).cmds :=
  writtenFrom_getElem? w cfg (demoInit cfg) os i hi

end Runs

end RaipalSoem

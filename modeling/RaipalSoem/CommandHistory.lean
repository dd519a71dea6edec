import RaipalSoem.DemoLoop

/-!
# The commands of the demo as a function of the history

The specification of a drive's command reads nothing but the configuration of
that drive and the past exchanges: the setpoints are those of the configuration,
and the controlword answers the last status that was accepted and recognised.
The loop with its mutable arrays computes exactly this function.
-/

namespace RaipalSoem

open Lib

variable {n : Nat}

/-- What one slave contributes to the history: the gate and its own status. -/
def slaveView (k : Fin n) (o : Outcome n) : Int × UInt8 := (o.wkc, (o.feedback k).status)

/-- The controlword that a status asks for when the work counter passes the gate. -/
def answer (w : Int) (view : Int × UInt8) : Option UInt8 :=
  if w ≤ view.1 then controlwordFor view.2 else none

/-- The controlword that an exchange asks for, if it was accepted and the slave
reported a recognised status. -/
def heard (w : Int) (k : Fin n) (o : Outcome n) : Option UInt8 := answer w (slaveView k o)

theorem heard_accepted {w : Int} {k : Fin n} {o : Outcome n} (h : w ≤ o.wkc) :
    heard w k o = controlwordFor (o.feedback k).status := if_pos h

theorem heard_rejected {w : Int} {k : Fin n} {o : Outcome n} (h : o.wkc < w) :
    heard w k o = none := if_neg (by simp only [slaveView]; omega)

/-- Search the history backwards for the last exchange that was heard. -/
def historyControlword (w : Int) (hist : List (Outcome n)) (k : Fin n) : UInt8 :=
  (hist.reverse.findSome? (heard w k)).getD 0x80

/-- The command with the setpoints of a configuration and a given controlword. -/
def setpointCommand (cfg : ActuatorCfg) (cw : UInt8) : ActuatorCommand :=
  { controlword := cw
    mode := cfg.mode
    targetPos := cfg.targetPosition
    targetVel := cfg.targetVelocity
    targetTor := cfg.targetTorque
    kp := cfg.kp
    kd := cfg.kd }

/-- The command that the history prescribes for one slave. -/
def historyCommand (w : Int) (cfg : Fin n → ActuatorCfg) (hist : List (Outcome n))
    (k : Fin n) : ActuatorCommand :=
  setpointCommand (cfg k) (historyControlword w hist k)

theorem presetCommand_eq (cfg : ActuatorCfg) (cmd : ActuatorCommand) :
    presetCommand cfg cmd = setpointCommand cfg 0x80 := rfl

/-- Streaming the setpoints repeats those that were preset. -/
theorem streamSetpoint_setpointCommand (cfg : ActuatorCfg) (cw : UInt8) :
    streamSetpoint cfg (setpointCommand cfg cw) = setpointCommand cfg 0x0F := by
  unfold streamSetpoint setpointCommand
  dsimp only
  split_ifs <;> rfl

/-- An accepted exchange changes no more than the controlword. -/
theorem nextCommand_setpointCommand (cfg : ActuatorCfg) (fb : ActuatorFeedback) (cw : UInt8) :
    nextCommand cfg fb (setpointCommand cfg cw) =
      setpointCommand cfg ((controlwordFor fb.status).getD cw) := by
  have hadv : advanceCiA402 fb (setpointCommand cfg cw) =
      setpointCommand cfg ((controlwordFor fb.status).getD cw) := by
    rw [advanceCiA402_eq]
    rfl
  by_cases h : fb.status = 0x27
  · simp only [nextCommand, if_pos h, hadv, streamSetpoint_setpointCommand]
    simp [controlwordFor, h]
  · simp only [nextCommand, if_neg h, hadv]

/-- Each command of a run is the preset one with the latched controlword. -/
theorem demoRun_cmds (w : Int) (cfg : Fin n → ActuatorCfg) (os : List (Outcome n))
    (k : Fin n) :
    (demoRun w cfg os).cmds k = setpointCommand (cfg k) (latch (heard w k) 0x80 os) := by
  induction os using List.reverseRecOn with
  | nil =>
      have h := demoInit_cell cfg k
      rw [presetCommand_eq] at h
      exact congrArg Prod.fst h
  | append_singleton os o ih =>
      rw [demoRun_concat, latch_concat]
      by_cases h : w ≤ o.wkc
      · have hc := congrArg Prod.fst (demoStep_accepted w cfg (demoRun w cfg os) o h k)
        rw [ih, nextCommand_setpointCommand] at hc
        rw [heard_accepted h]
        exact hc
      · have hr : o.wkc < w := by omega
        rw [demoStep_rejected w cfg _ o hr, ih, heard_rejected hr, Option.getD_none]

/-- The controlword of a run is the latch of what was heard. -/
theorem demoRun_controlword (w : Int) (cfg : Fin n → ActuatorCfg) (os : List (Outcome n))
    (k : Fin n) : ((demoRun w cfg os).cmds k).controlword = latch (heard w k) 0x80 os := by
  rw [demoRun_cmds]
  rfl

theorem demoRun_cmds_eq_history (w : Int) (cfg : Fin n → ActuatorCfg) (os : List (Outcome n)) :
    (demoRun w cfg os).cmds = historyCommand w cfg os := by
  funext k
  rw [demoRun_cmds, latch_eq_findSome]
  rfl

theorem written_eq_history (w : Int) (cfg : Fin n → ActuatorCfg) (os : List (Outcome n)) :
    written w cfg os =
      (List.range os.length).map fun i => historyCommand w cfg (os.take i) := by
  apply List.ext_getElem?
  intro i
  by_cases hi : i < os.length
  · rw [written_getElem? w cfg os i hi, demoRun_cmds_eq_history]
    simp [hi]
  · rw [List.getElem?_eq_none (by rw [written, writtenFrom_length]; omega),
      List.getElem?_eq_none (by simp; omega)]

theorem historyCommand_congr (w : Int) {cfg cfg' : Fin n → ActuatorCfg}
    {hist hist' : List (Outcome n)} {k : Fin n} (hcfg : cfg' k = cfg k)
    (hview : hist'.map (slaveView k) = hist.map (slaveView k)) :
    historyCommand w cfg' hist' k = historyCommand w cfg hist k := by
  have hcw : historyControlword w hist' k = historyControlword w hist k := by
    unfold historyControlword
    rw [← latch_eq_findSome, ← latch_eq_findSome]
    calc
      latch (heard w k) 0x80 hist' = latch (answer w) 0x80 (hist'.map (slaveView k)) :=
        (latch_map (answer w) (slaveView k) 0x80 hist').symm
      _ = latch (answer w) 0x80 (hist.map (slaveView k)) := by rw [hview]
      _ = latch (heard w k) 0x80 hist := latch_map (answer w) (slaveView k) 0x80 hist
  simp only [historyCommand, hcw, hcfg]

/-- The loop writes, in every iteration of every run, the commands that the
history of the earlier exchanges prescribes. A rejected exchange is a stutter
step, and a drive's commands depend on its own configuration and statuses only. -/
theorem demo_refines_history (w : Int) (cfg : Fin n → ActuatorCfg) (os : List (Outcome n)) :
    written w cfg os =
        (List.range os.length).map (fun i => historyCommand w cfg (os.take i)) ∧
      (∀ (s : DemoState n) (o : Outcome n), o.wkc < w → demoStep w cfg s o = s) ∧
      ∀ (cfg' : Fin n → ActuatorCfg) (os' : List (Outcome n)) (k : Fin n), cfg' k = cfg k →
        os'.map (slaveView k) = os.map (slaveView k) →
          (written w cfg' os').map (fun cmds => cmds k) =
            (written w cfg os).map (fun cmds => cmds k) := by
  refine ⟨written_eq_history w cfg os, fun s o => demoStep_rejected w cfg s o, ?_⟩
  intro cfg' os' k hcfg hview
  have hlen : os'.length = os.length := by simpa using congrArg List.length hview
  rw [written_eq_history, written_eq_history, hlen, List.map_map, List.map_map]
  apply List.map_congr_left
  intro i _
  apply historyCommand_congr w hcfg
  rw [List.map_take, List.map_take, hview]

/-- One slave that reports switch-on-disabled, is then lost for one exchange,
and reports ready-to-switch-on afterwards. -/
theorem demo_refines_history_lost_frame :
    (written 3 (fun _ : Fin 1 => { mode := 8 })
        [⟨3, fun _ => { status := 0x40 }⟩, ⟨-1, fun _ => { status := 0x27 }⟩,
          ⟨3, fun _ => { status := 0x21 }⟩, ⟨3, fun _ => { status := 0x23 }⟩]).map
        (fun cmds => (cmds 0).controlword) = [0x80, 0x06, 0x06, 0x07] ∧
      demoStep 3 (fun _ : Fin 1 => { mode := 8 }) (demoInit fun _ => { mode := 8 })
        ⟨-1, fun _ => { status := 0x27 }⟩ = demoInit fun _ => { mode := 8 } := by
  obtain ⟨hw, hs, _⟩ := demo_refines_history 3 (fun _ : Fin 1 => { mode := 8 })
    [⟨3, fun _ => { status := 0x40 }⟩, ⟨-1, fun _ => { status := 0x27 }⟩,
      ⟨3, fun _ => { status := 0x21 }⟩, ⟨3, fun _ => { status := 0x23 }⟩]
  refine ⟨?_, hs _ _ (by decide)⟩
  rw [hw]
  decide

end RaipalSoem

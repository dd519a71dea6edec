import RaipalSoem.FaultReset
import RaipalSoem.Lib.Progress

/-!
# Closed-loop bring-up

The loop of `main` runs against drives that follow the CiA-402 power states. An
exchange delivers the controlword or loses it, and the status it returns is
sampled before or after the drive has reacted. For one slave the closed loop is
a system on the pair of drive and latched controlword, and a rank on that pair
counts the accepted exchanges that are still needed.
-/

namespace RaipalSoem

open Lib

variable {n : Nat}

/-- The power states of a drive without quick stop. -/
inductive DriveState
  | switchOnDisabled
  | readyToSwitchOn
  | switchedOn
  | operationEnabled
  | fault
  deriving DecidableEq, Repr

/-- The low status byte that a drive reports in each state. -/
def DriveState.code : DriveState → UInt8
  | .switchOnDisabled => 0x40
  | .readyToSwitchOn => 0x21
  | .switchedOn => 0x23
  | .operationEnabled => 0x27
  | .fault => 0x08

/-- A drive with the reset bit of the last controlword it received. -/
structure Drive where
  state : DriveState
  lastReset : Bool := false
  deriving DecidableEq, Repr

/-- The state that a controlword leads to. A fault is left on a rising edge of
the reset bit, and a clear bit 1 disables the voltage. -/
def Drive.react (d : Drive) (cw : UInt8) : DriveState :=
  match d.state with
  | .fault => if resetBit cw && !d.lastReset then .switchOnDisabled else .fault
  | .switchOnDisabled => if cw = 0x06 then .readyToSwitchOn else .switchOnDisabled
  | .readyToSwitchOn =>
      if cw = 0x07 then .switchedOn
      else if cw &&& 0x02 = 0 then .switchOnDisabled
      else .readyToSwitchOn
  | .switchedOn =>
      if cw = 0x06 then .readyToSwitchOn
      else if cw = 0x0F then .operationEnabled
      else if cw &&& 0x02 = 0 then .switchOnDisabled
      else .switchedOn
  | .operationEnabled =>
      if cw = 0x06 then .readyToSwitchOn
      else if cw = 0x07 then .switchedOn
      else if cw &&& 0x02 = 0 then .switchOnDisabled
      else .operationEnabled

/-- A drive after it has received a controlword. -/
def Drive.receive (d : Drive) (cw : UInt8) : Drive := ⟨d.react cw, resetBit cw⟩

/-- One exchange with the drives. For each slave, `after` tells whether the status
is sampled after the reaction, `delivered` whether a rejected exchange still
delivered the controlword, and `other` holds the rest of the feedback. -/
structure DriveExchange (n : Nat) where
  wkc : Int
  after : Fin n → Bool
  delivered : Fin n → Bool
  other : Fin n → ActuatorFeedback

/-- The arrays of the demo together with the drives on the bus. -/
structure ClosedLoop (n : Nat) where
  demo : DemoState n
  drives : Fin n → Drive

/-- The drives after an exchange. -/
def driveStep (w : Int) (s : ClosedLoop n) (x : DriveExchange n) (k : Fin n) : Drive :=
  if w ≤ x.wkc ∨ x.delivered k = true then (s.drives k).receive (s.demo.cmds k).controlword
  else s.drives k

/-- The outcome that the loop sees. The status of a rejected exchange is arbitrary. -/
def driveOutcome (w : Int) (s : ClosedLoop n) (x : DriveExchange n) : Outcome n where
  wkc := x.wkc
  feedback k :=
    if w ≤ x.wkc then
      { x.other k with
        status := if x.after k then (driveStep w s x k).state.code else (s.drives k).state.code }
    else x.other k

/-- One iteration of the loop against the drives. -/
def closedStep (w : Int) (cfg : Fin n → ActuatorCfg) (s : ClosedLoop n)
    (x : DriveExchange n) : ClosedLoop n :=
  ⟨demoStep w cfg s.demo (driveOutcome w s x), driveStep w s x⟩

/-- The closed loop from given drive states; no drive has seen the reset bit yet. -/
def closedRun (w : Int) (cfg : Fin n → ActuatorCfg) (init : Fin n → DriveState)
    (xs : List (DriveExchange n)) : ClosedLoop n :=
  xs.foldl (closedStep w cfg) ⟨demoInit cfg, fun k => ⟨init k, false⟩⟩

/-- The closed loop never leaves the runs of the open one: its arrays are those
of a run over some outcomes. -/
theorem closedRun_demo (w : Int) (cfg : Fin n → ActuatorCfg) (init : Fin n → DriveState)
    (xs : List (DriveExchange n)) :
    ∃ os, os.length = xs.length ∧ (closedRun w cfg init xs).demo = demoRun w cfg os := by
  induction xs using List.reverseRecOn with
  | nil => exact ⟨[], rfl, rfl⟩
  | append_singleton xs x ih =>
      obtain ⟨os, hlen, hos⟩ := ih
      refine ⟨os ++ [driveOutcome w (closedRun w cfg init xs) x], by simp [hlen], ?_⟩
      rw [demoRun_concat, ← hos]
      simp [closedRun, closedStep]

section Pair

/-- The drive of a slave and the controlword that is latched for it. -/
abbrev Pair := Drive × UInt8

/-- What an exchange means for one slave. -/
inductive PairExchange
  | accepted (after : Bool)
  | rejected (delivered : Bool)
  deriving DecidableEq, Repr

def PairExchange.isAccepted : PairExchange → Bool
  | .accepted _ => true
  | .rejected _ => false

/-- One iteration for one slave. -/
def pairStep (p : Pair) : PairExchange → Pair
  | .accepted after =>
      let d := p.1.receive p.2
      let status := if after then d.state.code else p.1.state.code
      (d, (controlwordFor status).getD p.2)
  | .rejected delivered => (if delivered then p.1.receive p.2 else p.1, p.2)

/-- The controlwords that can be latched while a drive is in a state. They lag the
state by at most the answers under way, and a drive in fault has not yet seen the
reset bit. -/
def Drive.latched (d : Drive) : List UInt8 :=
  match d.state with
  | .fault => if d.lastReset then [] else [0x80]
  | .switchOnDisabled => [0x80, 0x06, 0x07, 0x0F]
  | .readyToSwitchOn => [0x80, 0x06, 0x07]
  | .switchedOn => [0x80, 0x07, 0x0F]
  | .operationEnabled => [0x80, 0x0F]

/-- The number of accepted exchanges after which the drive is surely enabled. -/
def pairRank (p : Pair) : Nat :=
  match p.1.state with
  | .fault => 7
  | .switchOnDisabled => if p.2 = 0x06 then 5 else 6
  | .readyToSwitchOn => if p.2 = 0x80 then 7 else if p.2 = 0x06 then 4 else 3
  | .switchedOn => if p.2 = 0x80 then 7 else if p.2 = 0x07 then 2 else 1
  | .operationEnabled => if p.2 = 0x80 then 7 else 0

/-- One exchange keeps the pair among those that occur and never raises its rank,
and an accepted exchange lowers the rank. -/
theorem pairStep_spec {p : Pair} (h : p.2 ∈ p.1.latched) (x : PairExchange) :
    (pairStep p x).2 ∈ (pairStep p x).1.latched ∧ pairRank (pairStep p x) ≤ pairRank p ∧
      (x.isAccepted = true → pairRank (pairStep p x) ≤ pairRank p - 1) := by
  obtain ⟨⟨state, reset⟩, cw⟩ := p
  have key : ∀ reset, ∀ cw ∈ (Drive.mk state reset).latched, ∀ b,
      ∀ x ∈ [PairExchange.accepted b, .rejected b],
        (pairStep (⟨state, reset⟩, cw) x).2 ∈ (pairStep (⟨state, reset⟩, cw) x).1.latched ∧
        pairRank (pairStep (⟨state, reset⟩, cw) x) ≤ pairRank (⟨state, reset⟩, cw) ∧
        (x.isAccepted = true →
          pairRank (pairStep (⟨state, reset⟩, cw) x) ≤ pairRank (⟨state, reset⟩, cw) - 1) := by
    cases state <;> decide +kernel
  cases x with
  | accepted after => exact key reset cw h after _ (by simp)
  | rejected delivered => exact key reset cw h delivered _ (by simp)

/-- A pair of rank zero is a drive in operation that is told to stay there. -/
theorem pairRank_eq_zero {p : Pair} (h : p.2 ∈ p.1.latched) (hr : pairRank p = 0) :
    p.1.state = .operationEnabled ∧ p.2 = 0x0F := by
  obtain ⟨⟨state, reset⟩, cw⟩ := p
  have key : ∀ reset, ∀ cw ∈ (Drive.mk state reset).latched,
      pairRank (⟨state, reset⟩, cw) = 0 → state = .operationEnabled ∧ cw = 0x0F := by
    cases state <;> decide +kernel
  exact key reset cw h hr

/-- The accepted exchanges still needed are a progress measure of the pair. -/
def pairMeasure : ProgressMeasure pairStep PairExchange.isAccepted where
  inv p := p.2 ∈ p.1.latched
  rank := pairRank
  inv_step _ x h := (pairStep_spec h x).1
  rank_step _ x h := (pairStep_spec h x).2.1
  rank_counted _ x h := (pairStep_spec h x).2.2

end Pair

section Projection

/-- What slave `k` sees of an exchange. -/
def DriveExchange.toPair (w : Int) (k : Fin n) (x : DriveExchange n) : PairExchange :=
  if w ≤ x.wkc then .accepted (x.after k) else .rejected (x.delivered k)

/-- The drive of slave `k` and the controlword latched for it. -/
def ClosedLoop.pair (s : ClosedLoop n) (k : Fin n) : Pair :=
  (s.drives k, (s.demo.cmds k).controlword)

theorem streamSetpoint_controlword (cfg : ActuatorCfg) (cmd : ActuatorCommand) :
    (streamSetpoint cfg cmd).controlword = cwEnableOperation := by
  unfold streamSetpoint
  dsimp only
  split_ifs <;> rfl

theorem nextCommand_controlword (cfg : ActuatorCfg) (fb : ActuatorFeedback)
    (cmd : ActuatorCommand) :
    (nextCommand cfg fb cmd).controlword =
      (controlwordFor fb.status).getD cmd.controlword := by
  by_cases h : fb.status = 0x27
  · simp [nextCommand, streamSetpoint_controlword, h, controlwordFor, cwEnableOperation]
  · simp [nextCommand, h, advanceCiA402_eq]

/-- The closed loop acts on each slave as the pair does. -/
theorem closedStep_pair (w : Int) (cfg : Fin n → ActuatorCfg) (s : ClosedLoop n)
    (x : DriveExchange n) (k : Fin n) :
    (closedStep w cfg s x).pair k = pairStep (s.pair k) (x.toPair w k) := by
  by_cases h : w ≤ x.wkc
  · have hcell := congrArg Prod.fst
      (demoStep_accepted w cfg s.demo (driveOutcome w s x) h k)
    have hcw := congrArg ActuatorCommand.controlword hcell
    rw [nextCommand_controlword] at hcw
    have hdrive : driveStep w s x k = (s.drives k).receive (s.demo.cmds k).controlword := by
      simp [driveStep, h]
    simp only [DriveExchange.toPair, if_pos h, pairStep, ClosedLoop.pair, closedStep]
    refine Prod.ext hdrive ?_
    simpa [DemoState.cell, driveOutcome, h, hdrive] using hcw
  · have hrej := demoStep_rejected w cfg s.demo (driveOutcome w s x) (by
      simpa [driveOutcome] using h)
    simp [DriveExchange.toPair, h, pairStep, ClosedLoop.pair, closedStep, hrej, driveStep]

theorem closedRun_pair (w : Int) (cfg : Fin n → ActuatorCfg) (init : Fin n → DriveState)
    (xs : List (DriveExchange n)) (k : Fin n) :
    (closedRun w cfg init xs).pair k =
      (xs.map (DriveExchange.toPair w k)).foldl pairStep (⟨init k, false⟩, 0x80) := by
  induction xs using List.reverseRecOn with
  | nil =>
      have h := congrArg (fun c => c.1.controlword) (demoInit_cell cfg k)
      simpa [closedRun, ClosedLoop.pair, DemoState.cell, presetCommand, cwFaultReset] using h
  | append_singleton xs x ih =>
      have hstep : closedRun w cfg init (xs ++ [x]) =
          closedStep w cfg (closedRun w cfg init xs) x := by
        simp [closedRun]
      rw [hstep, closedStep_pair, ih]
      simp

theorem countP_toPair (w : Int) (k : Fin n) (xs : List (DriveExchange n)) :
    (xs.map (DriveExchange.toPair w k)).countP PairExchange.isAccepted =
      xs.countP fun x => w ≤ x.wkc := by
  rw [List.countP_map]
  congr 1
  funext x
  by_cases h : w ≤ x.wkc <;> simp [DriveExchange.toPair, h, PairExchange.isAccepted]

end Projection

/-- Seven accepted exchanges enable every drive, from any state and through any
rejected exchanges, and from then on each drive stays enabled and is sent the
enable command. -/
theorem bring_up (w : Int) (cfg : Fin n → ActuatorCfg) (init : Fin n → DriveState)
    (xs more : List (DriveExchange n)) (hcount : 7 ≤ xs.countP fun x => w ≤ x.wkc)
    (k : Fin n) :
    ((closedRun w cfg init (xs ++ more)).drives k).state = .operationEnabled ∧
      ((closedRun w cfg init (xs ++ more)).demo.cmds k).controlword = 0x0F := by
  have hinit : ((⟨init k, false⟩, 0x80) : Pair).2 ∈ (Drive.mk (init k) false).latched := by
    cases init k <;> decide
  have hrank : pairRank (⟨init k, false⟩, 0x80) ≤ 7 := by
    cases init k <;> decide
  have hpair := closedRun_pair w cfg init (xs ++ more) k
  have hinv := pairMeasure.inv_run hinit ((xs ++ more).map (DriveExchange.toPair w k))
  have hzero := pairMeasure.rank_run_eq_zero hinit
    ((xs ++ more).map (DriveExchange.toPair w k)) (by
      rw [countP_toPair, List.countP_append]
      exact hrank.trans (hcount.trans (Nat.le_add_right _ _)))
  rw [← hpair] at hinv hzero
  exact pairRank_eq_zero hinv hzero

/-- A drive that starts in fault, loses the first frame and is then sampled before
every reaction. -/
theorem bring_up_from_fault :
    ((closedRun 3 (fun _ : Fin 1 => { mode := 8 }) (fun _ => .fault)
        (⟨-1, fun _ => false, fun _ => true, fun _ => {}⟩ ::
          List.replicate 7 ⟨3, fun _ => false, fun _ => false, fun _ => {}⟩)).drives 0).state =
      .operationEnabled := by
  have h := bring_up 3 (fun _ : Fin 1 => { mode := 8 }) (fun _ => .fault)
    (⟨-1, fun _ => false, fun _ => true, fun _ => {}⟩ ::
      List.replicate 7 ⟨3, fun _ => false, fun _ => false, fun _ => {}⟩) [] (by decide) 0
  rw [List.append_nil] at h
  exact h.1

/-- Six accepted exchanges are not enough for a drive that starts in fault and is
sampled before every reaction. -/
theorem six_exchanges_from_fault (w : Int) (cfg : Fin n → ActuatorCfg)
    (other : Fin n → ActuatorFeedback) (k : Fin n) :
    ((closedRun w cfg (fun _ => .fault)
        (List.replicate 6 ⟨w, fun _ => false, fun _ => false, other⟩)).drives k).state =
      .switchedOn := by
  have h := closedRun_pair w cfg (fun _ => .fault)
    (List.replicate 6 ⟨w, fun _ => false, fun _ => false, other⟩) k
  simp only [List.map_replicate, DriveExchange.toPair, le_refl, if_true] at h
  have hstate := congrArg (fun p => p.1.state) h
  exact hstate.trans (by decide)

end RaipalSoem

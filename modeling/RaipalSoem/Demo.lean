import RaipalSoem.Master
import RaipalSoem.LoadCfg
import RaipalSoem.Isolation

/-!
# The demo program

`main`, from the arguments to the end of the process. Leaving the scope of the master
runs its destructor, whether by a return or by an exception; `std::exit` does not, and
neither does an access through a null pointer. The command loop goes through the
process image, and agrees with the loop over commands and feedback alone.
-/

namespace RaipalSoem

open Lib

variable {m : Mapping}

/-- The surroundings of a whole run: `loopExchange i` belongs to iteration `i`. -/
structure Env (m : Mapping) extends Startup m where
  argc : Nat
  loopExchange : Nat → Exchange
  document : Document

/-- How the process ends. -/
inductive Exit
  | returned (code : Nat)
  | exited (code : Nat)
  | nullAccess
  deriving DecidableEq, Repr

/-- `cfg[k]`. -/
def cfgAt {n : Nat} (cfg : List ActuatorCfg) (k : Fin n) : ActuatorCfg := cfg.getD k {}

/-- The loop of `main` that reads the feedback of all slaves and steps their commands. -/
def readFeedbacks (e : Endian) (slaves : List EcSlave)
    (cfg : Fin slaves.length → ActuatorCfg) (image : Image) (s : DemoState slaves.length) :
    Option (DemoState slaves.length) :=
  (List.finRange slaves.length).foldlM
    (fun s k => (readFeedback e {} (slaves.get k).inputs image).map fun fb =>
      feedbackBody cfg (fun _ => fb) s k) s

/-- One iteration of the command loop, with exchange `x`. -/
def iteration (e : Endian) (m : Mapping) (cfg : Fin m.slaves.length → ActuatorCfg)
    (x : Exchange) (image : Image) (s : DemoState m.slaves.length) :
    Traced (Event m.slaves.length) (Option (DemoState m.slaves.length)) :=
  match writeCommands e m.slaves s.cmds image with
  | none => ⟨[], none⟩
  | some sent =>
      ⟨[.exchange sent x],
        if m.group.expectedWKC ≤ x.wkc then readFeedbacks e m.slaves cfg x.image s else some s⟩

/-- The command loop from iteration `i` on, with the number of iterations left. The value
tells whether it has run to its end. -/
def commandLoop (e : Endian) (env : Env m) (cfg : Fin m.slaves.length → ActuatorCfg) :
    Nat → Nat → Image → DemoState m.slaves.length → Traced (Event m.slaves.length) Bool
  | 0, _, _, _ => ⟨[], true⟩
  | left + 1, i, image, s =>
      let step := iteration e m cfg (env.loopExchange i) image s
      match step.value with
      | none => ⟨step.trace, false⟩
      | some s' =>
          let rest := commandLoop e env cfg left (i + 1) (env.loopExchange i).image s'
          ⟨step.trace ++ rest.trace, rest.value⟩

/-- `main`. -/
def demoMain (e : Endian) (env : Env m) : Traced (Event m.slaves.length) Exit :=
  if env.argc < 3 then ⟨[], .returned 1⟩
  else
    let master := ethercatMaster env.toStartup
    match master.value with
    | .error _ => ⟨master.trace, .returned 1⟩
    | .ok image =>
        if m.slaves.length ≤ 0 then ⟨master.trace ++ destroyMaster _, .returned 2⟩
        else
          match loadCfg env.document m.slaves.length with
          | .threw => ⟨master.trace ++ destroyMaster _, .returned 1⟩
          | .exited code _ => ⟨master.trace, .exited code⟩
          | .loaded cfg =>
              let loop := commandLoop e env (cfgAt cfg) 10000 0 image (demoInit (cfgAt cfg))
              let trace := master.trace ++ .loaded cfg.length :: loop.trace
              if loop.value then ⟨trace ++ destroyMaster _, .returned 0⟩ else ⟨trace, .nullAccess⟩

/-- Every slave has mapped outputs. -/
def Mapping.HasOutputs (m : Mapping) : Prop := ∀ k, (m.slaves.get k).outputs ≠ none

/-- Every slave has mapped inputs. -/
def Mapping.HasInputs (m : Mapping) : Prop := ∀ k, (m.slaves.get k).inputs ≠ none

section Iteration

variable (e : Endian) (cfg : Fin m.slaves.length → ActuatorCfg) (x : Exchange) (image : Image)
  (s : DemoState m.slaves.length)

theorem writeCommands_isSome_iff (cmds : Fin m.slaves.length → ActuatorCommand) :
    (writeCommands e m.slaves cmds image).isSome = true ↔ m.HasOutputs := by
  unfold writeCommands
  rw [foldlM_isSome_iff (p := fun k => (m.slaves.get k).outputs ≠ none)]
  · simp [Mapping.HasOutputs]
  · intro image k
    cases h : (m.slaves.get k).outputs <;> simp [writeCommand]

theorem readFeedbacks_isSome_iff :
    (readFeedbacks e m.slaves cfg image s).isSome = true ↔ m.HasInputs := by
  unfold readFeedbacks
  rw [foldlM_isSome_iff (p := fun k => (m.slaves.get k).inputs ≠ none)]
  · simp [Mapping.HasInputs]
  · intro s k
    cases h : (m.slaves.get k).inputs <;> simp [readFeedback]

/-- An iteration is completed unless a null pointer is used: for the outputs always, for
the inputs if the exchange is accepted. -/
theorem iteration_isSome_iff :
    (iteration e m cfg x image s).value.isSome = true ↔
      m.HasOutputs ∧ (m.group.expectedWKC ≤ x.wkc → m.HasInputs) := by
  rw [← writeCommands_isSome_iff e image s.cmds]
  unfold iteration
  cases hw : writeCommands e m.slaves s.cmds image with
  | none => simp
  | some sent =>
      by_cases hx : m.group.expectedWKC ≤ x.wkc
      · simp [hx, readFeedbacks_isSome_iff]
      · simp [hx]

/-- A completed iteration sends the image with the commands in it. -/
theorem iteration_trace (h : (iteration e m cfg x image s).value.isSome = true) :
    ∃ sent, writeCommands e m.slaves s.cmds image = some sent ∧
      (iteration e m cfg x image s).trace = [.exchange sent x] := by
  unfold iteration at h ⊢
  cases hw : writeCommands e m.slaves s.cmds image with
  | none =>
      rw [hw] at h
      cases h
  | some sent => exact ⟨sent, rfl, rfl⟩

/-- What the input areas say after an exchange. -/
def Exchange.outcome (e : Endian) (m : Mapping) (x : Exchange) : Outcome m.slaves.length where
  wkc := x.wkc
  feedback k := (readFeedback e {} (m.slaves.get k).inputs x.image).getD {}

/-- On commands and feedback a completed iteration is one step of the abstract loop. -/
theorem iteration_value (h : (iteration e m cfg x image s).value.isSome = true) :
    (iteration e m cfg x image s).value =
      some (demoStep m.group.expectedWKC cfg s (x.outcome e m)) := by
  obtain ⟨hout, hin⟩ := (iteration_isSome_iff e cfg x image s).mp h
  obtain ⟨sent, hsent⟩ := Option.isSome_iff_exists.mp
    ((writeCommands_isSome_iff e image s.cmds).mpr hout)
  unfold iteration demoStep
  rw [hsent]
  dsimp only
  by_cases hx : m.group.expectedWKC ≤ x.wkc
  · rw [if_pos hx, if_pos (show m.group.expectedWKC ≤ (x.outcome e m).wkc from hx)]
    refine foldlM_eq_some _ (fun s k _ => ?_) s
    obtain ⟨b, hb⟩ := Option.ne_none_iff_exists'.mp (hin hx k)
    obtain ⟨fb, hfb⟩ : ∃ fb, readFeedback e {} (m.slaves.get k).inputs x.image = some fb :=
      ⟨_, by rw [hb]; rfl⟩
    have houtcome : (x.outcome e m).feedback k = fb := by
      unfold Exchange.outcome
      dsimp only
      rw [hfb, Option.getD_some]
    rw [hfb, Option.map_some, feedbackBody, feedbackBody, houtcome]
  · rw [if_neg hx, if_neg (show ¬ m.group.expectedWKC ≤ (x.outcome e m).wkc from hx)]

end Iteration

section Loop

variable (e : Endian) (env : Env m) (cfg : Fin m.slaves.length → ActuatorCfg)

/-- The exchanges of the command loop, from iteration `i` on. -/
def Env.outcomes (e : Endian) (env : Env m) (i : Nat) : Nat → List (Outcome m.slaves.length)
  | 0 => []
  | left + 1 => (env.loopExchange i).outcome e m :: env.outcomes e (i + 1) left

/-- The loop runs to its end unless a null pointer is used. -/
theorem commandLoop_completes_iff (left i : Nat) (image : Image) (s : DemoState m.slaves.length) :
    (commandLoop e env cfg left i image s).value = true ↔
      ∀ j < left, m.HasOutputs ∧
        (m.group.expectedWKC ≤ (env.loopExchange (i + j)).wkc → m.HasInputs) := by
  induction left generalizing i image s with
  | zero => simp [commandLoop]
  | succ left ih =>
      have hiter := iteration_isSome_iff e cfg (env.loopExchange i) image s
      unfold commandLoop
      dsimp only
      cases hs : (iteration e m cfg (env.loopExchange i) image s).value with
      | none =>
          rw [hs] at hiter
          refine iff_of_false (by simp) fun h => ?_
          have := hiter.mpr (h 0 (Nat.succ_pos left))
          simp at this
      | some s' =>
          rw [hs] at hiter
          dsimp only
          have hhead := hiter.mp rfl
          have hindex : ∀ j, i + 1 + j = i + (j + 1) := fun j => by omega
          rw [ih, Nat.forall_lt_succ_left]
          simp only [Nat.add_zero, hindex]
          exact (and_iff_right hhead).symm

/-- A loop that can write its commands starts with an exchange of them. -/
theorem commandLoop_head {left i : Nat} {image sent : Image} {s : DemoState m.slaves.length}
    (hleft : 0 < left) (hw : writeCommands e m.slaves s.cmds image = some sent) :
    ∃ rest, (commandLoop e env cfg left i image s).trace =
      .exchange sent (env.loopExchange i) :: rest := by
  obtain ⟨left, rfl⟩ := Nat.exists_eq_add_of_lt hleft
  have htrace : (iteration e m cfg (env.loopExchange i) image s).trace =
      [.exchange sent (env.loopExchange i)] := by
    rw [iteration, hw]
  rw [Nat.zero_add]
  unfold commandLoop
  dsimp only
  cases (iteration e m cfg (env.loopExchange i) image s).value with
  | none => exact ⟨[], htrace⟩
  | some s' => exact ⟨_, by rw [htrace]; rfl⟩

/-- All events of the loop are exchanges. -/
theorem commandLoop_exchanges (left i : Nat) (image : Image) (s : DemoState m.slaves.length) :
    ∀ ev ∈ (commandLoop e env cfg left i image s).trace, ∃ sent x, ev = .exchange sent x := by
  induction left generalizing i image s with
  | zero => simp [commandLoop]
  | succ left ih =>
      have hstep : ∀ ev ∈ (iteration e m cfg (env.loopExchange i) image s).trace,
          ∃ sent x, ev = .exchange sent x := by
        unfold iteration
        cases writeCommands e m.slaves s.cmds image with
        | none => simp
        | some sent => simp
      unfold commandLoop
      dsimp only
      cases (iteration e m cfg (env.loopExchange i) image s).value with
      | none => exact hstep
      | some s' =>
          intro ev hev
          rcases List.mem_append.mp hev with hev | hev
          · exact hstep ev hev
          · exact ih _ _ _ ev hev

/-- Iteration `j` of a loop that runs to its end sends the commands that the loop over
commands and feedback has reached. -/
theorem commandLoop_refines (left i : Nat) (image : Image) (s : DemoState m.slaves.length)
    (h : (commandLoop e env cfg left i image s).value = true) (j : Nat) (hj : j < left) :
    ∃ before sent, (commandLoop e env cfg left i image s).trace[j]? =
        some (.exchange sent (env.loopExchange (i + j))) ∧
      writeCommands e m.slaves
        (((env.outcomes e i left).take j).foldl (demoStep m.group.expectedWKC cfg) s).cmds before =
          some sent := by
  induction left generalizing i image s j with
  | zero => omega
  | succ left ih =>
      unfold commandLoop at h ⊢
      dsimp only at h ⊢
      cases hs : (iteration e m cfg (env.loopExchange i) image s).value with
      | none =>
          rw [hs] at h
          cases h
      | some s' =>
          rw [hs] at h
          have hsome := congrArg Option.isSome hs
          obtain ⟨sent, hsent, htrace⟩ := iteration_trace e cfg _ image s hsome
          rw [iteration_value e cfg _ image s hsome, Option.some.injEq] at hs
          subst hs
          rw [htrace]
          cases j with
          | zero => exact ⟨image, sent, rfl, hsent⟩
          | succ j =>
              obtain ⟨before, sent', hget, hwrite⟩ := ih (i + 1) _ _ h j (by omega)
              refine ⟨before, sent', ?_, hwrite⟩
              rw [Nat.add_right_comm, Nat.add_assoc] at hget
              exact hget

/-- The command loop of a run sends what the loop over commands and feedback writes. -/
theorem commandLoop_written (left : Nat) (image : Image)
    (h : (commandLoop e env cfg left 0 image (demoInit cfg)).value = true) (j : Nat)
    (hj : j < left) :
    ∃ before sent cmds,
      (written m.group.expectedWKC cfg (env.outcomes e 0 left))[j]? = some cmds ∧
        writeCommands e m.slaves cmds before = some sent ∧
        (commandLoop e env cfg left 0 image (demoInit cfg)).trace[j]? =
          some (.exchange sent (env.loopExchange j)) := by
  have hlength : ∀ i left, (env.outcomes e i left).length = left := by
    intro i left
    induction left generalizing i with
    | zero => rfl
    | succ left ih => rw [Env.outcomes, List.length_cons, ih]
  obtain ⟨before, sent, htrace, hwrite⟩ := commandLoop_refines e env cfg left 0 image _ h j hj
  rw [Nat.zero_add] at htrace
  exact ⟨before, sent, _, written_getElem? _ cfg _ j (by rwa [hlength]), hwrite, htrace⟩

end Loop

section Main

variable (e : Endian) (env : Env m)

/-- The command loop of a run whose configuration is `cfg`. -/
def Env.mainLoop (cfg : List ActuatorCfg) : Traced (Event m.slaves.length) Bool :=
  commandLoop e env (cfgAt cfg) 10000 0
    (opLoop env.toStartup 200 0 env.firstExchange.image).value.1 (demoInit (cfgAt cfg))

/-- The ways through `main` once the master is constructed. -/
inductive Completion (trace : List (Event m.slaves.length)) : Prop
  | threw (load : loadCfg env.document m.slaves.length = .threw)
      (eq : trace = env.waitTrace ++ destroyMaster _)
  | exited (code : Nat) (message : String)
      (load : loadCfg env.document m.slaves.length = .exited code message)
      (eq : trace = env.waitTrace)
  | done (cfg : List ActuatorCfg) (load : loadCfg env.document m.slaves.length = .loaded cfg)
      (loop : (env.mainLoop e cfg).value = true)
      (eq : trace = env.waitTrace ++ (.loaded cfg.length :: (env.mainLoop e cfg).trace) ++
        destroyMaster _)
  | fault (cfg : List ActuatorCfg) (load : loadCfg env.document m.slaves.length = .loaded cfg)
      (loop : (env.mainLoop e cfg).value = false)
      (eq : trace = env.waitTrace ++ .loaded cfg.length :: (env.mainLoop e cfg).trace)

/-- What `main` does with a constructed master. -/
theorem demoMain_completion {env : Env m} (hargc : 3 ≤ env.argc) (hfound : env.Found)
    (hreads : env.ReadsOperational) : Completion e env (demoMain e env).trace := by
  obtain ⟨htrace, hvalue⟩ := ethercatMaster_ok hfound hreads
  have hpos := hfound.length_pos
  unfold demoMain
  rw [if_neg (by omega)]
  dsimp only
  rw [hvalue, htrace]
  dsimp only
  rw [if_neg (by omega)]
  cases hload : loadCfg env.document m.slaves.length with
  | threw => exact .threw hload rfl
  | exited code message => exact .exited code message hload rfl
  | loaded cfg =>
      dsimp only
      split_ifs with hloop
      · exact .done cfg hload hloop rfl
      · exact .fault cfg hload (Bool.eq_false_iff.mpr hloop) rfl

/-- A run that loads a configuration goes on with the command loop, and behind it there is at
most the destructor. -/
theorem demoMain_loaded {env : Env m} (hargc : 3 ≤ env.argc) (hfound : env.Found)
    (hreads : env.ReadsOperational) {cfg : List ActuatorCfg}
    (hload : loadCfg env.document m.slaves.length = .loaded cfg) :
    ∃ t, (demoMain e env).trace =
        env.waitTrace ++ .loaded cfg.length :: (env.mainLoop e cfg).trace ++ t ∧
      t ⊆ destroyMaster _ := by
  cases demoMain_completion e hargc hfound hreads with
  | threw hload' _ =>
      rw [hload] at hload'
      cases hload'
  | exited _ _ hload' _ =>
      rw [hload] at hload'
      cases hload'
  | done cfg' hload' _ htrace =>
      rw [hload] at hload'
      cases hload'
      exact ⟨destroyMaster _, htrace, List.Subset.refl _⟩
  | fault cfg' hload' _ htrace =>
      rw [hload] at hload'
      cases hload'
      exact ⟨[], htrace.trans (List.append_nil _).symm, List.nil_subset _⟩

/-- The ways through `main`. -/
theorem demoMain_cases :
    (env.argc < 3 ∧ (demoMain e env).trace = []) ∨
    (3 ≤ env.argc ∧ ¬(env.Found ∧ env.ReadsOperational) ∧
      (demoMain e env).trace = (ethercatMaster env.toStartup).trace) ∨
    (3 ≤ env.argc ∧ env.Found ∧ env.ReadsOperational ∧
      Completion e env (demoMain e env).trace) := by
  by_cases hargc : env.argc < 3
  · left
    simp [demoMain, hargc]
  right
  have hargc' : 3 ≤ env.argc := by omega
  by_cases h : env.Found ∧ env.ReadsOperational
  · exact Or.inr ⟨hargc', h.1, h.2, demoMain_completion e hargc' h.1 h.2⟩
  · left
    refine ⟨hargc', h, ?_⟩
    have herror : ∃ what, (ethercatMaster env.toStartup).value = .error what := by
      rcases ethercatMaster_cases env.toStartup with ⟨_, _, hvalue⟩ | ⟨_, _, _, hvalue⟩ |
        ⟨_, _, _, _, hvalue⟩ | ⟨_, _, _, hvalue⟩ | ⟨hfound, hreads, _⟩
      · exact ⟨_, hvalue⟩
      · exact ⟨_, hvalue⟩
      · exact ⟨_, hvalue⟩
      · exact ⟨_, hvalue⟩
      · exact absurd ⟨hfound, hreads⟩ h
    obtain ⟨what, hvalue⟩ := herror
    unfold demoMain
    rw [if_neg hargc]
    dsimp only
    rw [hvalue]

end Main

end RaipalSoem

import RaipalSoem.CommandHistory

/-!
# When the enable command is sent

CiA-402 decodes a status byte under a mask; the helper compares the whole byte
and keeps the controlword of a byte it does not list. What is sent after an
accepted exchange is therefore decided by the last status that was listed.
-/

namespace RaipalSoem

open Lib

variable {n : Nat}

/-- The power states of a CiA-402 drive. -/
inductive PowerState
  | notReadyToSwitchOn
  | switchOnDisabled
  | readyToSwitchOn
  | switchedOn
  | operationEnabled
  | quickStopActive
  | faultReactionActive
  | fault
  deriving DecidableEq, Repr

/-- The state that a status byte stands for, with the don't-care bits masked out. -/
def decodeStatus (s : UInt8) : Option PowerState :=
  if s &&& 0x4F = 0x00 then some .notReadyToSwitchOn
  else if s &&& 0x4F = 0x40 then some .switchOnDisabled
  else if s &&& 0x6F = 0x21 then some .readyToSwitchOn
  else if s &&& 0x6F = 0x23 then some .switchedOn
  else if s &&& 0x6F = 0x27 then some .operationEnabled
  else if s &&& 0x6F = 0x07 then some .quickStopActive
  else if s &&& 0x4F = 0x0F then some .faultReactionActive
  else if s &&& 0x4F = 0x08 then some .fault
  else none

/-- The controlword that the iteration after the exchanges `hist` transmits. -/
def sentControlword (w : Int) (cfg : Fin n → ActuatorCfg) (hist : List (Outcome n))
    (k : Fin n) : UInt8 :=
  ((demoRun w cfg hist).cmds k).controlword

/-- It is the controlword that the run really writes in that iteration. -/
theorem written_controlword (w : Int) (cfg : Fin n → ActuatorCfg) (os : List (Outcome n))
    (k : Fin n) (i : Nat) (hi : i < os.length) :
    (written w cfg os)[i]?.map (fun cmds => (cmds k).controlword) =
      some (sentControlword w cfg (os.take i) k) := by
  rw [written_getElem? w cfg os i hi]
  rfl

/-- The most recent exchange that passed the gate. -/
def lastAccepted (w : Int) (hist : List (Outcome n)) : Option (Outcome n) :=
  hist.reverse.find? fun o => w ≤ o.wkc

/-- The most recent accepted exchange in which the slave reported a listed status. -/
def lastListed (w : Int) (hist : List (Outcome n)) (k : Fin n) : Option (Outcome n) :=
  hist.reverse.find? fun o => (heard w k o).isSome

/-- Enable safety as CiA-402 states it, for the iteration after `hist`. -/
def EnableSafe (w : Int) (cfg : Fin n → ActuatorCfg) (hist : List (Outcome n))
    (k : Fin n) : Prop :=
  ∀ o, lastAccepted w hist = some o →
    (sentControlword w cfg hist k = 0x0F →
      decodeStatus (o.feedback k).status = some .switchedOn ∨
        decodeStatus (o.feedback k).status = some .operationEnabled) ∧
    (decodeStatus (o.feedback k).status = some .fault → sentControlword w cfg hist k = 0x80)

/-- A drive that was enabled and then reports quick-stop-active (`0x07`) is sent
the enable command again. -/
theorem enable_sent_in_quickStop :
    ¬ EnableSafe 3 (fun _ : Fin 1 => {})
      [⟨3, fun _ => { status := 0x27 }⟩, ⟨3, fun _ => { status := 0x07 }⟩] 0 := by
  intro h
  have hs := (h ⟨3, fun _ => { status := 0x07 }⟩ rfl).1
  rw [sentControlword, demoRun_controlword] at hs
  revert hs
  decide

theorem controlwordFor_isSome_iff (s : UInt8) :
    (controlwordFor s).isSome ↔
      s = 0x40 ∨ s = 0x21 ∨ s = 0x23 ∨ s = 0x27 ∨ s = 0x08 := by
  unfold controlwordFor
  split_ifs with h₁ h₂ h₃ h₄ <;> simp_all
  tauto

theorem controlwordFor_eq_enable_iff (s : UInt8) :
    controlwordFor s = some 0x0F ↔ s = 0x23 ∨ s = 0x27 := by
  unfold controlwordFor
  split_ifs with h₁ h₂ h₃ h₄ <;> simp_all

/-- The controlword answers the last listed status, and is the preset one before. -/
theorem sentControlword_eq (w : Int) (cfg : Fin n → ActuatorCfg) (hist : List (Outcome n))
    (k : Fin n) :
    sentControlword w cfg hist k = ((lastListed w hist k).bind (heard w k)).getD 0x80 := by
  rw [sentControlword, demoRun_controlword]
  induction hist using List.reverseRecOn with
  | nil => rfl
  | append_singleton hist o ih =>
      rw [lastListed] at ih
      rw [latch_concat, lastListed, List.reverse_concat, List.find?_cons]
      cases h : heard w k o with
      | none => simpa using ih
      | some cw => simp [h]

theorem lastAccepted_eq_some {w : Int} {hist : List (Outcome n)} {o : Outcome n}
    (h : lastAccepted w hist = some o) :
    w ≤ o.wkc ∧ ∃ before after, hist = before ++ o :: after ∧ ∀ r ∈ after, r.wkc < w := by
  obtain ⟨ho, after, before, heq, hrej⟩ := List.find?_eq_some_iff_append.mp h
  refine ⟨by simpa using ho, before.reverse, after.reverse, ?_, ?_⟩
  · simpa using congrArg List.reverse heq
  · intro r hr
    have := hrej r (List.mem_reverse.mp hr)
    simpa using this

/-- The rejected exchanges after the last accepted one leave its answer in place. -/
theorem sentControlword_of_lastAccepted {w : Int} (cfg : Fin n → ActuatorCfg)
    {hist before after : List (Outcome n)} {o : Outcome n} (k : Fin n) (ho : w ≤ o.wkc)
    (heq : hist = before ++ o :: after) (hrej : ∀ r ∈ after, r.wkc < w) :
    sentControlword w cfg hist k =
      (controlwordFor (o.feedback k).status).getD (sentControlword w cfg before k) := by
  subst heq
  simp only [sentControlword, demoRun_controlword]
  have hsplit : before ++ o :: after = (before ++ [o]) ++ after := by simp
  rw [hsplit, latch_append, latch_of_unrecognised _ _ after
    (fun r hr => heard_rejected (hrej r hr)), latch_concat, heard_accepted ho]

/-- Enable safety as the helper provides it. After any history with an accepted
exchange, a listed last status is answered at once: the enable command goes out
only for `0x23` and `0x27`, and the reset command whenever the byte is `0x08`. A
byte that is not listed repeats the controlword of the iteration that exchanged
it, so the enable command goes out exactly when the last listed status was
`0x23` or `0x27`. -/
theorem enable_follows_listed (w : Int) (cfg : Fin n → ActuatorCfg)
    (hist : List (Outcome n)) (k : Fin n) :
    (∀ o, lastAccepted w hist = some o →
      ((o.feedback k).status ∈ [0x40, 0x21, 0x23, 0x27, 0x08] →
        (sentControlword w cfg hist k = 0x0F →
          (o.feedback k).status = 0x23 ∨ (o.feedback k).status = 0x27) ∧
        ((o.feedback k).status = 0x08 → sentControlword w cfg hist k = 0x80)) ∧
      ((o.feedback k).status ∉ [0x40, 0x21, 0x23, 0x27, 0x08] →
        ∃ before after, hist = before ++ o :: after ∧ (∀ r ∈ after, r.wkc < w) ∧
          sentControlword w cfg hist k = sentControlword w cfg before k)) ∧
    (sentControlword w cfg hist k = 0x0F ↔
      ∃ o, lastListed w hist k = some o ∧
        ((o.feedback k).status = 0x23 ∨ (o.feedback k).status = 0x27)) := by
  constructor
  · intro o ho
    obtain ⟨hacc, before, after, heq, hrej⟩ := lastAccepted_eq_some ho
    have hcw := sentControlword_of_lastAccepted cfg k hacc heq hrej
    refine ⟨fun hlisted => ⟨fun henable => ?_, fun hfault => ?_⟩, fun hother => ?_⟩
    · obtain ⟨cw, hcw'⟩ := Option.isSome_iff_exists.mp
        ((controlwordFor_isSome_iff _).mpr (by simpa using hlisted))
      rw [hcw, hcw', Option.getD_some] at henable
      exact (controlwordFor_eq_enable_iff _).mp (henable ▸ hcw')
    · rw [hcw, hfault]
      rfl
    · refine ⟨before, after, heq, hrej, ?_⟩
      have hnone : controlwordFor (o.feedback k).status = none := by
        rw [← Option.not_isSome_iff_eq_none, controlwordFor_isSome_iff]
        simpa using hother
      rw [hcw, hnone, Option.getD_none]
  · rw [sentControlword_eq]
    cases hl : lastListed w hist k with
    | none => simp
    | some o =>
        have ho : (heard w k o).isSome = true := by
          rw [lastListed] at hl
          exact List.find?_some (p := fun o => (heard w k o).isSome) hl
        have hacc : w ≤ o.wkc := by
          by_contra hlt
          rw [heard_rejected (by omega)] at ho
          cases ho
        rw [heard_accepted hacc] at ho
        obtain ⟨cw, hcw⟩ := Option.isSome_iff_exists.mp ho
        simp [heard_accepted hacc, hcw, ← controlwordFor_eq_enable_iff]

/-- The last listed status of the run above is `0x27`, and its answer is repeated. -/
theorem enable_follows_listed_quickStop :
    sentControlword 3 (fun _ : Fin 1 => {})
      [⟨3, fun _ => { status := 0x27 }⟩, ⟨3, fun _ => { status := 0x07 }⟩] 0 = 0x0F :=
  (enable_follows_listed 3 (fun _ : Fin 1 => {})
    [⟨3, fun _ => { status := 0x27 }⟩, ⟨3, fun _ => { status := 0x07 }⟩] 0).2.mpr
    ⟨⟨3, fun _ => { status := 0x27 }⟩, rfl, Or.inr rfl⟩

end RaipalSoem

import RaipalSoem.Master
import RaipalSoem.MapLayout

/-!
# Reaching OPERATIONAL

The constructor returns when the OR of the answers of its last poll is OPERATIONAL.
The number of answers is not looked at, so the last poll proves that all slaves are
operational unless some of them are silent, or report nothing. What a bus may answer
decides whether the constructor can be relied on.
-/

namespace RaipalSoem

open Lib

variable {m : Mapping}

/-- If the constructor returns, then every slave has answered its last poll with exactly
OPERATIONAL; if not, it throws. -/
def OperationalSound (env : Startup m) : Prop :=
  match (ethercatMaster env).value with
  | .ok _ => ∃ p, lastPoll (ethercatMaster env).trace = some p ∧ AllOperational p
  | .error what => what = noSlavesText ∨ what = notOperationalText

/-- Round `j` of the waiting loop is the first one that reads OPERATIONAL. -/
def Startup.FirstOperational (env : Startup m) (j : Nat) : Prop :=
  SomeOperational (env.roundPoll j) ∧ ∀ l < j, ¬ SomeOperational (env.roundPoll l)

/-- Every poll that the loop can make has the property `P`. -/
def Startup.PollsMeet (env : Startup m) (P : Poll m.slaves.length → Prop) : Prop :=
  ∀ i ≤ 200, ∀ p ∈ (env.opPolls i).first :: (env.opPolls i).later, P p

/-- The poll that ends a call is one of those that it can make. -/
theorem PollWindow.ending_mem {n : Nat} (reqstate : UInt16) (w : PollWindow n) :
    w.ending reqstate ∈ w.first :: w.later := by
  unfold PollWindow.ending
  cases h : (w.first :: w.later).find? fun p => statusOf p &&& 0x000f = reqstate with
  | none => exact List.getLast_mem _
  | some p => exact List.mem_of_find?_eq_some h

/-- The last poll of a loop that reads OPERATIONAL is that of the first round to do so. -/
theorem lastPoll_waitTrace {env : Startup m} (hreads : env.ReadsOperational) :
    ∃ j ≤ 200, env.FirstOperational j ∧ lastPoll env.waitTrace = some (env.roundPoll j) := by
  obtain ⟨before, j, hj, htrace, hvalue, hearlier, _⟩ :=
    opLoop_last env 200 0 env.firstExchange.image
  have hop := (opLoop_operational_iff env env.firstExchange.image).mpr hreads
  rw [hvalue, statusOf_eq_iff] at hop
  simp only [Nat.zero_add] at hop htrace hearlier
  refine ⟨j, hj, ⟨hop, hearlier⟩, ?_⟩
  simp [lastPoll, Startup.waitTrace, htrace, Event.poll?, List.findSome?_cons]

/-- If no poll that reads OPERATIONAL hides a slave, the constructor is right about it. -/
theorem operationalSound_of_polls {env : Startup m}
    (h : env.PollsMeet fun p => SomeOperational p → NoneHidden p) : OperationalSound env := by
  unfold OperationalSound
  rcases ethercatMaster_cases env with ⟨_, _, hvalue⟩ | ⟨_, _, _, hvalue⟩ |
    ⟨_, _, _, _, hvalue⟩ | ⟨_, _, _, hvalue⟩ | ⟨_, hreads, htrace, hvalue⟩
  · rw [hvalue]
    exact Or.inl rfl
  · rw [hvalue]
    exact Or.inl rfl
  · rw [hvalue]
    exact Or.inl rfl
  · rw [hvalue]
    exact Or.inr rfl
  · rw [hvalue, htrace]
    obtain ⟨j, hj, hfirst, hlast⟩ := lastPoll_waitTrace hreads
    have hnone := h j hj _ (PollWindow.ending_mem _ (env.opPolls j)) hfirst.1
    exact ⟨_, hlast, hfirst.1.all_iff.mpr hnone⟩

/-- A start-up in which every poll of the waiting loop has the outcome `p`. -/
def steadyStartup (m : Mapping) (p : Poll m.slaves.length) : Startup m :=
  { promptStartup m with opPolls := fun _ => ⟨p, []⟩ }

/-- If the poll reads OPERATIONAL, the constructor is right only if it hides no slave. -/
theorem OperationalSound.noneHidden {p : Poll m.slaves.length} (hcount : 0 < m.slaveCount)
    (hop : SomeOperational p) (h : OperationalSound (steadyStartup m p)) : NoneHidden p := by
  have hround : ∀ j, (steadyStartup m p).roundPoll j = p := fun j => PollWindow.ending_nil _ _
  have hfound : (steadyStartup m p).Found := (promptStartup_reads hcount).1
  have hreads : (steadyStartup m p).ReadsOperational := ⟨0, Nat.zero_le _, by rwa [hround]⟩
  obtain ⟨j, _, _, hlast⟩ := lastPoll_waitTrace hreads
  obtain ⟨htrace, hvalue⟩ := ethercatMaster_ok hfound hreads
  unfold OperationalSound at h
  rw [hvalue, htrace] at h
  obtain ⟨q, hq, hall⟩ := h
  rw [hlast, hround, Option.some.injEq] at hq
  exact hop.all_iff.mp (hq ▸ hall)

/-- On a bus with slaves whose image fits the buffer, and with polls of some kind, the
constructor is right in every start-up exactly when no poll of the kind that reads
OPERATIONAL hides a slave that is silent or reports nothing. -/
theorem operationalSound_iff (bus : List SlaveInfo) (m : Mapping) (h : ecConfigMap bus = some m)
    (hfits : imageBytes bus ≤ ioMapSize) (hpos : 0 < m.slaves.length)
    (P : Poll m.slaves.length → Prop) :
    (∀ env : Startup m, env.PollsMeet P → OperationalSound env) ↔
      ∀ p, P p → SomeOperational p → NoneHidden p := by
  have hcount : 0 < m.slaveCount := by
    rw [(ecConfigMap_laysOut h).slaveCount_eq hfits]
    exact hpos
  constructor
  · intro hsound p hp hop
    refine OperationalSound.noneHidden hcount hop (hsound _ fun i _ q hq => ?_)
    rw [List.mem_singleton.mp hq]
    exact hp
  · exact fun hP env hpolls => operationalSound_of_polls fun i hi p hp => hP p (hpolls i hi p hp)

/-- With two drives that always answer, and never with the word 0, the constructor is right. -/
theorem operationalSound_two_drives :
    ∃ m, ecConfigMap [driveSlave, driveSlave] = some m ∧
      ∀ env : Startup m, env.PollsMeet NoneHidden → OperationalSound env := by
  have hmap : ((ecConfigMap [driveSlave, driveSlave]).map fun m => m.slaves.length) = some 2 := by
    decide +kernel
  obtain ⟨m, hm, hlen⟩ := Option.map_eq_some_iff.mp hmap
  exact ⟨m, hm, (operationalSound_iff _ m hm (by decide +kernel) (by omega) NoneHidden).mpr
    fun _ hp _ => hp⟩

/-- Slave 1 reports OPERATIONAL and all others are silent. -/
def silentPoll (n : Nat) : Poll n :=
  some fun k => if k.val = 0 then some ecStateOperational else none

/-- With two drives on the bus, of which the second one answers none of the polls, the
constructor returns. -/
theorem silent_slave_accepted :
    ∃ m, ecConfigMap [driveSlave, driveSlave] = some m ∧
      ¬ OperationalSound (steadyStartup m (silentPoll m.slaves.length)) := by
  have hmap : ((ecConfigMap [driveSlave, driveSlave]).map fun m => m.slaves.length) = some 2 := by
    decide +kernel
  obtain ⟨m, hm, hlen⟩ := Option.map_eq_some_iff.mp hmap
  have hkept := (ecConfigMap_laysOut hm).slaveCount_eq (by decide +kernel)
  refine ⟨m, hm, fun hsound => ?_⟩
  have hop : SomeOperational (silentPoll m.slaves.length) := by
    refine ⟨_, rfl, ⟨⟨0, by omega⟩, rfl⟩, fun k word hword => ?_⟩
    split_ifs at hword
    exact Or.inr (Option.some.inj hword).symm
  obtain ⟨answers, hanswers, hnone⟩ := OperationalSound.noneHidden (by omega) hop hsound
  cases hanswers
  obtain ⟨word, hword, _⟩ := hnone ⟨1, by omega⟩
  simp at hword

end RaipalSoem

import RaipalSoem.EthercatType
import RaipalSoem.Lib.OneBit
import RaipalSoem.Lib.Trace
import Mathlib.Data.List.FinRange

/-!
# Polling the state of all slaves

`ecx_statecheck` for slave 0. Each round reads the AL status registers of all
slaves with one broadcast, which returns the OR of the registers of the slaves
that answer. The number of answers is the work counter of the broadcast, and the
function throws it away. AL status words are taken in the byte order of the host.
-/

namespace RaipalSoem

open Lib

variable {n : Nat}

/-- What becomes of one broadcast read: the frame is lost, or every slave has
answered with its AL status or stayed silent. -/
abbrev Poll (n : Nat) := Option (Fin n → Option UInt16)

/-- The OR of the AL status words that the frame has collected. -/
def statusOr (answers : Fin n → Option UInt16) : UInt16 :=
  (List.finRange n).foldl (fun word k => word ||| (answers k).getD 0) 0

/-- The work counter of the frame. -/
def answerCount (answers : Fin n → Option UInt16) : Nat :=
  (List.finRange n).countP fun k => (answers k).isSome

/-- `ecx_BRD` of the AL status register: the work counter, and the data buffer after
the call. -/
def ecxBrd (p : Poll n) (data : UInt16) : Int × UInt16 :=
  match p with
  | none => (ecNoFrame, data)
  | some answers =>
      let wkc : Int := answerCount answers
      (wkc, if 0 < wkc then statusOr answers else data)

/-- `rval` of one round of `ecx_statecheck`. -/
def statusOf (p : Poll n) : UInt16 := (ecxBrd p 0).2

/-- The polls that one call of `ecx_statecheck` can make: a first one, and those
that its timer still admits. -/
structure PollWindow (n : Nat) where
  first : Poll n
  later : List (Poll n)

/-- The loop of `ecx_statecheck`: the polls made, and the last `rval`. -/
def statecheckLoop (reqstate : UInt16) : Poll n → List (Poll n) → Traced (Poll n) UInt16
  | p, [] => ⟨[p], statusOf p⟩
  | p, next :: later =>
      if statusOf p &&& 0x000f ≠ reqstate then
        let rest := statecheckLoop reqstate next later
        ⟨p :: rest.trace, rest.value⟩
      else ⟨[p], statusOf p⟩

/-- `ec_statecheck(0, reqstate, timeout)`. The value is what it stores in
`ec_slave[0].state`; the callers do not look at what it returns. -/
def ecStatecheck (reqstate : UInt16) (w : PollWindow n) : Traced (Poll n) UInt16 :=
  statecheckLoop reqstate w.first w.later

/-- The poll that ends a call of `ecx_statecheck`: the first one that reads the requested
state, or the last one that the timer admits. -/
def PollWindow.ending (reqstate : UInt16) (w : PollWindow n) : Poll n :=
  ((w.first :: w.later).find? fun p => statusOf p &&& 0x000f = reqstate).getD
    ((w.first :: w.later).getLast (List.cons_ne_nil _ _))

theorem PollWindow.ending_nil (reqstate : UInt16) (p : Poll n) :
    (PollWindow.mk p []).ending reqstate = p := by
  unfold PollWindow.ending
  cases h : [p].find? fun p => statusOf p &&& 0x000f = reqstate with
  | none => rfl
  | some q => exact List.mem_singleton.mp (List.mem_of_find?_eq_some h)

theorem PollWindow.ending_cons (reqstate : UInt16) (p next : Poll n) (later : List (Poll n)) :
    (PollWindow.mk p (next :: later)).ending reqstate =
      if statusOf p &&& 0x000f ≠ reqstate then (PollWindow.mk next later).ending reqstate
      else p := by
  unfold PollWindow.ending
  split_ifs with h
  · rw [List.find?_cons_of_neg (by simpa using h), List.getLast_cons (List.cons_ne_nil _ _)]
  · rw [List.find?_cons_of_pos (by simpa using h), Option.getD_some]

/-- The stored state is that of the ending poll, which is the last one made. -/
theorem ecStatecheck_last (reqstate : UInt16) (w : PollWindow n) :
    ∃ before, (ecStatecheck reqstate w).trace = before ++ [w.ending reqstate] ∧
      (ecStatecheck reqstate w).value = statusOf (w.ending reqstate) := by
  obtain ⟨p, later⟩ := w
  unfold ecStatecheck
  dsimp only
  induction later generalizing p with
  | nil =>
      rw [PollWindow.ending_nil]
      exact ⟨[], rfl, rfl⟩
  | cons next later ih =>
      rw [PollWindow.ending_cons]
      unfold statecheckLoop
      split_ifs
      · obtain ⟨before, htrace, hvalue⟩ := ih next
        exact ⟨p :: before, by simp [htrace], hvalue⟩
      · exact ⟨[], rfl, rfl⟩

/-- The poll reads OPERATIONAL when some slave reports it and no answer has another bit. -/
def SomeOperational (p : Poll n) : Prop :=
  ∃ answers, p = some answers ∧ (∃ k, answers k = some ecStateOperational) ∧
    ∀ k word, answers k = some word → word = 0 ∨ word = ecStateOperational

/-- All slaves answer, and each reports OPERATIONAL without the error flag. -/
def AllOperational (p : Poll n) : Prop :=
  ∃ answers, p = some answers ∧ ∀ k, answers k = some ecStateOperational

/-- Every slave answers the poll, and none with the word 0. -/
def NoneHidden (p : Poll n) : Prop :=
  ∃ answers, p = some answers ∧ ∀ k, ∃ word, answers k = some word ∧ word ≠ 0

/-- A poll that reads OPERATIONAL proves it for all slaves exactly when it hides none. -/
theorem SomeOperational.all_iff {p : Poll n} (h : SomeOperational p) :
    AllOperational p ↔ NoneHidden p := by
  obtain ⟨answers, rfl, _, hwords⟩ := h
  constructor
  · rintro ⟨_, heq, hall⟩
    cases heq
    exact ⟨answers, rfl, fun k => ⟨ecStateOperational, hall k, by decide⟩⟩
  · rintro ⟨_, heq, hnone⟩
    cases heq
    refine ⟨answers, rfl, fun k => ?_⟩
    obtain ⟨word, hword, hne⟩ := hnone k
    rw [hword, (hwords k word hword).resolve_left hne]

theorem statusOr_toBitVec (answers : Fin n → Option UInt16) :
    (statusOr answers).toBitVec =
      ((List.finRange n).map fun k => ((answers k).getD 0).toBitVec).foldl (· ||| ·) 0 := by
  have hfold : ∀ (ks : List (Fin n)) (word : UInt16),
      (ks.foldl (fun word k => word ||| (answers k).getD 0) word).toBitVec =
        (ks.map fun k => ((answers k).getD 0).toBitVec).foldl (· ||| ·) word.toBitVec := by
    intro ks
    induction ks with
    | nil => exact fun word => rfl
    | cons k ks ih =>
        intro word
        rw [List.foldl_cons, ih, List.map_cons, List.foldl_cons, UInt16.toBitVec_or]
  exact hfold _ 0

theorem statusOr_eq_iff (answers : Fin n → Option UInt16) :
    statusOr answers = ecStateOperational ↔
      (∀ k, (answers k).getD 0 = 0 ∨ (answers k).getD 0 = ecStateOperational) ∧
        ∃ k, (answers k).getD 0 = ecStateOperational := by
  have hop : ecStateOperational.toBitVec = BitVec.twoPow 16 3 := by decide
  have hne : BitVec.twoPow 16 3 ≠ 0#16 := by decide
  rw [← UInt16.toBitVec_inj, statusOr_toBitVec, hop, foldl_or_eq_twoPow]
  simp [hne, ← UInt16.toBitVec_inj, hop]

/-- The word that a poll leaves is OPERATIONAL exactly when nobody contradicts it. -/
theorem statusOf_eq_iff (p : Poll n) : statusOf p = ecStateOperational ↔ SomeOperational p := by
  have hne : (0 : UInt16) ≠ ecStateOperational := by decide
  cases p with
  | none => simp [statusOf, ecxBrd, SomeOperational, hne]
  | some answers =>
      have hstatus : statusOf (some answers) =
          if 0 < answerCount answers then statusOr answers else 0 := by
        simp [statusOf, ecxBrd]
      have hone : ∀ k, answers k = some ecStateOperational → 0 < answerCount answers := by
        intro k hk
        exact List.countP_pos_iff.mpr ⟨k, List.mem_finRange k, by simp [hk]⟩
      have hget : ∀ k, (answers k).getD 0 = ecStateOperational ↔
          answers k = some ecStateOperational := by
        intro k
        cases answers k with
        | none => simpa using hne
        | some word => simp
      have hall : ∀ k, ((answers k).getD 0 = 0 ∨ (answers k).getD 0 = ecStateOperational) ↔
          ∀ word, answers k = some word → word = 0 ∨ word = ecStateOperational := by
        intro k
        cases answers k with
        | none => simp
        | some word => simp
      constructor
      · intro h
        rw [hstatus] at h
        split_ifs at h with hcount
        · obtain ⟨h₁, k, hk⟩ := (statusOr_eq_iff answers).mp h
          exact ⟨answers, rfl, ⟨k, (hget k).mp hk⟩, fun j => (hall j).mp (h₁ j)⟩
        · exact absurd h hne
      · rintro ⟨_, heq, ⟨k, hk⟩, hwords⟩
        cases heq
        rw [hstatus, if_pos (hone k hk)]
        exact (statusOr_eq_iff answers).mpr ⟨fun j => (hall j).mpr (hwords j), k, (hget k).mpr hk⟩

end RaipalSoem

import RaipalSoem.EnableSafety
import RaipalSoem.Lib.Edges

/-!
# Edges of the fault-reset bit

A drive resets a fault when bit 7 of the controlword goes from 0 to 1. The
helper answers every fault report with the same controlword `0x80`, so while the
fault is reported the bit can rise once and is held from then on.
-/

namespace RaipalSoem

open Lib

variable {n : Nat}

/-- Bit 7 of a controlword, the fault-reset bit. -/
def resetBit (cw : UInt8) : Bool := cw &&& 0x80 ≠ 0

/-- The controlwords that slave `k` is sent in the iterations `win`, after the
iterations `before`. -/
def transmittedIn (w : Int) (cfg : Fin n → ActuatorCfg) (before win : List (Outcome n))
    (k : Fin n) : List UInt8 :=
  (writtenFrom w cfg (demoRun w cfg before) win).map fun cmds => (cmds k).controlword

/-- A window is a contiguous part of what the whole run writes. -/
theorem written_append (w : Int) (cfg : Fin n → ActuatorCfg) (before win : List (Outcome n))
    (k : Fin n) :
    (written w cfg (before ++ win)).map (fun cmds => (cmds k).controlword) =
      (written w cfg before).map (fun cmds => (cmds k).controlword) ++
        transmittedIn w cfg before win k := by
  have h : ∀ s : DemoState n, writtenFrom w cfg s (before ++ win) =
      writtenFrom w cfg s before ++
        writtenFrom w cfg (before.foldl (demoStep w cfg) s) win := by
    induction before with
    | nil => intro s; rfl
    | cons o before ih => intro s; simp [writtenFrom, ih]
  rw [written, h, List.map_append]
  rfl

@[simp] theorem transmittedIn_nil (w : Int) (cfg : Fin n → ActuatorCfg)
    (before : List (Outcome n)) (k : Fin n) : transmittedIn w cfg before [] k = [] := rfl

theorem transmittedIn_cons (w : Int) (cfg : Fin n → ActuatorCfg)
    (before win : List (Outcome n)) (o : Outcome n) (k : Fin n) :
    transmittedIn w cfg before (o :: win) k =
      sentControlword w cfg before k :: transmittedIn w cfg (before ++ [o]) win k := by
  simp [transmittedIn, writtenFrom, sentControlword]

theorem sentControlword_concat (w : Int) (cfg : Fin n → ActuatorCfg)
    (before : List (Outcome n)) (o : Outcome n) (k : Fin n) :
    sentControlword w cfg (before ++ [o]) k =
      (heard w k o).getD (sentControlword w cfg before k) := by
  simp only [sentControlword, demoRun_controlword, latch_concat]

/-- Every accepted exchange of the window reports the status `0x08` of a fault. -/
def FaultWindow (w : Int) (win : List (Outcome n)) (k : Fin n) : Prop :=
  ∀ o ∈ win, w ≤ o.wkc → (o.feedback k).status = 0x08

theorem FaultWindow.tail {w : Int} {win : List (Outcome n)} {o : Outcome n} {k : Fin n}
    (h : FaultWindow w (o :: win) k) : FaultWindow w win k :=
  fun x hx => h x (List.mem_cons_of_mem o hx)

theorem faultWindow_replicate (w : Int) (m : Nat) {o : Outcome n} {k : Fin n}
    (h : (o.feedback k).status = 0x08) : FaultWindow w (List.replicate m o) k := by
  intro x hx _
  rw [List.eq_of_mem_replicate hx, h]

/-- In a fault the next controlword is `0x80` or the present one. -/
theorem FaultWindow.sentControlword_head {w : Int} {win : List (Outcome n)} {o : Outcome n}
    {k : Fin n} (h : FaultWindow w (o :: win) k) (cfg : Fin n → ActuatorCfg)
    (before : List (Outcome n)) :
    sentControlword w cfg (before ++ [o]) k =
      if w ≤ o.wkc then 0x80 else sentControlword w cfg before k := by
  rw [sentControlword_concat]
  by_cases ho : w ≤ o.wkc
  · rw [heard_accepted ho, h o (by simp) ho, if_pos ho]
    rfl
  · rw [heard_rejected (by omega), if_neg ho, Option.getD_none]

/-- Once the reset command is latched, a fault window transmits nothing else. -/
theorem FaultWindow.held {w : Int} {win : List (Outcome n)} {k : Fin n}
    (h : FaultWindow w win k) (cfg : Fin n → ActuatorCfg) (before : List (Outcome n))
    (hcw : sentControlword w cfg before k = 0x80) :
    ∀ cw ∈ transmittedIn w cfg before win k, cw = 0x80 := by
  induction win generalizing before with
  | nil => simp
  | cons o win ih =>
      have hnext : sentControlword w cfg (before ++ [o]) k = 0x80 := by
        rw [h.sentControlword_head cfg before, hcw, ite_self]
      intro cw hmem
      rw [transmittedIn_cons] at hmem
      rcases List.mem_cons.mp hmem with rfl | hmem
      · exact hcw
      · exact ih h.tail (before ++ [o]) hnext cw hmem

/-- The signal of the reset bit over the window. -/
def resetSignal (w : Int) (cfg : Fin n → ActuatorCfg) (before win : List (Outcome n))
    (k : Fin n) : List Bool :=
  (transmittedIn w cfg before win k).map resetBit

theorem FaultWindow.rises_held {w : Int} {win : List (Outcome n)} {k : Fin n}
    (h : FaultWindow w win k) (cfg : Fin n → ActuatorCfg) (before : List (Outcome n))
    (hcw : sentControlword w cfg before k = 0x80) :
    rises (resetSignal w cfg before win k) = 0 := by
  apply rises_eq_zero_of_high
  intro b hb
  obtain ⟨cw, hmem, rfl⟩ := List.mem_map.mp hb
  rw [h.held cfg before hcw cw hmem]
  rfl

/-- The number of edges in a fault window: one if the window starts with the bit
low and an exchange before its last iteration is accepted, none otherwise. -/
theorem FaultWindow.rises_eq {w : Int} {win : List (Outcome n)} {k : Fin n}
    (h : FaultWindow w win k) (cfg : Fin n → ActuatorCfg) (before : List (Outcome n)) :
    rises (resetSignal w cfg before win k) =
      if resetBit (sentControlword w cfg before k) = false ∧
        win.dropLast.any (fun o => w ≤ o.wkc) then 1 else 0 := by
  induction win generalizing before with
  | nil => simp [resetSignal]
  | cons o win ih =>
      have hnext := h.sentControlword_head cfg before
      have htail := ih h.tail (before ++ [o])
      cases win with
      | nil => simp [resetSignal, transmittedIn_cons]
      | cons o' win =>
          simp only [resetSignal, transmittedIn_cons, List.map_cons] at htail ⊢
          by_cases ho : w ≤ o.wkc
          · rw [if_pos ho] at hnext
            have hzero := h.tail.rises_held cfg (before ++ [o]) hnext
            simp only [resetSignal, transmittedIn_cons, List.map_cons] at hzero
            rw [rises_cons_cons, hzero, hnext]
            simp [ho, resetBit]
          · rw [if_neg ho] at hnext
            rw [hnext, rises_repeat, ← hnext, htail, hnext]
            simp [ho]

/-- Only the reset command carries the reset bit. -/
theorem sentControlword_of_resetBit {w : Int} {cfg : Fin n → ActuatorCfg}
    {hist : List (Outcome n)} {k : Fin n}
    (h : resetBit (sentControlword w cfg hist k) = true) :
    sentControlword w cfg hist k = 0x80 := by
  revert h
  rw [sentControlword, demoRun_controlword]
  refine latch_induction (heard w k) (fun cw => resetBit cw = true → cw = 0x80) (fun _ => rfl)
    (fun o cw ho => ?_) hist
  unfold heard answer controlwordFor at ho
  split_ifs at ho <;> cases ho <;> decide

theorem any_dropLast_of_countP {α : Type*} (p : α → Bool) (l : List α)
    (h : 2 ≤ l.countP p) : l.dropLast.any p = true := by
  induction l using List.reverseRecOn with
  | nil => simp at h
  | append_singleton l a _ =>
      rw [List.countP_append] at h
      have ha : [a].countP p ≤ 1 := List.countP_le_length
      obtain ⟨x, hx, hp⟩ := List.countP_pos_iff.mp (show 0 < l.countP p by omega)
      rw [List.dropLast_concat, List.any_eq_true]
      exact ⟨x, hx, hp⟩

/-- A reset is attempted again in every fault window with four accepted exchanges. -/
def ResetRetried (w : Int) (cfg : Fin n → ActuatorCfg) (before win : List (Outcome n))
    (k : Fin n) : Prop :=
  FaultWindow w win k → 4 ≤ win.countP (fun o => w ≤ o.wkc) →
    1 ≤ rises (resetSignal w cfg before win k)

/-- A drive that reports a fault from the first iteration on is sent `0x80` in
each of the first four iterations. -/
theorem reset_not_retried :
    ¬ ResetRetried 3 (fun _ : Fin 1 => {}) []
      (List.replicate 4 ⟨3, fun _ => { status := 0x08 }⟩) 0 := by
  intro h
  have hrise := h (faultWindow_replicate 3 4 rfl) (by decide)
  rw [(faultWindow_replicate 3 4 rfl).rises_held _ [] rfl] at hrise
  omega

/-- A fault window with four accepted exchanges shows a rising edge of the reset
bit exactly when its first controlword has the bit clear, and never more than
one. A window that starts with the bit set transmits it throughout. -/
theorem reset_edge_iff (w : Int) (cfg : Fin n → ActuatorCfg) (before win : List (Outcome n))
    (k : Fin n) (hwin : FaultWindow w win k)
    (hfour : 4 ≤ win.countP (fun o => w ≤ o.wkc)) :
    (1 ≤ rises (resetSignal w cfg before win k) ↔
        resetBit (sentControlword w cfg before k) = false) ∧
      rises (resetSignal w cfg before win k) ≤ 1 ∧
      (resetBit (sentControlword w cfg before k) = true →
        ∀ b ∈ resetSignal w cfg before win k, b = true) := by
  have hany := any_dropLast_of_countP (fun o : Outcome n => decide (w ≤ o.wkc)) win (by omega)
  have hrises := hwin.rises_eq cfg before
  rw [hany] at hrises
  simp only [and_true] at hrises
  refine ⟨?_, ?_, ?_⟩
  · rw [hrises]
    split_ifs with hb <;> simp [hb]
  · rw [hrises]
    split_ifs <;> omega
  · intro hb b hmem
    have hcw := sentControlword_of_resetBit hb
    obtain ⟨cw, hcwmem, rfl⟩ := List.mem_map.mp hmem
    rw [hwin.held cfg before hcw cw hcwmem]
    rfl

/-- A drive that was enabled and then reports a fault sees one edge. -/
theorem reset_edge_iff_after_enable :
    1 ≤ rises (resetSignal 3 (fun _ : Fin 1 => {}) [⟨3, fun _ => { status := 0x27 }⟩]
      (List.replicate 4 ⟨3, fun _ => { status := 0x08 }⟩) 0) :=
  (reset_edge_iff 3 (fun _ : Fin 1 => {}) [⟨3, fun _ => { status := 0x27 }⟩]
    (List.replicate 4 ⟨3, fun _ => { status := 0x08 }⟩) 0
    (faultWindow_replicate 3 4 rfl) (by decide)).1.mpr (by decide)

end RaipalSoem

import RaipalSoem.Segmentation
import Mathlib.Algebra.BigOperators.Fin
import Mathlib.Algebra.BigOperators.Ring.Finset
import Mathlib.Tactic.Ring

/-!
# Exchanges with a bus

Any set of slaves processes a transmitted frame, and after that it comes back or is
lost. A slave that processes a datagram takes part in it with the FMMUs that overlap
the datagram, and adds to its work counter once for each direction. The sum that the
master receives splits into one account for each slave and direction.
-/

namespace RaipalSoem

open Lib

variable {n : Nat}

/-- What becomes of a frame: the slaves that have processed it, and the logical memory
that it carries if it comes back. A frame can be lost on its way out, or on its way back
when slaves have processed it. -/
structure Fate (n : Nat) where
  processed : Fin n → Bool
  returned : Option (Memory UInt8)

/-- A slave has processed the frame, and the frame has come back. -/
def Fate.confirmedBy (f : Fate n) (k : Fin n) : Bool := f.returned.isSome && f.processed k

/-- An FMMU of the direction overlaps the datagram. -/
def EcSlave.takesPart (s : EcSlave) (dir : Direction) (b : Block) : Bool :=
  (s.fmmusOf dir).any fun f => b.Meets f.logStart (f.logStart + f.logLength)

/-- What a slave that processes a datagram adds to its work counter. -/
def EcSlave.wkcShare (s : EcSlave) (d : Datagram) : Nat :=
  match d.cmd with
  | .lrw => 2 * (s.takesPart .output d.block).toNat + (s.takesPart .input d.block).toNat
  | .lrd => (s.takesPart .input d.block).toNat
  | .lwr => (s.takesPart .output d.block).toNat

/-- The frame as the master receives it. -/
def Fate.reply (slaves : List EcSlave) (d : Datagram) (f : Fate slaves.length) : Option Reply :=
  f.returned.map fun memory =>
    { wkc := ∑ k, if f.processed k then (slaves.get k).wkcShare d else 0
      memory := memory }

/-- The frames of an exchange as the master receives them. -/
def replies (slaves : List EcSlave) (frames : List (Datagram × Fate slaves.length)) :
    List (Datagram × Option Reply) :=
  frames.map fun f => (f.1, f.2.reply slaves f.1)

section Receive

/-- What a frame adds to the received work counter. -/
def frameCredit (f : Datagram × Option Reply) : Nat :=
  match f.2 with
  | none => 0
  | some r => if f.1.cmd = .lwr then r.wkc * 2 else r.wkc

theorem receiveFrame_wkc (st : Receive) (d : Datagram) (r : Option Reply)
    (h : d.dc = false ∨ st.wkc = 0) :
    (receiveFrame st d r).wkc = st.wkc + frameCredit (d, r) ∧
      (receiveFrame st d r).validWkc = (st.validWkc || r.isSome) := by
  cases r with
  | none => simp [receiveFrame, frameCredit]
  | some r =>
      refine ⟨?_, by simp [receiveFrame]⟩
      rcases h with h | h
      · cases hcmd : d.cmd <;> simp [receiveFrame, frameCredit, h, hcmd]
      · cases hcmd : d.cmd <;> simp [receiveFrame, frameCredit, h, hcmd]

/-- Frames without a DC datagram add up. -/
theorem receive_foldl (frames : List (Datagram × Option Reply)) (st : Receive)
    (h : ∀ f ∈ frames, f.1.dc = false) :
    (frames.foldl (fun st f => receiveFrame st f.1 f.2) st).wkc =
        st.wkc + (frames.map frameCredit).sum ∧
      (frames.foldl (fun st f => receiveFrame st f.1 f.2) st).validWkc =
        (st.validWkc || frames.any fun f => f.2.isSome) := by
  induction frames generalizing st with
  | nil => simp
  | cons f frames ih =>
      obtain ⟨d, r⟩ := f
      obtain ⟨h₁, h₂⟩ := receiveFrame_wkc st d r (Or.inl (h (d, r) (by simp)))
      obtain ⟨h₃, h₄⟩ := ih (receiveFrame st d r) fun g hg => h g (List.mem_cons_of_mem _ hg)
      rw [List.foldl_cons, h₃, h₄, h₁, h₂, List.map_cons, List.sum_cons]
      refine ⟨?_, ?_⟩
      · push_cast
        omega
      · simp [Bool.or_assoc]

/-- The received work counter is the sum of all credits, unless no frame came back. -/
theorem ecReceiveProcessdata_wkc (img : Image) (frames : List (Datagram × Option Reply))
    (hlen : frames.length ≤ ecMaxBuf) (hdc : ∀ f ∈ frames.tail, f.1.dc = false) :
    (ecReceiveProcessdata img frames).2 =
      if frames.any fun f => f.2.isSome then ((frames.map frameCredit).sum : Int)
      else ecNoFrame := by
  unfold ecReceiveProcessdata
  rw [List.take_of_length_le hlen]
  cases frames with
  | nil => rfl
  | cons f frames =>
      obtain ⟨d, r⟩ := f
      obtain ⟨h₁, h₂⟩ := receiveFrame_wkc { image := img } d r (Or.inr rfl)
      obtain ⟨h₃, h₄⟩ := receive_foldl frames (receiveFrame { image := img } d r) hdc
      dsimp only
      rw [List.foldl_cons, h₃, h₄, h₁, h₂, List.any_cons, List.map_cons, List.sum_cons]
      simp only [Bool.false_or, Int.zero_add, Nat.cast_add]

/-- A frame that does not read the address leaves it alone. -/
theorem receiveFrame_image_of_not (st : Receive) (d : Datagram) (r : Option Reply) {a : Nat}
    (h : ¬(d.serves .input = true ∧ d.block.Contains a)) :
    (receiveFrame st d r).image a = st.image a := by
  cases r with
  | none => rfl
  | some r =>
      cases hcmd : d.cmd with
      | lwr => simp [receiveFrame, hcmd]
      | lrd =>
          simp only [receiveFrame, hcmd]
          apply Memory.write_of_not_mem
          rw [Memory.read_length]
          exact fun hin => h ⟨by simp [Datagram.serves, hcmd], hin⟩
      | lrw =>
          simp only [receiveFrame, hcmd]
          apply Memory.write_of_not_mem
          rw [Memory.read_length]
          exact fun hin => h ⟨by simp [Datagram.serves, hcmd], hin⟩

/-- A frame that reads the address copies what it carries. -/
theorem receiveFrame_image_of_contains (st : Receive) {d : Datagram} (r : Reply) {a : Nat}
    (hserves : d.serves .input = true) (ha : d.block.Contains a) :
    (receiveFrame st d (some r)).image a = r.memory a := by
  obtain ⟨h₁, h₂⟩ := ha
  have hcopy : (st.image.write d.block.start
      (Memory.read r.memory d.block.start d.block.len)) a = r.memory a := by
    have hlt : a - d.block.start < (Memory.read r.memory d.block.start d.block.len).length := by
      rw [Memory.read_length]
      omega
    have hw := Memory.write_of_mem st.image d.block.start (a - d.block.start) _ hlt
    rw [Nat.add_sub_cancel' h₁] at hw
    rw [hw]
    simp [Memory.read, Nat.add_sub_cancel' h₁]
  cases hcmd : d.cmd with
  | lwr => simp [Datagram.serves, hcmd] at hserves
  | lrd => simpa [receiveFrame, hcmd] using hcopy
  | lrw => simpa [receiveFrame, hcmd] using hcopy

theorem receive_foldl_image_of_not (frames : List (Datagram × Option Reply)) (st : Receive)
    {a : Nat} (h : ∀ f ∈ frames, ¬(f.1.serves .input = true ∧ f.1.block.Contains a)) :
    (frames.foldl (fun st f => receiveFrame st f.1 f.2) st).image a = st.image a := by
  induction frames generalizing st with
  | nil => rfl
  | cons f frames ih =>
      rw [List.foldl_cons, ih _ fun g hg => h g (List.mem_cons_of_mem f hg)]
      exact receiveFrame_image_of_not st f.1 f.2 (h f (by simp))

/-- An address that one datagram reads holds, after the exchange, what the frame of
this datagram carries. -/
theorem ecReceiveProcessdata_image (img : Image) {frames : List (Datagram × Option Reply)}
    (hlen : frames.length ≤ ecMaxBuf) {a : Nat}
    (hone : frames.countP (fun f => f.1.serves .input && f.1.block.Contains a) ≤ 1)
    {d : Datagram} {r : Reply} (hmem : (d, some r) ∈ frames) (hserves : d.serves .input = true)
    (ha : d.block.Contains a) : (ecReceiveProcessdata img frames).1 a = r.memory a := by
  unfold ecReceiveProcessdata
  rw [List.take_of_length_le hlen]
  obtain ⟨before, after, rfl⟩ := List.append_of_mem hmem
  rw [List.countP_append, List.countP_cons_of_pos (by simp [hserves, ha])] at hone
  have hafter : after.countP (fun f => f.1.serves .input && f.1.block.Contains a) = 0 := by omega
  rw [List.countP_eq_zero] at hafter
  dsimp only
  rw [List.foldl_append, List.foldl_cons, receive_foldl_image_of_not after _ fun f hf hin =>
    hafter f hf (by simp [hin.1, hin.2])]
  exact receiveFrame_image_of_contains _ r hserves ha

end Receive

section Accounts

variable (slaves : List EcSlave)

/-- A frame counts for slave `k` in a direction: it serves the direction, the slave
takes part in it and has processed it, and it has come back. -/
def countsFor (dir : Direction) (k : Fin slaves.length)
    (f : Datagram × Fate slaves.length) : Bool :=
  f.1.serves dir && (slaves.get k).takesPart dir f.1.block && f.2.confirmedBy k

/-- The number of frames that count for slave `k` in a direction. -/
def account (frames : List (Datagram × Fate slaves.length)) (dir : Direction)
    (k : Fin slaves.length) : Nat :=
  frames.countP (countsFor slaves dir k)

/-- What a mapped direction of a slave is expected to contribute. -/
def expectedShare (dir : Direction) (k : Fin slaves.length) : Nat :=
  if (slaves.get k).bits dir = 0 then 0 else 1

theorem frameCredit_eq (f : Datagram × Fate slaves.length) :
    frameCredit (f.1, f.2.reply slaves f.1) =
      ∑ k, (2 * (countsFor slaves .output k f).toNat + (countsFor slaves .input k f).toNat) := by
  obtain ⟨d, processed, _ | memory⟩ := f
  · simp [frameCredit, Fate.reply, countsFor, Fate.confirmedBy]
  · cases hcmd : d.cmd with
    | lrw =>
        simp only [frameCredit, Fate.reply, Option.map_some, hcmd, reduceCtorEq, if_false]
        apply Finset.sum_congr rfl
        intro k _
        cases hp : processed k <;>
          simp [countsFor, Fate.confirmedBy, Datagram.serves, EcSlave.wkcShare, hcmd, hp]
    | lrd =>
        simp only [frameCredit, Fate.reply, Option.map_some, hcmd, reduceCtorEq, if_false]
        apply Finset.sum_congr rfl
        intro k _
        cases hp : processed k <;>
          simp [countsFor, Fate.confirmedBy, Datagram.serves, EcSlave.wkcShare, hcmd, hp]
    | lwr =>
        simp only [frameCredit, Fate.reply, Option.map_some, hcmd, if_true]
        rw [Finset.sum_mul]
        apply Finset.sum_congr rfl
        intro k _
        cases hp : processed k <;>
          simp [countsFor, Fate.confirmedBy, Datagram.serves, EcSlave.wkcShare, hcmd, hp,
            Nat.mul_comm]

/-- The received credits split into the accounts of the slaves. -/
theorem sum_frameCredit (frames : List (Datagram × Fate slaves.length)) :
    ((replies slaves frames).map frameCredit).sum =
      ∑ k, (2 * account slaves frames .output k + account slaves frames .input k) := by
  induction frames with
  | nil => simp [replies, account]
  | cons f frames ih =>
      have hcons : ∀ dir k, account slaves (f :: frames) dir k =
          (countsFor slaves dir k f).toNat + account slaves frames dir k := by
        intro dir k
        rw [account, List.countP_cons, Nat.add_comm]
        cases countsFor slaves dir k f <;> rfl
      have hstep : ((replies slaves (f :: frames)).map frameCredit).sum =
          frameCredit (f.1, f.2.reply slaves f.1) +
            ((replies slaves frames).map frameCredit).sum := rfl
      rw [hstep, ih, frameCredit_eq, ← Finset.sum_add_distrib]
      apply Finset.sum_congr rfl
      intro k _
      rw [hcons, hcons]
      omega

theorem countP_eq_sum (dir : Direction) :
    slaves.countP (fun s => s.bits dir ≠ 0) = ∑ k, expectedShare slaves dir k := by
  have hlist : ∀ l : List EcSlave, l.countP (fun s => s.bits dir ≠ 0) =
      (l.map fun s => if s.bits dir = 0 then 0 else 1).sum := by
    intro l
    induction l with
    | nil => rfl
    | cons s l ih =>
        rw [List.countP_cons, ih, List.map_cons, List.sum_cons]
        by_cases h : s.bits dir = 0 <;> simp [h, Nat.add_comm]
  rw [hlist, Fin.sum_univ_def]
  congr 1
  apply List.ext_getElem
  · simp
  · intro i h₁ h₂
    simp [expectedShare]

/-- The expected work counter counts each mapped direction of each slave once. -/
theorem Mapping.LaysOut.expectedWKC {m : Mapping} {bus : List SlaveInfo} (h : m.LaysOut bus) :
    m.group.expectedWKC =
      (∑ k, (2 * expectedShare m.slaves .output k + expectedShare m.slaves .input k) : Nat) := by
  rw [EcGroup.expectedWKC, h.outputsWKC, h.inputsWKC, countP_eq_sum, countP_eq_sum,
    Finset.sum_add_distrib, ← Finset.mul_sum]
  push_cast
  ring

end Accounts

end RaipalSoem

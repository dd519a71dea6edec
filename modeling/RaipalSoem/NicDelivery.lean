import RaipalSoem.Nic

/-!
# Answers reach their tasks

In every order of the steps of any tasks, an index has one holder at a time, and waiting
for an index brings the first frame with this index that any task has taken off the socket
since it was sent, as soon as one has.
-/

namespace RaipalSoem

open Lib

/-- Two memories with the same ethernet and datagram header. -/
theorem header_congr {m m' : Memory UInt8} {n : Nat} (h : ∀ i < n, m i = m' i)
    (hn : ethHeaderSize + 4 ≤ n) :
    isEcat m = isEcat m' ∧ comIndex m = comIndex m' ∧ comLength m = comLength m' := by
  simp only [ethHeaderSize] at hn
  simp only [isEcat, comIndex, comLength, ethHeaderSize]
  rw [h 12 (by omega), h 13 (by omega), h 14 (by omega), h 15 (by omega), h 17 (by omega)]
  exact ⟨rfl, rfl, rfl⟩

theorem ecxRecvpkt_bytes (s : EcStack) {bytes : List UInt8} (hpos : 0 < bytes.length)
    (hfits : bytes.length ≤ ecMaxEcatFrame) :
    ∃ t : Memory UInt8, ecxRecvpkt s (some bytes) = some { s with tempbuf := t } ∧
      ∀ i < bytes.length, t i = frameOf bytes i := by
  refine ⟨_, by simp only [ecxRecvpkt, if_pos hpos]; rfl, ?_⟩
  intro i hi
  rw [List.take_of_length_le hfits]
  have h := Memory.write_of_mem s.tempbuf 0 i bytes hi
  rw [Nat.zero_add] at h
  rw [h, frameOf]
  simp [hi]

/-- Index `idx` has the frame `bytes` in its buffer. -/
structure Stored (txbuflength : Nat → Nat) (s : EcStack) (idx : Nat) (bytes : List UInt8) :
    Prop where
  long : txbuflength idx ≤ bytes.length
  counted : ethHeaderSize + comLength (frameOf bytes) + 2 ≤ txbuflength idx
  same : ∀ i < txbuflength idx - ethHeaderSize, s.rxbuf idx i = frameOf bytes (ethHeaderSize + i)

/-- The work counter of a received frame. -/
def frameWkc (bytes : List UInt8) : Int :=
  rxWkc (fun i => frameOf bytes (ethHeaderSize + i)) (comLength (frameOf bytes))

/-- The two ways in which the length field is read agree. -/
theorem rxLength_eq_comLength (m : Memory UInt8) :
    rxLength (fun i => m (ethHeaderSize + i)) = comLength m := by
  have hlow := (m ethHeaderSize).toNat_lt
  have hmask (b : UInt8) : (b &&& 0x0f).toNat = b.toNat % 2 ^ 4 := by
    rw [UInt8.toNat_and]
    exact Nat.and_two_pow_sub_one_eq_mod _ 4
  have hand : comLength m =
      ((m ethHeaderSize).toNat + 256 * (m (ethHeaderSize + 1)).toNat) % 2 ^ 12 :=
    Nat.and_two_pow_sub_one_eq_mod _ 12
  rw [hand]
  simp only [rxLength, Nat.add_zero, hmask, Nat.shiftLeft_eq]
  omega

namespace Stored

variable {txbuflength : Nat → Nat} {s : EcStack} {idx : Nat} {bytes : List UInt8}

theorem rxWkc_eq (h : Stored txbuflength s idx bytes) :
    rxWkc (s.rxbuf idx) (comLength (frameOf bytes)) = frameWkc bytes := by
  have hcounted := h.counted
  simp only [rxWkc, frameWkc]
  rw [h.same _ (by omega), h.same (comLength (frameOf bytes) + 1) (by omega)]

theorem rxLength_eq (h : Stored txbuflength s idx bytes) :
    rxLength (s.rxbuf idx) = comLength (frameOf bytes) := by
  have hcounted := h.counted
  rw [← rxLength_eq_comLength]
  simp only [rxLength]
  rw [h.same 0 (by omega), h.same 1 (by omega)]

theorem read_eq (h : Stored txbuflength s idx bytes) :
    (s.rxbuf idx).read 0 (txbuflength idx - ethHeaderSize) =
      (bytes.drop ethHeaderSize).take (txbuflength idx - ethHeaderSize) := by
  have hlong := h.long
  apply List.ext_getElem
  · simp
    omega
  · intro i hi hi'
    simp only [Memory.read_length] at hi
    simp only [Memory.read, List.getElem_map, List.getElem_range, Nat.zero_add,
      List.getElem_take, List.getElem_drop]
    rw [h.same i hi, frameOf, List.getD_eq_getElem]

end Stored

theorem stored_storeFrame {txbuflength : Nat → Nat} {s : EcStack} {idx : Nat}
    {bytes : List UInt8} {stat : BufStat}
    (htemp : ∀ i < bytes.length, s.tempbuf i = frameOf bytes i)
    (hlong : txbuflength idx ≤ bytes.length)
    (hcounted : ethHeaderSize + comLength (frameOf bytes) + 2 ≤ txbuflength idx) :
    Stored txbuflength (storeFrame txbuflength s idx stat) idx bytes := by
  refine ⟨hlong, hcounted, ?_⟩
  intro i hi
  simp only [storeFrame, Function.update_self]
  have h := Memory.write_of_mem (s.rxbuf idx) 0 i
    (s.tempbuf.read ethHeaderSize (txbuflength idx - ethHeaderSize)) (by simpa using hi)
  rw [Nat.zero_add] at h
  rw [h]
  simp only [Memory.read, List.getElem_map, List.getElem_range]
  exact htemp _ (by omega)

/-- What polling for an index can do: take the buffered answer, read nothing, read a frame
that is put aside or dropped, read the answer of another task, or read its own answer. -/
inductive Polled (s : NicState) (idx : Nat) : Option (List UInt8) → EcStack × Int → Prop
  | buffered (h : s.stack.rxbufstat idx = .rcvd) :
      Polled s idx none
        (ecxSetbufstat s.stack idx .complete,
          rxWkc (s.stack.rxbuf idx) (rxLength (s.stack.rxbuf idx)))
  | silent (h : s.stack.rxbufstat idx = .tx) : Polled s idx none (s.stack, ecNoFrame)
  | dropped (h : s.stack.rxbufstat idx = .tx) {bytes : List UInt8} {t : Memory UInt8}
      (hframe : ¬(isEcat (frameOf bytes) = true ∧
        s.stack.rxbufstat (comIndex (frameOf bytes)) = .tx ∧
        comIndex (frameOf bytes) < ecMaxBuf)) :
      Polled s idx (some bytes) ({ s.stack with tempbuf := t }, ecOtherFrame)
  | other (h : s.stack.rxbufstat idx = .tx) {bytes : List UInt8} {s' : EcStack}
      (hecat : isEcat (frameOf bytes) = true) (hidx : comIndex (frameOf bytes) ≠ idx)
      (htx : s.stack.rxbufstat (comIndex (frameOf bytes)) = .tx)
      (hstat : s'.rxbufstat =
        Function.update s.stack.rxbufstat (comIndex (frameOf bytes)) .rcvd)
      (hbuf : ∀ i, i ≠ comIndex (frameOf bytes) → s'.rxbuf i = s.stack.rxbuf i)
      (hstored : Stored s.txbuflength s' (comIndex (frameOf bytes)) bytes) :
      Polled s idx (some bytes) (s', ecOtherFrame)
  | own (h : s.stack.rxbufstat idx = .tx) {bytes : List UInt8} {s' : EcStack}
      (hecat : isEcat (frameOf bytes) = true) (hidx : comIndex (frameOf bytes) = idx)
      (hstat : s'.rxbufstat = Function.update s.stack.rxbufstat idx .complete)
      (hbuf : ∀ i, i ≠ idx → s'.rxbuf i = s.stack.rxbuf i)
      (hstored : Stored s.txbuflength s' idx bytes) :
      Polled s idx (some bytes) (s', rxWkc (s'.rxbuf idx) (comLength (frameOf bytes)))

theorem polled_ecxInframe {s : NicState} {idx : Nat} {recv : Option (List UInt8)}
    (hidx : idx < ecMaxBuf)
    (h : s.stack.rxbufstat idx = .rcvd ∧ recv = none ∨
      s.stack.rxbufstat idx = .tx ∧ ∀ bytes, recv = some bytes → Arrives s bytes) :
    Polled s idx recv (ecxInframe s.txbuflength s.stack idx recv) := by
  rcases h with ⟨hrcvd, rfl⟩ | ⟨htx, harrives⟩
  · rw [ecxInframe, if_pos ⟨hidx, hrcvd⟩]
    exact .buffered hrcvd
  · have hnot : ¬(idx < ecMaxBuf ∧ s.stack.rxbufstat idx = .rcvd) := by simp [htx]
    rw [ecxInframe, if_neg hnot]
    cases recv with
    | none => exact .silent htx
    | some bytes =>
        obtain ⟨hheader, hfits, hanswer⟩ := harrives bytes rfl
        obtain ⟨t, hrecv, htemp⟩ := ecxRecvpkt_bytes s.stack (by omega) hfits
        obtain ⟨hecat, hindex, hlength⟩ := header_congr htemp hheader
        simp only [hrecv, hecat, hindex, hlength]
        split_ifs with h1 h2 h3
        · obtain ⟨hlong, hcounted⟩ := hanswer h1 (by rw [h2]; exact htx)
          rw [h2] at hlong hcounted
          refine .own htx h1 h2 rfl ?_ (stored_storeFrame htemp hlong hcounted)
          intro i hi
          exact Function.update_of_ne hi _ _
        · obtain ⟨hlong, hcounted⟩ := hanswer h1 h3.2
          refine .other htx h1 h2 h3.2 rfl ?_ (stored_storeFrame htemp hlong hcounted)
          intro i hi
          exact Function.update_of_ne hi _ _
        · exact .dropped htx fun h => h3 ⟨h.2.2, h.2.1⟩
        · exact .dropped htx fun h => h1 h.1

/-- What holds in every history: indices have one holder, and the state of a buffer tells
whether the answer has come; an answer that has come is in the buffer. -/
structure NicInv (as : List NicAction) (s : NicState) : Prop where
  nodup : s.held.Nodup
  bound : ∀ i ∈ s.held, i < ecMaxBuf
  last : s.lastidx < ecMaxBuf
  used : ∀ i, s.stack.rxbufstat i ≠ .empty ↔ i ∈ s.held
  waiting : ∀ i, s.stack.rxbufstat i = .tx → replyOf i as = none
  answered : ∀ i, s.stack.rxbufstat i = .rcvd ∨ s.stack.rxbufstat i = .complete →
    ∃ bytes, replyOf i as = some bytes ∧ Stored s.txbuflength s.stack i bytes

theorem nicInv_setup (rxbuf : Nat → Memory UInt8) (rxsa : Nat → UInt16)
    (tempbuf : Memory UInt8) (txbuflength : Nat → Nat) :
    NicInv [] (nicSetup rxbuf rxsa tempbuf txbuflength) := by
  constructor <;> simp [nicSetup, ecMaxBuf]

namespace NicInv

variable {as : List NicAction} {s : NicState}

theorem getindex (h : NicInv as s) (hfree : s.held.length < ecMaxBuf) :
    NicInv (as ++ [.getindex]) (nicStep s .getindex) := by
  obtain ⟨i, hi, hfree⟩ := exists_free hfree
  have hempty : s.stack.rxbufstat i = .empty := by
    by_contra hused
    exact hfree ((h.used i).mp hused)
  obtain ⟨hlt, hunused⟩ := ecxGetindex_empty h.last hi hempty
  have hnew : (ecxGetindex s.stack s.lastidx).1 ∉ s.held :=
    fun hmem => (h.used _).mpr hmem hunused
  simp only [nicStep, ecxGetindex] at *
  generalize searchIndex s.stack.rxbufstat ecMaxBuf (nextIndex s.lastidx) = idx at *
  refine ⟨List.nodup_cons.mpr ⟨hnew, h.nodup⟩, ?_, hlt, ?_, ?_, ?_⟩
  · simpa using ⟨hlt, h.bound⟩
  · intro j
    by_cases hj : j = idx
    · simp [ecxSetbufstat, hj]
    · simpa [ecxSetbufstat, hj] using h.used j
  · intro j hstat
    by_cases hj : j = idx
    · simp [ecxSetbufstat, hj] at hstat
    · simpa [replyStep] using h.waiting j (by simpa [ecxSetbufstat, hj] using hstat)
  · intro j hstat
    by_cases hj : j = idx
    · simp [ecxSetbufstat, hj] at hstat
    · obtain ⟨bytes, hreply, hstored⟩ :=
        h.answered j (by simpa [ecxSetbufstat, hj] using hstat)
      exact ⟨bytes, by simpa [replyStep] using hreply,
        ⟨hstored.long, hstored.counted, hstored.same⟩⟩

theorem setup (h : NicInv as s) {idx len : Nat} (halloc : s.stack.rxbufstat idx = .alloc) :
    NicInv (as ++ [.setup idx len]) (nicStep s (.setup idx len)) := by
  refine ⟨h.nodup, h.bound, h.last, h.used, ?_, ?_⟩
  · intro j hstat
    simpa [replyStep] using h.waiting j hstat
  · intro j hstat
    have hj : j ≠ idx := by
      rintro rfl
      simp [nicStep, halloc] at hstat
    obtain ⟨bytes, hreply, hstored⟩ := h.answered j hstat
    have hlen : (nicStep s (.setup idx len)).txbuflength j = s.txbuflength j :=
      Function.update_of_ne hj _ _
    refine ⟨bytes, by simpa [replyStep] using hreply, ⟨?_, ?_, ?_⟩⟩
    · rw [hlen]
      exact hstored.long
    · rw [hlen]
      exact hstored.counted
    · rw [hlen]
      exact hstored.same

theorem outframe (h : NicInv as s) {idx : Nat} (hheld : idx ∈ s.held) :
    NicInv (as ++ [.outframe idx true]) (nicStep s (.outframe idx true)) := by
  refine ⟨h.nodup, h.bound, h.last, ?_, ?_, ?_⟩
  · intro j
    by_cases hj : j = idx
    · simp [nicStep, ecxOutframe, hj, hheld]
    · simpa [nicStep, ecxOutframe, hj] using h.used j
  · intro j hstat
    by_cases hj : j = idx
    · simp [replyStep, hj]
    · have hwait := h.waiting j (by simpa [nicStep, ecxOutframe, hj] using hstat)
      simp [replyStep, hwait]
  · intro j hstat
    by_cases hj : j = idx
    · simp [nicStep, ecxOutframe, hj] at hstat
    · obtain ⟨bytes, hreply, hstored⟩ :=
        h.answered j (by simpa [nicStep, ecxOutframe, hj] using hstat)
      have hne : idx ≠ j := fun he => hj he.symm
      exact ⟨bytes, by simpa [replyStep, hne] using hreply,
        ⟨hstored.long, hstored.counted, hstored.same⟩⟩

theorem release (h : NicInv as s) {idx : Nat} :
    NicInv (as ++ [.release idx]) (nicStep s (.release idx)) := by
  refine ⟨h.nodup.erase idx, ?_, h.last, ?_, ?_, ?_⟩
  · intro j hj
    exact h.bound j (List.mem_of_mem_erase hj)
  · intro j
    by_cases hj : j = idx
    · subst hj
      simp [nicStep, ecxSetbufstat, h.nodup.not_mem_erase]
    · simpa [nicStep, ecxSetbufstat, hj, List.mem_erase_of_ne hj] using h.used j
  · intro j hstat
    by_cases hj : j = idx
    · simp [nicStep, ecxSetbufstat, hj] at hstat
    · simpa [replyStep] using
        h.waiting j (by simpa [nicStep, ecxSetbufstat, hj] using hstat)
  · intro j hstat
    by_cases hj : j = idx
    · simp [nicStep, ecxSetbufstat, hj] at hstat
    · obtain ⟨bytes, hreply, hstored⟩ :=
        h.answered j (by simpa [nicStep, ecxSetbufstat, hj] using hstat)
      exact ⟨bytes, by simpa [replyStep] using hreply,
        ⟨hstored.long, hstored.counted, hstored.same⟩⟩

/-- A frame with another index, or none at all, leaves an answer as it is. -/
theorem answered_of_ne (h : NicInv as s) {j idx : Nat} {recv : Option (List UInt8)}
    {s' : EcStack} (hstat : s'.rxbufstat j = s.stack.rxbufstat j)
    (hbuf : s'.rxbuf j = s.stack.rxbuf j)
    (h' : s'.rxbufstat j = .rcvd ∨ s'.rxbufstat j = .complete) :
    ∃ bytes, replyOf j (as ++ [.inframe idx recv]) = some bytes ∧
      Stored s.txbuflength s' j bytes := by
  rw [hstat] at h'
  obtain ⟨bytes, hreply, hstored⟩ := h.answered j h'
  refine ⟨bytes, ?_, ⟨hstored.long, hstored.counted, ?_⟩⟩
  · cases recv with
    | none => simpa [replyStep] using hreply
    | some frame => simp [replyStep, hreply]
  · rw [hbuf]
    exact hstored.same

/-- A buffer in use stays in use. -/
theorem used_update (h : NicInv as s) {i : Nat} {stat : BufStat}
    (hi : s.stack.rxbufstat i ≠ .empty) (hstat : stat ≠ .empty) (j : Nat) :
    Function.update s.stack.rxbufstat i stat j ≠ .empty ↔ j ∈ s.held := by
  by_cases hj : j = i
  · subst hj
    simpa [hstat] using (h.used j).mp hi
  · simpa [hj] using h.used j

/-- Polling that leaves buffer `j` in wait leaves it without an answer. -/
theorem waiting_of_ne (h : NicInv as s) {j idx : Nat} {bytes : List UInt8}
    (hstat : s.stack.rxbufstat j = .tx)
    (hother : ¬(isEcat (frameOf bytes) = true ∧ comIndex (frameOf bytes) = j)) :
    replyOf j (as ++ [.inframe idx (some bytes)]) = none := by
  simp [replyStep, h.waiting j hstat, hother]

theorem inframe (h : NicInv as s) {idx : Nat} {recv : Option (List UInt8)}
    (hpoll : Polled s idx recv (ecxInframe s.txbuflength s.stack idx recv)) :
    NicInv (as ++ [.inframe idx recv]) (nicStep s (.inframe idx recv)) := by
  simp only [nicStep]
  generalize ecxInframe s.txbuflength s.stack idx recv = r at hpoll
  cases hpoll with
  | buffered hrcvd =>
      refine ⟨h.nodup, h.bound, h.last, ?_, ?_, ?_⟩
      · exact h.used_update (by simp [hrcvd]) (by simp)
      · intro j hstat
        by_cases hj : j = idx
        · simp [ecxSetbufstat, hj] at hstat
        · simpa [replyStep] using h.waiting j (by simpa [ecxSetbufstat, hj] using hstat)
      · intro j hstat
        by_cases hj : j = idx
        · subst hj
          obtain ⟨bytes, hreply, hstored⟩ := h.answered j (.inl hrcvd)
          exact ⟨bytes, by simpa [replyStep] using hreply,
            ⟨hstored.long, hstored.counted, hstored.same⟩⟩
        · exact h.answered_of_ne (Function.update_of_ne hj _ _) rfl hstat
  | silent htx =>
      refine ⟨h.nodup, h.bound, h.last, h.used, ?_, ?_⟩
      · intro j hstat
        simpa [replyStep] using h.waiting j hstat
      · intro j hstat
        exact h.answered_of_ne rfl rfl hstat
  | @dropped htx bytes t hframe =>
      refine ⟨h.nodup, h.bound, h.last, h.used, ?_, ?_⟩
      · intro j hstat
        apply h.waiting_of_ne hstat
        rintro ⟨hecat, rfl⟩
        have hheld := (h.used (comIndex (frameOf bytes))).mp
          (by simp [show s.stack.rxbufstat (comIndex (frameOf bytes)) = .tx from hstat])
        exact hframe ⟨hecat, hstat, h.bound _ hheld⟩
      · intro j hstat
        exact h.answered_of_ne rfl rfl hstat
  | @other htx bytes s' hecat hidx htxf hstat' hbuf hstored =>
      refine ⟨h.nodup, h.bound, h.last, ?_, ?_, ?_⟩
      · rw [hstat']
        exact h.used_update (by simp [htxf]) (by simp)
      · intro j hstat
        by_cases hj : j = comIndex (frameOf bytes)
        · simp [hstat', hj] at hstat
        · apply h.waiting_of_ne (by simpa [hstat', hj] using hstat)
          exact fun he => hj he.2.symm
      · intro j hstat
        by_cases hj : j = comIndex (frameOf bytes)
        · subst hj
          exact ⟨bytes, by simp [replyStep, h.waiting _ htxf, hecat], hstored⟩
        · exact h.answered_of_ne (by simp [hstat', hj]) (hbuf j hj) hstat
  | @own htx bytes s' hecat hidx hstat' hbuf hstored =>
      refine ⟨h.nodup, h.bound, h.last, ?_, ?_, ?_⟩
      · rw [hstat']
        exact h.used_update (by simp [htx]) (by simp)
      · intro j hstat
        by_cases hj : j = idx
        · simp [hstat', hj] at hstat
        · apply h.waiting_of_ne (by simpa [hstat', hj] using hstat)
          exact fun he => hj (he.2.symm.trans hidx)
      · intro j hstat
        by_cases hj : j = idx
        · subst hj
          exact ⟨bytes, by simp [replyStep, h.waiting _ htx, hecat, hidx], hstored⟩
        · exact h.answered_of_ne (by simp [hstat', hj]) (hbuf j hj) hstat

theorem step (h : NicInv as s) {a : NicAction} (hlegal : NicLegal s a) :
    NicInv (as ++ [a]) (nicStep s a) := by
  cases a with
  | getindex => exact h.getindex hlegal
  | setup idx len => exact h.setup hlegal.2
  | outframe idx sent =>
      obtain ⟨hheld, rfl⟩ := hlegal
      exact h.outframe hheld
  | inframe idx recv => exact h.inframe (polled_ecxInframe (h.bound idx hlegal.1) hlegal.2)
  | release idx => exact h.release

end NicInv

variable {rxbuf : Nat → Memory UInt8} {rxsa : Nat → UInt16} {tempbuf : Memory UInt8}
  {txbuflength : Nat → Nat} {as : List NicAction} {s : NicState}

theorem nicInv_run (h : NicRun (nicSetup rxbuf rxsa tempbuf txbuflength) as s) :
    NicInv as s := by
  induction h with
  | start => exact nicInv_setup rxbuf rxsa tempbuf txbuflength
  | step run legal ih => exact ih.step legal

/-- In every order of the steps of any tasks, an index has one holder at a time, and a new
index is none of those in use. -/
theorem nic_indices_exclusive (h : NicRun (nicSetup rxbuf rxsa tempbuf txbuflength) as s) :
    s.held.Nodup ∧ (∀ i ∈ s.held, i < ecMaxBuf) ∧
      (s.held.length < ecMaxBuf →
        (ecxGetindex s.stack s.lastidx).1 < ecMaxBuf ∧
        (ecxGetindex s.stack s.lastidx).1 ∉ s.held) := by
  have hinv := nicInv_run h
  refine ⟨hinv.nodup, hinv.bound, ?_⟩
  intro hroom
  have hnext := hinv.getindex hroom
  exact ⟨hnext.bound _ List.mem_cons_self, (List.nodup_cons.mp hnext.nodup).1⟩

/-- In every order of the steps of any tasks, polling for an index brings the work counter
of the first frame with this index that any task has taken off the socket since it was sent,
with that frame in its buffer, and it brings no work counter while there is none. -/
theorem ecxInframe_delivers (h : NicRun (nicSetup rxbuf rxsa tempbuf txbuflength) as s)
    {idx : Nat} {recv : Option (List UInt8)} (hlegal : NicLegal s (.inframe idx recv)) :
    match replyOf idx (as ++ [.inframe idx recv]) with
    | none => (ecxInframe s.txbuflength s.stack idx recv).2 ≤ ecNoFrame
    | some bytes =>
        (ecxInframe s.txbuflength s.stack idx recv).2 = frameWkc bytes ∧
        ((ecxInframe s.txbuflength s.stack idx recv).1.rxbuf idx).read 0
            (s.txbuflength idx - ethHeaderSize) =
          (bytes.drop ethHeaderSize).take (s.txbuflength idx - ethHeaderSize) := by
  have hinv := nicInv_run h
  have hpoll := polled_ecxInframe (hinv.bound idx hlegal.1) hlegal.2
  generalize ecxInframe s.txbuflength s.stack idx recv = r at hpoll
  cases hpoll with
  | buffered hrcvd =>
      obtain ⟨bytes, hreply, hstored⟩ := hinv.answered idx (.inl hrcvd)
      have hafter : replyOf idx (as ++ [.inframe idx none]) = some bytes := by
        simpa [replyStep] using hreply
      rw [hafter]
      refine ⟨?_, hstored.read_eq⟩
      rw [hstored.rxLength_eq]
      exact hstored.rxWkc_eq
  | silent htx =>
      have hafter : replyOf idx (as ++ [.inframe idx none]) = none := by
        simpa [replyStep] using hinv.waiting idx htx
      rw [hafter]
  | @dropped htx bytes t hframe =>
      have hafter : replyOf idx (as ++ [.inframe idx (some bytes)]) = none := by
        apply hinv.waiting_of_ne htx
        rintro ⟨hecat, rfl⟩
        exact hframe ⟨hecat, htx, hinv.bound _ hlegal.1⟩
      rw [hafter]
      exact (by decide : ecOtherFrame ≤ ecNoFrame)
  | @other htx bytes s' hecat hidx htxf hstat hbuf hstored =>
      have hafter : replyOf idx (as ++ [.inframe idx (some bytes)]) = none :=
        hinv.waiting_of_ne htx fun he => hidx he.2
      rw [hafter]
      exact (by decide : ecOtherFrame ≤ ecNoFrame)
  | @own htx bytes s' hecat hidx hstat hbuf hstored =>
      have hafter : replyOf idx (as ++ [.inframe idx (some bytes)]) = some bytes := by
        simp [replyStep, hinv.waiting idx htx, hecat, hidx]
      rw [hafter]
      exact ⟨hstored.rxWkc_eq, hstored.read_eq⟩

/-- A port on which nothing has happened. -/
def quietPort : NicState :=
  nicSetup (fun _ _ => 0) (fun _ => 0) (fun _ => 0) (fun _ => 0)

/-- A received frame with index 1 and work counter 3. -/
def frameForOne : List UInt8 :=
  List.replicate 12 0xff ++ [0x88, 0xA4, 0x0e, 0x10, 0x07, 0x01] ++ List.replicate 10 0 ++
    [3, 0] ++ List.replicate 30 0

/-- Two tasks send; the task with index 2 then reads the answer for index 1. -/
def crossedRun : List NicAction :=
  [.getindex, .setup 1 30, .outframe 1 true, .getindex, .setup 2 30, .outframe 2 true,
    .inframe 2 (some frameForOne)]

theorem crossedRun_runs : NicRun quietPort crossedRun (crossedRun.foldl nicStep quietPort) := by
  have h1 : NicRun quietPort [.getindex] (nicStep quietPort .getindex) :=
    NicRun.start.step (show 0 < ecMaxBuf by decide)
  have h2 := h1.step (a := .setup 1 30) ⟨by decide, by decide⟩
  have h3 := h2.step (a := .outframe 1 true) ⟨by decide, rfl⟩
  have h4 := h3.step (a := .getindex) (show 1 < ecMaxBuf by decide)
  have h5 := h4.step (a := .setup 2 30) ⟨by decide, by decide⟩
  have h6 := h5.step (a := .outframe 2 true) ⟨by decide, rfl⟩
  refine h6.step (a := .inframe 2 (some frameForOne))
    ⟨by decide, .inr ⟨by decide, fun bytes hbytes => ?_⟩⟩
  cases hbytes
  exact ⟨by decide, by decide, fun _ _ => by decide⟩

/-- The task with index 1 then finds its answer without reading the socket. -/
theorem ecxInframe_delivers_crossed :
    (ecxInframe (crossedRun.foldl nicStep quietPort).txbuflength
      (crossedRun.foldl nicStep quietPort).stack 1 none).2 = 3 :=
  (ecxInframe_delivers crossedRun_runs
    (show NicLegal _ (.inframe 1 none) from ⟨by decide, .inl ⟨by decide, rfl⟩⟩)).1

/-- The two tasks hold different indices. -/
theorem nic_indices_exclusive_crossed :
    (ecxGetindex (crossedRun.foldl nicStep quietPort).stack 2).1 ∉
      (crossedRun.foldl nicStep quietPort).held :=
  ((nic_indices_exclusive crossedRun_runs).2.2 (by decide)).2

end RaipalSoem

import RaipalSoem.BusExchange
import Mathlib.Algebra.Order.BigOperators.Group.Finset

/-!
# The work-counter gate

The demo accepts an exchange when the received work counter reaches the value
that counts each mapped direction of each slave once. A slave whose range is not
cut by a segment contributes at most once, so an accepted exchange has lost
nothing. A slave whose range is cut contributes to two datagrams, and one of them
can make up for the other. A frame that carries outputs alone can be lost on its way
back, when all slaves have taken their outputs from it: the exchange is rejected
although it has missed nothing.
-/

namespace RaipalSoem

open Lib

/-- The frames are those that are sent for the image, each with its fate. -/
def IsExchange (m : Mapping) (img : Image)
    (frames : List (Datagram × Fate m.slaves.length)) : Prop :=
  frames.map Prod.fst = ecSendProcessdata m.group img

/-- Every address of a direction of slave `k` is in a frame that serves the direction,
that the slave has processed, and that has come back. -/
def Confirmed (m : Mapping) (frames : List (Datagram × Fate m.slaves.length)) (dir : Direction)
    (k : Fin m.slaves.length) : Prop :=
  ∀ a ∈ (m.slaves.get k).area dir, ∃ f ∈ frames,
    f.1.serves dir = true ∧ f.1.block.Contains a ∧ f.2.confirmedBy k = true

/-- Slave `k` has received all its output bytes, with the values of the image. -/
def OutputsReceived (m : Mapping) (img : Image)
    (frames : List (Datagram × Fate m.slaves.length)) (k : Fin m.slaves.length) : Prop :=
  ∀ a ∈ (m.slaves.get k).area .output, ∃ f ∈ frames,
    f.1.serves .output = true ∧ f.1.block.Contains a ∧ f.2.processed k = true ∧
      f.1.data[a - f.1.block.start]? = some (img a)

/-- Slave `k` has delivered all its input bytes of this exchange into the image. -/
def InputsDelivered (m : Mapping) (img' : Image)
    (frames : List (Datagram × Fate m.slaves.length)) (k : Fin m.slaves.length) : Prop :=
  ∀ a ∈ (m.slaves.get k).area .input, ∃ f ∈ frames, ∃ memory, f.2.returned = some memory ∧
    f.1.serves .input = true ∧ f.1.block.Contains a ∧ f.2.processed k = true ∧
      img' a = memory a

/-- In every exchange the work counter reaches the expected value exactly when every
slave has received its outputs and delivered its inputs. -/
def GateExact (m : Mapping) : Prop :=
  ∀ (img : Image) (frames : List (Datagram × Fate m.slaves.length)), IsExchange m img frames →
    ∃ img' wkc, tickOnce img (replies m.slaves frames) = some (img', wkc) ∧
      (m.group.expectedWKC ≤ wkc ↔
        ∀ k, OutputsReceived m img frames k ∧ InputsDelivered m img' frames k)

/-- Every datagram of an exchange fits its transmit buffer. -/
def FramesFit (m : Mapping) : Prop :=
  ∀ img, ∀ d ∈ ecSendProcessdata m.group img, d.FitsBuffer

/-- The datagram carries bytes of a slave in a direction. -/
def Datagram.carries (slaves : List EcSlave) (dir : Direction) (d : Datagram) : Bool :=
  d.serves dir && slaves.any fun s => s.takesPart dir d.block

/-- Every datagram that carries outputs carries inputs too, so that its loss leaves inputs
undelivered. -/
def LossSeen (m : Mapping) : Prop :=
  ∀ img, ∀ d ∈ ecSendProcessdata m.group img,
    d.carries m.slaves .output = true → d.carries m.slaves .input = true

/-- No segment starts strictly inside the range of a slave. -/
def Uncut (m : Mapping) : Prop :=
  ∀ s ∈ m.slaves, ∀ dir, ∀ b ∈ blocksFrom 0 m.group.ioSegment,
    ∀ a ∈ s.area dir, ∀ a' ∈ s.area dir, ¬(a < b.start ∧ b.start ≤ a')

/-- A slave takes part in the datagrams that contain bytes of it. -/
theorem EcSlave.takesPart_of_mem {s : EcSlave} {dir : Direction} {a : Nat} (ha : a ∈ s.area dir)
    {b : Block} (hb : b.Contains a) : s.takesPart dir b = true := by
  obtain ⟨f, hf, hfa⟩ := ha
  exact List.any_eq_true.mpr ⟨f, hf, decide_eq_true (hb.meets hfa.1 hfa.2)⟩

/-- A datagram carries bytes of a direction exactly when it serves the direction and contains
one of them. -/
theorem Datagram.carries_iff {slaves : List EcSlave} {dir : Direction} {d : Datagram} :
    d.carries slaves dir = true ↔
      d.serves dir = true ∧ ∃ k, ∃ a ∈ (slaves.get k).area dir, d.block.Contains a := by
  unfold Datagram.carries
  rw [Bool.and_eq_true, List.any_eq_true]
  refine and_congr_right fun _ => ⟨?_, ?_⟩
  · rintro ⟨s, hs, hpart⟩
    obtain ⟨k, rfl⟩ := List.mem_iff_get.mp hs
    obtain ⟨f, hf, hmeets⟩ := List.any_eq_true.mp hpart
    obtain ⟨a, hlo, hhi, ha⟩ := (of_decide_eq_true hmeets).exists_contains
    exact ⟨k, a, ⟨f, hf, hlo, hhi⟩, ha⟩
  · rintro ⟨k, a, ha, hcontains⟩
    exact ⟨_, List.get_mem slaves k, EcSlave.takesPart_of_mem ha hcontains⟩

/-- A slave takes part in the datagrams that meet the bytes of its field. -/
theorem EcSlave.Holds.takesPart_iff {s : EcSlave} {dir : Direction} {f : Field}
    (h : s.Holds dir f) (b : Block) :
    s.takesPart dir b = true ↔ s.bits dir ≠ 0 ∧ b.Meets f.firstByte f.endByte := by
  unfold EcSlave.takesPart
  rw [List.any_eq_true]
  constructor
  · rintro ⟨x, hx, hmeets⟩
    obtain ⟨a, h₁, h₂, ha⟩ := (of_decide_eq_true hmeets).exists_contains
    obtain ⟨hbits, h₃, h₄⟩ := (h.mem_area a).mp ⟨x, hx, h₁, h₂⟩
    exact ⟨hbits, ha.meets h₃ h₄⟩
  · rintro ⟨hbits, hmeets⟩
    obtain ⟨a, h₁, h₂, ha⟩ := hmeets.exists_contains
    obtain ⟨x, hx, h₃, h₄⟩ := (h.mem_area a).mpr ⟨hbits, h₁, h₂⟩
    exact ⟨x, hx, decide_eq_true (ha.meets h₃ h₄)⟩

/-- The bytes `x, …, y - 1` are those of a mapped direction of slave `k`. -/
structure SlaveRange (m : Mapping) (dir : Direction) (k : Fin m.slaves.length) (x y : Nat) :
    Prop where
  lt : x < y
  lo : (m.group.part dir).1 ≤ x
  hi : y ≤ (m.group.part dir).2
  area : ∀ a, a ∈ (m.slaves.get k).area dir ↔ x ≤ a ∧ a < y
  takesPart : ∀ b : Block, (m.slaves.get k).takesPart dir b = decide (b.Meets x y)

theorem Mapping.LaysOut.slaveRange {m : Mapping} {bus : List SlaveInfo} (h : m.LaysOut bus)
    (dir : Direction) (k : Fin m.slaves.length) (hbits : (m.slaves.get k).bits dir ≠ 0) :
    ∃ x y, SlaveRange m dir k x y := by
  obtain ⟨f, hf, hholds⟩ : ∃ f ∈ busFields bus dir, (m.slaves.get k).Holds dir f := by
    obtain ⟨hk, hholds⟩ := h.field dir k
    exact ⟨_, List.getElem_mem hk, hholds⟩
  obtain ⟨c, hc⟩ := hholds.field
  obtain ⟨himage, hout, hin⟩ := busFields_bounds bus hf
  have hobytes := h.obytes
  have hibytes := h.image
  refine ⟨f.firstByte, f.endByte, ?_, ?_, ?_, fun a => ?_, fun b => ?_⟩
  · rw [hc]
    exact place_bytes_lt c (Nat.pos_of_ne_zero hbits)
  · cases dir with
    | output => exact Nat.zero_le _
    | input =>
        have := hin rfl
        simp only [EcGroup.part]
        omega
  · cases dir with
    | output =>
        have := hout rfl
        simp only [EcGroup.part]
        omega
    | input =>
        simp only [EcGroup.part]
        omega
  · rw [hholds.mem_area]
    exact and_iff_right hbits
  · rw [Bool.eq_iff_iff, hholds.takesPart_iff, decide_eq_true_eq]
    exact and_iff_right hbits

/-- A direction that is not mapped has no bytes and counts for nothing. -/
theorem Mapping.LaysOut.unmapped {m : Mapping} {bus : List SlaveInfo} (h : m.LaysOut bus)
    {dir : Direction} {k : Fin m.slaves.length} (hbits : (m.slaves.get k).bits dir = 0)
    (frames : List (Datagram × Fate m.slaves.length)) :
    Confirmed m frames dir k ∧ account m.slaves frames dir k = 0 := by
  obtain ⟨_, hholds⟩ := h.field dir k
  constructor
  · intro a ha
    exact absurd hbits ((hholds.mem_area a).mp ha).1
  · rw [account, List.countP_eq_zero]
    intro f _ hf
    have hpart : (m.slaves.get k).takesPart dir f.1.block = true := by
      simp only [countsFor, Bool.and_eq_true] at hf
      exact hf.1.2
    exact ((hholds.takesPart_iff _).mp hpart).1 hbits

/-- Counting frames by their blocks is counting the serving blocks. -/
theorem IsExchange.countP {m : Mapping} {img : Image}
    {frames : List (Datagram × Fate m.slaves.length)} (h : IsExchange m img frames)
    (dir : Direction) (p : Block → Bool) :
    frames.countP (fun f => f.1.serves dir && p f.1.block) =
      (servingBlocks dir (ecSendProcessdata m.group img)).countP p := by
  calc
    frames.countP (fun f => f.1.serves dir && p f.1.block) =
        (frames.map Prod.fst).countP (fun d => d.serves dir && p d.block) := by
      rw [List.countP_map]
      rfl
    _ = (ecSendProcessdata m.group img).countP (fun d => d.serves dir && p d.block) := by
      rw [show frames.map Prod.fst = ecSendProcessdata m.group img from h]
    _ = (servingBlocks dir (ecSendProcessdata m.group img)).countP p := by
      rw [servingBlocks, List.countP_map, List.countP_filter]
      congr 1
      funext d
      exact Bool.and_comm _ _

section Uncut

variable {m : Mapping} {img : Image} {frames : List (Datagram × Fate m.slaves.length)}
  {dir : Direction} {k : Fin m.slaves.length} {x y : Nat}

theorem account_eq (hrange : SlaveRange m dir k x y) :
    account m.slaves frames dir k =
      frames.countP fun f =>
        f.1.serves dir && decide (f.1.block.Meets x y) && f.2.confirmedBy k := by
  unfold account countsFor
  simp only [hrange.takesPart]

/-- The blocks that serve a slave's direction, as a tiling around its range. -/
theorem SlaveRange.tiles (hrange : SlaveRange m dir k x y) (hseg : m.group.Segmented)
    (img : Image) :
    ∃ lo hi, Tiles lo (servingBlocks dir (ecSendProcessdata m.group img)) hi ∧ lo ≤ x ∧ y ≤ hi ∧
      ∀ p, x < p → p < y →
        ((∃ b ∈ servingBlocks dir (ecSendProcessdata m.group img), b.start = p) ↔
          ∃ b ∈ blocksFrom 0 m.group.ioSegment, b.start = p) := by
  have hlt := hrange.lt
  have hlo := hrange.lo
  have hhi := hrange.hi
  obtain ⟨lo, hi, htiles, h₁, h₂, _, hstarts⟩ := hseg.serves img dir (by omega)
  exact ⟨lo, hi, htiles, h₁.trans hlo, hhi.trans h₂,
    fun p hp hp' => hstarts p (by omega) (by omega)⟩

/-- A slave whose range is not cut counts at most once, and it counts exactly when all
its bytes are reached. -/
theorem account_uncut (hrange : SlaveRange m dir k x y) (hseg : m.group.Segmented)
    (hex : IsExchange m img frames)
    (huncut : ∀ b ∈ blocksFrom 0 m.group.ioSegment, ¬(x < b.start ∧ b.start < y)) :
    account m.slaves frames dir k ≤ 1 ∧
      (account m.slaves frames dir k = 1 ↔ Confirmed m frames dir k) := by
  obtain ⟨lo, hi, htiles, hlo, hhi, hstarts⟩ := hrange.tiles hseg img
  obtain ⟨hone, hall⟩ := htiles.uncut hlo hrange.lt hhi fun b hb hcut => by
    obtain ⟨c, hc, hstart⟩ := (hstarts b.start hcut.1 hcut.2).mp ⟨b, hb, rfl⟩
    exact huncut c hc (hstart ▸ hcut)
  have hle : account m.slaves frames dir k ≤ 1 := by
    rw [account_eq hrange, ← hone, ← hex.countP dir fun b => b.Meets x y]
    apply List.countP_mono_left
    intro f _ hf
    exact (Bool.and_eq_true_iff.mp hf).1
  refine ⟨hle, ?_⟩
  constructor
  · intro hacc a ha
    obtain ⟨h₁, h₂⟩ := (hrange.area a).mp ha
    rw [account_eq hrange] at hacc
    obtain ⟨f, hf, hcounts⟩ := List.countP_pos_iff.mp
      (show 0 < frames.countP _ by rw [hacc]; exact Nat.one_pos)
    simp only [Bool.and_eq_true, decide_eq_true_eq] at hcounts
    obtain ⟨⟨hserves, hmeets⟩, hproc⟩ := hcounts
    have hmem : f.1.block ∈ servingBlocks dir (ecSendProcessdata m.group img) := by
      have hd : f.1 ∈ ecSendProcessdata m.group img := by
        rw [← show frames.map Prod.fst = ecSendProcessdata m.group img from hex]
        exact List.mem_map_of_mem hf
      exact List.mem_map_of_mem (List.mem_filter.mpr ⟨hd, hserves⟩)
    exact ⟨f, hf, hserves, hall _ hmem hmeets a h₁ h₂, hproc⟩
  · intro hconfirmed
    obtain ⟨f, hf, hserves, hcontains, hproc⟩ :=
      hconfirmed x ((hrange.area x).mpr ⟨le_refl x, hrange.lt⟩)
    have hpos : 0 < account m.slaves frames dir k := by
      rw [account_eq hrange]
      refine List.countP_pos_iff.mpr ⟨f, hf, ?_⟩
      simp [hserves, hproc, hcontains.meets (le_refl x) hrange.lt]
    omega

end Uncut

section Exchange

variable {m : Mapping} {img : Image} {frames : List (Datagram × Fate m.slaves.length)}
  {k : Fin m.slaves.length}

theorem IsExchange.mem_send (hex : IsExchange m img frames) {f} (hf : f ∈ frames) :
    f.1 ∈ ecSendProcessdata m.group img := by
  rw [← show frames.map Prod.fst = ecSendProcessdata m.group img from hex]
  exact List.mem_map_of_mem hf

theorem IsExchange.replies_fst (hex : IsExchange m img frames) :
    (replies m.slaves frames).map Prod.fst = ecSendProcessdata m.group img := by
  rw [← show frames.map Prod.fst = ecSendProcessdata m.group img from hex, replies, List.map_map]
  rfl

theorem IsExchange.length_le (hex : IsExchange m img frames) (hseg : m.group.Segmented) :
    (replies m.slaves frames).length ≤ ecMaxBuf := by
  have hlen := congrArg List.length hex.replies_fst
  rw [List.length_map] at hlen
  rw [hlen]
  exact hseg.send_length img

/-- Of the elements with a property that at most one place of a list has, there is one. -/
theorem eq_of_countP_le_one {α : Type*} {p : α → Bool} {l : List α} (h : l.countP p ≤ 1) {x y : α}
    (hx : x ∈ l) (hy : y ∈ l) (hpx : p x = true) (hpy : p y = true) : x = y := by
  obtain ⟨before, after, rfl⟩ := List.append_of_mem hx
  rw [List.countP_append, List.countP_cons_of_pos hpx] at h
  have hbefore : before.countP p = 0 := by omega
  have hafter : after.countP p = 0 := by omega
  rw [List.countP_eq_zero] at hbefore hafter
  rcases List.mem_append.mp hy with hy | hy
  · exact absurd hpy (hbefore y hy)
  · rcases List.mem_cons.mp hy with rfl | hy
    · rfl
    · exact absurd hpy (hafter y hy)

/-- A mapped byte of a slave is in one frame at most. -/
theorem IsExchange.countP_contains_le (hex : IsExchange m img frames) {bus : List SlaveInfo}
    (hlays : m.LaysOut bus) (hseg : m.group.Segmented) {dir : Direction} {a : Nat}
    (ha : a ∈ (m.slaves.get k).area dir) :
    frames.countP (fun f => f.1.serves dir && f.1.block.Contains a) ≤ 1 := by
  have hbits : (m.slaves.get k).bits dir ≠ 0 := by
    obtain ⟨_, hholds⟩ := hlays.field dir k
    exact ((hholds.mem_area a).mp ha).1
  obtain ⟨x, y, hrange⟩ := hlays.slaveRange dir k hbits
  obtain ⟨lo, hi, htiles, _⟩ := hrange.tiles hseg img
  rw [hex.countP dir fun b => b.Contains a, htiles.countP_contains a]
  split_ifs <;> omega

/-- Two frames with the same mapped byte are one. -/
theorem IsExchange.frame_unique (hex : IsExchange m img frames) {bus : List SlaveInfo}
    (hlays : m.LaysOut bus) (hseg : m.group.Segmented) {dir : Direction} {a : Nat}
    (ha : a ∈ (m.slaves.get k).area dir) {f g} (hf : f ∈ frames) (hg : g ∈ frames)
    (hfa : f.1.serves dir = true ∧ f.1.block.Contains a)
    (hga : g.1.serves dir = true ∧ g.1.block.Contains a) : f = g :=
  eq_of_countP_le_one (hex.countP_contains_le hlays hseg ha) hf hg (by simp [hfa]) (by simp [hga])

/-- A datagram with output bytes carries those of the image. -/
theorem IsExchange.data_eq (hex : IsExchange m img frames) {f} (hf : f ∈ frames) {a : Nat}
    (hserves : f.1.serves .output = true) (hcontains : f.1.block.Contains a) :
    f.1.data[a - f.1.block.start]? = some (img a) := by
  obtain ⟨h₁, h₂⟩ := hcontains
  have hlt : a - f.1.block.start < f.1.block.len := by omega
  rw [mem_send_data (hex.mem_send hf) hserves]
  simp [Memory.read, hlt, Nat.add_sub_cancel' h₁]

/-- Outputs that are confirmed have been received. -/
theorem IsExchange.outputsReceived (hex : IsExchange m img frames)
    (h : Confirmed m frames .output k) : OutputsReceived m img frames k := by
  intro a ha
  obtain ⟨f, hf, hserves, hcontains, hconf⟩ := h a ha
  exact ⟨f, hf, hserves, hcontains, (Bool.and_eq_true_iff.mp hconf).2,
    hex.data_eq hf hserves hcontains⟩

/-- The inputs that are delivered are those that are confirmed. -/
theorem IsExchange.inputsDelivered_iff (hex : IsExchange m img frames) {bus : List SlaveInfo}
    (hlays : m.LaysOut bus) (hseg : m.group.Segmented) :
    InputsDelivered m (ecReceiveProcessdata img (replies m.slaves frames)).1 frames k ↔
      Confirmed m frames .input k := by
  constructor
  · intro h a ha
    obtain ⟨f, hf, memory, hreturned, hserves, hcontains, hproc, _⟩ := h a ha
    exact ⟨f, hf, hserves, hcontains, by simp [Fate.confirmedBy, hreturned, hproc]⟩
  · intro h a ha
    obtain ⟨f, hf, hserves, hcontains, hconf⟩ := h a ha
    obtain ⟨hsome, hproc⟩ := Bool.and_eq_true_iff.mp hconf
    obtain ⟨memory, hreturned⟩ := Option.isSome_iff_exists.mp hsome
    refine ⟨f, hf, memory, hreturned, hserves, hcontains, hproc, ?_⟩
    obtain ⟨r, hr, hmemory⟩ : ∃ r : Reply, Fate.reply m.slaves f.1 f.2 = some r ∧
        r.memory = memory := by
      rw [Fate.reply, hreturned]
      exact ⟨_, rfl, rfl⟩
    have hreply : (f.1, some r) ∈ replies m.slaves frames := by
      rw [← hr]
      exact List.mem_map_of_mem hf
    rw [← hmemory]
    refine ecReceiveProcessdata_image img (hex.length_le hseg) ?_ hreply hserves hcontains
    have hcount : (replies m.slaves frames).countP
        (fun f => f.1.serves .input && f.1.block.Contains a) =
        frames.countP fun f => f.1.serves .input && f.1.block.Contains a := by
      rw [replies, List.countP_map]
      rfl
    rw [hcount]
    exact hex.countP_contains_le hlays hseg ha

/-- If all inputs are confirmed, so are the outputs that are received with inputs in the same
datagram. -/
theorem IsExchange.confirmed_of_received (hex : IsExchange m img frames) {bus : List SlaveInfo}
    (hlays : m.LaysOut bus) (hseg : m.group.Segmented) (hloss : LossSeen m)
    (hinputs : ∀ j, Confirmed m frames .input j) (h : OutputsReceived m img frames k) :
    Confirmed m frames .output k := by
  intro a ha
  obtain ⟨f, hf, hserves, hcontains, hproc, _⟩ := h a ha
  refine ⟨f, hf, hserves, hcontains, Bool.and_eq_true_iff.mpr ⟨?_, hproc⟩⟩
  -- an input byte that shares the datagram
  obtain ⟨hserves', j, c, hc, hfc⟩ := Datagram.carries_iff.mp
    (hloss img f.1 (hex.mem_send hf) (Datagram.carries_iff.mpr ⟨hserves, k, a, ha, hcontains⟩))
  obtain ⟨g, hg, hgserves, hgcontains, hgconf⟩ := hinputs j c hc
  rw [hex.frame_unique hlays hseg hc hf hg ⟨hserves', hfc⟩ ⟨hgserves, hgcontains⟩]
  exact (Bool.and_eq_true_iff.mp hgconf).1

/-- The received work counter reaches a positive value when the accounts do. -/
theorem IsExchange.le_wkc_iff (hex : IsExchange m img frames) (hseg : m.group.Segmented)
    {expected : Int} (hpos : 1 ≤ expected) :
    expected ≤ (ecReceiveProcessdata img (replies m.slaves frames)).2 ↔
      expected ≤ (∑ k, (2 * account m.slaves frames .output k +
        account m.slaves frames .input k) : Nat) := by
  have hdc : ∀ f ∈ (replies m.slaves frames).tail, f.1.dc = false := by
    intro f hf
    have hmem : f.1 ∈ (ecSendProcessdata m.group img).tail := by
      rw [← hex.replies_fst, ← List.map_tail]
      exact List.mem_map_of_mem hf
    exact send_tail_dc hmem
  rw [ecReceiveProcessdata_wkc img _ (hex.length_le hseg) hdc, ← sum_frameCredit]
  by_cases hany : (replies m.slaves frames).any (fun f => f.2.isSome) = true
  · rw [if_pos hany]
  · rw [if_neg hany]
    have hzero : ((replies m.slaves frames).map frameCredit).sum = 0 := by
      rw [List.sum_eq_zero]
      intro c hc
      obtain ⟨f, hf, rfl⟩ := List.mem_map.mp hc
      have hnone : f.2 = none := by
        rw [List.any_eq_true, not_exists] at hany
        simpa using fun h => hany f ⟨hf, h⟩
      simp [frameCredit, hnone]
    rw [hzero]
    unfold ecNoFrame
    omega

end Exchange

section Exact

variable {m : Mapping} {bus : List SlaveInfo}

theorem account_le_expectedShare (hlays : m.LaysOut bus) (hseg : m.group.Segmented)
    (huncut : Uncut m) {img : Image} {frames : List (Datagram × Fate m.slaves.length)}
    (hex : IsExchange m img frames) (dir : Direction) (k : Fin m.slaves.length) :
    account m.slaves frames dir k ≤ expectedShare m.slaves dir k ∧
      (account m.slaves frames dir k = expectedShare m.slaves dir k ↔
        Confirmed m frames dir k) := by
  by_cases hbits : (m.slaves.get k).bits dir = 0
  · obtain ⟨hconfirmed, hzero⟩ := hlays.unmapped hbits frames
    rw [hzero, expectedShare, if_pos hbits]
    exact ⟨le_refl 0, iff_of_true rfl hconfirmed⟩
  · obtain ⟨x, y, hrange⟩ := hlays.slaveRange dir k hbits
    rw [expectedShare, if_neg hbits]
    refine account_uncut hrange hseg hex fun b hb hcut => ?_
    exact huncut _ (List.get_mem m.slaves k) dir b hb x ((hrange.area x).mpr ⟨le_refl x, hrange.lt⟩)
      b.start ((hrange.area _).mpr ⟨hcut.1.le, hcut.2⟩) ⟨hcut.1, le_refl _⟩

/-- Accounts that stay below their shares reach the expected sum only all together. -/
theorem expectedWKC_le_iff (hlays : m.LaysOut bus) (hseg : m.group.Segmented)
    (huncut : Uncut m) {img : Image} {frames : List (Datagram × Fate m.slaves.length)}
    (hex : IsExchange m img frames) :
    m.group.expectedWKC ≤ (∑ k, (2 * account m.slaves frames .output k +
        account m.slaves frames .input k) : Nat) ↔
      ∀ k, Confirmed m frames .output k ∧ Confirmed m frames .input k := by
  have hout := account_le_expectedShare hlays hseg huncut hex .output
  have hin := account_le_expectedShare hlays hseg huncut hex .input
  have hle : ∀ k ∈ Finset.univ, 2 * account m.slaves frames .output k +
      account m.slaves frames .input k ≤
      2 * expectedShare m.slaves .output k + expectedShare m.slaves .input k := by
    intro k _
    have := (hout k).1
    have := (hin k).1
    omega
  have hsum := Finset.sum_le_sum hle
  have hall := Finset.sum_eq_sum_iff_of_le hle
  rw [hlays.expectedWKC, Nat.cast_le]
  constructor
  · intro hge k
    have heq := hall.mp (le_antisymm hsum hge) k (Finset.mem_univ k)
    have h₁ := (hout k).1
    have h₂ := (hin k).1
    exact ⟨(hout k).2.mp (by omega), (hin k).2.mp (by omega)⟩
  · intro hconfirmed
    refine (hall.mpr fun k _ => ?_).ge
    rw [(hout k).2.mpr (hconfirmed k).1, (hin k).2.mpr (hconfirmed k).2]

/-- A bus with a mapped byte expects something. -/
theorem one_le_expectedWKC (hlays : m.LaysOut bus) (hpos : 0 < imageBytes bus) :
    1 ≤ m.group.expectedWKC := by
  by_contra hlt
  rw [hlays.expectedWKC] at hlt
  have hzero : (∑ k, (2 * expectedShare m.slaves .output k +
      expectedShare m.slaves .input k)) = 0 := by omega
  have hshare : ∀ dir k, expectedShare m.slaves dir k = 0 := by
    intro dir k
    have := Finset.sum_eq_zero_iff.mp hzero k (Finset.mem_univ k)
    cases dir <;> omega
  have himage := hlays.imageBytes_le 0 fun s hs dir x hx => by
    obtain ⟨k, rfl⟩ := List.mem_iff_get.mp hs
    have hbits : (m.slaves.get k).bits dir = 0 := by
      by_contra hne
      have := hshare dir k
      rw [expectedShare, if_neg hne] at this
      omega
    obtain ⟨_, hholds⟩ := hlays.field dir k
    rw [hholds.unused hbits] at hx
    cases hx
  omega

/-- A frame counts for a slave if it brings a byte of the slave's range past it. -/
theorem one_le_account {dir : Direction} {k : Fin m.slaves.length} {x y : Nat}
    (hrange : SlaveRange m dir k x y) {frames : List (Datagram × Fate m.slaves.length)} {f}
    (hf : f ∈ frames) (hserves : f.1.serves dir = true) (hcontains : f.1.block.Contains x)
    (hconf : f.2.confirmedBy k = true) : 1 ≤ account m.slaves frames dir k := by
  rw [account_eq hrange]
  refine List.countP_pos_iff.mpr ⟨f, hf, ?_⟩
  simp [hserves, hconf, hcontains.meets (le_refl x) hrange.lt]

/-- The exchange in which all frames come back and every slave has processed them all,
except that slave `k` has missed the datagram with address `c`. -/
def missOne (m : Mapping) (img : Image) (dir : Direction) (k : Fin m.slaves.length) (c : Nat) :
    List (Datagram × Fate m.slaves.length) :=
  (ecSendProcessdata m.group img).map fun d =>
    (d,
      { processed := fun j => !(decide (j = k) && (d.serves dir && decide (d.block.Contains c)))
        returned := some img })

theorem missOne_isExchange (m : Mapping) (img : Image) (dir : Direction)
    (k : Fin m.slaves.length) (c : Nat) : IsExchange m img (missOne m img dir k c) := by
  unfold IsExchange missOne
  rw [List.map_map]
  exact List.map_id _

/-- No frame that slave `k` has processed carries the byte. -/
theorem missOne_not_processed {img : Image} {dir : Direction} {k : Fin m.slaves.length} {c : Nat}
    {f} (hf : f ∈ missOne m img dir k c) (hserves : f.1.serves dir = true)
    (hcontains : f.1.block.Contains c) : f.2.processed k = false := by
  obtain ⟨d, _, rfl⟩ := List.mem_map.mp hf
  simp only at hserves hcontains
  simp [hserves, hcontains]

/-- The exchange in which every slave processes every frame, and the frames that carry no
inputs are lost on their way back. -/
def loseUnread (m : Mapping) (img : Image) : List (Datagram × Fate m.slaves.length) :=
  (ecSendProcessdata m.group img).map fun d =>
    (d,
      { processed := fun _ => true
        returned := if d.carries m.slaves .input then some img else none })

theorem loseUnread_isExchange (m : Mapping) (img : Image) : IsExchange m img (loseUnread m img) := by
  unfold IsExchange loseUnread
  rw [List.map_map]
  exact List.map_id _

/-- A mapped byte of a slave is in a datagram that serves it. -/
theorem exists_carrier (hlays : m.LaysOut bus) (hseg : m.group.Segmented) (img : Image)
    {dir : Direction} {k : Fin m.slaves.length} {a : Nat} (ha : a ∈ (m.slaves.get k).area dir) :
    ∃ d ∈ ecSendProcessdata m.group img, d.serves dir = true ∧ d.block.Contains a := by
  have hbits : (m.slaves.get k).bits dir ≠ 0 := by
    obtain ⟨_, hholds⟩ := hlays.field dir k
    exact ((hholds.mem_area a).mp ha).1
  obtain ⟨x, y, hrange⟩ := hlays.slaveRange dir k hbits
  obtain ⟨h₁, h₂⟩ := (hrange.area a).mp ha
  exact hseg.exists_datagram img dir (hrange.lo.trans h₁) (h₂.trans_le hrange.hi)

/-- All outputs are received in it. -/
theorem loseUnread_outputsReceived (hlays : m.LaysOut bus) (hseg : m.group.Segmented) (img : Image)
    (k : Fin m.slaves.length) : OutputsReceived m img (loseUnread m img) k := by
  intro a ha
  obtain ⟨d, hd, hserves, hcontains⟩ := exists_carrier hlays hseg img ha
  have hmem : (d, _) ∈ loseUnread m img := List.mem_map.mpr ⟨d, hd, rfl⟩
  exact ⟨_, hmem, hserves, hcontains, rfl,
    (loseUnread_isExchange m img).data_eq hmem hserves hcontains⟩

/-- All inputs are confirmed. -/
theorem loseUnread_confirmed (hlays : m.LaysOut bus) (hseg : m.group.Segmented) (img : Image)
    (k : Fin m.slaves.length) : Confirmed m (loseUnread m img) .input k := by
  intro a ha
  obtain ⟨d, hd, hserves, hcontains⟩ := exists_carrier hlays hseg img ha
  have hcarries : d.carries m.slaves .input = true :=
    Datagram.carries_iff.mpr ⟨hserves, k, a, ha, hcontains⟩
  exact ⟨_, List.mem_map.mpr ⟨d, hd, rfl⟩, hserves, hcontains,
    by simp [Fate.confirmedBy, hcarries]⟩

/-- Slave `j` still counts in a direction if the missed datagram is not the one with
the first byte of its range. -/
theorem one_le_account_missOne {dir dir' : Direction} {k j : Fin m.slaves.length} {c x y : Nat}
    (hrange : SlaveRange m dir' j x y) (hseg : m.group.Segmented) (img : Image)
    (hother : j = k → ∀ d ∈ ecSendProcessdata m.group img, d.serves dir' = true →
      d.block.Contains x → d.serves dir = true → ¬ d.block.Contains c) :
    1 ≤ account m.slaves (missOne m img dir k c) dir' j := by
  obtain ⟨d, hd, hserves, hx⟩ := hseg.exists_datagram img dir' hrange.lo
    (lt_of_lt_of_le hrange.lt hrange.hi)
  refine one_le_account hrange (List.mem_map.mpr ⟨d, hd, rfl⟩) hserves hx ?_
  simp only [Fate.confirmedBy, Option.isSome_some, Bool.true_and, Bool.not_eq_true',
    Bool.and_eq_false_imp, decide_eq_true_eq, decide_eq_false_iff_not]
  exact fun hjk hserves' => hother hjk d hd hserves hx hserves'

/-- A slave whose range is cut counts although it has missed a datagram: the range
meets two blocks, and only one of them is missed. -/
theorem one_le_account_cut {dir : Direction} {k : Fin m.slaves.length} {x y p : Nat}
    (hrange : SlaveRange m dir k x y) (hseg : m.group.Segmented) (img : Image)
    (hp : ∃ b ∈ servingBlocks dir (ecSendProcessdata m.group img), b.start = p) (hxp : x < p)
    (hpy : p < y) (c : Nat) : 1 ≤ account m.slaves (missOne m img dir k c) dir k := by
  obtain ⟨lo, hi, htiles, hlo, hhi, _⟩ := hrange.tiles hseg img
  obtain ⟨b, hb, rfl⟩ := hp
  have haccount : account m.slaves (missOne m img dir k c) dir k =
      (servingBlocks dir (ecSendProcessdata m.group img)).countP
        (fun b => decide (b.Meets x y) && !decide (b.Contains c)) := by
    rw [account_eq hrange, missOne, servingBlocks, List.countP_map, List.countP_map,
      List.countP_filter]
    apply List.countP_congr
    intro d _
    cases hserves : d.serves dir <;> simp [Fate.confirmedBy, hserves]
  rw [haccount]
  exact htiles.one_le_countP_not_contains hlo hhi hb hxp hpy c

/-- If the range of slave `k` is cut, the slave can miss byte `c` of it, and all accounts
still reach their shares unless the byte lies in a datagram of its other range. -/
theorem expectedShare_le_missOne (hlays : m.LaysOut bus) (hseg : m.group.Segmented) (img : Image)
    {dir : Direction} {k : Fin m.slaves.length} {x y p : Nat} (hrange : SlaveRange m dir k x y)
    (hp : ∃ b ∈ servingBlocks dir (ecSendProcessdata m.group img), b.start = p) (hxp : x < p)
    (hpy : p < y) (c : Nat)
    (hmiss : ∀ dir' x' y', SlaveRange m dir' k x' y' → dir' ≠ dir →
      ∀ d ∈ ecSendProcessdata m.group img, d.block.Contains x' → d.serves dir = true →
        ¬ d.block.Contains c) (dir' : Direction) (j : Fin m.slaves.length) :
    expectedShare m.slaves dir' j ≤ account m.slaves (missOne m img dir k c) dir' j := by
  by_cases hbits : (m.slaves.get j).bits dir' = 0
  · rw [expectedShare, if_pos hbits]
    exact Nat.zero_le _
  · obtain ⟨x', y', hrange'⟩ := hlays.slaveRange dir' j hbits
    rw [expectedShare, if_neg hbits]
    by_cases hsame : j = k ∧ dir' = dir
    · obtain ⟨rfl, rfl⟩ := hsame
      exact one_le_account_cut hrange hseg img hp hxp hpy c
    · refine one_le_account_missOne hrange' hseg img ?_
      rintro rfl d hd _ hx' hserves
      exact hmiss dir' x' y' hrange' (fun h => hsame ⟨rfl, h⟩) d hd hx' hserves

/-- If a segment starts inside the range of slave `k`, then the slave can miss a
datagram with some of its bytes, and all accounts still reach their shares. -/
theorem exists_masked (hlays : m.LaysOut bus) (hseg : m.group.Segmented) (img : Image)
    {dir : Direction} {k : Fin m.slaves.length} {x y : Nat} (hrange : SlaveRange m dir k x y)
    {b : Block} (hb : b ∈ blocksFrom 0 m.group.ioSegment) (hxb : x < b.start)
    (hby : b.start < y) :
    ∃ c ∈ (m.slaves.get k).area dir, ∀ dir' j,
      expectedShare m.slaves dir' j ≤ account m.slaves (missOne m img dir k c) dir' j := by
  obtain ⟨lo, hi, htiles, hlo, hhi, hstarts⟩ := hrange.tiles hseg img
  have hlt := hrange.lt
  have hrlo := hrange.lo
  have hrhi := hrange.hi
  obtain ⟨s, hs, hsb⟩ := (hstarts b.start hxb hby).mpr ⟨b, hb, rfl⟩
  have hshare := expectedShare_le_missOne hlays hseg img hrange ⟨s, hs, hsb⟩ hxb hby
  have hserving : ∀ {d}, d ∈ ecSendProcessdata m.group img → d.serves dir = true →
      d.block ∈ servingBlocks dir (ecSendProcessdata m.group img) :=
    fun hd hserves => List.mem_map_of_mem (List.mem_filter.mpr ⟨hd, hserves⟩)
  cases dir with
  | output =>
      -- the block with the first output byte ends before the inputs
      refine ⟨x, (hrange.area x).mpr ⟨le_refl x, hlt⟩, hshare x ?_⟩
      intro dir' x' y' hrange' hdir d hd hx' hserves hc
      have hstop := htiles.stop_le_start (hserving hd hserves) hs hc (by omega)
      have hrlo' := hrange'.lo
      cases dir' with
      | output => exact hdir rfl
      | input =>
          simp only [EcGroup.part] at hrhi hrlo'
          have := hx'.2
          omega
  | input =>
      -- the block with the last input byte starts behind the outputs
      refine ⟨y - 1, (hrange.area (y - 1)).mpr ⟨by omega, by omega⟩, hshare (y - 1) ?_⟩
      intro dir' x' y' hrange' hdir d hd hx' hserves hc
      have hstart := htiles.start_le_start (hserving hd hserves) hs hc (by omega)
      have hrhi' := hrange'.hi
      have hlt' := hrange'.lt
      cases dir' with
      | input => exact hdir rfl
      | output =>
          simp only [EcGroup.part] at hrlo hrhi'
          have := hx'.1
          omega

end Exact

section Gate

variable {m : Mapping} {bus : List SlaveInfo}

theorem IsExchange.tickOnce {img : Image} {frames : List (Datagram × Fate m.slaves.length)}
    (hex : IsExchange m img frames) (hfit : FramesFit m) :
    tickOnce img (replies m.slaves frames) =
      some (ecReceiveProcessdata img (replies m.slaves frames)) := by
  rw [RaipalSoem.tickOnce, if_pos]
  intro f hf
  refine hfit img f.1 ?_
  rw [← hex.replies_fst]
  exact List.mem_map_of_mem hf

/-- An exchange has a result only if its frames fit their buffers. -/
theorem GateExact.framesFit (h : GateExact m) : FramesFit m := by
  intro img d hd
  have hex : IsExchange m img ((ecSendProcessdata m.group img).map fun d =>
      (d, ⟨fun _ => false, none⟩)) := by
    unfold IsExchange
    rw [List.map_map]
    exact List.map_id _
  obtain ⟨img', wkc, hsome, _⟩ := h img _ hex
  rw [← hex.replies_fst] at hd
  obtain ⟨f, hf, rfl⟩ := List.mem_map.mp hd
  unfold RaipalSoem.tickOnce at hsome
  split_ifs at hsome with hall
  exact hall f hf

/-- On a bus without cuts an exchange is accepted exactly when everything is confirmed. -/
theorem IsExchange.accepted_iff {img : Image} {frames : List (Datagram × Fate m.slaves.length)}
    (hex : IsExchange m img frames) (hlays : m.LaysOut bus) (hseg : m.group.Segmented)
    (huncut : Uncut m) (hone : 1 ≤ m.group.expectedWKC) :
    m.group.expectedWKC ≤ (ecReceiveProcessdata img (replies m.slaves frames)).2 ↔
      ∀ k, Confirmed m frames .output k ∧ Confirmed m frames .input k := by
  rw [hex.le_wkc_iff hseg hone, expectedWKC_le_iff hlays hseg huncut hex]

/-- An exact gate leaves no range cut. -/
theorem GateExact.uncut (h : GateExact m) (hlays : m.LaysOut bus) (hseg : m.group.Segmented)
    (hone : 1 ≤ m.group.expectedWKC) : Uncut m := by
  intro s hs dir b hb a ha a' ha' hcut
  obtain ⟨k, rfl⟩ := List.mem_iff_get.mp hs
  have hbits : (m.slaves.get k).bits dir ≠ 0 := by
    obtain ⟨_, hholds⟩ := hlays.field dir k
    exact ((hholds.mem_area a).mp ha).1
  obtain ⟨x, y, hrange⟩ := hlays.slaveRange dir k hbits
  have hax := (hrange.area a).mp ha
  have hay := (hrange.area a').mp ha'
  let img : Image := fun _ => 0
  obtain ⟨c, hc, hmask⟩ :=
    exists_masked hlays hseg img hrange hb (hax.1.trans_lt hcut.1) (hcut.2.trans_lt hay.2)
  have hex := missOne_isExchange m img dir k c
  obtain ⟨img', wkc, hsome, hgate⟩ := h img _ hex
  rw [hex.tickOnce h.framesFit, Option.some.injEq] at hsome
  obtain ⟨rfl, rfl⟩ : (ecReceiveProcessdata img (replies m.slaves _)).1 = img' ∧
      (ecReceiveProcessdata img (replies m.slaves _)).2 = wkc := Prod.ext_iff.mp hsome
  have hexpected : m.group.expectedWKC ≤
      (ecReceiveProcessdata img (replies m.slaves (missOne m img dir k c))).2 := by
    rw [hex.le_wkc_iff hseg hone, hlays.expectedWKC, Nat.cast_le]
    apply Finset.sum_le_sum
    intro j _
    have := hmask .output j
    have := hmask .input j
    omega
  have hall := hgate.mp hexpected k
  cases dir with
  | output =>
      obtain ⟨f, hf, hserves, hcontains, hproc, _⟩ := hall.1 c hc
      rw [missOne_not_processed hf hserves hcontains] at hproc
      cases hproc
  | input =>
      obtain ⟨f, hf, _, _, hserves, hcontains, hproc, _⟩ := hall.2 c hc
      rw [missOne_not_processed hf hserves hcontains] at hproc
      cases hproc

/-- An exact gate leaves no datagram that carries outputs alone: it could be lost when all
slaves have processed it. -/
theorem GateExact.lossSeen (h : GateExact m) (hlays : m.LaysOut bus) (hseg : m.group.Segmented)
    (hone : 1 ≤ m.group.expectedWKC) : LossSeen m := by
  intro img d hd hcarries
  have hex := loseUnread_isExchange m img
  obtain ⟨img', wkc, hsome, hgate⟩ := h img _ hex
  rw [hex.tickOnce h.framesFit, Option.some.injEq] at hsome
  obtain ⟨rfl, rfl⟩ : (ecReceiveProcessdata img (replies m.slaves _)).1 = img' ∧
      (ecReceiveProcessdata img (replies m.slaves _)).2 = wkc := Prod.ext_iff.mp hsome
  have haccepted := hgate.mpr fun k =>
    ⟨loseUnread_outputsReceived hlays hseg img k,
      (hex.inputsDelivered_iff hlays hseg).mpr (loseUnread_confirmed hlays hseg img k)⟩
  rw [hex.accepted_iff hlays hseg (h.uncut hlays hseg hone) hone] at haccepted
  obtain ⟨hserves, k, a, ha, hcontains⟩ := Datagram.carries_iff.mp hcarries
  obtain ⟨g, hg, hgserves, hgcontains, hgconf⟩ := (haccepted k).1 a ha
  have hsame := hex.frame_unique hlays hseg ha (List.mem_map.mpr ⟨d, hd, rfl⟩) hg
    ⟨hserves, hcontains⟩ ⟨hgserves, hgcontains⟩
  have hreturned := (Bool.and_eq_true_iff.mp hgconf).1
  rw [← hsame] at hreturned
  by_contra hnot
  simp [hnot] at hreturned

/-- The gate is exact for a bus exactly when every frame fits its buffer, no slave's range
is cut by a segment, and no datagram carries outputs alone. -/
theorem gateExact_iff (bus : List SlaveInfo) (m : Mapping) (h : ecConfigMap bus = some m)
    (hfits : imageBytes bus ≤ ioMapSize) (hpos : 0 < imageBytes bus) :
    GateExact m ↔ FramesFit m ∧ Uncut m ∧ LossSeen m := by
  have hlays := ecConfigMap_laysOut h
  have hseg := hlays.segmented hfits
  have hone := one_le_expectedWKC hlays hpos
  constructor
  · intro hexact
    exact ⟨hexact.framesFit, hexact.uncut hlays hseg hone, hexact.lossSeen hlays hseg hone⟩
  · rintro ⟨hfit, huncut, hloss⟩ img frames hex
    refine ⟨(ecReceiveProcessdata img (replies m.slaves frames)).1,
      (ecReceiveProcessdata img (replies m.slaves frames)).2, hex.tickOnce hfit, ?_⟩
    rw [hex.accepted_iff hlays hseg huncut hone]
    constructor
    · exact fun hall k => ⟨hex.outputsReceived (hall k).1,
        (hex.inputsDelivered_iff hlays hseg).mpr (hall k).2⟩
    · intro hall
      have hinputs : ∀ j, Confirmed m frames .input j := fun j =>
        (hex.inputsDelivered_iff hlays hseg).mp (hall j).2
      exact fun k => ⟨hex.confirmed_of_received hlays hseg hloss hinputs (hall k).1, hinputs k⟩

/-- Two drives share one datagram. -/
theorem twoDrives_datagrams {m : Mapping} (h : ecConfigMap [driveSlave, driveSlave] = some m) :
    m.group.ioSegment = [58] ∧ ∀ img, ∀ d ∈ ecSendProcessdata m.group img,
      d.block = ⟨0, 58⟩ ∧ d.carries m.slaves .input = true := by
  have hmap : ((ecConfigMap [driveSlave, driveSlave]).map fun m =>
      (m.group, m.slaves.any fun s => s.takesPart .input ⟨0, 58⟩)) =
        some (⟨32, 26, 2, 2, [58], 0, 32, 0, false⟩, true) := by decide +kernel
  rw [h, Option.map_some, Option.some.injEq, Prod.mk.injEq] at hmap
  obtain ⟨hgroup, hinputs⟩ := hmap
  rw [hgroup]
  refine ⟨rfl, fun img d hd => ?_⟩
  simp [ecSendProcessdata, processDatagrams, lrwDatagrams, segmentLoop, wholeSegment, addDc] at hd
  subst hd
  exact ⟨rfl, by simp [Datagram.carries, Datagram.serves, hinputs]⟩

/-- The gate is exact for two drives. -/
theorem gateExact_two_drives :
    ∃ m, ecConfigMap [driveSlave, driveSlave] = some m ∧ GateExact m := by
  have hmap : (ecConfigMap [driveSlave, driveSlave]).isSome = true := by decide +kernel
  obtain ⟨m, hm⟩ := Option.isSome_iff_exists.mp hmap
  obtain ⟨hsegment, hdatagrams⟩ := twoDrives_datagrams hm
  refine ⟨m, hm, (gateExact_iff _ m hm (by decide +kernel) (by decide +kernel)).mpr
    ⟨fun img d hd => ?_, fun s _ dir b hb a _ a' _ hcut => ?_,
      fun img d hd _ => (hdatagrams img d hd).2⟩⟩
  · unfold Datagram.FitsBuffer Datagram.frameLength ecMaxEcatFrame ecFirstDcDatagram
    rw [(hdatagrams img d hd).1]
    split_ifs <;> decide
  · -- the only segment starts in front of everything
    rw [hsegment] at hb
    obtain rfl : b = ⟨0, 58⟩ := by simpa [blocksFrom] using hb
    exact absurd hcut.1 (Nat.not_lt_zero a)

/-- A slave with 1465 output bytes, and two with six output bits each. The last one
straddles the end of the first segment. -/
def straddlingBus : List SlaveInfo :=
  [twoSmSlave (8 * 1465) 0, twoSmSlave 6 0, twoSmSlave 6 0]

/-- The image of this bus fits the buffer, and the gate is not exact. -/
theorem straddlingBus_not_exact :
    ∃ m, ecConfigMap straddlingBus = some m ∧ imageBytes straddlingBus ≤ ioMapSize ∧
      0 < imageBytes straddlingBus ∧ ¬ GateExact m := by
  have hmap : ((ecConfigMap straddlingBus).map fun m =>
      (m.slaves.map fun s => (s.fmmusOf .output).map Fmmu.block, m.group.ioSegment)) =
        some ([[⟨0, 1465⟩], [⟨1465, 1⟩], [⟨1465, 2⟩]], [1466, 1]) := by decide +kernel
  obtain ⟨m, hm, hblocks⟩ := Option.map_eq_some_iff.mp hmap
  obtain ⟨hslaves, hsegment⟩ := Prod.mk.inj hblocks
  have hfits : imageBytes straddlingBus ≤ ioMapSize := by decide +kernel
  have hpos : 0 < imageBytes straddlingBus := by decide +kernel
  refine ⟨m, hm, hfits, hpos, fun hexact => ?_⟩
  have hlays := ecConfigMap_laysOut hm
  have huncut := hexact.uncut hlays (hlays.segmented hfits) (one_le_expectedWKC hlays hpos)
  have hthird : [⟨1465, 2⟩] ∈ m.slaves.map fun s => (s.fmmusOf .output).map Fmmu.block := by
    rw [hslaves]
    decide
  obtain ⟨s, hs, hfmmus⟩ := List.mem_map.mp hthird
  have hlast : ⟨1465, 2⟩ ∈ (s.fmmusOf .output).map Fmmu.block := by
    rw [hfmmus]
    decide
  obtain ⟨f, hf, hblock⟩ := List.mem_map.mp hlast
  refine huncut s hs .output ⟨1466, 1⟩ (by simp [hsegment, blocksFrom]) 1465 ⟨f, hf, ?_⟩
    1466 ⟨f, hf, ?_⟩ (by decide)
  · rw [hblock]
    decide
  · rw [hblock]
    decide

end Gate

end RaipalSoem

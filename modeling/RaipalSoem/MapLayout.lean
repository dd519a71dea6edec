import RaipalSoem.MapSlave

/-!
# The layout of the process image

A finished mapping packs the outputs of all slaves from bit 0 on, fills up the
last byte, and packs the inputs behind it. The segments add up to the image as
long as the segment table has room.
-/

namespace RaipalSoem

open Lib

/-- The base pointer of a direction. -/
def EcSlave.base (s : EcSlave) : Direction → Option Nat
  | .output => s.outputs
  | .input => s.inputs

/-- The FMMUs of a direction. -/
def EcSlave.fmmusOf (s : EcSlave) (dir : Direction) : List Fmmu :=
  s.fmmu.filter fun f => f.fmmuType = dir.fmmuType

/-- The logical addresses at which a slave takes part in a direction. -/
def EcSlave.area (s : EcSlave) (dir : Direction) : Set Nat :=
  {a | ∃ f ∈ s.fmmusOf dir, f.block.Contains a}

/-- The work counter of a direction. -/
def Layout.wkc (l : Layout) : Direction → Nat
  | .output => l.outputsWKC
  | .input => l.inputsWKC

/-- The bit cursor of a layout. -/
def Layout.cursor (l : Layout) : Nat := bitCursor l.logAddr l.bitPos

/-- A slave that has not been mapped in a direction yet. -/
structure EcSlave.Unmapped (s : EcSlave) (dir : Direction) : Prop where
  base : s.base dir = none
  fmmus : s.fmmusOf dir = []
  bytes : s.bytes dir = byteLength (s.bits dir)

/-- A slave whose process data of a direction occupy the field `f`. -/
structure EcSlave.Holds (s : EcSlave) (dir : Direction) (f : Field) : Prop where
  field : ∃ c, f = place c (s.bits dir)
  base : s.base dir = if s.bits dir = 0 then none else some f.firstByte
  tiles : s.bits dir ≠ 0 → Tiles f.firstByte ((s.fmmusOf dir).map Fmmu.block) f.endByte
  unused : s.bits dir = 0 → s.fmmusOf dir = []

/-- Mapping one direction leaves the rest of a slave alone. -/
structure SameExcept (dir : Direction) (s s' : EcSlave) : Prop where
  bits : ∀ d, s'.bits d = s.bits d
  bytes : ∀ d, s'.bytes d = s.bytes d
  base : ∀ d, d ≠ dir → s'.base d = s.base d
  fmmusOf : ∀ d, d ≠ dir → s'.fmmusOf d = s.fmmusOf d
  blockLRW : s'.blockLRW = s.blockLRW
  hasdc : s'.hasdc = s.hasdc

theorem SameExcept.refl (dir : Direction) (s : EcSlave) : SameExcept dir s s :=
  ⟨fun _ => rfl, fun _ => rfl, fun _ _ => rfl, fun _ _ => rfl, rfl, rfl⟩

/-- What a direction holds survives the mapping of the other one. -/
theorem SameExcept.holds {dir d : Direction} {s s' : EcSlave} {f : Field}
    (h : SameExcept dir s s') (hd : d ≠ dir) (hs : s.Holds d f) : s'.Holds d f := by
  obtain ⟨h₁, h₂, h₃, h₄⟩ := hs
  constructor
  · rw [h.bits d]
    exact h₁
  · rw [h.base d hd, h.bits d]
    exact h₂
  · rw [h.bits d, h.fmmusOf d hd]
    exact h₃
  · rw [h.bits d, h.fmmusOf d hd]
    exact h₄

theorem SameExcept.unmapped {dir d : Direction} {s s' : EcSlave}
    (h : SameExcept dir s s') (hd : d ≠ dir) (hs : s.Unmapped d) : s'.Unmapped d := by
  constructor
  · rw [h.base d hd]
    exact hs.base
  · rw [h.fmmusOf d hd]
    exact hs.fmmus
  · rw [h.bytes d, h.bits d]
    exact hs.bytes

/-- The addresses of a slave are the bytes of its field. -/
theorem EcSlave.Holds.mem_area {s : EcSlave} {dir : Direction} {f : Field}
    (h : s.Holds dir f) (a : Nat) :
    a ∈ s.area dir ↔ s.bits dir ≠ 0 ∧ f.firstByte ≤ a ∧ a < f.endByte := by
  have harea : a ∈ s.area dir ↔ ∃ b ∈ (s.fmmusOf dir).map Fmmu.block, b.Contains a := by
    simp [EcSlave.area]
  rw [harea]
  by_cases hbits : s.bits dir = 0
  · simp [h.unused hbits, hbits]
  · rw [(h.tiles hbits).exists_contains_iff a]
    simp [hbits]

section Segments

/-- The segments account for `n` bytes. Two segments in a row hold more than one
limit, so their number is bounded by `n`, and bytes are dropped only when the
segment table is full. -/
structure Segments.Accounts (s : Segments) (n : Nat) : Prop where
  sum_le : s.closed.sum + s.size ≤ n
  count_le : 1467 * s.closed.length + s.size ≤ 2 * n
  sum_eq : s.closed.length < ecMaxIoSegments - 1 → s.closed.sum + s.size = n

theorem Segments.Accounts.account {s : Segments} {n : Nat} (h : s.Accounts n) (diff : Nat) :
    (s.account diff).Accounts (n + diff) := by
  obtain ⟨h₁, h₂, h₃⟩ := h
  unfold Segments.account
  rw [segmentLimit_eq]
  split_ifs with hlimit hroom
  · constructor
    · simp only [List.sum_append, List.sum_singleton]
      omega
    · simp only [List.length_append, List.length_singleton]
      omega
    · intro _
      have := h₃ hroom
      simp only [List.sum_append, List.sum_singleton]
      omega
  · exact ⟨by omega, by omega, fun hlt => absurd hlt hroom⟩
  · constructor
    · dsimp only
      omega
    · dsimp only
      omega
    · intro hlt
      have := h₃ hlt
      dsimp only
      omega

/-- The segments `s'` grow out of the segments `s`: closed ones stay, and the open
one is filled up before others follow. -/
def Segments.Extends (s s' : Segments) : Prop :=
  ∃ first rest, s'.closed ++ [s'.size] = s.closed ++ (s.size + first) :: rest

theorem Segments.Extends.refl (s : Segments) : s.Extends s := ⟨0, [], rfl⟩

theorem Segments.Extends.account {s s' : Segments} (h : s.Extends s') (diff : Nat) :
    s.Extends (s'.account diff) := by
  obtain ⟨first, rest, heq⟩ := h
  unfold Segments.account
  split_ifs with hlimit hroom
  · refine ⟨first, rest ++ [diff], ?_⟩
    dsimp only
    rw [heq]
    simp
  · exact ⟨first, rest, heq⟩
  · rcases List.eq_nil_or_concat rest with rfl | ⟨rest, last, rfl⟩
    · obtain ⟨hclosed, hsize⟩ := List.append_inj' heq rfl
      simp only [List.cons.injEq, and_true] at hsize
      exact ⟨first + diff, [], by simp [hclosed, hsize, Nat.add_assoc]⟩
    · rw [List.concat_eq_append, ← List.cons_append, ← List.append_assoc] at heq
      obtain ⟨hclosed, hsize⟩ := List.append_inj' heq rfl
      simp only [List.cons.injEq, and_true] at hsize
      exact ⟨first, rest ++ [last + diff], by simp [hclosed, hsize]⟩

end Segments

section OneSlave

variable {dir : Direction} {s : EcSlave}

theorem Placed.head {f : Field} {st : MapState} (h : Placed dir f st)
    (hlt : f.firstByte < f.endByte) :
    st.fmmus.head?.map Fmmu.logStart = some f.firstByte ∧
      (st.fmmus.any fun x => x.logLength ≠ 0) = true := by
  have htiles := h.tiles
  constructor
  · cases hf : st.fmmus with
    | nil =>
        rw [hf] at htiles
        have : f.firstByte = f.endByte := htiles
        omega
    | cons x xs =>
        rw [hf] at htiles
        exact congrArg some htiles.1
  · obtain ⟨b, hb, hmem⟩ := (htiles.exists_contains_iff f.firstByte).mpr ⟨le_refl _, hlt⟩
    obtain ⟨x, hx, rfl⟩ := List.mem_map.mp hb
    rw [List.any_eq_true]
    refine ⟨x, hx, ?_⟩
    obtain ⟨h₁, h₂⟩ := hmem
    simp only [Fmmu.block] at h₁ h₂
    simpa using (show x.logLength ≠ 0 by omega)

theorem fmmusOf_setMapping {fmmus : List Fmmu} (htype : ∀ x ∈ fmmus, x.fmmuType = dir.fmmuType)
    (d : Direction) :
    (s.setMapping dir fmmus).fmmusOf d = s.fmmusOf d ++ if d = dir then fmmus else [] := by
  have hfmmu : (s.setMapping dir fmmus).fmmu = s.fmmu ++ fmmus := by
    cases dir <;> rfl
  rw [EcSlave.fmmusOf, hfmmu, List.filter_append, EcSlave.fmmusOf]
  congr 1
  split_ifs with hd
  · subst hd
    exact List.filter_eq_self.mpr fun x hx => by simpa using htype x hx
  · rw [List.filter_eq_nil_iff]
    intro x hx
    rw [htype x hx]
    cases dir <;> cases d <;> first | exact absurd rfl hd | decide

theorem setMapping_same {fmmus : List Fmmu} (htype : ∀ x ∈ fmmus, x.fmmuType = dir.fmmuType) :
    SameExcept dir s (s.setMapping dir fmmus) := by
  refine ⟨?_, ?_, ?_, fun d hd => ?_, ?_, ?_⟩
  · cases dir <;> intro d <;> cases d <;> rfl
  · cases dir <;> intro d <;> cases d <;> rfl
  · cases dir <;> intro d hd <;> cases d <;> first | rfl | exact absurd rfl hd
  · rw [fmmusOf_setMapping htype, if_neg hd, List.append_nil]
  · cases dir <;> rfl
  · cases dir <;> rfl

theorem setMapping_base {fmmus : List Fmmu} (h : s.base dir = none) :
    (s.setMapping dir fmmus).base dir = fmmus.head?.map Fmmu.logStart := by
  cases dir with
  | output =>
      have h : s.outputs = none := h
      simp [EcSlave.setMapping, EcSlave.base, h]
  | input =>
      have h : s.inputs = none := h
      simp [EcSlave.setMapping, EcSlave.base, h]

theorem configCreateMappings_eq (dir : Direction) (s : EcSlave) (l : Layout) :
    configCreateMappings dir s l = createMappings dir s l := by
  cases dir <;> rfl

/-- What mapping one slave does to the layout and to the slave. -/
structure MapStep (dir : Direction) (s : EcSlave) (l : Layout) (s' : EcSlave) (l' : Layout) :
    Prop where
  same : SameExcept dir s s'
  holds : s'.Holds dir (place l.cursor (s.bits dir))
  bitPos_lt : l'.bitPos < 8
  cursor : l'.cursor = (place l.cursor (s.bits dir)).stop
  wkc : l'.wkc dir = l.wkc dir + if s.bits dir = 0 then 0 else 1
  wkc_other : ∀ d, d ≠ dir → l'.wkc d = l.wkc d
  segments : l'.segments = l.segments ∧ l'.logAddr = l.logAddr ∨
    ∃ diff, l'.segments = l.segments.account diff ∧ l'.logAddr = l.logAddr + diff

theorem place_bytes_lt (c : Nat) {bits : Nat} (h : 0 < bits) :
    (place c bits).firstByte < (place c bits).endByte := by
  obtain ⟨h₁, h₂⟩ := place_bounds c bits
  unfold Field.firstByte Field.endByte
  omega

theorem mapSlave_spec {l l' : Layout} {s' : EcSlave} (hs : s.Unmapped dir) (hl : l.bitPos < 8)
    (h : mapSlave dir s l = some (s', l')) : MapStep dir s l s' l' := by
  unfold mapSlave at h
  by_cases hbits : s.bits dir = 0
  · rw [if_pos hbits] at h
    cases h
    refine ⟨SameExcept.refl dir s, ⟨⟨l.cursor, rfl⟩, ?_, ?_, fun _ => hs.fmmus⟩, hl, ?_, ?_,
      fun _ _ => rfl, Or.inl ⟨rfl, rfl⟩⟩
    · rw [if_pos hbits, hs.base]
    · exact fun hne => absurd hbits hne
    · rw [hbits, place_zero]
    · rw [if_pos hbits, Nat.add_zero]
  · rw [if_neg hbits, configCreateMappings_eq, createMappings, Option.map_map] at h
    obtain ⟨st, hloop, heq⟩ := Option.map_eq_some_iff.mp h
    rw [hs.bytes] at hloop
    have hplaced := mapLoop_placed dir s.sm (Nat.pos_of_ne_zero hbits) hl hloop
    obtain ⟨hhead, hany⟩ := hplaced.head (place_bytes_lt _ (Nat.pos_of_ne_zero hbits))
    have hle : l.logAddr ≤ st.logAddr := by
      have hcursor := hplaced.cursor
      have hbounds := place_bounds (bitCursor l.logAddr l.bitPos) (s.bits dir)
      have hst := hplaced.bitPos_lt
      unfold bitCursor at hcursor hbounds
      omega
    simp only [Function.comp_apply, Prod.mk.injEq] at heq
    obtain ⟨rfl, rfl⟩ := heq
    rw [hany]
    refine ⟨setMapping_same hplaced.fmmuType, ⟨⟨l.cursor, ?_⟩, ?_, fun _ => ?_, fun h0 => ?_⟩,
      ?_, ?_, ?_, ?_, Or.inr ⟨st.logAddr - l.logAddr, ?_, ?_⟩⟩
    · rw [(setMapping_same hplaced.fmmuType).bits dir]
    · rw [setMapping_base hs.base, hhead, (setMapping_same hplaced.fmmuType).bits dir,
        if_neg hbits]
      rfl
    · rw [fmmusOf_setMapping hplaced.fmmuType, hs.fmmus, if_pos rfl, List.nil_append]
      exact hplaced.tiles
    · rw [(setMapping_same hplaced.fmmuType).bits dir] at h0
      exact absurd h0 hbits
    · cases dir <;> exact hplaced.bitPos_lt
    · cases dir <;> exact hplaced.cursor
    · rw [if_neg hbits]
      cases dir <;> rfl
    · intro d hd
      cases dir <;> cases d <;> first | rfl | exact absurd rfl hd
    · cases dir <;> rfl
    · have : l.logAddr + (st.logAddr - l.logAddr) = st.logAddr := by omega
      rw [this]
      cases dir <;> rfl

end OneSlave

section AllSlaves

variable {dir : Direction}

/-- What the loop over all slaves does in one direction. -/
structure MapPass (dir : Direction) (slaves : List EcSlave) (l : Layout)
    (slaves' : List EcSlave) (l' : Layout) : Prop where
  same : List.Forall₂ (SameExcept dir) slaves slaves'
  holds : List.Forall₂ (fun f s' => s'.Holds dir f)
    (fields l.cursor (slaves.map fun s => s.bits dir)) slaves'
  bitPos_lt : l'.bitPos < 8
  cursor : l'.cursor = packedEnd l.cursor (slaves.map fun s => s.bits dir)
  wkc : l'.wkc dir = l.wkc dir + slaves.countP fun s => s.bits dir ≠ 0
  wkc_other : ∀ d, d ≠ dir → l'.wkc d = l.wkc d
  accounts : l.segments.Accounts l.logAddr → l'.segments.Accounts l'.logAddr
  extends' : ∀ old : Segments, old.Extends l.segments → old.Extends l'.segments

theorem mapSlaves_spec {slaves slaves' : List EcSlave} {l l' : Layout}
    (hs : ∀ s ∈ slaves, s.Unmapped dir) (hl : l.bitPos < 8)
    (h : mapSlaves dir slaves l = some (slaves', l')) : MapPass dir slaves l slaves' l' := by
  induction slaves generalizing l slaves' with
  | nil =>
      cases h
      exact ⟨List.Forall₂.nil, List.Forall₂.nil, hl, rfl, rfl, fun _ _ => rfl, id, fun _ => id⟩
  | cons s rest ih =>
      obtain ⟨⟨s₁, l₁⟩, hone, hrest⟩ := Option.bind_eq_some_iff.mp h
      obtain ⟨⟨rest', l₂⟩, hpass, heq⟩ := Option.map_eq_some_iff.mp hrest
      cases heq
      have hstep := mapSlave_spec (hs s (by simp)) hl hone
      have hih := ih (fun x hx => hs x (List.mem_cons_of_mem s hx)) hstep.bitPos_lt hpass
      have hcursor := hstep.cursor
      refine ⟨List.Forall₂.cons hstep.same hih.same, ?_, hih.bitPos_lt, ?_, ?_, ?_, ?_, ?_⟩
      · refine List.Forall₂.cons hstep.holds ?_
        rw [← hcursor]
        exact hih.holds
      · rw [hih.cursor, hcursor, List.map_cons, packedEnd_cons]
      · rw [hih.wkc, hstep.wkc, List.countP_cons]
        by_cases hbits : s.bits dir = 0
        · simp [hbits]
        · simp only [hbits, if_false, ne_eq, not_false_eq_true, decide_true, if_true]
          omega
      · intro d hd
        rw [hih.wkc_other d hd, hstep.wkc_other d hd]
      · intro hacc
        apply hih.accounts
        rcases hstep.segments with ⟨h₁, h₂⟩ | ⟨diff, h₁, h₂⟩
        · rw [h₁, h₂]
          exact hacc
        · rw [h₁, h₂]
          exact hacc.account diff
      · intro old hold
        apply hih.extends'
        rcases hstep.segments with ⟨h₁, _⟩ | ⟨diff, h₁, _⟩
        · rw [h₁]
          exact hold
        · rw [h₁]
          exact hold.account diff

/-- Filling up the last byte moves the cursor to the next byte boundary. -/
theorem pad_spec {l : Layout} (hl : l.bitPos < 8) :
    l.pad.bitPos = 0 ∧ l.pad.logAddr = (l.cursor + 7) / 8 ∧ (∀ d, l.pad.wkc d = l.wkc d) ∧
      (l.segments.Accounts l.logAddr → l.pad.segments.Accounts l.pad.logAddr) ∧
      ∀ old : Segments, old.Extends l.segments → old.Extends l.pad.segments := by
  unfold Layout.pad Layout.cursor bitCursor
  split_ifs with hpos
  · refine ⟨rfl, ?_, fun d => ?_, fun h => h.account 1, fun old h => h.account 1⟩
    · dsimp only
      omega
    · cases d <;> rfl
  · exact ⟨by omega, by omega, fun _ => rfl, id, fun _ => id⟩

end AllSlaves

section Bus

/-- The bit lengths of all slaves in one direction. -/
def busBits (bus : List SlaveInfo) (dir : Direction) : List Nat :=
  bus.map fun s => (ecxMapSm s).bits dir

/-- The bytes of the output part of the image. -/
def outBytes (bus : List SlaveInfo) : Nat := (packedEnd 0 (busBits bus .output) + 7) / 8

/-- The bytes of the whole image. -/
def imageBytes (bus : List SlaveInfo) : Nat :=
  (packedEnd (8 * outBytes bus) (busBits bus .input) + 7) / 8

/-- The fields of all slaves in one direction. -/
def busFields (bus : List SlaveInfo) : Direction → List Field
  | .output => fields 0 (busBits bus .output)
  | .input => fields (8 * outBytes bus) (busBits bus .input)

theorem outBytes_le_imageBytes (bus : List SlaveInfo) : outBytes bus ≤ imageBytes bus := by
  have := le_packedEnd (8 * outBytes bus) (busBits bus .input)
  unfold imageBytes
  omega

/-- The fields of a direction end before its part of the image does. -/
theorem busFields_bounds (bus : List SlaveInfo) {dir : Direction} {f : Field}
    (hf : f ∈ busFields bus dir) :
    f.endByte ≤ imageBytes bus ∧
      (dir = .output → f.endByte ≤ outBytes bus) ∧ (dir = .input → outBytes bus ≤ f.firstByte) := by
  have hle := outBytes_le_imageBytes bus
  cases dir with
  | output =>
      obtain ⟨h₁, h₂, h₃⟩ := fields_bounds hf
      have hend : f.endByte ≤ outBytes bus := by
        unfold Field.endByte outBytes
        omega
      exact ⟨hend.trans hle, fun _ => hend, by simp⟩
  | input =>
      obtain ⟨h₁, h₂, h₃⟩ := fields_bounds hf
      refine ⟨?_, by simp, fun _ => ?_⟩
      · unfold Field.endByte imageBytes
        omega
      · unfold Field.firstByte
        omega

/-- A slave of the finished mapping against what was known of it before. -/
structure MappedFrom (i : SlaveInfo) (s : EcSlave) : Prop where
  bits : ∀ d, s.bits d = (ecxMapSm i).bits d
  bytes : ∀ d, s.bytes d = byteLength (s.bits d)
  blockLRW : s.blockLRW = i.blockLRW
  hasdc : s.hasdc = i.hasdc

/-- A finished mapping lays out the bus as the packed fields say. -/
structure Mapping.LaysOut (m : Mapping) (bus : List SlaveInfo) : Prop where
  slaves : List.Forall₂ MappedFrom bus m.slaves
  holds : ∀ dir, List.Forall₂ (fun f s => s.Holds dir f) (busFields bus dir) m.slaves
  obytes : m.group.obytes = outBytes bus
  image : m.group.obytes + m.group.ibytes = imageBytes bus
  outputsWKC : m.group.outputsWKC = m.slaves.countP fun s => s.bits .output ≠ 0
  inputsWKC : m.group.inputsWKC = m.slaves.countP fun s => s.bits .input ≠ 0
  segments : ∃ lo li : Segments, lo.Accounts (outBytes bus) ∧ li.Accounts (imageBytes bus) ∧
    lo.Extends li ∧ m.group.ioSegment = li.closed ++ [li.size] ∧
    m.group.isegment = lo.closed.length ∧ m.group.ioffset = lo.size % 2 ^ 16

theorem ecxMapSm_unmapped (i : SlaveInfo) (dir : Direction) : (ecxMapSm i).Unmapped dir := by
  cases dir <;> exact ⟨rfl, rfl, rfl⟩

/-- Two passes that keep all but the mapping of their own direction. -/
theorem MappedFrom.of_same {i : SlaveInfo} {s s' : EcSlave}
    (h : SameExcept .output (ecxMapSm i) s) (h' : SameExcept .input s s') : MappedFrom i s' := by
  have hbytes : (ecxMapSm i).bytes = fun d => byteLength ((ecxMapSm i).bits d) := by
    funext d
    exact (ecxMapSm_unmapped i d).bytes
  refine ⟨fun d => ?_, fun d => ?_, ?_, ?_⟩
  · rw [h'.bits, h.bits]
  · rw [h'.bytes, h.bytes, h'.bits, h.bits, hbytes]
  · rw [h'.blockLRW, h.blockLRW]
    rfl
  · rw [h'.hasdc, h.hasdc]
    rfl

theorem forall₂_trans {α β γ : Type*} {R : α → β → Prop} {S : β → γ → Prop} {T : α → γ → Prop}
    (h : ∀ a b c, R a b → S b c → T a c) {as : List α} {bs : List β} {cs : List γ}
    (hR : List.Forall₂ R as bs) (hS : List.Forall₂ S bs cs) : List.Forall₂ T as cs := by
  induction hR generalizing cs with
  | nil =>
      cases hS
      exact List.Forall₂.nil
  | cons hab _ ih =>
      cases hS with
      | cons hbc hS => exact List.Forall₂.cons (h _ _ _ hab hbc) (ih hS)

theorem forall₂_mem_left {α β : Type*} {R : α → β → Prop} {as : List α} {bs : List β}
    (h : List.Forall₂ R as bs) {a : α} (ha : a ∈ as) : ∃ b ∈ bs, R a b := by
  induction h with
  | nil => simp at ha
  | cons hab _ ih =>
      rcases List.mem_cons.mp ha with rfl | ha
      · exact ⟨_, by simp, hab⟩
      · obtain ⟨b, hb, hr⟩ := ih ha
        exact ⟨b, List.mem_cons_of_mem _ hb, hr⟩

theorem forall₂_mem_right {α β : Type*} {R : α → β → Prop} {as : List α} {bs : List β}
    (h : List.Forall₂ R as bs) {b : β} (hb : b ∈ bs) : ∃ a ∈ as, R a b := by
  induction h with
  | nil => simp at hb
  | cons hab _ ih =>
      rcases List.mem_cons.mp hb with rfl | hb
      · exact ⟨_, by simp, hab⟩
      · obtain ⟨a, ha, hr⟩ := ih hb
        exact ⟨a, List.mem_cons_of_mem _ ha, hr⟩

theorem forall₂_map_eq {α β γ : Type*} {f : α → γ} {g : β → γ} {as : List α} {bs : List β}
    (h : List.Forall₂ (fun a b => g b = f a) as bs) : bs.map g = as.map f := by
  induction h with
  | nil => rfl
  | cons hab _ ih => rw [List.map_cons, List.map_cons, hab, ih]

theorem countP_bits {dir : Direction} {as bs : List EcSlave}
    (h : as.map (fun s => s.bits dir) = bs.map fun s => s.bits dir) :
    as.countP (fun s => s.bits dir ≠ 0) = bs.countP fun s => s.bits dir ≠ 0 := by
  simpa [List.countP_map, Function.comp_def] using congrArg (List.countP fun b => b ≠ 0) h

/-- The mapping functions lay out the process image by packing the bit lengths of
the bus, outputs before inputs. -/
theorem ecConfigMap_laysOut {bus : List SlaveInfo} {m : Mapping} (h : ecConfigMap bus = some m) :
    m.LaysOut bus := by
  obtain ⟨⟨outs, lo⟩, houts, hrest⟩ := Option.bind_eq_some_iff.mp h
  obtain ⟨⟨ins, li⟩, hins, rfl⟩ := Option.map_eq_some_iff.mp hrest
  dsimp only at hins ⊢
  have hpassO : MapPass .output _ _ outs lo := mapSlaves_spec (by
    intro s hs
    obtain ⟨i, _, rfl⟩ := List.mem_map.mp hs
    exact ecxMapSm_unmapped i .output) (by decide) houts
  have hfromO : List.Forall₂ (fun i s => SameExcept .output (ecxMapSm i) s) bus outs :=
    List.forall₂_map_left_iff.mp hpassO.same
  obtain ⟨hpos, hlog, hwkc, hacc, hext⟩ := pad_spec hpassO.bitPos_lt
  have hpassI : MapPass .input _ _ ins li := mapSlaves_spec (by
    intro s hs
    obtain ⟨i, _, hi⟩ := forall₂_mem_right hfromO hs
    exact hi.unmapped (by decide) (ecxMapSm_unmapped i .input)) (by omega) hins
  obtain ⟨_, hlogI, hwkcI, haccI, hextI⟩ := pad_spec hpassI.bitPos_lt
  have hbitsI : outs.map (fun s => s.bits .input) = busBits bus .input :=
    forall₂_map_eq (hfromO.imp fun i s hs => hs.bits .input)
  have hbitsO : (bus.map ecxMapSm).map (fun s => s.bits .output) = busBits bus .output := by
    rw [List.map_map]
    rfl
  have hobytes : lo.pad.logAddr = outBytes bus := by
    rw [hlog, hpassO.cursor, hbitsO]
    rfl
  have hcursor : lo.pad.cursor = 8 * outBytes bus := by
    rw [Layout.cursor, hpos, hobytes]
    rfl
  have himage : li.pad.logAddr = imageBytes bus := by
    rw [hlogI, hpassI.cursor, hbitsI, hcursor]
    rfl
  have hinsO : ins.map (fun s => s.bits .output) = busBits bus .output := by
    rw [forall₂_map_eq (hpassI.same.imp fun s s' hs => hs.bits .output)]
    exact forall₂_map_eq (hfromO.imp fun i s hs => hs.bits .output)
  have hinsI : ins.map (fun s => s.bits .input) = busBits bus .input := by
    rw [forall₂_map_eq (hpassI.same.imp fun s s' hs => hs.bits .input), hbitsI]
  refine ⟨?_, ?_, hobytes, ?_, ?_, ?_, lo.pad.segments, li.pad.segments, ?_, ?_, ?_, rfl, rfl, rfl⟩
  · refine forall₂_trans (fun i s s' h₁ h₂ => ?_) hfromO hpassI.same
    exact MappedFrom.of_same h₁ h₂
  · intro dir
    cases dir with
    | output =>
        have hholds := hpassO.holds
        rw [hbitsO] at hholds
        exact forall₂_trans (fun f s s' h₁ h₂ => h₂.holds (by decide) h₁) hholds hpassI.same
    | input =>
        have hholds := hpassI.holds
        rw [hbitsI, hcursor] at hholds
        exact hholds
  · have := outBytes_le_imageBytes bus
    dsimp only
    omega
  · calc
      li.pad.outputsWKC = lo.wkc .output :=
        (hwkcI .output).trans ((hpassI.wkc_other .output (by decide)).trans (hwkc .output))
      _ = (bus.map ecxMapSm).countP fun s => s.bits .output ≠ 0 := by
        rw [hpassO.wkc]
        exact Nat.zero_add _
      _ = ins.countP fun s => s.bits .output ≠ 0 := countP_bits (hbitsO.trans hinsO.symm)
  · calc
      li.pad.inputsWKC = lo.pad.wkc .input + outs.countP fun s => s.bits .input ≠ 0 :=
        (hwkcI .input).trans hpassI.wkc
      _ = outs.countP fun s => s.bits .input ≠ 0 := by
        rw [hwkc .input, hpassO.wkc_other .input (by decide)]
        exact Nat.zero_add _
      _ = ins.countP fun s => s.bits .input ≠ 0 := countP_bits (hbitsI.trans hinsI.symm)
  · rw [← hobytes]
    exact hacc (hpassO.accounts ⟨by decide, by decide, fun _ => rfl⟩)
  · rw [← himage]
    exact haccI (hpassI.accounts (hacc (hpassO.accounts ⟨by decide, by decide, fun _ => rfl⟩)))
  · exact hextI _ (hpassI.extends' _ (Segments.Extends.refl _))

/-- The field of a slave. -/
theorem Mapping.LaysOut.field {m : Mapping} {bus : List SlaveInfo} (h : m.LaysOut bus)
    (dir : Direction) (k : Fin m.slaves.length) :
    ∃ hk : k < (busFields bus dir).length,
      (m.slaves.get k).Holds dir (busFields bus dir)[k] := by
  obtain ⟨hlen, hget⟩ := List.forall₂_iff_get.mp (h.holds dir)
  exact ⟨by omega, hget k (by omega) k.isLt⟩

theorem Mapping.LaysOut.bytes {m : Mapping} {bus : List SlaveInfo} (h : m.LaysOut bus)
    {s : EcSlave} (hs : s ∈ m.slaves) (dir : Direction) :
    s.bytes dir = byteLength (s.bits dir) := by
  obtain ⟨i, _, hi⟩ := forall₂_mem_right h.slaves hs
  exact hi.bytes dir

/-- If all mapped ranges lie below a bound, so does the packed image. -/
theorem Mapping.LaysOut.imageBytes_le {m : Mapping} {bus : List SlaveInfo} (h : m.LaysOut bus)
    (bound : Nat)
    (hmapped : ∀ s ∈ m.slaves, ∀ dir, ∀ f ∈ s.fmmusOf dir, f.logStart + f.logLength ≤ bound) :
    imageBytes bus ≤ bound := by
  have hfield : ∀ dir, ∀ f ∈ busFields bus dir, f.start < f.stop → f.stop ≤ 8 * bound := by
    intro dir f hf hlt
    obtain ⟨s, hs, hholds⟩ := forall₂_mem_left (h.holds dir) hf
    obtain ⟨c, hc⟩ := hholds.field
    have hbits : s.bits dir ≠ 0 := by
      intro h0
      rw [h0, place_zero] at hc
      rw [hc] at hlt
      exact lt_irrefl _ hlt
    have hbytes : f.firstByte < f.endByte := by
      rw [hc]
      exact place_bytes_lt c (Nat.pos_of_ne_zero hbits)
    obtain ⟨b, hb, hmem⟩ := ((hholds.tiles hbits).exists_contains_iff (f.endByte - 1)).mpr
      ⟨by omega, by omega⟩
    obtain ⟨x, hx, rfl⟩ := List.mem_map.mp hb
    have hend : f.endByte - 1 < x.logStart + x.logLength := hmem.2
    have hle := hmapped s hs dir x hx
    unfold Field.endByte at hend hbytes
    omega
  have hout : outBytes bus ≤ bound := by
    have := packedEnd_le (Nat.zero_le _) (hfield .output)
    unfold outBytes
    omega
  have := packedEnd_le (show 8 * outBytes bus ≤ 8 * bound by omega) (hfield .input)
  unfold imageBytes
  omega

end Bus

end RaipalSoem

import RaipalSoem.MapLayout
import RaipalSoem.ProcessData
import Mathlib.Algebra.Order.BigOperators.Group.List
import Mathlib.Algebra.Order.Group.Nat

/-!
# The datagrams tile the image

For an image that fits the buffer, the segments add up to the image, and the
datagrams that serve a direction follow one another over the part of the image
that the direction occupies. Between the two ends of the part they start exactly
where the segments do.
-/

namespace RaipalSoem

open Lib

section Loop

theorem clippedSegment_eq {length segment : Nat} (hl : length < 2 ^ 16)
    (hs : segment < 2 ^ 16) : clippedSegment length segment = min length segment := by
  unfold clippedSegment
  dsimp only
  rw [Nat.mod_eq_of_lt hs]
  split_ifs with h <;> omega

/-- Whole segments that add up to the length need no clipping. -/
theorem segmentLoop_whole (segments : List Nat) (pos : Nat) (hl : segments.sum < 2 ^ 16) :
    segmentLoop wholeSegment segments (segments.sum : Nat) pos =
      segmentLoop clippedSegment segments (segments.sum : Nat) pos := by
  induction segments generalizing pos with
  | nil => rfl
  | cons segment segments ih =>
      rw [List.sum_cons] at hl
      have hclip : clippedSegment ((segment :: segments).sum : Nat) segment = segment := by
        rw [List.sum_cons, clippedSegment_eq (by omega) (by omega)]
        omega
      have hwhole : wholeSegment ((segment :: segments).sum : Nat) segment = segment :=
        Nat.mod_eq_of_lt (by omega)
      have hrest : (((segment :: segments).sum : Nat) : Int) - segment = (segments.sum : Nat) := by
        rw [List.sum_cons]
        omega
      simp only [segmentLoop, hclip, hwhole, hrest, ih (pos + segment) (by omega)]

theorem segmentLoop_cons (segments : List Nat) {segment length : Nat} (pos : Nat)
    (hs : segment < 2 ^ 16) (hl : length < 2 ^ 16) :
    segmentLoop clippedSegment (segment :: segments) length pos =
      ⟨pos, min length segment⟩ ::
        if segment < length then
          segmentLoop clippedSegment segments (length - segment : Nat) (pos + segment)
        else [] := by
  simp only [segmentLoop, clippedSegment_eq hl hs]
  by_cases hlt : segment < length
  · have hmin : min length segment = segment := by omega
    have hcast : (length : Int) - (segment : Nat) = (length - segment : Nat) := by omega
    rw [if_pos hlt, hmin, hcast, if_pos (by omega)]
  · rw [if_neg hlt, if_neg (by omega)]

section Clipped

variable {segments : List Nat} {length : Nat} (hs : ∀ s ∈ segments, s < 2 ^ 16)
  (hl : length < 2 ^ 16)

include hs hl

/-- The loop covers the whole length. -/
theorem segmentLoop_tiles (hsum : length ≤ segments.sum) (pos : Nat) :
    Tiles pos (segmentLoop clippedSegment segments length pos) (pos + length) := by
  induction segments generalizing length pos with
  | nil =>
      obtain rfl : length = 0 := by simpa using hsum
      rfl
  | cons segment segments ih =>
      have htail : ∀ s ∈ segments, s < 2 ^ 16 := fun s h => hs s (List.mem_cons_of_mem _ h)
      rw [List.sum_cons] at hsum
      rw [segmentLoop_cons segments pos (hs segment (by simp)) hl]
      refine ⟨rfl, ?_⟩
      dsimp only
      by_cases hlt : segment < length
      · have hih : Tiles (pos + segment)
            (segmentLoop clippedSegment segments (length - segment : Nat) (pos + segment))
            (pos + segment + (length - segment)) := ih htail (by omega) (by omega) (pos + segment)
        have h₁ : pos + segment + (length - segment) = pos + length := by omega
        have h₂ : min length segment = segment := by omega
        rw [if_pos hlt, h₂, ← h₁]
        exact hih
      · rw [if_neg hlt]
        have : min length segment = length := by omega
        rw [this]
        rfl

/-- Each block of the loop starts where a segment does. -/
theorem segmentLoop_start (pos : Nat) {b : Block}
    (hb : b ∈ segmentLoop clippedSegment segments length pos) :
    ∃ c ∈ blocksFrom pos segments, c.start = b.start := by
  induction segments generalizing length pos with
  | nil => simp [segmentLoop] at hb
  | cons segment segments ih =>
      have htail : ∀ s ∈ segments, s < 2 ^ 16 := fun s h => hs s (List.mem_cons_of_mem _ h)
      rw [segmentLoop_cons segments pos (hs segment (by simp)) hl] at hb
      rcases List.mem_cons.mp hb with rfl | hb
      · exact ⟨⟨pos, segment⟩, by simp [blocksFrom], rfl⟩
      · split_ifs at hb with hlt
        · obtain ⟨c, hc, heq⟩ := ih htail (by omega) (pos + segment) hb
          exact ⟨c, by simp [blocksFrom, hc], heq⟩
        · simp at hb

/-- Each segment that starts before the end starts a block of the loop. -/
theorem exists_segmentLoop_start (pos : Nat) {c : Block} (hc : c ∈ blocksFrom pos segments)
    (hlt : c.start < pos + length) :
    ∃ b ∈ segmentLoop clippedSegment segments length pos, b.start = c.start := by
  induction segments generalizing length pos with
  | nil => simp [blocksFrom] at hc
  | cons segment segments ih =>
      have htail : ∀ s ∈ segments, s < 2 ^ 16 := fun s h => hs s (List.mem_cons_of_mem _ h)
      rw [segmentLoop_cons segments pos (hs segment (by simp)) hl]
      rcases List.mem_cons.mp hc with rfl | hc
      · exact ⟨_, List.mem_cons_self, rfl⟩
      · have hbounds := (blocksFrom_tiles (pos + segment) segments).bounds hc
        have hlt' : c.start < pos + segment + (length - segment) := by omega
        obtain ⟨b, hb, heq⟩ := ih htail (by omega) (pos + segment) hc hlt'
        rw [if_pos (by omega)]
        exact ⟨b, List.mem_cons_of_mem _ hb, heq⟩

end Clipped

theorem segmentLoop_length (clip : Int → Nat → Nat) (segments : List Nat) (length : Int)
    (pos : Nat) : (segmentLoop clip segments length pos).length ≤ segments.length := by
  induction segments generalizing length pos with
  | nil => rfl
  | cons segment segments ih =>
      simp only [segmentLoop, List.length_cons]
      split_ifs
      · exact Nat.succ_le_succ (ih _ _)
      · simp

end Loop

section Group

/-- What the segments of a group say about an image that fits the buffer. -/
structure EcGroup.Segmented (g : EcGroup) : Prop where
  fits : g.obytes + g.ibytes ≤ ioMapSize
  total : g.ioSegment.sum = g.obytes + g.ibytes
  inputs : g.inputSegments.sum = g.ibytes
  segments_le : g.ioSegment.length ≤ 6
  inputSegments_le : g.inputSegments.length ≤ 6
  starts : ∀ p, g.obytes < p →
    ((∃ b ∈ blocksFrom g.obytes g.inputSegments, b.start = p) ↔
      ∃ b ∈ blocksFrom 0 g.ioSegment, b.start = p)

theorem Mapping.LaysOut.segmented {m : Mapping} {bus : List SlaveInfo} (h : m.LaysOut bus)
    (hfits : imageBytes bus ≤ ioMapSize) : m.group.Segmented := by
  obtain ⟨lo, li, hlo, hli, ⟨first, rest, heq⟩, hseg, hisegment, hioffset⟩ := h.segments
  have hle := outBytes_le_imageBytes bus
  have himage := h.image
  have hobytes := h.obytes
  unfold ioMapSize at hfits
  have hcountO := hlo.count_le
  have hcountI := hli.count_le
  have hsumO := hlo.sum_eq (by unfold ecMaxIoSegments; omega)
  have hsumI := hli.sum_eq (by unfold ecMaxIoSegments; omega)
  have hseg' : m.group.ioSegment = lo.closed ++ (lo.size + first) :: rest := hseg.trans heq
  have htotal : m.group.ioSegment.sum = imageBytes bus := by
    rw [hseg]
    simpa using hsumI
  have hinput : m.group.inputSegments = first :: rest := by
    have hmod : lo.size % 2 ^ 16 = lo.size := Nat.mod_eq_of_lt (by omega)
    have hdrop : m.group.ioSegment.drop m.group.isegment = (lo.size + first) :: rest := by
      rw [hseg', hisegment, List.drop_left]
    rw [EcGroup.inputSegments, hdrop]
    dsimp only
    rw [hioffset, hmod, Nat.add_sub_cancel_left]
  have hlength : m.group.ioSegment.length ≤ 6 := by
    rw [hseg, List.length_append, List.length_singleton]
    omega
  have hsplit : lo.closed.sum + (lo.size + first + rest.sum) = imageBytes bus := by
    rw [← htotal, hseg', List.sum_append, List.sum_cons]
  refine ⟨by unfold ioMapSize; omega, by omega, ?_, hlength, ?_, fun p hp => ?_⟩
  · rw [hinput, List.sum_cons]
    omega
  · rw [hseg', List.length_append, List.length_cons] at hlength
    rw [hinput, List.length_cons]
    omega
  · have hend : m.group.obytes + first = 0 + lo.closed.sum + (lo.size + first) := by omega
    rw [hinput, hseg', blocksFrom_append]
    simp only [blocksFrom, List.mem_append, List.mem_cons, hend]
    constructor
    · rintro ⟨b, rfl | hb, rfl⟩
      · exact absurd hp (lt_irrefl _)
      · exact ⟨b, Or.inr (Or.inr hb), rfl⟩
    · rintro ⟨b, hb | rfl | hb, rfl⟩
      · have := (blocksFrom_tiles 0 lo.closed).bounds hb
        omega
      · dsimp only at hp
        omega
      · exact ⟨b, Or.inr hb, rfl⟩

/-- A datagram carries process data of a direction. -/
def Datagram.serves (d : Datagram) : Direction → Bool
  | .output => decide (d.cmd ≠ .lrd)
  | .input => decide (d.cmd ≠ .lwr)

/-- The blocks of the datagrams that carry process data of a direction. -/
def servingBlocks (dir : Direction) (ds : List Datagram) : List Block :=
  (ds.filter fun d => d.serves dir).map Datagram.block

/-- The part of the image that belongs to a direction. -/
def EcGroup.part (g : EcGroup) : Direction → Nat × Nat
  | .output => (0, g.obytes)
  | .input => (g.obytes, g.obytes + g.ibytes)

theorem servingBlocks_addDc (dir : Direction) (hasdc : Bool) (ds : List Datagram) :
    servingBlocks dir (addDc hasdc ds) = servingBlocks dir ds := by
  cases ds with
  | nil => rfl
  | cons d ds =>
      have hserves : ({ d with dc := hasdc } : Datagram).serves dir = d.serves dir := by
        cases dir <;> rfl
      simp only [servingBlocks, addDc, List.filter_cons, hserves]
      split_ifs <;> rfl

theorem servingBlocks_append (dir : Direction) (ds ds' : List Datagram) :
    servingBlocks dir (ds ++ ds') = servingBlocks dir ds ++ servingBlocks dir ds' := by
  simp [servingBlocks]

theorem servingBlocks_map (dir : Direction) (f : Block → Datagram) (bs : List Block)
    (hblock : ∀ b, (f b).block = b) (serving : Bool) (hserves : ∀ b, (f b).serves dir = serving) :
    servingBlocks dir (bs.map f) = if serving then bs else [] := by
  induction bs with
  | nil => simp [servingBlocks]
  | cons b bs ih =>
      unfold servingBlocks at ih ⊢
      rw [List.map_cons, List.filter_cons, hserves b]
      cases serving with
      | true => simpa [hblock b] using ih
      | false => simpa using ih

/-- The blocks of one segment loop follow one another and start where segments do. -/
theorem segmentLoop_serves (segments : List Nat) (length pos : Nat)
    (hsum : length ≤ segments.sum) (hsmall : segments.sum < 2 ^ 16) :
    Tiles pos (segmentLoop clippedSegment segments length pos) (pos + length) ∧
      ∀ p, p < pos + length →
        ((∃ b ∈ segmentLoop clippedSegment segments length pos, b.start = p) ↔
          ∃ b ∈ blocksFrom pos segments, b.start = p) := by
  have hs : ∀ s ∈ segments, s < 2 ^ 16 := fun s hmem =>
    lt_of_le_of_lt (List.le_sum_of_mem hmem) hsmall
  have hl : length < 2 ^ 16 := lt_of_le_of_lt hsum hsmall
  refine ⟨segmentLoop_tiles hs hl hsum pos, fun p hp => ⟨?_, ?_⟩⟩
  · rintro ⟨b, hb, rfl⟩
    exact segmentLoop_start hs hl pos hb
  · rintro ⟨c, hc, rfl⟩
    exact exists_segmentLoop_start hs hl pos hc hp

/-- All blocks of the logical reads and writes serve both directions. -/
theorem EcGroup.Segmented.lrw_serving {g : EcGroup} (h : g.Segmented) (m : Image)
    (dir : Direction) :
    servingBlocks dir (lrwDatagrams g m) =
      segmentLoop clippedSegment g.ioSegment (g.obytes + g.ibytes : Nat) 0 := by
  have hfits := h.fits
  have htotal := h.total
  unfold ioMapSize at hfits
  have hserves : ∀ b : Block, Datagram.serves ⟨.lrw, b, m.read b.start b.len, false⟩ dir =
      true := by
    intro b
    cases dir <;> rfl
  rw [lrwDatagrams, servingBlocks_map dir _ _ (fun _ => rfl) true hserves, if_pos rfl, ← htotal]
  exact segmentLoop_whole _ _ (by omega)

/-- Beside logical writes, only the blocks of the logical reads serve the inputs. -/
theorem EcGroup.Segmented.lrd_serving {g : EcGroup} (h : g.Segmented) (m : Image)
    (hi : g.ibytes ≠ 0) :
    servingBlocks .input ((if g.ibytes ≠ 0 then lrdDatagrams g else []) ++
        if g.obytes ≠ 0 then lwrDatagrams g m else []) =
      segmentLoop clippedSegment g.inputSegments g.ibytes g.obytes := by
  have hfits := h.fits
  have hinputs := h.inputs
  unfold ioMapSize at hfits
  have hlwr : servingBlocks .input (if g.obytes ≠ 0 then lwrDatagrams g m else []) = [] := by
    split_ifs
    · exact servingBlocks_map .input _ _ (fun _ => rfl) false fun _ => rfl
    · rfl
  rw [servingBlocks_append, hlwr, List.append_nil, if_pos hi, lrdDatagrams,
    servingBlocks_map .input _ _ (fun _ => rfl) true (fun _ => rfl), if_pos rfl, ← hinputs]
  exact segmentLoop_whole _ _ (by omega)

/-- Beside logical reads, only the blocks of the logical writes serve the outputs. -/
theorem lwr_serving (g : EcGroup) (m : Image) (ho : g.obytes ≠ 0) :
    servingBlocks .output ((if g.ibytes ≠ 0 then lrdDatagrams g else []) ++
        if g.obytes ≠ 0 then lwrDatagrams g m else []) =
      segmentLoop clippedSegment g.ioSegment g.obytes 0 := by
  have hlrd : servingBlocks .output (if g.ibytes ≠ 0 then lrdDatagrams g else []) = [] := by
    split_ifs
    · exact servingBlocks_map .output _ _ (fun _ => rfl) false fun _ => rfl
    · rfl
  rw [servingBlocks_append, hlrd, List.nil_append, if_pos ho]
  exact servingBlocks_map .output _ _ (fun _ => rfl) true fun _ => rfl

/-- The serving blocks of a direction follow one another over its part of the image,
and inside the part they start where the segments do. -/
theorem EcGroup.Segmented.serves {g : EcGroup} (h : g.Segmented) (m : Image) (dir : Direction)
    (hne : (g.part dir).1 < (g.part dir).2) :
    ∃ lo hi, Tiles lo (servingBlocks dir (ecSendProcessdata g m)) hi ∧
      lo ≤ (g.part dir).1 ∧ (g.part dir).2 ≤ hi ∧ hi ≤ g.obytes + g.ibytes ∧
      ∀ p, (g.part dir).1 < p → p < (g.part dir).2 →
        ((∃ b ∈ servingBlocks dir (ecSendProcessdata g m), b.start = p) ↔
          ∃ b ∈ blocksFrom 0 g.ioSegment, b.start = p) := by
  have hfits := h.fits
  have htotal := h.total
  have hinputs := h.inputs
  unfold ioMapSize at hfits
  have hpos : g.obytes + g.ibytes ≠ 0 := by
    cases dir <;> dsimp only [EcGroup.part] at hne <;> omega
  rw [ecSendProcessdata, servingBlocks_addDc, processDatagrams, if_neg hpos]
  by_cases hblock : g.blockLRW = 0
  · rw [if_neg (not_not.mpr hblock), h.lrw_serving m dir]
    obtain ⟨htiles, hstarts⟩ := segmentLoop_serves g.ioSegment (g.obytes + g.ibytes) 0
      (by omega) (by omega)
    refine ⟨0, 0 + (g.obytes + g.ibytes), htiles, Nat.zero_le _, ?_, by omega, fun p _ hp => ?_⟩
    · cases dir <;> dsimp only [EcGroup.part] <;> omega
    · apply hstarts
      cases dir <;> dsimp only [EcGroup.part] at hp <;> omega
  · rw [if_pos hblock]
    cases dir with
    | output =>
        dsimp only [EcGroup.part] at hne ⊢
        rw [lwr_serving g m (by omega)]
        obtain ⟨htiles, hstarts⟩ := segmentLoop_serves g.ioSegment g.obytes 0 (by omega)
          (by omega)
        exact ⟨0, 0 + g.obytes, htiles, le_refl _, by omega, by omega,
          fun p _ hp => hstarts p (by omega)⟩
    | input =>
        dsimp only [EcGroup.part] at hne ⊢
        rw [h.lrd_serving m (by omega)]
        obtain ⟨htiles, hstarts⟩ := segmentLoop_serves g.inputSegments g.ibytes g.obytes
          (by omega) (by omega)
        refine ⟨g.obytes, g.obytes + g.ibytes, htiles, le_refl _, le_refl _, le_refl _,
          fun p hp hp' => ?_⟩
        exact (hstarts p hp').trans (h.starts p hp)

/-- An exchange needs fewer frames than the index stack holds. -/
theorem EcGroup.Segmented.send_length {g : EcGroup} (h : g.Segmented) (m : Image) :
    (ecSendProcessdata g m).length ≤ ecMaxBuf := by
  have hdc : ∀ ds : List Datagram, (addDc g.hasdc ds).length = ds.length := by
    intro ds
    cases ds <;> rfl
  have h₁ := h.segments_le
  have h₂ := h.inputSegments_le
  have hlrd : (lrdDatagrams g).length ≤ 6 := by
    rw [lrdDatagrams, List.length_map]
    exact (segmentLoop_length _ _ _ _).trans h₂
  have hlwr : (lwrDatagrams g m).length ≤ 6 := by
    rw [lwrDatagrams, List.length_map]
    exact (segmentLoop_length _ _ _ _).trans h₁
  have hlrw : (lrwDatagrams g m).length ≤ 6 := by
    rw [lrwDatagrams, List.length_map]
    exact (segmentLoop_length _ _ _ _).trans h₁
  have hsplit : ((if g.ibytes ≠ 0 then lrdDatagrams g else []) ++
      (if g.obytes ≠ 0 then lwrDatagrams g m else [])).length ≤ 12 := by
    have hnil : ([] : List Datagram).length = 0 := rfl
    rw [List.length_append]
    split_ifs <;> omega
  unfold ecSendProcessdata processDatagrams ecMaxBuf
  rw [hdc]
  by_cases hpos : g.obytes + g.ibytes = 0
  · rw [if_pos hpos]
    exact Nat.zero_le _
  · rw [if_neg hpos]
    by_cases hblock : g.blockLRW = 0
    · rw [if_neg (not_not.mpr hblock)]
      omega
    · rw [if_pos hblock]
      omega

theorem mem_addDc {hasdc : Bool} {ds : List Datagram} {d : Datagram} (h : d ∈ addDc hasdc ds) :
    ∃ d' ∈ ds, d'.cmd = d.cmd ∧ d'.block = d.block ∧ d'.data = d.data := by
  cases ds with
  | nil => simp [addDc] at h
  | cons e ds =>
      rcases List.mem_cons.mp h with rfl | h
      · exact ⟨e, by simp, rfl, rfl, rfl⟩
      · exact ⟨d, List.mem_cons_of_mem e h, rfl, rfl, rfl⟩

/-- A process-data datagram is one of the three kinds, and serves data that exist. -/
theorem mem_processDatagrams {g : EcGroup} {m : Image} {d : Datagram}
    (h : d ∈ processDatagrams g m) :
    g.obytes + g.ibytes ≠ 0 ∧
      (d ∈ lrdDatagrams g ∧ g.ibytes ≠ 0 ∨ d ∈ lwrDatagrams g m ∧ g.obytes ≠ 0 ∨
        d ∈ lrwDatagrams g m) := by
  have hif : ∀ {c : Prop} [Decidable c] {ds : List Datagram},
      d ∈ (if c then ds else []) → d ∈ ds ∧ c := by
    intro c _ ds hd
    split_ifs at hd with hc
    · exact ⟨hd, hc⟩
    · cases hd
  unfold processDatagrams at h
  by_cases hpos : g.obytes + g.ibytes = 0
  · rw [if_pos hpos] at h
    cases h
  · rw [if_neg hpos] at h
    refine ⟨hpos, ?_⟩
    by_cases hblock : g.blockLRW = 0
    · rw [if_neg (not_not.mpr hblock)] at h
      exact Or.inr (Or.inr h)
    · rw [if_pos hblock] at h
      rcases List.mem_append.mp h with h | h
      · exact Or.inl (hif h)
      · exact Or.inr (Or.inl (hif h))

/-- A datagram that carries outputs carries the bytes of the image. -/
theorem mem_send_data {g : EcGroup} {m : Image} {d : Datagram} (h : d ∈ ecSendProcessdata g m)
    (hserves : d.serves .output = true) : d.data = m.read d.block.start d.block.len := by
  obtain ⟨d', hd', hcmd, hblock, hdata⟩ := mem_addDc h
  rw [← hdata, ← hblock]
  rcases (mem_processDatagrams hd').2 with ⟨hd', _⟩ | ⟨hd', _⟩ | hd'
  · obtain ⟨b, _, rfl⟩ := List.mem_map.mp hd'
    simp [Datagram.serves, ← hcmd] at hserves
  · obtain ⟨b, _, rfl⟩ := List.mem_map.mp hd'
    rfl
  · obtain ⟨b, _, rfl⟩ := List.mem_map.mp hd'
    rfl

/-- Only the first datagram has a DC datagram behind it. -/
theorem send_tail_dc {g : EcGroup} {m : Image} {d : Datagram}
    (h : d ∈ (ecSendProcessdata g m).tail) : d.dc = false := by
  have htail : ∀ ds : List Datagram, (addDc g.hasdc ds).tail = ds.tail := by
    intro ds
    cases ds <;> rfl
  have hmap : ∀ (f : Block → Datagram) (bs : List Block), (∀ b, (f b).dc = false) →
      ∀ d ∈ bs.map f, d.dc = false := by
    intro f bs hf d hd
    obtain ⟨b, _, rfl⟩ := List.mem_map.mp hd
    exact hf b
  unfold ecSendProcessdata at h
  rw [htail] at h
  rcases (mem_processDatagrams (List.mem_of_mem_tail h)).2 with ⟨h, _⟩ | ⟨h, _⟩ | h
  · exact hmap _ _ (fun _ => rfl) d h
  · exact hmap _ _ (fun _ => rfl) d h
  · exact hmap _ _ (fun _ => rfl) d h

/-- Every datagram serves a direction that has process data. -/
theorem exists_serves {g : EcGroup} {m : Image} {d : Datagram} (h : d ∈ ecSendProcessdata g m) :
    ∃ dir, d.serves dir = true ∧ (g.part dir).1 < (g.part dir).2 := by
  obtain ⟨d', hd', hcmd, _, _⟩ := mem_addDc h
  have hserves : ∀ dir, d.serves dir = d'.serves dir := by
    intro dir
    cases dir <;> simp [Datagram.serves, hcmd]
  simp only [hserves]
  obtain ⟨hpos, ⟨hd', hi⟩ | ⟨hd', ho⟩ | hd'⟩ := mem_processDatagrams hd'
  · obtain ⟨b, _, rfl⟩ := List.mem_map.mp hd'
    exact ⟨.input, rfl, by simp only [EcGroup.part]; omega⟩
  · obtain ⟨b, _, rfl⟩ := List.mem_map.mp hd'
    exact ⟨.output, rfl, by simp only [EcGroup.part]; omega⟩
  · obtain ⟨b, _, rfl⟩ := List.mem_map.mp hd'
    by_cases ho : g.obytes = 0
    · exact ⟨.input, rfl, by simp only [EcGroup.part]; omega⟩
    · exact ⟨.output, rfl, by simp only [EcGroup.part]; omega⟩

/-- Each byte of a direction's part is in a datagram that serves the direction. -/
theorem EcGroup.Segmented.exists_datagram {g : EcGroup} (h : g.Segmented) (m : Image)
    (dir : Direction) {a : Nat} (hlo : (g.part dir).1 ≤ a) (hhi : a < (g.part dir).2) :
    ∃ d ∈ ecSendProcessdata g m, d.serves dir = true ∧ d.block.Contains a := by
  obtain ⟨lo, hi, htiles, h₁, h₂, _⟩ := h.serves m dir (by omega)
  obtain ⟨b, hb, ha⟩ := (htiles.exists_contains_iff a).mpr ⟨by omega, by omega⟩
  obtain ⟨d, hd, rfl⟩ := List.mem_map.mp hb
  obtain ⟨hd, hserves⟩ := List.mem_filter.mp hd
  exact ⟨d, hd, hserves, ha⟩

theorem le_segmentLoop_start (clip : Int → Nat → Nat) (segments : List Nat) (length : Int)
    (pos : Nat) : ∀ b ∈ segmentLoop clip segments length pos, pos ≤ b.start := by
  induction segments generalizing length pos with
  | nil => simp [segmentLoop]
  | cons segment segments ih =>
      intro b hb
      rcases List.mem_cons.mp hb with rfl | hb
      · exact le_refl _
      · split_ifs at hb
        · exact (Nat.le_add_right _ _).trans (ih _ _ b hb)
        · cases hb

/-- An LRD datagram stays behind the outputs, and carries zeros. -/
theorem mem_send_lrd {g : EcGroup} {m : Image} {d : Datagram} (h : d ∈ ecSendProcessdata g m)
    (hcmd : d.cmd = .lrd) : g.obytes ≤ d.block.start ∧ d.data = List.replicate d.block.len 0 := by
  obtain ⟨d', hd', hcmd', hblock, hdata⟩ := mem_addDc h
  rw [← hdata, ← hblock]
  rw [← hcmd'] at hcmd
  rcases (mem_processDatagrams hd').2 with ⟨hd', _⟩ | ⟨hd', _⟩ | hd'
  · obtain ⟨b, hb, rfl⟩ := List.mem_map.mp hd'
    exact ⟨le_segmentLoop_start _ _ _ _ b hb, rfl⟩
  · obtain ⟨b, _, rfl⟩ := List.mem_map.mp hd'
    cases hcmd
  · obtain ⟨b, _, rfl⟩ := List.mem_map.mp hd'
    cases hcmd

/-- No datagram reaches behind the image. -/
theorem EcGroup.Segmented.datagram_le {g : EcGroup} (h : g.Segmented) {m : Image} {d : Datagram}
    (hd : d ∈ ecSendProcessdata g m) :
    d.block.start + d.block.len ≤ g.obytes + g.ibytes := by
  obtain ⟨dir, hserves, hne⟩ := exists_serves hd
  obtain ⟨lo, hi, htiles, _, _, hhi, _⟩ := h.serves m dir hne
  have hmem : d.block ∈ servingBlocks dir (ecSendProcessdata g m) :=
    List.mem_map_of_mem (List.mem_filter.mpr ⟨hd, hserves⟩)
  exact (htiles.bounds hmem).2.trans hhi

end Group

end RaipalSoem

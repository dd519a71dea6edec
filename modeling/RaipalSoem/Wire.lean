import RaipalSoem.Frame

/-!
# Frames that pass the slaves

A frame runs through all slaves, and each one edits the datagrams in passing: data, work
counter, and the position field of a broadcast. `ecx_BRD` and its siblings send one datagram,
`ecx_FPRD_multi` reads the AL status of several slaves with one frame.
-/

namespace RaipalSoem

open Lib

/-- What a slave makes of a datagram in passing: its position field, data and work counter.
The data keeps its length. -/
structure BusUnit where
  answer : Subframe → UInt16 × List UInt8 × UInt16
  length_answer : ∀ d, (answer d).2.1.length = d.data.length

/-- The datagram behind a slave. -/
def BusUnit.serve (u : BusUnit) (d : Subframe) : Subframe :=
  { d with ADP := (u.answer d).1, data := (u.answer d).2.1, wkc := (u.answer d).2.2 }

/-- The edit of the datagram whose header begins at `off`. -/
def BusUnit.edit (u : BusUnit) (m : Memory UInt8) (off : Nat) : Memory UInt8 :=
  let d := u.serve (readSubframe m off)
  let m := m.write (off + 2) (leBytes 2 d.ADP.toBitVec)
  let m := m.write (off + 10) d.data
  m.write (off + 10 + d.data.length) (leBytes 2 d.wkc.toBitVec)

/-- A frame that has passed a slave. -/
def passUnit (u : BusUnit) (m : Memory UInt8) : Memory UInt8 :=
  frameFormat.sweep u.edit (wordAt m ethHeaderSize &&& 0x07ff).toNat (ethHeaderSize + 2) m

/-- A frame that has passed all slaves. -/
def passRing (ring : List BusUnit) (m : Memory UInt8) : Memory UInt8 :=
  ring.foldl (fun m u => passUnit u m) m

/-- A datagram behind all slaves. -/
def serveAll (ring : List BusUnit) (d : Subframe) : Subframe :=
  ring.foldl (fun d u => u.serve d) d

/-- What a task has for a frame: the index, the buffers behind it, and what the wire brings
back for a frame, if anything. -/
structure FrameExchange where
  idx : UInt8
  txbuf : Memory UInt8
  rxbuf : Memory UInt8
  wire : Memory UInt8 → Option (Memory UInt8)

/-- `ecx_srconfirm` as the task sees it: the work counter of the frame that has come back, and
the receive buffer with this frame less its ethernet header. -/
def FrameExchange.srconfirm (x : FrameExchange) (tx : TxFrame) : Int × Memory UInt8 :=
  match x.wire tx.frame with
  | none => (ecNoFrame, x.rxbuf)
  | some reply =>
      let rxbuf := x.rxbuf.write 0 (reply.read ethHeaderSize (tx.txbuflength - ethHeaderSize))
      (rxWkc rxbuf (comLength reply), rxbuf)

/-- `ecx_BRD` and the other reads of one datagram: the work counter, and the data buffer. -/
def FrameExchange.blockingRead (e : Endian) (x : FrameExchange) (r : Request) : Int × Memory UInt8 :=
  let (wkc, rxbuf) := x.srconfirm (ecxSetupdatagram e x.txbuf x.idx r)
  (wkc, if 0 < wkc then r.data.write 0 (rxbuf.read ecHeaderSize r.length.toNat) else r.data)

/-- `ecx_BRD`. -/
def ecxBroadcastRead (e : Endian) (x : FrameExchange) (ADP ADO length : UInt16) (data : Memory UInt8) :
    Int × Memory UInt8 :=
  x.blockingRead e { com := ecCmdBrd, ADP, ADO, length, data }

/-- `ECT_REG_ALSTAT`. -/
def ectRegAlstat : UInt16 := 0x0130

/-- `sizeof(ec_alstatust)`. -/
def alStatusSize : Nat := 6

/-- The datagram of `ecx_FPRD_multi` for entry `j` of its lists. -/
def alRequest (configlst : Nat → UInt16) (slstatlst : Memory UInt8) (j : Nat) : Request where
  com := ecCmdFprd
  ADP := configlst j
  ADO := ectRegAlstat
  length := .ofNat alStatusSize
  data := fun a => slstatlst (alStatusSize * j + a)

/-- `ecx_FPRD_multi`: the work counter, and the list of AL status records. -/
def ecxFprdMulti (e : Endian) (x : FrameExchange) (n : Nat) (configlst : Nat → UInt16)
    (slstatlst : Memory UInt8) : Int × Memory UInt8 :=
  let request := alRequest configlst slstatlst
  let more := (List.range' 1 (n - 2)).map fun slcnt => (true, request slcnt)
  let last := if 1 < n then [(false, request (n - 1))] else []
  let built := buildFrame e x.txbuf x.idx (request 0) (more ++ last)
  let sldatapos := UInt16.ofNat ecHeaderSize :: built.2
  let (wkc, rxbuf) := x.srconfirm built.1
  (wkc, if 0 ≤ wkc then
    (List.range n).foldl (fun m slcnt => m.write (alStatusSize * slcnt)
      (rxbuf.read (sldatapos.getD slcnt 0).toNat alStatusSize)) slstatlst
  else slstatlst)

section Edit

variable (u : BusUnit) (m : Memory UInt8) (off : Nat)

theorem BusUnit.length_serve (d : Subframe) : (u.serve d).data.length = d.data.length :=
  u.length_answer d

theorem BusUnit.edit_outside {a : Nat}
    (h : a ∉ span off (12 + (readSubframe m off).data.length)) : u.edit m off a = m a := by
  have hlength := u.length_serve (readSubframe m off)
  rw [mem_span] at h
  simp only [edit, hlength]
  rw [Memory.write_apart _ (by rw [leBytes_length]; omega), Memory.write_apart _ (by omega),
    Memory.write_apart _ (by rw [leBytes_length]; omega)]

/-- The edited fields hold what the slave answers, and the others are as before. -/
theorem BusUnit.readSubframe_edit :
    readSubframe (u.edit m off) off = u.serve (readSubframe m off) := by
  have hlength := u.length_serve (readSubframe m off)
  have hcount : (readSubframe m off).data.length = (wordAt m (off + 6) &&& 0x07ff).toNat := by
    simp [readSubframe]
  have hkept : wordAt (u.edit m off) (off + 6) = wordAt m (off + 6) := by
    simp only [edit]
    rw [wordAt_write _ (by omega), wordAt_write _ (by omega),
      wordAt_write _ (by rw [leBytes_length]; omega)]
  apply readSubframe_eq
  · simp only [edit]
    rw [Memory.write_apart _ (by omega), Memory.write_apart _ (by omega),
      Memory.write_apart _ (by omega)]
    rfl
  · simp only [edit]
    rw [Memory.write_apart _ (by omega), Memory.write_apart _ (by omega),
      Memory.write_apart _ (by omega)]
    rfl
  · simp only [edit]
    rw [wordAt_write _ (by omega), wordAt_write _ (by omega), ← putWord_eq .little]
    exact wordAt_putWord .little m (off + 2) _
  · simp only [edit]
    rw [wordAt_write _ (by omega), wordAt_write _ (by omega),
      wordAt_write _ (by rw [leBytes_length]; omega)]
    rfl
  · rw [hkept, hlength, hcount]
  · rw [hkept]
    rfl
  · simp only [edit]
    rw [Memory.read_write_apart _ (Or.inl (le_refl _))]
    exact Memory.read_write _ (off + 10) _
  · simp only [edit]
    rw [← putWord_eq .little]
    exact wordAt_putWord .little _ _ _

end Edit

/-- A slave edits the datagram at its place and nothing else. -/
theorem BusUnit.edits (u : BusUnit) : frameFormat.Edits u.edit u.serve where
  parse := u.readSubframe_edit
  outside m off _ h := u.edit_outside m off h
  size d := by rw [frameFormat_size, frameFormat_size, u.length_serve]
  more _ := rfl

/-- Each datagram of a well-formed frame passes the slave, and the frame stays well formed. -/
theorem Carries.passUnit {m : Memory UInt8} {ds : List Subframe} (h : Carries m ds)
    (hclosed : frameFormat.Closed ds) (u : BusUnit) :
    Carries (passUnit u m) (ds.map u.serve) := by
  have hlength := ChainFormat.length_le_total (F := frameFormat) ds
  have htotal := u.edits.total ds
  have hkept : wordAt (RaipalSoem.passUnit u m) 14 = wordAt m 14 := by
    apply wordAt_congr
    intro a ha
    rw [mem_span] at ha
    exact u.edits.sweep_before _ m (show a < 16 by omega)
  refine ⟨?_, ?_, ?_⟩
  · unfold RaipalSoem.passUnit
    rw [show wordAt m ethHeaderSize = _ from h.elength, elength_count h.short]
    cases ds with
    | nil => exact hclosed.elim
    | cons d ds => exact u.edits.sweep_laid h.laid hclosed hlength
  · rw [hkept, h.elength, htotal]
  · rw [htotal]
    exact h.short

theorem Carries.passRing {m : Memory UInt8} {ds : List Subframe} (h : Carries m ds)
    (hclosed : frameFormat.Closed ds) (ring : List BusUnit) :
    Carries (passRing ring m) (ds.map (serveAll ring)) := by
  induction ring generalizing m ds with
  | nil =>
      change Carries m (ds.map id)
      rwa [List.map_id]
  | cons u ring ih =>
      have hrest := ih (h.passUnit hclosed u) (u.edits.closed hclosed)
      have hmap : ds.map (serveAll (u :: ring)) = (ds.map u.serve).map (serveAll ring) := by
        rw [List.map_map]
        rfl
      rw [hmap]
      exact hrest

theorem length_serveAll (ring : List BusUnit) (d : Subframe) :
    (serveAll ring d).data.length = d.data.length := by
  induction ring generalizing d with
  | nil => rfl
  | cons u ring ih => exact (ih (u.serve d)).trans (u.length_serve d)

theorem follows_serveAll (ring : List BusUnit) (d : Subframe) :
    (serveAll ring d).follows = d.follows := by
  induction ring generalizing d with
  | nil => rfl
  | cons u ring ih => exact ih (u.serve d)

theorem index_serveAll (ring : List BusUnit) (d : Subframe) :
    (serveAll ring d).index = d.index := by
  induction ring generalizing d with
  | nil => rfl
  | cons u ring ih => exact ih (u.serve d)

/-- The slaves leave what lies in front of the datagrams alone. -/
theorem passRing_header (ring : List BusUnit) (m : Memory UInt8) {a : Nat} (ha : a < 16) :
    passRing ring m a = m a := by
  induction ring generalizing m with
  | nil => rfl
  | cons u ring ih => exact (ih (passUnit u m)).trans (u.edits.sweep_before _ m ha)

theorem total_serveAll (ring : List BusUnit) (ds : List Subframe) :
    frameFormat.total (ds.map (serveAll ring)) = frameFormat.total ds := by
  induction ds with
  | nil => rfl
  | cons d ds ih =>
      rw [List.map_cons, ChainFormat.total_cons, ChainFormat.total_cons, ih, frameFormat_size,
        frameFormat_size, length_serveAll]

theorem wordAt_toNat (m : Memory UInt8) (off : Nat) :
    (wordAt m off).toNat = (m off).toNat + 256 * (m (off + 1)).toNat := by
  have h₀ := (m off).toNat_lt
  have h₁ := (m (off + 1)).toNat_lt
  change ((m off).toNat + 256 * ((m (off + 1)).toNat + 256 * 0)) % 2 ^ 16 = _
  omega

theorem wkc_of_readSubframe {m : Memory UInt8} {off : Nat} {d : Subframe}
    (h : readSubframe m off = d) : wordAt m (off + 10 + d.data.length) = d.wkc := by
  subst h
  simp [readSubframe]

/-- The work counter of the last datagram ends the frame. -/
theorem Carries.last_wkc {m : Memory UInt8} {ds : List Subframe} {d : Subframe}
    (h : Carries m (ds ++ [d])) : wordAt m (14 + frameFormat.total (ds ++ [d])) = d.wkc := by
  have hlast := wkc_of_readSubframe (ChainFormat.laid_append.mp h.laid).2.1
  rw [← hlast]
  congr 1
  simp only [ChainFormat.total_append, ChainFormat.total_cons, ChainFormat.total_nil,
    frameFormat_size]
  omega

theorem Carries.comLength_eq {m : Memory UInt8} {ds : List Subframe} (h : Carries m ds) :
    comLength m = frameFormat.total ds := by
  have hsum : (wordAt m 14).toNat = 4096 + frameFormat.total ds := by
    have hshort := h.short
    rw [h.elength, UInt16.toNat_add, UInt16.toNat_ofNat']
    simp [ecEcatType]
    omega
  unfold comLength ethHeaderSize
  rw [← wordAt_toNat, hsum]
  refine (Nat.and_two_pow_sub_one_eq_mod _ 12).trans ?_
  have hshort := h.short
  omega

/-- The frame less its ethernet header is in the receive buffer. -/
theorem read_stripped (rxbuf reply : Memory UInt8) {n off len : Nat} (h : off + len ≤ n) :
    (rxbuf.write 0 (reply.read 14 n)).read off len = reply.read (14 + off) len := by
  apply List.map_congr_left
  intro i hi
  have hi' := List.mem_range.mp hi
  have hmem := Memory.write_of_mem rxbuf 0 (off + i) (reply.read 14 n) (by simp; omega)
  rw [Nat.zero_add] at hmem
  rw [hmem]
  simp [Memory.read, Nat.add_assoc]

/-- A frame that has passed the slaves brings back what they have made of each datagram, and
the work counter of the last one. -/
theorem FrameExchange.srconfirm_served (x : FrameExchange) {tx : TxFrame} {ds : List Subframe}
    {d : Subframe} {ring : List BusUnit} (hbuilt : Built tx ds)
    (hshort : frameFormat.total ds < 2048) (hclosed : frameFormat.Closed ds)
    (hlast : ds.getLast? = some d) (hwire : x.wire tx.frame = some (passRing ring tx.frame)) :
    (x.srconfirm tx).1 = (serveAll ring d).wkc.toNat ∧
    ∀ i (hi : i < ds.length),
      (x.srconfirm tx).2.read (frameFormat.total (ds.take i) + 12) ds[i].data.length =
        (serveAll ring ds[i]).data := by
  obtain ⟨ds, rfl⟩ := List.getLast?_eq_some_iff.mp hlast
  have hreply := (hbuilt.carries hshort).passRing hclosed ring
  have htotal := total_serveAll ring (ds ++ [d])
  have hlen : tx.txbuflength - 14 = frameFormat.total (ds ++ [d]) + 2 := by
    rw [hbuilt.txbuflength]
    omega
  simp only [srconfirm, hwire, ethHeaderSize, hlen]
  generalize RaipalSoem.passRing ring tx.frame = reply at hreply
  have hwords : ∀ off ≤ frameFormat.total (ds ++ [d]),
      wordAt (x.rxbuf.write 0 (reply.read 14 (frameFormat.total (ds ++ [d]) + 2))) off =
        wordAt reply (14 + off) := by
    intro off hoff
    rw [wordAt, read_stripped _ _ (by omega), wordAt]
  constructor
  · have hlast : wordAt reply (14 + frameFormat.total (ds ++ [d])) = (serveAll ring d).wkc := by
      have hcarries := hreply
      rw [List.map_append, List.map_singleton] at hcarries
      have hwkc := hcarries.last_wkc
      rwa [← List.map_singleton, ← List.map_append, htotal] at hwkc
    rw [hreply.comLength_eq, htotal, ← hlast, ← hwords _ (le_refl _), wordAt_toNat, rxWkc]
    simp [Nat.shiftLeft_eq]
    omega
  · intro i hi
    have hplace := hreply.laid.parse_eq (i := i) (by simpa using hi)
    have htake := frameFormat.total_take_le (ds ++ [d]) i
    have hnext := frameFormat.total_take_le (ds ++ [d]) (i + 1)
    rw [List.take_succ_eq_append_getElem hi, ChainFormat.total_append, ChainFormat.total_cons,
      frameFormat_size] at hnext
    have hdata := read_of_readSubframe hplace
    rw [← List.map_take, total_serveAll] at hdata
    simp only [List.getElem_map, length_serveAll] at hdata
    rw [read_stripped _ _ (by omega), ← hdata]
    congr 1
    omega

/-- The datagrams that the calls put into a frame pass the slaves and come back: the first one
behind the EtherCAT header, each further one at the offset that its call has returned. The
work counter is that of the last one. -/
theorem buildFrame_answered (e : Endian) (x : FrameExchange) (r : Request)
    (rs : List (Bool × Request)) (ring : List BusUnit)
    (hfits : 16 + frameFormat.total (requested x.idx r rs) ≤ ecMaxEcatFrame)
    (hmore : ∀ j (hj : j < rs.length), rs[j].1 = decide (j + 1 < rs.length))
    (hwire : ∀ m, x.wire m = some (passRing ring m)) :
    let ds := requested x.idx r rs
    let built := buildFrame e x.txbuf x.idx r rs
    let got := x.srconfirm built.1
    decodeFrame (passRing ring built.1.frame) = some (ds.map (serveAll ring)) ∧
    some got.1 = ds.getLast?.map (fun d => ((serveAll ring d).wkc.toNat : Int)) ∧
    got.2.read ecHeaderSize r.length.toNat =
      (serveAll ring (r.subframe x.idx (!rs.isEmpty))).data ∧
    ∀ j (hj : j < rs.length), ∃ off, built.2[j]? = some off ∧
      got.2.read off.toNat rs[j].2.length.toNat =
        (serveAll ring (rs[j].2.subframe x.idx rs[j].1)).data := by
  have hshort : frameFormat.total (requested x.idx r rs) < 2048 := by
    unfold ecMaxEcatFrame at hfits
    omega
  have hclosed := (requested_closed x.idx r rs).mpr hmore
  have hbuilt := buildFrame_built e x.txbuf x.idx r rs hshort
  have hoffsets := fun j hj => buildFrame_offsets e x.txbuf x.idx r rs hshort (j := j) hj
  have hlast := List.getLast?_eq_some_getLast (List.cons_ne_nil (r.subframe x.idx (!rs.isEmpty))
    (rs.map fun q => q.2.subframe x.idx q.1))
  obtain ⟨hwkc, hdata⟩ := x.srconfirm_served hbuilt hshort hclosed hlast (hwire _)
  have hreply := (hbuilt.carries hshort).passRing hclosed ring
  refine ⟨?_, ?_, ?_, fun j hj => ⟨_, hoffsets j hj, ?_⟩⟩
  · have hclosed' : frameFormat.Closed ((requested x.idx r rs).map (serveAll ring)) := by
      rw [ChainFormat.closed_iff] at hclosed ⊢
      refine ⟨by simpa using hclosed.1, fun j hj => ?_⟩
      simpa [follows_serveAll] using hclosed.2 j (by simpa using hj)
    exact hreply.decode_eq.trans (if_pos hclosed')
  · rw [hwkc]
    exact (congrArg (Option.map fun d => ((serveAll ring d).wkc.toNat : Int)) hlast).symm
  · have hfirst := hdata 0 (Nat.succ_pos _)
    rw [List.take_zero, ChainFormat.total_nil, Nat.zero_add] at hfirst
    simpa [requested, Request.length_data, ecHeaderSize] using hfirst
  · have hlen : j + 1 < (requested x.idx r rs).length := by simpa [requested] using hj
    have htake := frameFormat.total_take_le (requested x.idx r rs) (j + 1)
    have hentry := hdata (j + 1) hlen
    generalize frameFormat.total ((requested x.idx r rs).take (j + 1)) = n at htake hentry
    have hn : (UInt16.ofNat (n + 12)).toNat = n + 12 := Nat.mod_eq_of_lt (by omega)
    rw [hn]
    simpa [requested, Request.length_data] using hentry

/-- A unit that counts the datagrams that pass it, and leaves their data alone. -/
def counter : BusUnit where
  answer d := (d.ADP, d.data, d.wkc + 1)
  length_answer _ := rfl

/-- A write to a slave and two reads behind it, in a frame that passes two units. -/
theorem buildFrame_answered_three :
    let x : FrameExchange :=
      ⟨5, fun _ => 0xee, fun _ => 0, fun m => some (passRing [counter, counter] m)⟩
    let got := x.srconfirm (buildFrame .little x.txbuf x.idx threeRequests.1 threeRequests.2).1
    got.1 = 2 ∧ got.2.read ecHeaderSize 2 = [7, 8] := by
  intro x got
  obtain ⟨-, hwkc, hdata, -⟩ := buildFrame_answered .little x threeRequests.1 threeRequests.2
    [counter, counter] (by decide) (by decide) fun _ => rfl
  exact ⟨Option.some.inj (hwkc.trans (by decide)), hdata.trans (by decide)⟩

/-- A read of one datagram returns what the slaves make of it. -/
theorem FrameExchange.blockingRead_served (e : Endian) (x : FrameExchange) {r : Request}
    (hlength : r.length.toNat < 2036) (ring : List BusUnit)
    (hwire : ∀ m, x.wire m = some (passRing ring m)) :
    (x.blockingRead e r).1 = (serveAll ring (r.subframe x.idx false)).wkc.toNat ∧
    (0 < (x.blockingRead e r).1 →
      (x.blockingRead e r).2 = r.data.write 0 (serveAll ring (r.subframe x.idx false)).data) := by
  have hdata := Request.length_data x.idx false r
  have hbuilt := ecxSetupdatagram_built e x.txbuf x.idx (r := r) (by omega)
  have hshort : frameFormat.total [r.subframe x.idx false] < 2048 := by
    rw [ChainFormat.total_cons, ChainFormat.total_nil, frameFormat_size, hdata]
    omega
  have hclosed : frameFormat.Closed [r.subframe x.idx false] := rfl
  obtain ⟨hwkc, hread⟩ := x.srconfirm_served hbuilt hshort hclosed rfl (hwire _)
  refine ⟨hwkc, fun hpos => ?_⟩
  have hfirst := hread 0 (by simp)
  simp only [List.take_zero, ChainFormat.total_nil, Nat.zero_add, List.getElem_cons_zero,
    hdata] at hfirst
  have hcopied : (x.blockingRead e r).2 = r.data.write 0
      ((x.srconfirm (ecxSetupdatagram e x.txbuf x.idx r)).2.read 12 r.length.toNat) :=
    if_pos hpos
  rw [hcopied, hfirst]

section FprdMulti

variable (configlst : Nat → UInt16) (slstatlst : Memory UInt8)

/-- The calls of `ecx_adddatagram` in `ecx_FPRD_multi`: one for each further entry, and `more`
is set for all but the last. -/
theorem fprdMulti_calls (n : Nat) (request : Nat → Request) :
    (List.range' 1 (n - 2)).map (fun slcnt => (true, request slcnt)) ++
        (if 1 < n then [(false, request (n - 1))] else []) =
      (List.range' 1 (n - 1)).map fun j => (decide (j + 1 < n), request j) := by
  match n with
  | 0 => rfl
  | 1 => rfl
  | n + 2 =>
      have hmore : (List.range' 1 n).map (fun slcnt => (true, request slcnt)) =
          (List.range' 1 n).map fun j => (decide (j + 1 < n + 2), request j) := by
        apply List.map_congr_left
        intro j hj
        have hj' := List.mem_range'_1.mp hj
        simp
        omega
      have hrange : List.range' 1 (n + 2 - 1) = List.range' 1 n ++ [n + 1] := by
        rw [show n + 2 - 1 = n + 1 from rfl, List.range'_1_concat, Nat.add_comm 1 n]
      rw [hrange, List.map_append, ← hmore]
      simp

/-- The datagram of entry `j` when there are `n` of them. -/
def alSubframe (idx : UInt8) (n j : Nat) : Subframe :=
  (alRequest configlst slstatlst j).subframe idx (decide (j + 1 < n))

theorem length_alSubframe (idx : UInt8) (n j : Nat) :
    (alSubframe configlst slstatlst idx n j).data.length = 6 :=
  Request.length_data idx _ _

theorem total_alSubframes (idx : UInt8) (n : Nat) (js : List Nat) :
    frameFormat.total (js.map (alSubframe configlst slstatlst idx n)) = 18 * js.length := by
  induction js with
  | nil => rfl
  | cons j js ih =>
      rw [List.map_cons, ChainFormat.total_cons, ih, frameFormat_size, length_alSubframe,
        List.length_cons]
      omega

theorem requested_alSubframes (idx : UInt8) {n : Nat} (hn : 0 < n) :
    requested idx (alRequest configlst slstatlst 0)
        ((List.range' 1 (n - 1)).map fun j =>
          (decide (j + 1 < n), alRequest configlst slstatlst j)) =
      (List.range n).map (alSubframe configlst slstatlst idx n) := by
  obtain ⟨n, rfl⟩ := Nat.exists_eq_add_one_of_ne_zero (Nat.ne_of_gt hn)
  rw [List.range_eq_range', List.range'_succ, List.map_cons, requested]
  congr 1
  · cases n with
    | zero => rfl
    | succ n => simp [alSubframe, List.range'_succ]
  · simp [alSubframe, List.map_map]

theorem alSubframes_closed (idx : UInt8) {n : Nat} (hn : 0 < n) :
    frameFormat.Closed ((List.range n).map (alSubframe configlst slstatlst idx n)) := by
  rw [ChainFormat.closed_iff]
  refine ⟨by simpa using Nat.ne_of_gt hn, fun j hj => ?_⟩
  simp [alSubframe, Request.subframe]

/-- The offsets that `ecx_FPRD_multi` notes are those of the data in the received frame. -/
theorem sldatapos_eq (e : Endian) (frame : Memory UInt8) (idx : UInt8) {n : Nat} (hn : 0 < n)
    (hmax : n ≤ 64) {j : Nat} (hj : j < n) :
    ((UInt16.ofNat ecHeaderSize :: (buildFrame e frame idx (alRequest configlst slstatlst 0)
      ((List.range' 1 (n - 1)).map fun j =>
        (decide (j + 1 < n), alRequest configlst slstatlst j))).2).getD j 0).toNat =
      18 * j + 12 := by
  cases j with
  | zero => rfl
  | succ j =>
      have hrequested := requested_alSubframes configlst slstatlst idx hn
      have htotal := total_alSubframes configlst slstatlst idx n
      have hshort : frameFormat.total (requested idx (alRequest configlst slstatlst 0)
          ((List.range' 1 (n - 1)).map fun j =>
            (decide (j + 1 < n), alRequest configlst slstatlst j))) < 2048 := by
        rw [hrequested, htotal, List.length_range]
        omega
      have hoff := buildFrame_offsets e frame idx _ _ hshort (j := j) (by simp; omega)
      rw [hrequested, ← List.map_take, htotal] at hoff
      have hmin : min (j + 1) n = j + 1 := by omega
      rw [List.getD_cons_succ, List.getD_eq_getElem?_getD, hoff]
      simp [hmin]
      omega

/-- With all slaves on the wire, each entry of the list is what they answer to its datagram. -/
theorem ecxFprdMulti_served (e : Endian) (x : FrameExchange) {n : Nat} (hn : 0 < n) (hmax : n ≤ 64)
    (ring : List BusUnit) (hwire : ∀ m, x.wire m = some (passRing ring m)) :
    (ecxFprdMulti e x n configlst slstatlst).1 =
        (serveAll ring (alSubframe configlst slstatlst x.idx n (n - 1))).wkc.toNat ∧
    ∀ j < n, (ecxFprdMulti e x n configlst slstatlst).2.read (6 * j) 6 =
      (serveAll ring (alSubframe configlst slstatlst x.idx n j)).data := by
  have hrequested := requested_alSubframes configlst slstatlst x.idx hn
  have htotal := total_alSubframes configlst slstatlst x.idx n
  have hclosed := alSubframes_closed configlst slstatlst x.idx hn
  have hpos := fun j (hj : j < n) => sldatapos_eq configlst slstatlst e x.txbuf x.idx hn hmax hj
  have hbuilt := buildFrame_built e x.txbuf x.idx (alRequest configlst slstatlst 0)
    ((List.range' 1 (n - 1)).map fun j => (decide (j + 1 < n), alRequest configlst slstatlst j))
    (by rw [hrequested, htotal, List.length_range]; omega)
  rw [hrequested] at hbuilt
  simp only [ecxFprdMulti, fprdMulti_calls]
  generalize buildFrame e x.txbuf x.idx (alRequest configlst slstatlst 0) _ = built at hbuilt hpos
  have hlast : ((List.range n).map (alSubframe configlst slstatlst x.idx n)).getLast? =
      some (alSubframe configlst slstatlst x.idx n (n - 1)) := by
    rw [List.getLast?_map, List.getLast?_range, if_neg (Nat.ne_of_gt hn)]
    rfl
  obtain ⟨hwkc, hdata⟩ := x.srconfirm_served hbuilt
    (by rw [htotal, List.length_range]; omega) hclosed hlast (hwire _)
  refine ⟨hwkc, fun j hj => ?_⟩
  have hentry := hdata j (by simpa using hj)
  simp only [← List.map_take, htotal, List.length_take, List.length_range,
    Nat.min_eq_left (le_of_lt hj), List.getElem_map, List.getElem_range,
    length_alSubframe] at hentry
  rw [if_pos (by rw [hwkc]; exact Int.natCast_nonneg _), ← hentry]
  have hsweep := Memory.read_foldl_write (fun slcnt => alStatusSize * slcnt)
    (fun slcnt => (x.srconfirm built.1).2.read
      ((UInt16.ofNat ecHeaderSize :: built.2).getD slcnt 0).toNat alStatusSize) (List.range n) ?_
    slstatlst (List.mem_range.mpr hj)
  · rw [hpos j hj, Memory.read_length] at hsweep
    exact hsweep
  · apply List.nodup_range.pairwise_of_forall_ne
    intro i _ k _ hik
    simp only [Memory.read_length, Apart, alStatusSize]
    omega

end FprdMulti

end RaipalSoem

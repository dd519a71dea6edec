import RaipalSoem.StateCheck
import RaipalSoem.Wire

/-!
# Reading the states of all slaves

`ecx_readstate` first reads the OR of all AL status registers with one broadcast. If all slaves
are there, none is in error and the OR is a single state, then this is the state of each of
them. Otherwise the registers are read slave by slave, 64 of them with one frame.
-/

namespace RaipalSoem

open Lib

/-- `EC_STATE_ERROR`. -/
def ecStateError : UInt16 := 0x10

/-- `EC_STATE_PRE_OP`. -/
def ecStatePreOp : UInt16 := 0x02

/-- `EC_MAXSLAVE`: entries of `ec_slave`, the first of which stands for all slaves. -/
def ecMaxSlave : Nat := 200

/-- `MAX_FPRD_MULTI`. -/
def maxFprdMulti : Nat := 64

/-- The fields of `ec_slavet` that `ecx_readstate` uses. -/
structure AlSlave where
  configadr : UInt16
  state : UInt16
  ALstatuscode : UInt16
  deriving DecidableEq, Repr

/-- `slavelist[slave].state = state`. -/
def setState (slavelist : Nat → AlSlave) (slave : Nat) (state : UInt16) : Nat → AlSlave :=
  Function.update slavelist slave { slavelist slave with state := state }

/-- `slavelist[slave].ALstatuscode = code`. -/
def setStatuscode (slavelist : Nat → AlSlave) (slave : Nat) (code : UInt16) : Nat → AlSlave :=
  Function.update slavelist slave { slavelist slave with ALstatuscode := code }

/-- What the loop takes over from the record of one slave: the slave list, and the lowest state
so far. -/
def storeStatus (e : Endian) (sl : Memory UInt8) (fslave : Nat)
    (acc : (Nat → AlSlave) × UInt16) (slave : Nat) : (Nat → AlSlave) × UInt16 :=
  let rval := getWord e sl (alStatusSize * (slave - fslave))
  let slavelist := setStatuscode acc.1 slave (getWord e sl (alStatusSize * (slave - fslave) + 4))
  let lowest := if rval &&& 0xf < acc.2 then rval &&& 0xf else acc.2
  let slavelist := setState slavelist slave rval
  (setStatuscode slavelist 0 ((slavelist 0).ALstatuscode ||| (slavelist slave).ALstatuscode),
    lowest)

/-- The loop that reads the slaves from `fslave` on, with the exchanges from number `c` on. -/
def readLoop (e : Endian) (x : Nat → FrameExchange) (slavecount c fslave : Nat)
    (acc : (Nat → AlSlave) × UInt16) : (Nat → AlSlave) × UInt16 :=
  let lslave := if maxFprdMulti ≤ slavecount - fslave then fslave + maxFprdMulti - 1
    else slavecount
  let n := lslave + 1 - fslave
  let sl := (ecxFprdMulti e (x c) n (fun j => (acc.1 (fslave + j)).configadr) fun _ => 0).2
  let acc := (List.range' fslave n).foldl (storeStatus e sl fslave) acc
  if lslave < slavecount then readLoop e x slavecount (c + 1) (lslave + 1) acc else acc
termination_by slavecount - fslave
decreasing_by
  rename_i hmore
  by_cases hfull : maxFprdMulti ≤ slavecount - fslave
  · have hlslave : lslave = fslave + maxFprdMulti - 1 := if_pos hfull
    simp only [maxFprdMulti] at hfull hlslave
    omega
  · have hlslave : lslave = slavecount := if_neg hfull
    omega

/-- `ecx_readstate`: the lowest state, and the slave list. -/
def ecxReadstate (e : Endian) (x : Nat → FrameExchange) (slavecount : Nat)
    (slavelist : Nat → AlSlave) : UInt16 × (Nat → AlSlave) :=
  let (wkc, data) := ecxBroadcastRead e (x 0) 0 ectRegAlstat 2 fun _ => 0
  let allslavespresent := (slavecount : Int) ≤ wkc
  let rval := getWord e data 0
  let bitwisestate := rval &&& 0x0f
  let noerrorflag := rval &&& ecStateError = 0
  let slavelist := if noerrorflag then setStatuscode slavelist 0 0 else slavelist
  let allslavessamestate :=
    bitwisestate ∈ [ecStateInit, ecStatePreOp, ecStateSafeOp, ecStateOperational]
  let slavelist := if allslavessamestate then setState slavelist 0 bitwisestate else slavelist
  if noerrorflag ∧ allslavessamestate ∧ allslavespresent then
    (bitwisestate, (List.range' 1 slavecount).foldl
      (fun slavelist slave => setState (setStatuscode slavelist slave 0) slave bitwisestate)
      slavelist)
  else
    let (slavelist, lowest) := readLoop e x slavecount 1 1 (setStatuscode slavelist 0 0, 0xff)
    (lowest, setState slavelist 0 lowest)

/-- A slave that can be read by its configured address and by broadcast. -/
structure RegSlave where
  configadr : UInt16
  regs : Memory UInt8

/-- What the slave makes of a datagram: it puts its registers into a read with its configured
address, and joins them to a broadcast. -/
def RegSlave.unit (s : RegSlave) : BusUnit where
  answer d :=
    if d.command = ecCmdFprd ∧ d.ADP = s.configadr then
      (d.ADP, s.regs.read d.ADO.toNat d.data.length, d.wkc + 1)
    else if d.command = ecCmdBrd then
      (d.ADP + 1, List.zipWith (· ||| ·) d.data (s.regs.read d.ADO.toNat d.data.length), d.wkc + 1)
    else (d.ADP, d.data, d.wkc)
  length_answer d := by
    split
    · simp
    · split <;> simp

/-- The AL status of the slave. -/
def RegSlave.alstatus (s : RegSlave) : UInt16 := wordAt s.regs 0x130

/-- The AL status code of the slave. -/
def RegSlave.alstatuscode (s : RegSlave) : UInt16 := wordAt s.regs 0x134

section Ring

variable (ring : List RegSlave)

/-- A datagram that no slave takes up passes as it is. -/
theorem serveAll_other {d : Subframe} (hcommand : d.command = ecCmdFprd)
    (hother : ∀ s ∈ ring, d.ADP ≠ s.configadr) : serveAll (ring.map RegSlave.unit) d = d := by
  have hbrd : ¬d.command = ecCmdBrd := by rw [hcommand]; decide
  induction ring with
  | nil => rfl
  | cons s ring ih =>
      have hs : s.unit.serve d = d := by
        have hne : ¬(d.command = ecCmdFprd ∧ d.ADP = s.configadr) :=
          fun h => hother s (by simp) h.2
        simp only [BusUnit.serve, RegSlave.unit, if_neg hne, if_neg hbrd]
      calc
        serveAll ((s :: ring).map RegSlave.unit) d =
            serveAll (ring.map RegSlave.unit) (s.unit.serve d) := rfl
        _ = serveAll (ring.map RegSlave.unit) d := by rw [hs]
        _ = d := ih fun s' hs' => hother s' (List.mem_cons_of_mem s hs')

/-- A read by configured address brings the registers of the slave with this address. -/
theorem serveAll_fprd (hnodup : (ring.map RegSlave.configadr).Nodup) {s : RegSlave}
    (hs : s ∈ ring) {d : Subframe} (hcommand : d.command = ecCmdFprd)
    (haddress : d.ADP = s.configadr) :
    (serveAll (ring.map RegSlave.unit) d).data = s.regs.read d.ADO.toNat d.data.length := by
  have hbrd : ¬d.command = ecCmdBrd := by rw [hcommand]; decide
  induction ring with
  | nil => cases hs
  | cons s' ring ih =>
      obtain ⟨hnew, hrest⟩ := List.nodup_cons.mp hnodup
      have hstep : serveAll ((s' :: ring).map RegSlave.unit) d =
          serveAll (ring.map RegSlave.unit) (s'.unit.serve d) := rfl
      rcases List.mem_cons.mp hs with rfl | hmem
      · have hserve : s.unit.serve d = { d with
            data := s.regs.read d.ADO.toNat d.data.length, wkc := d.wkc + 1 } := by
          simp only [BusUnit.serve, RegSlave.unit, if_pos (And.intro hcommand haddress)]
        rw [hstep, serveAll_other ring (by rw [hserve]; exact hcommand), hserve]
        intro s'' hs'' heq
        rw [hserve] at heq
        exact hnew (List.mem_map.mpr ⟨s'', hs'', heq.symm.trans haddress⟩)
      · have hne : ¬(d.command = ecCmdFprd ∧ d.ADP = s'.configadr) := by
          rintro ⟨-, heq⟩
          exact hnew (List.mem_map.mpr ⟨s, hmem, haddress.symm.trans heq⟩)
        have hserve : s'.unit.serve d = d := by
          simp only [BusUnit.serve, RegSlave.unit, if_neg hne, if_neg hbrd]
        rw [hstep, hserve]
        exact ih hrest hmem

/-- The word in a datagram of two bytes. -/
def wordOf (bs : List UInt8) : UInt16 := .ofBitVec (ofLeBytes 2 bs)

theorem wordOf_pair (b₀ b₁ : UInt8) :
    (wordOf [b₀, b₁]).toBitVec = b₁.toBitVec ++ b₀.toBitVec := by
  have h₀ := b₀.toNat_lt
  have h₁ := b₁.toNat_lt
  apply BitVec.eq_of_toNat_eq
  rw [BitVec.toNat_append, ← Nat.shiftLeft_add_eq_or_of_lt (by simpa using h₀), Nat.shiftLeft_eq]
  change (b₀.toNat + 256 * (b₁.toNat + 256 * 0)) % 2 ^ 16 = b₁.toNat * 2 ^ 8 + b₀.toNat
  omega

theorem wordOf_zipWith {bs bs' : List UInt8} (h : bs.length = 2) (h' : bs'.length = 2) :
    wordOf (List.zipWith (· ||| ·) bs bs') = wordOf bs ||| wordOf bs' := by
  match bs, bs', h, h' with
  | [b₀, b₁], [c₀, c₁], _, _ =>
      rw [← UInt16.toBitVec_inj, UInt16.toBitVec_or]
      simp only [List.zipWith_cons_cons, List.zipWith_nil_right, wordOf_pair, UInt8.toBitVec_or]
      exact BitVec.or_append.symm

/-- A broadcast read joins the registers of all slaves, and counts the slaves. -/
theorem serveAll_brd {d : Subframe} (hcommand : d.command = ecCmdBrd)
    (hado : d.ADO = ectRegAlstat) (hlength : d.data.length = 2) :
    wordOf (serveAll (ring.map RegSlave.unit) d).data =
      ring.foldl (fun word s => word ||| s.alstatus) (wordOf d.data) ∧
    (serveAll (ring.map RegSlave.unit) d).wkc = d.wkc + .ofNat ring.length := by
  have hfprd : ∀ a : UInt16, ¬(d.command = ecCmdFprd ∧ d.ADP = a) := by
    rintro a ⟨h, -⟩
    rw [hcommand] at h
    exact absurd h (by decide)
  induction ring generalizing d with
  | nil => simp [serveAll]
  | cons s ring ih =>
      have hserve : s.unit.serve d = { d with
          ADP := d.ADP + 1
          data := List.zipWith (· ||| ·) d.data (s.regs.read 0x130 2)
          wkc := d.wkc + 1 } := by
        simp only [BusUnit.serve, RegSlave.unit, if_neg (hfprd _), if_pos hcommand, hado, hlength]
        rfl
      have hstep : serveAll ((s :: ring).map RegSlave.unit) d =
          serveAll (ring.map RegSlave.unit) (s.unit.serve d) := rfl
      obtain ⟨hdata, hwkc⟩ := ih (d := s.unit.serve d) hcommand hado
        (by rw [BusUnit.length_serve, hlength])
        (fun a h => absurd (hcommand.symm.trans h.1) (by decide))
      constructor
      · rw [hstep, hdata, hserve, List.foldl_cons, wordOf_zipWith hlength (by simp)]
        rfl
      · rw [hstep, hwkc, hserve, List.length_cons, Nat.add_comm, UInt16.ofNat_add, ← UInt16.add_assoc]
        rfl

end Ring

/-- The poll of a ring of slaves whose frame comes back or is lost. -/
def pollOf (ring : List RegSlave) (back : Bool) : Poll ring.length :=
  if back then some fun k => some (ring.get k).alstatus else none

/-- What the wire does with a frame: it passes all slaves, or it is lost. -/
def ringWire (ring : List RegSlave) (back : Bool) (m : Memory UInt8) : Option (Memory UInt8) :=
  if back then some (passRing (ring.map RegSlave.unit) m) else none

theorem foldl_statusOr (ring : List RegSlave) :
    statusOr (fun k : Fin ring.length => some (ring.get k).alstatus) =
      ring.foldl (fun word s => word ||| s.alstatus) 0 := by
  have hring : (List.finRange ring.length).map ring.get = ring := List.map_get_finRange ring
  conv_rhs => rw [← hring]
  rw [List.foldl_map]
  rfl

theorem answerCount_ring (ring : List RegSlave) :
    answerCount (fun k : Fin ring.length => some (ring.get k).alstatus) = ring.length := by
  have hall : (List.finRange ring.length).countP (fun k =>
      (some (ring.get k).alstatus).isSome) = (List.finRange ring.length).length :=
    List.countP_eq_length.mpr fun _ _ => rfl
  exact hall.trans List.length_finRange

/-- A broadcast that comes back has counted the slaves and joined their AL status. -/
theorem ecxBrd_ring (ring : List RegSlave) : ecxBrd (pollOf ring true) 0 =
    ((ring.length : Int), ring.foldl (fun word s => word ||| s.alstatus) 0) := by
  simp only [ecxBrd, pollOf, if_true, answerCount_ring, foldl_statusOr]
  cases ring with
  | nil => rfl
  | cons s ring => rw [if_pos (by simp)]

/-- The broadcast read of the AL status. -/
def alBroadcast : Request where
  com := ecCmdBrd
  ADP := 0
  ADO := ectRegAlstat
  length := 2
  data := fun _ => 0

/-- The broadcast of the frame buffers is the poll of `ecx_statecheck`. -/
theorem ecxBroadcastRead_eq (e : Endian) {x : FrameExchange} {ring : List RegSlave}
    (hcount : ring.length < ecMaxSlave) {back : Bool} (hwire : x.wire = ringWire ring back) :
    (ecxBroadcastRead e x 0 ectRegAlstat 2 fun _ => 0).1 = (ecxBrd (pollOf ring back) 0).1 ∧
    wordAt (ecxBroadcastRead e x 0 ectRegAlstat 2 fun _ => 0).2 0 =
      statusOf (pollOf ring back) := by
  have hzero : wordAt (fun _ => 0) 0 = 0 := by decide
  change (x.blockingRead e alBroadcast).1 = _ ∧ wordAt (x.blockingRead e alBroadcast).2 0 = _
  cases back with
  | false =>
      have hlost : ∀ tx, x.srconfirm tx = (ecNoFrame, x.rxbuf) := by
        intro tx
        simp [FrameExchange.srconfirm, hwire, ringWire]
      simp only [FrameExchange.blockingRead, hlost]
      exact ⟨rfl, hzero⟩
  | true =>
      obtain ⟨hwkc, hdata⟩ := x.blockingRead_served e (r := alBroadcast) (by decide)
        (ring.map RegSlave.unit) (fun m => by rw [hwire]; rfl)
      have hzeros : wordOf (alBroadcast.subframe x.idx false).data = 0 := rfl
      have htwo : (alBroadcast.subframe x.idx false).data.length = 2 := rfl
      obtain ⟨hword, hcounted⟩ := serveAll_brd ring
        (d := alBroadcast.subframe x.idx false) rfl rfl rfl
      have hall : (serveAll (ring.map RegSlave.unit)
          (alBroadcast.subframe x.idx false)).wkc.toNat = ring.length := by
        rw [hcounted]
        unfold ecMaxSlave at hcount
        change (0 + UInt16.ofNat ring.length).toNat = _
        rw [UInt16.zero_add]
        exact Nat.mod_eq_of_lt (by omega)
      rw [hall] at hwkc
      rw [hzeros] at hword
      rw [statusOf, ecxBrd_ring]
      refine ⟨hwkc, ?_⟩
      by_cases hpos : 0 < ring.length
      · have hread := Memory.read_write alBroadcast.data 0
          (serveAll (ring.map RegSlave.unit) (alBroadcast.subframe x.idx false)).data
        rw [length_serveAll, htwo] at hread
        rw [hdata (by rw [hwkc]; exact Int.natCast_pos.mpr hpos), ← hword, wordAt, hread, wordOf]
      · have hnil : ring = [] := List.eq_nil_of_length_eq_zero (Nat.eq_zero_of_not_pos hpos)
        have hkept : (x.blockingRead e alBroadcast).2 = fun _ => 0 := by
          apply if_neg
          intro h
          exact hpos (Int.natCast_pos.mp (hwkc ▸ h))
        rw [hkept, hzero, hnil]
        rfl

/-- The record of a slave: its AL status and its AL status code. -/
def RegSlave.record (s : RegSlave) : UInt16 × UInt16 := (s.alstatus, s.alstatuscode)

/-- With the frame of `ecx_FPRD_multi` back, an entry is the record of the slave whose address
it has. -/
theorem ecxFprdMulti_record (e : Endian) {x : FrameExchange} {ring : List RegSlave}
    (hnodup : (ring.map RegSlave.configadr).Nodup) (hwire : x.wire = ringWire ring true) {n : Nat}
    (hn : 0 < n) (hmax : n ≤ maxFprdMulti) (configlst : Nat → UInt16) (slstatlst : Memory UInt8)
    {j : Nat} (hj : j < n) {s : RegSlave} (hs : s ∈ ring) (haddress : configlst j = s.configadr) :
    let sl := (ecxFprdMulti e x n configlst slstatlst).2
    (getWord e sl (6 * j), getWord e sl (6 * j + 4)) = s.record := by
  obtain ⟨-, hentries⟩ := ecxFprdMulti_served configlst slstatlst e x hn hmax
    (ring.map RegSlave.unit) (fun m => by rw [hwire]; rfl)
  have hentry := hentries j hj
  have hserved := serveAll_fprd ring hnodup hs (d := alSubframe configlst slstatlst x.idx n j) rfl
    haddress
  rw [hserved, length_alSubframe] at hentry
  simp only [getWord_eq]
  exact Prod.ext (wordAt_of_read hentry (i := 0) (by decide))
    (wordAt_of_read hentry (i := 4) (by decide))

/-- With the frame lost, the list is as it was. -/
theorem ecxFprdMulti_lost (e : Endian) {x : FrameExchange} {ring : List RegSlave}
    (hwire : x.wire = ringWire ring false) (n : Nat) (configlst : Nat → UInt16)
    (slstatlst : Memory UInt8) : (ecxFprdMulti e x n configlst slstatlst).2 = slstatlst := by
  have hlost : ∀ tx, x.srconfirm tx = (ecNoFrame, x.rxbuf) := by
    intro tx
    simp [FrameExchange.srconfirm, hwire, ringWire]
  simp only [ecxFprdMulti, hlost]
  rfl

section Updates

variable (slavelist : Nat → AlSlave) (i j : Nat) (v : UInt16)

@[simp] theorem setState_configadr :
    (setState slavelist i v j).configadr = (slavelist j).configadr := by
  by_cases h : j = i
  · simp [setState, h]
  · simp [setState, h]

@[simp] theorem setStatuscode_configadr :
    (setStatuscode slavelist i v j).configadr = (slavelist j).configadr := by
  by_cases h : j = i
  · simp [setStatuscode, h]
  · simp [setStatuscode, h]

@[simp] theorem setState_state : (setState slavelist i v i).state = v := by simp [setState]

@[simp] theorem setState_statuscode :
    (setState slavelist i v j).ALstatuscode = (slavelist j).ALstatuscode := by
  by_cases h : j = i
  · simp [setState, h]
  · simp [setState, h]

@[simp] theorem setStatuscode_state :
    (setStatuscode slavelist i v j).state = (slavelist j).state := by
  by_cases h : j = i
  · simp [setStatuscode, h]
  · simp [setStatuscode, h]

@[simp] theorem setStatuscode_statuscode :
    (setStatuscode slavelist i v i).ALstatuscode = v := by simp [setStatuscode]

variable {i j}

theorem setState_of_ne (h : j ≠ i) : setState slavelist i v j = slavelist j :=
  Function.update_of_ne h _ _

theorem setStatuscode_of_ne (h : j ≠ i) : setStatuscode slavelist i v j = slavelist j :=
  Function.update_of_ne h _ _

end Updates

/-- The first `m` slaves have been read: their entries hold what was found, and the lowest of
their states has been kept. -/
structure Scanned (found : Nat → UInt16 × UInt16) (slavelist : Nat → AlSlave) (m : Nat)
    (acc : (Nat → AlSlave) × UInt16) : Prop where
  state : ∀ k < m, (acc.1 (k + 1)).state = (found k).1
  statuscode : ∀ k < m, (acc.1 (k + 1)).ALstatuscode = (found k).2
  rest : ∀ i, m < i → acc.1 i = slavelist i
  configadr : ∀ i, (acc.1 i).configadr = (slavelist i).configadr
  lowest_le : ∀ k < m, acc.2 ≤ (found k).1 &&& 0xf
  lowest_mem : (m = 0 ∧ acc.2 = 0xff) ∨ ∃ k < m, acc.2 = (found k).1 &&& 0xf

theorem nibble_lt (w : UInt16) : w &&& 0xf < 0xff := by
  have hle : (w &&& 0xf).toNat ≤ 15 := Nat.and_le_right
  exact UInt16.lt_iff_toNat_lt.mpr (Nat.lt_of_le_of_lt hle (by decide))

/-- One round of the loop over the slaves of a frame. -/
theorem Scanned.store {found : Nat → UInt16 × UInt16} {slavelist : Nat → AlSlave} {m : Nat}
    {acc : (Nat → AlSlave) × UInt16} (h : Scanned found slavelist m acc) {e : Endian}
    {sl : Memory UInt8} {fslave : Nat}
    (hfound : (getWord e sl (6 * (m + 1 - fslave)), getWord e sl (6 * (m + 1 - fslave) + 4)) =
      found m) : Scanned found slavelist (m + 1) (storeStatus e sl fslave acc (m + 1)) := by
  obtain ⟨hstate, hcode⟩ := Prod.ext_iff.mp hfound
  dsimp only at hstate hcode
  simp only [storeStatus, alStatusSize, hstate, hcode]
  refine ⟨?_, ?_, ?_, ?_, ?_, ?_⟩ <;> dsimp only
  · intro k hk
    rw [setStatuscode_of_ne _ _ (by omega)]
    by_cases hkm : k = m
    · rw [hkm, setState_state]
    · rw [setState_of_ne _ _ (by omega), setStatuscode_of_ne _ _ (by omega)]
      exact h.state k (by omega)
  · intro k hk
    rw [setStatuscode_of_ne _ _ (by omega), setState_statuscode]
    by_cases hkm : k = m
    · rw [hkm, setStatuscode_statuscode]
    · rw [setStatuscode_of_ne _ _ (by omega)]
      exact h.statuscode k (by omega)
  · intro i hi
    rw [setStatuscode_of_ne _ _ (by omega), setState_of_ne _ _ (by omega),
      setStatuscode_of_ne _ _ (by omega)]
    exact h.rest i (by omega)
  · intro i
    simpa using h.configadr i
  · intro k hk
    by_cases hkm : k = m
    · subst hkm
      split_ifs with hlt
      · exact UInt16.le_refl _
      · exact UInt16.not_lt.mp hlt
    · have hle := h.lowest_le k (by omega)
      split_ifs with hlt
      · exact UInt16.le_trans (UInt16.le_of_lt hlt) hle
      · exact hle
  · right
    split_ifs with hlt
    · exact ⟨m, Nat.lt_succ_self m, rfl⟩
    · rcases h.lowest_mem with ⟨-, hstart⟩ | ⟨k, hk, hlow⟩
      · rw [hstart] at hlt
        exact absurd (nibble_lt _) hlt
      · exact ⟨k, by omega, hlow⟩

/-- The loop over the slaves of a frame. -/
theorem Scanned.storeAll {found : Nat → UInt16 × UInt16} {slavelist : Nat → AlSlave}
    {acc : (Nat → AlSlave) × UInt16} {e : Endian} {sl : Memory UInt8} {fslave n : Nat} {m : Nat}
    (h : Scanned found slavelist m acc) (hm : fslave ≤ m + 1)
    (hfound : ∀ k, m ≤ k → k < m + n →
      (getWord e sl (6 * (k + 1 - fslave)), getWord e sl (6 * (k + 1 - fslave) + 4)) = found k) :
    Scanned found slavelist (m + n) ((List.range' (m + 1) n).foldl (storeStatus e sl fslave) acc) := by
  induction n generalizing m acc with
  | zero => exact h
  | succ n ih =>
      have hstep := h.store (hfound m (le_refl m) (by omega))
      have hrest := ih hstep (by omega) fun k hk hkn => hfound k (by omega) (by omega)
      rw [List.range'_succ, List.foldl_cons, show m + (n + 1) = m + 1 + n by omega]
      exact hrest

/-- What the frames of the loop find: the record of a slave if its frame comes back. -/
def foundRecord (ring : List RegSlave) (back : Nat → Bool) (k : Nat) : UInt16 × UInt16 :=
  if back (k / 64 + 1) then (ring[k]?.map RegSlave.record).getD (0, 0) else (0, 0)

/-- The slave list names the slaves of the ring by their addresses. -/
structure Lists (slavelist : Nat → AlSlave) (ring : List RegSlave) : Prop where
  nodup : (ring.map RegSlave.configadr).Nodup
  configadr : ∀ k (hk : k < ring.length), (slavelist (k + 1)).configadr = ring[k].configadr

/-- One frame of the loop finds the records of its slaves. -/
theorem chunk_found (e : Endian) {x : FrameExchange} {ring : List RegSlave}
    {slavelist : Nat → AlSlave} (hlists : Lists slavelist ring) {back : Nat → Bool} {c n : Nat}
    (hwire : x.wire = ringWire ring (back (c + 1))) (hn : 0 < n) (hmax : n ≤ 64)
    (hend : 64 * c + n ≤ ring.length) {configlst : Nat → UInt16}
    (hconfig : ∀ j < n, configlst j = (slavelist (64 * c + 1 + j)).configadr) {k : Nat}
    (hk : 64 * c ≤ k) (hkn : k < 64 * c + n) :
    let sl := (ecxFprdMulti e x n configlst fun _ => 0).2
    (getWord e sl (6 * (k + 1 - (64 * c + 1))), getWord e sl (6 * (k + 1 - (64 * c + 1)) + 4)) =
      foundRecord ring back k := by
  have hchunk : k / 64 = c := by omega
  have hplace : k + 1 - (64 * c + 1) = k - 64 * c := by omega
  intro sl
  rw [foundRecord, hchunk, hplace]
  cases hback : back (c + 1) with
  | false =>
      rw [hback] at hwire
      have hzero : ∀ off, getWord e (fun _ => 0) off = 0 := by
        intro off
        rw [getWord_eq, wordAt, Memory.read]
        rfl
      simp only [sl, ecxFprdMulti_lost e hwire, hzero]
      rfl
  | true =>
      rw [hback] at hwire
      have hkring : k < ring.length := by omega
      have hrecord := ecxFprdMulti_record e hlists.nodup hwire hn hmax configlst (fun _ => 0)
        (j := k - 64 * c) (by omega) (List.getElem_mem hkring) (by
          rw [hconfig _ (by omega), ← hlists.configadr k hkring]
          congr 2
          omega)
      simpa [sl, hkring] using hrecord

section Loop

variable (e : Endian) {x : Nat → FrameExchange} {ring : List RegSlave} {slavelist : Nat → AlSlave}
  {back : Nat → Bool}

/-- The slaves of one frame are read. -/
theorem Scanned.chunk (hlists : Lists slavelist ring)
    (hwire : ∀ c, (x c).wire = ringWire ring (back c)) {c n : Nat}
    {acc : (Nat → AlSlave) × UInt16}
    (h : Scanned (foundRecord ring back) slavelist (64 * c) acc) (hmax : n ≤ 64)
    (hend : 64 * c + n ≤ ring.length) :
    Scanned (foundRecord ring back) slavelist (64 * c + n)
      ((List.range' (64 * c + 1) n).foldl (storeStatus e (ecxFprdMulti e (x (c + 1)) n
        (fun j => (acc.1 (64 * c + 1 + j)).configadr) fun _ => 0).2 (64 * c + 1)) acc) := by
  apply h.storeAll (le_refl _)
  intro k hk hkn
  exact chunk_found e hlists (hwire (c + 1)) (by omega) hmax hend
    (fun j _ => h.configadr (64 * c + 1 + j)) hk hkn

/-- The loop reads all slaves: the induction is on the slaves that are left. -/
theorem readLoop_scanned (hlists : Lists slavelist ring)
    (hwire : ∀ c, (x c).wire = ringWire ring (back c)) {c : Nat}
    {acc : (Nat → AlSlave) × UInt16} (hc : 64 * c ≤ ring.length)
    (h : Scanned (foundRecord ring back) slavelist (64 * c) acc) :
    Scanned (foundRecord ring back) slavelist ring.length
      (readLoop e x ring.length (c + 1) (64 * c + 1) acc) := by
  induction hleft : ring.length - 64 * c using Nat.strong_induction_on generalizing c acc with
  | _ left ih =>
      have hmax : maxFprdMulti = 64 := rfl
      rw [readLoop]
      by_cases hfull : maxFprdMulti ≤ ring.length - (64 * c + 1)
      · have hn : 64 * c + 1 + maxFprdMulti - 1 + 1 - (64 * c + 1) = 64 := by omega
        have hnext : 64 * c + 1 + maxFprdMulti - 1 + 1 = 64 * (c + 1) + 1 := by omega
        have hchunk := h.chunk e hlists hwire (n := 64) (by omega) (by omega)
        simp only [if_pos hfull]
        rw [hn, if_pos (by omega), hnext]
        exact ih (ring.length - 64 * (c + 1)) (by omega) (by omega) hchunk rfl
      · have hn : ring.length + 1 - (64 * c + 1) = ring.length - 64 * c := by omega
        have hchunk := h.chunk e hlists hwire (n := ring.length - 64 * c) (by omega) (by omega)
        have hall : 64 * c + (ring.length - 64 * c) = ring.length := by omega
        simp only [if_neg hfull]
        rw [hn, if_neg (lt_irrefl _)]
        rwa [hall] at hchunk

end Loop

section Joined

variable (ring : List RegSlave)

theorem foldl_and (mask word : UInt16) :
    ring.foldl (fun word s => word ||| s.alstatus) word &&& mask =
      ring.foldl (fun word s => word ||| (s.alstatus &&& mask)) (word &&& mask) := by
  induction ring generalizing word with
  | nil => rfl
  | cons s ring ih =>
      have hdistrib : (word ||| s.alstatus) &&& mask =
          (word &&& mask) ||| (s.alstatus &&& mask) := by
        rw [← UInt16.toBitVec_inj]
        simp only [UInt16.toBitVec_and, UInt16.toBitVec_or, BitVec.and_or_distrib_right]
      rw [List.foldl_cons, ih, hdistrib, List.foldl_cons]

theorem toBitVec_foldl (f : RegSlave → UInt16) (word : UInt16) :
    (ring.foldl (fun word s => word ||| f s) word).toBitVec =
      (ring.map fun s => (f s).toBitVec).foldl (· ||| ·) word.toBitVec := by
  induction ring generalizing word with
  | nil => rfl
  | cons s ring ih => rw [List.foldl_cons, ih, List.map_cons, List.foldl_cons, UInt16.toBitVec_or]

variable {ring}

/-- Words that are joined to 0 are all 0. -/
theorem eq_zero_of_foldl {f : RegSlave → UInt16} {word : UInt16}
    (h : ring.foldl (fun word s => word ||| f s) word = 0) :
    word = 0 ∧ ∀ s ∈ ring, f s = 0 := by
  induction ring generalizing word with
  | nil => exact ⟨h, fun _ hs => absurd hs List.not_mem_nil⟩
  | cons s ring ih =>
      obtain ⟨hword, hring⟩ := ih h
      rw [← UInt16.toBitVec_inj, UInt16.toBitVec_or] at hword
      obtain ⟨hzero, hs⟩ := BitVec.or_eq_zero_iff.mp hword
      refine ⟨UInt16.toBitVec_inj.mp hzero, fun s' hs' => ?_⟩
      rcases List.mem_cons.mp hs' with rfl | hmem
      · exact UInt16.toBitVec_inj.mp hs
      · exact hring s' hmem

/-- The codes of the four states that the broadcast can tell apart have one bit each. -/
theorem state_twoPow {st : UInt16}
    (h : st ∈ [ecStateInit, ecStatePreOp, ecStateSafeOp, ecStateOperational]) :
    ∃ i, st.toBitVec = BitVec.twoPow 16 i := by
  simp only [List.mem_cons, List.not_mem_nil, or_false] at h
  rcases h with rfl | rfl | rfl | rfl
  · exact ⟨0, by decide⟩
  · exact ⟨1, by decide⟩
  · exact ⟨2, by decide⟩
  · exact ⟨3, by decide⟩

/-- If the joined AL status words show a single state and no error, then each slave is in this
state and none is in error. -/
theorem state_of_joined (hstates : ∀ s ∈ ring, s.alstatus &&& 0xf ≠ 0) {rval : UInt16}
    (hrval : rval = ring.foldl (fun word s => word ||| s.alstatus) 0)
    (hnoerror : rval &&& ecStateError = 0)
    (hsame : rval &&& 0x0f ∈ [ecStateInit, ecStatePreOp, ecStateSafeOp, ecStateOperational])
    {s : RegSlave} (hs : s ∈ ring) :
    s.alstatus &&& 0xf = rval &&& 0x0f ∧ s.alstatus &&& ecStateError = 0 := by
  constructor
  · obtain ⟨i, hi⟩ := state_twoPow hsame
    have hjoined := hi
    rw [hrval, foldl_and, toBitVec_foldl, foldl_or_eq_twoPow] at hjoined
    rcases hjoined.1 _ (List.mem_cons_of_mem _ (List.mem_map.mpr ⟨s, hs, rfl⟩)) with hzero | hbit
    · exact absurd (UInt16.toBitVec_inj.mp hzero) (hstates s hs)
    · exact UInt16.toBitVec_inj.mp (hbit.trans hi.symm)
  · rw [hrval, foldl_and] at hnoerror
    exact (eq_zero_of_foldl hnoerror).2 s hs

end Joined

/-- The loop of the fast path. -/
theorem markAll (slavelist : Nat → AlSlave) (n : Nat) (st : UInt16) :
    let marked := (List.range' 1 n).foldl
      (fun slavelist slave => setState (setStatuscode slavelist slave 0) slave st) slavelist
    (∀ k < n, (marked (k + 1)).state = st ∧ (marked (k + 1)).ALstatuscode = 0) ∧
    ∀ i, i = 0 ∨ n < i → marked i = slavelist i := by
  induction n with
  | zero => exact ⟨fun k hk => absurd hk (Nat.not_lt_zero k), fun _ _ => rfl⟩
  | succ n ih =>
      obtain ⟨hmarked, hrest⟩ := ih
      rw [List.range'_1_concat, List.foldl_append, List.foldl_cons, List.foldl_nil, Nat.add_comm 1 n]
      constructor
      · intro k hk
        by_cases hkn : k = n
        · subst hkn
          rw [setState_state, setState_statuscode, setStatuscode_statuscode]
          exact ⟨rfl, rfl⟩
        · rw [setState_of_ne _ _ (by omega), setStatuscode_of_ne _ _ (by omega)]
          exact hmarked k (by omega)
      · intro i hi
        rw [setState_of_ne _ _ (by omega), setStatuscode_of_ne _ _ (by omega)]
        exact hrest i (by omega)

/-- The broadcast with the given result answers for all slaves. -/
def Answers (slavecount : Nat) (brd : Int × UInt16) : Prop :=
  brd.2 &&& ecStateError = 0 ∧
    brd.2 &&& 0x0f ∈ [ecStateInit, ecStatePreOp, ecStateSafeOp, ecStateOperational] ∧
    (slavecount : Int) ≤ brd.1

section Branches

variable (e : Endian) {x : Nat → FrameExchange} {slavecount : Nat} {slavelist : Nat → AlSlave}
  {brd : Int × UInt16}

theorem ecxReadstate_fast
    (hwkc : (ecxBroadcastRead e (x 0) 0 ectRegAlstat 2 fun _ => 0).1 = brd.1)
    (hword : wordAt (ecxBroadcastRead e (x 0) 0 ectRegAlstat 2 fun _ => 0).2 0 = brd.2)
    (h : Answers slavecount brd) :
    ecxReadstate e x slavecount slavelist =
      (brd.2 &&& 0x0f, (List.range' 1 slavecount).foldl
        (fun slavelist slave => setState (setStatuscode slavelist slave 0) slave (brd.2 &&& 0x0f))
        (setState (setStatuscode slavelist 0 0) 0 (brd.2 &&& 0x0f))) := by
  obtain ⟨herror, hsame, hpresent⟩ := h
  simp only [ecxReadstate, getWord_eq, hwkc, hword, herror, hsame, hpresent, and_self, if_true]

variable (slavelist) in
theorem ecxReadstate_slow
    (hwkc : (ecxBroadcastRead e (x 0) 0 ectRegAlstat 2 fun _ => 0).1 = brd.1)
    (hword : wordAt (ecxBroadcastRead e (x 0) 0 ectRegAlstat 2 fun _ => 0).2 0 = brd.2)
    (h : ¬Answers slavecount brd) : ∃ slavelist' : Nat → AlSlave,
      (∀ i, i ≠ 0 → slavelist' i = slavelist i) ∧
      ecxReadstate e x slavecount slavelist =
        ((readLoop e x slavecount 1 1 (slavelist', 0xff)).2,
          setState (readLoop e x slavecount 1 1 (slavelist', 0xff)).1 0
            (readLoop e x slavecount 1 1 (slavelist', 0xff)).2) := by
  unfold Answers at h
  simp only [ecxReadstate, getWord_eq, hwkc, hword, if_neg h]
  refine ⟨_, fun i hi => ?_, rfl⟩
  rw [setStatuscode_of_ne _ _ hi]
  split_ifs <;> simp [setState_of_ne, setStatuscode_of_ne, hi]

end Branches

/-- Nothing has been read yet. -/
theorem scanned_start (found : Nat → UInt16 × UInt16) (slavelist : Nat → AlSlave) :
    Scanned found slavelist 0 (slavelist, 0xff) where
  state k hk := absurd hk (Nat.not_lt_zero k)
  statuscode k hk := absurd hk (Nat.not_lt_zero k)
  rest _ _ := rfl
  configadr _ := rfl
  lowest_le k hk := absurd hk (Nat.not_lt_zero k)
  lowest_mem := Or.inl ⟨rfl, rfl⟩

theorem foundRecord_lost {ring : List RegSlave} {back : Nat → Bool} {k : Nat}
    (h : back (k / 64 + 1) = false) : foundRecord ring back k = (0, 0) := by
  rw [foundRecord, if_neg (by rw [h]; exact Bool.false_ne_true)]

theorem foundRecord_back {ring : List RegSlave} {back : Nat → Bool} {k : Nat}
    (h : back (k / 64 + 1) = true) (hk : k < ring.length) :
    foundRecord ring back k = ring[k].record := by
  rw [foundRecord, if_pos h, List.getElem?_eq_getElem hk]
  rfl

/-- A state code and the error flag, taken apart. -/
theorem and_state_error (w : UInt16) : w &&& 0x1f = (w &&& 0xf) ||| (w &&& ecStateError) := by
  rw [← UInt16.toBitVec_inj]
  simp only [UInt16.toBitVec_and, UInt16.toBitVec_or, ← BitVec.and_or_distrib_left]
  rfl

/-- What `ecx_readstate` leaves for a ring: each slave has its state and its error flag, unless
its frame is lost, and a slave in error has its code; `r.1` is the lowest of the states. -/
structure ReadsStates (ring : List RegSlave) (slavelist : Nat → AlSlave) (back : Nat → Bool)
    (r : UInt16 × (Nat → AlSlave)) : Prop where
  state : ∀ k (hk : k < ring.length),
    (r.2 (k + 1)).state &&& 0x1f = ring[k].alstatus &&& 0x1f ∨
      back (k / 64 + 1) = false ∧ (r.2 (k + 1)).state = 0
  statuscode : ∀ k (hk : k < ring.length), ring[k].alstatus &&& ecStateError ≠ 0 →
    back (k / 64 + 1) = true → (r.2 (k + 1)).ALstatuscode = ring[k].alstatuscode
  lowest_mem : 0 < ring.length → ∃ k < ring.length, r.1 = (r.2 (k + 1)).state &&& 0xf
  lowest_le : ∀ k < ring.length, r.1 ≤ (r.2 (k + 1)).state &&& 0xf
  master : (r.2 0).state = r.1
  rest : ∀ i, ring.length < i → r.2 i = slavelist i

section Result

variable {ring : List RegSlave} {slavelist : Nat → AlSlave} {back : Nat → Bool}

/-- The slaves have been read one by one. -/
theorem Scanned.readsStates {slavelist' : Nat → AlSlave}
    (hsame : ∀ i, i ≠ 0 → slavelist' i = slavelist i) {acc : (Nat → AlSlave) × UInt16}
    (h : Scanned (foundRecord ring back) slavelist' ring.length acc) :
    ReadsStates ring slavelist back (acc.2, setState acc.1 0 acc.2) := by
  have hkept : ∀ k, setState acc.1 0 acc.2 (k + 1) = acc.1 (k + 1) :=
    fun k => setState_of_ne _ _ (Nat.succ_ne_zero k)
  refine ⟨?_, ?_, ?_, ?_, setState_state _ _ _, ?_⟩ <;> dsimp only
  · intro k hk
    rw [hkept, h.state k hk]
    cases hback : back (k / 64 + 1) with
    | false => exact Or.inr ⟨rfl, by rw [foundRecord_lost hback]⟩
    | true =>
        rw [foundRecord_back hback hk]
        exact Or.inl rfl
  · intro k hk _ hback
    rw [hkept, h.statuscode k hk, foundRecord_back hback hk]
    rfl
  · intro hpos
    rcases h.lowest_mem with ⟨hzero, -⟩ | ⟨k, hk, hlow⟩
    · exact absurd hzero (Nat.ne_of_gt hpos)
    · refine ⟨k, hk, ?_⟩
      rw [hkept, h.state k hk]
      exact hlow
  · intro k hk
    rw [hkept, h.state k hk]
    exact h.lowest_le k hk
  · intro i hi
    rw [setState_of_ne _ _ (by omega), h.rest i hi, hsame i (by omega)]

/-- The broadcast has answered for all slaves. -/
theorem Answers.readsStates (hstates : ∀ s ∈ ring, s.alstatus &&& 0xf ≠ 0)
    (h : Answers ring.length (ecxBrd (pollOf ring (back 0)) 0)) :
    ReadsStates ring slavelist back ((ecxBrd (pollOf ring (back 0)) 0).2 &&& 0x0f,
      (List.range' 1 ring.length).foldl
        (fun slavelist slave => setState (setStatuscode slavelist slave 0) slave
          ((ecxBrd (pollOf ring (back 0)) 0).2 &&& 0x0f))
        (setState (setStatuscode slavelist 0 0) 0
          ((ecxBrd (pollOf ring (back 0)) 0).2 &&& 0x0f))) := by
  obtain ⟨hnoerror, hsame, hpresent⟩ := h
  cases hback : back 0 with
  | false =>
      -- a lost broadcast has no work counter
      rw [hback] at hpresent
      simp [pollOf, ecxBrd, ecNoFrame] at hpresent
      omega
  | true =>
      rw [hback, ecxBrd_ring] at hnoerror hsame
      rw [ecxBrd_ring]
      dsimp only at hnoerror hsame ⊢
      generalize hrval : ring.foldl (fun word s => word ||| s.alstatus) 0 = rval at hnoerror hsame
      obtain ⟨hmarked, hrest⟩ := markAll
        (setState (setStatuscode slavelist 0 0) 0 (rval &&& 0x0f)) ring.length (rval &&& 0x0f)
      have hslave := fun s (hs : s ∈ ring) =>
        state_of_joined hstates hrval.symm hnoerror hsame hs
      have hidem : (rval &&& 0x0f) &&& 0xf = rval &&& 0x0f := by
        rw [UInt16.and_assoc]
        rfl
      refine ⟨?_, ?_, ?_, ?_, ?_, ?_⟩ <;> dsimp only
      · intro k hk
        obtain ⟨hstate, herror⟩ := hslave ring[k] (List.getElem_mem hk)
        left
        rw [(hmarked k hk).1, and_state_error ring[k].alstatus, hstate, herror, UInt16.or_zero,
          UInt16.and_assoc]
        rfl
      · intro k hk herror
        exact absurd (hslave ring[k] (List.getElem_mem hk)).2 herror
      · intro hpos
        exact ⟨0, hpos, by rw [(hmarked 0 hpos).1, hidem]⟩
      · intro k hk
        rw [(hmarked k hk).1, hidem]
        exact UInt16.le_refl _
      · rw [hrest 0 (Or.inl rfl), setState_state]
      · intro i hi
        rw [hrest i (Or.inr hi), setState_of_ne _ _ (by omega), setStatuscode_of_ne _ _ (by omega)]

end Result

/-- On a ring in which every slave is in some state, `ecx_readstate` finds all states, by
broadcast or slave by slave, with whatever frames are lost. -/
theorem ecxReadstate_reads (e : Endian) {x : Nat → FrameExchange} {ring : List RegSlave}
    {slavelist : Nat → AlSlave} {back : Nat → Bool} (hlists : Lists slavelist ring)
    (hcount : ring.length < ecMaxSlave) (hwire : ∀ c, (x c).wire = ringWire ring (back c))
    (hstates : ∀ s ∈ ring, s.alstatus &&& 0xf ≠ 0) :
    ReadsStates ring slavelist back (ecxReadstate e x ring.length slavelist) := by
  obtain ⟨hwkc, hword⟩ := ecxBroadcastRead_eq e hcount (hwire 0)
  by_cases hanswers : Answers ring.length (ecxBrd (pollOf ring (back 0)) 0)
  · rw [ecxReadstate_fast e hwkc hword hanswers]
    exact hanswers.readsStates hstates
  · obtain ⟨slavelist', hsame, hr⟩ :=
      ecxReadstate_slow e slavelist hwkc hword hanswers
    have hlists' : Lists slavelist' ring := by
      refine ⟨hlists.nodup, fun k hk => ?_⟩
      rw [hsame (k + 1) (Nat.succ_ne_zero k)]
      exact hlists.configadr k hk
    have hscanned := readLoop_scanned e hlists' hwire (c := 0) (Nat.zero_le _)
      (scanned_start (foundRecord ring back) slavelist')
    rw [hr]
    exact hscanned.readsStates hsame

/-- A slave whose AL status and AL status code fit one byte each. -/
def alSlave (configadr : UInt16) (status code : UInt8) : RegSlave where
  configadr := configadr
  regs a := if a = 0x130 then status else if a = 0x134 then code else 0

/-- One slave is in error, and the broadcast gets lost. -/
theorem ecxReadstate_reads_error :
    let ring := [alSlave 0x1001 0x08 0, alSlave 0x1002 0x14 0x1b]
    let slavelist : Nat → AlSlave := fun i => ⟨0x1000 + .ofNat i, 0, 0⟩
    let back : Nat → Bool := fun c => c != 0
    let x : Nat → FrameExchange :=
      fun c => ⟨.ofNat c, fun _ => 0xee, fun _ => 0, ringWire ring (back c)⟩
    ReadsStates ring slavelist back (ecxReadstate .little x 2 slavelist) := by
  intro ring slavelist back x
  apply ecxReadstate_reads .little _ (by decide) (fun _ => rfl) (by decide)
  refine ⟨by decide, fun k hk => ?_⟩
  match k, hk with
  | 0, _ => rfl
  | 1, _ => rfl

end RaipalSoem

import RaipalSoem.Lib.Linked
import RaipalSoem.Topology

/-!
# Distributed clocks

`ecx_configdc` latches the receive times of all slaves, chains the slaves with distributed
clocks and measures how long a frame takes to each of them.
-/

namespace RaipalSoem

open Lib

/-- The fields of `ec_slavet` that the delay measurement writes, the consumed ports apart.
The two ports are bytes, which need not be port numbers. -/
structure DcSlave where
  DCrtA : Int32
  DCrtB : Int32
  DCrtC : Int32
  DCrtD : Int32
  entryport : Nat
  parentport : Nat
  pdelay : Int32
  deriving DecidableEq, Repr

/-- The list of the slaves with distributed clocks: `slavelist[0].hasdc`, the fields
`DCnext` and `DCprevious`, and the first such slave in its group. -/
structure DcChain where
  hasdc : Bool
  DCnext : Nat → Nat
  DCprevious : Nat → Nat
  groupHasdc : Nat → Bool
  groupDCnext : Nat → Nat
  prevDCslave : Nat

/-- A register that the measurement writes. -/
inductive DcWrite
  | sysOffset (slave : Nat) (value : UInt64)
  | sysDelay (slave : Nat) (value : Int32)
  deriving DecidableEq, Repr

/-- What the reads of a slave's DC registers bring; `none` leaves the variable as it is. -/
structure DcReads where
  time : Fin 4 → Option Int32
  sof : Option UInt64

/-- The variables of `ecx_configdc`. `plist` is the first entry of the array, which outlives
a turn and before the first one holds whatever is on the stack. -/
structure DcState where
  slavelist : Nat → DcSlave
  consumedports : Nat → UInt8
  chain : DcChain
  parenthold : Nat
  plist : Nat
  ht : Int32
  hrt : UInt64
  writes : List DcWrite

/-- `ecx_porttime`: latched port time of a slave. -/
def ecxPorttime (s : DcSlave) : Nat → Int32
  | 0 => s.DCrtA
  | 1 => s.DCrtB
  | 2 => s.DCrtC
  | 3 => s.DCrtD
  | _ => 0

/-- The first of some ports that is active. -/
def firstActive (aport : UInt8) (port : Nat) : List (Fin 4) → Nat
  | [] => port
  | p :: ps => if aport &&& portM p ≠ 0 then p else firstActive aport port ps

/-- `ecx_prevport`: previous active port of a slave. -/
def ecxPrevport (aport : UInt8) (port : Nat) : Nat :=
  match port with
  | 0 => firstActive aport port [2, 1, 3]
  | 1 => firstActive aport port [3, 0, 2]
  | 2 => firstActive aport port [1, 3, 0]
  | 3 => firstActive aport port [0, 2, 1]
  | _ => port

/-- `ecx_parentport`: the first open port in the order 3, 1, 2, 0, and the ports left. -/
def ecxParentport (b : UInt8) : Fin 4 × UInt8 :=
  if b &&& portM 3 ≠ 0 then (3, b &&& ~~~(portM 3))
  else if b &&& portM 1 ≠ 0 then (1, b &&& ~~~(portM 1))
  else if b &&& portM 2 ≠ 0 then (2, b &&& ~~~(portM 2))
  else if b &&& portM 0 ≠ 0 then (0, b &&& ~~~(portM 0))
  else (0, b)

/-- What a turn enters in `plist` and `tlist`: the active ports and their time stamps. -/
def portTimes (aport : UInt8) (s : DcSlave) : List (Fin 4 × Int32) :=
  ([0, 3, 1, 2].filter fun p => aport &&& portM p ≠ 0).map fun p => (p, ecxPorttime s p)

/-- The port with the lowest time stamp, the first one of several. Without an active port it
is what was left in `plist`. -/
def lowestPort (plist : Nat) : List (Fin 4 × Int32) → Nat
  | [] => plist
  | pt :: pts => (pts.foldl (fun low pt => if pt.2 < low.2 then pt else low) pt).1

/-- Append slave `i` of group `group` to the list. -/
def DcChain.link (c : DcChain) (group i : Nat) : DcChain :=
  if c.hasdc then
    { c with
      DCnext := Function.update c.DCnext c.prevDCslave i
      DCprevious := Function.update c.DCprevious i c.prevDCslave
      prevDCslave := i }
  else
    { hasdc := true
      DCnext := Function.update c.DCnext 0 i
      DCprevious := Function.update c.DCprevious i 0
      groupHasdc := Function.update c.groupHasdc group true
      groupDCnext := Function.update c.groupDCnext group i
      prevDCslave := i }

/-- The search for the DC parent: the last slave on the way and the parent. The fuel is
the number of slaves on the way. -/
def dcParent (topo : Nat → SlaveTopology) : Nat → Nat → Option (Nat × Nat)
  | 0, _ => none
  | fuel + 1, child =>
      let parent := (topo child).parent
      if parent = 0 ∨ (topo parent).hasdc then some (child, parent)
      else dcParent topo fuel parent

/-- The reads of a DC slave and the write of its system time offset. -/
def dcLatch (reads : DcReads) (mastertime64 : UInt64) (st : DcState) (i : Nat) : DcState :=
  let htA := (reads.time 0).getD st.ht
  let hrt := mastertime64 - reads.sof.getD st.hrt
  let htB := (reads.time 1).getD htA
  let htC := (reads.time 2).getD htB
  let htD := (reads.time 3).getD htC
  { st with
    slavelist := Function.update st.slavelist i
      { st.slavelist i with DCrtA := htA, DCrtB := htB, DCrtC := htC, DCrtD := htD }
    ht := htD
    hrt := hrt
    writes := st.writes ++ [.sysOffset i hrt] }

/-- `1 << entryport`, as a byte. In C the shift of an `int` by more than 30 is undefined;
here it leaves no bit, as one by more than 7 does. -/
def entryBit (entryport : Nat) : UInt8 := UInt8.ofNat (1 <<< entryport)

/-- The entry port of a DC slave, which is consumed. -/
def dcEntry (topo : Nat → SlaveTopology) (st : DcState) (i : Nat) : DcState :=
  let active := portTimes (topo i).activeports (st.slavelist i)
  let entryport := lowestPort st.plist active
  { st with
    slavelist := Function.update st.slavelist i { st.slavelist i with entryport := entryport }
    consumedports :=
      Function.update st.consumedports i (st.consumedports i &&& ~~~(entryBit entryport))
    plist := (active.head?.map fun pt => pt.1.val).getD st.plist }

/-- The propagation delay of slave `i`, which hangs below `parent` behind `child`. -/
def dcDelay (topo : Nat → SlaveTopology) (st : DcState) (i child parent : Nat) : DcState :=
  let (open_, left) := ecxParentport (st.consumedports parent)
  let parentport :=
    if (topo parent).topology = 1 then (st.slavelist parent).entryport else open_
  let slavelist := Function.update st.slavelist i
    { st.slavelist i with parentport := parentport }
  let ofParent := ecxPorttime (slavelist parent)
  let ofSlave := ecxPorttime (slavelist i)
  let before := ecxPrevport (topo parent).activeports parentport
  let dt3 := ofParent parentport - ofParent before
  let dt1 :=
    if 1 < (topo i).topology then
      ofSlave (ecxPrevport (topo i).activeports (slavelist i).entryport) -
        ofSlave (slavelist i).entryport
    else 0
  let dt1 := if dt3 < dt1 then -dt1 else dt1
  let dt2 :=
    if parent + 1 < child then ofParent before - ofParent (slavelist parent).entryport else 0
  let dt2 := if dt2 < 0 then -dt2 else dt2
  let pdelay := (dt3 - dt1) / 2 + dt2 + (slavelist parent).pdelay
  { st with
    slavelist := Function.update slavelist i { slavelist i with pdelay := pdelay }
    consumedports := Function.update st.consumedports parent left
    ht := pdelay
    writes := st.writes ++ [.sysDelay i pdelay] }

/-- A slave without distributed clocks: hold the parent of a branch that starts with it,
and consume the parent's port at the end of a branch without distributed clocks. -/
def dcSkip (topo : Nat → SlaveTopology) (st : DcState) (i : Nat) : DcState :=
  let parent := (topo i).parent
  let parenthold := if 0 < parent ∧ 2 < (topo parent).topology then parent else st.parenthold
  let st := { st with
    slavelist := Function.update st.slavelist i
      { st.slavelist i with DCrtA := 0, DCrtB := 0, DCrtC := 0, DCrtD := 0 } }
  if parenthold ≠ 0 ∧ (topo i).topology = 1 then
    { st with
      consumedports := Function.update st.consumedports parenthold
        (ecxParentport (st.consumedports parenthold)).2
      parenthold := 0 }
  else { st with parenthold := parenthold }

/-- One turn of the loop over the slaves. -/
def dcStep (topo : Nat → SlaveTopology) (group : Nat → Nat) (reads : Nat → DcReads)
    (mastertime64 : UInt64) (st : DcState) (i : Nat) : Option DcState :=
  let st := { st with
    consumedports := Function.update st.consumedports i (topo i).activeports }
  if (topo i).hasdc then
    let st := { st with chain := st.chain.link (group i) i, parenthold := 0 }
    let st := dcEntry topo (dcLatch (reads i) mastertime64 st i) i
    (dcParent topo i i).map fun (child, parent) =>
      if 0 < parent then dcDelay topo st i child parent else st
  else some (dcSkip topo st i)

/-- `n` turns of the loop, from slave `i` on. -/
def dcLoop (topo : Nat → SlaveTopology) (group : Nat → Nat) (reads : Nat → DcReads)
    (mastertime64 : UInt64) : Nat → Nat → DcState → Option DcState
  | 0, _, st => some st
  | n + 1, i, st =>
      (dcStep topo group reads mastertime64 st i).bind
        (dcLoop topo group reads mastertime64 n (i + 1))

/-- `ecx_configdc`: the state after the loop; `slavelist[0].hasdc` is the result. -/
def ecxConfigdc (topo : Nat → SlaveTopology) (group : Nat → Nat) (reads : Nat → DcReads)
    (mastertime64 : UInt64) (slavecount : Nat) (st : DcState) : Option DcState :=
  dcLoop topo group reads mastertime64 slavecount 1
    { st with
      chain := { st.chain with
        hasdc := false
        groupHasdc := Function.update st.chain.groupHasdc 0 false
        prevDCslave := 0 }
      parenthold := 0
      ht := 0
      writes := [] }

section Turns

variable {topo : Nat → SlaveTopology} {group : Nat → Nat} {reads : Nat → DcReads}
  {mastertime64 : UInt64}

/-- The state in which `dcStep` looks for the parent of a DC slave. -/
def dcEnter (topo : Nat → SlaveTopology) (group : Nat → Nat) (reads : Nat → DcReads)
    (mastertime64 : UInt64) (st : DcState) (i : Nat) : DcState :=
  dcEntry topo (dcLatch (reads i) mastertime64
    { st with
      consumedports := Function.update st.consumedports i (topo i).activeports
      chain := st.chain.link (group i) i
      parenthold := 0 } i) i

theorem dcStep_of_hasdc {st : DcState} {i child parent : Nat} (h : (topo i).hasdc)
    (hparent : dcParent topo i i = some (child, parent)) :
    dcStep topo group reads mastertime64 st i =
      some (if 0 < parent then
        dcDelay topo (dcEnter topo group reads mastertime64 st i) i child parent
      else dcEnter topo group reads mastertime64 st i) := by
  simp only [dcStep, h, if_true, hparent, Option.map_some]
  rfl

theorem dcStep_of_not_hasdc {st : DcState} {i : Nat} (h : (topo i).hasdc = false) :
    dcStep topo group reads mastertime64 st i =
      some (dcSkip topo { st with
        consumedports := Function.update st.consumedports i (topo i).activeports } i) := by
  simp [dcStep, h]

/-- With parents before their children the search for the DC parent ends. -/
theorem dcParent_isSome {i fuel : Nat} (hparent : ∀ j, 0 < j → j ≤ i → (topo j).parent < j)
    (hi : 0 < i) (hfuel : i ≤ fuel) : (dcParent topo fuel i).isSome := by
  induction fuel generalizing i with
  | zero => omega
  | succ fuel ih =>
      simp only [dcParent]
      split_ifs with hend
      · rfl
      · have hlt := hparent i hi le_rfl
        simp only [not_or] at hend
        exact ih (fun j hj hji => hparent j hj (by omega)) (by omega) (by omega)

variable (group reads mastertime64) in
/-- A turn of the loop links the slave if it has distributed clocks. -/
theorem dcStep_chain (st : DcState) {i : Nat} (hi : 0 < i)
    (hparent : ∀ j, 0 < j → j ≤ i → (topo j).parent < j) :
    ∃ st', dcStep topo group reads mastertime64 st i = some st' ∧
      st'.chain = if (topo i).hasdc then st.chain.link (group i) i else st.chain := by
  cases hdc : (topo i).hasdc with
  | true =>
      obtain ⟨⟨child, parent⟩, hsome⟩ :=
        Option.isSome_iff_exists.mp (dcParent_isSome hparent hi le_rfl)
      refine ⟨_, dcStep_of_hasdc hdc hsome, ?_⟩
      rw [if_pos rfl]
      split_ifs <;> rfl
  | false =>
      refine ⟨_, dcStep_of_not_hasdc hdc, ?_⟩
      simp only [dcSkip, Bool.false_eq_true, if_false]
      split_ifs <;> rfl

variable (group reads mastertime64) in
theorem dcLoop_chain {n i : Nat} (hi : 0 < i)
    (hparent : ∀ j, 0 < j → j < i + n → (topo j).parent < j) (st : DcState) :
    ∃ st', dcLoop topo group reads mastertime64 n i st = some st' ∧
      st'.chain = ((List.range' i n).filter fun j => (topo j).hasdc).foldl
        (fun c j => c.link (group j) j) st.chain := by
  induction n generalizing i st with
  | zero => exact ⟨st, rfl, rfl⟩
  | succ n ih =>
      obtain ⟨st1, hstep, hchain1⟩ := dcStep_chain group reads mastertime64 st hi
        fun j hj hji => hparent j hj (by omega)
      obtain ⟨st2, hrun, hchain2⟩ := ih (i := i + 1) (by omega)
        (fun j hj hji => hparent j hj (by omega)) st1
      refine ⟨st2, by simp only [dcLoop, hstep, Option.bind_some, hrun], ?_⟩
      rw [hchain2, hchain1, List.range'_succ, List.filter_cons]
      split_ifs <;> rfl

/-- Linking slaves one after the other builds a doubly linked list behind slave 0. -/
theorem linked_foldl_link (group : Nat → Nat) {c : DcChain} (hc : c.hasdc = false) {xs : List Nat}
    (hnodup : (0 :: xs).Nodup) :
    let c' := xs.foldl (fun c j => c.link (group j) j) c
    c'.hasdc = !xs.isEmpty ∧ (xs ≠ [] → c'.prevDCslave = lastOf 0 xs) ∧
      Linked c'.DCnext c'.DCprevious 0 xs ∧
      c'.DCnext (lastOf 0 xs) = c.DCnext (lastOf 0 xs) ∧
      (∀ j ∉ 0 :: xs, c'.DCnext j = c.DCnext j) ∧
      ∀ first, xs.head? = some first →
        c'.groupHasdc (group first) = true ∧ c'.groupDCnext (group first) = first := by
  induction xs using List.reverseRecOn with
  | nil => simp [hc, Linked]
  | append_singleton xs x ih =>
      have hsplit : (0 :: xs).Nodup ∧ x ∉ 0 :: xs := by
        rw [← List.cons_append, List.nodup_append] at hnodup
        refine ⟨hnodup.1, fun hx => hnodup.2.2 x hx x (by simp) rfl⟩
      obtain ⟨hhas, hlast, hlinked, hend, hout, hgroup⟩ := ih hsplit.1
      have happend := hlinked.append hsplit.1 hsplit.2
      simp only [List.foldl_append, List.foldl_cons, List.foldl_nil]
      generalize xs.foldl (fun c j => c.link (group j) j) c = d at *
      have hne : x ≠ lastOf 0 xs := fun he => hsplit.2 (he ▸ lastOf_mem 0 xs)
      have hempty : (xs ++ [x]).isEmpty = false := by simp
      rw [hempty, lastOf_append_singleton]
      cases xs with
      | nil =>
          simp only [List.isEmpty_nil, Bool.not_true] at hhas
          simp only [DcChain.link, hhas, Bool.false_eq_true, if_false]
          refine ⟨rfl, fun _ => trivial, happend, ?_, ?_, ?_⟩
          · exact (Function.update_of_ne hne _ _).trans (hout x hsplit.2)
          · intro j hj
            simp only [List.nil_append, List.mem_cons, List.not_mem_nil, or_false, not_or] at hj
            rw [Function.update_of_ne hj.1]
            exact hout j (by simpa using hj.1)
          · intro first hfirst
            cases hfirst
            exact ⟨Function.update_self .., Function.update_self ..⟩
      | cons y ys =>
          simp only [List.isEmpty_cons, Bool.not_false] at hhas
          have hprev := hlast (by simp)
          simp only [DcChain.link, hhas, if_true, hprev]
          refine ⟨by simp, fun _ => trivial, happend, ?_, ?_, hgroup⟩
          · rw [Function.update_of_ne hne]
            exact hout x hsplit.2
          · intro j hj
            have hj' : j ∉ 0 :: y :: ys := fun h => hj (by
              rw [← List.cons_append]
              exact List.mem_append_left _ h)
            have hjl : j ≠ lastOf 0 (y :: ys) := fun he => hj' (he ▸ lastOf_mem 0 (y :: ys))
            rw [Function.update_of_ne hjl]
            exact hout j hj'

/-- Whatever the slaves report, `ecx_configdc` ends, and the slaves with distributed clocks
are then a doubly linked list behind slave 0, in order and with none missing. -/
theorem ecxConfigdc_links (status : Nat → SlaveStatus) (slavelist : Nat → SlaveTopology)
    (group : Nat → Nat) (reads : Nat → DcReads) (mastertime64 : UInt64) (slavecount : Nat)
    (st : DcState) :
    let topo := configTopologies status slavelist slavecount
    let dcs := (List.range' 1 slavecount).filter fun j => (topo j).hasdc
    ∃ st', ecxConfigdc topo group reads mastertime64 slavecount st = some st' ∧
      st'.chain.hasdc = !dcs.isEmpty ∧
      Linked st'.chain.DCnext st'.chain.DCprevious 0 dcs ∧
      st'.chain.DCnext (lastOf 0 dcs) = st.chain.DCnext (lastOf 0 dcs) ∧
      ∀ first, dcs.head? = some first →
        st'.chain.groupHasdc (group first) = true ∧
        st'.chain.groupDCnext (group first) = first := by
  intro topo dcs
  have hparent : ∀ j, 0 < j → j < 1 + slavecount → (topo j).parent < j := by
    intro j hj hjn
    have hplaced : topo j = placed status j :=
      configTopologies_eq_placed status slavelist hj (by omega)
    rw [hplaced]
    exact placed_parent_lt status hj
  have hnodup : (0 :: dcs).Nodup := by
    refine List.nodup_cons.mpr ⟨?_, (List.nodup_range' 1).filter _⟩
    intro h
    obtain ⟨i, -, hi⟩ := List.mem_range'.mp (List.mem_of_mem_filter h)
    omega
  obtain ⟨st', hrun, hchain⟩ := dcLoop_chain group reads mastertime64 Nat.one_pos hparent
    { st with
      chain := { st.chain with
        hasdc := false
        groupHasdc := Function.update st.chain.groupHasdc 0 false
        prevDCslave := 0 }
      parenthold := 0
      ht := 0
      writes := [] }
  obtain ⟨hhas, -, hlinked, hend, -, hgroup⟩ :=
    linked_foldl_link group (show DcChain.hasdc
      { st.chain with
        hasdc := false
        groupHasdc := Function.update st.chain.groupHasdc 0 false
        prevDCslave := 0 } = false from rfl) hnodup
  refine ⟨st', hrun, ?_⟩
  rw [hchain]
  exact ⟨hhas, hlinked, hend, hgroup⟩

end Turns

end RaipalSoem

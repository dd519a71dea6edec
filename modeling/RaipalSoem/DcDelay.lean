import RaipalSoem.FrameTimes

/-!
# Propagation delays

From the local times that the slaves have latched `ecx_configdc` recovers how much later
than at the first slave with distributed clocks a frame arrives at each of them, provided
that slaves without distributed clocks do not branch. The proof follows the tree of the
bus: below a slave with distributed clocks, in a branch that starts with slaves without
them, and before the first slave that has them.
-/

namespace RaipalSoem

open Lib

variable {topo : Nat → SlaveTopology} {group : Nat → Nat} {reads : Nat → DcReads}
  {mastertime64 : UInt64}

/-- All reads of a slave bring the times of a visit. -/
def Latched (r : DcReads) (v : Visit) : Prop :=
  ∃ time : Fin 4 → Int32, (∀ p, r.time p = some (time p)) ∧
    (time v.station.entry).toInt = v.station.clock + v.arrival ∧
    ∀ x ∈ v.returns, (time x.1).toInt = v.station.clock + x.2

/-- The visit of the slave `a` with the slaves `behind` it, at time `t`. -/
abbrev visitAt (a : Station) (d : Option (Fin 4)) (t : Nat) (behind : Forest Station) : Visit :=
  ⟨a, d, t, returns t behind⟩

/-- A slave `k` has been entered: its times and its entry port are known, the port is
consumed, and nothing else has changed. -/
structure Entered (v : Visit) (k : Nat) (st st' : DcState) : Prop where
  stamped : Stamped v (st'.slavelist k)
  entryport : (st'.slavelist k).entryport = v.station.entry
  pdelay : (st'.slavelist k).pdelay = (st.slavelist k).pdelay
  consumed : st'.consumedports k = portMask (v.returns.map Prod.fst)
  hold : st'.parenthold = 0
  slaves : ∀ j, j ≠ k → st'.slavelist j = st.slavelist j
  ports : ∀ j, j ≠ k → st'.consumedports j = st.consumedports j

variable (group mastertime64) in
/-- The first part of the turn of a DC slave. -/
theorem entered_dcEnter {a : Station} {d : Option (Fin 4)} {behind : Forest Station}
    {k t parent : Nat} (htopo : topo k = inPlace (a, behind.roots) parent)
    (horder : InFrameOrder (a, behind.roots)) (hcables : ∀ n ∈ behind.nodes, 0 < n.1.cable)
    (hlatched : Latched (reads k) (visitAt a d t behind)) (st : DcState) :
    Entered (visitAt a d t behind) k st
      (dcEnter topo group reads mastertime64 st k) := by
  obtain ⟨time, hread, hentry, hreturns⟩ := hlatched
  have hports : links (a, behind.roots) = a.entry :: (returns t behind).map Prod.fst := by
    rw [map_fst_returns, links]
  have hstamped (s : DcSlave) (hs : ∀ p : Fin 4, ecxPorttime s p = time p) :
      Stamped (visitAt a d t behind) s :=
    ⟨by rw [hs]; exact hentry, fun x hx => by rw [hs]; exact hreturns x hx⟩
  have htimes (s : DcSlave) (p : Fin 4) :
      ecxPorttime { s with
        DCrtA := time 0, DCrtB := time 1, DCrtC := time 2, DCrtD := time 3 } p = time p := by
    fin_cases p <;> rfl
  have hlow := lowestPort_of_stamped (hstamped _ (htimes (st.slavelist k)))
    (fun x hx => lt_of_mem_returns hcables hx) st.plist
  have hmask : portMask (links (a, behind.roots)) &&& ~~~(entryBit a.entry) =
      portMask ((returns t behind).map Prod.fst) := by
    have hagree := portsAgree_of_order horder
    simp only [portsAgree, Bool.and_eq_true, beq_iff_eq] at hagree
    rw [map_fst_returns, links]
    exact hagree.1.2
  have hactive : (topo k).activeports =
      portMask (a.entry :: (returns t behind).map Prod.fst) := by
    rw [htopo, inPlace, hports]
  constructor
  · simp only [dcEnter, dcEntry, dcLatch, Function.update_self, hread, Option.getD_some]
    exact hstamped _ fun p => by fin_cases p <;> rfl
  · simp only [dcEnter, dcEntry, dcLatch, Function.update_self, hread, Option.getD_some,
      hactive]
    exact hlow
  · simp [dcEnter, dcEntry, dcLatch]
  · simp only [dcEnter, dcEntry, dcLatch, Function.update_self, hread, Option.getD_some,
      hactive]
    rw [hlow, ← hports]
    exact hmask
  · rfl
  · intro j hj
    simp [dcEnter, dcEntry, dcLatch, hj]
  · intro j hj
    simp [dcEnter, dcEntry, dcLatch, hj]

/-- The time behind a slave, as the difference of its last and its first time stamp. -/
theorem toInt_stay {a : Station} {d : Option (Fin 4)} {behind : Forest Station} {t : Nat}
    (horder : InFrameOrder (a, behind.roots)) {s : DcSlave}
    (hs : Stamped (visitAt a d t behind) s) (htrip : trip behind < 2147483648) :
    (if 1 < 1 + behind.roots.length then
      ecxPorttime s (ecxPrevport (portMask (links (a, behind.roots))) a.entry) -
        ecxPorttime s a.entry
    else 0).toInt = trip behind := by
  have hports := map_fst_returns t behind
  cases behind with
  | empty => simp [Forest.roots, trip]
  | node b behind' others =>
      have hne : returns t (.node b behind' others) ≠ [] := by simp [returns]
      have hagree := portsAgree_of_order horder
      simp only [portsAgree, Bool.and_eq_true, Bool.or_eq_true, beq_iff_eq] at hagree
      -- the last port before the entry is that of the last return
      have hlast : ecxPrevport (portMask (links (a, (Forest.node b behind' others).roots)))
          a.entry = ((returns t (.node b behind' others)).getLast hne).1 := by
        have h := hagree.2.resolve_left (by simp [Forest.roots])
        rw [← hports, List.getLast?_map, List.getLast?_eq_some_getLast hne] at h
        rw [links, ← hports]
        exact Option.some.inj h
      have hstamp := hs.returns _ (List.getLast_mem hne)
      rw [getLast_returns hne, ← hlast] at hstamp
      rw [if_pos (by simp [Forest.roots])]
      have hdiff := toInt_sub_of_near (x := (t + trip (.node b behind' others) : Nat))
        (y := t) hstamp hs.entry (by omega) (by omega)
      rw [hdiff]
      omega

/-- The place where a branch hangs: the frame left slave `parent` for port `q` at time
`left` and came back at time `back`; `child` is the first slave of the branch, and `base`
the time from which the delays count. -/
structure Dock (t : SlaveTopology) (s : DcSlave) (base parent child : Nat) (q : Fin 4)
    (left back : Nat) : Prop where
  branched : t.topology ≠ 1
  times : ∃ (clock : Int) (arrival : Nat),
    (ecxPorttime s q).toInt = clock + back ∧
    (ecxPorttime s (ecxPrevport t.activeports q)).toInt = clock + left ∧
    (ecxPorttime s s.entryport).toInt = clock + arrival ∧
    s.pdelay.toInt = arrival - base ∧
    base ≤ arrival ∧ arrival ≤ left ∧ (parent + 1 < child ∨ left = arrival)

/-- What the turn of a DC slave leaves behind. -/
structure Measured (base : Nat) (v : Visit) (s : DcSlave) : Prop where
  entryport : s.entryport = v.station.entry
  parentport : ∀ q : Fin 4, v.dock = some q → s.parentport = q
  pdelay : s.pdelay.toInt = v.arrival - base

/-- The turn of a DC slave in a branch that hangs at port `q` of `parent`: on its way from
there the frame has passed slaves without branches only. -/
theorem dcDelay_measured {a : Station} {behind : Forest Station} {base k up t parent child
      left back : Nat} {q : Fin 4} {rest : UInt8} {st st' : DcState}
    (htopo : topo k = inPlace (a, behind.roots) up)
    (horder : InFrameOrder (a, behind.roots))
    (hentered : Entered (visitAt a (some q) t behind) k st st') (hlt : parent < k)
    (hdock : Dock (topo parent) (st'.slavelist parent) base parent child q left back)
    (hopen : ecxParentport (st'.consumedports parent) = (q, rest))
    (hway : left ≤ t ∧ back = t + trip behind + (t - left)) (hback : back < 2147483648) :
    let after := dcDelay topo st' k child parent
    Measured base (visitAt a (some q) t behind) (after.slavelist k) ∧
      Stamped (visitAt a (some q) t behind) (after.slavelist k) ∧
      after.consumedports parent = rest ∧ after.parenthold = st'.parenthold ∧
      (∀ j, j ≠ k → after.slavelist j = st'.slavelist j) ∧
      (∀ j, j ≠ parent → after.consumedports j = st'.consumedports j) := by
  intro after
  obtain ⟨clock, arrival, htback, htleft, htentry, hdelay, hbase, hleft, hfirst⟩ := hdock.times
  have hne : parent ≠ k := Nat.ne_of_lt hlt
  have hstamped := hentered.stamped
  have hstay := toInt_stay horder hstamped (by omega)
  -- the way behind the port, there and back
  have hdt3 : (ecxPorttime (st'.slavelist parent) q -
      ecxPorttime (st'.slavelist parent) (ecxPrevport (topo parent).activeports q)).toInt =
        2 * (t - left : Nat) + trip behind := by
    have h := toInt_sub_of_near (x := (back : Nat)) (y := (left : Nat)) htback htleft
      (by omega) (by omega)
    rw [h]
    omega
  -- the way of the branches before this one
  have hdt2 : (if parent + 1 < child then
      ecxPorttime (st'.slavelist parent) (ecxPrevport (topo parent).activeports q) -
        ecxPorttime (st'.slavelist parent) (st'.slavelist parent).entryport else 0).toInt =
        (left - arrival : Nat) := by
    split_ifs with hchild
    · have h := toInt_sub_of_near (x := (left : Nat)) (y := (arrival : Nat)) htleft htentry
        (by omega) (by omega)
      rw [h]
      omega
    · have h0 : left = arrival := hfirst.resolve_left hchild
      simp [h0]
  have hsum := toInt_delaySum hdt3 hstay hdt2 (b := arrival - base) (by rw [hdelay]; omega)
    (by omega)
  have htopology : (topo k).topology = 1 + behind.roots.length := by rw [htopo]; rfl
  have hactive : (topo k).activeports = portMask (links (a, behind.roots)) := by
    rw [htopo]; rfl
  have hslave : after.slavelist k =
      { st'.slavelist k with
        parentport := q
        pdelay := delaySum
          (ecxPorttime (st'.slavelist parent) q -
            ecxPorttime (st'.slavelist parent) (ecxPrevport (topo parent).activeports q))
          (if 1 < 1 + behind.roots.length then
            ecxPorttime (st'.slavelist k)
              (ecxPrevport (portMask (links (a, behind.roots))) a.entry) -
            ecxPorttime (st'.slavelist k) a.entry else 0)
          (if parent + 1 < child then
            ecxPorttime (st'.slavelist parent) (ecxPrevport (topo parent).activeports q) -
              ecxPorttime (st'.slavelist parent) (st'.slavelist parent).entryport else 0)
          (st'.slavelist parent).pdelay } := by
    simp only [after, dcDelay, hopen, hdock.branched, if_false, Function.update_self,
      Function.update_of_ne hne, htopology, hactive, hentered.entryport]
    rfl
  refine ⟨⟨?_, ?_, ?_⟩, ⟨?_, ?_⟩, ?_, ?_, ?_, ?_⟩
  · rw [hslave]
    exact hentered.entryport
  · intro q' hq'
    rw [hslave]
    exact congrArg Fin.val (Option.some.inj hq')
  · rw [hslave]
    simp only [hsum]
    omega
  · rw [hslave]
    exact hstamped.entry
  · intro x hx
    rw [hslave]
    exact hstamped.returns x hx
  · simp [after, dcDelay, hopen]
  · simp [after, dcDelay, hopen]
  · intro j hj
    simp [after, dcDelay, hopen, hj]
  · intro j hj
    simp [after, dcDelay, hopen, hj]

theorem dcLoop_add (n m k : Nat) (st : DcState) :
    dcLoop topo group reads mastertime64 (n + m) k st =
      (dcLoop topo group reads mastertime64 n k st).bind
        (dcLoop topo group reads mastertime64 m (k + n)) := by
  induction n generalizing k st with
  | zero => simp [dcLoop]
  | succ n ih =>
      have hn : n + 1 + m = (n + m) + 1 := by omega
      have hk : k + 1 + n = k + (n + 1) := by omega
      simp only [hn, dcLoop, Option.bind_assoc]
      congr 1
      funext st'
      rw [ih, hk]

/-- What is known of the slaves of a part of the bus, numbered from `k`, below slave `p`,
when the frame goes there at time `t`. -/
structure OnBus (topo : Nat → SlaveTopology) (reads : Nat → DcReads)
    (dock : Station → Option (Fin 4)) (p k t : Nat) (f : Forest Station) : Prop where
  nodes : Numbered (fun j n => topo j = inPlace n (topo j).parent) k f.nodes
  parents : Numbered (fun j parent => (topo j).parent = parent) k (f.parents p k)
  order : ∀ n ∈ f.nodes, InFrameOrder n
  latched : Numbered (fun j v => v.station.hasdc = true → Latched (reads j) v) k
    (visits dock t f)

namespace OnBus

variable {dock : Station → Option (Fin 4)} {p k t : Nat} {a : Station}
  {behind others : Forest Station}

theorem first (h : OnBus topo reads dock p k t (.node a behind others)) :
    topo k = inPlace (a, behind.roots) p := by
  have hnode : topo k = inPlace (a, behind.roots) (topo k).parent := h.nodes.1
  have hparent : (topo k).parent = p := h.parents.1
  rwa [hparent] at hnode

theorem rest (h : OnBus topo reads dock p k t (.node a behind others)) :
    OnBus topo reads (dockBehind a (dock a)) k (k + 1) (t + a.cable) behind ∧
      OnBus topo reads dock p (k + 1 + behind.size) (t + 2 * a.cable + trip behind) others := by
  have hnodes := Numbered.append.mp h.nodes.2
  have hparents := Numbered.append.mp h.parents.2
  have hlatched := Numbered.append.mp h.latched.2
  simp only [Forest.length_nodes, Forest.length_parents, length_visits] at hnodes hparents hlatched
  constructor
  · exact ⟨hnodes.1, hparents.1,
      fun n hn => h.order n (by simp [Forest.nodes, hn]), hlatched.1⟩
  · exact ⟨hnodes.2, hparents.2,
      fun n hn => h.order n (by simp [Forest.nodes, hn]), hlatched.2⟩

theorem cables (h : OnBus topo reads dock p k t (.node a behind others)) :
    ∀ n ∈ behind.nodes, 0 < n.1.cable :=
  fun n hn => (h.order n (by simp [Forest.nodes, hn])).delay

end OnBus

/-- The loop has passed the slaves of some visits, numbered from `k`, which hang below
slave `dc`. -/
structure Passed (base dc k : Nat) (vs : List Visit) (st st' : DcState) : Prop where
  measured : Numbered
    (fun j v => v.station.hasdc = true → Measured base v (st'.slavelist j)) k vs
  hold : st'.parenthold = 0
  slaves : ∀ j, j < k ∨ k + vs.length ≤ j → st'.slavelist j = st.slavelist j
  ports : ∀ j, j < k → j ≠ dc → st'.consumedports j = st.consumedports j

theorem Passed.append {base dc k : Nat} {vs ws : List Visit} {st st' st'' : DcState}
    (h : Passed base dc k vs st st') (h' : Passed base dc (k + vs.length) ws st' st'') :
    Passed base dc k (vs ++ ws) st st'' := by
  constructor
  · apply Numbered.append.mpr
    refine ⟨Numbered.imp ?_ h.measured, h'.measured⟩
    intro j v _ hj hm hv
    rw [h'.slaves j (.inl hj)]
    exact hm hv
  · exact h'.hold
  · intro j hj
    simp only [List.length_append] at hj
    rw [h'.slaves j (by omega), h.slaves j (by omega)]
  · intro j hj hdc
    rw [h'.ports j (by omega) hdc, h.ports j hj hdc]

/-- A slave and then the slaves behind it, whose ports are its own when it has distributed
clocks and else those of `dc`. -/
theorem Passed.cons {base dc dc' k : Nat} {v : Visit} {vs : List Visit} {st st' st'' : DcState}
    (hv : v.station.hasdc = true → Measured base v (st'.slavelist k))
    (hslaves : ∀ j, j ≠ k → st'.slavelist j = st.slavelist j)
    (hports : ∀ j, j < k → j ≠ dc → st'.consumedports j = st.consumedports j)
    (hdc : dc' = dc ∨ dc' = k) (h : Passed base dc' (k + 1) vs st' st'') :
    Passed base dc k (v :: vs) st st'' := by
  constructor
  · refine ⟨?_, h.measured⟩
    intro hdc'
    rw [h.slaves k (.inl (Nat.lt_succ_self k))]
    exact hv hdc'
  · exact h.hold
  · intro j hj
    simp only [List.length_cons] at hj
    rw [h.slaves j (by omega), hslaves j (by omega)]
  · intro j hj hne
    rw [h.ports j (by omega) (by omega), hports j hj hne]

/-- A slave `p` with distributed clocks before the trees `f` behind its next ports: the
frame leaves for the first of them at time `t`. -/
structure Below (topo : Nat → SlaveTopology) (st : DcState) (base p k t : Nat)
    (f : Forest Station) : Prop where
  hasdc : (topo p).hasdc = true
  pos : 0 < p
  lt : p < k
  hold : st.parenthold = 0
  room : f.width < (topo p).topology
  consumed : f ≠ .empty → st.consumedports p = portMask (f.roots.map Station.port)
  times : ∃ (prev : Fin 4) (clock : Int) (arrival : Nat),
    portSteps (topo p).activeports prev (f.roots.map Station.port) = true ∧
    (∀ x ∈ returns t f, (ecxPorttime (st.slavelist p) x.1).toInt = clock + x.2) ∧
    (ecxPorttime (st.slavelist p) prev).toInt = clock + t ∧
    (ecxPorttime (st.slavelist p) (st.slavelist p).entryport).toInt = clock + arrival ∧
    (st.slavelist p).pdelay.toInt = arrival - base ∧
    base ≤ arrival ∧ arrival ≤ t ∧ (p + 1 < k ∨ t = arrival)

namespace Below

variable {st : DcState} {base p k t : Nat} {a : Station} {behind others : Forest Station}

/-- The first tree hangs at its port. -/
theorem dock (h : Below topo st base p k t (.node a behind others)) :
    Dock (topo p) (st.slavelist p) base p k a.port t (t + 2 * a.cable + trip behind) := by
  obtain ⟨prev, clock, arrival, hsteps, hreturns, hprev, hentry, hdelay, hbase, hle, hfirst⟩ :=
    h.times
  have hroom := h.room
  simp only [Forest.width] at hroom
  simp only [Forest.roots, List.map_cons, portSteps, Bool.and_eq_true, beq_iff_eq] at hsteps
  refine ⟨by omega, clock, arrival, hreturns (a.port, _) List.mem_cons_self, ?_, hentry,
    hdelay, hbase, hle, hfirst⟩
  rw [hsteps.1.1]
  exact hprev

theorem openPort (h : Below topo st base p k t (.node a behind others)) :
    ecxParentport (st.consumedports p) = (a.port, portMask (others.roots.map Station.port)) := by
  obtain ⟨prev, clock, arrival, hsteps, -⟩ := h.times
  simp only [Forest.roots, List.map_cons, portSteps, Bool.and_eq_true, beq_iff_eq] at hsteps
  rw [h.consumed (by simp)]
  exact hsteps.1.2

/-- After the first tree the slave stands before the others. -/
theorem next (h : Below topo st base p k t (.node a behind others)) {st' : DcState}
    (hslave : st'.slavelist p = st.slavelist p) (hhold : st'.parenthold = 0)
    (hconsumed : others ≠ .empty →
      st'.consumedports p = portMask (others.roots.map Station.port)) :
    Below topo st' base p (k + 1 + behind.size) (t + 2 * a.cable + trip behind) others := by
  obtain ⟨prev, clock, arrival, hsteps, hreturns, hprev, hentry, hdelay, hbase, hle, hfirst⟩ :=
    h.times
  have hlt := h.lt
  have hroom := h.room
  simp only [Forest.width] at hroom
  simp only [Forest.roots, List.map_cons, portSteps, Bool.and_eq_true, beq_iff_eq] at hsteps
  refine ⟨h.hasdc, h.pos, by omega, hhold, by omega, hconsumed,
    a.port, clock, arrival, hsteps.2, ?_, ?_, ?_, ?_, hbase, by omega, .inl (by omega)⟩
  · intro x hx
    rw [hslave]
    exact hreturns x (List.mem_cons_of_mem _ hx)
  · rw [hslave]
    exact hreturns (a.port, _) List.mem_cons_self
  · rw [hslave]
    exact hentry
  · rw [hslave]
    exact hdelay

/-- After its own turn a slave stands before the slaves behind it. -/
theorem of_turn {up : Nat} {d : Option (Fin 4)} (htopo : topo k = inPlace (a, behind.roots) up)
    (hdc : a.hasdc = true) (horder : InFrameOrder (a, behind.roots)) (hk : 0 < k)
    (hstamped : Stamped (visitAt a d t behind) (st.slavelist k))
    (hmeasured : Measured base (visitAt a d t behind) (st.slavelist k)) (hbase : base ≤ t)
    (hconsumed : st.consumedports k = portMask (behind.roots.map Station.port))
    (hhold : st.parenthold = 0) : Below topo st base k (k + 1) t behind := by
  have hagree := portsAgree_of_order horder
  simp only [portsAgree, Bool.and_eq_true] at hagree
  refine ⟨by rw [htopo]; exact hdc, hk, Nat.lt_succ_self k, hhold, ?_, fun _ => hconsumed,
    a.entry, a.clock, t, ?_, hstamped.returns, hstamped.entry, ?_, hmeasured.pdelay, hbase,
    le_rfl, .inr rfl⟩
  · have htopology : (topo k).topology = 1 + behind.width := by
      rw [htopo, inPlace, Forest.length_roots]
    omega
  · rw [htopo]
    exact hagree.1.1
  · rw [hmeasured.entryport]
    exact hstamped.entry

end Below

/-- The loop measures the delays behind a slave with distributed clocks. -/
def MeasuresBelow (topo : Nat → SlaveTopology) (group : Nat → Nat) (reads : Nat → DcReads)
    (mastertime64 : UInt64) (f : Forest Station) : Prop :=
  ∀ (st : DcState) (base p k t : Nat), Below topo st base p k t f →
    OnBus topo reads (fun b => some b.port) p k t f → t + trip f < 2147483648 →
    ∃ st', dcLoop topo group reads mastertime64 f.size k st = some st' ∧
      Passed base p k (visits (fun b => some b.port) t f) st st'

/-- A branch that hangs at port `q` of slave `dc` starts with slaves without distributed
clocks, the last of them `p`; slave `k` comes next. -/
structure InBranch (topo : Nat → SlaveTopology) (st : DcState) (base dc child k t : Nat)
    (q : Fin 4) (left : Nat) (rest : UInt8) (back : Nat) : Prop where
  pos : 0 < dc
  lt : dc < k
  up : ∀ fuel, k ≤ fuel → dcParent topo fuel k = some (child, dc)
  dock : Dock (topo dc) (st.slavelist dc) base dc child q left back
  leave : left ≤ t
  openPort : ecxParentport (st.consumedports dc) = (q, rest)
  short : back < 2147483648

/-- The loop measures the delays in a branch. -/
def MeasuresBranch (topo : Nat → SlaveTopology) (group : Nat → Nat) (reads : Nat → DcReads)
    (mastertime64 : UInt64) (f : Forest Station) : Prop :=
  ∀ (st : DcState) (base dc child p k t : Nat) (q : Fin 4) (left : Nat) (rest : UInt8),
    InBranch topo st base dc child k t q left rest (t + trip f + (t - left)) →
    OnBus topo reads (fun _ => some q) p k t f → f.width = 1 → (topo p).topology ≤ 2 →
    st.parenthold = 0 ∨ st.parenthold = dc →
    ∃ st', dcLoop topo group reads mastertime64 f.size k st = some st' ∧
      Passed base dc k (visits (fun _ => some q) t f) st st' ∧
      (st.parenthold = dc → st'.consumedports dc = rest)

/-- A slave with distributed clocks in a branch, and all slaves behind it. -/
theorem dcLoop_dc {a : Station} {behind : Forest Station}
    (hbelow : MeasuresBelow topo group reads mastertime64 behind) {st : DcState}
    {base dc child p k t left : Nat} {q : Fin 4} {rest : UInt8}
    {dock : Station → Option (Fin 4)} (hdock : dock a = some q) {others : Forest Station}
    (hbus : OnBus topo reads dock p k t (.node a behind others)) (hdc : a.hasdc = true)
    (hbranch : InBranch topo st base dc child k (t + a.cable) q left rest
      (t + a.cable + trip behind + (t + a.cable - left))) :
    ∃ st', dcLoop topo group reads mastertime64 (1 + behind.size) k st = some st' ∧
      Passed base dc k (visitAt a (some q) (t + a.cable) behind ::
        visits (fun b => some b.port) (t + a.cable) behind) st st' ∧
      st'.consumedports dc = rest := by
  have htopo := hbus.first
  have horder := hbus.order (a, behind.roots) (by simp [Forest.nodes])
  have hlatched : Latched (reads k) (visitAt a (some q) (t + a.cable) behind) :=
    hdock ▸ hbus.latched.1 hdc
  have hentered := entered_dcEnter group mastertime64 htopo horder
    hbus.cables hlatched st
  generalize hst0 : dcEnter topo group reads mastertime64 st k = st0 at hentered
  have hne : dc ≠ k := Nat.ne_of_lt hbranch.lt
  have hdock0 := hbranch.dock
  have hopen0 := hbranch.openPort
  rw [← hentered.slaves dc hne] at hdock0
  rw [← hentered.ports dc hne] at hopen0
  obtain ⟨hmeasured, hstamped, hrest, hhold, hslaves, hports⟩ :=
    dcDelay_measured htopo horder hentered hbranch.lt hdock0 hopen0 ⟨hbranch.leave, rfl⟩
      hbranch.short
  generalize hst1 : dcDelay topo st0 k child dc = st1 at *
  have hstep : dcStep topo group reads mastertime64 st k = some st1 := by
    rw [dcStep_of_hasdc (by rw [htopo]; exact hdc) (hbranch.up k le_rfl), if_pos hbranch.pos,
      hst0, hst1]
  obtain ⟨-, clock, arrival, -, -, -, -, hbase, hleft, -⟩ := hbranch.dock
  have hleave := hbranch.leave
  have hshort := hbranch.short
  have hlt := hbranch.lt
  have hbefore : Below topo st1 base k (k + 1) (t + a.cable) behind := by
    refine Below.of_turn htopo hdc horder (Nat.zero_lt_of_lt hbranch.lt) hstamped hmeasured
      (by omega) ?_ (hhold.trans hentered.hold)
    rw [hports k hne.symm, hentered.consumed, map_fst_returns]
  have hdockBehind : dockBehind a (dock a) = fun b => some b.port := by
    funext b
    simp [dockBehind, hdc]
  obtain ⟨st2, hrun, hpassed⟩ := hbelow st1 base k (k + 1) (t + a.cable) hbefore
    (hdockBehind ▸ hbus.rest.1) (by omega)
  refine ⟨st2, ?_, ?_, ?_⟩
  · rw [Nat.add_comm, dcLoop, hstep]
    exact hrun
  · refine Passed.cons (fun _ => hmeasured) ?_ ?_ (.inr rfl) hpassed
    · intro j hj
      rw [hslaves j hj, hentered.slaves j hj]
    · intro j hj hjdc
      rw [hports j hjdc, hentered.ports j (by omega)]
  · rw [hpassed.ports dc (by omega) hne, hrest]

/-- The parent that is held at a slave without distributed clocks below `p`. -/
def heldAt (topo : Nat → SlaveTopology) (st : DcState) (p : Nat) : Nat :=
  if 0 < p ∧ 2 < (topo p).topology then p else st.parenthold

variable (group reads mastertime64) in
/-- The turn of a slave without distributed clocks: at the end of a branch the port of the
held parent is consumed. -/
theorem dcStep_skip {a : Station} {behind : Forest Station} (st : DcState) {k p : Nat}
    (htopo : topo k = inPlace (a, behind.roots) p) (hdc : a.hasdc = false)
    (hheld : heldAt topo st p ≠ k) :
    ∃ st', dcStep topo group reads mastertime64 st k = some st' ∧
      (∀ j, j ≠ k → st'.slavelist j = st.slavelist j) ∧
      (st'.slavelist k).pdelay = (st.slavelist k).pdelay ∧
      (∀ j, j ≠ k → behind.width ≠ 0 ∨ heldAt topo st p = 0 ∨ j ≠ heldAt topo st p →
        st'.consumedports j = st.consumedports j) ∧
      (behind.width = 0 → heldAt topo st p ≠ 0 → st'.consumedports (heldAt topo st p) =
        (ecxParentport (st.consumedports (heldAt topo st p))).2) ∧
      st'.parenthold = if behind.width = 0 then 0 else heldAt topo st p := by
  have hparent : (topo k).parent = p := by rw [htopo]; rfl
  have htopology : (topo k).topology = 1 + behind.width := by
    rw [htopo, inPlace, Forest.length_roots]
  have hlast : 1 + behind.width = 1 ↔ behind.width = 0 := by omega
  refine ⟨_, dcStep_of_not_hasdc (by rw [htopo]; exact hdc), ?_⟩
  simp only [dcSkip, hparent, htopology, hlast]
  have hfold : (if 0 < p ∧ 2 < (topo p).topology then p else st.parenthold) =
      heldAt topo st p := rfl
  simp only [hfold]
  generalize heldAt topo st p = held at *
  by_cases hend : held ≠ 0 ∧ behind.width = 0
  · obtain ⟨hpos, hwidth⟩ := hend
    simp +contextual [hpos, hwidth, hheld]
  · rw [if_neg hend]
    by_cases hwidth : behind.width = 0
    · have hzero : held = 0 := by
        by_contra h
        exact hend ⟨h, hwidth⟩
      simp +contextual [hzero, hwidth]
    · simp +contextual [hwidth]

/-- Behind a slave without distributed clocks the search goes on from that slave. -/
theorem dcParent_behind {dock : Station → Option (Fin 4)}
    {behind : Forest Station} {k t child dc : Nat}
    (hbus : OnBus topo reads dock k (k + 1) t behind) (hwidth : behind.width ≠ 0)
    (hdc : (topo k).hasdc = false) (hk : 0 < k)
    (hup : ∀ fuel, k ≤ fuel → dcParent topo fuel k = some (child, dc)) :
    ∀ fuel, k + 1 ≤ fuel → dcParent topo fuel (k + 1) = some (child, dc) := by
  intro fuel hfuel
  cases behind with
  | empty => exact absurd rfl hwidth
  | node b behind' others =>
      have hparent : (topo (k + 1)).parent = k := hbus.parents.1
      cases fuel with
      | zero => omega
      | succ fuel =>
          have hnot : ¬(k = 0 ∨ (topo k).hasdc = true) := by
            rw [hdc]
            simp
            omega
          simp only [dcParent, hparent, if_neg hnot]
          exact hup fuel (by omega)

/-- A slave without distributed clocks in a branch, and the slaves behind it. -/
theorem dcLoop_skip {a : Station} {behind : Forest Station}
    (hmeasures : MeasuresBranch topo group reads mastertime64 behind) {st : DcState}
    {base dc child p k t left : Nat} {q : Fin 4} {rest : UInt8}
    {dock : Station → Option (Fin 4)} (hdock : dock a = some q) {others : Forest Station}
    (hbus : OnBus topo reads dock p k t (.node a behind others)) (hdc : a.hasdc = false)
    (hbranch : InBranch topo st base dc child k (t + a.cable) q left rest
      (t + a.cable + trip behind + (t + a.cable - left)))
    (hheld : heldAt topo st p = 0 ∨ heldAt topo st p = dc) :
    ∃ st', dcLoop topo group reads mastertime64 (1 + behind.size) k st = some st' ∧
      Passed base dc k (visitAt a (some q) (t + a.cable) behind ::
        visits (fun _ => some q) (t + a.cable) behind) st st' ∧
      (heldAt topo st p = dc → st'.consumedports dc = rest) := by
  have htopo := hbus.first
  have hlt := hbranch.lt
  have hpos := hbranch.pos
  have hne : dc ≠ k := Nat.ne_of_lt hlt
  have hdockBehind : dockBehind a (dock a) = fun _ => some q := by
    funext b
    simp [dockBehind, hdc, hdock]
  have hone : behind.width ≤ 1 := by
    simpa using (hbus.order (a, behind.roots) (by simp [Forest.nodes])).unbranched hdc
  obtain ⟨st1, hstep, hslaves, -, hports, hend, hhold⟩ :=
    dcStep_skip group reads mastertime64 st htopo hdc (by omega)
  have hportsBefore : ∀ j, j < k → j ≠ dc → st1.consumedports j = st.consumedports j := by
    intro j hj hjdc
    apply hports j (by omega)
    omega
  have hnot {s : DcSlave} : (visitAt a (some q) (t + a.cable) behind).station.hasdc = true →
      Measured base (visitAt a (some q) (t + a.cable) behind) s :=
    fun h => absurd h (by simp [hdc])
  by_cases hwidth : behind.width = 0
  · -- the branch ends here
    obtain rfl : behind = .empty := by
      cases behind with
      | empty => rfl
      | node b behind' others' => simp [Forest.width] at hwidth
    refine ⟨st1, ?_, ⟨⟨hnot, trivial⟩, ?_, ?_, hportsBefore⟩, ?_⟩
    · simp [Forest.size, dcLoop, hstep]
    · simpa [Forest.width] using hhold
    · intro j hj
      simp only [List.length_cons, visits, List.length_nil] at hj
      exact hslaves j (by omega)
    · intro hheldDc
      have h := hend rfl (by omega)
      rw [hheldDc, hbranch.openPort] at h
      exact h
  · -- the branch goes on
    have hbehind := hbus.rest.1
    rw [hdockBehind] at hbehind
    have hhasdc : (topo k).hasdc = false := by rw [htopo]; exact hdc
    have hnext : InBranch topo st1 base dc child (k + 1) (t + a.cable) q left rest
        (t + a.cable + trip behind + (t + a.cable - left)) :=
      { hbranch with
        lt := by omega
        up := dcParent_behind hbehind hwidth hhasdc (by omega) hbranch.up
        dock := by rw [hslaves dc hne]; exact hbranch.dock
        openPort := by rw [hports dc hne (.inl hwidth)]; exact hbranch.openPort }
    have htopology : (topo k).topology ≤ 2 := by
      rw [htopo, inPlace, Forest.length_roots]
      simp only
      omega
    rw [if_neg hwidth] at hhold
    obtain ⟨st2, hrun, hpassed, hrest⟩ := hmeasures st1 base dc child k (k + 1) (t + a.cable) q
      left rest hnext hbehind (by omega) htopology (by omega)
    refine ⟨st2, ?_, Passed.cons hnot hslaves hportsBefore (.inl rfl) hpassed, ?_⟩
    · rw [Nat.add_comm, dcLoop, hstep]
      exact hrun
    · intro hheldDc
      exact hrest (hhold.trans hheldDc)

/-- The loop measures the delays of a branch before which there are no distributed clocks:
they count from the first slave that has them. -/
def MeasuresFirst (topo : Nat → SlaveTopology) (group : Nat → Nat) (reads : Nat → DcReads)
    (mastertime64 : UInt64) (f : Forest Station) : Prop :=
  ∀ (st : DcState) (base child p k t : Nat), 0 < k →
    (∀ fuel, k ≤ fuel → dcParent topo fuel k = some (child, 0)) →
    OnBus topo reads (fun _ => none) p k t f → f.width = 1 → p = 0 ∨ (topo p).topology ≤ 2 →
    st.parenthold = 0 → (∀ j, k ≤ j → (st.slavelist j).pdelay = 0) →
    (∀ v, (visits (fun _ => none) t f).find? (fun v => v.station.hasdc) = some v →
      v.arrival = base) →
    t + trip f < 2147483648 →
    ∃ st', dcLoop topo group reads mastertime64 f.size k st = some st' ∧
      Passed base 0 k (visits (fun _ => none) t f) st st'

/-- The first tree below a slave with distributed clocks. -/
theorem dcLoop_firstTree {a : Station} {behind others : Forest Station}
    (hbelow : MeasuresBelow topo group reads mastertime64 behind)
    (hmeasures : MeasuresBranch topo group reads mastertime64 behind)
    {st : DcState} {base p k t : Nat} (h : Below topo st base p k t (.node a behind others))
    (hbus : OnBus topo reads (fun b => some b.port) p k t (.node a behind others))
    (hshort : t + 2 * a.cable + trip behind < 2147483648) :
    ∃ st', dcLoop topo group reads mastertime64 (1 + behind.size) k st = some st' ∧
      Passed base p k (visitAt a (some a.port) (t + a.cable) behind ::
        visits (dockBehind a (some a.port)) (t + a.cable) behind) st st' ∧
      (others ≠ .empty → st'.consumedports p = portMask (others.roots.map Station.port)) := by
  have hpos := h.pos
  have hback : t + a.cable + trip behind + (t + a.cable - t) = t + 2 * a.cable + trip behind := by
    omega
  have hup : ∀ fuel, k ≤ fuel → dcParent topo fuel k = some (k, p) := by
    intro fuel hfuel
    have hparent : (topo k).parent = p := hbus.parents.1
    cases fuel with
    | zero =>
        have := h.lt
        omega
    | succ fuel => simp [dcParent, hparent, h.hasdc]
  have hbranch : InBranch topo st base p k k (t + a.cable) a.port t
      (portMask (others.roots.map Station.port))
      (t + a.cable + trip behind + (t + a.cable - t)) :=
    { pos := hpos
      lt := h.lt
      up := hup
      dock := by rw [hback]; exact h.dock
      leave := Nat.le_add_right _ _
      openPort := h.openPort
      short := by omega }
  cases hdc : a.hasdc with
  | true =>
      have hdockBehind : dockBehind a (some a.port) = fun b => some b.port := by
        funext b
        simp [dockBehind, hdc]
      obtain ⟨st', hrun, hpassed, hrest⟩ := dcLoop_dc hbelow rfl hbus hdc hbranch
      exact ⟨st', hrun, by rw [hdockBehind]; exact hpassed, fun _ => hrest⟩
  | false =>
      have hdockBehind : dockBehind a (some a.port) = fun _ => some a.port := by
        funext b
        simp [dockBehind, hdc]
      have hheld : heldAt topo st p = 0 ∨ heldAt topo st p = p := by
        rw [heldAt, h.hold]
        split_ifs
        · exact .inr rfl
        · exact .inl rfl
      obtain ⟨st', hrun, hpassed, hrest⟩ := dcLoop_skip hmeasures rfl hbus hdc hbranch hheld
      refine ⟨st', hrun, by rw [hdockBehind]; exact hpassed, fun hne => hrest ?_⟩
      -- with another tree to come the slave has more than two links
      have hroom := h.room
      have hwidth : 0 < others.width := by
        cases others with
        | empty => exact absurd rfl hne
        | node b behind' others' => simp only [Forest.width]; omega
      simp only [Forest.width] at hroom
      exact if_pos ⟨hpos, by omega⟩

theorem measuresBelow_node {a : Station} {behind others : Forest Station}
    (hbelow : MeasuresBelow topo group reads mastertime64 behind)
    (hmeasures : MeasuresBranch topo group reads mastertime64 behind)
    (hothers : MeasuresBelow topo group reads mastertime64 others) :
    MeasuresBelow topo group reads mastertime64 (.node a behind others) := by
  intro st base p k t h hbus hshort
  simp only [trip] at hshort
  obtain ⟨st1, hrun1, hpassed1, hrest⟩ :=
    dcLoop_firstTree hbelow hmeasures h hbus (by omega)
  have hnext := h.next (hpassed1.slaves p (.inl h.lt)) hpassed1.hold hrest
  obtain ⟨st2, hrun2, hpassed2⟩ := hothers st1 base p _ _ hnext hbus.rest.2 (by omega)
  have hk : k + (1 + behind.size) = k + 1 + behind.size := by omega
  refine ⟨st2, ?_, ?_⟩
  · rw [Forest.size, dcLoop_add, hrun1, hk]
    exact hrun2
  · have hlen : k + (visitAt a (some a.port) (t + a.cable) behind ::
        visits (dockBehind a (some a.port)) (t + a.cable) behind).length =
        k + 1 + behind.size := by
      simp
      omega
    rw [← hlen] at hpassed2
    exact hpassed1.append hpassed2

/-- In a branch there is one slave and what is behind it. -/
theorem others_eq_empty {a : Station} {behind others : Forest Station}
    (h : (Forest.node a behind others).width = 1) : others = .empty := by
  cases others with
  | empty => rfl
  | node b behind' others' => simp [Forest.width] at h

theorem measuresBranch_node {a : Station} {behind others : Forest Station}
    (hbelow : MeasuresBelow topo group reads mastertime64 behind)
    (hmeasures : MeasuresBranch topo group reads mastertime64 behind) :
    MeasuresBranch topo group reads mastertime64 (.node a behind others) := by
  intro st base dc child p k t q left rest h hbus hwidth htopology hhold
  obtain rfl := others_eq_empty hwidth
  have hleave := h.leave
  have hback : t + a.cable + trip behind + (t + a.cable - left) =
      t + trip (.node a behind .empty) + (t - left) := by
    simp only [trip]
    omega
  have hbranch : InBranch topo st base dc child k (t + a.cable) q left rest
      (t + a.cable + trip behind + (t + a.cable - left)) := by
    rw [hback]
    exact { h with leave := by omega }
  have hsize : (Forest.node a behind .empty).size = 1 + behind.size := by simp [Forest.size]
  rw [hsize]
  simp only [visits, List.append_nil]
  cases hdc : a.hasdc with
  | true =>
      have hdockBehind : dockBehind a (some q) = fun b => some b.port := by
        funext b
        simp [dockBehind, hdc]
      obtain ⟨st', hrun, hpassed, hrest⟩ := dcLoop_dc hbelow rfl hbus hdc hbranch
      exact ⟨st', hrun, by rw [hdockBehind]; exact hpassed, fun _ => hrest⟩
  | false =>
      have hdockBehind : dockBehind a (some q) = fun _ => some q := by
        funext b
        simp [dockBehind, hdc]
      have hheld : heldAt topo st p = st.parenthold := if_neg (by omega)
      obtain ⟨st', hrun, hpassed, hrest⟩ :=
        dcLoop_skip hmeasures rfl hbus hdc hbranch (by omega)
      exact ⟨st', hrun, by rw [hdockBehind]; exact hpassed,
        fun hdcHeld => hrest (hheld.trans hdcHeld)⟩

theorem measuresFirst_node {a : Station} {behind others : Forest Station}
    (hbelow : MeasuresBelow topo group reads mastertime64 behind)
    (hmeasures : MeasuresFirst topo group reads mastertime64 behind) :
    MeasuresFirst topo group reads mastertime64 (.node a behind others) := by
  intro st base child p k t hk hup hbus hwidth hp hhold hdelay hbase hshort
  obtain rfl := others_eq_empty hwidth
  simp only [trip] at hshort
  have htopo := hbus.first
  have horder := hbus.order (a, behind.roots) (by simp [Forest.nodes])
  have hsize : (Forest.node a behind .empty).size = behind.size + 1 := by
    simp only [Forest.size]
    omega
  simp only [hsize, dcLoop]
  simp only [visits, List.append_nil] at hbase ⊢
  cases hdc : a.hasdc with
  | true =>
      -- the first slave with distributed clocks
      have hentered := entered_dcEnter group mastertime64 htopo
        horder hbus.cables (hbus.latched.1 hdc) st
      have hstep : dcStep topo group reads mastertime64 st k =
          some (dcEnter topo group reads mastertime64 st k) := by
        rw [dcStep_of_hasdc (by rw [htopo]; exact hdc) (hup k le_rfl),
          if_neg (Nat.lt_irrefl 0)]
      generalize dcEnter topo group reads mastertime64 st k = st1 at *
      have hbaseEq : t + a.cable = base := by
        simpa [hdc] using hbase
      have hmeasured : Measured base (visitAt a none (t + a.cable) behind)
          (st1.slavelist k) := by
        refine ⟨hentered.entryport, (fun q hq => by cases hq), ?_⟩
        rw [hentered.pdelay, hdelay k le_rfl]
        simp [hbaseEq]
      have hbefore : Below topo st1 base k (k + 1) (t + a.cable) behind := by
        refine Below.of_turn htopo hdc horder hk hentered.stamped hmeasured (by omega) ?_
          hentered.hold
        rw [hentered.consumed, map_fst_returns]
      have hdockBehind : dockBehind a none = fun b => some b.port := by
        funext b
        simp [dockBehind, hdc]
      obtain ⟨st2, hrun, hpassed⟩ := hbelow st1 base k (k + 1) (t + a.cable) hbefore
        (hdockBehind ▸ hbus.rest.1) (by omega)
      refine ⟨st2, by rw [hstep]; exact hrun, ?_⟩
      rw [hdockBehind]
      exact Passed.cons (fun _ => hmeasured) hentered.slaves
        (fun j hj _ => hentered.ports j (by omega)) (.inr rfl) hpassed
  | false =>
      have hdockBehind : dockBehind a none = fun _ => none := by
        funext b
        simp [dockBehind, hdc]
      have hheld : heldAt topo st p = 0 := (if_neg (by omega)).trans hhold
      obtain ⟨st1, hstep, hslaves, hself, hports, -, hheldAfter⟩ :=
        dcStep_skip group reads mastertime64 st htopo hdc (by omega)
      have hholdAfter : st1.parenthold = 0 := by
        rw [hheldAfter, hheld]
        exact ite_self 0
      have hdelayAfter : ∀ j, k + 1 ≤ j → (st1.slavelist j).pdelay = 0 := by
        intro j hj
        rw [hslaves j (by omega)]
        exact hdelay j (by omega)
      have hbaseAfter : ∀ v, (visits (fun _ => none) (t + a.cable) behind).find?
          (fun v => v.station.hasdc) = some v → v.arrival = base := by
        simpa [hdc, hdockBehind] using hbase
      have hnot {s : DcSlave} : (visitAt a none (t + a.cable) behind).station.hasdc = true →
          Measured base (visitAt a none (t + a.cable) behind) s :=
        fun h => absurd h (by simp [hdc])
      have hpassed (st2 : DcState) (h : Passed base 0 (k + 1)
          (visits (fun _ => none) (t + a.cable) behind) st1 st2) :
          Passed base 0 k (visitAt a none (t + a.cable) behind ::
            visits (dockBehind a none) (t + a.cable) behind) st st2 := by
        rw [hdockBehind]
        exact Passed.cons hnot hslaves (fun j hj _ => hports j (by omega) (.inr (.inl hheld)))
          (.inl rfl) h
      by_cases hend : behind.width = 0
      · obtain rfl : behind = .empty := by
          cases behind with
          | empty => rfl
          | node b behind' others' => simp [Forest.width] at hend
        exact ⟨st1, by rw [hstep]; rfl,
          hpassed st1 ⟨trivial, hholdAfter, fun _ _ => rfl, fun _ _ _ => rfl⟩⟩
      · have hbehind := hbus.rest.1
        rw [hdockBehind] at hbehind
        have hone : behind.width ≤ 1 := by simpa using horder.unbranched hdc
        have htopology : (topo k).topology ≤ 2 := by
          rw [htopo, inPlace, Forest.length_roots]
          simp only
          omega
        obtain ⟨st2, hrun, hrest⟩ := hmeasures st1 base child k (k + 1) (t + a.cable)
          (Nat.succ_pos k)
          (dcParent_behind hbehind hend (by rw [htopo]; exact hdc) hk hup) hbehind (by omega)
          (.inr htopology) hholdAfter hdelayAfter hbaseAfter (by omega)
        exact ⟨st2, by rw [hstep]; exact hrun, hpassed st2 hrest⟩

/-- The loop measures the delays on every part of a bus. -/
theorem dcLoop_measures (f : Forest Station) :
    MeasuresBelow topo group reads mastertime64 f ∧
      MeasuresBranch topo group reads mastertime64 f ∧
      MeasuresFirst topo group reads mastertime64 f := by
  induction f with
  | empty =>
      refine ⟨?_, ?_, ?_⟩
      · intro st base p k t h _ _
        exact ⟨st, rfl, trivial, h.hold, fun _ _ => rfl, fun _ _ _ => rfl⟩
      · intro _ _ _ _ _ _ _ _ _ _ _ _ hwidth
        cases hwidth
      · intro _ _ _ _ _ _ _ _ _ hwidth
        cases hwidth
  | node a behind others ihb iho =>
      exact ⟨measuresBelow_node ihb.1 ihb.2.1 iho.1, measuresBranch_node ihb.1 ihb.2.1,
        measuresFirst_node ihb.1 ihb.2.2⟩

/-- On every bus without loops that is wired in frame order, `ecx_configdc` finds for each
slave with distributed clocks the port its frames enter by, the port of the slave before it
that they come from, and as its propagation delay the time that a frame arrives later there
than at the first slave with distributed clocks. All reads succeed, the latched times fit
signed words as they are, and a frame is back in less than 2^31 ns. -/
theorem ecxConfigdc_measures (root : Station) (behind : Forest Station)
    (hwired : ∀ n ∈ (Forest.node root behind .empty).nodes, InFrameOrder n)
    (status : Nat → SlaveStatus)
    (hstatus : ∀ i n, (Forest.node root behind .empty).nodes[i]? = some n →
      Reports (status (i + 1)) n)
    (slavelist : Nat → SlaveTopology) (group : Nat → Nat) (reads : Nat → DcReads)
    (mastertime64 : UInt64) (st : DcState) (hcleared : ∀ j, (st.slavelist j).pdelay = 0)
    (hlatched : ∀ i v,
      (visits (fun _ => none) 0 (.node root behind .empty))[i]? = some v →
      v.station.hasdc = true → Latched (reads (i + 1)) v)
    (hshort : trip (.node root behind .empty) < 2147483648)
    (first : Visit)
    (hfirst : (visits (fun _ => none) 0 (.node root behind .empty)).find?
      (fun v => v.station.hasdc) = some first) :
    ∃ st', ecxConfigdc
        (configTopologies status slavelist (Forest.node root behind .empty).size) group reads
        mastertime64 (Forest.node root behind .empty).size st = some st' ∧
      ∀ i v, (visits (fun _ => none) 0 (.node root behind .empty))[i]? = some v →
        v.station.hasdc = true →
        (st'.slavelist (i + 1)).entryport = v.station.entry ∧
        (∀ q : Fin 4, v.dock = some q → (st'.slavelist (i + 1)).parentport = q) ∧
        (st'.slavelist (i + 1)).pdelay.toInt = v.arrival - first.arrival := by
  have htopo (i : Nat) (n : Station × List Station) (parent : Nat)
      (hn : (Forest.node root behind .empty).nodes[i]? = some n)
      (hparent : ((Forest.node root behind .empty).parents 0 1)[i]? = some parent) :
      configTopologies status slavelist (Forest.node root behind .empty).size (1 + i) =
        inPlace n parent := by
    have hi : i < (Forest.node root behind .empty).size := by
      have := (List.getElem?_eq_some_iff.mp hn).1
      simpa using this
    rw [configTopologies_eq_placed status slavelist (by omega) (by omega), Nat.add_comm]
    exact placed_eq_inPlace (fun n hn => (hwired n hn).nodup) hstatus hn hparent
  generalize configTopologies status slavelist (Forest.node root behind .empty).size = topo at *
  have hbus : OnBus topo reads (fun _ => none) 0 1 0 (.node root behind .empty) := by
    refine ⟨Numbered.of_getElem? ?_, Numbered.of_getElem? ?_, hwired, Numbered.of_getElem? ?_⟩
    · intro i n hn
      have hi : i < ((Forest.node root behind .empty).parents 0 1).length := by
        have := (List.getElem?_eq_some_iff.mp hn).1
        simpa using this
      have h := htopo i n _ hn (List.getElem?_eq_getElem hi)
      rw [h]
      rfl
    · intro i parent hparent
      have hi : i < (Forest.node root behind .empty).nodes.length := by
        have := (List.getElem?_eq_some_iff.mp hparent).1
        simpa using this
      rw [htopo i _ parent (List.getElem?_eq_getElem hi) hparent, inPlace]
    · intro i v hv hdc
      rw [Nat.add_comm]
      exact hlatched i v hv hdc
  have hup : ∀ fuel, 1 ≤ fuel → dcParent topo fuel 1 = some (1, 0) := by
    intro fuel hfuel
    have hparent : (topo 1).parent = 0 := hbus.parents.1
    cases fuel with
    | zero => omega
    | succ fuel => simp [dcParent, hparent]
  obtain ⟨st', hrun, hpassed⟩ := (dcLoop_measures (.node root behind .empty)).2.2
    { st with
      chain := { st.chain with
        hasdc := false
        groupHasdc := Function.update st.chain.groupHasdc 0 false
        prevDCslave := 0 }
      parenthold := 0
      ht := 0
      writes := [] }
    first.arrival 1 0 1 0 Nat.one_pos hup hbus (by simp [Forest.width]) (.inl rfl) rfl
    (fun j _ => hcleared j) (fun v hv => by rw [hfirst] at hv; cases hv; rfl) (by omega)
  refine ⟨st', hrun, ?_⟩
  intro i v hv hdc
  have h := hpassed.measured.get hv hdc
  rw [Nat.add_comm] at h
  exact ⟨h.entryport, h.parentport, h.pdelay⟩

/-- The times that the slaves of the bus with two branches latch. -/
def splitReads (slave : Nat) : DcReads :=
  match slave with
  | 1 => ⟨![some (-950), some (-830), some 9, some (-890)], some 0⟩
  | 3 => ⟨![some 0, some 85, some 0, some 0], some 0⟩
  | _ => ⟨![some 147, some 0, some 0, some 0], some 0⟩

theorem split_inFrameOrder :
    ∀ n ∈ (Forest.node splitRoot splitBehind .empty).nodes, InFrameOrder n := by
  intro n hn
  simp only [Forest.nodes, splitBehind, Forest.roots, List.append_nil, List.nil_append,
    List.cons_append, List.mem_cons, List.not_mem_nil, or_false] at hn
  rcases hn with rfl | rfl | rfl | rfl <;> exact ⟨by decide, by decide, by decide, by decide⟩

theorem splitReads_latched (i : Nat) (v : Visit)
    (h : (visits (fun _ => none) 0 (.node splitRoot splitBehind .empty))[i]? = some v)
    (hdc : v.station.hasdc = true) : Latched (splitReads (i + 1)) v := by
  have hall : Numbered (fun k v => v.station.hasdc = true → Latched (splitReads k) v) 1
      (visits (fun _ => none) 0 (.node splitRoot splitBehind .empty)) := by
    refine ⟨fun _ => ⟨![-950, -830, 9, -890], ?_⟩, ?_, fun _ => ⟨![0, 85, 0, 0], ?_⟩,
      fun _ => ⟨![147, 0, 0, 0], ?_⟩, trivial⟩
    · decide
    · intro h
      cases h
    · decide
    · decide
  rw [Nat.add_comm]
  exact hall.get h hdc

/-- The state of `ecx_configdc` on a cleared slave list. -/
def dcCleared : DcState where
  slavelist := fun _ => ⟨0, 0, 0, 0, 0, 0, 0⟩
  consumedports := fun _ => 0
  chain := ⟨false, fun _ => 0, fun _ => 0, fun _ => false, fun _ => 0, 0⟩
  parenthold := 0
  plist := 0
  ht := 0
  hrt := 0
  writes := []

/-- The frame comes to the slaves 3 and 4 by 30 ns and 90 ns later than to the first one. -/
theorem ecxConfigdc_measures_split :
    ∃ st', ecxConfigdc (configTopologies splitStatus (fun _ => ⟨false, 0, 0, 0⟩) 4)
        (fun _ => 0) splitReads 0 4 dcCleared = some st' ∧
      (st'.slavelist 3).entryport = 1 ∧ (st'.slavelist 3).pdelay.toInt = 30 ∧
      (st'.slavelist 4).parentport = 1 ∧ (st'.slavelist 4).pdelay.toInt = 90 := by
  obtain ⟨st', hrun, h⟩ := ecxConfigdc_measures splitRoot splitBehind split_inFrameOrder
    splitStatus splitStatus_reports (fun _ => ⟨false, 0, 0, 0⟩) (fun _ => 0) splitReads 0
    dcCleared (fun _ => rfl) splitReads_latched (by decide) _ rfl
  have h3 := h 2 _ rfl rfl
  have h4 := h 3 _ rfl rfl
  exact ⟨st', hrun, h3.1, h3.2.2, h4.2.1 1 rfl, h4.2.2⟩

end RaipalSoem

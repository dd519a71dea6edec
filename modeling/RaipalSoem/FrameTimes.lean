import Mathlib.Data.List.Sublists
import Mathlib.Tactic.FinCases
import RaipalSoem.ConfigDc

/-!
# The times of a frame

A frame enters the bus, visits the slaves in order and comes back the way it went, so that
each slave latches the time at which the frame entered and the times at which it came back
from behind each port. The port functions of `ecx_configdc` find the ports in the order of
these times, and its sum takes the delay out of their differences.
-/

namespace RaipalSoem

open Lib

/-- How long the frame stays behind a port: each cable is passed in both directions. -/
def trip : Forest Station → Nat
  | .empty => 0
  | .node a behind others => 2 * a.cable + trip behind + trip others

/-- The ports behind which the frame, leaving at time `t`, visits the slaves, with the
times at which it comes back. -/
def returns (t : Nat) : Forest Station → List (Fin 4 × Nat)
  | .empty => []
  | .node a behind others =>
      (a.port, t + 2 * a.cable + trip behind) ::
        returns (t + 2 * a.cable + trip behind) others

/-- The frame at a slave: when it arrives, when it comes back from behind which port, and
behind which port of the nearest slave with distributed clocks this one lies. -/
structure Visit where
  station : Station
  dock : Option (Fin 4)
  arrival : Nat
  returns : List (Fin 4 × Nat)
  deriving DecidableEq, Repr

/-- The port of the nearest slave with distributed clocks, for the slaves behind `a`. -/
def dockBehind (a : Station) (dock : Option (Fin 4)) (b : Station) : Option (Fin 4) :=
  if a.hasdc then some b.port else dock

/-- The visits of a frame that leaves at time `t`. -/
def visits (dock : Station → Option (Fin 4)) (t : Nat) : Forest Station → List Visit
  | .empty => []
  | .node a behind others =>
      ⟨a, dock a, t + a.cable, returns (t + a.cable) behind⟩ ::
        (visits (dockBehind a (dock a)) (t + a.cable) behind ++
          visits dock (t + 2 * a.cable + trip behind) others)

@[simp] theorem length_visits (dock : Station → Option (Fin 4)) (t : Nat)
    (f : Forest Station) : (visits dock t f).length = f.size := by
  induction f generalizing dock t with
  | empty => rfl
  | node a behind others ihb iho => simp [visits, Forest.size, ihb, iho]; omega

/-- The ports in the returns are those of the slaves behind. -/
theorem map_fst_returns (t : Nat) (f : Forest Station) :
    (returns t f).map Prod.fst = f.roots.map Station.port := by
  induction f generalizing t with
  | empty => rfl
  | node a behind others _ iho => simp [returns, Forest.roots, iho]

/-- The last return is the end of the whole trip. -/
theorem getLast_returns {t : Nat} {f : Forest Station} (h : returns t f ≠ []) :
    ((returns t f).getLast h).2 = t + trip f := by
  induction f generalizing t with
  | empty => exact absurd rfl h
  | node a behind others _ iho =>
      cases others with
      | empty => simp [returns, trip]; omega
      | node b behind' others' =>
          have hne : returns (t + 2 * a.cable + trip behind)
              (.node b behind' others') ≠ [] := by simp [returns]
          have hlast := iho hne
          have hgoal : (returns t (.node a behind (.node b behind' others'))).getLast h =
              (returns (t + 2 * a.cable + trip behind) (.node b behind' others')).getLast hne :=
            List.getLast_cons hne
          rw [hgoal, hlast]
          simp [trip]
          omega

/-- With delays on the cables the frame comes back later than it left. -/
theorem lt_of_mem_returns {t : Nat} {f : Forest Station}
    (h : ∀ n ∈ f.nodes, 0 < n.1.cable) {x : Fin 4 × Nat} (hx : x ∈ returns t f) :
    t < x.2 := by
  induction f generalizing t with
  | empty => cases hx
  | node a behind others _ iho =>
      have ha : 0 < a.cable := h (a, behind.roots) (by simp [Forest.nodes])
      rcases List.mem_cons.mp hx with rfl | hx
      · simp only
        omega
      · have := iho (fun n hn => h n (by simp [Forest.nodes, hn])) hx
        omega

/-- The wiring under which the delays are measured: frames enter by port 0 or there is at
most one slave behind, they leave by the ports 3, 1, 2 in this order, a slave without
distributed clocks does not branch, and cables have a delay. -/
structure InFrameOrder (n : Station × List Station) : Prop where
  nodup : (links n).Nodup
  order : n.2.length ≤ 1 ∨ n.1.entry = 0 ∧ (n.2.map Station.port).Sublist [3, 1, 2]
  unbranched : n.1.hasdc = false → n.2.length ≤ 1
  delay : 0 < n.1.cable

/-- The ports `ps` follow port `prev`, each found by `ecx_prevport` from the next one and
consumed in turn by `ecx_parentport`. -/
def portSteps (aport : UInt8) : Fin 4 → List (Fin 4) → Bool
  | _, [] => true
  | prev, q :: qs =>
      ecxPrevport aport q == prev.val &&
        ecxParentport (portMask (q :: qs)) == (q, portMask qs) && portSteps aport q qs

/-- What the port functions find on a slave with entry port `e` and the ports `ps` behind. -/
def portsAgree (e : Fin 4) (ps : List (Fin 4)) : Bool :=
  portSteps (portMask (e :: ps)) e ps &&
    portMask (e :: ps) &&& ~~~(entryBit e) == portMask ps &&
    (ps == [] || some (ecxPrevport (portMask (e :: ps)) e) == ps.getLast?.map Fin.val)

theorem portsAgree_single : ∀ e : Fin 4, portsAgree e [] ∧
    ∀ q : Fin 4, [e, q].Nodup → portsAgree e [q] := by
  decide

theorem portsAgree_entry_zero : ∀ ps ∈ List.sublists [(3 : Fin 4), 1, 2], portsAgree 0 ps := by
  decide

/-- In frame order the port functions find the ports one after the other. -/
theorem portsAgree_of_order {n : Station × List Station} (h : InFrameOrder n) :
    portsAgree n.1.entry (n.2.map Station.port) := by
  rcases h.order with hone | ⟨hzero, hsub⟩
  · match hports : n.2, hone with
    | [], _ => exact (portsAgree_single n.1.entry).1
    | [b], _ =>
        refine (portsAgree_single n.1.entry).2 b.port ?_
        simpa [links, hports] using h.nodup
  · rw [hzero]
    exact portsAgree_entry_zero _ (List.mem_sublists.mpr hsub)

/-- A bit of the mask is set for the ports in the set. -/
theorem portMask_and {ps : List (Fin 4)} (p : Fin 4) :
    portMask ps &&& portM p ≠ 0 ↔ p ∈ ps := by
  have hbits : ∀ b0 b1 b2 b3 : Bool, ∀ p : Fin 4,
      [(0, b0), (1, b1), (2, b2), (3, b3)].foldl
        (fun (m : UInt8) (x : Fin 4 × Bool) => if x.2 then m ||| portM x.1 else m) 0 &&&
          portM p ≠ 0 ↔ ![b0, b1, b2, b3] p = true := by decide
  have := hbits (decide (0 ∈ ps)) (decide (1 ∈ ps)) (decide (2 ∈ ps)) (decide (3 ∈ ps)) p
  simp only [portMask, List.foldl] at this ⊢
  simp only [decide_eq_true_eq] at this
  rw [this]
  fin_cases p <;> simp

/-- The time of one port is below those of all the others. -/
theorem lowestPort_eq {pts : List (Fin 4 × Int32)} {pt : Fin 4 × Int32} (hmem : pt ∈ pts)
    (hlow : ∀ x ∈ pts, x = pt ∨ pt.2 < x.2) (plist : Nat) : lowestPort plist pts = pt.1 := by
  have hrun : ∀ (xs : List (Fin 4 × Int32)) (low : Fin 4 × Int32),
      (low = pt ∨ pt ∈ xs ∧ pt.2 < low.2) → (∀ x ∈ xs, x = pt ∨ pt.2 < x.2) →
      xs.foldl (fun low pt => if pt.2 < low.2 then pt else low) low = pt := by
    intro xs
    induction xs with
    | nil =>
        rintro low (rfl | ⟨h, -⟩) _
        · rfl
        · cases h
    | cons x xs ih =>
        intro low hpt hxs
        have htail : ∀ y ∈ xs, y = pt ∨ pt.2 < y.2 :=
          fun y hy => hxs y (List.mem_cons_of_mem _ hy)
        rw [List.foldl_cons]
        apply ih _ ?_ htail
        rcases hxs x List.mem_cons_self with rfl | hx
        · rcases hpt with rfl | ⟨-, hlt⟩
          · simp
          · simp [hlt]
        · have hnot : ¬x.2 < pt.2 := Int32.not_lt.mpr (Int32.le_of_lt hx)
          rcases hpt with rfl | ⟨hin, hlt⟩
          · simp [hnot]
          · have hin' : pt ∈ xs := by
              rcases List.mem_cons.mp hin with rfl | h
              · exact absurd hx (Int32.lt_irrefl)
              · exact h
            right
            refine ⟨hin', ?_⟩
            split_ifs
            · exact hx
            · exact hlt
  cases pts with
  | nil => cases hmem
  | cons x xs =>
      have htail : ∀ y ∈ xs, y = pt ∨ pt.2 < y.2 :=
        fun y hy => hlow y (List.mem_cons_of_mem _ hy)
      have hhead : x = pt ∨ pt ∈ xs ∧ pt.2 < x.2 := by
        rcases hlow x List.mem_cons_self with h | h
        · exact .inl h
        · rcases List.mem_cons.mp hmem with h' | h'
          · exact .inl h'.symm
          · exact .inr ⟨h', h⟩
      exact congrArg (fun pt => pt.1.val) (hrun xs x hhead htail)

/-- The time stamps that a slave has latched in a visit, on its own clock. -/
structure Stamped (v : Visit) (s : DcSlave) : Prop where
  entry : (ecxPorttime s v.station.entry).toInt = v.station.clock + v.arrival
  returns : ∀ x ∈ v.returns, (ecxPorttime s x.1).toInt = v.station.clock + x.2

/-- The entry port is found by its time stamp. -/
theorem lowestPort_of_stamped {v : Visit} {s : DcSlave} (h : Stamped v s)
    (hlater : ∀ x ∈ v.returns, v.arrival < x.2) (plist : Nat) :
    lowestPort plist (portTimes (portMask (v.station.entry :: v.returns.map Prod.fst)) s) =
      v.station.entry := by
  refine lowestPort_eq (?_ : (v.station.entry, ecxPorttime s v.station.entry) ∈ _) ?_ plist
  · simp only [portTimes, List.mem_map, List.mem_filter, decide_eq_true_eq]
    refine ⟨v.station.entry, ⟨?_, (portMask_and _).mpr List.mem_cons_self⟩, rfl⟩
    generalize v.station.entry = e
    fin_cases e <;> simp
  · intro x hx
    simp only [portTimes, List.mem_map, List.mem_filter, decide_eq_true_eq] at hx
    obtain ⟨p, ⟨-, hp⟩, rfl⟩ := hx
    rcases List.mem_cons.mp ((portMask_and p).mp hp) with rfl | hback
    · exact .inl rfl
    · obtain ⟨x, hx, rfl⟩ := List.mem_map.mp hback
      right
      have := hlater x hx
      rw [Int32.lt_iff_toInt_lt, h.entry, h.returns x hx]
      omega

theorem toInt_sub_of_near {a b : Int32} {c x y : Int} (ha : a.toInt = c + x)
    (hb : b.toInt = c + y) (hlow : -2147483648 ≤ x - y) (hhigh : x - y < 2147483648) :
    (a - b).toInt = x - y := by
  rw [Int32.toInt_sub, ha, hb]
  have hsub : c + x - (c + y) = x - y := by omega
  rw [hsub]
  exact Int.bmod_eq_of_le (by omega) (by omega)

/-- The sum that `ecx_configdc` forms from the time behind the parent's port, the time
behind the slave itself and the time before the parent's port. -/
def delaySum (dt3 dt1 dt2 before : Int32) : Int32 :=
  (dt3 - (if dt3 < dt1 then -dt1 else dt1)) / 2 + (if dt2 < 0 then -dt2 else dt2) + before

/-- Behind the port the frame passes the way `s` twice and stays `r` behind the slave. -/
theorem toInt_delaySum {dt3 dt1 dt2 before : Int32} {s r d b : Nat}
    (h3 : dt3.toInt = 2 * s + r) (h1 : dt1.toInt = r) (h2 : dt2.toInt = d)
    (hb : before.toInt = b) (hsum : s + d + b < 2147483648) :
    (delaySum dt3 dt1 dt2 before).toInt = s + d + b := by
  have h13 : ¬dt3 < dt1 := by
    rw [Int32.lt_iff_toInt_lt]
    omega
  have h20 : ¬dt2 < 0 := by
    rw [Int32.lt_iff_toInt_lt, h2]
    simp
  have hdiff : (dt3 - dt1).toInt = 2 * s := by
    have hlt := dt3.toInt_lt
    rw [Int32.toInt_sub, h3, h1]
    have hsub : (2 * s + r : Int) - r = 2 * s := by omega
    rw [hsub]
    exact Int.bmod_eq_of_le (by omega) (by omega)
  have hhalf : ((dt3 - dt1) / 2).toInt = s := by
    rw [Int32.toInt_div_of_ne_right _ _ (by decide), hdiff]
    exact Int.mul_tdiv_cancel_left _ (by decide)
  rw [delaySum, if_neg h13, if_neg h20]
  have hfirst : ((dt3 - dt1) / 2 + dt2).toInt = s + d := by
    rw [Int32.toInt_add, hhalf, h2]
    exact Int.bmod_eq_of_le (by omega) (by omega)
  rw [Int32.toInt_add, hfirst, hb]
  exact Int.bmod_eq_of_le (by omega) (by omega)

end RaipalSoem

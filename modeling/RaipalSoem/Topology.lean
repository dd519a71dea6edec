import Mathlib.Data.Fintype.Card
import Mathlib.Data.Fin.VecNotation
import Mathlib.Logic.Function.Basic
import Mathlib.Algebra.BigOperators.Fin
import RaipalSoem.Lib.Forest

/-!
# Topology of the bus

`ecx_config_init` numbers the slaves in the order in which a frame passes them. It reads
from each slave which ports have a link and searches backwards for the slave's parent. The
search only knows the number of links of the slaves before; on a bus without loops this is
enough.
-/

namespace RaipalSoem

open Lib

/-- A slave has four ports. -/
instance fourPorts : NeZero 4 := ⟨by decide⟩

/-- The masks `PORTM0` to `PORTM3`. -/
def portM : Fin 4 → UInt8
  | 0 => 0x01
  | 1 => 0x02
  | 2 => 0x04
  | 3 => 0x08

/-- The DL status of a port: loop open and communication established. -/
def portLinked (dlstat : UInt16) : Fin 4 → Bool
  | 0 => dlstat &&& 0x0300 == 0x0200
  | 1 => dlstat &&& 0x0c00 == 0x0800
  | 2 => dlstat &&& 0x3000 == 0x2000
  | 3 => dlstat &&& 0xc000 == 0x8000

/-- One port of the DL status: count it and set its bit. -/
def linkPort (dlstat : UInt16) (hb : Nat × UInt8) (p : Fin 4) : Nat × UInt8 :=
  if portLinked dlstat p then (hb.1 + 1, hb.2 ||| portM p) else hb

/-- `h` and `b`: the number of ports with a link, and their mask. -/
def linkPorts (dlstat : UInt16) : Nat × UInt8 :=
  [0, 1, 2, 3].foldl (linkPort dlstat) (0, 0)

/-- The fields of `ec_slavet` that describe a slave's place on the bus. -/
structure SlaveTopology where
  hasdc : Bool
  topology : Nat
  activeports : UInt8
  parent : Nat
  deriving DecidableEq, Repr

/-- What `ECT_REG_ESCSUP` and `ECT_REG_DLSTAT` read, in host byte order. -/
structure SlaveStatus where
  escsup : UInt16
  dlstat : UInt16
  deriving DecidableEq, Repr

/-- The change of `topoc` at a slave with `topology` links. -/
def topocStep (topology : Nat) (topoc : Int) : Int :=
  if topology = 1 then topoc - 1
  else if topology = 3 then topoc + 1
  else if topology = 4 then topoc + 2
  else topoc

/-- The search for the parent, from `slavec` down to the first slave. -/
def parentSearch (topology : Nat → Nat) : Nat → Int → Nat
  | 0, _ => 0
  | slavec + 1, topoc =>
      let t := topology (slavec + 1)
      let topoc := topocStep t topoc
      if (0 ≤ topoc ∧ 1 < t) ∨ slavec + 1 = 1 then slavec + 1
      else parentSearch topology slavec topoc

/-- The part of the slave loop of `ecx_config_init` that finds a slave's place. -/
def configTopology (status : Nat → SlaveStatus) (slavelist : Nat → SlaveTopology)
    (slave : Nat) : Nat → SlaveTopology :=
  let (h, b) := linkPorts (status slave).dlstat
  let slavelist := Function.update slavelist slave
    { hasdc := 0 < (status slave).escsup &&& 0x04
      topology := h
      activeports := b
      parent := 0 }
  if 1 < slave then
    Function.update slavelist slave
      { slavelist slave with
        parent := parentSearch (fun k => (slavelist k).topology) (slave - 1) 0 }
  else slavelist

/-- The loop over the slaves `1` to `slavecount`. -/
def configTopologies (status : Nat → SlaveStatus) (slavelist : Nat → SlaveTopology) :
    Nat → Nat → SlaveTopology
  | 0 => slavelist
  | slavecount + 1 =>
      configTopology status (configTopologies status slavelist slavecount) (slavecount + 1)

/-- The search only reads the slaves it passes. -/
theorem parentSearch_congr {f g : Nat → Nat} {slavec : Nat}
    (h : ∀ k, 0 < k → k ≤ slavec → f k = g k) (topoc : Int) :
    parentSearch f slavec topoc = parentSearch g slavec topoc := by
  induction slavec generalizing topoc with
  | zero => rfl
  | succ slavec ih =>
      simp only [parentSearch, h (slavec + 1) (Nat.succ_pos _) le_rfl]
      rw [ih fun k h0 hk => h k h0 (Nat.le_succ_of_le hk)]

/-- The parent comes before the slave. -/
theorem parentSearch_le (topology : Nat → Nat) (slavec : Nat) (topoc : Int) :
    parentSearch topology slavec topoc ≤ slavec := by
  induction slavec generalizing topoc with
  | zero => exact le_rfl
  | succ slavec ih =>
      simp only [parentSearch]
      split_ifs
      · exact le_rfl
      · exact Nat.le_succ_of_le (ih _)

/-- What the loop leaves in the entry of a slave, from the status words alone. -/
def placed (status : Nat → SlaveStatus) (slave : Nat) : SlaveTopology where
  hasdc := 0 < (status slave).escsup &&& 0x04
  topology := (linkPorts (status slave).dlstat).1
  activeports := (linkPorts (status slave).dlstat).2
  parent :=
    if 1 < slave then
      parentSearch (fun k => (linkPorts (status k).dlstat).1) (slave - 1) 0
    else 0

theorem placed_parent_lt (status : Nat → SlaveStatus) {slave : Nat} (h : 0 < slave) :
    (placed status slave).parent < slave := by
  have hle := parentSearch_le (fun k => (linkPorts (status k).dlstat).1) (slave - 1) 0
  simp only [placed]
  split_ifs <;> omega

theorem configTopology_self {status : Nat → SlaveStatus} {slavelist : Nat → SlaveTopology}
    {slave : Nat} (h : ∀ k, 0 < k → k < slave → slavelist k = placed status k) :
    configTopology status slavelist slave slave = placed status slave := by
  by_cases hs : 1 < slave
  · simp only [configTopology, placed, hs, if_true, Function.update_self]
    congr 1
    apply parentSearch_congr
    intro k h0 hk
    have hne : k ≠ slave := by omega
    simp [Function.update_of_ne hne, h k h0 (by omega), placed]
  · simp [configTopology, placed, hs]

theorem configTopology_of_ne (status : Nat → SlaveStatus) (slavelist : Nat → SlaveTopology)
    {slave k : Nat} (h : k ≠ slave) :
    configTopology status slavelist slave k = slavelist k := by
  by_cases hs : 1 < slave <;> simp [configTopology, hs, h]

/-- After the loop every slave has the entry its status words give. -/
theorem configTopologies_eq_placed (status : Nat → SlaveStatus)
    (slavelist : Nat → SlaveTopology) {slavecount k : Nat} (h0 : 0 < k)
    (hk : k ≤ slavecount) : configTopologies status slavelist slavecount k = placed status k := by
  induction slavecount generalizing k with
  | zero => omega
  | succ n ih =>
      by_cases hlast : k = n + 1
      · subst hlast
        exact configTopology_self fun j hj hjn => ih hj (Nat.le_of_lt_succ hjn)
      · exact (configTopology_of_ne status _ hlast).trans (ih h0 (by omega))

/-- The search runs like the scan of the numbers of children, a slave having one link more
than it has slaves behind it. -/
theorem parentSearch_eq_scan {topology : Nat → Nat} {as : List Nat}
    (h : ∀ i a, as[i]? = some a → topology (i + 1) = 1 + a ∧ a ≤ 3) {k : Nat}
    (hk : k ≤ as.length) (topoc : Int) :
    parentSearch topology k topoc = Forest.scan (as.take k).reverse topoc := by
  induction k generalizing topoc with
  | zero => rfl
  | succ k ih =>
      obtain ⟨a, ha⟩ : ∃ a, as[k]? = some a := ⟨_, List.getElem?_eq_getElem hk⟩
      obtain ⟨htopology, hle⟩ := h k a ha
      have hstep : topocStep (1 + a) topoc = topoc + a - 1 := by
        simp only [topocStep]
        split_ifs <;> omega
      have hrest : (as.take k).reverse = [] ↔ k + 1 = 1 := by
        simp only [List.reverse_eq_nil_iff, List.take_eq_nil_iff]
        constructor
        · rintro (h0 | h0)
          · omega
          · simp [h0] at hk
        · intro h0
          exact .inl (by omega)
      have hcons : (as.take (k + 1)).reverse = a :: (as.take k).reverse := by
        simp [List.take_add_one, ha]
      rw [hcons]
      simp only [parentSearch, Forest.scan, htopology, hstep, hrest, ih (Nat.le_of_succ_le hk)]
      have hlen : (as.take k).reverse.length = k := by simp; omega
      have hpos : 1 < 1 + a ↔ 0 < a := by omega
      simp only [hlen, hpos]

/-- A slave on the bus: the port a frame enters by, the port of the slave before it that
the cable leads to, whether it has distributed clocks, the delay of its cable and its
clock's offset. -/
structure Station where
  entry : Fin 4
  port : Fin 4
  hasdc : Bool
  cable : Nat
  clock : Int
  deriving DecidableEq, Repr

/-- The ports with a link: the entry and those that lead to the slaves behind. -/
def links (n : Station × List Station) : List (Fin 4) := n.1.entry :: n.2.map Station.port

/-- The mask of a set of ports. -/
def portMask (ps : List (Fin 4)) : UInt8 :=
  [0, 1, 2, 3].foldl (fun b p => if p ∈ ps then b ||| portM p else b) 0

/-- The status words tell a slave's ports and whether it has distributed clocks. -/
structure Reports (s : SlaveStatus) (n : Station × List Station) : Prop where
  hasdc : 0 < s.escsup &&& 0x04 ↔ n.1.hasdc = true
  linked (p : Fin 4) : portLinked s.dlstat p = true ↔ p ∈ links n

theorem length_eq_count {ps : List (Fin 4)} (h : ps.Nodup) :
    ps.length = (if 0 ∈ ps then 1 else 0) + (if 1 ∈ ps then 1 else 0) +
      (if 2 ∈ ps then 1 else 0) + (if 3 ∈ ps then 1 else 0) := by
  calc
    ps.length = ps.toFinset.card := (List.toFinset_card_of_nodup h).symm
    _ = (Finset.univ.filter fun p => p ∈ ps).card := by
      congr 1
      ext p
      simp
    _ = ∑ p : Fin 4, if p ∈ ps then 1 else 0 := Finset.card_filter _ _
    _ = _ := Fin.sum_univ_four _

theorem linkPorts_of_reports {s : SlaveStatus} {n : Station × List Station}
    (h : Reports s n) (hnodup : (links n).Nodup) :
    linkPorts s.dlstat = (1 + n.2.length, portMask (links n)) := by
  have hlen : 1 + n.2.length = (links n).length := by simp [links, Nat.add_comm]
  rw [hlen, length_eq_count hnodup]
  simp only [linkPorts, linkPort, portMask, List.foldl, h.linked]
  split_ifs <;> rfl

/-- The wiring of a bus whose frames enter at slave `root`: no port is used twice. -/
def Wired (bus : Forest Station) : Prop := ∀ n ∈ bus.nodes, (links n).Nodup

/-- What the search should leave in the entry of a slave whose parent is `parent`. -/
def inPlace (n : Station × List Station) (parent : Nat) : SlaveTopology where
  hasdc := n.1.hasdc
  topology := 1 + n.2.length
  activeports := portMask (links n)
  parent := parent

theorem placed_eq_inPlace {root : Station} {behind : Forest Station}
    (hwired : Wired (.node root behind .empty)) {status : Nat → SlaveStatus}
    (hstatus : ∀ i n, (Forest.node root behind .empty).nodes[i]? = some n →
      Reports (status (i + 1)) n)
    {i : Nat} {n : Station × List Station} {parent : Nat}
    (hn : (Forest.node root behind .empty).nodes[i]? = some n)
    (hparent : ((Forest.node root behind .empty).parents 0 1)[i]? = some parent) :
    placed status (i + 1) = inPlace n parent := by
  have hi : i < (Forest.node root behind .empty).size := by
    have := (List.getElem?_eq_some_iff.mp hn).1
    simpa using this
  -- the numbers of children are the numbers of links less one
  have htopology (k : Nat) (a : Nat)
      (ha : (Forest.node root behind .empty).arities[k]? = some a) :
      (linkPorts (status (k + 1)).dlstat).1 = 1 + a ∧ a ≤ 3 := by
    rw [Forest.arities_eq_map_nodes, List.getElem?_map] at ha
    obtain ⟨m, hm, rfl⟩ := Option.map_eq_some_iff.mp ha
    have hnodup := hwired m (List.mem_of_getElem? hm)
    refine ⟨by rw [linkPorts_of_reports (hstatus k m hm) hnodup], ?_⟩
    have hcard : (links m).length ≤ 4 := by simpa using hnodup.length_le_card
    simp only [links, List.length_cons, List.length_map] at hcard
    omega
  have hsearch : parentSearch (fun k => (linkPorts (status k).dlstat).1) i 0 = parent := by
    have hscan := (Forest.scan_tree root behind hi).symm.trans hparent
    exact (parentSearch_eq_scan htopology (by simpa using Nat.le_of_lt hi) 0).trans
      (Option.some.inj hscan)
  have hreports := hstatus i n hn
  rw [placed, linkPorts_of_reports hreports (hwired n (List.mem_of_getElem? hn)), inPlace]
  congr 1
  · simp [hreports.hasdc]
  · by_cases h0 : 1 < i + 1
    · simpa [h0] using hsearch
    · have hz : i = 0 := by omega
      subst hz
      simpa [parentSearch] using hsearch

/-- On every bus without loops the backward search finds each slave's parent. -/
theorem configTopologies_finds_parents (root : Station) (behind : Forest Station)
    (hwired : Wired (.node root behind .empty)) (status : Nat → SlaveStatus)
    (hstatus : ∀ i n, (Forest.node root behind .empty).nodes[i]? = some n →
      Reports (status (i + 1)) n)
    (slavelist : Nat → SlaveTopology) (i : Nat) (n : Station × List Station) (parent : Nat)
    (hn : (Forest.node root behind .empty).nodes[i]? = some n)
    (hparent : ((Forest.node root behind .empty).parents 0 1)[i]? = some parent) :
    configTopologies status slavelist (Forest.node root behind .empty).size (i + 1) =
      inPlace n parent := by
  have hi : i < (Forest.node root behind .empty).size := by
    have := (List.getElem?_eq_some_iff.mp hn).1
    simpa using this
  calc
    configTopologies status slavelist (Forest.node root behind .empty).size (i + 1)
    _ = placed status (i + 1) :=
      configTopologies_eq_placed status slavelist (Nat.succ_pos i) hi
    _ = inPlace n parent := placed_eq_inPlace hwired hstatus hn hparent

/-- A first slave with two branches, one of two slaves and one of one. -/
def splitRoot : Station := ⟨0, 0, true, 50, -1000⟩

/-- The slaves behind `splitRoot`; the second one is entered by its port 1. -/
def splitBehind : Forest Station :=
  .node ⟨0, 3, false, 10, 0⟩ (.node ⟨1, 1, true, 20, 5⟩ .empty .empty)
    (.node ⟨0, 1, true, 30, 7⟩ .empty .empty)

/-- The status words of the slaves 1 to 4. -/
def splitStatus (slave : Nat) : SlaveStatus :=
  match slave with
  | 1 => ⟨0x04, 0x8A00⟩
  | 2 => ⟨0x00, 0x0A00⟩
  | 3 => ⟨0x04, 0x0800⟩
  | _ => ⟨0x04, 0x0200⟩

theorem splitStatus_reports (i : Nat) (n : Station × List Station)
    (h : (Forest.node splitRoot splitBehind .empty).nodes[i]? = some n) :
    Reports (splitStatus (i + 1)) n := by
  have hall : Numbered (fun k n => Reports (splitStatus k) n) 1
      (Forest.node splitRoot splitBehind .empty).nodes :=
    ⟨⟨by decide, by decide⟩, ⟨by decide, by decide⟩, ⟨by decide, by decide⟩,
      ⟨by decide, by decide⟩, trivial⟩
  rw [Nat.add_comm]
  exact hall.get h

theorem split_wired : Wired (.node splitRoot splitBehind .empty) := by
  unfold Wired
  decide

/-- The last slave hangs at the first one, although it comes after two others. -/
theorem configTopologies_finds_parents_split :
    configTopologies splitStatus (fun _ => ⟨false, 0, 0, 0⟩) 4 4 = ⟨true, 1, 1, 1⟩ :=
  configTopologies_finds_parents splitRoot splitBehind split_wired splitStatus
    splitStatus_reports _ 3 (⟨0, 1, true, 30, 7⟩, []) 1 rfl rfl

end RaipalSoem

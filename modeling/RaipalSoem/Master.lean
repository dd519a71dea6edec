import RaipalSoem.StateCheck
import RaipalSoem.ProcessData
import RaipalSoem.MapLayout

/-!
# The master object

Constructor and destructor of `EthercatMaster`, as the actions they take on the bus.
What the library calls return is data of the surroundings: any return value of
`ec_init` and `ec_config_init`, any poll and any exchange. A constructor that throws
leaves no object behind, so no destructor runs for it. Outputs that reach beyond `IOmap_`
are zeroed with the slave count that stands there, and no slaves are found then.
-/

namespace RaipalSoem

open Lib

/-- What `ec_send_processdata` and `ec_receive_processdata` leave behind: the process
image and the work counter. -/
structure Exchange where
  image : Image
  wkc : Int

/-- An action of the demo. All but the last are calls of the library: one event for
each poll, and one for each pair of send and receive with the image that is sent.
The last records that `load_cfg` has returned a vector of the given length. -/
inductive Event (n : Nat)
  | init
  | configInit
  | configMap
  | configDc
  | poll (p : Poll n)
  | exchange (sent : Image) (result : Exchange)
  | writeState (state : UInt16)
  | readState
  | close
  | loaded (entries : Nat)

/-- The poll of an event. -/
def Event.poll? {n : Nat} : Event n → Option (Poll n)
  | .poll p => some p
  | _ => none

/-- The last state poll of a trace. -/
def lastPoll {n : Nat} (t : List (Event n)) : Option (Poll n) := (t.filterMap Event.poll?).getLast?

/-- The surroundings of the constructor. `m` is what `ec_config_map` finds and
`ec_slavecount` is the number of its slaves; `opPolls i` and `opExchange i` belong to
round `i` of the loop that waits for OPERATIONAL. -/
structure Startup (m : Mapping) where
  ecInit : Int
  ecConfigInit : Int
  slavecount : 0 < ecConfigInit → ecConfigInit = m.slaves.length
  safeOpPolls : PollWindow m.slaves.length
  firstExchange : Exchange
  opPolls : Nat → PollWindow m.slaves.length
  opExchange : Nat → Exchange

/-- `IOmap_` in a new object. -/
def zeroImage : Image := fun _ => 0

/-- The loop that zeroes the outputs after the mapping. -/
def zeroOutputs (slaves : List EcSlave) (image : Image) : Image :=
  slaves.foldl
    (fun image s =>
      match s.outputs with
      | some b => if 0 < s.obytes then image.write b (List.replicate s.obytes 0) else image
      | none => image)
    image

/-- Where `slaveCount_` starts, counted from the start of `IOmap_`: `expectedWKC_`, `inOP_`
and padding lie between them. -/
def slaveCountOffset : Nat := 4104

/-- The slave count that is left when the outputs are zeroed. It is below 256, and a
little-endian host keeps all of it in its first byte. -/
def Mapping.slaveCount (m : Mapping) : Nat :=
  if zeroOutputs m.slaves (fun _ => 1) slaveCountOffset = 0 then 0 else m.slaves.length

variable {m : Mapping}

/-- `EthercatMaster::discoverAndMap`, with the process image if it returns true. -/
def discoverAndMap (env : Startup m) : Traced (Event m.slaves.length) (Option Image) :=
  if env.ecInit = 0 then ⟨[.init], none⟩
  else if env.ecConfigInit ≤ 0 then ⟨[.init, .configInit, .close], none⟩
  else
    let check := ecStatecheck ecStateSafeOp env.safeOpPolls
    let image := zeroOutputs m.slaves zeroImage
    ⟨[.init, .configInit, .configMap, .configDc] ++ check.trace.map .poll ++
        [.exchange image env.firstExchange],
      if 0 < m.slaveCount then some env.firstExchange.image else none⟩

/-- The body of the loop that waits for OPERATIONAL: the image afterwards, and
`ec_slave[0].state`. -/
def opRound (env : Startup m) (i : Nat) (image : Image) :
    Traced (Event m.slaves.length) (Image × UInt16) :=
  let check := ecStatecheck ecStateOperational (env.opPolls i)
  ⟨.exchange image (env.opExchange i) :: check.trace.map .poll,
    ((env.opExchange i).image, check.value)⟩

/-- `do … while (chk-- && ec_slave[0].state != EC_STATE_OPERATIONAL)`, from round `i` on. -/
def opLoop (env : Startup m) : Nat → Nat → Image →
    Traced (Event m.slaves.length) (Image × UInt16)
  | 0, i, image => opRound env i image
  | chk + 1, i, image =>
      let round := opRound env i image
      if round.value.2 ≠ ecStateOperational then
        let rest := opLoop env chk (i + 1) round.value.1
        ⟨round.trace ++ rest.trace, rest.value⟩
      else round

/-- The text of the first exception of the constructor. -/
def noSlavesText : String := "EtherCAT discovery failed (no slaves found or network issue)"

/-- The text of the second one. -/
def notOperationalText : String := "Not all slaves reached OPERATIONAL"

/-- The constructor: the text of the exception it throws, or the image of the object,
which then has `inOP_` set. -/
def ethercatMaster (env : Startup m) : Traced (Event m.slaves.length) (Except String Image) :=
  let found := discoverAndMap env
  match found.value with
  | none => ⟨found.trace, .error noSlavesText⟩
  | some image =>
      let rounds := opLoop env 200 0 image
      let trace := found.trace ++ .writeState ecStateOperational :: rounds.trace
      if rounds.value.2 ≠ ecStateOperational then
        ⟨trace ++ [.readState, .close], .error notOperationalText⟩
      else ⟨trace, .ok rounds.value.1⟩

/-- The destructor. -/
def destroyMaster (n : Nat) : List (Event n) := [.writeState ecStateInit, .close]

/-- An event is a state poll or an exchange. -/
def Event.Waiting {n : Nat} : Event n → Prop
  | .poll _ => True
  | .exchange _ _ => True
  | _ => False

section SlaveCount

/-- Zeroing the outputs leaves alone what lies behind all of them. -/
theorem zeroOutputs_of_le {slaves : List EcSlave} {a : Nat}
    (h : ∀ s ∈ slaves, ∀ b, s.outputs = some b → b + s.obytes ≤ a) (image : Image) :
    zeroOutputs slaves image a = image a := by
  unfold zeroOutputs
  induction slaves generalizing image with
  | nil => rfl
  | cons s slaves ih =>
      rw [List.foldl_cons, ih fun t ht => h t (List.mem_cons_of_mem s ht)]
      cases hb : s.outputs with
      | none => rfl
      | some b =>
          dsimp only
          split_ifs
          · have hle := h s (by simp) b hb
            exact Memory.write_apart _ (Or.inr (by simpa using hle))
          · rfl

theorem Mapping.slaveCount_le (m : Mapping) : m.slaveCount ≤ m.slaves.length := by
  unfold Mapping.slaveCount
  split_ifs
  · exact Nat.zero_le _
  · exact le_refl _

/-- The output bytes of a slave lie in the image. -/
theorem Mapping.LaysOut.outputs_le {bus : List SlaveInfo} (h : m.LaysOut bus) {s : EcSlave}
    (hs : s ∈ m.slaves) {b : Nat} (hb : s.outputs = some b) : b + s.obytes ≤ imageBytes bus := by
  obtain ⟨f, hf, hholds⟩ := forall₂_mem_right (h.holds .output) hs
  have hend := (busFields_bounds bus hf).1
  have hbytes : s.obytes = byteLength (s.bits .output) := h.bytes hs .output
  have hbase : s.outputs = if s.bits .output = 0 then none else some f.firstByte := hholds.base
  obtain ⟨c, hc⟩ := hholds.field
  rw [hb] at hbase
  split_ifs at hbase with hbits
  obtain rfl : b = f.firstByte := Option.some.inj hbase
  rw [hbytes, byteLength]
  split_ifs with hlong
  · have hlen := (place_aligned c (show 8 ≤ s.bits .output by omega)).2.2
    rw [← hc] at hlen
    omega
  · have hlt := place_bytes_lt c (Nat.pos_of_ne_zero hbits)
    rw [← hc] at hlt
    omega

/-- An image that fits the buffer leaves the slave count alone. -/
theorem Mapping.LaysOut.slaveCount_eq {bus : List SlaveInfo} (h : m.LaysOut bus)
    (hfits : imageBytes bus ≤ ioMapSize) : m.slaveCount = m.slaves.length := by
  have hkept : zeroOutputs m.slaves (fun _ => 1) slaveCountOffset = 1 := by
    refine zeroOutputs_of_le (fun s hs b hb => ?_) _
    have hle := h.outputs_le hs hb
    unfold ioMapSize at hfits
    unfold slaveCountOffset
    omega
  rw [Mapping.slaveCount, hkept]
  exact if_neg (by decide)

end SlaveCount

section OpLoop

variable (env : Startup m)

/-- The poll that ends round `j`. -/
def Startup.roundPoll (j : Nat) : Poll m.slaves.length :=
  (env.opPolls j).ending ecStateOperational

/-- Some round of the loop reads OPERATIONAL. -/
def Startup.ReadsOperational : Prop := ∃ j ≤ 200, SomeOperational (env.roundPoll j)

theorem opRound_waiting (i : Nat) (image : Image) :
    ∀ e ∈ (opRound env i image).trace, e.Waiting := by
  intro e he
  rcases List.mem_cons.mp he with rfl | he
  · trivial
  · obtain ⟨p, _, rfl⟩ := List.mem_map.mp he
    trivial

theorem opLoop_waiting (chk i : Nat) (image : Image) :
    ∀ e ∈ (opLoop env chk i image).trace, e.Waiting := by
  induction chk generalizing i image with
  | zero => exact opRound_waiting env i image
  | succ chk ih =>
      unfold opLoop
      dsimp only
      split_ifs
      · intro e he
        rcases List.mem_append.mp he with he | he
        · exact opRound_waiting env i image e he
        · exact ih _ _ e he
      · exact opRound_waiting env i image

theorem opRound_last (i : Nat) (image : Image) :
    ∃ before, (opRound env i image).trace = before ++ [.poll (env.roundPoll i)] ∧
      (opRound env i image).value.2 = statusOf (env.roundPoll i) := by
  obtain ⟨before, htrace, hvalue⟩ := ecStatecheck_last ecStateOperational (env.opPolls i)
  exact ⟨.exchange image (env.opExchange i) :: before.map .poll,
    by simp [opRound, htrace, Startup.roundPoll], hvalue⟩

/-- The state that the loop ends with is that of its last poll, which ends some round. No
round before reads OPERATIONAL, and only the last round the loop admits may end it with
another state. -/
theorem opLoop_last (chk i : Nat) (image : Image) :
    ∃ before, ∃ j ≤ chk, (opLoop env chk i image).trace =
        before ++ [.poll (env.roundPoll (i + j))] ∧
      (opLoop env chk i image).value.2 = statusOf (env.roundPoll (i + j)) ∧
      (∀ l < j, ¬ SomeOperational (env.roundPoll (i + l))) ∧
      (j = chk ∨ SomeOperational (env.roundPoll (i + j))) := by
  induction chk generalizing i image with
  | zero =>
      obtain ⟨before, htrace, hvalue⟩ := opRound_last env i image
      exact ⟨before, 0, le_refl 0, htrace, hvalue,
        fun l hl => absurd hl (Nat.not_lt_zero l), Or.inl rfl⟩
  | succ chk ih =>
      obtain ⟨before, htrace, hvalue⟩ := opRound_last env i image
      unfold opLoop
      dsimp only
      split_ifs with h
      · obtain ⟨before', j, hj, htrace', hvalue', hearlier, hend⟩ :=
          ih (i + 1) (opRound env i image).value.1
        have hindex : ∀ l, i + 1 + l = i + (l + 1) := fun l => by omega
        simp only [hindex] at htrace' hvalue' hearlier hend
        refine ⟨(opRound env i image).trace ++ before', j + 1, Nat.succ_le_succ hj,
          by simp [htrace'], hvalue', fun l hl => ?_, hend.imp_left (congrArg (· + 1))⟩
        cases l with
        | zero =>
            rw [hvalue, Ne, statusOf_eq_iff] at h
            exact h
        | succ l => exact hearlier l (Nat.lt_of_succ_lt_succ hl)
      · rw [not_not, hvalue, statusOf_eq_iff] at h
        exact ⟨before, 0, Nat.zero_le _, htrace, hvalue,
          fun l hl => absurd hl (Nat.not_lt_zero l), Or.inr h⟩

/-- The loop ends with OPERATIONAL exactly when one of its rounds reads it. -/
theorem opLoop_operational_iff (image : Image) :
    (opLoop env 200 0 image).value.2 = ecStateOperational ↔ env.ReadsOperational := by
  obtain ⟨_, j, hj, _, hvalue, hearlier, hend⟩ := opLoop_last env 200 0 image
  simp only [Nat.zero_add] at hvalue hearlier hend
  rw [hvalue, statusOf_eq_iff]
  constructor
  · exact fun h => ⟨j, hj, h⟩
  · rintro ⟨l, hl, h⟩
    have hle : j ≤ l := not_lt.mp fun hlt => hearlier l hlt h
    rcases hend with hend | hend
    · obtain rfl : l = j := by omega
      exact h
    · exact hend

end OpLoop

section Cases

variable (env : Startup m)

/-- `ec_init` succeeds, `ec_config_init` finds slaves, and their count is not lost. -/
def Startup.Found : Prop := env.ecInit ≠ 0 ∧ 0 < env.ecConfigInit ∧ 0 < m.slaveCount

theorem Startup.Found.length_pos {env : Startup m} (h : env.Found) : 0 < m.slaves.length :=
  h.2.2.trans_le m.slaveCount_le

/-- The actions up to the end of `discoverAndMap`, if slaves are found. -/
def Startup.mapTrace : List (Event m.slaves.length) :=
  [.init, .configInit, .configMap, .configDc] ++
    (ecStatecheck ecStateSafeOp env.safeOpPolls).trace.map .poll ++
      [.exchange (zeroOutputs m.slaves zeroImage) env.firstExchange]

/-- The actions up to the end of the loop that waits for OPERATIONAL. -/
def Startup.waitTrace : List (Event m.slaves.length) :=
  (discoverAndMap env).trace ++
    .writeState ecStateOperational :: (opLoop env 200 0 env.firstExchange.image).trace

theorem discoverAndMap_configured {env : Startup m} (hinit : env.ecInit ≠ 0)
    (hconfig : 0 < env.ecConfigInit) :
    (discoverAndMap env).trace = env.mapTrace ∧
      (discoverAndMap env).value =
        if 0 < m.slaveCount then some env.firstExchange.image else none := by
  rw [discoverAndMap, if_neg hinit, if_neg (by omega)]
  exact ⟨rfl, rfl⟩

theorem discoverAndMap_found {env : Startup m} (h : env.Found) :
    (discoverAndMap env).trace = env.mapTrace ∧
      (discoverAndMap env).value = some env.firstExchange.image := by
  obtain ⟨htrace, hvalue⟩ := discoverAndMap_configured h.1 h.2.1
  exact ⟨htrace, hvalue.trans (if_pos h.2.2)⟩

/-- `discoverAndMap` returns true exactly when slaves are found. -/
theorem discoverAndMap_isSome_iff :
    (discoverAndMap env).value.isSome = true ↔ env.Found := by
  constructor
  · intro h
    have hinit : env.ecInit ≠ 0 := fun h₁ => by simp [discoverAndMap, h₁] at h
    have hconfig : 0 < env.ecConfigInit := by
      by_contra h₂
      simp [discoverAndMap, hinit, not_lt.mp h₂] at h
    rw [(discoverAndMap_configured hinit hconfig).2] at h
    split_ifs at h with hcount
    · exact ⟨hinit, hconfig, hcount⟩
    · cases h
  · intro h
    rw [(discoverAndMap_found h).2]
    rfl

/-- The actions of the waiting phase. -/
theorem mem_waitTrace {env : Startup m} (h : env.Found) {ev : Event m.slaves.length}
    (hev : ev ∈ env.waitTrace) :
    ev.Waiting ∨ ev ∈ [.init, .configInit, .configMap, .configDc,
      .writeState ecStateOperational] := by
  rw [Startup.waitTrace, (discoverAndMap_found h).1, Startup.mapTrace] at hev
  simp only [List.mem_append, List.mem_cons, List.not_mem_nil, or_false, List.mem_map] at hev ⊢
  rcases hev with ((hcall | ⟨p, _, rfl⟩) | rfl) | hstate | hev
  · right
    tauto
  · exact Or.inl trivial
  · exact Or.inl trivial
  · right
    tauto
  · exact Or.inl (opLoop_waiting env 200 0 _ ev hev)

/-- The five ways through the constructor. -/
theorem ethercatMaster_cases :
    (env.ecInit = 0 ∧ (ethercatMaster env).trace = [.init] ∧
      (ethercatMaster env).value = .error noSlavesText) ∨
    (env.ecInit ≠ 0 ∧ env.ecConfigInit ≤ 0 ∧
      (ethercatMaster env).trace = [.init, .configInit, .close] ∧
      (ethercatMaster env).value = .error noSlavesText) ∨
    (env.ecInit ≠ 0 ∧ 0 < env.ecConfigInit ∧ m.slaveCount = 0 ∧
      (ethercatMaster env).trace = env.mapTrace ∧
      (ethercatMaster env).value = .error noSlavesText) ∨
    (env.Found ∧ ¬ env.ReadsOperational ∧
      (ethercatMaster env).trace = env.waitTrace ++ [.readState, .close] ∧
      (ethercatMaster env).value = .error notOperationalText) ∨
    (env.Found ∧ env.ReadsOperational ∧ (ethercatMaster env).trace = env.waitTrace ∧
      (ethercatMaster env).value = .ok (opLoop env 200 0 env.firstExchange.image).value.1) := by
  by_cases h₁ : env.ecInit = 0
  · left
    simp [ethercatMaster, discoverAndMap, h₁]
  by_cases h₂ : env.ecConfigInit ≤ 0
  · right; left
    simp [ethercatMaster, discoverAndMap, h₁, h₂]
  right; right
  by_cases hcount : m.slaveCount = 0
  · left
    obtain ⟨htrace, hvalue⟩ := discoverAndMap_configured h₁ (not_le.mp h₂)
    rw [if_neg (by omega)] at hvalue
    refine ⟨h₁, not_le.mp h₂, hcount, ?_, ?_⟩
    · rw [ethercatMaster, hvalue]
      exact htrace
    · rw [ethercatMaster, hvalue]
  right
  have hfound : env.Found := ⟨h₁, by omega, Nat.pos_of_ne_zero hcount⟩
  have hvalue := (discoverAndMap_found hfound).2
  rw [← opLoop_operational_iff env env.firstExchange.image]
  unfold ethercatMaster
  dsimp only
  rw [hvalue]
  dsimp only
  by_cases h₃ : (opLoop env 200 0 env.firstExchange.image).value.2 = ecStateOperational
  · right
    rw [if_neg (not_not.mpr h₃)]
    exact ⟨hfound, h₃, rfl, rfl⟩
  · left
    rw [if_pos h₃]
    exact ⟨hfound, h₃, rfl, rfl⟩

/-- With slaves that are seen to reach OPERATIONAL the constructor returns. -/
theorem ethercatMaster_ok {env : Startup m} (hfound : env.Found)
    (hreads : env.ReadsOperational) :
    (ethercatMaster env).trace = env.waitTrace ∧
      (ethercatMaster env).value = .ok (opLoop env 200 0 env.firstExchange.image).value.1 := by
  rcases ethercatMaster_cases env with ⟨h, _⟩ | ⟨_, h, _⟩ | ⟨_, _, h, _⟩ | ⟨_, h, _⟩ | ⟨_, _, h⟩
  · exact absurd h hfound.1
  · exact absurd hfound.2.1 (not_lt.mpr h)
  · exact absurd h hfound.2.2.ne'
  · exact absurd hreads h
  · exact h

end Cases

section Prompt

/-- A start-up in which all slaves report OPERATIONAL to the first poll that waits for
it, and no process-data frame comes back. -/
def promptStartup (m : Mapping) : Startup m where
  ecInit := 1
  ecConfigInit := m.slaves.length
  slavecount _ := rfl
  safeOpPolls := ⟨none, []⟩
  firstExchange := ⟨zeroImage, ecNoFrame⟩
  opPolls _ := ⟨some fun _ => some ecStateOperational, []⟩
  opExchange _ := ⟨zeroImage, ecNoFrame⟩

theorem promptStartup_roundPoll (hpos : 0 < m.slaves.length) (i : Nat) :
    SomeOperational ((promptStartup m).roundPoll i) :=
  ⟨_, PollWindow.ending_nil _ _, ⟨⟨0, hpos⟩, rfl⟩,
    fun _ _ hword => Or.inr (Option.some.inj hword).symm⟩

/-- With at least one slave the constructor then returns. -/
theorem promptStartup_reads (hcount : 0 < m.slaveCount) :
    (promptStartup m).Found ∧ (promptStartup m).ReadsOperational := by
  have hpos := hcount.trans_le m.slaveCount_le
  exact ⟨⟨by simp [promptStartup], by simpa [promptStartup] using hpos, hcount⟩, 0,
    Nat.zero_le _, promptStartup_roundPoll hpos 0⟩

/-- It waits for one round. -/
theorem promptStartup_opLoop (hpos : 0 < m.slaves.length) (image : Image) :
    opLoop (promptStartup m) 200 0 image = opRound (promptStartup m) 0 image := by
  obtain ⟨_, _, hvalue⟩ := opRound_last (promptStartup m) 0 image
  rw [opLoop]
  refine if_neg (not_not.mpr ?_)
  rw [hvalue, statusOf_eq_iff]
  exact promptStartup_roundPoll hpos 0

end Prompt

end RaipalSoem

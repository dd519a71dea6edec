import RaipalSoem.MapLayout
import RaipalSoem.Actuator
import RaipalSoem.Lib.Sweep

/-!
# Isolation of the slaves in the process image

Every iteration of the demo writes 16 bytes from the output pointer of each slave
on and reads 13 bytes from its input pointer on, whatever its mapped sizes. The
slaves stay isolated exactly when every slave has at least that many bytes.
-/

namespace RaipalSoem

open Lib

/-- The loop of `main` that writes the commands of all slaves. -/
def writeCommands (e : Endian) (slaves : List EcSlave)
    (cmds : Fin slaves.length → ActuatorCommand) (m : Image) : Option Image :=
  (List.finRange slaves.length).foldlM
    (fun m k => writeCommand e {} (slaves.get k).outputs (cmds k) m) m

/-- The output area of a slave holds the whole encoding of a command. -/
def HoldsEncoding (s : EcSlave) (cmd : ActuatorCommand) (m : Image) : Prop :=
  ∃ b, s.outputs = some b ∧ (∀ i < 16, b + i ∈ s.area .output) ∧ m.read b 16 = commandBytes cmd

/-- Reading the feedback of a slave has a result, which depends on nothing but the
input area of the slave. -/
def ReadsOwnInputs (e : Endian) (s : EcSlave) : Prop :=
  ∀ m m' : Image, (∀ a ∈ s.area .input, m a = m' a) →
    ∃ fb, readFeedback e {} s.inputs m = some fb ∧ readFeedback e {} s.inputs m' = some fb

/-- An iteration keeps the slaves apart: each command arrives in its own area, nothing
outside the output areas changes, and each feedback comes from its own area. -/
def IterationIsolated (e : Endian) (slaves : List EcSlave)
    (cmds : Fin slaves.length → ActuatorCommand) (m : Image) : Prop :=
  ∃ m', writeCommands e slaves cmds m = some m' ∧
    (∀ k, HoldsEncoding (slaves.get k) (cmds k) m') ∧
    (∀ a, (∀ k, a ∉ (slaves.get k).area .output) → m' a = m a) ∧
    ∀ s ∈ slaves, ReadsOwnInputs e s

/-- With all output pointers set the loop is a sweep of 16-byte writes. -/
theorem writeCommands_eq (e : Endian) (slaves : List EcSlave)
    (cmds : Fin slaves.length → ActuatorCommand) (m : Image) (off : Fin slaves.length → Nat)
    (hoff : ∀ k, (slaves.get k).outputs = some (off k)) :
    writeCommands e slaves cmds m =
      some ((List.finRange slaves.length).foldl
        (fun m k => m.write (off k) (commandBytes (cmds k))) m) := by
  refine foldlM_eq_some _ (fun m k _ => ?_) m
  rw [hoff k, writeCommand, Option.map_some, storeCommand_default]

/-- The bytes of a byte-oriented slave, seen from its base pointer. -/
structure WholeBytes (s : EcSlave) (dir : Direction) (b : Nat) : Prop where
  base : s.base dir = some b
  area : ∀ a, a ∈ s.area dir ↔ b ≤ a ∧ a < b + s.bytes dir

/-- A slave with a base pointer has at most two bytes or exactly its byte count. -/
theorem EcSlave.Holds.area_base {s : EcSlave} {dir : Direction} {f : Field} {b : Nat}
    (h : s.Holds dir f) (hbytes : s.bytes dir = byteLength (s.bits dir))
    (hb : s.base dir = some b) :
    WholeBytes s dir b ∨ ∀ a ∈ s.area dir, a < b + 2 := by
  obtain ⟨c, hc⟩ := h.field
  have hbase := h.base
  rw [hb] at hbase
  split_ifs at hbase with hbits
  obtain rfl : b = f.firstByte := Option.some.inj hbase
  by_cases hlt : s.bits dir < 8
  · right
    intro a ha
    obtain ⟨_, h₁, h₂⟩ := (h.mem_area a).mp ha
    rw [hc, place, if_pos hlt] at h₂ ⊢
    unfold Field.firstByte
    unfold Field.endByte at h₂
    dsimp only at h₂ ⊢
    omega
  · left
    refine ⟨hb, fun a => ?_⟩
    obtain ⟨_, _, hlen⟩ := place_aligned c (show 8 ≤ s.bits dir by omega)
    rw [← hc] at hlen
    rw [h.mem_area, hbytes, byteLength, if_pos (by omega), hlen]
    simp [hbits]

/-- A slave with whole bytes has a base pointer. -/
theorem EcSlave.Holds.wholeBytes {s : EcSlave} {dir : Direction} {f : Field}
    (h : s.Holds dir f) (hbytes : s.bytes dir = byteLength (s.bits dir))
    (hpos : 0 < s.bytes dir) :
    8 ≤ s.bits dir ∧ WholeBytes s dir f.firstByte ∧ f.endByte = f.firstByte + s.bytes dir := by
  have hbits : 8 ≤ s.bits dir := by
    rw [hbytes, byteLength] at hpos
    split_ifs at hpos <;> omega
  obtain ⟨c, hc⟩ := h.field
  obtain ⟨_, _, hlen⟩ := place_aligned c hbits
  have hend : f.endByte = f.firstByte + s.bytes dir := by
    rw [hbytes, byteLength, if_pos (by omega), hc]
    exact hlen
  refine ⟨hbits, ⟨?_, fun a => ?_⟩, hend⟩
  · rw [h.base, if_neg (by omega)]
  · rw [h.mem_area, hend]
    exact and_iff_right (by omega)

section Necessary

variable {s : EcSlave} {f : Field}

/-- Only an area of 16 bytes holds the encoding of a command. -/
theorem HoldsEncoding.obytes_le {cmd : ActuatorCommand} {m : Image} (h : HoldsEncoding s cmd m)
    (hs : s.Holds .output f) (hbytes : s.bytes .output = byteLength (s.bits .output)) :
    16 ≤ s.obytes := by
  obtain ⟨b, hb, hin, _⟩ := h
  have hlast := hin 15 (by omega)
  rcases hs.area_base hbytes hb with hwhole | hshort
  · have hlt : b + 15 < b + s.obytes := ((hwhole.area _).mp hlast).2
    omega
  · have := hshort _ hlast
    omega

/-- Only from an area of 13 bytes the feedback can be read. -/
theorem ReadsOwnInputs.ibytes_le {e : Endian} (h : ReadsOwnInputs e s)
    (hs : s.Holds .input f) (hbytes : s.bytes .input = byteLength (s.bits .input)) :
    13 ≤ s.ibytes := by
  obtain ⟨fb, hfb, _⟩ := h (fun _ => 0) (fun _ => 0) fun _ _ => rfl
  obtain ⟨b, hb, _⟩ := Option.map_eq_some_iff.mp hfb
  have hlast : b + 12 ∈ s.area .input := by
    by_contra hout
    obtain ⟨fb', h₁, h₂⟩ := h (fun _ => 0) (Function.update (fun _ => 0) (b + 12) 1) fun a ha => by
      rw [Function.update_of_ne]
      rintro rfl
      exact hout ha
    rw [hb] at h₁ h₂
    have herror₁ := congrArg ActuatorFeedback.error (Option.some.inj h₁)
    have herror₂ := congrArg ActuatorFeedback.error (Option.some.inj h₂)
    simp only [rdU8, Function.update_self] at herror₁ herror₂
    rw [← herror₂] at herror₁
    exact absurd herror₁ (by decide)
  rcases hs.area_base hbytes hb with hwhole | hshort
  · have hlt : b + 12 < b + s.ibytes := ((hwhole.area _).mp hlast).2
    omega
  · have := hshort _ hlast
    omega

end Necessary

/-- With 13 bytes the whole feedback comes from the area. -/
theorem WholeBytes.readsOwnInputs {s : EcSlave} {b : Nat} (h : WholeBytes s .input b)
    (hlen : 13 ≤ s.ibytes) (e : Endian) : ReadsOwnInputs e s := by
  intro m m' hagree
  have hin : ∀ off len, off + len ≤ 13 → Memory.read m (b + off) len = m'.read (b + off) len := by
    intro off len hle
    apply Memory.read_congr
    rintro a ⟨h₁, h₂⟩
    have hlen' : s.bytes .input = s.ibytes := rfl
    exact hagree a ((h.area a).mpr ⟨by omega, by omega⟩)
  have hbyte : ∀ off, off < 13 → m (b + off) = m' (b + off) := fun off hoff =>
    hagree _ ((h.area _).mpr ⟨by omega, Nat.add_lt_add_left (lt_of_lt_of_le hoff hlen) b⟩)
  have hbase : s.inputs = some b := h.base
  refine ⟨_, by rw [hbase]; rfl, ?_⟩
  rw [hbase, readFeedback, Option.map_some]
  simp only [rdS32, rdS16, rdU8, hin 0 4 (by omega), hin 6 4 (by omega), hin 4 2 (by omega),
    hbyte 10 (by omega), hbyte 11 (by omega), hbyte 12 (by omega)]

/-- The outputs of a slave with whole bytes end where those of a later slave can start. -/
theorem Mapping.LaysOut.outputs_ordered {m : Mapping} {bus : List SlaveInfo} (h : m.LaysOut bus)
    {j k : Fin m.slaves.length} (hjk : j < k) (hpos : 0 < (m.slaves.get j).obytes) {b c : Nat}
    (hb : (m.slaves.get j).outputs = some b) (hc : (m.slaves.get k).outputs = some c) :
    b + (m.slaves.get j).obytes ≤ c := by
  obtain ⟨hj, hfj⟩ := h.field .output j
  obtain ⟨hk, hfk⟩ := h.field .output k
  obtain ⟨hbitsj, hwj, hendj⟩ := hfj.wholeBytes (h.bytes (List.get_mem m.slaves j) .output) hpos
  have hj0 : b = ((busFields bus .output)[j]).firstByte :=
    Option.some.inj (hb.symm.trans hwj.base)
  have hbase : some c = if (m.slaves.get k).bits .output = 0 then none
      else some ((busFields bus .output)[k]).firstByte := hc.symm.trans hfk.base
  split_ifs at hbase
  have hk0 : c = ((busFields bus .output)[k]).firstByte := Option.some.inj hbase
  have hstop : ((busFields bus .output)[j]).stop ≤ ((busFields bus .output)[k]).start :=
    List.pairwise_iff_getElem.mp (fields_pairwise 0 _) j k hj hk hjk
  have hround : ((busFields bus .output)[j]).stop = 8 * ((busFields bus .output)[j]).endByte := by
    obtain ⟨c, hc⟩ := hfj.field
    rw [hc]
    exact (place_aligned c hbitsj).2.1
  rw [hround] at hstop
  have hfirst : ((busFields bus .output)[j]).endByte ≤
      ((busFields bus .output)[k]).firstByte := by
    unfold Field.firstByte
    omega
  have hlen : (m.slaves.get j).bytes .output = (m.slaves.get j).obytes := rfl
  omega

/-- The output areas of two slaves with whole bytes are apart. -/
theorem Mapping.LaysOut.outputs_apart {m : Mapping} {bus : List SlaveInfo} (h : m.LaysOut bus)
    (hpos : ∀ s ∈ m.slaves, 16 ≤ s.obytes) {off : Fin m.slaves.length → Nat}
    (hoff : ∀ k, (m.slaves.get k).outputs = some (off k)) :
    (List.finRange m.slaves.length).Pairwise fun j k => Apart (off j) 16 (off k) 16 := by
  refine List.Pairwise.imp (R := fun j k : Fin m.slaves.length => j < k) ?_
    (List.pairwise_lt_finRange _)
  intro j k hjk
  have hlen := hpos _ (List.get_mem m.slaves j)
  have hle := h.outputs_ordered hjk (by omega) (hoff j) (hoff k)
  left
  omega

/-- Two slaves with 12 output bytes and 13 input bytes each. -/
def twoShortSlaves : List SlaveInfo := List.replicate 2 (twoSmSlave 96 104)

/-- Every iteration on the bus keeps its slaves apart. -/
def Isolated (bus : List SlaveInfo) : Prop :=
  ∀ m, ecConfigMap bus = some m → ∀ e cmds img, IterationIsolated e m.slaves cmds img

/-- The command of the second slave overwrites the end of the first one's, and its own
end goes to the inputs. -/
theorem short_outputs_not_isolated : ¬ Isolated twoShortSlaves := by
  intro h
  have hmap : ((ecConfigMap twoShortSlaves).map fun m => m.slaves.map (·.obytes)) =
      some [12, 12] := by decide +kernel
  obtain ⟨m, hm, hobytes⟩ := Option.map_eq_some_iff.mp hmap
  have hlays := ecConfigMap_laysOut hm
  have hlen : 0 < m.slaves.length := by
    have := congrArg List.length hobytes
    simp only [List.length_map, List.length_cons, List.length_nil] at this
    omega
  obtain ⟨m', _, hholds, _⟩ := h m hm .little (fun _ => {}) fun _ => 0
  obtain ⟨_, hfield⟩ := hlays.field .output ⟨0, hlen⟩
  have hmem := List.get_mem m.slaves ⟨0, hlen⟩
  have h16 := (hholds ⟨0, hlen⟩).obytes_le hfield (hlays.bytes hmem .output)
  have h12 : (m.slaves.get ⟨0, hlen⟩).obytes ∈ [12, 12] := hobytes ▸ List.mem_map_of_mem hmem
  simp only [List.mem_cons, List.not_mem_nil, or_false, or_self] at h12
  omega

/-- An iteration keeps the slaves apart exactly when every slave has mapped at least
the 16 output bytes and the 13 input bytes of the default PDO map. -/
theorem iterationIsolated_iff (bus : List SlaveInfo) (m : Mapping) (h : ecConfigMap bus = some m)
    (e : Endian) (cmds : Fin m.slaves.length → ActuatorCommand) (img : Image) :
    IterationIsolated e m.slaves cmds img ↔
      ∀ s ∈ m.slaves, 16 ≤ s.obytes ∧ 13 ≤ s.ibytes := by
  have hlays := ecConfigMap_laysOut h
  constructor
  · rintro ⟨m', _, hholds, _, hreads⟩ s hs
    obtain ⟨k, rfl⟩ := List.mem_iff_get.mp hs
    obtain ⟨_, hout⟩ := hlays.field .output k
    obtain ⟨_, hin⟩ := hlays.field .input k
    exact ⟨(hholds k).obytes_le hout (hlays.bytes hs .output),
      (hreads _ hs).ibytes_le hin (hlays.bytes hs .input)⟩
  · intro hbytes
    have hwhole : ∀ k : Fin m.slaves.length, ∃ b, WholeBytes (m.slaves.get k) .output b := by
      intro k
      obtain ⟨_, hout⟩ := hlays.field .output k
      have hmem := List.get_mem m.slaves k
      exact ⟨_, (hout.wholeBytes (hlays.bytes hmem .output)
        (lt_of_lt_of_le (by omega) (hbytes _ hmem).1)).2.1⟩
    choose off hoff using hwhole
    have hbase : ∀ k, (m.slaves.get k).outputs = some (off k) := fun k => (hoff k).base
    have hlength : ∀ k, (commandBytes (cmds k)).length = 16 := fun k => commandBytes_length _
    have harea : ∀ k, ∀ i < 16, off k + i ∈ (m.slaves.get k).area .output := fun k i hi =>
      ((hoff k).area _).mpr ⟨by omega,
        Nat.add_lt_add_left (lt_of_lt_of_le hi (hbytes _ (List.get_mem m.slaves k)).1) _⟩
    have hapart : (List.finRange m.slaves.length).Pairwise fun j k =>
        Apart (off j) (commandBytes (cmds j)).length (off k) (commandBytes (cmds k)).length := by
      simp only [hlength]
      exact hlays.outputs_apart (fun s hs => (hbytes s hs).1) hbase
    refine ⟨_, writeCommands_eq e m.slaves cmds img off hbase, fun k => ?_, fun a ha => ?_,
      fun s hs => ?_⟩
    · refine ⟨off k, hbase k, harea k, ?_⟩
      rw [← hlength k]
      exact Memory.read_foldl_write off _ _ hapart img (List.mem_finRange k)
    · apply Memory.foldl_write_of_not_mem
      rintro k _ ⟨h₁, h₂⟩
      refine ha k ?_
      rw [hlength] at h₂
      have := harea k (a - off k) (by omega)
      rwa [Nat.add_sub_cancel' h₁] at this
    · obtain ⟨k, rfl⟩ := List.mem_iff_get.mp hs
      obtain ⟨_, hin⟩ := hlays.field .input k
      have hlen := (hbytes _ hs).2
      exact (hin.wholeBytes (hlays.bytes hs .input) (lt_of_lt_of_le (by omega) hlen)).2.1
        |>.readsOwnInputs hlen e

/-- Two drives with the default PDO map stay apart. -/
theorem iterationIsolated_two_drives :
    ∃ m, ecConfigMap [driveSlave, driveSlave] = some m ∧
      IterationIsolated .little m.slaves (fun _ => {}) fun _ => 0 := by
  have hmap : ((ecConfigMap [driveSlave, driveSlave]).map fun m =>
      m.slaves.all fun s => 16 ≤ s.obytes ∧ 13 ≤ s.ibytes) = some true := by decide +kernel
  obtain ⟨m, hm, hall⟩ := Option.map_eq_some_iff.mp hmap
  refine ⟨m, hm, (iterationIsolated_iff _ m hm .little (fun _ => {}) fun _ => 0).mpr fun s hs => ?_⟩
  simpa using List.all_eq_true.mp hall s hs

end RaipalSoem

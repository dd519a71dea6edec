import RaipalSoem.Segmentation
import RaipalSoem.Master

/-!
# The size of the process image

The mapping functions return the number of bytes they have laid out, and the
demo does not compare it with the size of its buffer. If `discoverAndMap` returns true,
all mapped ranges and all transferred ranges lie inside the buffer exactly when the
packed bit lengths of the bus do.
-/

namespace RaipalSoem

open Lib

/-- All byte ranges that the mapping assigns to a slave, and all that an exchange
transfers, lie inside `IOmap_`. -/
def Mapping.InsideIoMap (m : Mapping) : Prop :=
  (∀ s ∈ m.slaves, ∀ dir, ∀ f ∈ s.fmmusOf dir, f.logStart + f.logLength ≤ ioMapSize) ∧
    ∀ (img : Image), ∀ d ∈ ecSendProcessdata m.group img,
      d.block.start + d.block.len ≤ ioMapSize

/-- Whatever the mapping step records for the bus stays inside the buffer, if
`discoverAndMap` returns true. -/
def ImageBounded (bus : List SlaveInfo) : Prop :=
  ∀ m, ecConfigMap bus = some m → ∀ env : Startup m,
    (discoverAndMap env).value.isSome = true → m.InsideIoMap

/-- The number of bytes that the mapping returns is the size of the packed image. -/
theorem Mapping.LaysOut.ioMapBytes_eq {m : Mapping} {bus : List SlaveInfo} (h : m.LaysOut bus) :
    m.ioMapBytes = imageBytes bus :=
  h.image

/-- Two slaves with 1400 output bytes, and one with 1297. -/
def threeLargeSlaves : List SlaveInfo :=
  [twoSmSlave 11200 0, twoSmSlave 11200 0, twoSmSlave 10376 0]

/-- Their image has 4097 bytes. `discoverAndMap` returns true, and the last byte is mapped
behind the buffer. -/
theorem image_exceeds_ioMap : ¬ ImageBounded threeLargeSlaves := by
  intro h
  have hmap : ((ecConfigMap threeLargeSlaves).map fun m => m.slaveCount) = some 3 := by
    decide +kernel
  obtain ⟨m, hm, hcount⟩ := Option.map_eq_some_iff.mp hmap
  have hfound := (promptStartup_reads (m := m) (by omega)).1
  have hbytes := (ecConfigMap_laysOut hm).imageBytes_le _
    (h m hm _ ((discoverAndMap_isSome_iff _).mpr hfound)).1
  revert hbytes
  decide +kernel

/-- When `discoverAndMap` returns true, the mapped and transferred ranges lie inside the
buffer exactly when the packed image fits. -/
theorem insideIoMap_iff (bus : List SlaveInfo) (m : Mapping) (h : ecConfigMap bus = some m)
    (env : Startup m) (_ : (discoverAndMap env).value.isSome = true) :
    m.InsideIoMap ↔ imageBytes bus ≤ ioMapSize := by
  have hlays := ecConfigMap_laysOut h
  constructor
  · intro hinside
    exact hlays.imageBytes_le _ hinside.1
  · intro hfits
    refine ⟨fun s hs dir x hx => ?_, fun img d hd => ?_⟩
    · obtain ⟨f, hf, hholds⟩ := forall₂_mem_right (hlays.holds dir) hs
      have hbits : s.bits dir ≠ 0 := by
        intro h0
        rw [hholds.unused h0] at hx
        cases hx
      have hend := ((hholds.tiles hbits).bounds (List.mem_map_of_mem hx)).2
      exact (hend.trans (busFields_bounds bus hf).1).trans hfits
    · have hle : d.block.start + d.block.len ≤ m.ioMapBytes :=
        (hlays.segmented hfits).datagram_le hd
      rw [hlays.ioMapBytes_eq] at hle
      exact hle.trans hfits

/-- With two drives `discoverAndMap` returns true and all stays inside the buffer. -/
theorem insideIoMap_two_drives :
    ∃ m, ecConfigMap [driveSlave, driveSlave] = some m ∧
      (discoverAndMap (promptStartup m)).value.isSome = true ∧ m.InsideIoMap := by
  have hmap : ((ecConfigMap [driveSlave, driveSlave]).map fun m => m.slaveCount) = some 2 := by
    decide +kernel
  obtain ⟨m, hm, hcount⟩ := Option.map_eq_some_iff.mp hmap
  have htrue : (discoverAndMap (promptStartup m)).value.isSome = true :=
    (discoverAndMap_isSome_iff _).mpr (promptStartup_reads (m := m) (by omega)).1
  exact ⟨m, hm, htrue, (insideIoMap_iff _ m hm _ htrue).mpr (by decide +kernel)⟩

end RaipalSoem

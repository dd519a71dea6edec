import RaipalSoem.DemoLoop
import RaipalSoem.Conversions
import Mathlib.Tactic.Ring

/-!
# Loading the configuration

`load_cfg` and `parse_mode` of the demo. The YAML library is seen through what its
calls can do: `LoadFile` and the lookup of a key can throw, a node can be a sequence
or not, and a field of an entry is absent, or converts to its type, or throws. The vector
of the configuration can be too large for the memory there is.
-/

namespace RaipalSoem

/-- The outcome of `n["key"]` and, if the field is there, of `as<T>()`. -/
inductive YamlField (α : Type*)
  | absent
  | value (v : α)
  | throws
  deriving DecidableEq, Repr

/-- An item of the sequence `actuators`. -/
structure Entry where
  name : YamlField String := .absent
  mode : YamlField Int32 := .absent
  targetTorque : YamlField Int16 := .absent
  targetVelocity : YamlField Int32 := .absent
  targetPosition : YamlField Int32 := .absent
  kp : YamlField UInt16 := .absent
  kd : YamlField UInt16 := .absent
  deriving DecidableEq, Repr

/-- What the YAML library finds under the given path. For a sequence, `reserves` tells
whether `reserve` has the memory for its configuration. -/
inductive Document
  | loadFails
  | lookupFails
  | notSequence
  | sequence (entries : List Entry) (reserves : Bool)
  deriving DecidableEq, Repr

/-- How `load_cfg` is left. `std::exit` is called with a code after a message. -/
inductive LoadResult
  | threw
  | exited (code : Nat) (message : String)
  | loaded (cfg : List ActuatorCfg)
  deriving DecidableEq, Repr

/-- `parse_mode`. -/
def parseMode (modeValue : Int32) : UInt8 :=
  if modeValue = 0x00 then modeNoMode
  else if modeValue = 0x01 then modeProfilePosition
  else if modeValue = 0x03 then modeProfileVelocity
  else if modeValue = 0x04 then modeProfileTorque
  else if modeValue = 0x06 then modeHoming
  else if modeValue = 0x07 then modeInterpolationPosition
  else if modeValue = 0x08 then modeCyclicSynchronousPosition
  else if modeValue = 0x09 then modeCyclicSynchronousVelocity
  else if modeValue = 0x0A then modeCyclicSynchronousTorque
  else if modeValue = 0x0F then modeProfileCommutation
  else modeNoMode

/-- `n["key"] ? n["key"].as<T>() : fallback`, without a result if the library throws. -/
def YamlField.getOr {α : Type*} (fallback : α) : YamlField α → Option α
  | .absent => some fallback
  | .value v => some v
  | .throws => none

/-- The body of the loop over the entries, for index `i`. -/
def loadEntry (i : Nat) (n : Entry) : Option ActuatorCfg := do
  let name ← n.name.getOr ("slave_" ++ toString (i + 1))
  let mode ← n.mode.getOr 0
  let targetTorque ← n.targetTorque.getOr 0
  let targetVelocity ← n.targetVelocity.getOr 0
  let targetPosition ← n.targetPosition.getOr 0
  let kp ← n.kp.getOr 0
  let kd ← n.kd.getOr 0
  return { name, mode := parseMode mode, targetTorque, targetVelocity, targetPosition, kp, kd }

/-- The loop over the entries from index `i` on. -/
def loadEntries : Nat → List Entry → Option (List ActuatorCfg)
  | _, [] => some []
  | i, n :: rest => (loadEntry i n).bind fun c => (loadEntries (i + 1) rest).map (c :: ·)

/-- `load_cfg`. -/
def loadCfg (doc : Document) (expectedSize : Int) : LoadResult :=
  match doc with
  | .loadFails => .threw
  | .lookupFails => .threw
  | .notSequence => .exited 2 "Config error: 'actuators' key must be a sequence"
  | .sequence entries reserves =>
      if intOfSize entries.length ≠ expectedSize then
        .exited 3 ("Config error: YAML entries in 'actuators' (" ++ toString entries.length ++
          ") != slave count (" ++ toString expectedSize ++ ")")
      else if reserves = false then .threw
      else
        match loadEntries 0 entries with
        | none => .threw
        | some cfg => .loaded cfg

/-- An entry without fields loads as the default configuration with a running name. -/
theorem loadEntry_empty (i : Nat) :
    loadEntry i {} = some { name := "slave_" ++ toString (i + 1) } := rfl

theorem loadEntries_length {i : Nat} {entries : List Entry} {cfg : List ActuatorCfg}
    (h : loadEntries i entries = some cfg) : cfg.length = entries.length := by
  induction entries generalizing i cfg with
  | nil =>
      cases h
      rfl
  | cons n rest ih =>
      obtain ⟨c, _, hrest⟩ := Option.bind_eq_some_iff.mp h
      obtain ⟨cfg', hcfg', rfl⟩ := Option.map_eq_some_iff.mp hrest
      rw [List.length_cons, List.length_cons, ih hcfg']

/-- A sequence in which no field throws loads. -/
theorem loadEntries_isSome {entries : List Entry} (i : Nat)
    (h : ∀ n ∈ entries, ∀ j, (loadEntry j n).isSome = true) :
    (loadEntries i entries).isSome = true := by
  induction entries generalizing i with
  | nil => rfl
  | cons n rest ih =>
      obtain ⟨c, hc⟩ := Option.isSome_iff_exists.mp (h n (by simp) i)
      obtain ⟨cfg, hcfg⟩ := Option.isSome_iff_exists.mp
        (ih (i + 1) fun m hm => h m (List.mem_cons_of_mem n hm))
      simp [loadEntries, hc, hcfg]

/-- `load_cfg` returns what the entries of a sequence load as, if the size of the sequence,
as an `int`, is the expected one and there is memory for it. -/
theorem loadCfg_loaded_iff {doc : Document} {expectedSize : Int} {cfg : List ActuatorCfg} :
    loadCfg doc expectedSize = .loaded cfg ↔
      ∃ entries, doc = .sequence entries true ∧ intOfSize entries.length = expectedSize ∧
        loadEntries 0 entries = some cfg := by
  cases doc with
  | loadFails => simp [loadCfg]
  | lookupFails => simp [loadCfg]
  | notSequence => simp [loadCfg]
  | sequence entries reserves =>
      by_cases hsize : intOfSize entries.length = expectedSize
      · cases reserves with
        | false => simp [loadCfg, hsize]
        | true =>
            cases hload : loadEntries 0 entries with
            | none => simp [loadCfg, hsize, hload]
            | some cfg' => simp [loadCfg, hsize, hload]
      · simp [loadCfg, hsize]

/-- A loaded configuration has one element for each entry, so `cfg[k]` exists for every
slave. -/
theorem loadCfg_loaded {doc : Document} {expectedSize : Int} {cfg : List ActuatorCfg}
    (h : loadCfg doc expectedSize = .loaded cfg) :
    ∃ entries, doc = .sequence entries true ∧ intOfSize entries.length = expectedSize ∧
      cfg.length = entries.length ∧ expectedSize ≤ cfg.length := by
  obtain ⟨entries, hdoc, hsize, hload⟩ := loadCfg_loaded_iff.mp h
  have hlen := loadEntries_length hload
  have hle := intOfSize_le entries.length
  exact ⟨entries, hdoc, hsize, hlen, by omega⟩

/-- A sequence of entries without fields loads if its size passes the check and there is
memory for it. -/
theorem loadCfg_empty_entries {count : Nat} {expectedSize : Int}
    (h : intOfSize count = expectedSize) :
    ∃ cfg, loadCfg (.sequence (List.replicate count {}) true) expectedSize = .loaded cfg ∧
      cfg.length = count := by
  have hentries : ∀ n ∈ List.replicate count ({} : Entry), ∀ j,
      (loadEntry j n).isSome = true := by
    intro n hn j
    rw [List.eq_of_mem_replicate hn, loadEntry_empty, Option.isSome_some]
  obtain ⟨cfg, hcfg⟩ := Option.isSome_iff_exists.mp (loadEntries_isSome 0 hentries)
  refine ⟨cfg, ?_, by simpa using loadEntries_length hcfg⟩
  simp [loadCfg, h, hcfg]

/-- The documents for which `load_cfg` calls `std::exit`. -/
def Document.Exits (doc : Document) (expectedSize : Int) : Prop :=
  doc = .notSequence ∨
    ∃ entries reserves, doc = .sequence entries reserves ∧
      intOfSize entries.length ≠ expectedSize

theorem loadCfg_exited_iff (doc : Document) (expectedSize : Int) :
    (∃ code message, loadCfg doc expectedSize = .exited code message) ↔
      doc.Exits expectedSize := by
  cases doc with
  | loadFails => simp [loadCfg, Document.Exits]
  | lookupFails => simp [loadCfg, Document.Exits]
  | notSequence => simp [loadCfg, Document.Exits]
  | sequence entries reserves =>
      by_cases hsize : intOfSize entries.length = expectedSize
      · cases reserves with
        | false => simp [loadCfg, Document.Exits, hsize]
        | true =>
            cases hload : loadEntries 0 entries <;> simp [loadCfg, Document.Exits, hsize, hload]
      · simp [loadCfg, Document.Exits, hsize]

end RaipalSoem

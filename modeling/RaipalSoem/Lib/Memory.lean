import Mathlib.Data.List.Basic
import Mathlib.Data.Set.Lattice
import Mathlib.Order.CompletePartialOrder
import Mathlib.Tactic.Ring

/-!
# Flat memories and byte ranges

A memory gives a value to every address. Block writes and block reads are the
two ways a program touches it; a write changes exactly the addresses of its own
range, and a read depends on nothing outside its own range.
-/

namespace RaipalSoem.Lib

/-- A flat memory with one value per address. -/
abbrev Memory (V : Type*) := Nat → V

/-- The addresses `base, …, base + len - 1`. -/
def span (base len : Nat) : Set Nat := {a | base ≤ a ∧ a < base + len}

@[simp] theorem mem_span {base len a : Nat} :
    a ∈ span base len ↔ base ≤ a ∧ a < base + len := Iff.rfl

/-- Two ranges are apart when one ends before the other begins. -/
def Apart (a len b len' : Nat) : Prop := a + len ≤ b ∨ b + len' ≤ a

instance (a len b len' : Nat) : Decidable (Apart a len b len') :=
  inferInstanceAs (Decidable (_ ∨ _))

theorem Apart.symm {a len b len' : Nat} (h : Apart a len b len') : Apart b len' a len :=
  Or.symm h

/-- Ranges that are not empty are apart exactly when they are disjoint. -/
theorem disjoint_span_iff {a len b len' : Nat} (h : 0 < len) (h' : 0 < len') :
    Disjoint (span a len) (span b len') ↔ Apart a len b len' := by
  rw [Set.disjoint_left]
  constructor
  · intro hdisjoint
    -- the later of the two starts lies in both ranges unless they are apart
    have ha := @hdisjoint a
    have hb := @hdisjoint b
    simp only [mem_span] at ha hb
    unfold Apart
    omega
  · intro hapart x hx hx'
    rw [mem_span] at hx hx'
    rcases hapart with hapart | hapart <;> omega

namespace Memory

variable {V : Type*}

/-- Copy the values `vs` to the addresses from `off` on. -/
def write (m : Memory V) (off : Nat) (vs : List V) : Memory V := fun a =>
  if h : off ≤ a ∧ a - off < vs.length then vs.get ⟨a - off, h.2⟩ else m a

/-- Read `len` values from the addresses from `off` on. -/
def read (m : Memory V) (off len : Nat) : List V :=
  (List.range len).map fun i => m (off + i)

@[simp] theorem read_length (m : Memory V) (off len : Nat) : (m.read off len).length = len := by
  simp [read]

/-- The first values of a longer read. -/
theorem take_read {m : Memory V} {off len n : Nat} (h : n ≤ len) :
    (m.read off len).take n = m.read off n := by
  rw [read, ← List.map_take, List.take_range, min_eq_left h]
  rfl

theorem write_of_mem (m : Memory V) (off i : Nat) (vs : List V) (hi : i < vs.length) :
    m.write off vs (off + i) = vs[i] := by
  have h : off ≤ off + i ∧ off + i - off < vs.length := ⟨by omega, by omega⟩
  simp [write, hi]

/-- Addresses outside the written range keep their value. -/
theorem write_of_not_mem (m : Memory V) (off a : Nat) (vs : List V)
    (ha : a ∉ span off vs.length) : m.write off vs a = m a := by
  have h : ¬(off ≤ a ∧ a - off < vs.length) := by
    rintro ⟨h₁, h₂⟩
    exact ha (mem_span.mpr ⟨h₁, by omega⟩)
  simp only [write, dif_neg h]

theorem write_apart (m : Memory V) {off a : Nat} {vs : List V}
    (h : a < off ∨ off + vs.length ≤ a) : m.write off vs a = m a := by
  apply write_of_not_mem
  rintro ⟨h₁, h₂⟩
  omega

/-- A constant memory is not changed by its own value. -/
theorem write_replicate_const (v : V) (off n : Nat) :
    write (fun _ => v) off (List.replicate n v) = fun _ => v := by
  funext a
  by_cases h : off ≤ a ∧ a - off < (List.replicate n v).length
  · simp [write]
  · simp only [write, dif_neg h]

/-- A read sees only its own range. -/
theorem read_congr {m m' : Memory V} {off len : Nat}
    (h : ∀ a ∈ span off len, m a = m' a) : m.read off len = m'.read off len := by
  apply List.map_congr_left
  intro i hi
  exact h _ (mem_span.mpr ⟨by omega, by have := List.mem_range.mp hi; omega⟩)

/-- A range is read piece by piece. -/
theorem read_add (m : Memory V) (off len len' : Nat) :
    m.read off (len + len') = m.read off len ++ m.read (off + len) len' := by
  simp only [read, List.range_add, List.map_append, List.map_map]
  congr 1
  apply List.map_congr_left
  intro i _
  simp [Nat.add_assoc]

/-- Two reads that agree do so in every part. -/
theorem read_part {m m' : Memory V} {off off' len : Nat} (h : m.read off len = m'.read off' len)
    {i n : Nat} (hi : i + n ≤ len) : m.read (off + i) n = m'.read (off' + i) n := by
  apply List.map_congr_left
  intro k hk
  have hk' := List.mem_range.mp hk
  have hget := congrArg (·[i + k]?) h
  simpa [read, show i + k < len by omega, Nat.add_assoc] using hget

/-- What has been written reads back. -/
theorem read_write (m : Memory V) (off : Nat) (vs : List V) :
    (m.write off vs).read off vs.length = vs := by
  apply List.ext_getElem (read_length _ _ _)
  intro i _ hi
  simp only [read, List.getElem_map, List.getElem_range]
  exact write_of_mem m off i vs hi

/-- A read does not see a write that is apart from it. -/
theorem read_write_apart (m : Memory V) {off a len : Nat} {vs : List V}
    (h : Apart a len off vs.length) : (m.write off vs).read a len = m.read a len := by
  apply read_congr
  intro b hb
  rw [mem_span] at hb
  apply write_apart
  rcases h with h | h
  · exact Or.inl (by omega)
  · exact Or.inr (by omega)

/-- One write of two pieces is a write of each. -/
theorem write_append (m : Memory V) (off : Nat) (vs ws : List V) :
    m.write off (vs ++ ws) = (m.write off vs).write (off + vs.length) ws := by
  funext a
  by_cases h₁ : off ≤ a ∧ a - off < vs.length
  · have h₂ : ¬(off + vs.length ≤ a ∧ a - (off + vs.length) < ws.length) := by omega
    have h₃ : a - off < vs.length + ws.length := by omega
    simp [write, h₁, h₂, h₃]
  · by_cases h₂ : off + vs.length ≤ a ∧ a - (off + vs.length) < ws.length
    · have h₃ : off ≤ a ∧ a - off < vs.length + ws.length := by omega
      have h₄ : a - off = vs.length + (a - (off + vs.length)) := by omega
      simp [write, h₂, h₃, h₄]
    · have h₃ : ¬(off ≤ a ∧ a - off < vs.length + ws.length) := by omega
      simp only [write, List.length_append, dif_neg h₁, dif_neg h₂, dif_neg h₃]

/-- Writes to ranges that are apart commute. -/
theorem write_comm (m : Memory V) (off off' : Nat) (vs ws : List V)
    (h : Apart off vs.length off' ws.length) :
    (m.write off vs).write off' ws = (m.write off' ws).write off vs := by
  funext a
  by_cases h₁ : off ≤ a ∧ a - off < vs.length
  · have h₂ : ¬(off' ≤ a ∧ a - off' < ws.length) := by
      rcases h with h | h <;> omega
    simp only [write, dif_pos h₁, dif_neg h₂]
  · simp only [write, dif_neg h₁]

section Sweeps

variable {ι : Type*} (off : ι → Nat) (vs : ι → List V)

/-- A sweep of writes leaves every other address alone. -/
theorem foldl_write_of_not_mem (ks : List ι) (m : Memory V) {a : Nat}
    (h : ∀ k ∈ ks, a ∉ span (off k) (vs k).length) :
    ks.foldl (fun m k => m.write (off k) (vs k)) m a = m a := by
  induction ks generalizing m with
  | nil => rfl
  | cons k ks ih =>
      rw [List.foldl_cons, ih _ fun j hj => h j (List.mem_cons_of_mem k hj)]
      exact write_of_not_mem m (off k) a (vs k) (h k (by simp))

/-- What a sweep of writes puts at an address stays there if no later range has the address. -/
theorem foldl_write_of_later (before after : List ι) (m : Memory V) {k : ι} {i : Nat}
    (hi : i < (vs k).length) (hafter : ∀ j ∈ after, off k + i ∉ span (off j) (vs j).length) :
    (before ++ k :: after).foldl (fun m k => m.write (off k) (vs k)) m (off k + i) =
      (vs k)[i] := by
  rw [List.foldl_append, List.foldl_cons, foldl_write_of_not_mem off vs after _ hafter]
  exact write_of_mem _ (off k) i (vs k) hi

/-- After a sweep of writes to ranges that are apart, every range holds its own values. -/
theorem foldl_write_of_mem (ks : List ι)
    (hapart : ks.Pairwise fun j k => Apart (off j) (vs j).length (off k) (vs k).length)
    (m : Memory V) {k : ι} (hk : k ∈ ks) {i : Nat} (hi : i < (vs k).length) :
    ks.foldl (fun m k => m.write (off k) (vs k)) m (off k + i) = (vs k)[i] := by
  obtain ⟨before, after, rfl⟩ := List.append_of_mem hk
  refine foldl_write_of_later off vs before after m hi fun j hj => ?_
  have hcons := (List.pairwise_append.mp hapart).2.1
  have hjk := (List.pairwise_cons.mp hcons).1 j hj
  rintro ⟨h₁, h₂⟩
  rcases hjk with hjk | hjk <;> omega

/-- So every range reads back what the sweep has written there. -/
theorem read_foldl_write (ks : List ι)
    (hapart : ks.Pairwise fun j k => Apart (off j) (vs j).length (off k) (vs k).length)
    (m : Memory V) {k : ι} (hk : k ∈ ks) :
    read (ks.foldl (fun m k => m.write (off k) (vs k)) m) (off k) (vs k).length = vs k := by
  apply List.ext_getElem (read_length _ _ _)
  intro i _ hi
  simp only [read, List.getElem_map, List.getElem_range]
  exact foldl_write_of_mem off vs ks hapart m hk hi

end Sweeps

end Memory

end RaipalSoem.Lib

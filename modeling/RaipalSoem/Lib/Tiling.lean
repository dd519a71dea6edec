import RaipalSoem.Lib.Memory

/-!
# Tilings of a range by blocks

Consecutive blocks tile a range when each starts where the one before it ends.
Every address of the range lies in exactly one block. An interval of the range
meets exactly one block if no block starts strictly inside it, and at least two
if one does.
-/

namespace RaipalSoem.Lib

/-- The addresses `start, …, start + len - 1`. -/
@[ext] structure Block where
  start : Nat
  len : Nat
  deriving DecidableEq, Repr

namespace Block

/-- The block contains an address. -/
def Contains (b : Block) (a : Nat) : Prop := b.start ≤ a ∧ a < b.start + b.len

instance (b : Block) (a : Nat) : Decidable (b.Contains a) :=
  inferInstanceAs (Decidable (_ ∧ _))

/-- The block shares an address with the interval from `lo` to `hi`. -/
def Meets (b : Block) (lo hi : Nat) : Prop :=
  0 < b.len ∧ lo < hi ∧ b.start < hi ∧ lo < b.start + b.len

instance (b : Block) (lo hi : Nat) : Decidable (b.Meets lo hi) :=
  inferInstanceAs (Decidable (_ ∧ _ ∧ _ ∧ _))

theorem Contains.meets {b : Block} {a lo hi : Nat} (h : b.Contains a) (hlo : lo ≤ a)
    (hhi : a < hi) : b.Meets lo hi := by
  obtain ⟨h₁, h₂⟩ := h
  exact ⟨by omega, by omega, by omega, by omega⟩

theorem Meets.exists_contains {b : Block} {lo hi : Nat} (h : b.Meets lo hi) :
    ∃ a, lo ≤ a ∧ a < hi ∧ b.Contains a := by
  obtain ⟨h₁, h₂, h₃, h₄⟩ := h
  refine ⟨max lo b.start, by omega, by omega, ?_⟩
  exact ⟨by omega, by omega⟩

end Block

/-- The blocks follow one another from `lo` to `hi`. -/
def Tiles : Nat → List Block → Nat → Prop
  | lo, [], hi => lo = hi
  | lo, b :: bs, hi => b.start = lo ∧ Tiles (lo + b.len) bs hi

namespace Tiles

variable {lo hi x y : Nat} {bs : List Block}

theorem le (h : Tiles lo bs hi) : lo ≤ hi := by
  induction bs generalizing lo with
  | nil => exact Nat.le_of_eq h
  | cons b bs ih => exact (Nat.le_add_right lo b.len).trans (ih h.2)

theorem append {mid : Nat} {bs' : List Block} (h : Tiles lo bs mid) (h' : Tiles mid bs' hi) :
    Tiles lo (bs ++ bs') hi := by
  induction bs generalizing lo with
  | nil =>
      obtain rfl : lo = mid := h
      exact h'
  | cons b bs ih => exact ⟨h.1, ih h.2⟩

/-- Each address of the range lies in exactly one block. -/
theorem countP_contains (h : Tiles lo bs hi) (a : Nat) :
    bs.countP (fun b => b.Contains a) = if lo ≤ a ∧ a < hi then 1 else 0 := by
  induction bs generalizing lo with
  | nil =>
      obtain rfl : lo = hi := h
      rw [if_neg (by omega)]
      rfl
  | cons b bs ih =>
      obtain ⟨rfl, h⟩ := h
      have hle := h.le
      rw [List.countP_cons, ih h]
      by_cases hb : b.Contains a
      · obtain ⟨h₁, h₂⟩ := hb
        rw [if_neg (by omega), if_pos (by simp [Block.Contains, h₁, h₂]), if_pos (by omega)]
      · have hb' : ¬(b.start ≤ a ∧ a < b.start + b.len) := hb
        simp only [hb, decide_false, Bool.false_eq_true, if_false, Nat.add_zero]
        congr 1
        apply propext
        constructor <;> intro h <;> constructor <;> omega

/-- The blocks cover the range and nothing else. -/
theorem exists_contains_iff (h : Tiles lo bs hi) (a : Nat) :
    (∃ b ∈ bs, b.Contains a) ↔ lo ≤ a ∧ a < hi := by
  have hcount := h.countP_contains a
  constructor
  · rintro ⟨b, hb, ha⟩
    by_contra hout
    rw [if_neg hout, List.countP_eq_zero] at hcount
    exact hcount b hb (by simpa using ha)
  · intro hin
    rw [if_pos hin] at hcount
    obtain ⟨b, hb, ha⟩ := List.countP_pos_iff.mp (show 0 < bs.countP _ by rw [hcount]; omega)
    exact ⟨b, hb, by simpa using ha⟩

theorem bounds (h : Tiles lo bs hi) {b : Block} (hb : b ∈ bs) :
    lo ≤ b.start ∧ b.start + b.len ≤ hi := by
  induction bs generalizing lo with
  | nil => simp at hb
  | cons c bs ih =>
      obtain ⟨rfl, h⟩ := h
      have hle := h.le
      rcases List.mem_cons.mp hb with rfl | hb
      · exact ⟨le_refl _, hle⟩
      · have := ih h hb
        omega

/-- Blocks in front of an interval do not meet it. -/
theorem countP_meets_eq_zero (h : Tiles lo bs hi) (hout : hi ≤ x ∨ y ≤ lo) :
    bs.countP (fun b => b.Meets x y) = 0 := by
  rw [List.countP_eq_zero]
  intro b hb hm
  have hbounds := h.bounds hb
  obtain ⟨h₁, h₂, h₃, h₄⟩ := of_decide_eq_true hm
  omega

/-- An interval of the range meets at least one block. -/
theorem one_le_countP_meets (h : Tiles lo bs hi) (hx : lo ≤ x) (hxy : x < y) (hy : y ≤ hi) :
    1 ≤ bs.countP (fun b => b.Meets x y) := by
  obtain ⟨b, hb, hxb⟩ := (h.exists_contains_iff x).mpr ⟨hx, by omega⟩
  exact List.countP_pos_iff.mpr ⟨b, hb, by simpa using hxb.meets (le_refl x) hxy⟩

/-- An interval inside which no block starts lies in one block and meets no other. -/
theorem uncut (h : Tiles lo bs hi) (hx : lo ≤ x) (hxy : x < y) (hy : y ≤ hi)
    (huncut : ∀ b ∈ bs, ¬(x < b.start ∧ b.start < y)) :
    bs.countP (fun b => b.Meets x y) = 1 ∧
      ∀ b ∈ bs, b.Meets x y → ∀ a, x ≤ a → a < y → b.Contains a := by
  induction bs generalizing lo with
  | nil =>
      obtain rfl : lo = hi := h
      omega
  | cons b bs ih =>
      obtain ⟨rfl, h⟩ := h
      have hrest : ∀ c ∈ bs, ¬(x < c.start ∧ c.start < y) :=
        fun c hc => huncut c (List.mem_cons_of_mem b hc)
      by_cases hb : b.start + b.len ≤ x
      · have hnot : ¬ b.Meets x y := fun hm => by
          have := hm.2.2.2
          omega
        obtain ⟨hone, hall⟩ := ih h hb hrest
        refine ⟨by simpa [hnot] using hone, fun c hc => ?_⟩
        rcases List.mem_cons.mp hc with rfl | hc
        · exact fun hm => absurd hm hnot
        · exact hall c hc
      · have hend : y ≤ b.start + b.len := by
          cases bs with
          | nil =>
              obtain rfl : b.start + b.len = hi := h
              exact hy
          | cons c bs =>
              have hc := hrest c (by simp)
              rw [h.1] at hc
              omega
        have hzero := h.countP_meets_eq_zero (x := x) (Or.inr hend)
        have hmeets : b.Meets x y := ⟨by omega, hxy, by omega, by omega⟩
        refine ⟨by simp [hzero, hmeets], fun c hc hm a ha ha' => ?_⟩
        rcases List.mem_cons.mp hc with rfl | hc
        · exact ⟨by omega, by omega⟩
        · rw [List.countP_eq_zero] at hzero
          exact absurd (by simpa using hm) (hzero c hc)

/-- An interval inside which a block starts meets at least two blocks. -/
theorem two_le_countP_meets (h : Tiles lo bs hi) (hx : lo ≤ x) (hy : y ≤ hi)
    {b : Block} (hb : b ∈ bs) (hxb : x < b.start) (hby : b.start < y) :
    2 ≤ bs.countP (fun b => b.Meets x y) := by
  induction bs generalizing lo with
  | nil => simp at hb
  | cons c bs ih =>
      obtain ⟨rfl, h⟩ := h
      rw [List.countP_cons]
      rcases List.mem_cons.mp hb with rfl | hb
      · omega
      · have hbounds := h.bounds hb
        by_cases hc : c.start + c.len ≤ x
        · have := ih h hc hb
          omega
        · have hmeets : c.Meets x y := ⟨by omega, by omega, by omega, by omega⟩
          have hrest : 1 ≤ bs.countP (fun b => b.Meets x y) := by
            have := h.one_le_countP_meets (x := c.start + c.len) (y := y) (le_refl _)
              (by omega) hy
            refine this.trans (List.countP_mono_left fun d _ hd => ?_)
            obtain ⟨h₁, h₂, h₃, h₄⟩ := of_decide_eq_true hd
            exact decide_eq_true ⟨h₁, by omega, h₃, by omega⟩
          rw [if_pos (by simpa using hmeets)]
          omega

theorem countP_le_add {α : Type*} (p q : α → Bool) (l : List α) :
    l.countP p ≤ l.countP (fun a => p a && !q a) + l.countP q := by
  induction l with
  | nil => simp
  | cons a l ih =>
      simp only [List.countP_cons]
      cases p a <;> cases q a <;> simp <;> omega

/-- An interval inside which a block starts meets a block that does not contain a given
address. -/
theorem one_le_countP_not_contains (h : Tiles lo bs hi) (hx : lo ≤ x) (hy : y ≤ hi)
    {b : Block} (hb : b ∈ bs) (hxb : x < b.start) (hby : b.start < y) (c : Nat) :
    1 ≤ bs.countP fun b => b.Meets x y && !decide (b.Contains c) := by
  have htwo := h.two_le_countP_meets hx hy hb hxb hby
  have hadd := countP_le_add (fun b : Block => decide (b.Meets x y))
    (fun b => decide (b.Contains c)) bs
  have hle : bs.countP (fun b => decide (b.Contains c)) ≤ 1 := by
    rw [h.countP_contains c]
    split_ifs <;> omega
  omega

/-- A block that starts behind an address starts behind the block that holds it. -/
theorem stop_le_start (h : Tiles lo bs hi) {b c : Block} (hb : b ∈ bs) (hc : c ∈ bs) {a : Nat}
    (ha : b.Contains a) (hlt : a < c.start) : b.start + b.len ≤ c.start := by
  obtain ⟨h₁, h₂⟩ := ha
  induction bs generalizing lo with
  | nil => cases hb
  | cons d bs ih =>
      obtain ⟨rfl, h⟩ := h
      rcases List.mem_cons.mp hb with rfl | hb'
      · rcases List.mem_cons.mp hc with rfl | hc'
        · omega
        · exact (h.bounds hc').1
      · rcases List.mem_cons.mp hc with rfl | hc'
        · have := (h.bounds hb').1
          omega
        · exact ih h hb' hc'

/-- A block that holds an address starts no earlier than any block in front of it. -/
theorem start_le_start (h : Tiles lo bs hi) {b c : Block} (hb : b ∈ bs) (hc : c ∈ bs) {a : Nat}
    (ha : b.Contains a) (hle : c.start ≤ a) : c.start ≤ b.start := by
  obtain ⟨h₁, h₂⟩ := ha
  induction bs generalizing lo with
  | nil => cases hb
  | cons d bs ih =>
      obtain ⟨rfl, h⟩ := h
      rcases List.mem_cons.mp hb with rfl | hb'
      · rcases List.mem_cons.mp hc with rfl | hc'
        · exact le_refl _
        · have := (h.bounds hc').1
          omega
      · rcases List.mem_cons.mp hc with rfl | hc'
        · have := (h.bounds hb').1
          omega
        · exact ih h hb' hc'

end Tiles

/-- The consecutive blocks of the given lengths from `lo` on. -/
def blocksFrom : Nat → List Nat → List Block
  | _, [] => []
  | lo, len :: lens => ⟨lo, len⟩ :: blocksFrom (lo + len) lens

theorem blocksFrom_tiles (lo : Nat) (lens : List Nat) :
    Tiles lo (blocksFrom lo lens) (lo + lens.sum) := by
  induction lens generalizing lo with
  | nil => simp [blocksFrom, Tiles]
  | cons len lens ih =>
      refine ⟨rfl, ?_⟩
      simpa [Nat.add_assoc] using ih (lo + len)

theorem blocksFrom_append (lo : Nat) (lens lens' : List Nat) :
    blocksFrom lo (lens ++ lens') = blocksFrom lo lens ++ blocksFrom (lo + lens.sum) lens' := by
  induction lens generalizing lo with
  | nil => simp [blocksFrom]
  | cons len lens ih => simp [blocksFrom, ih, Nat.add_assoc]

end RaipalSoem.Lib

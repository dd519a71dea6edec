import RaipalSoem.Lib.Memory

/-!
# Chains of records

Records of varying size that lie one behind the other in a memory. Every record says how
long it is and whether another one follows. A chain is decoded from its first record on,
and it can be edited in place record by record.
-/

namespace RaipalSoem.Lib

/-- A record format: how a record is read off the memory, how many cells it takes, and
whether it announces a next one. What is read depends on the cells of the record only. -/
structure ChainFormat (V R : Type*) where
  parse : Memory V → Nat → R
  size : R → Nat
  more : R → Bool
  size_pos : ∀ r, 0 < size r
  parse_congr : ∀ {m m' : Memory V} {off : Nat},
    (∀ a ∈ span off (size (parse m off)), m' a = m a) → parse m' off = parse m off

namespace ChainFormat

variable {V R : Type*} (F : ChainFormat V R)

/-- The cells that a list of records takes. -/
def total (rs : List R) : Nat := (rs.map F.size).sum

@[simp] theorem total_nil : F.total [] = 0 := rfl

@[simp] theorem total_cons (r : R) (rs : List R) : F.total (r :: rs) = F.size r + F.total rs := by
  simp [total]

@[simp] theorem total_append (rs rs' : List R) :
    F.total (rs ++ rs') = F.total rs + F.total rs' := by
  simp [total]

theorem total_take_le (rs : List R) (i : Nat) : F.total (rs.take i) ≤ F.total rs := by
  conv_rhs => rw [← List.take_append_drop i rs, total_append]
  exact Nat.le_add_right _ _

/-- The records lie one behind the other from `off` on. -/
def Laid (m : Memory V) : Nat → List R → Prop
  | _, [] => True
  | off, r :: rs => F.parse m off = r ∧ Laid m (off + F.size r) rs

/-- Each record but the last one announces the next one. -/
def Closed : List R → Prop
  | [] => False
  | [r] => F.more r = false
  | r :: r' :: rs => F.more r = true ∧ Closed (r' :: rs)

instance decidableClosed : (rs : List R) → Decidable (F.Closed rs)
  | [] => inferInstanceAs (Decidable False)
  | [r] => inferInstanceAs (Decidable (F.more r = false))
  | r :: r' :: rs =>
      have := decidableClosed (r' :: rs)
      inferInstanceAs (Decidable (F.more r = true ∧ F.Closed (r' :: rs)))

/-- The records from `off` on, as they announce each other. The last one has to end at
`stop`, and none goes beyond. -/
def decode (m : Memory V) (stop : Nat) : Nat → Nat → Option (List R)
  | 0, _ => none
  | fuel + 1, off =>
      let r := F.parse m off
      if off + F.size r ≤ stop then
        if F.more r then (decode m stop fuel (off + F.size r)).map (r :: ·)
        else if off + F.size r = stop then some [r] else none
      else none

/-- Edit the records from `off` on, as they announce each other. -/
def sweep (edit : Memory V → Nat → Memory V) : Nat → Nat → Memory V → Memory V
  | 0, _, m => m
  | fuel + 1, off, m =>
      let r := F.parse m off
      if F.more r then sweep edit fuel (off + F.size r) (edit m off) else edit m off

variable {F}

theorem laid_append {m : Memory V} {off : Nat} {rs rs' : List R} :
    F.Laid m off (rs ++ rs') ↔ F.Laid m off rs ∧ F.Laid m (off + F.total rs) rs' := by
  induction rs generalizing off with
  | nil => simp [Laid]
  | cons r rs ih =>
      simp only [List.cons_append, Laid, total_cons, ih, Nat.add_assoc, and_assoc]

/-- In a closed list a record announces a next one exactly if there is one. -/
theorem closed_iff {rs : List R} : F.Closed rs ↔
    rs ≠ [] ∧ ∀ j (hj : j < rs.length), F.more rs[j] = decide (j + 1 < rs.length) := by
  induction rs with
  | nil => simp [Closed]
  | cons r rs ih =>
      cases rs with
      | nil => simp [Closed]
      | cons r' rs =>
          simp only [Closed, ih, ne_eq, reduceCtorEq, not_false_eq_true, true_and]
          constructor
          · rintro ⟨hr, hrs⟩ j hj
            cases j with
            | zero => simpa using hr
            | succ j => simpa using hrs j (by simpa using hj)
          · intro h
            constructor
            · exact (h 0 (Nat.succ_pos _)).trans (by simp)
            · intro j hj
              exact (h (j + 1) (Nat.succ_lt_succ hj)).trans (by simp)

/-- A chain depends on its own cells only. -/
theorem Laid.congr {m m' : Memory V} {off : Nat} {rs : List R} (h : F.Laid m off rs)
    (hsame : ∀ a ∈ span off (F.total rs), m' a = m a) : F.Laid m' off rs := by
  induction rs generalizing off with
  | nil => trivial
  | cons r rs ih =>
      obtain ⟨hr, hrs⟩ := h
      simp only [total_cons, mem_span] at hsame
      constructor
      · rw [← hr]
        apply F.parse_congr
        rw [hr]
        intro a ha
        rw [mem_span] at ha
        exact hsame a ⟨by omega, by omega⟩
      · apply ih hrs
        intro a ha
        rw [mem_span] at ha
        exact hsame a ⟨by omega, by omega⟩

/-- Where each record of a chain lies. -/
theorem Laid.parse_eq {m : Memory V} {off : Nat} {rs : List R} (h : F.Laid m off rs) {i : Nat}
    (hi : i < rs.length) : F.parse m (off + F.total (rs.take i)) = rs[i] := by
  induction rs generalizing off i with
  | nil => exact absurd hi (Nat.not_lt_zero i)
  | cons r rs ih =>
      cases i with
      | zero => simpa using h.1
      | succ i =>
          have hnext := ih h.2 (i := i) (by simpa using hi)
          simpa [Nat.add_assoc] using hnext

/-- There are no more records than cells. -/
theorem length_le_total (rs : List R) : rs.length ≤ F.total rs := by
  induction rs with
  | nil => exact le_refl _
  | cons r rs ih =>
      have hpos := F.size_pos r
      simp only [List.length_cons, total_cons]
      omega

/-- Decoding finds the records of a chain exactly if they announce each other. -/
theorem Laid.decode_eq {m : Memory V} {off fuel : Nat} {r : R} {rs : List R}
    (h : F.Laid m off (r :: rs)) (hfuel : rs.length < fuel) :
    F.decode m (off + F.total (r :: rs)) fuel off =
      if F.Closed (r :: rs) then some (r :: rs) else none := by
  induction rs generalizing off fuel r with
  | nil =>
      obtain ⟨fuel, rfl⟩ := Nat.exists_eq_add_one_of_ne_zero (Nat.ne_of_gt hfuel)
      simp only [decode, h.1, total_cons, total_nil, Nat.add_zero, le_refl, if_true, Closed]
      -- a further record would begin where the chain ends
      have hnone : F.decode m (off + F.size r) fuel (off + F.size r) = none := by
        cases fuel with
        | zero => rfl
        | succ fuel =>
            have hpos := F.size_pos (F.parse m (off + F.size r))
            simp only [decode]
            exact if_neg (by omega)
      by_cases hmore : F.more r = true <;> simp [hmore, hnone]
  | cons r' rs ih =>
      obtain ⟨fuel, rfl⟩ := Nat.exists_eq_add_one_of_ne_zero (Nat.ne_of_gt (Nat.zero_lt_of_lt hfuel))
      have hrest := ih h.2 (Nat.lt_of_succ_lt_succ hfuel)
      have hpos := F.size_pos r'
      simp only [decode, h.1, Closed]
      rw [total_cons F r, ← Nat.add_assoc, hrest, if_pos (Nat.le_add_right _ _)]
      have hshort : off + F.size r ≠ off + F.size r + F.total (r' :: rs) := by
        rw [total_cons]
        omega
      by_cases hmore : F.more r = true
      · by_cases hclosed : F.Closed (r' :: rs) <;> simp [hmore, hclosed]
      · simp only [hmore, if_false, if_neg hshort, false_and, Bool.false_eq_true]

/-- An edit that turns the record at its place into another one of the same size, and
leaves the rest of the memory alone. -/
structure Edits (F : ChainFormat V R) (edit : Memory V → Nat → Memory V) (f : R → R) : Prop where
  parse : ∀ m off, F.parse (edit m off) off = f (F.parse m off)
  outside : ∀ m off a, a ∉ span off (F.size (F.parse m off)) → edit m off a = m a
  size : ∀ r, F.size (f r) = F.size r
  more : ∀ r, F.more (f r) = F.more r

theorem Edits.total {edit : Memory V → Nat → Memory V} {f : R → R} (h : F.Edits edit f)
    (rs : List R) : F.total (rs.map f) = F.total rs := by
  induction rs with
  | nil => rfl
  | cons r rs ih => simp only [List.map_cons, total_cons, h.size, ih]

theorem Edits.closed {edit : Memory V → Nat → Memory V} {f : R → R} (h : F.Edits edit f) :
    ∀ {rs : List R}, F.Closed rs → F.Closed (rs.map f)
  | [], hc => hc
  | [r], hc => (h.more r).trans hc
  | r :: _ :: _, hc => ⟨(h.more r).trans hc.1, h.closed hc.2⟩

/-- A sweep leaves what lies in front of the chain alone. -/
theorem Edits.sweep_before {edit : Memory V → Nat → Memory V} {f : R → R} (h : F.Edits edit f)
    (fuel : Nat) {off : Nat} (m : Memory V) {a : Nat} (ha : a < off) :
    F.sweep edit fuel off m a = m a := by
  induction fuel generalizing off m with
  | zero => rfl
  | succ fuel ih =>
      have hedit : edit m off a = m a := h.outside m off a fun hmem => by
        rw [mem_span] at hmem
        omega
      simp only [sweep]
      split
      · rw [ih _ (by omega), hedit]
      · exact hedit

/-- A sweep over a closed chain edits each of its records. -/
theorem Edits.sweep_laid {edit : Memory V → Nat → Memory V} {f : R → R} (h : F.Edits edit f)
    {fuel off : Nat} {m : Memory V} {r : R} {rs : List R} (hlaid : F.Laid m off (r :: rs))
    (hclosed : F.Closed (r :: rs)) (hfuel : rs.length < fuel) :
    F.Laid (F.sweep edit fuel off m) off ((r :: rs).map f) := by
  induction rs generalizing off fuel m r with
  | nil =>
      obtain ⟨fuel, rfl⟩ := Nat.exists_eq_add_one_of_ne_zero (Nat.ne_of_gt hfuel)
      have hmore : F.more r = false := hclosed
      simp only [sweep, hlaid.1, hmore]
      exact ⟨by simp [h.parse, hlaid.1], trivial⟩
  | cons r' rs ih =>
      obtain ⟨fuel, rfl⟩ := Nat.exists_eq_add_one_of_ne_zero (Nat.ne_of_gt (Nat.zero_lt_of_lt hfuel))
      obtain ⟨hr, hrest⟩ := hlaid
      have hedited : F.Laid (edit m off) (off + F.size r) (r' :: rs) := by
        apply hrest.congr
        intro a ha
        apply h.outside
        rw [hr]
        rw [mem_span] at ha ⊢
        omega
      have hswept := ih hedited hclosed.2 (Nat.lt_of_succ_lt_succ hfuel)
      simp only [sweep, hr, hclosed.1, if_true]
      constructor
      · -- the sweep of the rest does not come back to this record
        have hsame : ∀ a ∈ span off (F.size r),
            F.sweep edit fuel (off + F.size r) (edit m off) a = edit m off a := by
          intro a ha
          apply h.sweep_before
          rw [mem_span] at ha
          omega
        have hparse : F.parse (edit m off) off = f r := by rw [h.parse, hr]
        rw [← hparse]
        apply F.parse_congr
        rwa [hparse, h.size]
      · rwa [h.size]

end ChainFormat

end RaipalSoem.Lib

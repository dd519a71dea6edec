import Mathlib.Data.List.Basic
import Mathlib.Data.List.Infix
import Mathlib.Tactic.SplitIfs

/-!
# Reassembly

A frame is cut into fragments. Each one carries the number of its frame and its place in the
frame, and the first one announces room for the whole frame. A receiver puts the fragments
together again and gives up on a frame as soon as one of them is missing. Frames can share a
number; as long as the receiver holds nothing of an earlier frame with the number of the frame
that is sent, all that it completes is the frame.
-/

namespace RaipalSoem.Lib

variable {ι α : Type*}

/-- A piece of a frame, with the values that come before it counted. -/
structure Fragment (ι α : Type*) where
  frame : ι
  place : Nat
  room : Nat
  offset : Nat
  last : Bool
  data : List α
  deriving DecidableEq, Repr

/-- A frame of which the first fragments have arrived. -/
structure Assembly (ι α : Type*) where
  frame : ι
  place : Nat
  room : Nat
  got : List α
  deriving DecidableEq, Repr

namespace Assembly

/-- A first fragment starts a frame; another one needs the frame that it continues. -/
def locate [DecidableEq ι] (st : Option (Assembly ι α)) (f : Fragment ι α) :
    Option (Assembly ι α) :=
  if f.place = 0 then some ⟨f.frame, 0, f.room, []⟩
  else st.filter fun a => a.frame = f.frame ∧ a.place = f.place

/-- A fragment arrives: what the receiver holds then, and the frame that it completes. -/
def receive [DecidableEq ι] (st : Option (Assembly ι α)) (f : Fragment ι α) :
    Option (Assembly ι α) × Option (List α) :=
  match locate st f with
  | none => (none, none)
  | some a =>
      if f.last then (none, some (a.got ++ f.data))
      else (some { a with place := a.place + 1, got := a.got ++ f.data }, none)

/-- The fragment belongs right behind what has arrived; it does not exceed the room for the
frame, nor a limit of the receiver. -/
def Fits [DecidableEq ι] (limit : Nat) (st : Option (Assembly ι α)) (f : Fragment ι α) : Prop :=
  ∀ a, locate st f = some a →
    a.got.length = f.offset ∧ a.got.length + f.data.length ≤ min a.room limit

section Receive

variable [DecidableEq ι] {st : Option (Assembly ι α)} {f : Fragment ι α} {a : Assembly ι α}

theorem eq_of_locate (h : locate st f = some a) : a.frame = f.frame ∧ a.place = f.place := by
  unfold locate at h
  split_ifs at h with hplace
  · cases h
    exact ⟨rfl, hplace.symm⟩
  · exact of_decide_eq_true (Option.filter_eq_some_iff.mp h).2

/-- What is held after a fragment belongs to its frame. -/
theorem frame_of_receive (h : (receive st f).1 = some a) : a.frame = f.frame := by
  unfold receive at h
  split at h
  · cases h
  · next b hb =>
      split_ifs at h with hlast
      cases h
      exact (eq_of_locate hb).1

end Receive

end Assembly

/-- The way a frame is cut: its number, the room for it, and where the fragments end. -/
structure Cutting (ι α : Type*) where
  frame : ι
  room : Nat
  values : List α
  count : Nat
  cut : Nat → Nat
  start : cut 0 = 0
  finish : cut count = values.length
  mono : ∀ k < count, cut k ≤ cut (k + 1)
  inside : ∀ k ≤ count, cut k ≤ values.length
  fits : values.length ≤ room

namespace Cutting

variable (c : Cutting ι α)

/-- The fragment at a place. -/
def fragment (k : Nat) : Fragment ι α :=
  { frame := c.frame
    place := k
    room := c.room
    offset := c.cut k
    last := k + 1 = c.count
    data := (c.values.take (c.cut (k + 1))).drop (c.cut k) }

theorem take_append_fragment {k : Nat} (hk : k < c.count) :
    c.values.take (c.cut k) ++ (c.fragment k).data = c.values.take (c.cut (k + 1)) := by
  have htake : (c.values.take (c.cut (k + 1))).take (c.cut k) = c.values.take (c.cut k) := by
    rw [List.take_take, min_eq_left (c.mono k hk)]
  rw [fragment, ← htake]
  exact List.take_append_drop (c.cut k) _

theorem length_take_cut {k : Nat} (hk : k ≤ c.count) :
    (c.values.take (c.cut k)).length = c.cut k := by
  rw [List.length_take, min_eq_left (c.inside k hk)]

/-- The first `k` fragments have arrived. -/
def held (k : Nat) : Assembly ι α := ⟨c.frame, k, c.room, c.values.take (c.cut k)⟩

/-- If the receiver holds part of a frame with this number, then it is what the fragments
before the one at place `k` have brought. -/
def Clean (k : Nat) (st : Option (Assembly ι α)) : Prop :=
  ∀ a, st = some a → a.frame = c.frame → a.place ≤ k ∧ a = c.held a.place

variable {c}

theorem Clean.mono {k l : Nat} {st : Option (Assembly ι α)} (h : c.Clean k st) (hkl : k ≤ l) :
    c.Clean l st :=
  fun a ha hframe => ⟨(h a ha hframe).1.trans hkl, (h a ha hframe).2⟩

theorem clean_none (k : Nat) : c.Clean k none := fun _ ha => by cases ha

theorem clean_held (k : Nat) : c.Clean k (some (c.held k)) := by
  intro a ha _
  cases ha
  exact ⟨le_refl k, rfl⟩

section Receive

variable [DecidableEq ι] {k : Nat} {st : Option (Assembly ι α)}

/-- A fragment finds the frame that it continues, or none. -/
theorem Clean.locate (h : c.Clean k st) :
    Assembly.locate st (c.fragment k) = none ∨
      Assembly.locate st (c.fragment k) = some (c.held k) := by
  by_cases hk : k = 0
  · apply Or.inr
    subst hk
    simp [Assembly.locate, fragment, held, c.start]
  · cases hst : st with
    | none =>
        apply Or.inl
        simp [Assembly.locate, fragment, hk]
    | some a =>
        by_cases hsame : a.frame = c.frame ∧ a.place = k
        · apply Or.inr
          have heq := (h a hst hsame.1).2
          rw [hsame.2] at heq
          simp [Assembly.locate, fragment, hk, hsame, Option.filter, ← heq]
        · apply Or.inl
          simp [Assembly.locate, fragment, hk, hsame, Option.filter]

theorem fits_of_locate {limit : Nat} (hlimit : c.values.length ≤ limit) (hk : k < c.count)
    (h : ∀ a, Assembly.locate st (c.fragment k) = some a → a = c.held k) :
    Assembly.Fits limit st (c.fragment k) := by
  intro a ha
  rw [h a ha]
  refine ⟨c.length_take_cut hk.le, ?_⟩
  change (c.values.take (c.cut k)).length + (c.fragment k).data.length ≤ min c.room limit
  rw [← List.length_append, c.take_append_fragment hk, c.length_take_cut hk]
  exact (c.inside (k + 1) hk).trans (le_min c.fits hlimit)

theorem Clean.fits {limit : Nat} (hlimit : c.values.length ≤ limit) (h : c.Clean k st)
    (hk : k < c.count) : Assembly.Fits limit st (c.fragment k) := by
  apply fits_of_locate hlimit hk
  intro a ha
  obtain hnone | hsome := h.locate
  · cases hnone.symm.trans ha
  · exact (Option.some.inj (hsome.symm.trans ha)).symm

theorem receive_held (h : Assembly.locate st (c.fragment k) = some (c.held k))
    (hk : k < c.count) :
    Assembly.receive st (c.fragment k) =
      if k + 1 = c.count then (none, some c.values) else (some (c.held (k + 1)), none) := by
  by_cases hlast : k + 1 = c.count
  · have hall : (c.held k).got ++ (c.fragment k).data = c.values := by
      change c.values.take (c.cut k) ++ (c.fragment k).data = c.values
      rw [c.take_append_fragment hk, hlast, c.finish, List.take_length]
    have hflag : (c.fragment k).last = true := by simp [fragment, hlast]
    simp only [Assembly.receive, h, hflag, if_true, hall, if_pos hlast]
  · have hflag : (c.fragment k).last = false := by simp [fragment, hlast]
    simp only [Assembly.receive, h, hflag, Bool.false_eq_true, if_false, if_neg hlast]
    simp only [held, c.take_append_fragment hk]

/-- A fragment that is not the last one completes nothing. -/
theorem Clean.receive_more (h : c.Clean k st) (hk : k + 1 < c.count) :
    c.Clean (k + 1) (Assembly.receive st (c.fragment k)).1 ∧
      (Assembly.receive st (c.fragment k)).2 = none := by
  obtain hnone | hsome := h.locate
  · simp only [Assembly.receive, hnone, and_true]
    exact clean_none (k + 1)
  · rw [receive_held hsome (by omega), if_neg hk.ne]
    exact ⟨clean_held (k + 1), rfl⟩

/-- The last fragment completes the frame or nothing. -/
theorem Clean.receive_last (h : c.Clean k st) (hk : k + 1 = c.count) :
    (Assembly.receive st (c.fragment k)).1 = none ∧
      ((Assembly.receive st (c.fragment k)).2 = none ∨
        (Assembly.receive st (c.fragment k)).2 = some c.values) := by
  obtain hnone | hsome := h.locate
  · simp only [Assembly.receive, hnone, true_and]
    exact Or.inl trivial
  · rw [receive_held hsome (by omega), if_pos hk]
    exact ⟨rfl, Or.inr rfl⟩

end Receive

/-- Every fragment before the one at place `k` has arrived; before a first one the receiver
holds anything. -/
def UpTo (c : Cutting ι α) (k : Nat) (st : Option (Assembly ι α)) : Prop :=
  0 < k → st = some (c.held k)

theorem upTo_zero (st : Option (Assembly ι α)) : c.UpTo 0 st := fun h => absurd h (lt_irrefl 0)

section Receive

variable [DecidableEq ι] {k : Nat} {st : Option (Assembly ι α)}

theorem UpTo.locate (h : c.UpTo k st) :
    Assembly.locate st (c.fragment k) = some (c.held k) := by
  obtain rfl | hk := Nat.eq_zero_or_pos k
  · simp [Assembly.locate, fragment, held, c.start]
  · simp [Assembly.locate, fragment, h hk, held, Option.filter, hk.ne']

theorem UpTo.fits {limit : Nat} (hlimit : c.values.length ≤ limit) (h : c.UpTo k st)
    (hk : k < c.count) : Assembly.Fits limit st (c.fragment k) :=
  fits_of_locate hlimit hk fun _ ha => (Option.some.inj (h.locate.symm.trans ha)).symm

theorem UpTo.receive (h : c.UpTo k st) (hk : k < c.count) :
    Assembly.receive st (c.fragment k) =
      if k + 1 = c.count then (none, some c.values) else (some (c.held (k + 1)), none) :=
  receive_held h.locate hk

end Receive

end Cutting

end RaipalSoem.Lib

import Mathlib.Data.List.Basic
import Mathlib.Tactic.Common

/-!
# Values with a trace, and order in a trace

A computation that acts on its surroundings returns a value and the list of its
actions. Three properties of a list of actions are developed here: actions of one
kind are always followed by one of another kind; there is one final action of a kind;
and a property holds of all actions up to the first one of a kind.
-/

namespace RaipalSoem.Lib

variable {ε α : Type*}

/-- A value together with the actions of its computation. -/
structure Traced (ε α : Type*) where
  trace : List ε
  value : α

/-- Every action of kind `p` is followed by a later one of kind `q`. -/
def FollowedBy (p q : ε → Prop) (t : List ε) : Prop :=
  ∀ before x after, t = before ++ x :: after → p x → ∃ y ∈ after, q y

/-- There is one action of kind `p`, and it is the last of all actions. -/
def EndsOnceWith (p : ε → Prop) (t : List ε) : Prop :=
  ∃ before x, t = before ++ [x] ∧ p x ∧ ∀ y ∈ before, ¬ p y

/-- Every action that has none of kind `q` in front of it has the property `p`. -/
def HoldsUntil (p q : ε → Prop) (t : List ε) : Prop :=
  ∀ before x after, t = before ++ x :: after → (∀ y ∈ before, ¬ q y) → p x

namespace FollowedBy

variable {p q : ε → Prop} {t t' : List ε}

theorem of_forall_not (h : ∀ x ∈ t, ¬ p x) : FollowedBy p q t := by
  rintro before x after rfl hx
  exact absurd hx (h x (by simp))

/-- A later part with an action of kind `q` answers for everything in front of it. -/
theorem append (h : FollowedBy p q t') (hq : ∃ y ∈ t', q y) (t : List ε) :
    FollowedBy p q (t ++ t') := by
  induction t with
  | nil => exact h
  | cons a t ih =>
      intro before x after heq hx
      cases before with
      | nil =>
          obtain ⟨rfl, rfl⟩ : a = x ∧ t ++ t' = after := by simpa using heq
          obtain ⟨y, hy, hqy⟩ := hq
          exact ⟨y, List.mem_append_right t hy, hqy⟩
      | cons b before =>
          have htail : t ++ t' = before ++ x :: after := by
            simpa using congrArg List.tail heq
          exact ih before x after htail hx

/-- Without an action of kind `q` there is none of kind `p`. -/
theorem forall_not (h : FollowedBy p q t) (hq : ∀ y ∈ t, ¬ q y) : ∀ x ∈ t, ¬ p x := by
  intro x hx hpx
  obtain ⟨before, after, rfl⟩ := List.append_of_mem hx
  obtain ⟨y, hy, hqy⟩ := h before x after rfl hpx
  exact hq y (by simp [hy]) hqy

end FollowedBy

namespace EndsOnceWith

variable {p : ε → Prop} {t : List ε}

theorem append_singleton {x : ε} (ht : ∀ y ∈ t, ¬ p y) (hx : p x) : EndsOnceWith p (t ++ [x]) :=
  ⟨t, x, rfl, hx, ht⟩

end EndsOnceWith

namespace HoldsUntil

variable {p q : ε → Prop} {t t' : List ε}

theorem of_forall (h : ∀ x ∈ t, p x) : HoldsUntil p q t := by
  rintro before x after rfl _
  exact h x (by simp)

/-- Behind an action of kind `q` nothing is required. -/
theorem cons_stop {x : ε} (hp : p x) (hq : q x) (t : List ε) : HoldsUntil p q (x :: t) := by
  intro before y after heq hbefore
  cases before with
  | nil =>
      obtain ⟨rfl, _⟩ : x = y ∧ t = after := by simpa using heq
      exact hp
  | cons z before =>
      obtain ⟨rfl, _⟩ : x = z ∧ t = before ++ y :: after := by simpa using heq
      exact absurd hq (hbefore x (by simp))

theorem append (h : ∀ x ∈ t, p x) (h' : HoldsUntil p q t') : HoldsUntil p q (t ++ t') := by
  induction t with
  | nil => exact h'
  | cons a t ih =>
      intro before x after heq hbefore
      cases before with
      | nil =>
          obtain ⟨rfl, _⟩ : a = x ∧ t ++ t' = after := by simpa using heq
          exact h a (by simp)
      | cons b before =>
          have htail : t ++ t' = before ++ x :: after := by
            simpa using congrArg List.tail heq
          exact ih (fun y hy => h y (List.mem_cons_of_mem a hy)) before x after htail
            fun y hy => hbefore y (List.mem_cons_of_mem b hy)

end HoldsUntil

end RaipalSoem.Lib

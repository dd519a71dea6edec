import Mathlib.Data.List.Basic
import Mathlib.Data.List.Infix

/-!
# Transfers in pieces

A transfer delivers its values piece by piece. A piece can be lost, and the next one is
then waited for; the transfer ends with the piece that is marked as the last, or it breaks
off. As long as neither has happened there is no result.
-/

namespace RaipalSoem.Lib

variable {α : Type*}

/-- What the receiver gets when it waits for a piece. -/
inductive Piece (α : Type*)
  | lost
  | more (vs : List α)
  | last (vs : List α)
  | broken
  deriving DecidableEq, Repr

/-- A transfer that is over: the values it has delivered, and whether these are all. -/
structure Transfer (α : Type*) where
  values : List α
  complete : Bool
  deriving DecidableEq, Repr

/-- Collect pieces behind the values `got`. -/
def collect : List α → List (Piece α) → Option (Transfer α)
  | _, [] => none
  | got, .lost :: ps => collect got ps
  | got, .more vs :: ps => collect (got ++ vs) ps
  | got, .last vs :: _ => some ⟨got ++ vs, true⟩
  | got, .broken :: _ => some ⟨got, false⟩

/-- No piece is lost before the transfer is over. -/
def intact : List (Piece α) → Bool
  | .lost :: _ => false
  | .more _ :: ps => intact ps
  | _ => true

/-- What has been delivered once stays at the start. -/
theorem prefix_of_collect {ps : List (Piece α)} {got : List α} {t : Transfer α}
    (h : collect got ps = some t) : got <+: t.values := by
  induction ps generalizing got with
  | nil => cases h
  | cons p ps ih =>
      cases p with
      | lost => exact ih h
      | more vs => exact (List.prefix_append got vs).trans (ih h)
      | last vs =>
          cases h
          exact List.prefix_append got vs
      | broken =>
          cases h
          exact List.prefix_rfl

end RaipalSoem.Lib

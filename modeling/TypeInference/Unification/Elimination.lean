import TypeInference.Unification.Measure

/-! Unification by elimination. The equations still to be solved are kept under the current
substitution, and each step makes the move that the first of them calls for. -/
namespace TypeInference
namespace Unification

/-- Where elimination stopped: the substitution reached, and the conflict if there was one. -/
structure Outcome where
  solution : Substitution
  conflict : Option Conflict
deriving DecidableEq

/-- One round of elimination: drops and splits equations until a variable can be bound, then goes on
with `next`, which has fewer variables to deal with. -/
def round {n : Nat} (next : Substitution → (es : List Equation) → rank es < n → Outcome)
    (S : Substitution) : (es : List Equation) → rank es ≤ n → Outcome
  | [], _ => ⟨S, none⟩
  | e :: es, hn =>
    match h : e.move with
    | .bind v t => next (S.bind v t) (replace v t es) (Nat.lt_of_lt_of_le (rank_replace_lt h) hn)
    | .split ds => round next S (ds ++ es) (Nat.le_trans (rank_split_le h) hn)
    | .fail c => ⟨S, some c⟩
termination_by es => size es
decreasing_by exact size_split_lt h

/-- Solves equations from the first to the last. The equations are under the substitution `S`,
and what was bound before a conflict stays bound. -/
def eliminate (S : Substitution) (es : List Equation) : Outcome :=
  round (fun T ds _ => eliminate T ds) S es (Nat.le_refl _)
termination_by rank es

theorem round_congr (f : Substitution → List Equation → Outcome) {n m : Nat} (S : Substitution)
    (es : List Equation) (hn : rank es ≤ n) (hm : rank es ≤ m) :
    round (fun T ds _ => f T ds) S es hn = round (fun T ds _ => f T ds) S es hm := by
  match es with
  | [] => simp [round]
  | e :: es =>
    rw [round, round]
    split
    · rfl
    · exact round_congr f S _ _ _
    · rfl
termination_by size es
decreasing_by exact size_split_lt ‹_›

theorem round_eliminate {n : Nat} (S : Substitution) (es : List Equation) (hn : rank es ≤ n) :
    round (fun T ds _ => eliminate T ds) S es hn = eliminate S es := by
  conv => rhs; rw [eliminate]
  exact round_congr eliminate S es hn _

@[simp] theorem eliminate_nil (S : Substitution) : eliminate S [] = ⟨S, none⟩ := by
  rw [eliminate, round]

theorem eliminate_cons (S : Substitution) (e : Equation) (es : List Equation) :
    eliminate S (e :: es) =
      match e.move with
      | .bind v t => eliminate (S.bind v t) (replace v t es)
      | .split ds => eliminate S (ds ++ es)
      | .fail c => ⟨S, some c⟩ := by
  rw [eliminate, round]
  split
  · next h => simp only [h]
  · next h => simp only [h, round_eliminate]
  · next h => simp only [h]

/-- Induction along elimination: each equation is bound, split or stopped at. -/
theorem eliminate_induction {motive : Substitution → List Equation → Prop}
    (nil : ∀ S, motive S [])
    (bind : ∀ S e es v t, e.move = .bind v t → motive (S.bind v t) (replace v t es) →
      motive S (e :: es))
    (split : ∀ S e es ds, e.move = .split ds → motive S (ds ++ es) → motive S (e :: es))
    (fail : ∀ S e es c, e.move = .fail c → motive S (e :: es))
    (S : Substitution) (es : List Equation) : motive S es := by
  match es with
  | [] => exact nil S
  | e :: es =>
    cases h : e.move with
    | bind v t =>
      exact bind S e es v t h (eliminate_induction nil bind split fail (S.bind v t)
        (replace v t es))
    | split ds => exact split S e es ds h (eliminate_induction nil bind split fail S (ds ++ es))
    | fail c => exact fail S e es c h
termination_by (rank es, size es)
decreasing_by
  · exact Prod.Lex.left _ _ (rank_replace_lt h)
  · exact Prod.Lex.right' _ (rank_split_le h) (size_split_lt h)

end Unification

open Unification (Outcome eliminate)

namespace Substitution

def unify (S : Substitution) (l r : Ty) : Outcome := eliminate S [⟨S.apply l, S.apply r⟩]

def solve (S : Substitution) : List Equation → Outcome
  | [] => ⟨S, none⟩
  | e :: es =>
    match S.unify e.lhs e.rhs with
    | ⟨T, none⟩ => solve T es
    | ⟨T, some c⟩ => ⟨T, some c⟩

end Substitution

/-- The substitution that solves a list of equations, or the first conflict among them. -/
def solve (es : List Equation) : Except Conflict Substitution :=
  match Substitution.solve ∅ es with
  | ⟨S, none⟩ => .ok S
  | ⟨_, some c⟩ => .error c

end TypeInference

import TypeInference.Proofs.Substitution.Laws
import TypeInference.Proofs.Unification.Solver

/-! Solving in two parts. When some equations have been solved, the rest can be solved on top of
their solution, or the solution can be written into the rest, which is then solved by itself. Both
ways bind the same variables in the same order. So they meet the same conflict, and what the first
way finds is what the second finds, after the solution of the first part. -/
namespace TypeInference
namespace Substitution

open Unification (Under eliminate)

variable {S T U : Substitution}

theorem apply_eq_of_image (h : U.image = (S.compose T).image) (t : Ty) :
    U.apply t = T.apply (S.apply t) := by
  rw [apply, h]
  exact apply_compose S T t

theorem image_bind_compose (h : U.image = (S.compose T).image) {v : TyVar} (hU : v ∉ U) (hT : v ∉ T)
    (t : Ty) : (U.bind v t).image = (S.compose (T.bind v t)).image := by
  funext w
  rw [bind_eq_compose hU, bind_eq_compose hT, ← compose_assoc, image_compose, image_compose, h]

theorem eliminate_compose {es : List Equation} (h : U.image = (S.compose T).image) (hU : Under U es)
    (hT : Under T es) :
    (eliminate U es).conflict = (eliminate T es).conflict ∧
      (eliminate U es).solution.image = (S.compose (eliminate T es).solution).image := by
  induction U, es using Unification.eliminate_induction generalizing T with
  | nil U => simpa using h
  | bind U e es v t he ih =>
    rw [Unification.eliminate_bind he, Unification.eliminate_bind he]
    have hvU := (Unification.forall_vars_bind he hU).1
    have hvT := (Unification.forall_vars_bind he hT).1
    exact ih (image_bind_compose h hvU hvT t) (hU.bind he) (hT.bind he)
  | split U e es ds he ih =>
    rw [Unification.eliminate_split he, Unification.eliminate_split he]
    exact ih h (hU.split he) (hT.split he)
  | fail U e es c he =>
    rw [Unification.eliminate_fail he, Unification.eliminate_fail he]
    exact ⟨rfl, h⟩

theorem unify_compose (h : U.image = (S.compose T).image) (hU : U.Idempotent) (hT : T.Idempotent)
    (l r : Ty) :
    (U.unify l r).conflict = (T.unify (S.apply l) (S.apply r)).conflict ∧
      (U.unify l r).solution.image =
        (S.compose (T.unify (S.apply l) (S.apply r)).solution).image := by
  have hunder := under_apply hU l r
  rw [apply_eq_of_image h, apply_eq_of_image h] at hunder
  rw [unify, unify, apply_eq_of_image h, apply_eq_of_image h]
  exact eliminate_compose h hunder (under_apply hT _ _)

theorem solve_compose (h : U.image = (S.compose T).image) (hU : U.Idempotent) (hT : T.Idempotent)
    (es : List Equation) :
    (U.solve es).conflict = (T.solve (es.map (Equation.subst S.image))).conflict ∧
      (U.solve es).solution.image =
        (S.compose (T.solve (es.map (Equation.subst S.image))).solution).image := by
  induction es generalizing T U with
  | nil => exact ⟨rfl, h⟩
  | cons e es ih =>
    have hunify := unify_compose h hU hT e.lhs e.rhs
    rcases hu : U.unify e.lhs e.rhs with ⟨U', o⟩
    rcases ht : T.unify (S.apply e.lhs) (S.apply e.rhs) with ⟨T', o'⟩
    rw [hu, ht] at hunify
    obtain ⟨rfl, h'⟩ := hunify
    have ht : T.unify (e.subst S.image).lhs (e.subst S.image).rhs = ⟨T', o⟩ := ht
    rw [List.map_cons]
    cases o with
    | none =>
      rw [solve_cons_ok hu, solve_cons_ok ht]
      exact ih h' (unify_idempotent hu hU) (unify_idempotent ht hT)
    | some c =>
      rw [solve_cons_conflict hu, solve_cons_conflict ht]
      exact ⟨rfl, h'⟩

/-- Equations after a part that has been solved are solved like the rest by itself, with the
solution of that part written into it. -/
theorem solve_append_compose {ds : List Equation} (hS : solve ∅ ds = ⟨S, none⟩)
    (es : List Equation) :
    (solve ∅ (ds ++ es)).conflict = (solve ∅ (es.map (Equation.subst S.image))).conflict ∧
      (solve ∅ (ds ++ es)).solution.image =
        (S.compose (solve ∅ (es.map (Equation.subst S.image))).solution).image := by
  have hi := solve_idempotent idempotent_empty ds
  rw [hS] at hi
  rw [solve_append_ok hS]
  refine solve_compose (funext fun v => ?_) hi idempotent_empty es
  rw [image_compose, apply_empty]

end Substitution
end TypeInference

import Mathlib
import TypeInference.Proofs.Unification.Solver

/-! Solving a list of equations gives a most general solution: every solution factors through it.
There is a conflict exactly if the list has no solution, and the conflict is found at the first
equation that leaves none. -/
namespace TypeInference

variable {S : Substitution} {θ : TyVar → Ty} {es : List Equation} {c : Conflict}

theorem solve_eq_ok : solve es = .ok S ↔ Substitution.solve ∅ es = ⟨S, none⟩ := by
  rw [solve]
  rcases Substitution.solve ∅ es with ⟨T, _ | d⟩ <;> simp

theorem solve_eq_error :
    solve es = .error c ↔ ∃ T, Substitution.solve ∅ es = ⟨T, some c⟩ := by
  rw [solve]
  rcases Substitution.solve ∅ es with ⟨T, _ | d⟩ <;> simp

/-- A map solves the equations exactly if it factors through what the solver returns. -/
theorem solves_iff_factors (h : Substitution.solve ∅ es = ⟨S, none⟩) :
    Solves θ es ↔ S.Factors θ := by
  constructor
  · intro hes
    have hf := (Substitution.factors_solve Substitution.idempotent_empty
      (Substitution.factors_empty θ) hes).2
    rwa [h] at hf
  · intro hS
    have hf : (Substitution.solve ∅ es).solution.Factors θ := by rwa [h]
    exact (Substitution.factors_of_solve Substitution.idempotent_empty hf).2 (by rw [h])

theorem not_solves_of_conflict (h : Substitution.solve ∅ es = ⟨S, some c⟩) : ¬Solves θ es := by
  intro hes
  have hc := (Substitution.factors_solve Substitution.idempotent_empty
    (Substitution.factors_empty θ) hes).1
  rw [h] at hc
  cases hc

theorem solution_idempotent (h : Substitution.solve ∅ es = ⟨S, none⟩) : S.Idempotent := by
  have hi := Substitution.solve_idempotent Substitution.idempotent_empty es
  rwa [h] at hi

/-- The solver returns a most general solution: it makes both sides of every equation equal, and
every solution factors through it. -/
theorem solve_most_general (h : solve es = .ok S) :
    (∀ e ∈ es, S.apply e.lhs = S.apply e.rhs) ∧
      ∀ θ : TyVar → Ty, Solves θ es → ∀ t : Ty, (S.apply t).subst θ = t.subst θ := by
  have hs := solve_eq_ok.1 h
  constructor
  · exact (solves_iff_factors hs).2 (solution_idempotent hs).factors
  · intro θ hes t
    exact ((solves_iff_factors hs).1 hes).apply t

/-- The second equation fixes a variable in the image of the first. -/
def sharedEquations : List Equation :=
  [⟨.var ⟨0⟩, .fn (.var ⟨1⟩) .int⟩, ⟨.tuple [.var ⟨1⟩, .var ⟨0⟩], .tuple [.bool, .var ⟨2⟩]⟩]

theorem solve_most_general_shared :
    ∃ S, solve sharedEquations = .ok S ∧ S.apply (.var ⟨2⟩) = .fn .bool .int ∧
      (∀ e ∈ sharedEquations, S.apply e.lhs = S.apply e.rhs) ∧
      ∀ θ : TyVar → Ty, Solves θ sharedEquations → ∀ t : Ty, (S.apply t).subst θ = t.subst θ := by
  have h : (solve sharedEquations).map (·.apply (.var ⟨2⟩)) = .ok (.fn .bool .int) := by cbv
  cases hs : solve sharedEquations with
  | error c => simp [hs, Except.map] at h
  | ok S => exact ⟨S, rfl, by simpa [hs, Except.map] using h, solve_most_general hs⟩

/-- The solver fails exactly if there is no solution, and it fails at the first equation that leaves
none. -/
theorem solve_fails_at_first_unsolvable (es : List Equation) :
    ((∃ c, solve es = .error c) ↔ ¬∃ θ : TyVar → Ty, Solves θ es) ∧
      ∀ c, solve es = .error c → ∃ k < es.length, (∃ S, solve (es.take k) = .ok S) ∧
        solve (es.take (k + 1)) = .error c ∧ ¬∃ θ : TyVar → Ty, Solves θ (es.take (k + 1)) := by
  constructor
  · constructor
    · rintro ⟨c, h⟩ ⟨θ, hes⟩
      obtain ⟨T, hT⟩ := solve_eq_error.1 h
      exact not_solves_of_conflict hT hes
    · intro h
      rcases hs : Substitution.solve ∅ es with ⟨T, _ | c⟩
      · exact absurd ⟨T.image, (solves_iff_factors hs).2 (solution_idempotent hs).factors⟩ h
      · exact ⟨c, solve_eq_error.2 ⟨T, hs⟩⟩
  · intro c h
    obtain ⟨T, hT⟩ := solve_eq_error.1 h
    obtain ⟨k, hk, ⟨U, hU⟩, hc⟩ := Substitution.solve_stops hT
    refine ⟨k, hk, ⟨U, solve_eq_ok.2 hU⟩, solve_eq_error.2 ⟨T, hc⟩, ?_⟩
    rintro ⟨θ, hes⟩
    exact not_solves_of_conflict hc hes

/-- The second equation puts a variable into its own image, the third has no solution either. -/
def circularEquations : List Equation :=
  [⟨.var ⟨0⟩, .fn (.var ⟨1⟩) .int⟩, ⟨.var ⟨1⟩, .tuple [.var ⟨0⟩]⟩, ⟨.int, .bool⟩]

theorem solve_fails_at_first_circular :
    solve circularEquations = .error (.infinite ⟨1⟩ (.tuple [.fn (.var ⟨1⟩) .int])) ∧
      ∃ k < circularEquations.length, (∃ S, solve (circularEquations.take k) = .ok S) ∧
        solve (circularEquations.take (k + 1)) =
          .error (.infinite ⟨1⟩ (.tuple [.fn (.var ⟨1⟩) .int])) ∧
        ¬∃ θ : TyVar → Ty, Solves θ (circularEquations.take (k + 1)) := by
  have h : solve circularEquations = .error (.infinite ⟨1⟩ (.tuple [.fn (.var ⟨1⟩) .int])) := by cbv
  exact ⟨h, (solve_fails_at_first_unsolvable circularEquations).2 _ h⟩

end TypeInference

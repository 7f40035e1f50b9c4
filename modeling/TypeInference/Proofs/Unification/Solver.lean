import TypeInference.Proofs.Unification.Refinement

/-! Solving equations one after the other, by what a single equation does and then by induction
along the list. Solving keeps a substitution idempotent, loses no solution and adds none, and brings
in no variable that the equations do not mention. -/
namespace TypeInference
namespace Substitution

open Unification (vars)

variable {S T : Substitution} {θ : TyVar → Ty} {P : TyVar → Prop} {l r : Ty} {o : Option Conflict}

theorem under_apply (hi : S.Idempotent) (l r : Ty) :
    Unification.Under S [⟨S.apply l, S.apply r⟩] := by
  intro v hv
  simp only [Unification.vars_cons, Unification.vars_nil, List.append_nil, Equation.vars,
    List.mem_append] at hv
  exact hv.elim hi.not_mem_apply hi.not_mem_apply

theorem solves_apply (hS : S.Factors θ) (l r : Ty) :
    Solves θ [⟨S.apply l, S.apply r⟩] ↔ l.subst θ = r.subst θ := by
  simp [Equation.Holds, hS.apply]

theorem forall_vars_apply
    (h : ∀ v ∈ l.occurrences ++ r.occurrences, ∀ w ∈ (S.image v).occurrences, P w) :
    ∀ w ∈ vars [⟨S.apply l, S.apply r⟩], P w := by
  intro w hw
  simp only [Unification.vars_cons, Unification.vars_nil, List.append_nil, Equation.vars,
    List.mem_append] at hw h
  rcases hw with hw | hw
  · obtain ⟨v, hv, hw⟩ := Ty.mem_occurrences_subst.1 hw
    exact h v (.inl hv) w hw
  · obtain ⟨v, hv, hw⟩ := Ty.mem_occurrences_subst.1 hw
    exact h v (.inr hv) w hw

theorem unify_idempotent (h : S.unify l r = ⟨T, o⟩) (hi : S.Idempotent) : T.Idempotent := by
  have hT := Unification.eliminate_idempotent hi (under_apply hi l r)
  rwa [← unify, h] at hT

theorem factors_unify (h : S.unify l r = ⟨T, o⟩) (hi : S.Idempotent) (hS : S.Factors θ)
    (he : l.subst θ = r.subst θ) : o = none ∧ T.Factors θ := by
  have hT := Unification.factors_eliminate (under_apply hi l r) hS ((solves_apply hS l r).2 he)
  rwa [← unify, h] at hT

theorem factors_of_unify (h : S.unify l r = ⟨T, o⟩) (hi : S.Idempotent) (hT : T.Factors θ) :
    S.Factors θ ∧ (o = none → l.subst θ = r.subst θ) := by
  have hT' : (S.unify l r).solution.Factors θ := by rwa [h]
  obtain ⟨hS, hes⟩ := Unification.factors_of_eliminate (under_apply hi l r) hT'
  rw [← unify, h] at hes
  exact ⟨hS, fun hc => (solves_apply hS l r).1 (hes hc)⟩

theorem unify_image (h : S.unify l r = ⟨T, o⟩)
    (he : ∀ v ∈ l.occurrences ++ r.occurrences, ∀ w ∈ (S.image v).occurrences, P w) {u : TyVar}
    (hu : ∀ w ∈ (S.image u).occurrences, P w) : ∀ w ∈ (T.image u).occurrences, P w := by
  have hT := Unification.eliminate_image (forall_vars_apply he) hu
  rwa [← unify, h] at hT

theorem mem_unify (h : S.unify l r = ⟨T, o⟩)
    (he : ∀ v ∈ l.occurrences ++ r.occurrences, ∀ w ∈ (S.image v).occurrences, P w)
    (hS : ∀ v ∈ S, P v) : ∀ v ∈ T, P v := by
  have hT := Unification.mem_eliminate (forall_vars_apply he) hS
  rwa [← unify, h] at hT

variable {e : Equation} {es ds : List Equation} {c : Conflict}

theorem solve_cons_ok (h : S.unify e.lhs e.rhs = ⟨T, none⟩) : S.solve (e :: es) = T.solve es := by
  rw [solve, h]

theorem solve_cons_conflict (h : S.unify e.lhs e.rhs = ⟨T, some c⟩) :
    S.solve (e :: es) = ⟨T, some c⟩ := by
  rw [solve, h]

/-- Induction along the list: an equation is unified and the rest follows, or solving stops
there. -/
theorem solve_induction {motive : Substitution → List Equation → Unification.Outcome → Prop}
    (nil : ∀ S, motive S [] ⟨S, none⟩)
    (ok : ∀ S e es T, S.unify e.lhs e.rhs = ⟨T, none⟩ → motive T es (T.solve es) →
      motive S (e :: es) (T.solve es))
    (conflict : ∀ S e es T c, S.unify e.lhs e.rhs = ⟨T, some c⟩ → motive S (e :: es) ⟨T, some c⟩)
    (S : Substitution) (es : List Equation) : motive S es (S.solve es) := by
  induction es generalizing S with
  | nil => exact nil S
  | cons e es ih =>
    rcases hu : S.unify e.lhs e.rhs with ⟨T, _ | c⟩
    · rw [solve_cons_ok hu]
      exact ok S e es T hu (ih T)
    · rw [solve_cons_conflict hu]
      exact conflict S e es T c hu

/-- Solving the first part of a list and then the second is solving the list. -/
theorem solve_append_ok (h : S.solve es = ⟨T, none⟩) : S.solve (es ++ ds) = T.solve ds := by
  induction es generalizing S with
  | nil =>
    obtain rfl : S = T := congrArg Unification.Outcome.solution h
    rfl
  | cons e es ih =>
    rcases hu : S.unify e.lhs e.rhs with ⟨U, _ | c⟩
    · rw [List.cons_append, solve_cons_ok hu]
      exact ih (by rwa [solve_cons_ok hu] at h)
    · rw [solve_cons_conflict hu] at h
      cases h

theorem solve_idempotent (hi : S.Idempotent) (es : List Equation) :
    (S.solve es).solution.Idempotent := by
  refine solve_induction (motive := fun S _ o => S.Idempotent → o.solution.Idempotent) ?_
    ?_ ?_ S es hi
  · exact fun S hi => hi
  · exact fun S e es T hu ih hi => ih (unify_idempotent hu hi)
  · exact fun S e es T c hu hi => unify_idempotent hu hi

theorem factors_solve (hi : S.Idempotent) (hS : S.Factors θ) (hes : Solves θ es) :
    (S.solve es).conflict = none ∧ (S.solve es).solution.Factors θ := by
  refine solve_induction (motive := fun S es o => S.Idempotent → S.Factors θ → Solves θ es →
    o.conflict = none ∧ o.solution.Factors θ) ?_ ?_ ?_ S es hi hS hes
  · exact fun S _ hS _ => ⟨rfl, hS⟩
  · intro S e es T hu ih hi hS hes
    obtain ⟨he, hes⟩ := solves_cons.1 hes
    exact ih (unify_idempotent hu hi) (factors_unify hu hi hS he).2 hes
  · intro S e es T c hu hi hS hes
    have hc := (factors_unify hu hi hS (solves_cons.1 hes).1).1
    cases hc

theorem factors_of_solve (hi : S.Idempotent) (hT : (S.solve es).solution.Factors θ) :
    S.Factors θ ∧ ((S.solve es).conflict = none → Solves θ es) := by
  refine solve_induction (motive := fun S es o => S.Idempotent → o.solution.Factors θ →
    S.Factors θ ∧ (o.conflict = none → Solves θ es)) ?_ ?_ ?_ S es hi hT
  · exact fun S _ hS => ⟨hS, fun _ => solves_nil θ⟩
  · intro S e es T hu ih hi hT
    obtain ⟨hTθ, hes⟩ := ih (unify_idempotent hu hi) hT
    obtain ⟨hS, he⟩ := factors_of_unify hu hi hTθ
    exact ⟨hS, fun hc => solves_cons.2 ⟨he rfl, hes hc⟩⟩
  · exact fun S e es T c hu hi hT => ⟨(factors_of_unify hu hi hT).1, nofun⟩

theorem solve_image (hes : ∀ v ∈ vars es, ∀ w ∈ (S.image v).occurrences, P w) {u : TyVar}
    (hu : ∀ w ∈ (S.image u).occurrences, P w) :
    ∀ w ∈ ((S.solve es).solution.image u).occurrences, P w := by
  refine solve_induction (motive := fun S es o =>
    (∀ v ∈ vars es, ∀ w ∈ (S.image v).occurrences, P w) →
    ∀ u, (∀ w ∈ (S.image u).occurrences, P w) → ∀ w ∈ (o.solution.image u).occurrences, P w)
    ?_ ?_ ?_ S es hes u hu
  · exact fun S _ u hu => hu
  · intro S e es T h ih hes u hu
    obtain ⟨he, hes⟩ := List.forall_mem_append.1 hes
    exact ih (fun v hv => unify_image h he (hes v hv)) u (unify_image h he hu)
  · exact fun S e es T c h hes u hu => unify_image h (List.forall_mem_append.1 hes).1 hu

theorem mem_solve (hes : ∀ v ∈ vars es, ∀ w ∈ (S.image v).occurrences, P w) (hS : ∀ v ∈ S, P v) :
    ∀ v ∈ (S.solve es).solution, P v := by
  refine solve_induction (motive := fun S es o =>
    (∀ v ∈ vars es, ∀ w ∈ (S.image v).occurrences, P w) →
    (∀ v ∈ S, P v) → ∀ v ∈ o.solution, P v) ?_ ?_ ?_ S es hes hS
  · exact fun S _ hS => hS
  · intro S e es T h ih hes hS
    obtain ⟨he, hes⟩ := List.forall_mem_append.1 hes
    exact ih (fun v hv => unify_image h he (hes v hv)) (mem_unify h he hS)
  · exact fun S e es T c h hes hS => mem_unify h (List.forall_mem_append.1 hes).1 hS

/-- The equation that stops the solver is the first one that leaves no solution. -/
theorem solve_stops (h : S.solve es = ⟨T, some c⟩) :
    ∃ k < es.length, (∃ U, S.solve (es.take k) = ⟨U, none⟩) ∧
      S.solve (es.take (k + 1)) = ⟨T, some c⟩ := by
  induction es generalizing S with
  | nil => cases h
  | cons e es ih =>
    rcases hu : S.unify e.lhs e.rhs with ⟨U, _ | d⟩
    · rw [solve_cons_ok hu] at h
      obtain ⟨k, hk, ⟨V, hV⟩, hc⟩ := ih h
      refine ⟨k + 1, Nat.succ_lt_succ hk, ⟨V, ?_⟩, ?_⟩
      · rw [List.take_succ_cons, solve_cons_ok hu, hV]
      · rw [List.take_succ_cons, solve_cons_ok hu, hc]
    · rw [solve_cons_conflict hu] at h
      refine ⟨0, Nat.succ_pos _, ⟨S, rfl⟩, ?_⟩
      rw [List.take_succ_cons, solve_cons_conflict hu, h]

end Substitution
end TypeInference

import TypeInference.Proofs.Inference.Pending
import TypeInference.Proofs.Unification.Descent

/-! Trying again after a conflict. A call that fails keeps what it has bound, and the next call with
the same equations starts from there. All equations up to the one that fails are then satisfied, and
so are the components of that one up to the pair that is in conflict. So the second call binds
nothing and comes to the same pair, which it finds as the first call left it. -/
namespace TypeInference

namespace Equation

variable {l r : Ty} {e : Equation} {es : List Equation} {θ : TyVar → Ty}

theorem split?_subst (θ : TyVar → Ty) (h : split? l r = some es) :
    split? (l.subst θ) (r.subst θ) = some (es.map (subst θ)) := by
  obtain ⟨hp, rfl, rfl⟩ | ⟨p, t, q, u, rfl, rfl, rfl⟩ | ⟨ts, us, rfl, rfl, hl, rfl⟩ |
    ⟨n, ts, us, rfl, rfl, hl, rfl⟩ := split?_cases h
  · cases l <;> simp_all [Ty.isPrimitive, Ty.subst, split?]
  · simp [Ty.subst, split?, subst]
  · simp [Ty.subst, split?, hl, subst]
  · simp [Ty.subst, split?, hl, subst]

/-- An equation that is split is split under every map that does not make its sides equal. -/
theorem move_subst (h : e.move = .split es) (hne : ¬e.Holds θ) :
    (e.subst θ).move = .split (es.map (subst θ)) := by
  obtain ⟨heq, -⟩ | hs := move_split h
  · exact absurd (congrArg (Ty.subst θ) heq) hne
  · have hs' : split? (e.subst θ).lhs (e.subst θ).rhs = some (es.map (subst θ)) := split?_subst θ hs
    have hne' : (e.subst θ).lhs ≠ (e.subst θ).rhs := hne
    generalize e.subst θ = d at hs' hne'
    rw [move, if_neg hne']
    split
    · next v hl => simp [hl, split?] at hs'
    · next v hr _ => simp [hr, split?] at hs'
    · rw [hs']

end Equation

namespace Unification

variable {S T : Substitution} {e : Equation} {es ds : List Equation} {c : Conflict}

theorem eliminate_append_equal (h : ∀ d ∈ ds, d.lhs = d.rhs) :
    eliminate S (ds ++ es) = eliminate S es := by
  induction ds with
  | nil => rfl
  | cons d ds ih =>
    obtain ⟨hd, hds⟩ := List.forall_mem_cons.1 h
    have hmove : d.move = .split [] := by rw [Equation.move, if_pos hd]
    rw [List.cons_append, eliminate_split hmove]
    exact ih hds

/-- Equations that a map solves are passed over under it. -/
theorem eliminate_solves_append {θ : TyVar → Ty} (h : Solves θ ds) (es : List Equation) :
    eliminate S (ds.map (Equation.subst θ) ++ es) = eliminate S es := by
  refine eliminate_append_equal fun d hd => ?_
  obtain ⟨d, hmem, rfl⟩ := List.mem_map.1 hd
  exact h d hmem

/-- Under what is left after a conflict, elimination meets the same conflict and binds nothing. -/
theorem eliminate_again (hi : S.Idempotent) (hu : Under S es) (h : eliminate S es = ⟨T, some c⟩) :
    eliminate T (es.map (Equation.subst T.image)) = ⟨T, some c⟩ := by
  induction S, es using eliminate_induction with
  | nil S => simp at h
  | bind S e es v t he ih =>
    rw [eliminate_bind he] at h
    obtain ⟨hv, ht, -⟩ := forall_vars_bind he hu
    have hbi := hi.bind (vars_move_bind he).2.2 ht
    have hfactor : (S.bind v t).Factors T.image := by
      have := factors_eliminate_solution hbi (hu.bind he)
      rwa [h] at this
    -- the variable still stands for its image, so the equation that bound it is satisfied
    have himage : T.image v = t.subst T.image := ((Substitution.factors_bind hv).1 hfactor).2
    have hholds : Solves T.image [e] := by simpa using (Equation.holds_move_bind he).2 himage
    have hagain := ih hbi (hu.bind he) h
    rw [map_subst_replace himage] at hagain
    rw [← List.singleton_append, List.map_append, eliminate_solves_append hholds]
    exact hagain
  | split S e es ds he ih =>
    rw [eliminate_split he] at h
    have hagain := ih hi (hu.split he) h
    rw [List.map_append] at hagain
    by_cases hholds : e.Holds T.image
    · have hone : Solves T.image [e] := by simpa using hholds
      rw [eliminate_solves_append ((Equation.holds_move_split he).1 hholds)] at hagain
      rw [← List.singleton_append, List.map_append, eliminate_solves_append hone]
      exact hagain
    · rw [List.map_cons, eliminate_split (Equation.move_subst he hholds)]
      exact hagain
  | fail S e es d he =>
    rw [eliminate_fail he] at h
    obtain ⟨rfl, hc⟩ := Outcome.mk.inj h
    have hself : e.subst S.image = e := Substitution.subst_eq_self fun v hv => hu v (by simp [hv])
    rw [List.map_cons, hself, eliminate_fail he, hc]

end Unification

open Unification (Call)

/-- A list of equations that cannot be solved can be passed again without effect. -/
theorem Substitution.solve_again {S T : Substitution} {es : List Equation} {c : Conflict}
    (hi : S.Idempotent) (h : S.solve es = ⟨T, some c⟩) : T.solve es = ⟨T, some c⟩ := by
  have hT : T.Idempotent := by
    have := solve_idempotent hi es
    rwa [h] at this
  have hfactor : S.Factors T.image := by
    have := hi.factors_solve es
    rwa [h] at this
  have hsame : (es.map (Equation.subst S.image)).map (Equation.subst T.image) =
      es.map (Equation.subst T.image) := by
    rw [List.map_map]
    exact List.map_congr_left fun e _ => hfactor.subst_subst e
  rw [solve_eq_eliminate hi] at h
  rw [solve_eq_eliminate hT, ← hsame]
  exact Unification.eliminate_again hi (Unification.under_map_subst hi es) h

namespace State

variable {s s₁ s₂ s₃ : State} {e : Failure}

theorem Alike.refl (s : State) : s.Alike s := ⟨rfl, rfl, rfl⟩

theorem Alike.trans (h : s₁.Alike s₂) (h' : s₂.Alike s₃) : s₁.Alike s₃ where
  equations := h'.equations.trans h.equations
  solved := h'.solved.trans h.solved
  solution := h'.solution.trans h.solution

theorem Alike.pending_eq (h : s₁.Alike s₂) : s₂.pending = s₁.pending := by
  have hsize : s₂.constraints.size = s₁.constraints.size := congrArg List.length h.equations
  rw [pending, pending, hsize, h.solved]

theorem Alike.unsolved_eq (h : s₁.Alike s₂) : s₂.unsolved = s₁.unsolved := by
  rw [unsolved, unsolved, h.equations, h.solved]

theorem Alike.solvePending_again (hi : s.solution.Idempotent)
    (h : Infer.solvePending s = .error e s₁) (hs : s₁.Alike s₂) :
    Infer.solvePending s₂ = .error e s₂ := by
  obtain ⟨S, c, hS, rfl, rfl⟩ := Infer.solvePending_error.1 h
  have hsolution : s₂.solution = S := hs.solution
  have hunsolved : s₂.unsolved = s.unsolved := hs.unsolved_eq
  refine Infer.solvePending_error.2 ⟨S, c, ?_, rfl, ?_⟩
  · rw [hsolution, hunsolved]
    exact Substitution.solve_again hi hS
  · rw [← hsolution]

/-- The request neither records an equation nor drops those that are listed. -/
def Request.keepsEquations : Request → Bool
  | .constrain _ _ | .clear | .beginRun => false
  | .fresh | .instantiate _ | .solve | .commit => true

theorem alike_after_conflict (hi : s.solution.Idempotent) (h : Infer.solvePending s = .error e s₁)
    (hs : s₁.Alike s₂) {between : List Request} (hkeep : ∀ r ∈ between, r.keepsEquations = true) :
    s₁.Alike (s₂.after between) := by
  induction between generalizing s₂ with
  | nil => exact hs
  | cons r rs ih =>
    obtain ⟨hr, hkeep⟩ := List.forall_mem_cons.1 hkeep
    refine ih (hs.trans ?_) hkeep
    cases r with
    | fresh => exact Infer.alike_fresh s₂
    | instantiate σ => exact Infer.alike_instantiate σ s₂
    | commit => exact ⟨rfl, rfl, rfl⟩
    | solve =>
      rw [Request.run, Infer.after_error (hs.solvePending_again hi h)]
      exact .refl s₂
    | _ => cases hr

theorem exists_calls_run {calls : List Call} (hs : s.solution = Unification.after ∅ calls)
    (r : Request) : ∃ calls, (r.run s).solution = Unification.after ∅ calls := by
  cases r with
  | fresh => exact ⟨calls, (Infer.alike_fresh s).solution.trans hs⟩
  | instantiate σ => exact ⟨calls, (Infer.alike_instantiate σ s).solution.trans hs⟩
  | solve =>
    obtain ⟨n, hafter⟩ := Infer.after_solvePending s
    refine ⟨calls ++ [.solve s.unsolved], ?_⟩
    rw [Request.run, hafter, Unification.after_append, ← hs]
    rfl
  | beginRun => exact ⟨[], rfl⟩
  | _ => exact ⟨calls, hs⟩

/-- The solution of a state is that of a unifier, whatever the state was asked for. -/
theorem exists_calls_after {calls : List Call} (hs : s.solution = Unification.after ∅ calls)
    (requests : List Request) :
    ∃ calls, (s.after requests).solution = Unification.after ∅ calls := by
  induction requests generalizing s calls with
  | nil => exact ⟨calls, hs⟩
  | cons r rs ih =>
    obtain ⟨calls', hrun⟩ := exists_calls_run hs r
    exact ih hrun

/-- Whatever a unifier was asked for before: if it cannot solve a list of equations, then passing it
the same list again fails in the same way and leaves the same substitution. If a state has such a
unifier's substitution as its solution and cannot solve its equations, then it fails again in the
same way and keeps the solution and the count of pending equations, also after other requests that
leave the equations alone. All states that requests lead to are of this kind. -/
theorem conflict_repeats :
    (∀ (calls : List Call) (es : List Equation) (S : Substitution) (c : Conflict),
      (Unification.after ∅ calls).solve es = ⟨S, some c⟩ → S.solve es = ⟨S, some c⟩) ∧
    (∀ (calls : List Call) (s s' : State) (e : Failure), s.solution = Unification.after ∅ calls →
      Infer.solvePending s = .error e s' →
      ∀ between : List Request, (∀ r ∈ between, r.keepsEquations = true) →
        Infer.solvePending (s'.after between) = .error e (s'.after between) ∧
        (s'.after between).solution = s'.solution ∧ (s'.after between).pending = s'.pending) ∧
    ∀ s : State, (s = .empty ∨ ∃ env d, s = .ofEnv env d) → ∀ requests : List Request,
      ∃ calls, (s.after requests).solution = Unification.after ∅ calls := by
  have hi := Unification.after_idempotent Substitution.idempotent_empty
  refine ⟨fun calls es S c h => Substitution.solve_again (hi calls) h, ?_, ?_⟩
  · intro calls s s' e hs h between hkeep
    have hsi : s.solution.Idempotent := hs ▸ hi calls
    have halike := alike_after_conflict hsi h (.refl s') hkeep
    exact ⟨halike.solvePending_again hsi h, halike.solution, halike.pending_eq⟩
  · intro s hs requests
    have hnew : s.solution = Unification.after ∅ [] := by
      obtain rfl | ⟨env, d, rfl⟩ := hs
      · rfl
      · rfl
    exact exists_calls_after hnew requests

/-- The second equation binds two variables before it comes to a conflict, one of them inside the
image that the first has given to `?0`. -/
def halfwayEquations : List Equation :=
  [⟨.var ⟨0⟩, .fn (.var ⟨1⟩) .int⟩,
    ⟨.tuple [.var ⟨2⟩, .var ⟨0⟩], .tuple [.str, .fn .bool (.var ⟨2⟩)]⟩]

def halfwayRequests : List Request := halfwayEquations.map fun e => .constrain e.lhs e.rhs

theorem conflict_repeats_halfway :
    (∃ S, (Unification.after ∅ []).solve halfwayEquations = ⟨S, some (.mismatch .int .str)⟩ ∧
      S.image ⟨1⟩ = .bool ∧ S.solve halfwayEquations = ⟨S, some (.mismatch .int .str)⟩) ∧
    ∃ s', Infer.solvePending (State.empty.after halfwayRequests) =
        .error (.type (.conflict (.mismatch .int .str))) s' ∧ s'.pending = 2 ∧
      Infer.solvePending (s'.after [.fresh, .commit, .solve]) =
        .error (.type (.conflict (.mismatch .int .str))) (s'.after [.fresh, .commit, .solve]) ∧
      (s'.after [.fresh, .commit, .solve]).pending = 2 := by
  have hsolve : ((Unification.after ∅ []).solve halfwayEquations).conflict =
      some (.mismatch .int .str) := by cbv
  have himage : ((Unification.after ∅ []).solve halfwayEquations).solution.image ⟨1⟩ = .bool := by
    cbv
  have hpending : (Infer.solvePending.after (State.empty.after halfwayRequests)).pending = 2 := by
    decide +kernel
  have hunsolved : (State.empty.after halfwayRequests).unsolved = halfwayEquations := by
    decide +kernel
  rcases hS : (Unification.after ∅ []).solve halfwayEquations with ⟨S, o⟩
  rw [hS] at hsolve himage
  obtain rfl : o = some (.mismatch .int .str) := hsolve
  have hfail : Infer.solvePending (State.empty.after halfwayRequests) =
      .error (.type (.conflict (.mismatch .int .str)))
        { State.empty.after halfwayRequests with solution := S } :=
    Infer.solvePending_error.2 ⟨S, _, by rw [hunsolved]; exact hS, rfl, rfl⟩
  rw [Infer.after_error hfail] at hpending
  obtain ⟨hsolver, hstate, hreached⟩ := conflict_repeats
  obtain ⟨calls, hcalls⟩ := hreached .empty (.inl rfl) halfwayRequests
  obtain ⟨hagain, -, hsame⟩ := hstate calls _ _ _ hcalls hfail [.fresh, .commit, .solve] (by decide)
  exact ⟨⟨S, rfl, himage, hsolver [] _ S _ hS⟩, _, hfail, hpending, hagain, hsame.trans hpending⟩

end State
end TypeInference

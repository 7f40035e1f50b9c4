import TypeInference.Proofs.Inference.Outcomes

/-! Recording first and solving afterwards. A run solves its equations part by part, at every `let`,
at a receiver of unknown type and at its end. This is no different from recording all equations
first and solving them in one pass: the solution is the same, and so is the conflict. -/
namespace TypeInference
namespace Program

open State Infer

variable {p : Program} {id : ExprId} {s s' : State} {t : Ty}

theorem solve_of_infer_ok (h : p.infer id s = .ok t s') :
    solve s'.equations = .ok s'.solution ∧ ∃ u s₁, p.inferExpr id s.beginRun = .ok u s₁ ∧
      s₁.equations = s'.equations ∧ t = s'.solution.apply u := by
  obtain ⟨u, s₁, hrun, hres⟩ := infer_ok h
  obtain ⟨hpending, ht⟩ := resolve_ok.1 hres
  have hsolve := solve_of_solvePending (running_inferExpr hrun).1.regular hpending
  have heqs : s₁.equations = s'.equations := by
    obtain ⟨S, -, rfl⟩ := solvePending_ok.1 hpending
    rfl
  exact ⟨solve_eq_ok.2 hsolve, u, s₁, hrun, heqs, ht⟩

theorem solve_of_infer_conflict {c : Conflict}
    (h : p.infer id s = .error (.type (.conflict c)) s') : solve s'.equations = .error c := by
  exact solve_eq_error.2 ⟨s'.solution, (p.infer_breaks id s _ s' h).conflict c rfl⟩

/-- Whatever state a run starts from. If it succeeds, solving the recorded equations in one pass
gives the solution of the run, and the type is what this makes of the type that was inferred. If it
fails because types do not unify, solving the recorded equations in one pass fails with the same
error. -/
theorem infer_eq_record_then_solve (p : Program) (id : ExprId) (s s' : State) :
    (∀ t, p.infer id s = .ok t s' → solve s'.equations = .ok s'.solution ∧
      ∃ u s₁, p.inferExpr id s.beginRun = .ok u s₁ ∧ s₁.equations = s'.equations ∧
        t = s'.solution.apply u) ∧
    ∀ e, p.infer id s = .error (.type e) s' → e.isUnification = true →
      ∃ c, e = .conflict c ∧ solve s'.equations = .error c := by
  refine ⟨fun t h => solve_of_infer_ok h, fun e h hunify => ?_⟩
  cases e with
  | conflict c => exact ⟨c, rfl, solve_of_infer_conflict h⟩
  | _ => cases hunify

/-- Below `let g = λ x, if x then 1 else 2 in _`: once `g true`, and once `let h = g 1 in h`. -/
def interleavedProgram : Program where
  table := ⟨#[.ident ⟨5⟩, .int 1, .int 2, .ternary ⟨0⟩ ⟨1⟩ ⟨2⟩, .lambda ⟨5⟩ ⟨3⟩, .ident ⟨6⟩,
    .bool true, .apply ⟨5⟩ ⟨6⟩, .apply ⟨5⟩ ⟨1⟩, .ident ⟨7⟩, .letIn ⟨7⟩ ⟨8⟩ ⟨9⟩, .letIn ⟨6⟩ ⟨4⟩ ⟨7⟩,
    .letIn ⟨6⟩ ⟨4⟩ ⟨10⟩], #[]⟩
  declarations := ∅

/-- The first expression is solved in two parts. The second breaks off in the scope of `g`, where
the inner `let` solves its part. -/
theorem infer_eq_record_then_solve_interleaved :
    (∃ s', interleavedProgram.infer ⟨11⟩ (interleavedProgram.start ∅) = .ok .int s' ∧
      solve s'.equations = .ok s'.solution) ∧
    ∃ s', interleavedProgram.infer ⟨12⟩ (interleavedProgram.start ∅) =
        .error (.type (.conflict (.mismatch .bool .int))) s' ∧
      solve s'.equations = .error (.mismatch .bool .int) := by
  have hgood : (interleavedProgram.infer ⟨11⟩).run' (interleavedProgram.start ∅) = some .int := by
    rw [infer_eq_of_nested (n := 5) (by decide) (by decide)]
    cbv
  have hbad : (interleavedProgram.infer ⟨12⟩).failure? (interleavedProgram.start ∅) =
      some (.type (.conflict (.mismatch .bool .int))) := by
    rw [infer_eq_of_nested (n := 5) (by decide) (by decide)]
    cbv
  obtain ⟨s₁, h₁⟩ := run'_eq_some.1 hgood
  obtain ⟨s₂, h₂⟩ := failure?_eq_some.1 hbad
  obtain ⟨c, hc, hsolve⟩ := (infer_eq_record_then_solve interleavedProgram ⟨12⟩ _ s₂).2 _ h₂ rfl
  obtain rfl := TypeError.conflict.inj hc
  exact ⟨⟨s₁, h₁, ((infer_eq_record_then_solve interleavedProgram ⟨11⟩ _ s₁).1 _ h₁).1⟩,
    s₂, h₂, hsolve⟩

end Program
end TypeInference

import TypeInference.Proofs.Inference.Calls

/-! Nothing is captured. The solution is applied below the quantifiers of a scheme without renaming
them, so it must bring no quantified variable into the scheme. Variables that have been quantified
are retired for good: the invariant of a run holds in every state that a run goes through, and each
definition hands it on to the next run with its own quantified variables retired as well. -/
namespace TypeInference

open State

namespace State

/-- The solution brings no variable into a scheme of the environment that the scheme quantifies. -/
def NoCapture (s : State) : Prop :=
  ∀ (x : Name) (σ : Scheme), s.env[x]? = some σ → ∀ v ∈ σ.freeVars, ∀ w ∈ σ.vars,
    w ∉ (s.solution.apply (.var v)).occurrences

def Ready (s : State) : Prop := ∃ D, s.beginRun.Consistent D

variable {D : TyVar → Prop} {s s' : State}

/-- Schemes quantify retired variables, and no free variable of the environment leads to one. -/
theorem Consistent.noCapture_of (h : s.Consistent D) {S : Substitution}
    (hS : ∀ v ∈ s.env.freeVars, ∀ w ∈ (S.image v).occurrences, ¬D w) :
    NoCapture { s with solution := S } := by
  intro x σ hx v hv w hw hocc
  rcases h.schemes x σ hx with hc | hD
  · exact hc.not_mem_freeVars v hv
  · exact hS v (Env.mem_freeVars.2 ⟨x, σ, hx, hv⟩) w hocc (hD w hw)

theorem Consistent.noCapture (h : s.Consistent D) : s.NoCapture :=
  h.noCapture_of fun v hv => (h.env_known v hv).2

/-- Solving captures nothing either, even if it stops at a conflict. -/
theorem Consistent.noCapture_generalize (h : s.Consistent D) (t : Ty) :
    ((Infer.generalize t).after s).NoCapture := by
  obtain ⟨n, hs⟩ := Infer.after_solvePending s
  rw [Infer.after_generalize, hs]
  exact h.noCapture_of fun v hv =>
    Substitution.solve_image (fun u hu => (h.unsolved_known u hu).2) (h.env_known v hv).2

theorem Ready.keeps (h : s.Ready) (hk : s.Keeps s') : s'.Ready := by
  obtain ⟨D, hc⟩ := h
  refine ⟨D, ?_⟩
  rw [hk.beginRun_eq]
  exact (hc.advance hk.next_le).consistent

/-- After a definition the free variables of the environment are those that the solution leaves, and
none of them is retired. -/
theorem Consistent.ready_commit (h : s.Consistent D) {t : Ty} (ht : s.Knows D t) {σ : Scheme}
    (hσ : σ = (s.solution.applyEnv s.env).generalize (s.solution.apply t)) (x : Name) :
    Ready { s.commit with env := s.commit.env.insert x σ } := by
  have hvars : ∀ v ∈ σ.vars, v ∈ (s.solution.apply t).occurrences ∧ v ∉ s.commit.env.freeVars := by
    intro v hv
    rw [hσ] at hv
    exact Env.mem_vars_generalize.1 hv
  have hfree : ∀ v ∈ s.commit.env.freeVars, Taken s.next v ∧ ¬(D v ∨ v ∈ σ.vars) := by
    intro v hv
    obtain ⟨u, hu, hvu⟩ := Substitution.exists_of_mem_freeVars_applyEnv hv
    obtain ⟨htaken, hlive⟩ := h.env_known u hu
    exact ⟨h.solution_taken.image htaken v hvu, fun hd => hd.elim (hlive v hvu) fun hq =>
      (hvars v hq).2 hv⟩
  have hknown : ∀ v ∈ Env.freeVars (s.commit.env.insert x σ), Taken s.next v ∧
      ¬(D v ∨ v ∈ σ.vars) := by
    intro v hv
    refine hfree v (Env.mem_freeVars_insert_generalize (x := x) (t := s.solution.apply t) ?_)
    rwa [hσ] at hv
  refine ⟨fun v => D v ∨ v ∈ σ.vars, ?_⟩
  exact {
    toRegular := s.beginRun_regular.withEnv _
    equations_taken := nofun
    retired_taken := fun v hv => hv.elim (h.retired_taken v) fun hv => by
      obtain ⟨u, hu, hvu⟩ := Ty.mem_occurrences_subst.1 (hvars v hv).1
      exact h.solution_taken.image (ht u hu).1 v hvu
    schemes := fun y τ hy => by
      rcases Env.of_getElem?_insert hy with rfl | hy
      · exact .inr fun v hv => .inr hv
      · have hy : (s.solution.applyEnv s.env)[y]? = some τ := hy
        rw [Substitution.getElem?_applyEnv] at hy
        obtain ⟨τ₀, hτ₀, rfl⟩ := Option.map_eq_some_iff.1 hy
        rcases h.schemes y τ₀ hτ₀ with hc | hD
        · exact .inl (by rwa [Substitution.applyScheme, hc.subst_eq])
        · exact .inr fun v hv => .inl (hD v hv)
    env_known := fun v hv => ⟨(hknown v hv).1, fun w hw hd => by
      obtain rfl : w = v := by simpa [State.beginRun] using hw
      exact (hknown w hv).2 hd⟩
    unsolved_known := nofun }

end State

namespace Program

variable {p : Program} {s s₁ : State} {t : Ty}

theorem ClosedDeclarations.carries (hd : p.ClosedDeclarations) (n : Nat) :
    Infer.Carries (p.inferWithin n) fun s => ∃ D, s.Consistent D where
  run := by
    rintro id t s s₁ ⟨D, hc⟩ h₁
    exact ⟨D, (hd.grows n id D s s₁ t hc h₁).1.consistent⟩
  parameter := by
    rintro a s s₁ ⟨D, hc⟩ h₁ x
    obtain ⟨hext, ha⟩ := Infer.fresh_grows D s s₁ a hc h₁
    exact ⟨D, hext.consistent.insert_mono x ha⟩
  value := by
    rintro id t σ s s₁ s₂ ⟨D, hc⟩ h₁ h₂ x
    obtain ⟨hext, ht⟩ := hd.grows n id D s s₁ t hc h₁
    exact ⟨_, (Infer.generalize_grows hext.consistent ht h₂ x).2⟩

theorem Generalizes.consistent (hd : p.ClosedDeclarations) (h : p.Generalizes s t s₁)
    (hs : s.Ready) : ∃ D, s₁.Consistent D ∧ s₁.Knows D t := by
  obtain ⟨n, id, s₀, ⟨D, hc⟩, hrun⟩ := h.exists_run hd.carries hs
  obtain ⟨hext, ht⟩ := hd.grows n id D s₀ s₁ t hc hrun
  exact ⟨D, hext.consistent, ht⟩

/-- Every call leaves a state from which a run may start. -/
theorem Session.ready (hd : p.ClosedDeclarations) {env : Env} (henv : env.Unmixed)
    (h : p.Session env s) : s.Ready := by
  refine h.invariant ⟨_, p.start_consistent henv⟩ Ready.keeps fun s s' x id σ hs hok => ?_
  obtain ⟨t, s₁, s₂, hrun, hgen, rfl⟩ := define_ok.1 hok
  obtain ⟨D, hc, ht⟩ := (Generalizes.define hrun).consistent hd hs
  obtain ⟨hsolve, hσ⟩ := Infer.generalize_ok.1 hgen
  have hext := Infer.solvePending_grows hc hsolve
  exact hext.consistent.ready_commit (hext.knows ht) hσ x

/-- Wherever a checker generalizes a type or writes a solution into its environment, whatever calls
it has served and however they ended, the solution brings no variable into a scheme of the
environment that the scheme quantifies. -/
theorem solution_never_captures {env : Env} (henv : env.Unmixed) (hd : p.ClosedDeclarations)
    (hs : p.Session env s) :
    (∀ t s₁, p.Generalizes s t s₁ → s₁.NoCapture ∧ ((Infer.generalize t).after s₁).NoCapture) ∧
      ∀ s₂, p.Commits s s₂ → s₂.NoCapture := by
  have hready := hs.ready hd henv
  constructor
  · intro t s₁ h
    obtain ⟨D, hc, -⟩ := h.consistent hd hready
    exact ⟨hc.noCapture, hc.noCapture_generalize t⟩
  · rintro s₂ ⟨id, t, σ, s₁, hrun, hgen⟩
    obtain ⟨D, hc, -⟩ := (Generalizes.define hrun).consistent hd hready
    rw [← Infer.after_ok hgen]
    exact hc.noCapture_generalize t

/-- `λ y, x` and `λ z, x z`. -/
def sharedProgram : Program where
  table := ⟨#[.ident ⟨8⟩, .lambda ⟨5⟩ ⟨0⟩, .ident ⟨6⟩, .apply ⟨0⟩ ⟨2⟩, .lambda ⟨6⟩ ⟨3⟩], #[]⟩
  declarations := ∅

/-- Once the first function is defined as `f`, the second decides what stands for the free variable
of the scheme of `f`. -/
theorem solution_never_captures_shared :
    (Env.unknown ⟨8⟩ ⟨0⟩).Unmixed ∧ sharedProgram.ClosedDeclarations ∧ ∃ s t s₁,
      sharedProgram.Session (.unknown ⟨8⟩ ⟨0⟩) s ∧ sharedProgram.Generalizes s t s₁ ∧
      s₁.env[(⟨7⟩ : Name)]? = some ⟨[⟨1⟩], .fn (.var ⟨1⟩) (.var ⟨0⟩)⟩ ∧
      ((Infer.generalize t).after s₁).solution.apply (.var ⟨0⟩) = .fn (.var ⟨2⟩) (.var ⟨3⟩) ∧
      ((Infer.generalize t).after s₁).NoCapture := by
  have henv := Env.unmixed_unknown ⟨8⟩ ⟨0⟩
  have hd : sharedProgram.ClosedDeclarations := Declarations.closed_empty
  have hrun : EStateM.run' (do
      let _ ← sharedProgram.define ⟨7⟩ ⟨1⟩
      modify State.beginRun
      let t ← sharedProgram.inferExpr ⟨4⟩
      let s ← get
      let _ ← Infer.generalize t
      let s' ← get
      return (s.env[(⟨7⟩ : Name)]?, s'.solution.apply (.var ⟨0⟩)) : Infer (Option Scheme × Ty))
      (sharedProgram.start (.unknown ⟨8⟩ ⟨0⟩)) =
      some (some ⟨[⟨1⟩], .fn (.var ⟨1⟩) (.var ⟨0⟩)⟩, .fn (.var ⟨2⟩) (.var ⟨3⟩)) := by
    rw [define_eq_of_nested (n := 2) (by decide) (by decide),
      inferExpr_eq_of_nested (n := 3) (by decide) (by decide)]
    cbv
  obtain ⟨s', hok⟩ := Infer.run'_eq_some.1 hrun
  obtain ⟨_, s, hdef, hok⟩ := Infer.bind_ok.1 hok
  obtain ⟨_, s₀, hbegin, hok⟩ := Infer.bind_ok.1 hok
  obtain ⟨-, rfl⟩ := EStateM.Result.ok.inj hbegin
  obtain ⟨t, s₁, hinfer, hok⟩ := Infer.bind_ok.1 hok
  obtain ⟨_, _, hget, hok⟩ := Infer.bind_ok.1 hok
  obtain ⟨rfl, rfl⟩ := Infer.get_ok.1 hget
  obtain ⟨σ, s₂, hgen, hok⟩ := Infer.bind_ok.1 hok
  obtain ⟨_, _, hget, hok⟩ := Infer.bind_ok.1 hok
  obtain ⟨rfl, rfl⟩ := Infer.get_ok.1 hget
  obtain ⟨hres, rfl⟩ := Infer.pure_ok.1 hok
  obtain ⟨hf, hx⟩ := Prod.mk.inj hres
  have hs : sharedProgram.Session (.unknown ⟨8⟩ ⟨0⟩) s :=
    Infer.after_ok hdef ▸ Session.start.define ⟨7⟩ ⟨1⟩
  have hcall : sharedProgram.Generalizes s t s₁ := .define hinfer
  refine ⟨henv, hd, s, t, s₁, hs, hcall, hf, ?_,
    ((solution_never_captures henv hd hs).1 t s₁ hcall).2⟩
  rw [Infer.after_ok hgen]
  exact hx

end Program
end TypeInference

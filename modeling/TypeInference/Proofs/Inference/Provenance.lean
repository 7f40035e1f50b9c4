import TypeInference.Proofs.Inference.Outcomes

/-! Where variables come from, over the whole life of a checker. Between calls the supply is above
all variables that the environment and the declarations leave open, unless it is used up. It never
goes back. After every call, however it ended, all variables of the run were free in the environment
at its start, are free in the declarations, or were handed out during the run. -/
namespace TypeInference

open Unification (vars)

namespace State

/-- After a run from `b`: the equations, the solution and the listed variables of the answer are
made of variables from the environment at the start, from the declarations, and from the supply
meanwhile. -/
structure Accounted (d : Declarations) (b s : State) (vs : List TyVar) : Prop where
  equations : ∀ v ∈ vars s.equations, Source d b s.next v
  solution : s.solution.MadeOf (Source d b s.next)
  answer : ∀ v ∈ vs, Source d b s.next v

variable {d : Declarations} {b s : State} {vs : List TyVar}

theorem Running.accounted (h : Running d b s) (hvs : ∀ v ∈ vs, Source d b s.next v) :
    Accounted d b s vs := ⟨h.within.equations, h.madeOf, hvs⟩

theorem Broken.accounted {f : Failure} (h : Broken d b f s) : Accounted d b s f.vars :=
  ⟨h.equations, h.solution, h.failure⟩

theorem Accounted.withEnv (h : Accounted d b s vs) (env : Env) :
    Accounted d b { s with env := env } vs :=
  ⟨h.equations, h.solution, h.answer⟩

end State

namespace Program

open State Infer

variable {p : Program} {env : Env} {s s' : State}

inductive Serves (p : Program) : State → State → Prop where
  | infer {s : State} (id : ExprId) : Serves p s ((p.infer id).after s)
  | define {s : State} (x : Name) (id : ExprId) : Serves p s ((p.define x id).after s)

theorem Serves.session (h : p.Serves s s') (hs : p.Session env s) : p.Session env s' := by
  cases h with
  | infer id => exact hs.infer id
  | define x id => exact hs.define x id

theorem Serves.next_le (h : p.Serves s s') : s.next ≤ s'.next := by
  cases h with
  | infer id => exact (p.infer_scoped id s).next_le
  | define x id =>
    rcases p.define_after x id s with hk | ⟨σ, s₁, hok⟩
    · exact hk.next_le
    · rw [after_ok hok]
      obtain ⟨t, s₁, s₂, hrun, hgen, rfl⟩ := define_ok.1 hok
      have hkeeps := ((p.inferExpr_scoped id).ok hrun).trans ((scoped_generalize t).ok hgen)
      exact hkeeps.next_le

theorem Session.supplied (h : p.Session env s) : s.Supplied p.declarations :=
  h.invariant (p.start_supplied env) Supplied.keeps fun _ _ _ _ _ => define_supplied

theorem Session.history (hs : p.Session env s) (h : Relation.ReflTransGen p.Serves s s') :
    s.next ≤ s'.next ∧ p.Session env s' := by
  induction h with
  | refl => exact ⟨Nat.le_refl _, hs⟩
  | tail _ hcall ih => exact ⟨Nat.le_trans ih.1 hcall.next_le, hcall.session ih.2⟩

theorem infer_accounted (p : Program) (id : ExprId) (b : State) :
    Ends (p.infer id) b (fun t s' => Accounted p.declarations b s' t.occurrences)
      (fun f s' => Accounted p.declarations b s' f.vars) where
  ok t s' hok := by
    obtain ⟨u, s₁, hrun, hres⟩ := infer_ok hok
    obtain ⟨hs₁, hu⟩ := running_inferExpr hrun
    obtain ⟨hsolve, rfl⟩ := resolve_ok.1 hres
    obtain ⟨hs', ht⟩ := hs₁.solved hsolve hu
    exact hs'.accounted ht
  error f s' herr := (p.infer_breaks id b f s' herr).accounted

theorem define_accounted (p : Program) (x : Name) (id : ExprId) (b : State) :
    Ends (p.define x id) b
      (fun σ s' => Accounted p.declarations b s' (σ.vars ++ σ.ty.occurrences))
      (fun f s' => Accounted p.declarations b s' f.vars) where
  ok σ s' hok := by
    obtain ⟨t, s₁, s₂, hrun, hgen, rfl⟩ := define_ok.1 hok
    obtain ⟨hs₁, ht⟩ := running_inferExpr hrun
    obtain ⟨hsolve, rfl⟩ := generalize_ok.1 hgen
    obtain ⟨hs₂, happly⟩ := hs₁.solved hsolve ht
    refine (hs₂.accounted (List.forall_mem_append.2 ⟨fun v hv => ?_, happly⟩)).withEnv _
    exact happly v (Env.mem_vars_generalize.1 hv).1
  error f s' herr := (p.define_breaks x id b f s' herr).accounted

/-- Whatever calls a checker has served and however they ended: its supply is above all variables
that the environment or the declarations leave open, unless it is used up; no later call takes it
back, and if it is used up no later call hands anything out; and the variables of the next call, in
its equations, its solution and its answer or error, all have a source. -/
theorem session_variables_accounted (hs : p.Session env s) :
    (∀ v, v ∈ s.env.freeVars ∨ v ∈ p.declarations.freeVars → v.id < s.next ∨ s.next = TyVar.maxId) ∧
    (∀ s', Relation.ReflTransGen p.Serves s s' →
      s.next ≤ s'.next ∧ (s.next = TyVar.maxId → ∀ v, ¬Issued s.next s'.next v)) ∧
    (∀ id, Ends (p.infer id) s (fun t s' => Accounted p.declarations s s' t.occurrences)
      (fun f s' => Accounted p.declarations s s' f.vars)) ∧
    ∀ x id, Ends (p.define x id) s
      (fun σ s' => Accounted p.declarations s s' (σ.vars ++ σ.ty.occurrences))
      (fun f s' => Accounted p.declarations s s' f.vars) := by
  refine ⟨fun v hv => ?_, fun s' h => ?_, fun id => p.infer_accounted id s,
    fun x id => p.define_accounted x id s⟩
  · rcases Nat.lt_or_eq_of_le hs.supplied.next_le with hroom | hfull
    · exact .inl (hs.supplied.taken v hv hroom)
    · exact .inr hfull
  · obtain ⟨hle, hs'⟩ := hs.history h
    refine ⟨hle, fun hfull v hv => ?_⟩
    have hmax := hs'.supplied.next_le
    exact absurd hv.2 (by have := hv.1; omega)

/-- `λ y, x 1.m` and `x x`, where the type of the member is not known. -/
def appliedProgram : Program where
  table := ⟨#[.ident ⟨5⟩, .int 1, .member ⟨1⟩ ⟨6⟩, .apply ⟨0⟩ ⟨2⟩, .lambda ⟨7⟩ ⟨3⟩, .apply ⟨0⟩ ⟨0⟩],
    #[]⟩
  declarations := Declarations.declare ∅ .int ⟨6⟩ (.mono (.var ⟨0⟩))

/-- The first function is defined, and its run decides that `x` is a function from the type of the
member. Then `x x` fails with an error about variables of the declarations and of the first run. -/
theorem session_variables_accounted_applied :
    ∃ s s', appliedProgram.Session (.unknown ⟨5⟩ ⟨1⟩) s ∧ s.next = 5 ∧
      s.env[(⟨5⟩ : Name)]? = some (.mono (.fn (.var ⟨0⟩) (.var ⟨4⟩))) ∧
      appliedProgram.infer ⟨5⟩ s =
        .error (.type (.conflict (.infinite ⟨0⟩ (.fn (.var ⟨0⟩) (.var ⟨4⟩))))) s' ∧
      (∀ v, v ∈ s.env.freeVars ∨ v ∈ appliedProgram.declarations.freeVars →
        v.id < s.next ∨ s.next = TyVar.maxId) ∧
      s.next ≤ s'.next ∧ Accounted appliedProgram.declarations s s' [⟨0⟩, ⟨0⟩, ⟨4⟩] := by
  have hs : appliedProgram.Session (.unknown ⟨5⟩ ⟨1⟩)
      ((appliedProgram.define ⟨8⟩ ⟨4⟩).after (appliedProgram.start (.unknown ⟨5⟩ ⟨1⟩))) :=
    .define .start ⟨8⟩ ⟨4⟩
  have hstate : ((appliedProgram.define ⟨8⟩ ⟨4⟩).after
      (appliedProgram.start (.unknown ⟨5⟩ ⟨1⟩))).next = 5 ∧
      ((appliedProgram.define ⟨8⟩ ⟨4⟩).after
        (appliedProgram.start (.unknown ⟨5⟩ ⟨1⟩))).env[(⟨5⟩ : Name)]? =
        some (.mono (.fn (.var ⟨0⟩) (.var ⟨4⟩))) := by
    rw [define_eq_of_nested (n := 4) (by decide) (by decide)]
    constructor
    · cbv
    · cbv
  have hrun : (appliedProgram.infer ⟨5⟩).failure?
      ((appliedProgram.define ⟨8⟩ ⟨4⟩).after (appliedProgram.start (.unknown ⟨5⟩ ⟨1⟩))) =
      some (.type (.conflict (.infinite ⟨0⟩ (.fn (.var ⟨0⟩) (.var ⟨4⟩))))) := by
    rw [define_eq_of_nested (n := 4) (by decide) (by decide),
      infer_eq_of_nested (n := 2) (by decide) (by decide)]
    cbv
  obtain ⟨s', hfail⟩ := failure?_eq_some.1 hrun
  obtain ⟨hfresh, hlater, hinfer, -⟩ := session_variables_accounted hs
  refine ⟨_, s', hs, hstate.1, hstate.2, hfail, hfresh, ?_, (hinfer ⟨5⟩).error _ s' hfail⟩
  have hcall := Serves.infer (p := appliedProgram)
    (s := (appliedProgram.define ⟨8⟩ ⟨4⟩).after (appliedProgram.start (.unknown ⟨5⟩ ⟨1⟩))) ⟨5⟩
  rw [after_error hfail] at hcall
  exact (hlater s' (.single hcall)).1

end Program
end TypeInference

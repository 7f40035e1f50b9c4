import TypeInference.Proofs.Inference.Ownership

/-! Both ends of a run. A run that goes on has solved a first part of its equations, and all its
variables are from the environment at its start, from the declarations, or were handed out
meanwhile. A run that breaks off keeps the equations recorded so far, and if it breaks off at a
conflict, this is the conflict that solving all of them at once meets. Nothing is assumed of the
state at the start. -/
namespace TypeInference

open Unification (vars)

def Conflict.vars : Conflict → List TyVar
  | .infinite v t => v :: t.occurrences
  | .mismatch l r => l.occurrences ++ r.occurrences

def TypeError.vars : TypeError → List TyVar
  | .conflict c => c.vars
  | .unsupportedReceiver t _ => t.occurrences
  | _ => []

def Failure.vars : Failure → List TyVar
  | .type e => e.vars
  | .fault _ => []

section Conflicts

variable {S T : Substitution} {P : TyVar → Prop} {e : Equation} {es : List Equation} {c : Conflict}

theorem Equation.vars_move_fail (h : e.move = .fail c) : c.vars ⊆ e.vars := by
  rcases move_fail h with ⟨v, t, rfl | rfl, -, -, rfl⟩ | ⟨-, -, -, rfl⟩
  · simp [Conflict.vars, Equation.vars]
  · simp [Conflict.vars, Equation.vars]
  · exact List.Subset.refl _

theorem Unification.eliminate_conflict (hes : ∀ v ∈ vars es, P v)
    (hc : (eliminate S es).conflict = some c) : ∀ v ∈ c.vars, P v := by
  induction S, es using eliminate_induction with
  | nil S => simp at hc
  | bind S e es v t h ih =>
    rw [eliminate_bind h] at hc
    exact ih (forall_vars_bind h hes).2.2 hc
  | split S e es ds h ih =>
    rw [eliminate_split h] at hc
    exact ih (forall_vars_split h hes) hc
  | fail S e es d h =>
    rw [eliminate_fail h] at hc
    obtain rfl := Option.some.inj hc
    exact fun v hv => hes v (List.mem_append_left _ (Equation.vars_move_fail h hv))

namespace Substitution

theorem unify_conflict (h : S.unify e.lhs e.rhs = ⟨T, some c⟩)
    (he : ∀ v ∈ e.vars, ∀ w ∈ (S.image v).occurrences, P w) : ∀ v ∈ c.vars, P v :=
  Unification.eliminate_conflict (forall_vars_apply he) (by rw [← unify, h])

/-- Solving equations between such variables meets no conflict about others. -/
theorem MadeOf.conflict (hS : S.MadeOf P) (hes : ∀ v ∈ Unification.vars es, P v)
    (hc : S.solve es = ⟨T, some c⟩) : ∀ v ∈ c.vars, P v := by
  induction es generalizing S with
  | nil => cases hc
  | cons e es ih =>
    obtain ⟨he, hes⟩ := List.forall_mem_append.1 hes
    rcases hu : S.unify e.lhs e.rhs with ⟨U, _ | d⟩
    · have hU : U.MadeOf P := by
        have hsolve : (S.solve [e]).solution.MadeOf P := hS.solve (by simpa using he)
        rwa [solve_cons_ok hu] at hsolve
      rw [solve_cons_ok hu] at hc
      exact ih hU hes hc
    · rw [solve_cons_conflict hu] at hc
      cases hc
      exact unify_conflict hu fun v hv => hS.image (he v hv)

end Substitution

end Conflicts

namespace Infer

variable {α : Type} {act : Infer α} {s : State}

/-- If the action succeeds, its result and last state are related by `Q`, and if it fails, the
failure and the last state by `E`. -/
structure Ends (act : Infer α) (s : State) (Q : α → State → Prop) (E : Failure → State → Prop) :
    Prop where
  ok : ∀ a s', act s = .ok a s' → Q a s'
  error : ∀ f s', act s = .error f s' → E f s'

def failure? (act : Infer α) (s : State) : Option Failure :=
  match act s with
  | .ok _ _ => none
  | .error f _ => some f

theorem failure?_eq_some {f : Failure} : act.failure? s = some f ↔ ∃ s', act s = .error f s' := by
  rw [failure?]
  cases act s <;> simp

end Infer

namespace State

variable {d : Declarations} {b s : State} {f : Failure}

/-- A run that has started from `b` has broken off. -/
structure Broken (d : Declarations) (b : State) (f : Failure) (s : State) : Prop where
  next_le : b.next ≤ s.next
  equations : ∀ v ∈ vars s.equations, Source d b s.next v
  solution : s.solution.MadeOf (Source d b s.next)
  failure : ∀ v ∈ f.vars, Source d b s.next v
  conflict : ∀ c, f = .type (.conflict c) →
    Substitution.solve ∅ s.equations = ⟨s.solution, some c⟩

namespace Running

theorem madeOf (h : Running d b s) : s.solution.MadeOf (Source d b s.next) :=
  h.regular.madeOf h.within.equations

theorem apply (h : Running d b s) {t : Ty} (ht : ∀ v ∈ t.occurrences, Source d b s.next v) :
    ∀ v ∈ (s.solution.apply t).occurrences, Source d b s.next v := by
  intro v hv
  obtain ⟨u, hu, hv⟩ := Ty.mem_occurrences_subst.1 hv
  exact h.madeOf.image (ht u hu) v hv

theorem solved (h : Running d b s) {s₁ : State} {u : Unit} (hok : Infer.solvePending s = .ok u s₁)
    {t : Ty} (ht : ∀ v ∈ t.occurrences, Source d b s.next v) :
    Running d b s₁ ∧ ∀ v ∈ (s₁.solution.apply t).occurrences, Source d b s₁.next v := by
  obtain ⟨h₁, -⟩ := h.advance (Infer.solvePending_local h.regular hok)
  obtain ⟨S, -, rfl⟩ := Infer.solvePending_ok.1 hok
  exact ⟨h₁, h₁.apply ht⟩

theorem broken (h : Running d b s) (hf : ∀ v ∈ f.vars, Source d b s.next v)
    (hc : ∀ c, f ≠ .type (.conflict c)) : Broken d b f s where
  next_le := h.next_le
  equations := h.within.equations
  solution := h.madeOf
  failure := hf
  conflict c hfc := absurd hfc (hc c)

theorem broken_fault (h : Running d b s) (f : Fault) : Broken d b (.fault f) s :=
  h.broken nofun nofun

end Running

theorem Broken.withEnv (h : Broken d b f s) (env : Env) : Broken d b f { s with env := env } :=
  ⟨h.next_le, h.equations, h.solution, h.failure, h.conflict⟩

end State

namespace Infer

open State

/-- If the action fails in a run that has started from `b`, then the run has broken off. -/
def Breaks (d : Declarations) (b : State) {α : Type} (act : Infer α) (s : State) : Prop :=
  ∀ f s', act s = .error f s' → Broken d b f s'

/-- A successful part of a run is local, so the run goes on, and a part that fails breaks it off. -/
structure Traced (d : Declarations) (act : Infer Ty) : Prop where
  advances : Local d act
  breaks : ∀ b s, Running d b s → Breaks d b act s

variable {α β : Type} {d : Declarations} {b s s' : State} {t : Ty} {σ : Scheme}
  {go : ExprId → Infer Ty}

theorem breaks_of_ok {act : Infer α} {a : α} (hok : act s = .ok a s') : Breaks d b act s := by
  intro f s₁ herr
  rw [hok] at herr
  cases herr

theorem breaks_of_error {act : Infer α} {f : Failure} (herr : act s = .error f s')
    (h : Broken d b f s') : Breaks d b act s := by
  intro g s₁ hg
  rw [herr] at hg
  cases hg
  exact h

theorem Breaks.bind {act : Infer α} {f : α → Infer β} (h : Breaks d b act s)
    (hf : ∀ a s₁, act s = .ok a s₁ → Breaks d b (f a) s₁) : Breaks d b (act >>= f) s := by
  intro e s₂ herr
  rcases bind_error.1 herr with herr | ⟨a, s₁, hok, herr⟩
  · exact h e s₂ herr
  · exact hf a s₁ hok e s₂ herr

theorem Breaks.withBinding {act : Infer α} {x : Name}
    (h : Breaks d b act { s with env := s.env.insert x σ }) :
    Breaks d b (withBinding x σ act) s := by
  cases hact : act { s with env := s.env.insert x σ } with
  | ok a s₁ => exact breaks_of_ok (by rw [Infer.withBinding, hact])
  | error f s₁ =>
    exact breaks_of_error (by rw [Infer.withBinding, hact]) ((h f s₁ hact).withEnv _)

theorem Traced.bind {act : Infer Ty} {f : Ty → Infer β} (h : Traced d act) (hs : Running d b s)
    (hf : ∀ t s₁, Running d b s₁ → (∀ v ∈ t.occurrences, Source d b s₁.next v) →
      Breaks d b (f t) s₁) : Breaks d b (act >>= f) s := by
  refine (h.breaks b s hs).bind fun t s₁ hok => ?_
  obtain ⟨hs₁, ht⟩ := hs.advance (h.advances s s₁ t hs.regular hok)
  exact hf t s₁ hs₁ ht

theorem traced_pure (h : t.occurrences = []) : Traced d (pure t) :=
  ⟨local_pure h, fun _ _ _ => breaks_of_ok rfl⟩

theorem fresh_traced : Traced d fresh := by
  refine ⟨fresh_local, fun b s hs => ?_⟩
  by_cases hroom : s.next < TyVar.maxId
  · exact breaks_of_ok (fresh_ok.2 ⟨hroom, rfl, rfl⟩)
  · exact breaks_of_error (fresh_overflow hroom) (hs.broken_fault _)

theorem instantiate_breaks (hs : Running d b s) : Breaks d b (instantiate σ) s := by
  intro f s' herr
  rw [instantiate] at herr
  split at herr
  · cases herr
  · cases herr
    exact hs.broken_fault _

theorem ident_traced (x : Name) : Traced d (ident x) := by
  refine ⟨ident_local x, fun b s hs => ?_⟩
  cases hx : s.env[x]? with
  | none => exact breaks_of_error (ident_unbound hx) (hs.broken nofun nofun)
  | some σ => exact fun f s' herr => instantiate_breaks hs f s' (ident_bound hx ▸ herr)

/-- The conflict at which solving breaks a run off is the one that all equations have. -/
theorem solvePending_breaks (hs : Running d b s) : Breaks d b solvePending s := by
  intro f s' herr
  obtain ⟨S, c, hS, rfl, rfl⟩ := solvePending_error.1 herr
  have hunsolved : ∀ v ∈ vars s.unsolved, Source d b s.next v := fun v hv =>
    hs.within.equations v (Unification.vars_subset (List.drop_subset _ _) hv)
  have hsol := hs.madeOf.solve hunsolved
  rw [hS] at hsol
  refine ⟨hs.next_le, hs.within.equations, hsol, hs.madeOf.conflict hunsolved hS, ?_⟩
  rintro _ ⟨rfl⟩
  exact hs.regular.solve_unsolved.symm.trans hS

theorem resolve_breaks (hs : Running d b s) (t : Ty) : Breaks d b (resolve t) s :=
  (solvePending_breaks hs).bind fun _ _ _ => breaks_of_ok rfl

theorem generalize_breaks (hs : Running d b s) (t : Ty) : Breaks d b (generalize t) s :=
  (solvePending_breaks hs).bind fun _ _ _ => breaks_of_ok rfl

theorem receiverType_breaks (hs : Running d b s) (t : Ty) : Breaks d b (receiverType t) s := by
  rw [receiverType]
  split
  · exact resolve_breaks hs t
  · exact breaks_of_ok rfl

theorem ofFault_breaks (hs : Running d b s) (r : Except Fault α) : Breaks d b (ofFault r) s := by
  cases r with
  | ok a => exact breaks_of_ok rfl
  | error f => exact breaks_of_error rfl (hs.broken_fault f)

theorem lambda_traced {x : Name} {body : ExprId} (hbody : Traced d (go body)) :
    Traced d (lambda go x body) := by
  refine ⟨lambda_local hbody.advances, fun b s hs => fresh_traced.bind hs fun a s₁ hs₁ ha => ?_⟩
  have hscope := hs₁.insert (σ := .mono a) x fun v hv => ha v (by simpa using hv)
  exact (hbody.breaks b _ hscope).withBinding.bind fun _ _ _ => breaks_of_ok rfl

theorem letIn_traced {x : Name} {value body : ExprId} (hvalue : Traced d (go value))
    (hbody : Traced d (go body)) : Traced d (letIn go x value body) := by
  refine ⟨letIn_local hvalue.advances hbody.advances, fun b s hs => ?_⟩
  refine hvalue.bind hs fun a s₁ hs₁ _ => (generalize_breaks hs₁ a).bind fun σ s₂ hok => ?_
  obtain ⟨hs₂, hσ⟩ := hs₁.advance (generalize_local hs₁.regular hok)
  exact (hbody.breaks b _ (hs₂.insert x hσ)).withBinding

theorem apply_traced {func arg : ExprId} (hfunc : Traced d (go func)) (harg : Traced d (go arg)) :
    Traced d (apply go func arg) := by
  refine ⟨apply_local hfunc.advances harg.advances, fun b s hs => ?_⟩
  refine hfunc.bind hs fun f s₁ hs₁ _ => harg.bind hs₁ fun a s₂ hs₂ _ => ?_
  exact fresh_traced.bind hs₂ fun _ _ _ _ => breaks_of_ok rfl

theorem ternary_traced {cond thenBranch elseBranch : ExprId} (hcond : Traced d (go cond))
    (hthen : Traced d (go thenBranch)) (helse : Traced d (go elseBranch)) :
    Traced d (ternary go cond thenBranch elseBranch) := by
  refine ⟨ternary_local hcond.advances hthen.advances helse.advances, fun b s hs => ?_⟩
  refine hthen.bind hs fun t s₁ hs₁ _ => hcond.bind hs₁ fun c s₂ hs₂ _ => ?_
  exact helse.bind hs₂ fun _ _ _ _ => breaks_of_ok rfl

theorem elements_breaks (hgo : ∀ id, Traced d (go id)) (ids : List ExprId) (hs : Running d b s) :
    Breaks d b (elements go ids) s := by
  induction ids generalizing s with
  | nil => exact breaks_of_ok rfl
  | cons id ids ih =>
    exact (hgo id).bind hs fun t s₁ hs₁ _ => (ih hs₁).bind fun _ _ _ => breaks_of_ok rfl

theorem tuple_traced {table : ExprTable} {r : ExprRange} (hgo : ∀ id, Traced d (go id)) :
    Traced d (tuple go table r) := by
  refine ⟨tuple_local fun id => (hgo id).advances, fun b s hs => ?_⟩
  refine (ofFault_breaks hs _).bind fun ids s₁ hok => ?_
  obtain ⟨-, rfl⟩ := ofFault_ok.1 hok
  exact (elements_breaks hgo ids hs).bind fun _ _ _ => breaks_of_ok rfl

theorem receiverName_breaks {m : Name} (hs : Running d b s)
    (ht : ∀ v ∈ t.occurrences, Source d b s.next v) : Breaks d b (receiverName m t) s := by
  cases t with
  | fn p r => exact breaks_of_error rfl (hs.broken nofun nofun)
  | tuple ts => exact breaks_of_error rfl (hs.broken ht nofun)
  | var v => exact breaks_of_error rfl (hs.broken nofun nofun)
  | _ => exact breaks_of_ok rfl

theorem useMember_breaks (hs : Running d b s) (m n : Name) : Breaks d b (useMember d m n) s := by
  rw [useMember]
  cases hσ : d.member? n m with
  | none => exact breaks_of_error rfl (hs.broken nofun nofun)
  | some σ =>
    refine (instantiate_breaks hs).bind fun i s₁ hok => ?_
    have hfree : ∀ v ∈ σ.freeVars, v ∈ s.env.freeVars ∨ v ∈ d.freeVars := fun v hv =>
      .inr (Declarations.mem_freeVars hσ hv)
    obtain ⟨hs₁, -⟩ := hs.advance (instantiate_local hs.regular hfree hok)
    exact fresh_traced.bind hs₁ fun _ _ _ _ => breaks_of_ok rfl

theorem member_traced {receiver : ExprId} {m : Name} (hreceiver : Traced d (go receiver)) :
    Traced d (member go d receiver m) := by
  refine ⟨member_local hreceiver.advances, fun b s hs => hreceiver.bind hs fun t s₁ hs₁ ht => ?_⟩
  have hname : ∀ r s₂, Running d b s₂ → (∀ v ∈ r.occurrences, Source d b s₂.next v) →
      Breaks d b (do let n ← receiverName m r; useMember d m n) s₂ := by
    intro r s₂ hs₂ hr
    refine (receiverName_breaks hs₂ hr).bind fun n s₃ hok => ?_
    obtain ⟨-, rfl⟩ := receiverName_ok.1 hok
    exact useMember_breaks hs₂ m n
  refine (receiverType_breaks hs₁ t).bind fun r s₂ hok => ?_
  rcases receiverType_ok hok with hok | ⟨rfl, rfl⟩
  · obtain ⟨hsolve, rfl⟩ := resolve_ok.1 hok
    obtain ⟨hs₂, hr⟩ := hs₁.solved hsolve ht
    exact hname _ s₂ hs₂ hr
  · exact hname r s₂ hs₁ ht

theorem node_traced {p : Program} (hgo : ∀ id, Traced p.declarations (go id)) (e : Expr) :
    Traced p.declarations (node go p e) := by
  cases e with
  | bool b => exact traced_pure (t := .bool) (by simp)
  | int i => exact traced_pure (t := .int) (by simp)
  | float bits => exact traced_pure (t := .float) (by simp)
  | str n => exact traced_pure (t := .str) (by simp)
  | ident x => exact ident_traced x
  | lambda x body => exact lambda_traced (hgo body)
  | apply func arg => exact apply_traced (hgo func) (hgo arg)
  | letIn x value body => exact letIn_traced (hgo value) (hgo body)
  | ternary c t e => exact ternary_traced (hgo c) (hgo t) (hgo e)
  | member receiver m => exact member_traced (hgo receiver)
  | tuple r => exact tuple_traced hgo

end Infer

namespace Program

open State Infer

variable {p : Program} {id : ExprId} {b s₁ : State} {t : Ty}

theorem inferWithin_traced (p : Program) (n : Nat) (id : ExprId) :
    Traced p.declarations (p.inferWithin n id) := by
  induction n generalizing id with
  | zero =>
    refine ⟨p.inferWithin_local 0 id, fun b s hs => ?_⟩
    exact breaks_of_error rfl (hs.broken_fault .tooDeep)
  | succ n ih =>
    refine ⟨p.inferWithin_local (n + 1) id, fun b s hs => ?_⟩
    refine (ofFault_breaks hs _).bind fun e s₁ hok => ?_
    obtain ⟨-, rfl⟩ := ofFault_ok.1 hok
    exact (node_traced ih e).breaks b s hs

theorem running_inferExpr (hok : p.inferExpr id b.beginRun = .ok t s₁) :
    Running p.declarations b s₁ ∧ ∀ v ∈ t.occurrences, Source p.declarations b s₁.next v :=
  (running_beginRun p.declarations b).advance
    (p.inferWithin_local p.depth id _ s₁ t b.beginRun_regular hok)

/-- What follows on inference breaks the run off where it fails, if it does so by itself. -/
theorem run_breaks {β : Type} (p : Program) (id : ExprId) (b : State) {f : Ty → Infer β}
    (hf : ∀ t s₁, Running p.declarations b s₁ → Breaks p.declarations b (f t) s₁) :
    Breaks p.declarations b (do modify State.beginRun; let t ← p.inferExpr id; f t) b := by
  have hrun := (p.inferWithin_traced p.depth id).bind (f := f) (running_beginRun p.declarations b)
    fun t s₁ hs₁ _ => hf t s₁ hs₁
  exact fun e s' herr => hrun e s' herr

theorem infer_breaks (p : Program) (id : ExprId) (b : State) :
    Breaks p.declarations b (p.infer id) b :=
  p.run_breaks id b fun t _ hs₁ => resolve_breaks hs₁ t

theorem define_breaks (p : Program) (x : Name) (id : ExprId) (b : State) :
    Breaks p.declarations b (p.define x id) b :=
  p.run_breaks id b fun t _ hs₁ => (generalize_breaks hs₁ t).bind fun _ _ _ => breaks_of_ok rfl

end Program
end TypeInference

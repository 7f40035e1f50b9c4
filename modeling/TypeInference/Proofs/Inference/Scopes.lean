import TypeInference.Proofs.Inference.Growth
import TypeInference.Proofs.Inference.Levels

/-! What is left of a run that may have failed. However inference ends, every scope that it has
opened is closed again, so the environment is the old one, and the supply of variables has not gone
back. A definition that fails leaves the environment as it was, too. -/
namespace TypeInference

structure State.Keeps (s s' : State) : Prop where
  env_eq : s'.env = s.env
  next_le : s.next ≤ s'.next
  next_max : s.next ≤ TyVar.maxId → s'.next ≤ TyVar.maxId

namespace State.Keeps

variable {s₁ s₂ s₃ : State}

theorem refl (s : State) : s.Keeps s := ⟨rfl, Nat.le_refl _, id⟩

theorem trans (h₁ : s₁.Keeps s₂) (h₂ : s₂.Keeps s₃) : s₁.Keeps s₃ where
  env_eq := h₂.env_eq.trans h₁.env_eq
  next_le := Nat.le_trans h₁.next_le h₂.next_le
  next_max h := h₂.next_max (h₁.next_max h)

theorem beginRun_eq (h : s₁.Keeps s₂) : s₂.beginRun = { s₁.beginRun with next := s₂.next } := by
  simp only [State.beginRun, State.clear, Context.clear, h.env_eq]

end State.Keeps

namespace Infer

variable {α β : Type}

/-- The state in which an action ends, whether it succeeds or fails. -/
def after (act : Infer α) (s : State) : State :=
  match act s with
  | .ok _ s' => s'
  | .error _ s' => s'

/-- Whatever the action binds is bound for its own length only. -/
def Scoped (act : Infer α) : Prop := ∀ s : State, s.Keeps (act.after s)

theorem after_ok {act : Infer α} {a : α} {s s' : State} (h : act s = .ok a s') :
    act.after s = s' := by
  rw [after, h]

theorem after_error {act : Infer α} {e : Failure} {s s' : State} (h : act s = .error e s') :
    act.after s = s' := by
  rw [after, h]

theorem bind_error {act : Infer α} {f : α → Infer β} {e : Failure} {s s' : State} :
    (act >>= f) s = .error e s' ↔
      act s = .error e s' ∨ ∃ a s₁, act s = .ok a s₁ ∧ f a s₁ = .error e s' := by
  change EStateM.bind act f s = .error e s' ↔ _
  rw [EStateM.bind]
  cases act s <;> simp

theorem run'_eq_some {act : Infer α} {a : α} {s : State} :
    act.run' s = some a ↔ ∃ s', act s = .ok a s' := by
  rw [EStateM.run', EStateM.run]
  cases act s <;> simp

theorem Scoped.ok {act : Infer α} (h : Scoped act) {a : α} {s s' : State} (hok : act s = .ok a s') :
    s.Keeps s' := after_ok hok ▸ h s

theorem Scoped.bind {act : Infer α} {f : α → Infer β} (h : Scoped act) (hf : ∀ a, Scoped (f a)) :
    Scoped (act >>= f) := by
  intro s
  have hs := h s
  cases hact : act s with
  | error e s₁ =>
    rw [after_error hact] at hs
    rwa [after_error (bind_error.2 (.inl hact))]
  | ok a s₁ =>
    rw [after_ok hact] at hs
    have hfa := hf a s₁
    cases hrun : f a s₁ with
    | ok b s₂ =>
      rw [after_ok hrun] at hfa
      rw [after_ok (bind_ok.2 ⟨a, s₁, hact, hrun⟩)]
      exact hs.trans hfa
    | error e s₂ =>
      rw [after_error hrun] at hfa
      rw [after_error (bind_error.2 (.inr ⟨a, s₁, hact, hrun⟩))]
      exact hs.trans hfa

theorem scoped_pure (a : α) : Scoped (pure a) := fun s => .refl s

theorem scoped_throw (e : Failure) : Scoped (throw e : Infer α) := fun s => .refl s

theorem scoped_fail (e : TypeError) : Scoped (fail e : Infer α) := scoped_throw _

theorem scoped_ofFault (r : Except Fault α) : Scoped (ofFault r) := by
  cases r with
  | ok a => exact scoped_pure a
  | error f => exact scoped_throw _

theorem scoped_get : Scoped (get : Infer State) := fun s => .refl s

theorem scoped_constrain (l r : Ty) : Scoped (constrain l r) := fun _ => ⟨rfl, Nat.le_refl _, id⟩

theorem scoped_fresh : Scoped fresh := by
  intro s
  by_cases h : s.next < TyVar.maxId
  · rw [after_ok (fresh_ok.2 ⟨h, rfl, rfl⟩)]
    exact ⟨rfl, Nat.le_succ _, fun _ => h⟩
  · rw [after_error (fresh_overflow h)]
    exact .refl s

theorem scoped_instantiate (σ : Scheme) : Scoped (instantiate σ) := by
  intro s
  cases hrun : instantiate σ s with
  | ok t s' =>
    rw [after_ok hrun]
    obtain ⟨f, m, rfl, -, hm, -⟩ := instantiate_ok hrun
    have hle : s.next ≤ m := by omega
    exact ⟨rfl, hle, fun h => by rcases hm with rfl | hm; exacts [h, hm.2]⟩
  | error e s' =>
    rw [after_error hrun]
    rw [instantiate] at hrun
    split at hrun
    · cases hrun
    · cases hrun
      exact .refl s

/-- The bindings made before a conflict stay. -/
theorem after_solvePending (s : State) : ∃ n, solvePending.after s =
    { s with solution := (s.solution.solve s.unsolved).solution, solved := n } := by
  rcases hS : s.solution.solve s.unsolved with ⟨S, _ | c⟩
  · exact ⟨_, after_ok (a := ()) (solvePending_ok.2 ⟨S, hS, rfl⟩)⟩
  · exact ⟨_, after_error (solvePending_error.2 ⟨S, c, hS, rfl, rfl⟩)⟩

theorem scoped_solvePending : Scoped solvePending := by
  intro s
  obtain ⟨n, hs⟩ := after_solvePending s
  rw [hs]
  exact ⟨rfl, Nat.le_refl _, id⟩

theorem scoped_resolve (t : Ty) : Scoped (resolve t) :=
  scoped_solvePending.bind fun _ => scoped_get.bind fun _ => scoped_pure _

theorem after_generalize (t : Ty) (s : State) : (generalize t).after s = solvePending.after s := by
  cases h : solvePending s with
  | ok u s₁ => rw [after_ok h, after_ok (generalize_ok.2 ⟨h, rfl⟩)]
  | error e s₁ =>
    have hgen : generalize t s = .error e s₁ := bind_error.2 (.inl h)
    rw [after_error h, after_error hgen]

theorem scoped_generalize (t : Ty) : Scoped (generalize t) :=
  scoped_solvePending.bind fun _ => scoped_get.bind fun _ => scoped_pure _

theorem scoped_ident (x : Name) : Scoped (ident x) := by
  refine scoped_get.bind fun s => ?_
  split
  · exact scoped_instantiate _
  · exact scoped_fail _

theorem scoped_withBinding {x : Name} {σ : Scheme} {act : Infer α} (h : Scoped act) :
    Scoped (withBinding x σ act) := by
  intro s
  have hrun : (withBinding x σ act).after s =
      { act.after { s with env := s.env.insert x σ } with
        env := (act.after { s with env := s.env.insert x σ }).env.restore x s.env[x]? } := by
    rw [after, withBinding, after]
    cases act { s with env := s.env.insert x σ } <;> rfl
  obtain ⟨henv, hle, hmax⟩ := h { s with env := s.env.insert x σ }
  rw [hrun, henv]
  exact ⟨Env.restore_insert s.env x σ, hle, hmax⟩

section Rules

variable {go : ExprId → Infer Ty} (hgo : ∀ id, Scoped (go id))
include hgo

theorem scoped_lambda (x : Name) (body : ExprId) : Scoped (lambda go x body) :=
  scoped_fresh.bind fun _ => (scoped_withBinding (hgo body)).bind fun _ => scoped_pure _

theorem scoped_letIn (x : Name) (value body : ExprId) : Scoped (letIn go x value body) :=
  (hgo value).bind fun a => (scoped_generalize a).bind fun _ => scoped_withBinding (hgo body)

theorem scoped_apply (func arg : ExprId) : Scoped (apply go func arg) :=
  (hgo func).bind fun _ => (hgo arg).bind fun _ => scoped_fresh.bind fun _ =>
    (scoped_constrain _ _).bind fun _ => scoped_pure _

theorem scoped_ternary (cond thenBranch elseBranch : ExprId) :
    Scoped (ternary go cond thenBranch elseBranch) :=
  (hgo thenBranch).bind fun _ => (hgo cond).bind fun _ => (hgo elseBranch).bind fun _ =>
    (scoped_constrain _ _).bind fun _ => (scoped_constrain _ _).bind fun _ => scoped_pure _

theorem scoped_elements (ids : List ExprId) : Scoped (elements go ids) := by
  induction ids with
  | nil => exact scoped_pure []
  | cons id ids ih => exact (hgo id).bind fun _ => ih.bind fun _ => scoped_pure _

theorem scoped_tuple (table : ExprTable) (r : ExprRange) : Scoped (tuple go table r) :=
  (scoped_ofFault _).bind fun ids => (scoped_elements hgo ids).bind fun _ => scoped_pure _

omit hgo in
theorem scoped_receiverName (m : Name) (t : Ty) : Scoped (receiverName m t) := by
  cases t with
  | fn p r => exact scoped_fail _
  | tuple ts => exact scoped_fail _
  | var v => exact scoped_fail _
  | _ => exact scoped_pure _

omit hgo in
theorem scoped_receiverType (t : Ty) : Scoped (receiverType t) := by
  rw [receiverType]
  split
  exacts [scoped_resolve t, scoped_pure t]

omit hgo in
theorem scoped_useMember (d : Declarations) (m n : Name) : Scoped (useMember d m n) := by
  rw [useMember]
  cases d.member? n m with
  | none => exact scoped_fail _
  | some σ =>
    exact (scoped_instantiate σ).bind fun _ => scoped_fresh.bind fun _ =>
      (scoped_constrain _ _).bind fun _ => scoped_pure _

theorem scoped_member (d : Declarations) (receiver : ExprId) (m : Name) :
    Scoped (member go d receiver m) :=
  (hgo receiver).bind fun t => (scoped_receiverType t).bind fun r =>
    (scoped_receiverName m r).bind fun n => scoped_useMember d m n

theorem scoped_node (p : Program) (e : Expr) : Scoped (node go p e) := by
  cases e with
  | ident x => exact scoped_ident x
  | lambda x body => exact scoped_lambda hgo x body
  | apply func arg => exact scoped_apply hgo func arg
  | letIn x value body => exact scoped_letIn hgo x value body
  | ternary c t e => exact scoped_ternary hgo c t e
  | member receiver m => exact scoped_member hgo p.declarations receiver m
  | tuple r => exact scoped_tuple hgo p.table r
  | _ => exact scoped_pure _

end Rules

end Infer

namespace Program

variable {p : Program} {s : State}

theorem inferWithin_scoped (p : Program) (n : Nat) (id : ExprId) :
    Infer.Scoped (p.inferWithin n id) := by
  induction n generalizing id with
  | zero => exact Infer.scoped_throw _
  | succ n ih => exact (Infer.scoped_ofFault _).bind fun e => Infer.scoped_node ih p e

theorem inferExpr_scoped (p : Program) (id : ExprId) : Infer.Scoped (p.inferExpr id) :=
  p.inferWithin_scoped p.depth id

theorem infer_scoped (p : Program) (id : ExprId) : Infer.Scoped (p.infer id) := by
  have hrun : Infer.Scoped (p.inferExpr id >>= Infer.resolve) :=
    (p.inferExpr_scoped id).bind Infer.scoped_resolve
  intro s
  have hbegin : s.Keeps s.beginRun := ⟨rfl, Nat.le_refl _, fun h => h⟩
  exact hbegin.trans (hrun s.beginRun)

theorem define_ok {x : Name} {id : ExprId} {σ : Scheme} {s' : State} :
    p.define x id s = .ok σ s' ↔ ∃ t s₁ s₂, p.inferExpr id s.beginRun = .ok t s₁ ∧
      Infer.generalize t s₁ = .ok σ s₂ ∧
      s' = { s₂.commit with env := s₂.commit.env.insert x σ } := by
  constructor
  · intro h
    obtain ⟨_, s₀, hbegin, h⟩ := Infer.bind_ok.1 h
    obtain ⟨-, rfl⟩ := EStateM.Result.ok.inj hbegin
    obtain ⟨t, s₁, h₁, h⟩ := Infer.bind_ok.1 h
    obtain ⟨τ, s₂, h₂, h⟩ := Infer.bind_ok.1 h
    obtain ⟨rfl, rfl⟩ := EStateM.Result.ok.inj h
    exact ⟨t, s₁, s₂, h₁, h₂, rfl⟩
  · rintro ⟨t, s₁, s₂, h₁, h₂, rfl⟩
    exact Infer.bind_ok.2 ⟨(), s.beginRun, rfl,
      Infer.bind_ok.2 ⟨t, s₁, h₁, Infer.bind_ok.2 ⟨σ, s₂, h₂, rfl⟩⟩⟩

theorem define_after (p : Program) (x : Name) (id : ExprId) (s : State) :
    s.Keeps ((p.define x id).after s) ∨ ∃ σ s', p.define x id s = .ok σ s' := by
  have hrun : Infer.Scoped (p.inferExpr id >>= Infer.generalize) :=
    (p.inferExpr_scoped id).bind Infer.scoped_generalize
  have hbegin : s.Keeps s.beginRun := ⟨rfl, Nat.le_refl _, fun h => h⟩
  have hkeeps := hbegin.trans (hrun s.beginRun)
  cases hres : (p.inferExpr id >>= Infer.generalize) s.beginRun with
  | ok σ s₂ =>
    obtain ⟨t, s₁, h₁, h₂⟩ := Infer.bind_ok.1 hres
    exact .inr ⟨σ, _, define_ok.2 ⟨t, s₁, s₂, h₁, h₂, rfl⟩⟩
  | error e s₂ =>
    have hdef : p.define x id s = .error e s₂ := by
      refine Infer.bind_error.2 (.inr ⟨(), s.beginRun, rfl, ?_⟩)
      rcases Infer.bind_error.1 hres with hrun | ⟨t, s₁, h₁, hgen⟩
      · exact Infer.bind_error.2 (.inl hrun)
      · exact Infer.bind_error.2 (.inr ⟨t, s₁, h₁, Infer.bind_error.2 (.inl hgen)⟩)
    rw [Infer.after_error hres] at hkeeps
    rw [Infer.after_error hdef]
    exact .inl hkeeps

theorem define_env {x : Name} {id : ExprId} {σ : Scheme} {s' : State}
    (h : p.define x id s = .ok σ s') : s'.env = (s'.solution.applyEnv s.env).insert x σ := by
  obtain ⟨t, s₁, s₂, hrun, hgen, rfl⟩ := define_ok.1 h
  have hkeeps : s.beginRun.Keeps s₂ :=
    ((p.inferExpr_scoped id).ok hrun).trans ((Infer.scoped_generalize t).ok hgen)
  change (s₂.solution.applyEnv s₂.env).insert x σ = _
  rw [hkeeps.env_eq]
  rfl

/-- However inference ends, and however deeply, the environment is the old one. So only a definition
that succeeds changes it, and then as a whole: the solution is written into every scheme and the
name is bound, which leaves closed schemes of other names alone. -/
theorem env_after_every_exit (p : Program) (id : ExprId) (s : State) :
    (∀ n, ((p.inferWithin n id).after s).env = s.env) ∧ ((p.inferExpr id).after s).env = s.env ∧
    ((p.infer id).after s).env = s.env ∧
    ∀ x : Name, (∀ e s', p.define x id s = .error e s' → s'.env = s.env) ∧
      ∀ σ s', p.define x id s = .ok σ s' → s'.env = (s'.solution.applyEnv s.env).insert x σ ∧
        ∀ (y : Name) (τ : Scheme), y ≠ x → s.env[y]? = some τ → τ.Closed → s'.env[y]? = some τ := by
  refine ⟨fun n => (p.inferWithin_scoped n id s).env_eq, (p.inferExpr_scoped id s).env_eq,
    (p.infer_scoped id s).env_eq,
    fun x => ⟨fun e s' herr => ?_, fun σ s' hok => ⟨define_env hok, ?_⟩⟩⟩
  · rcases p.define_after x id s with hkeeps | ⟨σ, s₁, hok⟩
    · rw [← Infer.after_error herr, hkeeps.env_eq]
    · rw [herr] at hok
      cases hok
  · intro y τ hne hy hclosed
    have hxy : ¬compare x y = .eq := fun h => hne (Std.LawfulEqCmp.compare_eq_iff_eq.1 h).symm
    rw [define_env hok, Std.ExtTreeMap.getElem?_insert, if_neg hxy,
      Substitution.getElem?_applyEnv, hy, Option.map_some, Substitution.applyScheme,
      hclosed.subst_eq]

/-- `λ z, x z` and `λ x, let x = x in y`. -/
def shadowingProgram : Program where
  table := ⟨#[.ident ⟨5⟩, .ident ⟨9⟩, .apply ⟨0⟩ ⟨1⟩, .lambda ⟨9⟩ ⟨2⟩, .ident ⟨8⟩,
    .letIn ⟨5⟩ ⟨0⟩ ⟨4⟩, .lambda ⟨5⟩ ⟨5⟩], #[]⟩
  declarations := ∅

def shadowingEnv : Env :=
  ((∅ : Env).insert ⟨5⟩ (.mono (.var ⟨0⟩))).insert ⟨7⟩ ⟨[⟨3⟩], .fn (.var ⟨3⟩) (.var ⟨3⟩)⟩

/-- The second function fails where two scopes hide `x`, and `x` is what it was. The first one
decides what stands for the type of `x`, and `k` is what it was. -/
theorem env_after_every_exit_shadowing :
    (∃ s, shadowingProgram.infer ⟨6⟩ (shadowingProgram.start shadowingEnv) =
        .error (.type (.unbound ⟨8⟩)) s ∧
      s.env = shadowingEnv) ∧
    ∃ σ s, shadowingProgram.define ⟨6⟩ ⟨3⟩ (shadowingProgram.start shadowingEnv) = .ok σ s ∧
      s.env = (s.solution.applyEnv shadowingEnv).insert ⟨6⟩ σ ∧
      s.env[(⟨5⟩ : Name)]? = some (.mono (.fn (.var ⟨1⟩) (.var ⟨2⟩))) ∧
      s.env[(⟨7⟩ : Name)]? = some ⟨[⟨3⟩], .fn (.var ⟨3⟩) (.var ⟨3⟩)⟩ := by
  have hfail : shadowingProgram.typeOf shadowingEnv ⟨6⟩ = .error (.type (.unbound ⟨8⟩)) := by
    rw [typeOf, infer_eq_of_nested (n := 3) (by decide) (by decide)]
    cbv
  have hdef : EStateM.run' (do
      let σ ← shadowingProgram.define ⟨6⟩ ⟨3⟩
      let s ← get
      return (σ, s.env[(⟨5⟩ : Name)]?) : Infer (Scheme × Option Scheme))
      (shadowingProgram.start shadowingEnv) =
      some (.mono (.fn (.var ⟨1⟩) (.var ⟨2⟩)), some (.mono (.fn (.var ⟨1⟩) (.var ⟨2⟩)))) := by
    rw [define_eq_of_nested (n := 3) (by decide) (by decide)]
    cbv
  constructor
  · rw [typeOf] at hfail
    cases hrun : shadowingProgram.infer ⟨6⟩ (shadowingProgram.start shadowingEnv) with
    | ok t s => simp [hrun] at hfail
    | error e s =>
      have henv :=
        (env_after_every_exit shadowingProgram ⟨6⟩ (shadowingProgram.start shadowingEnv)).2.2.1
      rw [Infer.after_error hrun] at henv
      exact ⟨s, by simpa [hrun] using hfail, henv⟩
  · obtain ⟨s', hok⟩ := Infer.run'_eq_some.1 hdef
    obtain ⟨σ, s, hrun, hok⟩ := Infer.bind_ok.1 hok
    obtain ⟨hres, -⟩ := Infer.pure_ok.1 hok
    obtain ⟨-, hx⟩ := Prod.mk.inj hres
    obtain ⟨henv, hclosed⟩ := ((env_after_every_exit shadowingProgram ⟨3⟩ _).2.2.2 ⟨6⟩).2 σ s hrun
    refine ⟨σ, s, hrun, henv, hx, hclosed ⟨7⟩ _ (by decide) ?_ (by cbv)⟩
    exact Std.ExtTreeMap.getElem?_insert_self

end Program
end TypeInference

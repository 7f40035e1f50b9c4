import TypeInference.Proofs.Inference.Scopes

/-! The course of a checker: which states its runs go through, where they generalize a type, and the
states between one call and the next. A run looks at no generalization but those listed here, so
what holds of all of them holds of all that the run does. -/
namespace TypeInference

namespace Infer

/-- While an expression of this form is inferred from the first state, the subexpression is inferred
from the second. -/
inductive Enters (go : ExprId → Infer Ty) (table : ExprTable) :
    Expr → State → ExprId → State → Prop where
  | lambda {x : Name} {body : ExprId} {a : Ty} {s s₁ : State} (h₁ : fresh s = .ok a s₁) :
    Enters go table (.lambda x body) s body { s₁ with env := s₁.env.insert x (.mono a) }
  | func {func arg : ExprId} {s : State} : Enters go table (.apply func arg) s func s
  | arg {func arg : ExprId} {f : Ty} {s s₁ : State} (h₁ : go func s = .ok f s₁) :
    Enters go table (.apply func arg) s arg s₁
  | value {x : Name} {value body : ExprId} {s : State} :
    Enters go table (.letIn x value body) s value s
  | body {x : Name} {value body : ExprId} {a : Ty} {σ : Scheme} {s s₁ s₂ : State}
    (h₁ : go value s = .ok a s₁) (h₂ : generalize a s₁ = .ok σ s₂) :
    Enters go table (.letIn x value body) s body { s₂ with env := s₂.env.insert x σ }
  | thenBranch {cond thenBranch elseBranch : ExprId} {s : State} :
    Enters go table (.ternary cond thenBranch elseBranch) s thenBranch s
  | cond {cond thenBranch elseBranch : ExprId} {t : Ty} {s s₁ : State}
    (h₁ : go thenBranch s = .ok t s₁) :
    Enters go table (.ternary cond thenBranch elseBranch) s cond s₁
  | elseBranch {cond thenBranch elseBranch : ExprId} {t c : Ty} {s s₁ s₂ : State}
    (h₁ : go thenBranch s = .ok t s₁) (h₂ : go cond s₁ = .ok c s₂) :
    Enters go table (.ternary cond thenBranch elseBranch) s elseBranch s₂
  | receiver {receiver : ExprId} {m : Name} {s : State} :
    Enters go table (.member receiver m) s receiver s
  | element {r : ExprRange} {id : ExprId} {before later : List ExprId} {ts : List Ty} {s s₁ : State}
    (hl : table.getList r = .ok (before ++ id :: later)) (h₁ : elements go before s = .ok ts s₁) :
    Enters go table (.tuple r) s id s₁

/-- Properties of states that are carried to every subexpression: inference keeps them, and so does
the binding of a parameter or of a generalized value. -/
structure Carries (go : ExprId → Infer Ty) (I : State → Prop) : Prop where
  run : ∀ {id : ExprId} {t : Ty} {s s₁ : State}, I s → go id s = .ok t s₁ → I s₁
  parameter : ∀ {a : Ty} {s s₁ : State}, I s → fresh s = .ok a s₁ → ∀ x : Name,
    I { s₁ with env := s₁.env.insert x (.mono a) }
  value : ∀ {id : ExprId} {t : Ty} {σ : Scheme} {s s₁ s₂ : State}, I s → go id s = .ok t s₁ →
    generalize t s₁ = .ok σ s₂ → ∀ x : Name, I { s₂ with env := s₂.env.insert x σ }

variable {go : ExprId → Infer Ty} {table : ExprTable} {e : Expr} {s s₁ : State} {c : ExprId}
  {I : State → Prop}

theorem Carries.elements (hI : Carries go I) {ids : List ExprId} {ts : List Ty} (hs : I s)
    (hok : elements go ids s = .ok ts s₁) : I s₁ := by
  induction ids generalizing s ts with
  | nil =>
    obtain ⟨-, rfl⟩ := elements_nil_ok.1 hok
    exact hs
  | cons id ids ih =>
    obtain ⟨t, us, s₂, h₁, h₂, -⟩ := elements_cons_ok hok
    exact ih (hI.run hs h₁) h₂

theorem Enters.carries (hI : Carries go I) (h : Enters go table e s c s₁) (hs : I s) : I s₁ := by
  cases h with
  | lambda h₁ => exact hI.parameter hs h₁ _
  | arg h₁ => exact hI.run hs h₁
  | body h₁ h₂ => exact hI.value hs h₁ h₂ _
  | cond h₁ => exact hI.run hs h₁
  | elseBranch h₁ h₂ => exact hI.run (hI.run hs h₁) h₂
  | element hl h₁ => exact hI.elements hs h₁
  | _ => exact hs

end Infer

namespace Program

/-- While the first expression is inferred from the first state, with `n` levels below it allowed,
the second is inferred from the second state, with `m` levels allowed. -/
inductive Visits (p : Program) : Nat → ExprId → State → Nat → ExprId → State → Prop where
  | here {n : Nat} {id : ExprId} {s : State} : Visits p n id s n id s
  | deeper {n m : Nat} {id c b : ExprId} {e : Expr} {s s₁ s₂ : State} (he : p.table.get id = .ok e)
    (h : Infer.Enters (p.inferWithin n) p.table e s c s₁) (hv : Visits p n c s₁ m b s₂) :
    Visits p (n + 1) id s m b s₂

/-- While the expression is inferred from the first state, a `let` generalizes the type of its value
in the second. -/
def LetCall (p : Program) (n : Nat) (id : ExprId) (s : State) (t : Ty) (s₁ : State) : Prop :=
  ∃ (m : Nat) (c value body : ExprId) (x : Name) (s₀ : State), p.Visits n id s (m + 1) c s₀ ∧
    p.table.get c = .ok (.letIn x value body) ∧ p.inferWithin m value s₀ = .ok t s₁

/-- A run from the first state generalizes the type in the second: at a `let` on the way, or at its
end in order to define a name. -/
inductive Generalizes (p : Program) (s : State) : Ty → State → Prop where
  | letIn {id : ExprId} {t : Ty} {s₁ : State} (h : p.LetCall p.depth id s.beginRun t s₁) :
    Generalizes p s t s₁
  | define {id : ExprId} {t : Ty} {s₁ : State} (h : p.inferExpr id s.beginRun = .ok t s₁) :
    Generalizes p s t s₁

theorem Visits.carries {p : Program} {I : State → Prop}
    (hI : ∀ n, Infer.Carries (p.inferWithin n) I) {n m : Nat} {id c : ExprId} {s s₁ : State}
    (h : p.Visits n id s m c s₁) (hs : I s) : I s₁ := by
  induction h with
  | here => exact hs
  | deeper he hin hv ih => exact ih (hin.carries (hI _) hs)

theorem Generalizes.exists_run {p : Program} {I : State → Prop}
    (hI : ∀ n, Infer.Carries (p.inferWithin n) I) {s s₁ : State} {t : Ty} (h : p.Generalizes s t s₁)
    (hs : I s.beginRun) : ∃ n id s₀, I s₀ ∧ p.inferWithin n id s₀ = .ok t s₁ := by
  cases h with
  | letIn h =>
    obtain ⟨m, c, value, body, x, s₀, hvisit, -, hval⟩ := h
    exact ⟨m, value, s₀, hvisit.carries hI hs, hval⟩
  | define h => exact ⟨p.depth, _, s.beginRun, hs, h⟩

theorem Generalizes.of_run' {p : Program} {s : State} {id : ExprId} {σ : Scheme}
    (h : EStateM.run' (do
      modify State.beginRun
      let t ← p.inferExpr id
      Infer.generalize t : Infer Scheme) s = some σ) :
    ∃ t s₁ s₂, p.Generalizes s t s₁ ∧ Infer.generalize t s₁ = .ok σ s₂ := by
  obtain ⟨s₂, hok⟩ := Infer.run'_eq_some.1 h
  obtain ⟨_, s₀, hbegin, hok⟩ := Infer.bind_ok.1 hok
  obtain ⟨-, rfl⟩ := EStateM.Result.ok.inj hbegin
  obtain ⟨t, s₁, hinfer, hgen⟩ := Infer.bind_ok.1 hok
  exact ⟨t, s₁, s₂, .define hinfer, hgen⟩

def Commits (p : Program) (s s₂ : State) : Prop :=
  ∃ (id : ExprId) (t : Ty) (σ : Scheme) (s₁ : State), p.inferExpr id s.beginRun = .ok t s₁ ∧
    Infer.generalize t s₁ = .ok σ s₂

/-- The states of a checker for this environment between its calls, which may fail. -/
inductive Session (p : Program) (env : Env) : State → Prop where
  | start : Session p env (p.start env)
  | infer {s : State} (h : Session p env s) (id : ExprId) : Session p env ((p.infer id).after s)
  | define {s : State} (h : Session p env s) (x : Name) (id : ExprId) :
    Session p env ((p.define x id).after s)

/-- A call that does not define a name keeps the environment, so all that is left to look at are
definitions that succeed. -/
theorem Session.invariant {p : Program} {env : Env} {P : State → Prop} (start : P (p.start env))
    (keeps : ∀ {s s' : State}, P s → s.Keeps s' → P s')
    (define : ∀ s s' x id σ, P s → p.define x id s = .ok σ s' → P s') {s : State}
    (h : p.Session env s) : P s := by
  induction h with
  | start => exact start
  | infer h id ih => exact keeps ih (p.infer_scoped id _)
  | @define s h x id ih =>
    rcases p.define_after x id s with hk | ⟨σ, s', hok⟩
    · exact keeps ih hk
    · rw [Infer.after_ok hok]
      exact define s s' x id σ ih hok

end Program

namespace Infer

variable {α β : Type} {s : State}

def letInUsing (gen : Ty → Infer Scheme) (go : ExprId → Infer Ty) (x : Name) (value body : ExprId) :
    Infer Ty := do
  let t ← go value
  let σ ← gen t
  withBinding x σ (go body)

def nodeUsing (gen : Ty → Infer Scheme) (go : ExprId → Infer Ty) (p : Program) : Expr → Infer Ty
  | .letIn x value body => letInUsing gen go x value body
  | e => node go p e

theorem withBinding_congr {x : Name} {σ : Scheme} {act act' : Infer α}
    (h : act { s with env := s.env.insert x σ } = act' { s with env := s.env.insert x σ }) :
    withBinding x σ act s = withBinding x σ act' s := by
  rw [withBinding, withBinding, h]

variable {gen : Ty → Infer Scheme} {go go' : ExprId → Infer Ty} {p : Program} {e : Expr}

theorem elements_congr {ids : List ExprId}
    (h : ∀ before id later ts s₁, ids = before ++ id :: later → elements go before s = .ok ts s₁ →
      go' id s₁ = go id s₁) : elements go' ids s = elements go ids s := by
  induction ids generalizing s with
  | nil => rfl
  | cons id ids ih =>
    refine bind_congr_ok (h [] id ids [] s rfl rfl) fun t s₁ h₁ =>
      bind_congr_ok (ih ?_) fun _ _ _ => rfl
    rintro before id' later ts s₂ rfl h₂
    refine h (id :: before) id' later (t :: ts) s₂ rfl ?_
    exact bind_ok.2 ⟨t, s₁, h₁, bind_ok.2 ⟨ts, s₂, h₂, rfl⟩⟩

/-- A rule depends on the inference of subexpressions in the states that it enters them from, and a
`let` on the generalization of its value. -/
theorem nodeUsing_eq (hgo : ∀ c s₁, Enters go p.table e s c s₁ → go' c s₁ = go c s₁)
    (hgen : ∀ x value body t s₁, e = .letIn x value body → go value s = .ok t s₁ →
      gen t s₁ = generalize t s₁) : nodeUsing gen go' p e s = node go p e s := by
  cases e with
  | lambda x body =>
    refine bind_congr_ok rfl fun a s₁ h₁ => bind_congr_ok (withBinding_congr ?_) fun _ _ _ => rfl
    exact hgo _ _ (.lambda h₁)
  | apply func arg =>
    refine bind_congr_ok (hgo _ _ .func) fun f s₁ h₁ => ?_
    exact bind_congr_ok (hgo _ _ (.arg h₁)) fun _ _ _ => rfl
  | letIn x value body =>
    refine bind_congr_ok (hgo _ _ .value) fun a s₁ h₁ => ?_
    refine bind_congr_ok (hgen x value body a s₁ rfl h₁) fun σ s₂ h₂ => withBinding_congr ?_
    exact hgo _ _ (.body h₁ h₂)
  | ternary cond thenBranch elseBranch =>
    refine bind_congr_ok (hgo _ _ .thenBranch) fun t s₁ h₁ => ?_
    refine bind_congr_ok (hgo _ _ (.cond h₁)) fun c s₂ h₂ => ?_
    exact bind_congr_ok (hgo _ _ (.elseBranch h₁ h₂)) fun _ _ _ => rfl
  | member receiver m => exact bind_congr_ok (hgo _ _ .receiver) fun _ _ _ => rfl
  | tuple r =>
    refine bind_congr_ok rfl fun ids s₁ h₁ => bind_congr_ok (elements_congr ?_) fun _ _ _ => rfl
    obtain ⟨hids, rfl⟩ := ofFault_ok.1 h₁
    rintro before id later ts s₂ rfl h₂
    exact hgo _ _ (.element hids h₂)
  | _ => rfl

end Infer

namespace Program

def inferWithinUsing (gen : Ty → Infer Scheme) (p : Program) : Nat → ExprId → Infer Ty
  | 0, _ => throw (.fault .tooDeep)
  | depth + 1, id => do
    let e ← Infer.ofFault (p.table.get id)
    Infer.nodeUsing gen (p.inferWithinUsing gen depth) p e

/-- Inference generalizes at the listed calls and nowhere else: what `gen` does elsewhere makes no
difference. -/
theorem inferWithinUsing_eq {p : Program} {gen : Ty → Infer Scheme} {n : Nat}
    {id : ExprId} {s : State}
    (h : ∀ t s₁, p.LetCall n id s t s₁ → gen t s₁ = Infer.generalize t s₁) :
    p.inferWithinUsing gen n id s = p.inferWithin n id s := by
  induction n generalizing id s with
  | zero => rfl
  | succ n ih =>
    refine Infer.bind_congr_ok rfl fun e s₁ hget => ?_
    obtain ⟨he, rfl⟩ := Infer.ofFault_ok.1 hget
    refine Infer.nodeUsing_eq (fun c s₁ hc => ih fun t s₂ hcall => ?_) ?_
    · obtain ⟨m, b, value, body, x, s₀, hv, hb, hval⟩ := hcall
      exact h t s₂ ⟨m, b, value, body, x, s₀, .deeper he hc hv, hb, hval⟩
    · rintro x value body t s₂ rfl hval
      exact h t s₂ ⟨n, id, value, body, x, s, .here, he, hval⟩

end Program
end TypeInference

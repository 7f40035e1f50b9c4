import TypeInference.Inference.Rules

/-! Runs. Every run starts without equations; it leaves behind the supply of variables and, if it
defines a name, a larger environment. -/
namespace TypeInference

namespace Host

variable {W : Type} [Host W] (go : ExprId → EStateM Failure W Ty)

def infer (id : ExprId) : EStateM Failure W Ty := do
  lift (modify State.beginRun)
  let t ← go id
  lift (Infer.resolve t)

/-- Infers and generalizes the type of an expression and binds it to a name. Types that the run has
found for variables of older bindings are written into the environment. -/
def define (x : Name) (id : ExprId) : EStateM Failure W Scheme := do
  lift (modify State.beginRun)
  let t ← go id
  let σ ← lift (Infer.generalize t)
  lift (modify State.commit)
  lift (modify fun s => { s with env := s.env.insert x σ })
  return σ

def defineAll : List (Name × ExprId) → EStateM Failure W Unit
  | [] => return ()
  | (x, id) :: defs => do
    let _ ← define go x id
    defineAll defs

end Host

namespace Program

def start (p : Program) (env : Env) : State := .ofEnv env p.declarations

def infer (p : Program) : ExprId → Infer Ty := Host.infer p.inferExpr

def define (p : Program) : Name → ExprId → Infer Scheme := Host.define p.inferExpr

def defineAll (p : Program) : List (Name × ExprId) → Infer Unit := Host.defineAll p.inferExpr

def typeOf (p : Program) (env : Env) (id : ExprId) : Except Failure Ty :=
  match p.infer id (p.start env) with
  | .ok t _ => .ok t
  | .error e _ => .error e

def envOf (p : Program) (env : Env) (defs : List (Name × ExprId)) : Except Failure Env :=
  match p.defineAll defs (p.start env) with
  | .ok _ s => .ok s.env
  | .error e _ => .error e

end Program
end TypeInference

import TypeInference.Context
import TypeInference.Fault
import TypeInference.TypeError

/-! The state of inference and its elementary actions. Equations and their solution belong to one
run; the environment and the supply of variables outlive it. -/
namespace TypeInference

structure State extends Context where
  env : Env
  /-- Solves the first `solved` equations. -/
  solution : Substitution
  solved : Nat

inductive Failure where
  | type (e : TypeError)
  | fault (f : Fault)
deriving DecidableEq

/-- Actions on the state. Changes made before a failure stay. -/
abbrev Infer := EStateM Failure State

namespace State

def empty : State := { Context.empty with env := ∅, solution := ∅, solved := 0 }

/-- Starts from an environment, with fresh variables above all that it or the declarations leave
free. -/
def ofEnv (env : Env) (d : Declarations) : State :=
  { (Context.empty.reserve env.freeVars.toList).reserve d.freeVars.toList with
    env := env, solution := ∅, solved := 0 }

/-- Drops the equations. The solution and the count of solved equations stay. -/
def clear (s : State) : State := { s with toContext := s.toContext.clear }

def beginRun (s : State) : State := { s.clear with solution := ∅, solved := 0 }

def pending (s : State) : Nat := s.constraints.size - s.solved

/-- Writes what the solution says about its variables into the environment. -/
def commit (s : State) : State := { s with env := s.solution.applyEnv s.env }

end State

namespace Infer

def ofFault {α : Type} : Except Fault α → Infer α
  | .ok a => pure a
  | .error f => throw (.fault f)

def fail {α : Type} (e : TypeError) : Infer α := throw (.type e)

def fresh : Infer Ty := fun s =>
  match s.toContext.fresh? with
  | some (v, c) => .ok (.var v) { s with toContext := c }
  | none => .error (.fault .overflow) s

def instantiate (σ : Scheme) : Infer Ty := fun s =>
  match s.toContext.instantiate? σ with
  | some (t, c) => .ok t { s with toContext := c }
  | none => .error (.fault .overflow) s

def constrain (l r : Ty) : Infer Unit := fun s =>
  .ok () { s with toContext := s.toContext.constrain l r }

/-- Solves the equations recorded since the last call. If one of them fails, all of these count as
unsolved, but the bindings made on the way stay. -/
def solvePending : Infer Unit := fun s =>
  match s.solution.solve (s.constraints.extract s.solved s.constraints.size).toList with
  | ⟨S, none⟩ => .ok () { s with solution := S, solved := s.constraints.size }
  | ⟨S, some c⟩ => .error (.type (.conflict c)) { s with solution := S }

/-- What is known about a type once all equations so far are solved. -/
def resolve (t : Ty) : Infer Ty := do
  solvePending
  let s ← get
  return s.solution.apply t

def generalize (t : Ty) : Infer Scheme := do
  solvePending
  let s ← get
  return (s.solution.applyEnv s.env).generalize (s.solution.apply t)

/-- Binds a name for the length of an action. However the action ends, the name gets back what it
stood for. -/
def withBinding {α : Type} (x : Name) (σ : Scheme) (act : Infer α) : Infer α := fun s =>
  let old := s.env[x]?
  match act { s with env := s.env.insert x σ } with
  | .ok a s => .ok a { s with env := s.env.restore x old }
  | .error e s => .error e { s with env := s.env.restore x old }

end Infer
end TypeInference

import TypeInference.Unification.Elimination

/-! The supply of fresh variables and the equations that a run has recorded. The supply is a
counter that never goes back, so a fresh variable is new to everything seen before. -/
namespace TypeInference

structure Context where
  next : Nat
  constraints : Array Equation
deriving DecidableEq

namespace Context

def empty : Context := ⟨0, #[]⟩

/-- The next variable, as long as the counter can still be moved past it. -/
def fresh? (c : Context) : Option (TyVar × Context) :=
  if c.next < TyVar.maxId then some (⟨c.next⟩, { c with next := c.next + 1 }) else none

def freshVars? (n : Nat) (c : Context) : Option (List TyVar × Context) :=
  if c.next + n ≤ TyVar.maxId then
    some ((List.range' c.next n).map TyVar.mk, { c with next := c.next + n })
  else none

/-- Moves the counter past a variable, as far as it goes. -/
def reserveVar (c : Context) (v : TyVar) : Context :=
  { c with next := max c.next (min (v.id + 1) TyVar.maxId) }

def reserve (c : Context) (vs : List TyVar) : Context := vs.foldl reserveVar c

def constrain (c : Context) (l r : Ty) : Context :=
  { c with constraints := c.constraints.push ⟨l, r⟩ }

/-- Forgets the equations and keeps the counter. -/
def clear (c : Context) : Context := { c with constraints := #[] }

def instantiate? (s : Scheme) (c : Context) : Option (Ty × Context) :=
  if s.isMono then some (s.ty, c)
  else (c.freshVars? s.vars.length).map fun (ws, c) =>
    ((Substitution.relabel s.vars ws).apply s.ty, c)

end Context
end TypeInference

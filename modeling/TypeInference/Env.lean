import Std.Data.ExtTreeSet
import TypeInference.Scheme

/-! Environments, which give names their schemes, and the members that nominal types declare.
Both are maps that are equal when they agree at every name. -/
namespace TypeInference

abbrev Env := Std.ExtTreeMap Name Scheme

namespace Env

def freeVars (env : Env) : Std.ExtTreeSet TyVar :=
  Std.ExtTreeSet.ofList (env.toList.flatMap fun b => b.2.freeVars)

/-- Puts back what a name stood for before a scope bound it. -/
def restore (env : Env) (x : Name) : Option Scheme → Env
  | some s => env.insert x s
  | none => env.erase x

/-- Quantifies the variables of a type that the environment leaves open, in the order of their
first occurrences. -/
def generalize (env : Env) (t : Ty) : Scheme :=
  let bound := env.freeVars
  ⟨t.freeVars.filter fun v => !bound.contains v, t⟩

theorem mem_freeVars {v : TyVar} {env : Env} :
    v ∈ env.freeVars ↔ ∃ (x : Name) (s : Scheme), env[x]? = some s ∧ v ∈ s.freeVars := by
  simp [freeVars, Std.ExtTreeSet.mem_ofList]

@[simp] theorem restore_insert (env : Env) (x : Name) (s : Scheme) :
    restore (env.insert x s) x env[x]? = env := by
  apply Std.ExtTreeMap.ext_getElem?
  intro y
  by_cases h : x = y
  · subst h
    cases hx : env[x]? <;> simp [restore]
  · cases hx : env[x]? <;> simp [restore, Std.ExtTreeMap.getElem?_insert,
      Std.ExtTreeMap.getElem?_erase, h]

end Env

abbrev Declarations := Std.ExtTreeMap Name Env

namespace Declarations

/-- Declares a member, in place of an earlier one of that name. -/
def declare (d : Declarations) (type member : Name) (s : Scheme) : Declarations :=
  d.insert type ((d[type]?.getD ∅).insert member s)

def member? (d : Declarations) (type member : Name) : Option Scheme :=
  d[type]?.bind fun members => members[member]?

def freeVars (d : Declarations) : Std.ExtTreeSet TyVar :=
  Std.ExtTreeSet.ofList (d.toList.flatMap fun b => b.2.freeVars.toList)

end Declarations
end TypeInference

import TypeInference.Ty.Variables

/-! Type schemes: a type together with the variables that each use may choose anew. -/
namespace TypeInference

/-- The quantified variables are kept as given; they may repeat or not occur in the type. -/
structure Scheme where
  vars : List TyVar
  ty : Ty
deriving DecidableEq

namespace Scheme

def mono (t : Ty) : Scheme := ⟨[], t⟩

def isMono (s : Scheme) : Bool := s.vars.isEmpty

/-- The variables of the type that are not quantified. -/
def freeVars (s : Scheme) : List TyVar := s.ty.freeVars.filter (· ∉ s.vars)

def subst (θ : TyVar → Ty) (s : Scheme) : Scheme :=
  ⟨s.vars, s.ty.subst fun v => if v ∈ s.vars then .var v else θ v⟩

@[simp] theorem isMono_mono (t : Ty) : (mono t).isMono = true := rfl

@[simp] theorem freeVars_mono (t : Ty) : (mono t).freeVars = t.freeVars := by
  simp [freeVars, mono]

theorem mem_freeVars {v : TyVar} {s : Scheme} :
    v ∈ s.freeVars ↔ v ∈ s.ty.occurrences ∧ v ∉ s.vars := by
  simp [freeVars]

@[simp] theorem subst_vars (θ : TyVar → Ty) (s : Scheme) : (s.subst θ).vars = s.vars := rfl

end Scheme
end TypeInference

import TypeInference.Env

/-! Substitutions: finite maps from variables to types, applied to all variables at once. -/
namespace TypeInference

abbrev Substitution := Std.ExtTreeMap TyVar Ty

namespace Substitution

def singleton (v : TyVar) (t : Ty) : Substitution := (∅ : Substitution).insert v t

/-- What a variable stands for; an unbound variable stands for itself. -/
def image (S : Substitution) (v : TyVar) : Ty := S[v]?.getD (.var v)

def apply (S : Substitution) (t : Ty) : Ty := t.subst S.image

/-- Applies a substitution below the quantifiers, without renaming them. -/
def applyScheme (S : Substitution) (s : Scheme) : Scheme := s.subst S.image

def applyEnv (S : Substitution) (env : Env) : Env := env.map fun _ s => S.applyScheme s

/-- Binds a variable, and replaces it in the images that mention it. -/
def bind (S : Substitution) (v : TyVar) (t : Ty) : Substitution :=
  (S.map fun _ u => if u.contains v then u.replace v t else u).insert v t

/-- First `S`, then `T`. A variable that both bind keeps its image under `S`, rewritten by `T`. -/
def compose (S T : Substitution) : Substitution := T ∪ S.map fun _ t => T.apply t

/-- Sends each variable of the first list to its partner in the second. A variable listed twice
goes to its last partner. -/
def relabel : List TyVar → List TyVar → Substitution
  | v :: vs, w :: ws => (relabel vs ws).insertIfNew v (.var w)
  | _, _ => ∅

@[simp] theorem image_empty (v : TyVar) : image ∅ v = .var v := by
  simp [image]

@[simp] theorem apply_empty (t : Ty) : apply ∅ t = t := by
  have h : image ∅ = Ty.var := funext image_empty
  rw [apply, h, Ty.subst_var]

theorem image_singleton (v w : TyVar) (t : Ty) :
    (singleton v t).image w = if v = w then t else .var w := by
  by_cases h : v = w <;> simp [image, singleton, h]

theorem getElem?_compose (S T : Substitution) (v : TyVar) :
    (S.compose T)[v]? = (S[v]?.map T.apply).or T[v]? := by
  rw [compose, Std.ExtTreeMap.getElem?_union, Std.ExtTreeMap.getElem?_map]

theorem image_compose (S T : Substitution) (v : TyVar) :
    (S.compose T).image v = T.apply (S.image v) := by
  rw [image, getElem?_compose, image]
  cases S[v]? <;> simp [apply, image, Ty.subst]

theorem apply_compose (S T : Substitution) (t : Ty) :
    (S.compose T).apply t = T.apply (S.apply t) := by
  rw [apply, apply, apply, Ty.subst_subst]
  exact Ty.subst_congr fun v _ => image_compose S T v

theorem apply_singleton (v : TyVar) (t u : Ty) : (singleton v t).apply u = u.replace v t := by
  refine Ty.subst_congr fun w _ => ?_
  rw [image_singleton]
  simp only [eq_comm]

/-- Images that do not mention the variable may be replaced in, too, which changes nothing. -/
theorem getElem?_bind (S : Substitution) (v w : TyVar) (t : Ty) :
    (S.bind v t)[w]? = if v = w then some t else S[w]?.map fun u => u.replace v t := by
  have hc : ∀ u : Ty, (if u.contains v then u.replace v t else u) = u.replace v t := by
    intro u
    split
    · rfl
    · next hu => exact (Ty.replace_of_not_mem fun hm => hu (Ty.contains_iff.2 hm)).symm
  simp only [bind, Std.ExtTreeMap.getElem?_insert, Std.ExtTreeMap.getElem?_map, hc,
    Std.LawfulEqCmp.compare_eq_iff_eq]

theorem image_bind (S : Substitution) (v w : TyVar) (t : Ty) :
    (S.bind v t).image w = if v = w then t else (S.image w).replace v t := by
  rw [image, getElem?_bind, image]
  split
  · rfl
  · next h =>
    have hw : ¬w = v := fun e => h e.symm
    cases S[w]? <;> simp [hw, Ty.replace, Ty.subst]

/-- The new binding is written into the images, as composing with it does, and it is added since the
variable was not bound. -/
theorem bind_eq_compose {S : Substitution} {v : TyVar} (hv : v ∉ S) (t : Ty) :
    S.bind v t = S.compose (singleton v t) := by
  apply Std.ExtTreeMap.ext_getElem?
  intro w
  have happly : (singleton v t).apply = fun u => u.replace v t := funext (apply_singleton v t)
  rw [getElem?_bind, getElem?_compose, happly]
  split
  · next h =>
    subst h
    simp [Std.ExtTreeMap.getElem?_eq_none hv, singleton]
  · next h => simp [singleton, h]

end Substitution
end TypeInference

import Mathlib
import TypeInference.Proofs.Unification.Solver
import TypeInference.TypeError

/-! Unification does not depend on the choice of variables. An injective renaming of the variables
of all equations makes the solver go through the same moves, so its outcome is renamed, too. -/
namespace TypeInference

open Function (Injective)

variable {ρ : TyVar → TyVar}

namespace Ty

def rename (ρ : TyVar → TyVar) (t : Ty) : Ty := t.subst fun v => .var (ρ v)

@[simp] theorem rename_bool : bool.rename ρ = .bool := rfl
@[simp] theorem rename_int : int.rename ρ = .int := rfl
@[simp] theorem rename_float : float.rename ρ = .float := rfl
@[simp] theorem rename_str : str.rename ρ = .str := rfl
@[simp] theorem rename_var (v : TyVar) : (var v).rename ρ = .var (ρ v) := rfl
@[simp] theorem rename_fn (p r : Ty) : (fn p r).rename ρ = .fn (p.rename ρ) (r.rename ρ) := rfl

@[simp] theorem rename_tuple (ts : List Ty) : (tuple ts).rename ρ = .tuple (ts.map (rename ρ)) := by
  rw [rename, subst, substAll_eq]
  rfl

@[simp] theorem rename_named (n : Name) (ts : List Ty) :
    (named n ts).rename ρ = .named n (ts.map (rename ρ)) := by
  rw [rename, subst, substAll_eq]
  rfl

theorem rename_rename (ρ τ : TyVar → TyVar) (t : Ty) : (t.rename ρ).rename τ = t.rename (τ ∘ ρ) :=
  subst_subst _ _ t

theorem rename_eq_self {t : Ty} (h : ∀ v ∈ t.occurrences, ρ v = v) : t.rename ρ = t := by
  rw [rename, subst_congr fun v hv => congrArg Ty.var (h v hv), subst_var]

theorem rename_injective (hρ : Injective ρ) : Injective (rename ρ) := by
  have : Nonempty TyVar := ⟨⟨0⟩⟩
  obtain ⟨τ, hτ⟩ := hρ.hasLeftInverse
  refine Function.LeftInverse.injective (g := rename τ) fun t => ?_
  rw [rename_rename]
  exact rename_eq_self fun v _ => hτ v

theorem occurrences_rename (t : Ty) : (t.rename ρ).occurrences = t.occurrences.map ρ := by
  induction t with
  | fn p r ihp ihr => simp [ihp, ihr]
  | tuple ts ih => simpa [List.map_flatMap, List.flatMap_map] using List.flatMap_congr ih
  | named n ts ih => simpa [List.map_flatMap, List.flatMap_map] using List.flatMap_congr ih
  | _ => rfl

theorem collect_rename (hρ : Injective ρ) (t : Ty) (seen : List TyVar) :
    (t.rename ρ).collect (seen.map ρ) = (t.collect seen).map ρ := by
  induction t generalizing seen with
  | var v =>
    simp only [rename_var, collect, List.mem_map_of_injective hρ]
    split <;> rfl
  | fn p r ihp ihr => simp [collect, ihp, ihr]
  | tuple ts ih =>
    simp only [rename_tuple, collect, collectAll_eq]
    induction ts generalizing seen with
    | nil => rfl
    | cons t ts ihs =>
      simp [ih t List.mem_cons_self, ihs fun t ht => ih t (List.mem_cons_of_mem _ ht)]
  | named n ts ih =>
    simp only [rename_named, collect, collectAll_eq]
    induction ts generalizing seen with
    | nil => rfl
    | cons t ts ihs =>
      simp [ih t List.mem_cons_self, ihs fun t ht => ih t (List.mem_cons_of_mem _ ht)]
  | _ => rfl

theorem freeVars_rename (hρ : Injective ρ) (t : Ty) : (t.rename ρ).freeVars = t.freeVars.map ρ := by
  rw [freeVars, freeVars, List.map_reverse, ← collect_rename hρ t [], List.map_nil]

theorem contains_rename (hρ : Injective ρ) (t : Ty) (v : TyVar) :
    (t.rename ρ).contains (ρ v) = t.contains v := by
  rw [Bool.eq_iff_iff, contains_iff, contains_iff, occurrences_rename, List.mem_map_of_injective hρ]

theorem replace_rename (hρ : Injective ρ) (t s : Ty) (v : TyVar) :
    (t.rename ρ).replace (ρ v) (s.rename ρ) = (t.replace v s).rename ρ := by
  simp only [replace, rename, subst_subst]
  refine subst_congr fun w _ => ?_
  by_cases h : w = v
  · simp [h, subst]
  · simp [h, subst, hρ.ne h]

@[simp] theorem isVar_rename (t : Ty) : (t.rename ρ).isVar = t.isVar := by
  cases t <;> simp [isVar]

end Ty

def Equation.rename (ρ : TyVar → TyVar) (e : Equation) : Equation :=
  ⟨e.lhs.rename ρ, e.rhs.rename ρ⟩

def Conflict.rename (ρ : TyVar → TyVar) : Conflict → Conflict
  | .infinite v t => .infinite (ρ v) (t.rename ρ)
  | .mismatch l r => .mismatch (l.rename ρ) (r.rename ρ)

namespace Equation

def Move.rename (ρ : TyVar → TyVar) : Move → Move
  | .bind v t => .bind (ρ v) (t.rename ρ)
  | .split es => .split (es.map (Equation.rename ρ))
  | .fail c => .fail (c.rename ρ)

theorem split?_rename (l r : Ty) :
    split? (l.rename ρ) (r.rename ρ) = (split? l r).map (List.map (rename ρ)) := by
  have hzip : ∀ ts us : List Ty, List.zipWith mk (ts.map (Ty.rename ρ)) (us.map (Ty.rename ρ)) =
      (List.zipWith mk ts us).map (rename ρ) := by
    intro ts us
    rw [List.zipWith_map, List.map_zipWith]
    rfl
  cases l <;> cases r <;> simp [split?, rename, hzip, apply_ite]

theorem move_var_right {t : Ty} {v : TyVar} (ht : t.isVar = false) :
    move ⟨t, .var v⟩ = if t.contains v then .fail (.infinite v t) else .bind v t := by
  cases t with
  | var w => cases ht
  | _ => simp [move]

theorem move_rigid {l r : Ty} (hl : l.isVar = false) (hr : r.isVar = false) :
    move ⟨l, r⟩ = if l = r then .split []
      else (split? l r).elim (.fail (.mismatch l r)) .split := by
  cases l with
  | var w => cases hl
  | _ =>
    cases r with
    | var w => cases hr
    | _ =>
      refine congrArg (ite _ _) ?_
      dsimp only
      generalize split? _ _ = o
      cases o <;> rfl

theorem move_rename (hρ : Injective ρ) (e : Equation) : (e.rename ρ).move = e.move.rename ρ := by
  obtain ⟨l, r⟩ := e
  by_cases hl : l.isVar = true
  · obtain ⟨v, rfl⟩ : ∃ v, l = .var v := by
      cases l <;> simp_all [Ty.isVar]
    have heq : Ty.var (ρ v) = r.rename ρ ↔ Ty.var v = r :=
      (Ty.rename_injective hρ).eq_iff (a := .var v)
    simp only [move, rename, Ty.rename_var, heq, Ty.contains_rename hρ]
    split
    · rfl
    · split <;> rfl
  · rw [Bool.not_eq_true] at hl
    by_cases hr : r.isVar = true
    · obtain ⟨v, rfl⟩ : ∃ v, r = .var v := by
        cases r <;> simp_all [Ty.isVar]
      rw [rename, Ty.rename_var, move_var_right (by simpa using hl), move_var_right hl,
        Ty.contains_rename hρ]
      split <;> rfl
    · rw [Bool.not_eq_true] at hr
      rw [rename, move_rigid (by simpa using hl) (by simpa using hr), move_rigid hl hr,
        split?_rename]
      simp only [(Ty.rename_injective hρ).eq_iff]
      split
      · rfl
      · cases split? l r <;> rfl

end Equation

namespace Substitution

/-- The second substitution does to renamed variables what the first does to the variables. -/
def Renamed (ρ : TyVar → TyVar) (S S' : Substitution) : Prop :=
  ∀ v, S'.image (ρ v) = (S.image v).rename ρ

variable {S S' : Substitution}

theorem renamed_empty : Renamed ρ ∅ ∅ := fun v => by simp

theorem Renamed.apply (h : Renamed ρ S S') (t : Ty) :
    S'.apply (t.rename ρ) = (S.apply t).rename ρ := by
  rw [Substitution.apply, Ty.rename, Ty.subst_subst, Substitution.apply, Ty.rename, Ty.subst_subst]
  exact Ty.subst_congr fun v _ => h v

theorem Renamed.bind (hρ : Injective ρ) (h : Renamed ρ S S') (v : TyVar) (t : Ty) :
    Renamed ρ (S.bind v t) (S'.bind (ρ v) (t.rename ρ)) := by
  intro w
  rw [image_bind, image_bind, h w, Ty.replace_rename hρ]
  simp only [hρ.eq_iff]
  split <;> rfl

end Substitution

namespace Unification

open Substitution

structure Outcome.Renamed (ρ : TyVar → TyVar) (o o' : Outcome) : Prop where
  solution : Substitution.Renamed ρ o.solution o'.solution
  conflict : o'.conflict = o.conflict.map (Conflict.rename ρ)

theorem replace_map_rename (hρ : Injective ρ) (v : TyVar) (t : Ty) (es : List Equation) :
    replace (ρ v) (t.rename ρ) (es.map (Equation.rename ρ)) =
      (replace v t es).map (Equation.rename ρ) := by
  simp [replace, Equation.replace, Equation.rename, Ty.replace_rename hρ]

theorem eliminate_rename (hρ : Injective ρ) {S S' : Substitution} (h : S.Renamed ρ S')
    (es : List Equation) :
    (eliminate S es).Renamed ρ (eliminate S' (es.map (Equation.rename ρ))) := by
  induction S, es using eliminate_induction generalizing S' with
  | nil S => simpa using ⟨h, rfl⟩
  | bind S e es v t hm ih =>
    have hm' : (e.rename ρ).move = .bind (ρ v) (t.rename ρ) := by
      rw [Equation.move_rename hρ, hm]; rfl
    rw [List.map_cons, eliminate_bind hm, eliminate_bind hm', replace_map_rename hρ]
    exact ih (h.bind hρ v t)
  | split S e es ds hm ih =>
    have hm' : (e.rename ρ).move = .split (ds.map (Equation.rename ρ)) := by
      rw [Equation.move_rename hρ, hm]
      rfl
    rw [List.map_cons, eliminate_split hm, eliminate_split hm', ← List.map_append]
    exact ih h
  | fail S e es c hm =>
    have hm' : (e.rename ρ).move = .fail (c.rename ρ) := by rw [Equation.move_rename hρ, hm]; rfl
    rw [List.map_cons, eliminate_fail hm, eliminate_fail hm']
    exact ⟨h, rfl⟩

end Unification

namespace Substitution

open Unification

variable {S S' : Substitution}

theorem unify_rename (hρ : Injective ρ) (h : S.Renamed ρ S') (e : Equation) :
    (S.unify e.lhs e.rhs).Renamed ρ (S'.unify (e.rename ρ).lhs (e.rename ρ).rhs) := by
  have hu := eliminate_rename hρ h [⟨S.apply e.lhs, S.apply e.rhs⟩]
  simpa only [unify, Equation.rename, h.apply, List.map_cons, List.map_nil] using hu

theorem solve_rename (hρ : Injective ρ) (h : S.Renamed ρ S') (es : List Equation) :
    (S.solve es).Renamed ρ (S'.solve (es.map (Equation.rename ρ))) := by
  induction es generalizing S S' with
  | nil => exact ⟨h, rfl⟩
  | cons e es ih =>
    obtain ⟨hs, hc⟩ := unify_rename hρ h e
    rw [List.map_cons]
    rcases hu : S.unify e.lhs e.rhs with ⟨T, _ | c⟩ <;>
      rcases hu' : S'.unify (e.rename ρ).lhs (e.rename ρ).rhs with ⟨T', _ | c'⟩ <;>
      simp only [hu, hu'] at hs hc
    · rw [solve_cons_ok hu, solve_cons_ok hu']
      exact ih hs
    · cases hc
    · cases hc
    · rw [solve_cons_conflict hu, solve_cons_conflict hu']
      exact ⟨hs, hc⟩

end Substitution

def TypeError.rename (ρ : TyVar → TyVar) : TypeError → TypeError
  | .conflict c => .conflict (c.rename ρ)
  | .unsupportedReceiver t m => .unsupportedReceiver (t.rename ρ) m
  | e => e

end TypeInference

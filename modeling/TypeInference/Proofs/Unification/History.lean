import TypeInference.Proofs.Unification.MostGeneral

/-! A unifier over its whole life. It serves one call after the other, and a call that fails leaves
behind what it has bound. Whatever the calls are and however they end, the substitution stays
idempotent, it is made of variables of the equations that were passed, and every call only refines
it. So two types that were once made equal stay equal. -/
namespace TypeInference

open Unification (vars)

theorem Unification.vars_subset {ds es : List Equation} (h : ds ⊆ es) : vars ds ⊆ vars es := by
  intro v hv
  obtain ⟨e, he, hv⟩ := List.mem_flatMap.1 hv
  exact List.mem_flatMap.2 ⟨e, h he, hv⟩

namespace Substitution

variable {S T U : Substitution} {P : TyVar → Prop} {es : List Equation}

theorem Factors.trans (hST : S.Factors T.image) (hTU : T.Factors U.image) : S.Factors U.image := by
  intro v
  calc (S.image v).subst U.image = ((S.image v).subst T.image).subst U.image :=
        (hTU.apply (S.image v)).symm
    _ = (T.image v).subst U.image := by rw [hST v]
    _ = U.image v := hTU v

theorem Idempotent.factors_solve (hi : S.Idempotent) (es : List Equation) :
    S.Factors (S.solve es).solution.image :=
  (factors_of_solve hi (solve_idempotent hi es).factors).1

structure MadeOf (P : TyVar → Prop) (S : Substitution) : Prop where
  bound : ∀ v ∈ S, P v
  images : ∀ (v : TyVar) (t : Ty), S[v]? = some t → ∀ w ∈ t.occurrences, P w

namespace MadeOf

theorem empty (P : TyVar → Prop) : MadeOf P ∅ where
  bound := by simp
  images := by simp

theorem image (h : S.MadeOf P) {v : TyVar} (hv : P v) : ∀ w ∈ (S.image v).occurrences, P w := by
  intro w hw
  cases ht : S[v]? with
  | none =>
    obtain rfl : w = v := by simpa [Substitution.image, ht] using hw
    exact hv
  | some t =>
    rw [Substitution.image, ht, Option.getD_some] at hw
    exact h.images v t ht w hw

theorem solve (h : S.MadeOf P) (hes : ∀ v ∈ vars es, P v) : (S.solve es).solution.MadeOf P := by
  have himg : ∀ v ∈ vars es, ∀ w ∈ (S.image v).occurrences, P w := fun v hv => h.image (hes v hv)
  have hbound := mem_solve himg h.bound
  refine ⟨hbound, fun v t hv w hw => ?_⟩
  have hmem : v ∈ (S.solve es).solution := Std.ExtTreeMap.mem_iff_isSome_getElem?.2 (by simp [hv])
  refine solve_image himg (h.image (hbound v hmem)) w ?_
  rwa [Substitution.image, hv, Option.getD_some]

end MadeOf

end Substitution

namespace Unification

inductive Call where
  | unify (l r : Ty)
  | solve (es : List Equation)

namespace Call

def equations : Call → List Equation
  | .unify l r => [⟨l, r⟩]
  | .solve es => es

def run (S : Substitution) : Call → Outcome
  | .unify l r => S.unify l r
  | .solve es => S.solve es

/-- The call comes to the equation and makes its sides equal, whatever happens to later
equations. -/
def Unifies (S : Substitution) (e : Equation) : Call → Prop
  | .unify l r => e = ⟨l, r⟩ ∧ (S.unify l r).conflict = none
  | .solve es => ∃ before later, es = before ++ e :: later ∧
      (S.solve (before ++ [e])).conflict = none

variable {S : Substitution} {e : Equation}

theorem run_eq_solve (c : Call) : c.run S = S.solve c.equations := by
  cases c with
  | solve es => rfl
  | unify l r =>
    rw [run, equations, Substitution.solve]
    rcases S.unify l r with ⟨T, _ | d⟩ <;> rfl

theorem Unifies.exists_solve {c : Call} (h : c.Unifies S e) :
    ∃ before later T, c.equations = before ++ e :: later ∧ S.solve (before ++ [e]) = ⟨T, none⟩ := by
  cases c with
  | solve es =>
    obtain ⟨before, later, rfl, hc⟩ := h
    exact ⟨before, later, _, rfl, congrArg (Outcome.mk _) hc⟩
  | unify l r =>
    obtain ⟨rfl, hc⟩ := h
    refine ⟨[], [], (S.unify l r).solution, rfl, ?_⟩
    exact (run_eq_solve (.unify l r)).symm.trans (congrArg (Outcome.mk _) hc)

end Call

def after (S : Substitution) : List Call → Substitution
  | [] => S
  | c :: cs => after (c.run S).solution cs

variable {S : Substitution} {calls : List Call}

theorem after_append (S : Substitution) (calls later : List Call) :
    after S (calls ++ later) = after (after S calls) later := by
  induction calls generalizing S with
  | nil => rfl
  | cons c calls ih => exact ih (c.run S).solution

theorem after_induction {motive : Substitution → Prop} (hS : motive S)
    (hrun : ∀ S, motive S → ∀ c ∈ calls, motive (c.run S).solution) : motive (after S calls) := by
  induction calls generalizing S with
  | nil => exact hS
  | cons c calls ih =>
    exact ih (hrun S hS c List.mem_cons_self) fun S hS d hd =>
      hrun S hS d (List.mem_cons_of_mem _ hd)

theorem after_idempotent (hi : S.Idempotent) (calls : List Call) : (after S calls).Idempotent := by
  refine after_induction hi fun S hi c _ => ?_
  rw [c.run_eq_solve]
  exact Substitution.solve_idempotent hi c.equations

theorem factors_after (hi : S.Idempotent) (calls : List Call) :
    S.Factors (after S calls).image := by
  have h : (after S calls).Idempotent ∧ S.Factors (after S calls).image := by
    refine after_induction (motive := fun T => T.Idempotent ∧ S.Factors T.image) ⟨hi, hi.factors⟩ ?_
    rintro T ⟨hT, hST⟩ c -
    rw [c.run_eq_solve]
    exact ⟨Substitution.solve_idempotent hT _, hST.trans (hT.factors_solve _)⟩
  exact h.2

theorem after_madeOf (calls : List Call) :
    (after ∅ calls).MadeOf (· ∈ vars (calls.flatMap Call.equations)) := by
  refine after_induction (.empty _) fun S hS c hc => ?_
  rw [c.run_eq_solve]
  have hsub : c.equations ⊆ calls.flatMap Call.equations :=
    fun e he => List.mem_flatMap.2 ⟨c, hc, he⟩
  exact hS.solve fun v hv => vars_subset hsub hv

theorem Call.Unifies.after_apply (hi : S.Idempotent) {c : Call} {e : Equation} (h : c.Unifies S e)
    (later : List Call) :
    (after S (c :: later)).apply e.lhs = (after S (c :: later)).apply e.rhs := by
  obtain ⟨before, rest, T, heqs, hT⟩ := h.exists_solve
  have hTi : T.Idempotent := by
    have := Substitution.solve_idempotent hi (before ++ [e])
    rwa [hT] at this
  -- the substitution right after the equation satisfies it, and all that follows refines that one
  have he : e.Holds T.image := by
    have hf : (S.solve (before ++ [e])).solution.Factors T.image := by
      rw [hT]
      exact hTi.factors
    exact (Substitution.factors_of_solve hi hf).2 (by rw [hT]) e (by simp)
  have hrun : c.run S = T.solve rest := by
    rw [c.run_eq_solve, heqs, List.append_cons, Substitution.solve_append_ok hT]
  have href : T.Factors (after S (c :: later)).image := by
    rw [after, hrun]
    exact (hTi.factors_solve rest).trans
      (factors_after (Substitution.solve_idempotent hTi rest) later)
  calc (after S (c :: later)).apply e.lhs = (T.apply e.lhs).subst (after S (c :: later)).image :=
        (href.apply e.lhs).symm
    _ = (T.apply e.rhs).subst (after S (c :: later)).image := congrArg _ he
    _ = (after S (c :: later)).apply e.rhs := href.apply e.rhs

/-- Whatever a new unifier has been asked for and however the calls ended: no image mentions a bound
variable, so applying the substitution twice is applying it once; all its variables are from
equations that were passed; the next call refines it; and an equation which that call unifies is
satisfied after all later calls. -/
theorem after_calls_idempotent_and_refined (calls : List Call) :
    (after ∅ calls).Idempotent ∧
    (∀ t, (after ∅ calls).apply ((after ∅ calls).apply t) = (after ∅ calls).apply t) ∧
    (after ∅ calls).MadeOf (· ∈ vars (calls.flatMap Call.equations)) ∧
    (∀ c t, (after ∅ (calls ++ [c])).apply ((after ∅ calls).apply t) =
      (after ∅ (calls ++ [c])).apply t) ∧
    ∀ c e, c.Unifies (after ∅ calls) e → ∀ later,
      (after ∅ (calls ++ c :: later)).apply e.lhs =
        (after ∅ (calls ++ c :: later)).apply e.rhs := by
  have hi := after_idempotent Substitution.idempotent_empty calls
  refine ⟨hi, hi.factors.apply, after_madeOf calls, fun c t => ?_, fun c e he later => ?_⟩
  · rw [after_append]
    exact (factors_after hi [c]).apply t
  · rw [after_append]
    exact he.after_apply hi later

def mismatchCall : Call := .unify (.fn (.var ⟨0⟩) .int) (.fn .bool .bool)

def circularCall : Call :=
  .solve [⟨.var ⟨1⟩, .fn (.var ⟨0⟩) (.var ⟨2⟩)⟩, ⟨.var ⟨2⟩, .tuple [.var ⟨1⟩]⟩]

/-- Both calls fail, and the first equation of the second stays satisfied. -/
theorem after_calls_idempotent_and_refined_failing :
    (mismatchCall.run ∅).conflict = some (.mismatch .int .bool) ∧
    (circularCall.run (after ∅ [mismatchCall])).conflict =
      some (.infinite ⟨2⟩ (.tuple [.fn .bool (.var ⟨2⟩)])) ∧
    circularCall.Unifies (after ∅ [mismatchCall]) ⟨.var ⟨1⟩, .fn (.var ⟨0⟩) (.var ⟨2⟩)⟩ ∧
    ∀ later, (after ∅ ([mismatchCall] ++ circularCall :: later)).apply (.var ⟨1⟩) =
      (after ∅ ([mismatchCall] ++ circularCall :: later)).apply (.fn (.var ⟨0⟩) (.var ⟨2⟩)) := by
  have hu : circularCall.Unifies (after ∅ [mismatchCall]) ⟨.var ⟨1⟩, .fn (.var ⟨0⟩) (.var ⟨2⟩)⟩ :=
    ⟨[], [⟨.var ⟨2⟩, .tuple [.var ⟨1⟩]⟩], rfl, by cbv⟩
  obtain ⟨-, -, -, -, hsat⟩ := after_calls_idempotent_and_refined [mismatchCall]
  exact ⟨by cbv, by cbv, hu, hsat circularCall _ hu⟩

end Unification
end TypeInference

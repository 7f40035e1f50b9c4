import TypeInference.Proofs.Unification.Solutions

/-! What elimination does to a substitution. A map factors through a substitution if it gives the
same type before and after the substitution is applied. Elimination keeps a substitution
idempotent, and the maps that factor through its result are the solutions of the equations among
those that factored through the substitution at the start. -/
namespace TypeInference
namespace Substitution

/-- Applying the substitution first makes no difference to the map. -/
def Factors (S : Substitution) (θ : TyVar → Ty) : Prop := ∀ v, (S.image v).subst θ = θ v

/-- No image mentions a variable that is bound. -/
def Idempotent (S : Substitution) : Prop :=
  ∀ (v : TyVar) (t : Ty), S[v]? = some t → ∀ w ∈ t.occurrences, w ∉ S

variable {S : Substitution} {θ : TyVar → Ty}

theorem Factors.apply (h : S.Factors θ) (t : Ty) : (S.apply t).subst θ = t.subst θ := by
  rw [Substitution.apply, Ty.subst_subst]
  exact Ty.subst_congr fun v _ => h v

@[simp] theorem factors_empty (θ : TyVar → Ty) : Factors ∅ θ := fun v => by
  rw [image_empty, Ty.subst]

@[simp] theorem idempotent_empty : Idempotent ∅ := by
  intro v t h
  simp at h

theorem image_of_not_mem {v : TyVar} (h : v ∉ S) : S.image v = .var v := by
  rw [image, Std.ExtTreeMap.getElem?_eq_none h, Option.getD_none]

theorem apply_eq_self {t : Ty} (h : ∀ v ∈ t.occurrences, v ∉ S) : S.apply t = t := by
  rw [Substitution.apply, Ty.subst_congr fun v hv => image_of_not_mem (h v hv), Ty.subst_var]

/-- A new binding is made after the others. -/
theorem apply_bind {v : TyVar} (hv : v ∉ S) (t u : Ty) :
    (S.bind v t).apply u = (S.apply u).replace v t := by
  rw [bind_eq_compose hv, apply_compose, apply_singleton]

/-- Images mention no bound variable; an unbound variable is its own image. -/
theorem Idempotent.not_mem (h : S.Idempotent) {v w : TyVar} (hw : w ∈ (S.image v).occurrences) :
    w ∉ S := by
  cases hv : S[v]? with
  | none =>
    obtain rfl : w = v := by simpa [image, hv] using hw
    simpa using hv
  | some t =>
    have hi : S.image v = t := by simp [image, hv]
    exact h v t hv w (hi ▸ hw)

theorem Idempotent.not_mem_apply (h : S.Idempotent) {t : Ty} {w : TyVar}
    (hw : w ∈ (S.apply t).occurrences) : w ∉ S := by
  obtain ⟨v, -, hw⟩ := Ty.mem_occurrences_subst.1 hw
  exact h.not_mem hw

theorem Idempotent.factors (h : S.Idempotent) : S.Factors S.image := by
  intro v
  have hc : ∀ w ∈ (S.image v).occurrences, S.image w = .var w := fun w hw =>
    image_of_not_mem (h.not_mem hw)
  rw [Ty.subst_congr hc, Ty.subst_var]

theorem mem_bind {v w : TyVar} {t : Ty} : w ∈ S.bind v t ↔ v = w ∨ w ∈ S := by
  simp [bind, Std.ExtTreeMap.mem_insert]

/-- A map factors through a new binding exactly if it factored before and agrees with the
binding. -/
theorem factors_bind {v : TyVar} {t : Ty} (hv : v ∉ S) :
    (S.bind v t).Factors θ ↔ S.Factors θ ∧ θ v = t.subst θ := by
  constructor
  · intro h
    have ht : θ v = t.subst θ := by
      have := h v
      rw [image_bind, if_pos rfl] at this
      exact this.symm
    refine ⟨fun w => ?_, ht⟩
    by_cases hw : v = w
    · subst hw
      rw [image_of_not_mem hv, Ty.subst]
    · have := h w
      rwa [image_bind, if_neg hw, Ty.subst_replace ht] at this
  · rintro ⟨h, ht⟩ w
    rw [image_bind]
    split
    · next hw => rw [← hw, ht]
    · rw [Ty.subst_replace ht, h w]

theorem Idempotent.bind (h : S.Idempotent) {v : TyVar} {t : Ty} (hvt : v ∉ t.occurrences)
    (ht : ∀ w ∈ t.occurrences, w ∉ S) : (S.bind v t).Idempotent := by
  have hnew : ∀ w ∈ t.occurrences, w ∉ S.bind v t := by
    intro w hw hb
    rcases mem_bind.1 hb with rfl | hb
    · exact hvt hw
    · exact ht w hw hb
  intro u s hu w hw
  have hs : (S.bind v t).image u = s := by simp [image, hu]
  rw [image_bind] at hs
  split at hs
  · subst hs
    exact hnew w hw
  · subst hs
    obtain ⟨hne, hw | hw⟩ := Ty.mem_occurrences_replace hvt hw
    · intro hb
      rcases mem_bind.1 hb with rfl | hb
      · exact hne rfl
      · exact h.not_mem hw hb
    · exact hnew w hw

end Substitution

namespace Unification

open Substitution

def Under (S : Substitution) (es : List Equation) : Prop := ∀ v ∈ vars es, v ∉ S

variable {S : Substitution} {θ : TyVar → Ty} {e : Equation} {es ds : List Equation}
    {v : TyVar} {t : Ty}

theorem mem_vars_replace {w : TyVar} (hvt : v ∉ t.occurrences) (h : w ∈ vars (replace v t es)) :
    w ≠ v ∧ (w ∈ vars es ∨ w ∈ t.occurrences) := by
  simp only [vars, replace, List.flatMap_map, List.mem_flatMap, Equation.vars, Equation.replace,
    List.mem_append] at h ⊢
  obtain ⟨d, hd, hw | hw⟩ := h
  · obtain ⟨hne, hw⟩ := Ty.mem_occurrences_replace hvt hw
    exact ⟨hne, hw.imp_left fun hw => ⟨d, hd, .inl hw⟩⟩
  · obtain ⟨hne, hw⟩ := Ty.mem_occurrences_replace hvt hw
    exact ⟨hne, hw.imp_left fun hw => ⟨d, hd, .inr hw⟩⟩

theorem forall_vars_bind {P : TyVar → Prop} (h : e.move = .bind v t)
    (hP : ∀ w ∈ vars (e :: es), P w) :
    P v ∧ (∀ w ∈ t.occurrences, P w) ∧ ∀ w ∈ vars (replace v t es), P w := by
  obtain ⟨hv, ht, hvt⟩ := vars_move_bind h
  have hes : ∀ w ∈ t.occurrences, P w := fun w hw => hP w (List.mem_append_left _ (ht hw))
  refine ⟨hP v (List.mem_append_left _ hv), hes, fun w hw => ?_⟩
  obtain ⟨-, hw | hw⟩ := mem_vars_replace hvt hw
  · exact hP w (List.mem_append_right _ hw)
  · exact hes w hw

theorem forall_vars_split {P : TyVar → Prop} (h : e.move = .split ds)
    (hP : ∀ w ∈ vars (e :: es), P w) : ∀ w ∈ vars (ds ++ es), P w := by
  intro w hw
  rw [vars_append, List.mem_append] at hw
  exact hP w (List.mem_append.2 (hw.imp_left (vars_move_split h ·)))

theorem Under.bind (hu : Under S (e :: es)) (h : e.move = .bind v t) :
    Under (S.bind v t) (replace v t es) := by
  have hvt := (vars_move_bind h).2.2
  intro w hw hb
  rcases mem_bind.1 hb with rfl | hb
  · exact (mem_vars_replace hvt hw).1 rfl
  · exact (forall_vars_bind h hu).2.2 w hw hb

theorem Under.split (hu : Under S (e :: es)) (h : e.move = .split ds) : Under S (ds ++ es) :=
  forall_vars_split h hu

theorem eliminate_bind (h : e.move = .bind v t) :
    eliminate S (e :: es) = eliminate (S.bind v t) (replace v t es) := by
  rw [eliminate_cons, h]

theorem eliminate_split (h : e.move = .split ds) :
    eliminate S (e :: es) = eliminate S (ds ++ es) := by
  rw [eliminate_cons, h]

theorem eliminate_fail {c : Conflict} (h : e.move = .fail c) :
    eliminate S (e :: es) = ⟨S, some c⟩ := by
  rw [eliminate_cons, h]

theorem eliminate_idempotent (hi : S.Idempotent) (hu : Under S es) :
    (eliminate S es).solution.Idempotent := by
  induction S, es using eliminate_induction with
  | nil S => simpa using hi
  | bind S e es v t h ih =>
    rw [eliminate_bind h]
    obtain ⟨-, ht, -⟩ := forall_vars_bind h hu
    exact ih (hi.bind (vars_move_bind h).2.2 ht) (hu.bind h)
  | split S e es ds h ih =>
    rw [eliminate_split h]
    exact ih hi (hu.split h)
  | fail S e es c h =>
    rw [eliminate_fail h]
    exact hi

/-- Elimination loses no solution, and meets no conflict if there is one. -/
theorem factors_eliminate (hu : Under S es) (hS : S.Factors θ) (hes : Solves θ es) :
    (eliminate S es).conflict = none ∧ (eliminate S es).solution.Factors θ := by
  induction S, es using eliminate_induction with
  | nil S => simpa using hS
  | bind S e es v t h ih =>
    rw [eliminate_bind h]
    obtain ⟨he, hes⟩ := solves_cons.1 hes
    have hv := (Equation.holds_move_bind h).1 he
    have hvS := (forall_vars_bind h hu).1
    exact ih (hu.bind h) ((factors_bind hvS).2 ⟨hS, hv⟩) ((solves_replace hv es).2 hes)
  | split S e es ds h ih =>
    rw [eliminate_split h]
    obtain ⟨he, hes⟩ := solves_cons.1 hes
    exact ih (hu.split h) hS (solves_append.2 ⟨(Equation.holds_move_split h).1 he, hes⟩)
  | fail S e es c h => exact absurd (solves_cons.1 hes).1 (Equation.not_holds_move_fail θ h)

/-- Elimination only refines, and what factors through its result solves the equations unless there
was a conflict. -/
theorem factors_of_eliminate (hu : Under S es) (hT : (eliminate S es).solution.Factors θ) :
    S.Factors θ ∧ ((eliminate S es).conflict = none → Solves θ es) := by
  induction S, es using eliminate_induction with
  | nil S => exact ⟨by simpa using hT, fun _ => solves_nil θ⟩
  | bind S e es v t h ih =>
    rw [eliminate_bind h] at hT ⊢
    obtain ⟨hb, hes⟩ := ih (hu.bind h) hT
    obtain ⟨hS, hv⟩ := (factors_bind (forall_vars_bind h hu).1).1 hb
    refine ⟨hS, fun hc => solves_cons.2 ⟨(Equation.holds_move_bind h).2 hv, ?_⟩⟩
    exact (solves_replace hv es).1 (hes hc)
  | split S e es ds h ih =>
    rw [eliminate_split h] at hT ⊢
    obtain ⟨hS, hes⟩ := ih (hu.split h) hT
    refine ⟨hS, fun hc => ?_⟩
    obtain ⟨hds, hes⟩ := solves_append.1 (hes hc)
    exact solves_cons.2 ⟨(Equation.holds_move_split h).2 hds, hes⟩
  | fail S e es c h =>
    rw [eliminate_fail h] at hT ⊢
    exact ⟨hT, fun hc => absurd hc (by simp)⟩

variable {P : TyVar → Prop}

theorem eliminate_image (hes : ∀ v ∈ vars es, P v) {u : TyVar}
    (hu : ∀ v ∈ (S.image u).occurrences, P v) :
    ∀ v ∈ ((eliminate S es).solution.image u).occurrences, P v := by
  induction S, es using eliminate_induction with
  | nil S => simpa using hu
  | bind S e es v t h ih =>
    rw [eliminate_bind h]
    obtain ⟨-, ht, hes⟩ := forall_vars_bind h hes
    refine ih hes fun w hw => ?_
    rw [image_bind] at hw
    split at hw
    · exact ht w hw
    · obtain ⟨-, hw | hw⟩ := Ty.mem_occurrences_replace (vars_move_bind h).2.2 hw
      · exact hu w hw
      · exact ht w hw
  | split S e es ds h ih =>
    rw [eliminate_split h]
    exact ih (forall_vars_split h hes) hu
  | fail S e es c h =>
    rw [eliminate_fail h]
    exact hu

theorem mem_eliminate (hes : ∀ v ∈ vars es, P v) (hS : ∀ v ∈ S, P v) :
    ∀ v ∈ (eliminate S es).solution, P v := by
  induction S, es using eliminate_induction with
  | nil S => simpa using hS
  | bind S e es v t h ih =>
    rw [eliminate_bind h]
    obtain ⟨hv, -, hes⟩ := forall_vars_bind h hes
    refine ih hes fun w hw => ?_
    rcases mem_bind.1 hw with rfl | hw
    · exact hv
    · exact hS w hw
  | split S e es ds h ih =>
    rw [eliminate_split h]
    exact ih (forall_vars_split h hes) hS
  | fail S e es c h =>
    rw [eliminate_fail h]
    exact hS

end Unification
end TypeInference

import TypeInference.Proofs.Inference.Levels
import TypeInference.Proofs.Inference.Yields

/-! Inference without member access is complete: a derivation for an instance of the environment is
followed by the run, which keeps a solution of its equations that gives the derived type. So the run
cannot meet a conflict, and the type it returns has every other type of the expression as an
instance. -/
namespace TypeInference

open State

theorem exists_extension {vs : List TyVar} {f : TyVar → TyVar}
    (hf : ∀ v ∈ vs, ∀ w ∈ vs, f v = f w → v = w) (ρ θ : TyVar → Ty) :
    ∃ η : TyVar → Ty, (∀ v ∈ vs, η (f v) = ρ v) ∧ ∀ w, (∀ v ∈ vs, f v ≠ w) → η w = θ w := by
  refine ⟨fun w => match vs.find? (f · = w) with
    | some v => ρ v
    | none => θ w, fun v hv => ?_, fun w hw => ?_⟩
  · cases hfind : vs.find? (f · = f v) with
    | none => simpa using List.find?_eq_none.1 hfind v hv
    | some u =>
      obtain rfl :=
        hf u (List.mem_of_find?_eq_some hfind) v hv (by simpa using List.find?_some hfind)
      simp [hfind]
  · have hnone : vs.find? (f · = w) = none :=
      List.find?_eq_none.2 fun v hv => by simpa using hw v hv
    simp [hnone]

theorem Substitution.exists_image_eq (f : TyVar → Ty) (vs : List TyVar) :
    ∃ S : Substitution, ∀ v ∈ vs, S.image v = f v := by
  induction vs with
  | nil => exact ⟨∅, nofun⟩
  | cons w vs ih =>
    obtain ⟨S, hS⟩ := ih
    refine ⟨S.insert w (f w), fun v hv => ?_⟩
    by_cases hwv : w = v
    · subst hwv
      simp [image]
    · have hv := hS v ((List.mem_cons.1 hv).resolve_left (Ne.symm hwv))
      simpa [image, Std.ExtTreeMap.getElem?_insert, hwv] using hv

namespace Env

/-- The environments bind the same names, and every use of a name that the second allows is one that
the first allows under `θ`. -/
structure Includes (θ : TyVar → Ty) (env Γ : Env) : Prop where
  mem_iff : ∀ x : Name, x ∈ env ↔ x ∈ Γ
  instances : ∀ (x : Name) (σ τ : Scheme), env[x]? = some σ → Γ[x]? = some τ →
    ∀ t, τ.Instance t → ∃ ρ, t = σ.specialize ρ θ

variable {θ η : TyVar → Ty} {env Γ : Env} {x : Name} {σ τ : Scheme}

theorem mem_iff_exists : x ∈ env ↔ ∃ σ, env[x]? = some σ := by
  rw [Std.ExtTreeMap.mem_iff_isSome_getElem?, Option.isSome_iff_exists]

theorem Includes.insert (h : Includes θ env Γ)
    (hσ : ∀ t, τ.Instance t → ∃ ρ, t = σ.specialize ρ θ) :
    Includes θ (env.insert x σ) (Γ.insert x τ) where
  mem_iff y := by simp [Std.ExtTreeMap.mem_insert, h.mem_iff y]
  instances y σ' τ' hy hy' := by
    rw [Std.ExtTreeMap.getElem?_insert] at hy hy'
    by_cases hxy : compare x y = .eq
    · rw [if_pos hxy] at hy hy'
      obtain rfl := Option.some.inj hy
      obtain rfl := Option.some.inj hy'
      exact hσ
    · rw [if_neg hxy] at hy hy'
      exact h.instances y σ' τ' hy hy'

theorem Includes.congr (h : Includes θ env Γ) (he : ∀ v ∈ env.freeVars, η v = θ v) :
    Includes η env Γ where
  mem_iff := h.mem_iff
  instances x σ τ hx hx' t ht := by
    obtain ⟨ρ, rfl⟩ := h.instances x σ τ hx hx' t ht
    exact ⟨ρ, (Scheme.specialize_congr fun v hv => he v (mem_freeVars.2 ⟨x, σ, hx, hv⟩)).symm⟩

theorem Includes.mem_freeVars (h : Includes θ env Γ) {u w : TyVar} (hu : u ∈ env.freeVars)
    (hw : w ∈ (θ u).occurrences) : w ∈ Γ.freeVars := by
  obtain ⟨x, σ, hx, hu⟩ := Env.mem_freeVars.1 hu
  obtain ⟨τ, hx'⟩ := mem_iff_exists.1 ((h.mem_iff x).1 (mem_iff_exists.2 ⟨σ, hx⟩))
  obtain ⟨ρ, hρ⟩ := h.instances x σ τ hx hx' _ (τ.instance_specialize fun _ => .bool)
  have hmem : w ∈ (σ.specialize ρ θ).occurrences :=
    Scheme.mem_occurrences_specialize.2 (.inr ⟨u, hu, hw⟩)
  rw [← hρ] at hmem
  rcases Scheme.mem_occurrences_specialize.1 hmem with ⟨v, -, -, hwv⟩ | ⟨v, hv, hwv⟩
  · simp at hwv
  · obtain rfl : w = v := by simpa using hwv
    exact Env.mem_freeVars.2 ⟨x, τ, hx', hv⟩

theorem Unmixed.includes (h : env.Unmixed) (S : Substitution) :
    Includes S.image env (S.applyEnv env) where
  mem_iff x := by simp [Substitution.applyEnv]
  instances x σ τ hx hx' t ht := by
    rw [Substitution.getElem?_applyEnv, hx] at hx'
    obtain rfl := Option.some.inj hx'
    exact (Scheme.instance_subst (h x σ hx)).1 ht

end Env

def Agree (n : Nat) (η θ : TyVar → Ty) : Prop := ∀ v, Taken n v → η v = θ v

namespace Agree

variable {D : TyVar → Prop} {s : State} {θ η ζ : TyVar → Ty} {n m : Nat} {t : Ty}

theorem refl (n : Nat) (θ : TyVar → Ty) : Agree n θ θ := fun _ _ => rfl

theorem trans (h₁ : Agree n η θ) (hnm : n ≤ m) (h₂ : Agree m ζ η) : Agree n ζ θ := fun v hv =>
  (h₂ v (hv.mono hnm)).trans (h₁ v hv)

theorem subst_eq (h : Agree s.next η θ) (ht : s.Knows D t) : t.subst η = t.subst θ :=
  Ty.subst_congr fun v hv => h v (ht v hv).1

theorem solves (h : Agree s.next η θ) (hc : s.Consistent D) (hθ : Solves θ s.equations) :
    Solves η s.equations := hθ.congr fun v hv => h v (hc.equations_taken v hv)

theorem includes {Γ : Env} (h : Agree s.next η θ) (hc : s.Consistent D) (hΓ : s.env.Includes θ Γ) :
    s.env.Includes η Γ := hΓ.congr fun v hv => h v (hc.env_known v hv).1

end Agree

/-- A later state and a solution of its equations that goes on from a solution of the old ones. -/
structure Follows (D : TyVar → Prop) (s : State) (θ : TyVar → Ty) (s' : State) (η : TyVar → Ty) :
    Prop where
  grown : s.Extends D s'
  agree : Agree s.next η θ
  solves : Solves η s'.equations

namespace Follows

variable {D : TyVar → Prop} {s s₁ s₂ : State} {θ η ζ : TyVar → Ty} {t : Ty}

theorem trans (h₁ : Follows D s θ s₁ η) (h₂ : Follows D s₁ η s₂ ζ) : Follows D s θ s₂ ζ where
  grown := h₁.grown.trans h₂.grown
  agree := h₁.agree.trans h₁.grown.next_le h₂.agree
  solves := h₂.solves

theorem includes {Γ : Env} (h : Follows D s θ s₁ η) (hc : s.Consistent D)
    (hΓ : s.env.Includes θ Γ) : s₁.env.Includes η Γ := by
  rw [h.grown.env_eq]
  exact h.agree.includes hc hΓ

end Follows

namespace Infer

/-- Every type of which `J` holds comes from the result by a solution of the equations that goes on
from the one before. -/
def Complete (act : Infer Ty) (J : Env → Ty → Prop) : Prop :=
  ∀ (D : TyVar → Prop) (s : State) (θ : TyVar → Ty) (Γ : Env) (u : Ty), s.Consistent D →
    Solves θ s.equations → s.env.Includes θ Γ → J Γ u →
    Yields act s fun t s' => ∃ η, Agree s.next η θ ∧ Solves η s'.equations ∧ t.subst η = u

variable {p : Program} {go : ExprId → Infer Ty} {D : TyVar → Prop} {s s' : State} {t u : Ty}
  {σ : Scheme} {θ : TyVar → Ty} {Γ : Env} {x : Name}

theorem complete_pure {J : Env → Ty → Prop} (h : t.occurrences = []) (hJ : ∀ Γ u, J Γ u → u = t) :
    Complete (pure t) J := by
  intro D s θ Γ u hc hθ hΓ hu
  obtain rfl := hJ Γ u hu
  exact yields_pure ⟨θ, .refl _ θ, hθ, (Ty.subst_congr (by simp [h])).trans u.subst_var⟩

theorem Complete.follows {act : Infer Ty} {J : Env → Ty → Prop} (h : Complete act J) (g : Grows act)
    (hc : s.Consistent D) (hθ : Solves θ s.equations) (hΓ : s.env.Includes θ Γ) (hu : J Γ u) :
    Yields act s fun t s' => ∃ η, Follows D s θ s' η ∧ s'.Knows D t ∧ t.subst η = u := by
  refine (h D s θ Γ u hc hθ hΓ hu).imp fun t s' hok ⟨η, hagree, hsolve, ht⟩ => ?_
  obtain ⟨hext, hk⟩ := g D s s' t hc hok
  exact ⟨η, ⟨hext, hagree, hsolve⟩, hk, ht⟩

theorem fresh_follows (hc : s.Consistent D) (hθ : Solves θ s.equations) (u : Ty) :
    Yields fresh s fun t s' => ∃ η, Follows D s θ s' η ∧ s'.Knows D t ∧ t.subst η = u := by
  refine (yields_fresh s).imp fun t s' hok _ => ?_
  obtain ⟨hext, hk⟩ := fresh_grows D s s' t hc hok
  obtain ⟨hroom, rfl, rfl⟩ := fresh_ok.1 hok
  have hagree : Agree s.next (fun v => if v = ⟨s.next⟩ then u else θ v) θ := by
    intro v hv
    refine if_neg ?_
    rintro rfl
    exact absurd (hv hroom) (Nat.lt_irrefl _)
  exact ⟨_, ⟨hext, hagree, hagree.solves hc hθ⟩, hk, by simp [Ty.subst]⟩

theorem instantiate_complete (hc : s.Consistent D) (hθ : Solves θ s.equations)
    (hσ : ∀ v ∈ σ.freeVars, Taken s.next v) (ρ : TyVar → Ty) :
    Yields (instantiate σ) s fun t s' => ∃ η, Agree s.next η θ ∧ Solves η s'.equations ∧
      t.subst η = σ.specialize ρ θ := by
  refine (yields_instantiate σ s).imp fun t s' hok _ => ?_
  obtain ⟨f, m, rfl, rfl, hm, hrange, hinj⟩ := instantiate_ok hok
  obtain ⟨η, hnew, hold⟩ := exists_extension hinj ρ θ
  have hagree : Agree s.next η θ := by
    intro v hv
    refine hold v fun w hw hfw => ?_
    obtain ⟨hle, hlt⟩ := hrange w hw
    have := hv (by omega)
    rw [hfw] at hle
    omega
  refine ⟨η, hagree, hagree.solves hc hθ, ?_⟩
  rw [Scheme.subst_specialize]
  refine Ty.subst_congr fun v hv => ?_
  split
  · next hq => exact hnew v hq
  · next hq => exact hagree v (hσ v (Scheme.mem_freeVars.2 ⟨hv, hq⟩))

theorem ident_complete : Complete (ident x) (HasType.Node p · (.ident x) ·) := by
  rintro D s θ Γ u hc hθ hΓ ⟨τ, hτ, hu⟩
  obtain ⟨σ, hx⟩ := Env.mem_iff_exists.1 ((hΓ.mem_iff x).2 (Env.mem_iff_exists.2 ⟨τ, hτ⟩))
  obtain ⟨ρ, rfl⟩ := hΓ.instances x σ τ hx hτ u hu
  refine (yields_get s).bind ?_
  rintro _ _ ⟨rfl, rfl⟩
  rw [hx]
  exact instantiate_complete hc hθ
    (fun v hv => (hc.env_known v (Env.mem_freeVars.2 ⟨x, σ, hx, hv⟩)).1) ρ

theorem lambda_complete {body : ExprId} (hbody : Complete (go body) (HasType p · body ·)) :
    Complete (lambda go x body) (HasType.Node p · (.lambda x body) ·) := by
  rintro D s θ Γ _ hc hθ hΓ ⟨a', b', rfl, hb'⟩
  refine (fresh_follows hc hθ a').bind fun a s₁ ⟨η₁, hη₁, ha, ha'⟩ => ?_
  have hin := hη₁.grown.consistent.insert_mono x ha
  have hΓ₁ : Env.Includes η₁ (s₁.env.insert x (.mono a)) (Γ.insert x (.mono a')) :=
    (hη₁.includes hc hΓ).insert fun t ht => ⟨.var, by simpa [ha'] using ht⟩
  refine (yields_withBinding (hbody D _ η₁ _ b' hin hη₁.solves hΓ₁ hb')).bind ?_
  rintro b _ ⟨s₂, ⟨η₂, hagree, hsolve, rfl⟩, rfl⟩
  refine yields_pure ⟨η₂, hη₁.agree.trans hη₁.grown.next_le hagree, hsolve, ?_⟩
  rw [Ty.subst, hagree.subst_eq ha, ha']

theorem apply_complete {func arg : ExprId} (gfunc : Grows (go func)) (garg : Grows (go arg))
    (hfunc : Complete (go func) (HasType p · func ·))
    (harg : Complete (go arg) (HasType p · arg ·)) :
    Complete (apply go func arg) (HasType.Node p · (.apply func arg) ·) := by
  rintro D s θ Γ u hc hθ hΓ ⟨a', hf', ha'⟩
  refine (hfunc.follows gfunc hc hθ hΓ hf').bind fun f s₁ ⟨η₁, h₁, hf, hfe⟩ => ?_
  have hc₁ := h₁.grown.consistent
  have hΓ₁ := h₁.includes hc hΓ
  refine (harg.follows garg hc₁ h₁.solves hΓ₁ ha').bind fun a s₂ ⟨η₂, h₂, ha, hae⟩ => ?_
  refine (fresh_follows h₂.grown.consistent h₂.solves u).bind fun r s₃ ⟨η₃, h₃, _, hre⟩ => ?_
  refine (yields_constrain f (.fn a r) s₃).bind ?_
  rintro _ _ rfl
  refine yields_pure ⟨η₃, ((h₁.trans h₂).trans h₃).agree, solves_push.2 ⟨h₃.solves, ?_⟩, hre⟩
  rw [Ty.subst, (h₂.trans h₃).agree.subst_eq hf, h₃.agree.subst_eq ha, hfe, hae, hre]

/-- Every type that the environment allows after generalizing is one that the inferred scheme
allows. -/
theorem generalize_complete (hc : s.Consistent D) (hθ : Solves θ s.equations)
    (hΓ : s.env.Includes θ Γ) (hok : generalize t s = .ok σ s')
    (hu : (Γ.generalize (t.subst θ)).Instance u) : ∃ ρ, u = σ.specialize ρ θ := by
  obtain ⟨hsolve, hσ⟩ := generalize_ok.1 hok
  have hext := solvePending_grows hc hsolve
  have hfactors := ((solves_solvePending hc hsolve).2 θ).1 hθ
  obtain ⟨ρ, rfl⟩ := hu
  rw [Scheme.specialize, Env.generalize_ty, ← hfactors.apply t, Ty.subst_subst]
  refine ⟨fun v => (θ v).subst fun w => if w ∈ (Γ.generalize ((s'.solution.apply t).subst θ)).vars
    then ρ w else .var w, ?_⟩
  rw [Scheme.specialize, hσ, Env.generalize_ty]
  refine Ty.subst_congr fun v hv => ?_
  split
  · rfl
  · next hq =>
    have hfree : v ∈ (s'.solution.applyEnv s'.env).freeVars := by
      by_contra hn
      exact hq (Env.mem_vars_generalize.2 ⟨hv, hn⟩)
    obtain ⟨w, hw, hvw⟩ := hext.consistent.mem_freeVars_solution.1 hfree
    rw [hext.env_eq] at hw
    refine (Ty.subst_congr fun z hz => if_neg fun hmem => ?_).trans (θ v).subst_var
    refine (Env.mem_vars_generalize.1 hmem).2 (hΓ.mem_freeVars hw ?_)
    rw [← hfactors w]
    exact Ty.mem_occurrences_subst.2 ⟨v, hvw, hz⟩

theorem letIn_complete {value body : ExprId} (gvalue : Grows (go value))
    (hvalue : Complete (go value) (HasType p · value ·))
    (hbody : Complete (go body) (HasType p · body ·)) :
    Complete (letIn go x value body) (HasType.Node p · (.letIn x value body) ·) := by
  rintro D s θ Γ u hc hθ hΓ ⟨a', ha', hb'⟩
  refine (hvalue.follows gvalue hc hθ hΓ ha').bind fun a s₁ ⟨η₁, h₁, ha, hae⟩ => ?_
  have hc₁ := h₁.grown.consistent
  have hΓ₁ := h₁.includes hc hΓ
  refine (yields_generalize hc₁ h₁.solves a).bind fun σ s₂ hok => ?_
  obtain ⟨hext₂, hin⟩ := generalize_grows hc₁ ha hok x
  have hsolves : Solves η₁ s₂.equations := by
    rw [(solves_solvePending hc₁ (generalize_ok.1 hok).1).1]
    exact h₁.solves
  -- the derived value type is only one instance of the inferred one, so its scheme allows less
  have hΓ₂ : Env.Includes η₁ (s₂.env.insert x σ) (Γ.insert x (Γ.generalize a')) := by
    rw [hext₂.env_eq]
    refine hΓ₁.insert fun t ht => generalize_complete hc₁ h₁.solves hΓ₁ hok ?_
    rwa [hae]
  refine (yields_withBinding (hbody _ _ η₁ _ u hin hsolves hΓ₂ hb')).imp ?_
  rintro t _ - ⟨s₃, ⟨η₂, hagree, hsolve, ht⟩, rfl⟩
  exact ⟨η₂, h₁.agree.trans (h₁.grown.trans hext₂).next_le hagree, hsolve, ht⟩

theorem ternary_complete {cond thenBranch elseBranch : ExprId} (gthen : Grows (go thenBranch))
    (gcond : Grows (go cond)) (gelse : Grows (go elseBranch))
    (hthen : Complete (go thenBranch) (HasType p · thenBranch ·))
    (hcond : Complete (go cond) (HasType p · cond ·))
    (helse : Complete (go elseBranch) (HasType p · elseBranch ·)) :
    Complete (ternary go cond thenBranch elseBranch)
      (HasType.Node p · (.ternary cond thenBranch elseBranch) ·) := by
  rintro D s θ Γ u hc hθ hΓ ⟨hc', ht', he'⟩
  refine (hthen.follows gthen hc hθ hΓ ht').bind fun t s₁ ⟨η₁, h₁, ht, hte⟩ => ?_
  have hc₁ := h₁.grown.consistent
  have hΓ₁ := h₁.includes hc hΓ
  refine (hcond.follows gcond hc₁ h₁.solves hΓ₁ hc').bind fun c s₂ ⟨η₂, h₂, hb, hbe⟩ => ?_
  have hc₂ := h₂.grown.consistent
  have hΓ₂ := h₂.includes hc₁ hΓ₁
  refine (helse.follows gelse hc₂ h₂.solves hΓ₂ he').bind fun e s₃ ⟨η₃, h₃, _, hee⟩ => ?_
  have ht₃ : t.subst η₃ = u := by rw [(h₂.trans h₃).agree.subst_eq ht, hte]
  refine (yields_constrain c .bool s₃).bind ?_
  rintro _ s₄ rfl
  refine (yields_constrain e t _).bind ?_
  rintro _ _ rfl
  refine yields_pure ⟨η₃, ((h₁.trans h₂).trans h₃).agree, ?_, ht₃⟩
  refine solves_push.2 ⟨solves_push.2 ⟨h₃.solves, ?_⟩, ?_⟩
  · rw [h₃.agree.subst_eq hb, hbe, Ty.subst]
  · rw [hee, ht₃]

theorem elements_complete {ids : List ExprId} (gids : ∀ id ∈ ids, Grows (go id))
    (hids : ∀ id ∈ ids, Complete (go id) (HasType p · id ·)) {us : List Ty}
    (hc : s.Consistent D) (hθ : Solves θ s.equations) (hΓ : s.env.Includes θ Γ)
    (hus : HasType.Elements p Γ ids us) :
    Yields (elements go ids) s fun ts s' => ∃ η, Agree s.next η θ ∧ Solves η s'.equations ∧
      ts.map (Ty.subst η) = us := by
  induction hus generalizing s θ with
  | nil => exact yields_pure ⟨θ, .refl _ θ, hθ, rfl⟩
  | @cons id u ids us hu hus ih =>
    obtain ⟨gid, gids⟩ := List.forall_mem_cons.1 gids
    obtain ⟨hid, hids⟩ := List.forall_mem_cons.1 hids
    refine (hid.follows gid hc hθ hΓ hu).bind fun t s₁ ⟨η₁, h₁, ht, hte⟩ => ?_
    refine (ih gids hids h₁.grown.consistent h₁.solves (h₁.includes hc hΓ)).bind ?_
    rintro ts s₂ ⟨η₂, hagree, hsolve, rfl⟩
    refine yields_pure ⟨η₂, h₁.agree.trans h₁.grown.next_le hagree, hsolve, ?_⟩
    rw [List.map_cons, hagree.subst_eq ht, hte]

theorem tuple_complete {r : ExprRange}
    (gids : ∀ ids, p.table.getList r = .ok ids → ∀ id ∈ ids, Grows (go id))
    (hids : ∀ ids, p.table.getList r = .ok ids →
      ∀ id ∈ ids, Complete (go id) (HasType p · id ·)) :
    Complete (tuple go p.table r) (HasType.Node p · (.tuple r) ·) := by
  rintro D s θ Γ _ hc hθ hΓ ⟨ids, us, hlist, rfl, hus⟩
  refine (yields_ofFault hlist s).bind ?_
  rintro _ _ ⟨rfl, rfl⟩
  refine (elements_complete (gids _ hlist) (hids _ hlist) hc hθ hΓ hus).bind ?_
  rintro ts s₁ ⟨η, hagree, hsolve, rfl⟩
  exact yields_pure ⟨η, hagree, hsolve, by simp [Ty.subst]⟩

theorem node_complete {e : Expr} (gcs : ∀ cs, p.table.children e = .ok cs → ∀ c ∈ cs, Grows (go c))
    (hcs : ∀ cs, p.table.children e = .ok cs → ∀ c ∈ cs, Complete (go c) (HasType p · c ·))
    (hm : ∀ receiver m, e ≠ .member receiver m) :
    Complete (node go p e) (HasType.Node p · e ·) := by
  cases e with
  | bool b => exact complete_pure rfl fun _ _ h => h
  | int i => exact complete_pure rfl fun _ _ h => h
  | float bits => exact complete_pure rfl fun _ _ h => h
  | str n => exact complete_pure rfl fun _ _ h => h
  | ident x => exact ident_complete
  | lambda x body => exact lambda_complete (hcs _ rfl body (by simp))
  | apply func arg =>
    exact apply_complete (gcs _ rfl func (by simp)) (gcs _ rfl arg (by simp))
      (hcs _ rfl func (by simp)) (hcs _ rfl arg (by simp))
  | letIn x value body =>
    exact letIn_complete (gcs _ rfl value (by simp)) (hcs _ rfl value (by simp))
      (hcs _ rfl body (by simp))
  | ternary c t e =>
    exact ternary_complete (gcs _ rfl t (by simp)) (gcs _ rfl c (by simp)) (gcs _ rfl e (by simp))
      (hcs _ rfl t (by simp)) (hcs _ rfl c (by simp)) (hcs _ rfl e (by simp))
  | member receiver m => exact absurd rfl (hm receiver m)
  | tuple r => exact tuple_complete gcs hcs

end Infer

namespace Program

variable {p : Program} {id : ExprId}

theorem closedMembers_of_memberFree (h : p.table.MemberFree id) : p.ClosedMembers id :=
  fun c receiver m hc he => absurd he (h c hc receiver m)

theorem inferWithin_complete {n : Nat} (hn : p.table.Nested n id) (hm : p.table.MemberFree id) :
    Infer.Complete (p.inferWithin n id) (HasType p · id ·) := by
  induction n generalizing id with
  | zero => exact hn.elim
  | succ n ih =>
    obtain ⟨e, cs, he, hcs, hns⟩ := hn
    have hchild : ∀ cs', p.table.children e = .ok cs' →
        ∀ c ∈ cs', p.table.Nested n c ∧ p.table.MemberFree c := by
      intro cs' hcs' c hc
      obtain rfl := Except.ok.inj (hcs.symm.trans hcs')
      exact ⟨hns c hc, hm.child (ExprTable.child_of_get he hcs hc)⟩
    intro D s θ Γ u hc hθ hΓ hu
    refine (Infer.yields_ofFault he s).bind ?_
    rintro _ _ ⟨rfl, rfl⟩
    refine Infer.node_complete ?_ ?_ ?_ D _ θ Γ u hc hθ hΓ ((HasType.iff_node he).1 hu)
    · exact fun cs' hcs' c hc =>
        inferWithin_grows n (closedMembers_of_memberFree (hchild cs' hcs' c hc).2)
    · exact fun cs' hcs' c hc => ih (hchild cs' hcs' c hc).1 (hchild cs' hcs' c hc).2
    · rintro receiver m rfl
      exact hm id .refl receiver m he

variable {env : Env}

/-- For every type that the expression has in an instance of the environment, the run succeeds and
some map through which its solution factors gives that type. -/
theorem infer_yields (hwf : p.table.WellFormed id) (hm : p.table.MemberFree id) (henv : env.Unmixed)
    {θ : Substitution} {u : Ty} (hu : HasType p (θ.applyEnv env) id u) :
    Infer.Yields (p.infer id) (p.start env) fun t s => ∃ η : TyVar → Ty,
      (∀ v ∈ env.freeVars, η v = θ.image v) ∧ s.solution.Factors η ∧ t.subst η = u := by
  have hn : p.table.Nested p.depth id := hwf.nested.mono (Nat.le_add_left _ _)
  have hg := inferWithin_grows p.depth (closedMembers_of_memberFree hm)
  have hc := p.start_consistent henv
  refine (Infer.yields_modify State.beginRun _).bind ?_
  rintro _ _ rfl
  refine ((inferWithin_complete hn hm).follows hg hc (solves_nil _) (henv.includes θ) hu).bind ?_
  rintro t s₁ ⟨η, h₁, -, ht⟩
  have hc₁ := h₁.grown.consistent
  refine (Infer.yields_resolve hc₁ h₁.solves t).imp fun r s₂ hok _ => ?_
  obtain ⟨hsolve, rfl⟩ := Infer.resolve_ok.1 hok
  have hfactors := ((Infer.solves_solvePending hc₁ hsolve).2 η).1 h₁.solves
  exact ⟨η, fun v hv => h₁.agree v (hc.env_known v hv).1, hfactors, by rw [hfactors.apply, ht]⟩

/-- Without member access inference finds a type of which every type that the expression has in an
instance of the environment is an instance, and it fails only if there is no such type. -/
theorem infer_complete (hwf : p.table.WellFormed id) (hm : p.table.MemberFree id)
    (henv : env.Unmixed) (hroom : ∀ s, p.infer id (p.start env) ≠ .error (.fault .overflow) s) :
    (∀ (θ : Substitution) (u : Ty), HasType p (θ.applyEnv env) id u →
      ∃ t s, p.infer id (p.start env) = .ok t s ∧ ∃ ψ : Substitution, u = ψ.apply t ∧
        ∀ v ∈ env.freeVars, θ.apply (.var v) = ψ.apply (s.solution.apply (.var v))) ∧
      ∀ e s, p.infer id (p.start env) = .error e s →
        ∀ (θ : Substitution) (u : Ty), ¬HasType p (θ.applyEnv env) id u := by
  refine ⟨fun θ u hu => ?_, fun e s herr θ u hu => ?_⟩
  · obtain ⟨t, s, hok, η, hfree, hfactors, rfl⟩ := (infer_yields hwf hm henv hu).ok hroom
    obtain ⟨ψ, hψ⟩ := Substitution.exists_image_eq η
      (t.occurrences ++ env.freeVars.toList.flatMap fun v => (s.solution.image v).occurrences)
    obtain ⟨hψt, hψenv⟩ := List.forall_mem_append.1 hψ
    refine ⟨t, s, hok, ψ, Ty.subst_congr fun v hv => (hψt v hv).symm, fun v hv => ?_⟩
    have himg : ∀ w ∈ (s.solution.image v).occurrences, ψ.image w = η w := fun w hw =>
      hψenv w (List.mem_flatMap.2 ⟨v, Std.ExtTreeSet.mem_toList.2 hv, hw⟩)
    calc
      θ.image v = η v := (hfree v hv).symm
      _ = (s.solution.image v).subst η := (hfactors v).symm
      _ = (s.solution.image v).subst ψ.image := (Ty.subst_congr himg).symm
  · obtain ⟨t, s', hok, -⟩ := (infer_yields hwf hm henv hu).ok hroom
    rw [herr] at hok
    cases hok

/-- `let f = λ y, y in f f x`. -/
def selfApplyProgram : Program where
  table := ⟨#[.ident ⟨5⟩, .lambda ⟨5⟩ ⟨0⟩, .ident ⟨6⟩, .apply ⟨2⟩ ⟨2⟩, .ident ⟨8⟩, .apply ⟨3⟩ ⟨4⟩,
    .letIn ⟨6⟩ ⟨1⟩ ⟨5⟩], #[]⟩
  declarations := ∅

theorem selfApply_hasType {Γ : Env} {a : Ty} (hx : Γ[(⟨8⟩ : Name)]? = some (.mono a))
    (h : ⟨0⟩ ∉ Γ.freeVars) : HasType selfApplyProgram Γ ⟨6⟩ a := by
  have hf : ∀ b : Ty, (Γ.generalize (.fn (.var ⟨0⟩) (.var ⟨0⟩))).Instance (.fn b b) := by
    intro b
    have hq : ⟨0⟩ ∈ (Γ.generalize (.fn (.var ⟨0⟩) (.var ⟨0⟩))).vars :=
      Env.mem_vars_generalize.2 ⟨by simp, h⟩
    exact ⟨fun _ => b, by simp [Scheme.specialize, Ty.subst, hq]⟩
  have huse : ∀ b, HasType selfApplyProgram
      (Γ.insert ⟨6⟩ (Γ.generalize (.fn (.var ⟨0⟩) (.var ⟨0⟩)))) ⟨2⟩ (.fn b b) := fun b =>
    .ident rfl Std.ExtTreeMap.getElem?_insert_self (hf b)
  refine .letIn rfl (.lambda rfl ?_) (.apply rfl (.apply rfl (huse (.fn a a)) (huse a)) ?_)
  · exact .ident rfl Std.ExtTreeMap.getElem?_insert_self (Scheme.instance_mono.2 rfl)
  · refine .ident (x := ⟨8⟩) (σ := .mono a) rfl ?_ (Scheme.instance_mono.2 rfl)
    simpa [Std.ExtTreeMap.getElem?_insert] using hx

theorem infer_complete_selfApply :
    selfApplyProgram.table.WellFormed ⟨6⟩ ∧ selfApplyProgram.table.MemberFree ⟨6⟩ ∧
      (Env.unknown ⟨8⟩ ⟨0⟩).Unmixed ∧
      (∀ s, selfApplyProgram.infer ⟨6⟩ (selfApplyProgram.start (.unknown ⟨8⟩ ⟨0⟩)) ≠
        .error (.fault .overflow) s) ∧
      HasType selfApplyProgram ((Substitution.singleton ⟨0⟩ .bool).applyEnv (.unknown ⟨8⟩ ⟨0⟩)) ⟨6⟩
        .bool ∧
      ∃ t s, selfApplyProgram.infer ⟨6⟩ (selfApplyProgram.start (.unknown ⟨8⟩ ⟨0⟩)) = .ok t s ∧
        ∃ ψ : Substitution, .bool = ψ.apply t ∧ ∀ v ∈ (Env.unknown ⟨8⟩ ⟨0⟩).freeVars,
          (Substitution.singleton ⟨0⟩ .bool).apply (.var v) =
            ψ.apply (s.solution.apply (.var v)) := by
  have hn : selfApplyProgram.table.Nested 4 ⟨6⟩ := by decide
  have hm : selfApplyProgram.table.MemberFree ⟨6⟩ := by
    intro c _ receiver m he
    have hmem := Array.mem_of_getElem? (ExprTable.get_eq_ok.1 he)
    simp [selfApplyProgram] at hmem
  have henv := Env.unmixed_unknown ⟨8⟩ ⟨0⟩
  have htype : selfApplyProgram.typeOf (.unknown ⟨8⟩ ⟨0⟩) ⟨6⟩ = .ok (.var ⟨5⟩) := by
    rw [typeOf, infer_eq_of_nested hn (by decide)]
    cbv
  have hroom : ∀ s, selfApplyProgram.infer ⟨6⟩ (selfApplyProgram.start (.unknown ⟨8⟩ ⟨0⟩)) ≠
      .error (.fault .overflow) s := by
    obtain ⟨s', hok⟩ := typeOf_ok.1 htype
    simp [hok]
  have hu : HasType selfApplyProgram
      ((Substitution.singleton ⟨0⟩ .bool).applyEnv (.unknown ⟨8⟩ ⟨0⟩)) ⟨6⟩ .bool := by
    apply selfApply_hasType
    · rw [Substitution.getElem?_applyEnv, Env.unknown, Std.ExtTreeMap.getElem?_insert_self]
      simp [Substitution.applyScheme, Scheme.subst, Scheme.mono, Ty.subst,
        Substitution.image_singleton]
    · intro hfree
      obtain ⟨u, -, hu⟩ := Substitution.exists_of_mem_freeVars_applyEnv hfree
      rw [Substitution.image_singleton] at hu
      split at hu
      · simp at hu
      · next hne => exact hne (by simpa using hu)
  have hwf := hn.wellFormed
  exact ⟨hwf, hm, henv, hroom, hu, (infer_complete hwf hm henv hroom).1 _ _ hu⟩

end Program
end TypeInference

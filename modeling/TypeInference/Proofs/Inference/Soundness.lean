import TypeInference.Proofs.Inference.Growth
import TypeInference.Proofs.Inference.Levels

/-! Inference is sound: what it returns can be derived by the typing rules. Every solution of the
equations that a run has recorded turns the inferred type into one that the expression has, in every
environment that allows what the run has used names for. The solution found is one of them. -/
namespace TypeInference

open State

theorem Ty.nominalName?_subst {t : Ty} {n : Name} (θ : TyVar → Ty) (h : t.nominalName? = some n) :
    (t.subst θ).nominalName? = some n := by
  cases t <;> simp_all [nominalName?, subst]

theorem TyVar.exists_bound (vs : List TyVar) : ∃ n : Nat, ∀ v ∈ vs, v.id < n := by
  induction vs with
  | nil => exact ⟨0, nofun⟩
  | cons w vs ih =>
    obtain ⟨n, hn⟩ := ih
    refine ⟨max n (w.id + 1), List.forall_mem_cons.2 ⟨by omega, fun v hv => ?_⟩⟩
    have := hn v hv
    omega

namespace Env

/-- Every use of a name that the first environment allows under `θ` is one that the second
allows. -/
def Covers (θ : TyVar → Ty) (env Γ : Env) : Prop :=
  ∀ (x : Name) (σ : Scheme), env[x]? = some σ →
    ∃ τ, Γ[x]? = some τ ∧ ∀ ρ, τ.Instance (σ.specialize ρ θ)

variable {θ η : TyVar → Ty} {env Γ : Env}

theorem Covers.insert (h : Covers θ env Γ) {x : Name} {σ τ : Scheme}
    (hσ : ∀ ρ, τ.Instance (σ.specialize ρ θ)) : Covers θ (env.insert x σ) (Γ.insert x τ) := by
  intro y σ' hy
  rw [Std.ExtTreeMap.getElem?_insert] at hy ⊢
  split at hy
  · next hxy =>
    obtain rfl := Option.some.inj hy
    exact ⟨τ, if_pos hxy, hσ⟩
  · next hxy =>
    obtain ⟨τ', hτ', hinst⟩ := h y σ' hy
    exact ⟨τ', by rw [if_neg hxy, hτ'], hinst⟩

theorem Covers.congr (h : Covers θ env Γ) (he : ∀ v ∈ env.freeVars, η v = θ v) :
    Covers η env Γ := by
  intro x σ hx
  obtain ⟨τ, hτ, hinst⟩ := h x σ hx
  refine ⟨τ, hτ, fun ρ => ?_⟩
  rw [Scheme.specialize_congr fun v hv => he v (mem_freeVars.2 ⟨x, σ, hx, hv⟩)]
  exact hinst ρ

theorem Unmixed.covers (h : env.Unmixed) (S : Substitution) :
    Covers S.image env (S.applyEnv env) := by
  intro x σ hx
  refine ⟨S.applyScheme σ, by rw [Substitution.getElem?_applyEnv, hx]; rfl, fun ρ => ?_⟩
  exact (Scheme.instance_subst (h x σ hx)).2 ⟨ρ, rfl⟩

/-- The listed variables of a type can be sent to variables that the environment does not know, so
that generalizing lets them stand for anything again. -/
theorem exists_instance_generalize (Γ : Env) (u : Ty) (vs : List TyVar) (θ : TyVar → Ty) :
    ∃ η : TyVar → Ty, (∀ v, v ∉ vs → η v = θ v) ∧
      ∀ ρ : TyVar → Ty,
        (Γ.generalize (u.subst η)).Instance (u.subst fun v => if v ∈ vs then ρ v else θ v) := by
  obtain ⟨n, hn⟩ :=
    TyVar.exists_bound (Γ.freeVars.toList ++ u.occurrences.flatMap fun v => (θ v).occurrences)
  obtain ⟨hΓ, hθ⟩ := List.forall_mem_append.1 hn
  refine ⟨fun v => if v ∈ vs then .var ⟨v.id + n⟩ else θ v, fun v hv => if_neg hv, fun ρ => ?_⟩
  refine ⟨fun w => if w.id < n then .var w else ρ ⟨w.id - n⟩, ?_⟩
  rw [Scheme.specialize, generalize_ty, Ty.subst_subst]
  refine Ty.subst_congr fun v hv => ?_
  by_cases hvs : v ∈ vs
  · have hhigh : ¬v.id + n < n := by omega
    have hnew : ⟨v.id + n⟩ ∉ Γ.freeVars := fun h => hhigh (hΓ _ (Std.ExtTreeSet.mem_toList.2 h))
    have hq : ⟨v.id + n⟩ ∈
        (Γ.generalize (u.subst fun v => if v ∈ vs then .var ⟨v.id + n⟩ else θ v)).vars :=
      mem_vars_generalize.2 ⟨Ty.mem_occurrences_subst.2 ⟨v, hv, by simp [hvs]⟩, hnew⟩
    simp [hvs, Ty.subst, hq, hhigh]
  · have hlow : ∀ w ∈ (θ v).occurrences, w.id < n :=
      fun w hw => hθ w (List.mem_flatMap.2 ⟨v, hv, hw⟩)
    simp only [hvs, if_false]
    refine (θ v).subst_var.symm.trans (Ty.subst_congr fun w hw => ?_)
    simp [hlow w hw]

end Env

namespace Infer

/-- Every solution of the equations turns the result into a type of which `J` holds, in every
environment that covers the one of the run. -/
def Sound (act : Infer Ty) (J : Env → Ty → Prop) : Prop :=
  ∀ (D : TyVar → Prop) (s s' : State) (t : Ty), s.Consistent D → act s = .ok t s' →
    ∀ (θ : TyVar → Ty) (Γ : Env), Solves θ s'.equations → s.env.Covers θ Γ → J Γ (t.subst θ)

variable {p : Program} {go : ExprId → Infer Ty} {D : TyVar → Prop} {s s' : State} {t : Ty}
  {σ : Scheme} {θ : TyVar → Ty} {x m : Name}

theorem sound_pure {J : Env → Ty → Prop} (h : t.occurrences = []) (hJ : ∀ Γ, J Γ t) :
    Sound (pure t) J := by
  intro D s s' u hc hok θ Γ hθ hΓ
  obtain ⟨rfl, -⟩ := pure_ok.1 hok
  have ht : t.subst θ = t := (Ty.subst_congr (by simp [h])).trans t.subst_var
  rw [ht]
  exact hJ Γ

theorem ident_sound : Sound (ident x) (HasType.Node p · (.ident x) ·) := by
  intro D s s' t hc hok θ Γ hθ hΓ
  obtain ⟨σ, hx, hok⟩ := ident_ok hok
  obtain ⟨f, m, -, rfl, -⟩ := instantiate_ok hok
  obtain ⟨τ, hτ, hinst⟩ := hΓ x σ hx
  refine ⟨τ, hτ, ?_⟩
  rw [Scheme.subst_specialize]
  exact hinst _

theorem lambda_sound {body : ExprId} (hbody : Sound (go body) (HasType p · body ·)) :
    Sound (lambda go x body) (HasType.Node p · (.lambda x body) ·) := by
  intro D s s' t hc hok θ Γ hθ hΓ
  obtain ⟨a, b, s₁, h₁, h₂, rfl⟩ := lambda_ok hok
  obtain ⟨s₂, hb, rfl⟩ := withBinding_ok.1 h₂
  obtain ⟨hext₁, ha⟩ := fresh_grows D s s₁ a hc h₁
  refine ⟨a.subst θ, b.subst θ, rfl, ?_⟩
  refine hbody D _ s₂ b (hext₁.consistent.insert_mono x ha) hb θ _ hθ ?_
  rw [hext₁.env_eq]
  exact hΓ.insert fun ρ => by simp

theorem apply_sound {func arg : ExprId} (gfunc : Grows (go func)) (garg : Grows (go arg))
    (hfunc : Sound (go func) (HasType p · func ·))
    (harg : Sound (go arg) (HasType p · arg ·)) :
    Sound (apply go func arg) (HasType.Node p · (.apply func arg) ·) := by
  intro D s s' t hc hok θ Γ hθ hΓ
  obtain ⟨f, a, s₁, s₂, s₃, h₁, h₂, h₃, rfl⟩ := apply_ok hok
  obtain ⟨hext₁, -⟩ := gfunc D s s₁ f hc h₁
  obtain ⟨hext₂, -⟩ := garg D s₁ s₂ a hext₁.consistent h₂
  obtain ⟨hext₃, -⟩ := fresh_grows D s₂ s₃ t hext₂.consistent h₃
  obtain ⟨hθ₃, heq⟩ := solves_push.1 hθ
  have hθ₂ := hext₃.solves hθ₃
  have hf := hfunc D s s₁ f hc h₁ θ Γ (hext₂.solves hθ₂) hΓ
  have ha := harg D s₁ s₂ a hext₁.consistent h₂ θ Γ hθ₂ (by rwa [hext₁.env_eq])
  rw [heq] at hf
  exact ⟨a.subst θ, hf, ha⟩

/-- Every solution of the value's equations after generalizing comes from one in which the
quantified variables are chosen so that the environment does not know them. -/
theorem generalize_sound (hc : s.Consistent D) (hok : generalize t s = .ok σ s')
    (hθ : Solves θ s'.equations) (Γ : Env) :
    ∃ η : TyVar → Ty, Solves η s.equations ∧ (∀ v ∈ s.env.freeVars, η v = θ v) ∧
      ∀ ρ, (Γ.generalize (t.subst η)).Instance (σ.specialize ρ θ) := by
  obtain ⟨hsolve, hσ⟩ := generalize_ok.1 hok
  have hext := solvePending_grows hc hsolve
  have hfactors : s'.solution.Factors θ := by
    obtain ⟨heqs, hiff⟩ := solves_solvePending hc hsolve
    exact (hiff θ).1 (heqs ▸ hθ)
  obtain ⟨η, hη, hinst⟩ := Γ.exists_instance_generalize (s'.solution.apply t) σ.vars θ
  have hidem := hext.consistent.idempotent.factors
  refine ⟨fun v => (s'.solution.image v).subst η, ?_, ?_, fun ρ => ?_⟩
  · refine ((solves_solvePending hc hsolve).2 _).2 fun v => ?_
    rw [← Ty.subst_subst, hidem v]
  · intro v hv
    rw [← hfactors v]
    refine Ty.subst_congr fun w hw => hη w fun hq => ?_
    rw [hσ] at hq
    exact (Env.mem_vars_generalize.1 hq).2
      (hext.consistent.mem_freeVars_solution.2 ⟨v, hext.env_eq ▸ hv, hw⟩)
  · rw [Scheme.specialize, hσ, Env.generalize_ty, ← hσ, ← Ty.subst_subst]
    exact hinst ρ

theorem letIn_sound {value body : ExprId} (gvalue : Grows (go value))
    (hvalue : Sound (go value) (HasType p · value ·)) (gbody : Grows (go body))
    (hbody : Sound (go body) (HasType p · body ·)) :
    Sound (letIn go x value body) (HasType.Node p · (.letIn x value body) ·) := by
  intro D s s' t hc hok θ Γ hθ hΓ
  obtain ⟨a, σ, s₁, s₂, h₁, h₂, h₃⟩ := letIn_ok hok
  obtain ⟨s₃, hb, rfl⟩ := withBinding_ok.1 h₃
  obtain ⟨hext₁, ha⟩ := gvalue D s s₁ a hc h₁
  obtain ⟨hext₂, hin⟩ := generalize_grows hext₁.consistent ha h₂ x
  obtain ⟨hext₃, -⟩ := gbody _ _ s₃ t hin hb
  obtain ⟨η, hη, hfree, hinst⟩ := generalize_sound hext₁.consistent h₂ (hext₃.solves hθ) Γ
  rw [hext₁.env_eq] at hfree
  refine ⟨a.subst η, hvalue D s s₁ a hc h₁ η Γ hη (hΓ.congr hfree), ?_⟩
  refine hbody _ _ s₃ t hin hb θ _ hθ ?_
  rw [hext₂.env_eq, hext₁.env_eq]
  exact hΓ.insert hinst

theorem ternary_sound {cond thenBranch elseBranch : ExprId} (gthen : Grows (go thenBranch))
    (gcond : Grows (go cond)) (gelse : Grows (go elseBranch))
    (hthen : Sound (go thenBranch) (HasType p · thenBranch ·))
    (hcond : Sound (go cond) (HasType p · cond ·))
    (helse : Sound (go elseBranch) (HasType p · elseBranch ·)) :
    Sound (ternary go cond thenBranch elseBranch)
      (HasType.Node p · (.ternary cond thenBranch elseBranch) ·) := by
  intro D s s' t hc hok θ Γ hθ hΓ
  obtain ⟨c, e, s₁, s₂, s₃, h₁, h₂, h₃, rfl⟩ := ternary_ok hok
  obtain ⟨hext₁, -⟩ := gthen D s s₁ t hc h₁
  obtain ⟨hext₂, -⟩ := gcond D s₁ s₂ c hext₁.consistent h₂
  obtain ⟨hext₃, -⟩ := gelse D s₂ s₃ e hext₂.consistent h₃
  have hext₁₂ := hext₁.trans hext₂
  obtain ⟨hθ₄, heq⟩ :=
    (solves_push (s := { s₃ with constraints := s₃.constraints.push ⟨c, .bool⟩ })).1 hθ
  obtain ⟨hθ₃, hbool⟩ := solves_push.1 hθ₄
  have hθ₂ := hext₃.solves hθ₃
  have ht := hthen D s s₁ t hc h₁ θ Γ (hext₂.solves hθ₂) hΓ
  have hcb := hcond D s₁ s₂ c hext₁.consistent h₂ θ Γ hθ₂ (by rwa [hext₁.env_eq])
  have he := helse D s₂ s₃ e hext₂.consistent h₃ θ Γ hθ₃ (by rwa [hext₁₂.env_eq])
  rw [hbool] at hcb
  rw [heq] at he
  exact ⟨hcb, ht, he⟩

theorem elements_sound {ids : List ExprId} (gids : ∀ id ∈ ids, Grows (go id))
    (hids : ∀ id ∈ ids, Sound (go id) (HasType p · id ·)) {ts : List Ty} {Γ : Env}
    (hc : s.Consistent D) (hok : elements go ids s = .ok ts s') (hθ : Solves θ s'.equations)
    (hΓ : s.env.Covers θ Γ) : HasType.Elements p Γ ids (ts.map (Ty.subst θ)) := by
  induction ids generalizing s ts with
  | nil =>
    obtain ⟨rfl, rfl⟩ := elements_nil_ok.1 hok
    exact .nil
  | cons id ids ih =>
    obtain ⟨t, us, s₁, h₁, h₂, rfl⟩ := elements_cons_ok hok
    obtain ⟨gid, gids⟩ := List.forall_mem_cons.1 gids
    obtain ⟨hid, hids⟩ := List.forall_mem_cons.1 hids
    obtain ⟨hext₁, -⟩ := gid D s s₁ t hc h₁
    obtain ⟨hext₂, -⟩ := elements_grows gids hext₁.consistent h₂
    have ht := hid D s s₁ t hc h₁ θ Γ (hext₂.solves hθ) hΓ
    exact .cons ht (ih gids hids hext₁.consistent h₂ (by rwa [hext₁.env_eq]))

theorem tuple_sound {r : ExprRange}
    (gids : ∀ ids, p.table.getList r = .ok ids → ∀ id ∈ ids, Grows (go id))
    (hids : ∀ ids, p.table.getList r = .ok ids → ∀ id ∈ ids, Sound (go id) (HasType p · id ·)) :
    Sound (tuple go p.table r) (HasType.Node p · (.tuple r) ·) := by
  intro D s s' t hc hok θ Γ hθ hΓ
  obtain ⟨ids, ts, hlist, hts, rfl⟩ := tuple_ok hok
  refine ⟨ids, ts.map (Ty.subst θ), hlist, by simp [Ty.subst], ?_⟩
  exact elements_sound (gids ids hlist) (hids ids hlist) hc hts hθ hΓ

theorem resolve_sound {r : Ty} (hc : s.Consistent D) (hok : resolve t s = .ok r s')
    (hθ : Solves θ s'.equations) : r.subst θ = t.subst θ := by
  obtain ⟨hsolve, rfl⟩ := resolve_ok.1 hok
  obtain ⟨heqs, hiff⟩ := solves_solvePending hc hsolve
  exact ((hiff θ).1 (heqs ▸ hθ)).apply t

theorem member_sound {receiver : ExprId} (greceiver : Grows (go receiver))
    (hreceiver : Sound (go receiver) (HasType p · receiver ·))
    (hd : ∀ n σ, p.declarations.member? n m = some σ → σ.Closed) :
    Sound (member go p.declarations receiver m) (HasType.Node p · (.member receiver m) ·) := by
  intro D s s' t hc hok θ Γ hθ hΓ
  obtain ⟨u, r, n, σ, i, s₁, s₂, s₃, s₄, h₁, h₂, hn, hσ, h₃, h₄, rfl⟩ := member_ok hok
  obtain ⟨hext₁, -⟩ := greceiver D s s₁ u hc h₁
  obtain ⟨f, k, rfl, rfl, -⟩ := instantiate_ok h₃
  obtain ⟨-, -, rfl⟩ := fresh_ok.1 h₄
  obtain ⟨hθ, heq⟩ := solves_push.1 hθ
  have hθ₂ : Solves θ s₂.equations := hθ
  obtain ⟨hθ₁, hr⟩ : Solves θ s₁.equations ∧ r.subst θ = u.subst θ := by
    rcases h₂ with h₂ | ⟨rfl, rfl⟩
    · exact ⟨(resolve_grows hext₁.consistent h₂).solves hθ₂, resolve_sound hext₁.consistent h₂ hθ₂⟩
    · exact ⟨hθ₂, rfl⟩
  refine ⟨u.subst θ, n, σ, hreceiver D s s₁ u hc h₁ θ Γ hθ₁ hΓ, ?_, hσ, ?_⟩
  · rw [← hr]
    exact Ty.nominalName?_subst θ hn
  · rw [heq, Scheme.subst_specialize, (hd n σ hσ).specialize_eq]
    exact σ.instance_specialize _

theorem node_sound {e : Expr} (gcs : ∀ cs, p.table.children e = .ok cs → ∀ c ∈ cs, Grows (go c))
    (hcs : ∀ cs, p.table.children e = .ok cs → ∀ c ∈ cs, Sound (go c) (HasType p · c ·))
    (hm : ∀ receiver m, e = .member receiver m →
      ∀ n σ, p.declarations.member? n m = some σ → σ.Closed) :
    Sound (node go p e) (HasType.Node p · e ·) := by
  cases e with
  | bool b => exact sound_pure (t := .bool) rfl fun _ => rfl
  | int i => exact sound_pure (t := .int) rfl fun _ => rfl
  | float bits => exact sound_pure (t := .float) rfl fun _ => rfl
  | str n => exact sound_pure (t := .str) rfl fun _ => rfl
  | ident x => exact ident_sound
  | lambda x body => exact lambda_sound (hcs _ rfl body (by simp))
  | apply func arg =>
    exact apply_sound (gcs _ rfl func (by simp)) (gcs _ rfl arg (by simp))
      (hcs _ rfl func (by simp)) (hcs _ rfl arg (by simp))
  | letIn x value body =>
    exact letIn_sound (gcs _ rfl value (by simp)) (hcs _ rfl value (by simp))
      (gcs _ rfl body (by simp)) (hcs _ rfl body (by simp))
  | ternary c t e =>
    exact ternary_sound (gcs _ rfl t (by simp)) (gcs _ rfl c (by simp)) (gcs _ rfl e (by simp))
      (hcs _ rfl t (by simp)) (hcs _ rfl c (by simp)) (hcs _ rfl e (by simp))
  | member receiver m =>
    exact member_sound (gcs _ rfl receiver (by simp)) (hcs _ rfl receiver (by simp))
      (hm receiver m rfl)
  | tuple r => exact tuple_sound gcs hcs

end Infer

namespace Program

variable {p : Program} {id : ExprId}

theorem inferWithin_sound (n : Nat) (h : p.ClosedMembers id) :
    Infer.Sound (p.inferWithin n id) (HasType p · id ·) := by
  induction n generalizing id with
  | zero => exact fun _ _ _ _ _ hok => absurd hok nofun
  | succ n ih =>
    intro D s s' t hc hok θ Γ hθ hΓ
    obtain ⟨k, e, hk, he, hok⟩ := inferWithin_ok hok
    obtain rfl := Nat.succ.inj hk
    refine (HasType.iff_node he).2 (Infer.node_sound ?_ ?_ ?_ D s s' t hc hok θ Γ hθ hΓ)
    · exact fun cs hcs c hc => inferWithin_grows n (h.child (ExprTable.child_of_get he hcs hc))
    · exact fun cs hcs c hc => ih (h.child (ExprTable.child_of_get he hcs hc))
    · rintro receiver m rfl
      exact h id receiver m .refl he

/-- A type that inference returns is one that the expression has in the environment under the
solution found. -/
theorem infer_sound {env : Env} {t : Ty} {s : State} (henv : env.Unmixed)
    (hd : p.ClosedDeclarations) (hok : p.infer id (p.start env) = .ok t s) :
    HasType p (s.solution.applyEnv env) id t := by
  obtain ⟨u, s₁, hrun, hres⟩ := infer_ok hok
  obtain ⟨hsolve, rfl⟩ := Infer.resolve_ok.1 hres
  have hc := p.start_consistent henv
  have hm := hd.members id
  obtain ⟨hext, -⟩ := inferWithin_grows p.depth hm _ _ s₁ u hc hrun
  have hidem := (Infer.solvePending_grows hext.consistent hsolve).consistent.idempotent
  refine inferWithin_sound p.depth hm _ _ s₁ u hc hrun s.solution.image _ ?_
    (henv.covers s.solution)
  exact ((Infer.solves_solvePending hext.consistent hsolve).2 _).2 hidem.factors

/-- `let f = λ y, y in if x then (f 1).m else f`, where integers have a member `m : ∀ a, a → a`. -/
def memberProgram : Program where
  table := ⟨#[.ident ⟨5⟩, .lambda ⟨5⟩ ⟨0⟩, .ident ⟨6⟩, .int 1, .apply ⟨2⟩ ⟨3⟩, .member ⟨4⟩ ⟨7⟩,
    .ident ⟨8⟩, .ternary ⟨6⟩ ⟨5⟩ ⟨2⟩, .letIn ⟨6⟩ ⟨1⟩ ⟨7⟩], #[]⟩
  declarations := Declarations.declare ∅ .int ⟨7⟩ ⟨[⟨0⟩], .fn (.var ⟨0⟩) (.var ⟨0⟩)⟩

theorem infer_sound_member :
    (Env.unknown ⟨8⟩ ⟨0⟩).Unmixed ∧ memberProgram.ClosedDeclarations ∧
      ∃ s, memberProgram.infer ⟨8⟩ (memberProgram.start (.unknown ⟨8⟩ ⟨0⟩)) =
          .ok (.fn (.var ⟨4⟩) (.var ⟨4⟩)) s ∧
        HasType memberProgram (s.solution.applyEnv (.unknown ⟨8⟩ ⟨0⟩)) ⟨8⟩
          (.fn (.var ⟨4⟩) (.var ⟨4⟩)) := by
  have henv := Env.unmixed_unknown ⟨8⟩ ⟨0⟩
  have hd : memberProgram.ClosedDeclarations :=
    Declarations.closed_declare Declarations.closed_empty rfl
  have htype : memberProgram.typeOf (.unknown ⟨8⟩ ⟨0⟩) ⟨8⟩ = .ok (.fn (.var ⟨4⟩) (.var ⟨4⟩)) := by
    rw [typeOf, infer_eq_of_nested (n := 5) (by decide) (by decide)]
    cbv
  obtain ⟨s, hok⟩ := typeOf_ok.1 htype
  exact ⟨henv, hd, s, hok, infer_sound henv hd hok⟩

end Program
end TypeInference

import TypeInference.Proofs.Renaming.Runs

/-! The numbers of quantified variables. Two environments whose schemes differ only in the choice of
their quantified variables give an expression the same type, or the same error, if these variables
are kept apart from all that a run puts into schemes. A scheme without free variables needs no such
care. -/
namespace TypeInference

/-- The schemes differ only in the choice of their quantified variables. -/
def Scheme.AlphaEq (σ σ' : Scheme) : Prop := σ.Matches (fun v => v) σ'

def Env.AlphaEq (Γ Γ' : Env) : Prop := ∀ x : Name, Option.Rel Scheme.AlphaEq Γ[x]? Γ'[x]?

theorem Env.AlphaEq.freeVars_eq {Γ Γ' : Env} (h : Γ.AlphaEq Γ') : Γ'.freeVars = Γ.freeVars := by
  refine Std.ExtTreeSet.ext_mem fun {v} => ?_
  rw [Env.mem_freeVars, Env.mem_freeVars]
  refine exists_congr fun x => ?_
  rcases Env.lookup_rel (h x) with ⟨σ, σ', hx, hx', hσ⟩ | ⟨hx, hx'⟩
  · simp [hx, hx', hσ.mem_freeVars_iff]
  · rw [hx, hx']

theorem Failure.rename_self (e : Failure) : e.rename (fun v => v) = e := by
  have hty : ∀ t : Ty, t.rename (fun v => v) = t := fun t => Ty.rename_eq_self fun _ _ => rfl
  cases e with
  | fault f => rfl
  | type e =>
    cases e with
    | conflict c => cases c <;> simp [rename, TypeError.rename, Conflict.rename, hty]
    | unsupportedReceiver t m => simp [rename, TypeError.rename, hty]
    | _ => rfl

namespace Program

variable {p : Program} {Γ Γ' : Env}

/-- No scheme with free variables quantifies a variable that a run may meet elsewhere: one at or
above the counter that it starts at, or one that the environment or a declared member leaves
open. -/
def Apart (p : Program) (env : Env) : Prop :=
  ∀ (x : Name) (σ : Scheme), env[x]? = some σ → ¬σ.Closed → ∀ v ∈ σ.vars,
    v.id < (p.start env).next ∧ v ∉ env.freeVars ∧ v ∉ p.declarations.freeVars

def Meets (p : Program) (env : Env) (v : TyVar) : Prop :=
  v ∈ env.freeVars ∨ v ∈ p.declarations.freeVars ∨ (p.start env).next ≤ v.id

theorem Apart.not_meets (h : p.Apart Γ) {x : Name} {σ : Scheme} (hx : Γ[x]? = some σ)
    (hσ : ¬σ.Closed) {v : TyVar} (hv : v ∈ σ.vars) : ¬p.Meets Γ v := by
  obtain ⟨hlt, henv, hdecl⟩ := h x σ hx hσ v hv
  rintro (h | h | h)
  · exact henv h
  · exact hdecl h
  · omega

def sameVariables (p : Program) (env : Env) : Correspondence p.declarations where
  map v := v
  injective := fun _ _ h => h
  live := p.Meets env
  base := (p.start env).next
  shift := 0
  map_new _ _ := rfl
  live_new _ hn := .inr (.inr hn)
  map_declared _ _ := rfl
  live_declared _ hv := .inr (.inl hv)

theorem start_linked_of_alphaEq (h : Γ.AlphaEq Γ') (hΓ : p.Apart Γ) (hΓ' : p.Apart Γ') :
    (p.sameVariables Γ).Linked (p.start Γ).beginRun (p.start Γ').beginRun := by
  have hnext : (p.start Γ').next = (p.start Γ).next := by
    simp only [start, State.ofEnv, h.freeVars_eq]
  have hmeets : p.Meets Γ' = p.Meets Γ := by
    funext v
    rw [Meets, Meets, h.freeVars_eq, hnext]
  refine .ofEnv (Nat.le_refl _) hnext fun x => ?_
  change Option.Rel _ Γ[x]? Γ'[x]?
  rcases Env.lookup_rel (h x) with ⟨σ, σ', hx, hx', hσ⟩ | ⟨hx, hx'⟩ <;> rw [hx, hx']
  · refine .some ⟨hσ, .inr ?_, fun v hv => .inl (Env.mem_freeVars.2 ⟨x, σ, hx, hv⟩)⟩
    by_cases hc : σ.Closed
    · exact .inl hc
    · have hc' : ¬σ'.Closed := mt hσ.closed_iff.1 hc
      refine .inr ⟨fun v hv => hΓ.not_meets hx hc hv, fun v hlive hv => ?_⟩
      exact hΓ'.not_meets hx' hc' hv (hmeets ▸ hlive)
  · exact .none

/-- The choice of quantified variables makes no difference, as long as schemes with free variables
keep theirs apart from those that a run may meet elsewhere. -/
theorem typeOf_eq_of_alphaEq (h : Γ.AlphaEq Γ') (hΓ : p.Apart Γ) (hΓ' : p.Apart Γ') (id : ExprId) :
    p.typeOf Γ id = p.typeOf Γ' id := by
  have hrun := infer_agrees (start_linked_of_alphaEq h hΓ hΓ') id
  rw [typeOf, typeOf]
  generalize p.infer id (p.start Γ) = r, p.infer id (p.start Γ') = r' at hrun
  cases hrun with
  | ok ht _ =>
    obtain ⟨rfl, -⟩ := ht
    exact congrArg Except.ok (Ty.rename_eq_self fun _ _ => rfl).symm
  | error he => exact congrArg Except.error (he.trans (Failure.rename_self _)).symm
  | exhausted hk => exact absurd hk (Nat.lt_irrefl 0)

/-- `let g = λ z, f 0 z in (g 0, g true)` and its value `λ z, f 0 z`. -/
def partialProgram : Program where
  table := ⟨#[.ident ⟨5⟩, .int 0, .apply ⟨0⟩ ⟨1⟩, .ident ⟨6⟩, .apply ⟨2⟩ ⟨3⟩, .lambda ⟨6⟩ ⟨4⟩,
    .ident ⟨7⟩, .bool true, .apply ⟨6⟩ ⟨1⟩, .apply ⟨6⟩ ⟨7⟩, .tuple ⟨0, 2⟩, .letIn ⟨7⟩ ⟨5⟩ ⟨10⟩],
    #[⟨8⟩, ⟨9⟩]⟩
  declarations := ∅

def partialScheme (param result : TyVar) : Scheme := ⟨[param], .fn (.var param) (.var result)⟩

def partialEnv (param result : TyVar) : Env := (∅ : Env).insert ⟨5⟩ (partialScheme param result)

theorem mem_freeVars_partialScheme {v u w : TyVar} (hv : u ≠ v) :
    w ∈ (partialScheme v u).freeVars ↔ w = u := by
  rw [Scheme.mem_freeVars]
  constructor
  · rintro ⟨hocc, hn⟩
    simpa [partialScheme, List.mem_singleton.not.1 hn] using hocc
  · rintro rfl
    simpa [partialScheme] using hv

theorem mem_freeVars_partialEnv {v u w : TyVar} (hv : u ≠ v) :
    w ∈ (partialEnv v u).freeVars ↔ w = u := by
  rw [Env.mem_freeVars]
  constructor
  · rintro ⟨x, σ, hx, hw⟩
    rcases Env.of_getElem?_insert hx with rfl | hx
    · exact (mem_freeVars_partialScheme hv).1 hw
    · simp at hx
  · intro hw
    exact ⟨⟨5⟩, _, Std.ExtTreeMap.getElem?_insert_self, (mem_freeVars_partialScheme hv).2 hw⟩

theorem alphaEq_partialEnv {v w u : TyVar} (hv : u ≠ v) (hw : u ≠ w) :
    (partialEnv v u).AlphaEq (partialEnv w u) := by
  intro x
  rw [partialEnv, partialEnv, Std.ExtTreeMap.getElem?_insert, Std.ExtTreeMap.getElem?_insert]
  split
  · refine .some ⟨fun _ => w, ?_, rfl, ?_, fun a ha => ?_⟩
    · intro a ha b hb _
      rw [List.mem_singleton.1 ha, List.mem_singleton.1 hb]
    · simp [partialScheme, Scheme.specialize, Ty.subst, hv]
    · rw [(mem_freeVars_partialScheme hv).1 ha]
      simpa [partialScheme] using hw
  · simp

/-- A variable below one that is free is never handed out. -/
theorem apart_partialEnv {v u : TyVar} (hlt : v.id < u.id) (hmax : u.id < TyVar.maxId) :
    partialProgram.Apart (partialEnv v u) := by
  intro x σ hx _ w hw
  rcases Env.of_getElem?_insert hx with rfl | hx
  · obtain rfl : w = v := List.mem_singleton.1 hw
    have hne : u ≠ w := fun e => absurd (congrArg TyVar.id e) (by omega)
    have hmem : ∀ {v}, v ∈ (partialEnv w u).freeVars ↔ v = u := mem_freeVars_partialEnv hne
    have htaken := partialProgram.taken_start (.inl (hmem.2 rfl))
    refine ⟨?_, fun h => hne (hmem.1 h).symm, by simp [partialProgram, Declarations.freeVars]⟩
    by_contra hle
    exact absurd (htaken (by omega)) (by omega)
  · simp at hx

theorem typeOf_eq_of_alphaEq_partial :
    (partialEnv ⟨1⟩ ⟨5⟩).AlphaEq (partialEnv ⟨3⟩ ⟨5⟩) ∧ partialProgram.Apart (partialEnv ⟨1⟩ ⟨5⟩) ∧
    partialProgram.Apart (partialEnv ⟨3⟩ ⟨5⟩) ∧
    partialProgram.typeOf (partialEnv ⟨1⟩ ⟨5⟩) ⟨5⟩ = .ok (.fn (.var ⟨6⟩) (.var ⟨9⟩)) ∧
    ∀ id, partialProgram.typeOf (partialEnv ⟨1⟩ ⟨5⟩) id =
      partialProgram.typeOf (partialEnv ⟨3⟩ ⟨5⟩) id := by
  have h := alphaEq_partialEnv (v := ⟨1⟩) (w := ⟨3⟩) (u := ⟨5⟩) (by decide) (by decide)
  have h₁ := apart_partialEnv (v := ⟨1⟩) (u := ⟨5⟩) (by decide) (by decide)
  have h₃ := apart_partialEnv (v := ⟨3⟩) (u := ⟨5⟩) (by decide) (by decide)
  refine ⟨h, h₁, h₃, ?_, typeOf_eq_of_alphaEq h h₁ h₃⟩
  rw [typeOf, infer_eq_of_nested (n := 4) (by decide) (by decide)]
  cbv

/-- A run hands out the variable that `f` quantifies, and the scheme captures it. So the type of `g`
is too general, and a use of `g` is accepted that is an error if `f` quantifies another variable. -/
theorem numbering_matters :
    (partialEnv ⟨1⟩ ⟨0⟩).AlphaEq (partialEnv ⟨9⟩ ⟨0⟩) ∧
    partialProgram.typeOf (partialEnv ⟨1⟩ ⟨0⟩) ⟨11⟩ = .ok (.tuple [.var ⟨8⟩, .var ⟨8⟩]) ∧
    partialProgram.typeOf (partialEnv ⟨9⟩ ⟨0⟩) ⟨11⟩ =
      .error (.type (.conflict (.mismatch .int .bool))) := by
  refine ⟨alphaEq_partialEnv (by decide) (by decide), ?_, ?_⟩
  all_goals
    rw [typeOf, infer_eq_of_nested (n := 5) (by decide) (by decide)]
    cbv

end Program
end TypeInference

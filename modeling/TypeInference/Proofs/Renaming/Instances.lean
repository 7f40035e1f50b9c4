import TypeInference.Proofs.Inference.Locality
import TypeInference.Proofs.Renaming.Equivalence

/-! Instances of schemes. Each instance takes its variables from the supply, which never goes back,
so two instances in the life of a context have only the free variables of the scheme in common, and
they are equal up to the choice of variables. Generalizing a type and taking an instance gives the
type back, with other variables for those that the environment does not hold. -/
namespace TypeInference

variable {σ : Scheme} {ρ : TyVar → TyVar} {n m : Nat} {v : TyVar} {t : Ty}

namespace Context

inductive Call where
  | fresh
  | reserve (vs : List TyVar)
  | constrain (l r : Ty)
  | clear
  | instantiate (σ : Scheme)

def Call.run? (c : Context) : Call → Option Context
  | .fresh => c.fresh?.map Prod.snd
  | .reserve vs => some (c.reserve vs)
  | .constrain l r => some (c.constrain l r)
  | .clear => some c.clear
  | .instantiate σ => (c.instantiate? σ).map Prod.snd

def after? (c : Context) : List Call → Option Context
  | [] => some c
  | k :: ks => (k.run? c).bind (after? · ks)

variable {c c' : Context}

theorem next_le_of_instantiate (h : c.instantiate? σ = some (t, c')) : c.next ≤ c'.next := by
  obtain ⟨f, m, rfl, -, hm, -⟩ := instantiate?_eq_some h
  exact hm.elim Nat.le_of_eq fun hm => Nat.le_of_lt hm.1

theorem Call.next_le {k : Call} (h : k.run? c = some c') : c.next ≤ c'.next := by
  cases k with
  | fresh =>
    obtain ⟨⟨v, d⟩, hd, rfl⟩ := Option.map_eq_some_iff.1 h
    rw [fresh?] at hd
    split at hd
    · obtain ⟨-, rfl⟩ := Prod.mk.inj (Option.some.inj hd)
      exact Nat.le_succ _
    · cases hd
  | reserve vs =>
    obtain rfl := Option.some.inj h
    exact le_next_reserve c vs
  | constrain l r =>
    obtain rfl := Option.some.inj h
    exact Nat.le_refl _
  | clear =>
    obtain rfl := Option.some.inj h
    exact Nat.le_refl _
  | instantiate σ =>
    obtain ⟨⟨t, d⟩, hd, rfl⟩ := Option.map_eq_some_iff.1 h
    exact next_le_of_instantiate hd

theorem next_le_of_after {ks : List Call} (h : c.after? ks = some c') : c.next ≤ c'.next := by
  induction ks generalizing c with
  | nil =>
    obtain rfl := Option.some.inj h
    exact Nat.le_refl _
  | cons k ks ih =>
    obtain ⟨d, hd, h⟩ := Option.bind_eq_some_iff.1 h
    exact Nat.le_trans (Call.next_le hd) (ih h)

theorem exists_instantiate_of_room (h : c.next + σ.vars.length ≤ TyVar.maxId) :
    ∃ t c', c.instantiate? σ = some (t, c') := by
  rw [instantiate?]
  split
  · exact ⟨_, _, rfl⟩
  · rw [freshVars?, if_pos h]
    exact ⟨_, _, rfl⟩

end Context

/-- The map gives the quantified variables of the scheme new names, which are handed out while the
supply goes from `n` to `m`, and keeps the variables of the scheme apart. -/
structure Scheme.Freshens (σ : Scheme) (n m : Nat) (ρ : TyVar → TyVar) : Prop where
  issued : ∀ v ∈ σ.vars, Issued n m (ρ v)
  kept : ∀ v, v ∉ σ.vars → ρ v = v
  injOn : Set.InjOn ρ {v | v ∈ σ.ty.occurrences}

namespace Scheme.Freshens

theorem mem_occurrences (h : σ.Freshens n m ρ) (hv : v ∈ (σ.ty.rename ρ).occurrences) :
    v ∈ σ.freeVars ∨ Issued n m v := by
  rw [Ty.occurrences_rename] at hv
  obtain ⟨u, hu, rfl⟩ := List.mem_map.1 hv
  by_cases hb : u ∈ σ.vars
  · exact .inr (h.issued u hb)
  · rw [h.kept u hb]
    exact .inl (mem_freeVars.2 ⟨hu, hb⟩)

theorem mem_of_mem_freeVars (h : σ.Freshens n m ρ) (hv : v ∈ σ.freeVars) :
    v ∈ (σ.ty.rename ρ).occurrences := by
  obtain ⟨hocc, hb⟩ := mem_freeVars.1 hv
  rw [Ty.occurrences_rename]
  exact List.mem_map.2 ⟨v, hocc, h.kept v hb⟩

/-- Two instances have just the free variables in common if the second is taken from a later
supply. -/
theorem mem_both (h : σ.Freshens n m ρ) {n' m' : Nat} {ρ' : TyVar → TyVar}
    (h' : σ.Freshens n' m' ρ') (hle : m ≤ n') :
    v ∈ (σ.ty.rename ρ).occurrences ∧ v ∈ (σ.ty.rename ρ').occurrences ↔ v ∈ σ.freeVars := by
  refine ⟨?_, fun hv => ⟨h.mem_of_mem_freeVars hv, h'.mem_of_mem_freeVars hv⟩⟩
  rintro ⟨hv, hv'⟩
  rcases h.mem_occurrences hv with hfree | hnew
  · exact hfree
  · rcases h'.mem_occurrences hv' with hfree | hnew'
    · exact hfree
    · exact absurd hnew'.1 (Nat.not_le.2 (Nat.lt_of_lt_of_le hnew.2 hle))

theorem alphaEq (h : σ.Freshens n m ρ) {n' m' : Nat} {ρ' : TyVar → TyVar}
    (h' : σ.Freshens n' m' ρ') : (σ.ty.rename ρ).alphaEq (σ.ty.rename ρ') = true :=
  Ty.alphaEq_trans (Ty.alphaEq_symm (Ty.alphaEq_rename h.injOn)) (Ty.alphaEq_rename h'.injOn)

end Scheme.Freshens

/-- An instance is the type of the scheme with new names for the quantified variables. A variable
that is quantified twice has one new name, and one that does not occur has one that is not used. -/
theorem Context.exists_freshens {c c' : Context} (hfree : ∀ v ∈ σ.freeVars, v.id < c.next)
    (h : c.instantiate? σ = some (t, c')) :
    ∃ ρ, σ.Freshens c.next c'.next ρ ∧ t = σ.ty.rename ρ := by
  obtain ⟨f, m, rfl, rfl, -, hnew, hinj⟩ := instantiate?_eq_some h
  refine ⟨fun v => if v ∈ σ.vars then f v else v, ⟨fun v hv => ?_, fun v hv => if_neg hv, ?_⟩, ?_⟩
  · rw [if_pos hv]
    exact hnew v hv
  · have hne : ∀ v ∈ σ.vars, ∀ w ∈ σ.ty.occurrences, w ∉ σ.vars → f v ≠ w := by
      rintro v hv w hw hb rfl
      exact absurd (hfree _ (Scheme.mem_freeVars.2 ⟨hw, hb⟩)) (Nat.not_lt.2 (hnew v hv).1)
    intro v hv w hw heq
    by_cases hvb : v ∈ σ.vars <;> by_cases hwb : w ∈ σ.vars <;>
      simp only [hvb, hwb, if_true, if_false] at heq
    · exact hinj v hvb w hwb heq
    · exact absurd heq (hne v hvb w hw hwb)
    · exact absurd heq.symm (hne w hwb v hv hvb)
    · exact heq
  · rw [Scheme.specialize, Ty.rename]
    refine Ty.subst_congr fun v _ => ?_
    split <;> rfl

namespace Env

variable {env : Env}

def Mentions (env : Env) (v : TyVar) : Prop :=
  ∃ (x : Name) (σ : Scheme), env[x]? = some σ ∧ (v ∈ σ.vars ∨ v ∈ σ.ty.occurrences)

theorem pairwise_vars_generalize (env : Env) (t : Ty) :
    (env.generalize t).vars.Pairwise fun v w => t.occurrences.idxOf v < t.occurrences.idxOf w :=
  t.pairwise_freeVars.filter _

theorem nodup_vars_generalize (env : Env) (t : Ty) : (env.generalize t).vars.Nodup := by
  refine (env.pairwise_vars_generalize t).imp fun hlt => ?_
  rintro rfl
  exact Nat.lt_irrefl _ hlt

theorem exists_instance_of_generalize {c : Context} (ht : ∀ v ∈ t.occurrences, v.id < c.next)
    (hroom : c.next + (env.generalize t).vars.length ≤ TyVar.maxId) :
    ∃ ρ c', c.instantiate? (env.generalize t) = some (t.rename ρ, c') ∧
      (env.generalize t).Freshens c.next c'.next ρ := by
  have hfree : ∀ v ∈ (env.generalize t).freeVars, v.id < c.next := fun v hv =>
    ht v (mem_freeVars_generalize.1 hv).1
  obtain ⟨u, c', hu⟩ := Context.exists_instantiate_of_room hroom
  obtain ⟨ρ, hρ, rfl⟩ := Context.exists_freshens hfree hu
  exact ⟨ρ, c', hu, hρ⟩

end Env

/-- Instances are fresh, and they undo generalization. Generalizing quantifies what the type
mentions and the environment leaves open, each variable once and at its first place; an instance of
the result is the type with new names for these variables and the old ones for the others. Any two
instances of a scheme, however the context was used before and between them, have just the free
variables of the scheme in common and differ in the choice of variables only. -/
theorem Context.instances_fresh (c : Context) :
    (∀ (env : Env) (t : Ty), (∀ v ∈ t.occurrences, v.id < c.next) →
      (∀ v ∈ env.freeVars, v.id < c.next) →
      c.next + (env.generalize t).vars.length ≤ TyVar.maxId →
      (∀ v, v ∈ (env.generalize t).vars ↔ v ∈ t.occurrences ∧ v ∉ env.freeVars) ∧
      (env.generalize t).vars.Nodup ∧
      (env.generalize t).vars.Pairwise (fun v w => t.occurrences.idxOf v < t.occurrences.idxOf w) ∧
      ∃ ρ c', c.instantiate? (env.generalize t) = some (t.rename ρ, c') ∧
        Set.InjOn ρ {v | v ∈ t.occurrences} ∧
        (∀ v ∈ (env.generalize t).vars,
          c.next ≤ (ρ v).id ∧ ρ v ∉ t.occurrences ∧ ρ v ∉ env.freeVars ∧
          ((∀ w, env.Mentions w → w.id < c.next) → ¬env.Mentions (ρ v))) ∧
        ∀ v, v ∉ (env.generalize t).vars → ρ v = v) ∧
    ∀ σ : Scheme, (∀ v ∈ σ.freeVars, v.id < c.next) →
      ∀ (before between : List Call) (c₁ c₁' c₂ c₂' : Context) (t₁ t₂ : Ty),
        c.after? before = some c₁ → c₁.instantiate? σ = some (t₁, c₁') →
        c₁'.after? between = some c₂ → c₂.instantiate? σ = some (t₂, c₂') →
        (∀ v, v ∈ t₁.occurrences ∧ v ∈ t₂.occurrences ↔ v ∈ σ.freeVars) ∧ t₁.alphaEq t₂ = true := by
  constructor
  · intro env t ht henv hroom
    refine ⟨fun v => Env.mem_vars_generalize, env.nodup_vars_generalize t,
      env.pairwise_vars_generalize t, ?_⟩
    obtain ⟨ρ, c', hinst, hρ⟩ := Env.exists_instance_of_generalize ht hroom
    refine ⟨ρ, c', hinst, hρ.injOn, fun v hv => ?_, hρ.kept⟩
    have hle : c.next ≤ (ρ v).id := (hρ.issued v hv).1
    have hnot : ¬(ρ v).id < c.next := Nat.not_lt.2 hle
    exact ⟨hle, fun h => hnot (ht _ h), fun h => hnot (henv _ h), fun hall h => hnot (hall _ h)⟩
  · intro σ hfree before between c₁ c₁' c₂ c₂' t₁ t₂ hbefore h₁ hbetween h₂
    have hle : c.next ≤ c₁.next := next_le_of_after hbefore
    have hlater : c₁'.next ≤ c₂.next := next_le_of_after hbetween
    have hle₂ : c.next ≤ c₂.next :=
      Nat.le_trans hle (Nat.le_trans (next_le_of_instantiate h₁) hlater)
    obtain ⟨ρ₁, hρ₁, rfl⟩ := exists_freshens (fun v hv => Nat.lt_of_lt_of_le (hfree v hv) hle) h₁
    obtain ⟨ρ₂, hρ₂, rfl⟩ := exists_freshens (fun v hv => Nat.lt_of_lt_of_le (hfree v hv) hle₂) h₂
    exact ⟨fun v => hρ₁.mem_both hρ₂ hlater, hρ₁.alphaEq hρ₂⟩

def partlyOpenEnv : Env :=
  ((∅ : Env).insert ⟨5⟩ (.mono (.var ⟨1⟩))).insert ⟨6⟩ ⟨[⟨2⟩], .fn (.var ⟨2⟩) (.var ⟨1⟩)⟩

def partlyOpen : Ty := .tuple [.var ⟨3⟩, .fn (.var ⟨0⟩) (.var ⟨1⟩), .var ⟨3⟩]

def repeatedScheme : Scheme := ⟨[⟨0⟩, ⟨0⟩, ⟨7⟩], .fn (.var ⟨0⟩) (.var ⟨1⟩)⟩

/-- Two instances of the last scheme, with other calls between them: each takes three variables and
uses one. -/
theorem Context.instances_fresh_repeated :
    (partlyOpenEnv.generalize partlyOpen).vars = [⟨3⟩, ⟨0⟩] ∧
    (∃ ρ c', instantiate? (partlyOpenEnv.generalize partlyOpen) ⟨4, #[]⟩ =
        some (partlyOpen.rename ρ, c') ∧
      Set.InjOn ρ {v | v ∈ partlyOpen.occurrences} ∧ ρ ⟨1⟩ = ⟨1⟩) ∧
    ∃ t₁ t₂ c₁ c₂ c₃, instantiate? repeatedScheme ⟨4, #[]⟩ = some (t₁, c₁) ∧
      c₁.after? [.fresh, .reserve [⟨9⟩]] = some c₂ ∧
      c₂.instantiate? repeatedScheme = some (t₂, c₃) ∧
      t₁ = .fn (.var ⟨5⟩) (.var ⟨1⟩) ∧ t₂ = .fn (.var ⟨11⟩) (.var ⟨1⟩) ∧
      (∀ v, v ∈ t₁.occurrences ∧ v ∈ t₂.occurrences ↔ v ∈ repeatedScheme.freeVars) ∧
      t₁.alphaEq t₂ = true := by
  have hvars : (partlyOpenEnv.generalize partlyOpen).vars = [⟨3⟩, ⟨0⟩] := by decide +kernel
  have hfree : partlyOpenEnv.freeVars.toList = [⟨1⟩] := by decide +kernel
  have henv : ∀ v ∈ partlyOpenEnv.freeVars, v.id < 4 := by
    intro v hv
    rw [← Std.ExtTreeSet.mem_toList, hfree, List.mem_singleton] at hv
    rw [hv]
    decide
  obtain ⟨hgen, htwo⟩ := instances_fresh ⟨4, #[]⟩
  refine ⟨hvars, ?_, ?_⟩
  · obtain ⟨-, -, -, ρ, c', hinst, hinj, -, hkept⟩ :=
      hgen partlyOpenEnv partlyOpen (by decide) henv (by rw [hvars]; decide)
    exact ⟨ρ, c', hinst, hinj, hkept ⟨1⟩ (by rw [hvars]; decide)⟩
  · have h₁ : instantiate? repeatedScheme ⟨4, #[]⟩ =
        some (.fn (.var ⟨5⟩) (.var ⟨1⟩), ⟨7, #[]⟩) := by
      decide +kernel
    have hbetween : after? ⟨7, #[]⟩ [.fresh, .reserve [⟨9⟩]] = some ⟨10, #[]⟩ := by decide +kernel
    have h₂ : instantiate? repeatedScheme ⟨10, #[]⟩ =
        some (.fn (.var ⟨11⟩) (.var ⟨1⟩), ⟨13, #[]⟩) := by
      decide +kernel
    exact ⟨_, _, _, _, _, h₁, hbetween, h₂, rfl, rfl,
      htwo repeatedScheme (by decide) [] _ _ _ _ _ _ _ rfl h₁ hbetween h₂⟩

end TypeInference

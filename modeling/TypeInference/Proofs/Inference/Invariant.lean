import TypeInference.Proofs.Inference.Actions
import TypeInference.Proofs.Unification.History

/-! The invariant of a run. The solution is what solving the first equations gives, and no variable
in use will be handed out again. Variables that a `let` has quantified are retired: they no longer
occur in what the environment and the unsolved equations stand for, so quantifying them was right
and stays right while the run goes on. -/
namespace TypeInference

open Unification (vars)

/-- A supply that stands at `n` never hands the variable out: it lies below, or the supply is used
up. -/
def Taken (n : Nat) (v : TyVar) : Prop := n < TyVar.maxId → v.id < n

theorem Taken.mono {n m : Nat} {v : TyVar} (hnm : n ≤ m) (h : Taken n v) : Taken m v := fun hm =>
  Nat.lt_of_lt_of_le (h (Nat.lt_of_le_of_lt hnm hm)) hnm

namespace Env

theorem of_getElem?_insert {env : Env} {x y : Name} {σ τ : Scheme}
    (h : (env.insert x σ)[y]? = some τ) : τ = σ ∨ env[y]? = some τ := by
  rw [Std.ExtTreeMap.getElem?_insert] at h
  split at h
  · exact .inl (Option.some.inj h).symm
  · exact .inr h

theorem mem_freeVars_insert {env : Env} {x : Name} {σ : Scheme} {v : TyVar}
    (h : v ∈ Env.freeVars (env.insert x σ)) : v ∈ σ.freeVars ∨ v ∈ env.freeVars := by
  obtain ⟨y, τ, hy, hv⟩ := mem_freeVars.1 h
  rcases of_getElem?_insert hy with rfl | hy
  · exact .inl hv
  · exact .inr (mem_freeVars.2 ⟨y, τ, hy, hv⟩)

section

variable {R : Scheme → Scheme → Prop} {Γ Γ' : Env}

theorem lookup_rel {x : Name} (h : Option.Rel R Γ[x]? Γ'[x]?) :
    (∃ σ σ', Γ[x]? = some σ ∧ Γ'[x]? = some σ' ∧ R σ σ') ∨ Γ[x]? = none ∧ Γ'[x]? = none := by
  generalize Γ[x]? = o, Γ'[x]? = o' at h ⊢
  cases h with
  | some hσ => exact .inl ⟨_, _, rfl, rfl, hσ⟩
  | none => exact .inr ⟨rfl, rfl⟩

theorem insert_rel (h : ∀ x : Name, Option.Rel R Γ[x]? Γ'[x]?) {σ σ' : Scheme} (hσ : R σ σ')
    (x y : Name) : Option.Rel R (Γ.insert x σ)[y]? (Γ'.insert x σ')[y]? := by
  rw [Std.ExtTreeMap.getElem?_insert, Std.ExtTreeMap.getElem?_insert]
  split
  · exact .some hσ
  · exact h y

theorem restore_rel (h : ∀ x : Name, Option.Rel R Γ[x]? Γ'[x]?) (x : Name) {o o' : Option Scheme}
    (ho : Option.Rel R o o') (y : Name) :
    Option.Rel R (Γ.restore x o)[y]? (Γ'.restore x o')[y]? := by
  cases ho with
  | some hσ => exact insert_rel h hσ x y
  | none =>
    rw [Env.restore, Env.restore, Std.ExtTreeMap.getElem?_erase, Std.ExtTreeMap.getElem?_erase]
    split
    · exact .none
    · exact h y

end

@[simp] theorem generalize_ty (env : Env) (t : Ty) : (env.generalize t).ty = t := rfl

theorem mem_vars_generalize {env : Env} {t : Ty} {v : TyVar} :
    v ∈ (env.generalize t).vars ↔ v ∈ t.occurrences ∧ v ∉ env.freeVars := by
  simp [generalize, ← Bool.not_eq_true]

theorem mem_freeVars_generalize {env : Env} {t : Ty} {v : TyVar} :
    v ∈ (env.generalize t).freeVars ↔ v ∈ t.occurrences ∧ v ∈ env.freeVars := by
  rw [Scheme.mem_freeVars, mem_vars_generalize, generalize_ty]
  grind

theorem mem_freeVars_insert_generalize {env : Env} {x : Name} {t : Ty} {v : TyVar}
    (h : v ∈ Env.freeVars (env.insert x (env.generalize t))) : v ∈ env.freeVars := by
  rcases mem_freeVars_insert h with hv | hv
  · exact (mem_freeVars_generalize.1 hv).2
  · exact hv

end Env

theorem Declarations.mem_freeVars {d : Declarations} {n m : Name} {σ : Scheme} {v : TyVar}
    (h : d.member? n m = some σ) (hv : v ∈ σ.freeVars) : v ∈ d.freeVars := by
  obtain ⟨members, hn, hm⟩ := Option.bind_eq_some_iff.1 h
  have henv : v ∈ Env.freeVars members := Env.mem_freeVars.2 ⟨m, σ, hm, hv⟩
  simp only [freeVars, Std.ExtTreeSet.mem_ofList, List.contains_iff_mem, List.mem_flatMap]
  exact ⟨(n, members), Std.ExtTreeMap.mem_toList_iff_getElem?_eq_some.2 hn,
    Std.ExtTreeSet.mem_toList.2 henv⟩

namespace Substitution

variable {S : Substitution} {env : Env} {v u : TyVar}

theorem getElem?_applyEnv (S : Substitution) (env : Env) (x : Name) :
    (S.applyEnv env)[x]? = env[x]?.map S.applyScheme := by
  simp [applyEnv]

theorem exists_of_mem_freeVars_applyScheme {σ : Scheme} (h : v ∈ (S.applyScheme σ).freeVars) :
    ∃ u ∈ σ.freeVars, v ∈ (S.image u).occurrences := by
  obtain ⟨hocc, hn⟩ := Scheme.mem_freeVars.1 h
  rcases (Scheme.mem_occurrences_specialize (ρ := .var)).1 hocc with ⟨u, -, hb, hvu⟩ | hfree
  · obtain rfl : v = u := by simpa using hvu
    exact absurd hb hn
  · exact hfree

theorem exists_of_mem_freeVars_applyEnv (h : v ∈ (S.applyEnv env).freeVars) :
    ∃ u ∈ env.freeVars, v ∈ (S.image u).occurrences := by
  obtain ⟨x, τ, hx, hv⟩ := Env.mem_freeVars.1 h
  rw [getElem?_applyEnv] at hx
  obtain ⟨σ, hσ, rfl⟩ := Option.map_eq_some_iff.1 hx
  obtain ⟨u, hu, hvu⟩ := exists_of_mem_freeVars_applyScheme hv
  exact ⟨u, Env.mem_freeVars.2 ⟨x, σ, hσ, hu⟩, hvu⟩

/-- A variable that gets into a scheme in place of a free one is free, unless it is captured. -/
theorem mem_freeVars_applyEnv {x : Name} {σ : Scheme} (hx : env[x]? = some σ) (hu : u ∈ σ.freeVars)
    (hv : v ∈ (S.image u).occurrences) (hn : v ∉ σ.vars) : v ∈ (S.applyEnv env).freeVars := by
  refine Env.mem_freeVars.2 ⟨x, S.applyScheme σ, by rw [getElem?_applyEnv, hx]; rfl, ?_⟩
  have hocc := (Scheme.mem_occurrences_specialize (ρ := .var)).2 (.inr ⟨u, hu, hv⟩)
  exact Scheme.mem_freeVars.2 ⟨hocc, hn⟩

end Substitution

namespace State

/-- The solution is what solving the first equations gives. -/
structure Regular (s : State) : Prop where
  solved_le : s.solved ≤ s.equations.length
  solution_eq : Substitution.solve ∅ (s.equations.take s.solved) = ⟨s.solution, none⟩

theorem beginRun_regular (s : State) : s.beginRun.Regular := ⟨Nat.zero_le _, rfl⟩

namespace Regular

variable {s : State}

theorem idempotent (h : s.Regular) : s.solution.Idempotent := solution_idempotent h.solution_eq

theorem withEnv (h : s.Regular) (env : Env) : Regular { s with env := env } :=
  ⟨h.solved_le, h.solution_eq⟩

theorem constrain (h : s.Regular) (e : Equation) :
    Regular { s with constraints := s.constraints.push e } := by
  have heqs : ({ s with constraints := s.constraints.push e } : State).equations =
      s.equations ++ [e] := by simp [equations]
  constructor
  · rw [heqs, List.length_append]
    exact Nat.le_add_right_of_le h.solved_le
  · rw [heqs, List.take_append_of_le_length h.solved_le]
    exact h.solution_eq

/-- Solving what is left, after the first part, is solving all equations. -/
theorem solve_unsolved (h : s.Regular) :
    s.solution.solve s.unsolved = Substitution.solve ∅ s.equations := by
  rw [unsolved, ← Substitution.solve_append_ok h.solution_eq, List.take_append_drop]

theorem solve (h : s.Regular) {S : Substitution}
    (hS : s.solution.solve s.unsolved = ⟨S, none⟩) :
    Regular { s with solution := S, solved := s.constraints.size } := by
  have hlen : s.constraints.size = s.equations.length := by simp [equations]
  refine ⟨Nat.le_of_eq hlen, ?_⟩
  change Substitution.solve ∅ (s.equations.take s.constraints.size) = _
  rw [hlen, List.take_length, ← h.solve_unsolved, hS]

theorem madeOf (h : s.Regular) {P : TyVar → Prop} (hP : ∀ v ∈ vars s.equations, P v) :
    s.solution.MadeOf P := by
  have htake : ∀ v ∈ vars (s.equations.take s.solved), P v := fun v hv =>
    hP v (Unification.vars_subset (List.take_subset _ _) hv)
  have hsolve := (Substitution.MadeOf.empty P).solve htake
  rwa [h.solution_eq] at hsolve

end Regular

/-- The variable is in use, and what it stands for mentions no retired variable. -/
def Known (D : TyVar → Prop) (s : State) (v : TyVar) : Prop :=
  Taken s.next v ∧ ∀ w ∈ (s.solution.image v).occurrences, ¬D w

def Knows (D : TyVar → Prop) (s : State) (t : Ty) : Prop := ∀ v ∈ t.occurrences, s.Known D v

/-- The invariant of a run in which the variables `D` are retired. -/
structure Consistent (D : TyVar → Prop) (s : State) : Prop extends s.Regular where
  equations_taken : ∀ v ∈ vars s.equations, Taken s.next v
  retired_taken : ∀ v, D v → Taken s.next v
  schemes : ∀ (x : Name) (σ : Scheme), s.env[x]? = some σ → σ.Closed ∨ ∀ v ∈ σ.vars, D v
  env_known : ∀ v ∈ s.env.freeVars, s.Known D v
  unsolved_known : ∀ v ∈ vars s.unsolved, s.Known D v

/-- What a successful part of a run leaves: the old environment, more variables, more equations, and
no retired variable where there was none before. -/
structure Extends (D : TyVar → Prop) (s s' : State) : Prop where
  env_eq : s'.env = s.env
  next_le : s.next ≤ s'.next
  equations_le : s.equations <+: s'.equations
  consistent : s'.Consistent D
  retired : ∀ v w, D w → w ∈ (s'.solution.image v).occurrences →
    w ∈ (s.solution.image v).occurrences

variable {D : TyVar → Prop} {s s₁ s₂ : State} {v w : TyVar} {t : Ty}

theorem Consistent.refl (h : s.Consistent D) : s.Extends D s :=
  ⟨rfl, Nat.le_refl _, List.prefix_refl _, h, fun _ _ _ hw => hw⟩

theorem Extends.trans {s₃ : State} (h₁ : s₁.Extends D s₂) (h₂ : s₂.Extends D s₃) :
    s₁.Extends D s₃ where
  env_eq := h₂.env_eq.trans h₁.env_eq
  next_le := Nat.le_trans h₁.next_le h₂.next_le
  equations_le := h₁.equations_le.trans h₂.equations_le
  consistent := h₂.consistent
  retired v w hD hw := h₁.retired v w hD (h₂.retired v w hD hw)

theorem Extends.known (h : s₁.Extends D s₂) (hv : s₁.Known D v) : s₂.Known D v :=
  ⟨hv.1.mono h.next_le, fun w hw hD => hv.2 w (h.retired v w hD hw) hD⟩

theorem Extends.knows (h : s₁.Extends D s₂) (ht : s₁.Knows D t) : s₂.Knows D t := fun v hv =>
  h.known (ht v hv)

theorem Extends.solves {θ : TyVar → Ty} (h : s₁.Extends D s₂) (hθ : Solves θ s₂.equations) :
    Solves θ s₁.equations := fun e he => hθ e (h.equations_le.subset he)

namespace Consistent

theorem solution_taken (h : s.Consistent D) : s.solution.MadeOf (Taken s.next) :=
  h.madeOf h.equations_taken

theorem advance (h : s.Consistent D) {m : Nat} (hm : s.next ≤ m) :
    s.Extends D { s with next := m } where
  env_eq := rfl
  next_le := hm
  equations_le := List.prefix_refl _
  consistent := {
    solved_le := h.solved_le
    solution_eq := h.solution_eq
    equations_taken := fun v hv => (h.equations_taken v hv).mono hm
    retired_taken := fun v hv => (h.retired_taken v hv).mono hm
    schemes := h.schemes
    env_known := fun v hv => ⟨(h.env_known v hv).1.mono hm, (h.env_known v hv).2⟩
    unsolved_known := fun v hv => ⟨(h.unsolved_known v hv).1.mono hm, (h.unsolved_known v hv).2⟩ }
  retired _ _ _ hw := hw

theorem known_new (h : s.Consistent D) {m : Nat} (hroom : s.next < TyVar.maxId)
    (hle : s.next ≤ v.id) (hlt : v.id < m) : Known D { s with next := m } v := by
  have hnew : ∀ w, Taken s.next w → w ≠ v := by
    rintro w hw rfl
    exact absurd (hw hroom) (by omega)
  refine ⟨fun _ => hlt, fun w hw hD => ?_⟩
  change w ∈ (s.solution.image v).occurrences at hw
  rw [Substitution.image_of_not_mem fun hv => hnew v (h.solution_taken.bound v hv) rfl] at hw
  obtain rfl : w = v := by simpa using hw
  exact hnew w (h.retired_taken w hD) rfl

theorem constrain (h : s.Consistent D) {l r : Ty} (hl : s.Knows D l) (hr : s.Knows D r) :
    s.Extends D { s with constraints := s.constraints.push ⟨l, r⟩ } := by
  have heqs : ({ s with constraints := s.constraints.push ⟨l, r⟩ } : State).equations =
      s.equations ++ [⟨l, r⟩] := by simp [equations]
  have hnew : ∀ v ∈ vars [⟨l, r⟩], s.Known D v := by
    intro v hv
    simp only [Unification.vars_cons, Unification.vars_nil, List.append_nil, Equation.vars,
      List.mem_append] at hv
    exact hv.elim (hl v) (hr v)
  refine ⟨rfl, Nat.le_refl _, ?_, ⟨h.toRegular.constrain _, ?_, h.retired_taken, h.schemes,
    h.env_known, ?_⟩, fun _ _ _ hw => hw⟩
  · rw [heqs]
    exact List.prefix_append _ _
  · rw [heqs, Unification.vars_append]
    exact List.forall_mem_append.2 ⟨h.equations_taken, fun v hv => (hnew v hv).1⟩
  · rw [unsolved, heqs, List.drop_append_of_le_length h.solved_le, Unification.vars_append]
    exact List.forall_mem_append.2 ⟨h.unsolved_known, hnew⟩

theorem solve (h : s.Consistent D) {S : Substitution}
    (hs : s.solution.solve s.unsolved = ⟨S, none⟩) :
    s.Extends D { s with solution := S, solved := s.constraints.size } := by
  have himg : ∀ P : TyVar → Prop, (∀ u, ¬D u → P u) → ∀ v,
      (∀ w ∈ (s.solution.image v).occurrences, P w) → ∀ w ∈ (S.image v).occurrences, P w := by
    intro P hP v hv
    have hes : ∀ v ∈ vars s.unsolved, ∀ w ∈ (s.solution.image v).occurrences, P w :=
      fun v hv w hw => hP w ((h.unsolved_known v hv).2 w hw)
    have := Substitution.solve_image hes hv
    rwa [hs] at this
  refine ⟨rfl, Nat.le_refl _, List.prefix_refl _, ⟨h.toRegular.solve hs, h.equations_taken,
    h.retired_taken, h.schemes, fun v hv => ?_, ?_⟩, fun v w hD hw => ?_⟩
  · exact ⟨(h.env_known v hv).1, himg _ (fun _ hu => hu) v (h.env_known v hv).2⟩
  · have hu : ({ s with solution := S, solved := s.constraints.size } : State).unsolved = [] := by
      simp [unsolved, equations]
    simp [hu]
  · by_contra hn
    exact himg (· ≠ w) (fun u hu e => hu (e ▸ hD)) v (fun u hu e => hn (e ▸ hu)) w hw rfl

/-- Binding a name to a scheme whose quantified variables are retired or that has no others. -/
theorem insert (h : s.Consistent D) {x : Name} {σ : Scheme} (hσ : σ.Closed ∨ ∀ v ∈ σ.vars, D v)
    (hk : ∀ v ∈ σ.freeVars, s.Known D v) : Consistent D { s with env := s.env.insert x σ } where
  toRegular := h.withEnv _
  equations_taken := h.equations_taken
  retired_taken := h.retired_taken
  schemes y τ hy := by
    rcases Env.of_getElem?_insert hy with rfl | hy
    · exact hσ
    · exact h.schemes y τ hy
  env_known v hv := (Env.mem_freeVars_insert hv).elim (hk v) (h.env_known v)
  unsolved_known := h.unsolved_known

theorem insert_mono (h : s.Consistent D) (x : Name) (ht : s.Knows D t) :
    Consistent D { s with env := s.env.insert x (.mono t) } :=
  h.insert (.inr nofun) fun v hv => ht v (by simpa using hv)

/-- No quantified variable is captured: the free variables of the environment under the solution are
those of the images of its free variables. -/
theorem mem_freeVars_solution (h : s.Consistent D) :
    v ∈ (s.solution.applyEnv s.env).freeVars ↔
      ∃ u ∈ s.env.freeVars, v ∈ (s.solution.image u).occurrences := by
  refine ⟨Substitution.exists_of_mem_freeVars_applyEnv, ?_⟩
  rintro ⟨u, hu, hv⟩
  obtain ⟨x, σ, hx, huσ⟩ := Env.mem_freeVars.1 hu
  refine Substitution.mem_freeVars_applyEnv hx huσ hv fun hb => ?_
  rcases h.schemes x σ hx with hc | hD
  · exact hc.not_mem_freeVars u huσ
  · exact (h.env_known u hu).2 v hv (hD v hb)

/-- Generalizing once all equations are solved: the quantified variables can be retired, and the
scheme may be bound. -/
theorem retire (h : s.Consistent D) (hs : s.unsolved = []) (ht : s.Knows D t)
    {σ : Scheme} (hσ : σ = (s.solution.applyEnv s.env).generalize (s.solution.apply t)) (x : Name) :
    Consistent (fun v => D v ∨ v ∈ σ.vars) { s with env := s.env.insert x σ } := by
  have hocc : ∀ w ∈ (s.solution.apply t).occurrences, Taken s.next w ∧ ¬D w := by
    intro w hw
    obtain ⟨v, hv, hw⟩ := Ty.mem_occurrences_subst.1 hw
    exact ⟨h.solution_taken.image (ht v hv).1 w hw, (ht v hv).2 w hw⟩
  have hvars : ∀ v ∈ σ.vars, v ∈ (s.solution.apply t).occurrences ∧
      v ∉ (s.solution.applyEnv s.env).freeVars := by
    intro v hv
    rw [hσ] at hv
    exact Env.mem_vars_generalize.1 hv
  have hlive : ∀ u ∈ s.env.freeVars, Known (fun v => D v ∨ v ∈ σ.vars) s u := by
    intro u hu
    refine ⟨(h.env_known u hu).1, fun w hw hd => ?_⟩
    rcases hd with hD | hv
    · exact (h.env_known u hu).2 w hw hD
    · exact (hvars w hv).2 (h.mem_freeVars_solution.2 ⟨u, hu, hw⟩)
  have hretired : s.Consistent fun v => D v ∨ v ∈ σ.vars :=
    { h with
      retired_taken := fun v hv => hv.elim (h.retired_taken v) fun hv => (hocc v (hvars v hv).1).1
      schemes := fun y τ hy => (h.schemes y τ hy).imp_right fun hD v hv => .inl (hD v hv)
      env_known := hlive
      unsolved_known := by simp [hs] }
  refine hretired.insert (.inr fun v hv => .inr hv) fun v hv => ?_
  rw [hσ] at hv
  obtain ⟨hv, henv⟩ := Env.mem_freeVars_generalize.1 hv
  refine ⟨(hocc v hv).1, fun w hw hd => ?_⟩
  obtain rfl : w = v := by
    rw [Substitution.image_of_not_mem (h.idempotent.not_mem_apply hv)] at hw
    simpa using hw
  rcases hd with hD | hw
  · exact (hocc w hv).2 hD
  · exact (hvars w hw).2 henv

end Consistent

theorem Extends.scope {E : TyVar → Prop} {x : Name} {σ : Scheme} (hs : s.Consistent D)
    (hDE : ∀ v, D v → E v) (h : State.Extends E { s with env := s.env.insert x σ } s₁) :
    s.Extends D { s₁ with env := s₁.env.restore x s.env[x]? } := by
  have henv : s₁.env.restore x s.env[x]? = s.env := by
    rw [h.env_eq]
    exact Env.restore_insert s.env x σ
  have hk : ∀ v, s.Known D v → s₁.Known D v := fun v hv =>
    ⟨hv.1.mono h.next_le, fun w hw hD => hv.2 w (h.retired v w (hDE w hD) hw) hD⟩
  have hc := h.consistent
  rw [henv]
  refine ⟨rfl, h.next_le, h.equations_le, ⟨hc.withEnv _, hc.equations_taken, ?_, hs.schemes,
    fun v hv => hk v (hs.env_known v hv), ?_⟩, fun v w hD => h.retired v w (hDE w hD)⟩
  · exact fun v hD => hc.retired_taken v (hDE v hD)
  · intro v hv
    obtain ⟨ht, hn⟩ := hc.unsolved_known v hv
    exact ⟨ht, fun w hw hD => hn w hw (hDE w hD)⟩

end State
end TypeInference

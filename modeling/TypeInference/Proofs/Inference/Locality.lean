import TypeInference.Proofs.Inference.Calls
import TypeInference.Proofs.Ty.Occurrences

/-! Inference is local. What a part of a run records and returns is about the free variables of its
environment, those of the declarations, and variables handed out meanwhile. So a solution of the
older equations that agrees on these with a solution of all equations solves all of them, too, and
gives the same result. Nothing is assumed of the schemes in the environment or of those declared. -/
namespace TypeInference

open Unification (vars)

/-- The variable is handed out while the supply goes from `n` to `m`. -/
def Issued (n m : Nat) (v : TyVar) : Prop := n ≤ v.id ∧ v.id < m

theorem Issued.mono {n m n' m' : Nat} {v : TyVar} (h : Issued n m v) (hn : n' ≤ n) (hm : m ≤ m') :
    Issued n' m' v := ⟨Nat.le_trans hn h.1, Nat.lt_of_lt_of_le h.2 hm⟩

theorem Taken.not_issued {n m : Nat} {v : TyVar} (h : Taken n v) (hm : m ≤ TyVar.maxId) :
    ¬Issued n m v := by
  rintro ⟨hle, hlt⟩
  exact absurd (h (by omega)) (by omega)

namespace State

structure Within (P : TyVar → Prop) (s : State) : Prop where
  equations : ∀ v ∈ vars s.equations, P v
  env : ∀ v ∈ s.env.freeVars, P v

/-- A successful part of a run from the first state to the second is local, and it is local in the
listed variables. -/
structure Advances (d : Declarations) (s s' : State) (vs : List TyVar) : Prop where
  keeps : s.Keeps s'
  equations_le : s.equations <+: s'.equations
  regular : s'.Regular
  within : ∀ P : TyVar → Prop, (∀ v ∈ d.freeVars, P v) → (∀ v, Issued s.next s'.next v → P v) →
    s.Within P → s'.Within P ∧ ∀ v ∈ vs, P v
  determined : ∀ θ η : TyVar → Ty, Solves θ s'.equations → Solves η s.equations →
    (∀ v, v ∈ s.env.freeVars ∨ v ∈ d.freeVars ∨ Issued s.next s'.next v → η v = θ v) →
    Solves η s'.equations ∧ ∀ v ∈ vs, η v = θ v

variable {d : Declarations} {s s₁ s₂ s₃ : State} {us vs : List TyVar} {P : TyVar → Prop} {v : TyVar}

theorem Within.mono {Q : TyVar → Prop} (h : s.Within P) (hPQ : ∀ v, P v → Q v) : s.Within Q :=
  ⟨fun v hv => hPQ v (h.equations v hv), fun v hv => hPQ v (h.env v hv)⟩

namespace Advances

theorem refl (h : s.Regular) : s.Advances d s [] where
  keeps := .refl s
  equations_le := List.prefix_refl _
  regular := h
  within _ _ _ hw := ⟨hw, nofun⟩
  determined _ _ _ hη _ := ⟨hη, nofun⟩

theorem mono (h : s.Advances d s₁ vs) (hus : us ⊆ vs) : s.Advances d s₁ us where
  keeps := h.keeps
  equations_le := h.equations_le
  regular := h.regular
  within P hd hnew hw := (h.within P hd hnew hw).imp_right fun hvs v hv => hvs v (hus hv)
  determined θ η hθ hη he := (h.determined θ η hθ hη he).imp_right fun hvs v hv => hvs v (hus hv)

theorem trans (h₁ : s₁.Advances d s₂ us) (h₂ : s₂.Advances d s₃ vs) :
    s₁.Advances d s₃ (us ++ vs) where
  keeps := h₁.keeps.trans h₂.keeps
  equations_le := h₁.equations_le.trans h₂.equations_le
  regular := h₂.regular
  within P hd hnew hw := by
    have hnew₁ : ∀ v, Issued s₁.next s₂.next v → P v := fun v hv =>
      hnew v (hv.mono (Nat.le_refl _) h₂.keeps.next_le)
    have hnew₂ : ∀ v, Issued s₂.next s₃.next v → P v := fun v hv =>
      hnew v (hv.mono h₁.keeps.next_le (Nat.le_refl _))
    obtain ⟨hw₂, hus⟩ := h₁.within P hd hnew₁ hw
    obtain ⟨hw₃, hvs⟩ := h₂.within P hd hnew₂ hw₂
    exact ⟨hw₃, List.forall_mem_append.2 ⟨hus, hvs⟩⟩
  determined θ η hθ hη he := by
    have hθ₂ : Solves θ s₂.equations := fun e hmem => hθ e (h₂.equations_le.subset hmem)
    obtain ⟨hη₂, hus⟩ := h₁.determined θ η hθ₂ hη fun v hv =>
      he v (hv.imp_right (Or.imp_right fun hv => hv.mono (Nat.le_refl _) h₂.keeps.next_le))
    obtain ⟨hη₃, hvs⟩ := h₂.determined θ η hθ hη₂ fun v hv => by
      rw [h₁.keeps.env_eq] at hv
      exact he v (hv.imp_right (Or.imp_right fun hv => hv.mono h₁.keeps.next_le (Nat.le_refl _)))
    exact ⟨hη₃, List.forall_mem_append.2 ⟨hus, hvs⟩⟩

theorem constrain (h : s.Advances d s₁ vs) {l r : Ty} (hl : l.occurrences ⊆ vs)
    (hr : r.occurrences ⊆ vs) :
    s.Advances d { s₁ with constraints := s₁.constraints.push ⟨l, r⟩ } vs := by
  have heqs : ({ s₁ with constraints := s₁.constraints.push ⟨l, r⟩ } : State).equations =
      s₁.equations ++ [⟨l, r⟩] := by simp [equations]
  refine ⟨⟨h.keeps.env_eq, h.keeps.next_le, h.keeps.next_max⟩, ?_, h.regular.constrain _, ?_, ?_⟩
  · rw [heqs]
    exact h.equations_le.trans (List.prefix_append _ _)
  · intro P hd hnew hw
    obtain ⟨hw₁, hvs⟩ := h.within P hd hnew hw
    refine ⟨⟨?_, hw₁.env⟩, hvs⟩
    rw [heqs, Unification.vars_append, List.forall_mem_append]
    refine ⟨hw₁.equations, fun v hv => hvs v ?_⟩
    simp only [Unification.vars_cons, Unification.vars_nil, List.append_nil, Equation.vars,
      List.mem_append] at hv
    exact hv.elim (hl ·) (hr ·)
  · intro θ η hθ hη he
    obtain ⟨hθ₁, hlr⟩ := solves_push.1 hθ
    obtain ⟨hη₁, hvs⟩ := h.determined θ η hθ₁ hη he
    refine ⟨solves_push.2 ⟨hη₁, ?_⟩, hvs⟩
    calc l.subst η = l.subst θ := Ty.subst_congr fun v hv => hvs v (hl hv)
      _ = r.subst θ := hlr
      _ = r.subst η := (Ty.subst_congr fun v hv => hvs v (hr hv)).symm

/-- The body of a scope is local in its own environment; outside, the variables of the scheme that
is bound there are local themselves. -/
theorem scope {x : Name} {σ : Scheme} (h : s.Advances d s₁ us) (hσ : σ.freeVars ⊆ us)
    (hin : State.Advances d { s₁ with env := s₁.env.insert x σ } s₂ vs) :
    s.Advances d { s₂ with env := s₂.env.restore x s₁.env[x]? } (us ++ vs) := by
  have henv : s₂.env.restore x s₁.env[x]? = s₁.env := by
    rw [hin.keeps.env_eq]
    exact Env.restore_insert s₁.env x σ
  have hle : s₁.next ≤ s₂.next := hin.keeps.next_le
  rw [henv]
  refine ⟨⟨h.keeps.env_eq, Nat.le_trans h.keeps.next_le hle,
      fun hmax => hin.keeps.next_max (h.keeps.next_max hmax)⟩,
    h.equations_le.trans hin.equations_le, hin.regular.withEnv _, ?_, ?_⟩
  · intro P hd hnew hw
    obtain ⟨hw₁, hus⟩ := h.within P hd (fun v hv => hnew v (hv.mono (Nat.le_refl _) hle)) hw
    have hbound : State.Within P { s₁ with env := s₁.env.insert x σ } :=
      ⟨hw₁.equations, fun v hv => (Env.mem_freeVars_insert hv).elim (fun hv => hus v (hσ hv))
        (hw₁.env v)⟩
    obtain ⟨hw₂, hvs⟩ := hin.within P hd
      (fun v hv => hnew v (hv.mono h.keeps.next_le (Nat.le_refl _))) hbound
    exact ⟨⟨hw₂.equations, hw₁.env⟩, List.forall_mem_append.2 ⟨hus, hvs⟩⟩
  · intro θ η hθ hη he
    have hθ₁ : Solves θ s₁.equations := fun e hmem => hθ e (hin.equations_le.subset hmem)
    obtain ⟨hη₁, hus⟩ := h.determined θ η hθ₁ hη fun v hv =>
      he v (hv.imp_right (Or.imp_right fun hv => hv.mono (Nat.le_refl _) hle))
    obtain ⟨hη₂, hvs⟩ := hin.determined θ η hθ hη₁ fun v hv => by
      rcases hv with hv | hv
      · rcases Env.mem_freeVars_insert hv with hv | hv
        · exact hus v (hσ hv)
        · exact he v (.inl (h.keeps.env_eq ▸ hv))
      · exact he v (.inr (hv.imp_right fun hv => hv.mono h.keeps.next_le (Nat.le_refl _)))
    exact ⟨hη₂, List.forall_mem_append.2 ⟨hus, hvs⟩⟩

end Advances

theorem Regular.advance (h : s.Regular) {m : Nat} (hm : s.next ≤ m)
    (hmax : s.next ≤ TyVar.maxId → m ≤ TyVar.maxId)
    (hvs : ∀ v ∈ vs, v ∈ s.env.freeVars ∨ v ∈ d.freeVars ∨ Issued s.next m v) :
    s.Advances d { s with next := m } vs where
  keeps := ⟨rfl, hm, hmax⟩
  equations_le := List.prefix_refl _
  regular := ⟨h.solved_le, h.solution_eq⟩
  within P hd hnew hw := by
    refine ⟨⟨hw.equations, hw.env⟩, fun v hv => ?_⟩
    rcases hvs v hv with hv | hv | hv
    exacts [hw.env v hv, hd v hv, hnew v hv]
  determined _ _ _ hη he := ⟨hη, fun v hv => he v (hvs v hv)⟩

end State

namespace Infer

open State

def Local (d : Declarations) (act : Infer Ty) : Prop :=
  ∀ (s s' : State) (t : Ty), s.Regular → act s = .ok t s' → s.Advances d s' t.occurrences

variable {d : Declarations} {s s' : State} {t : Ty} {σ : Scheme} {go : ExprId → Infer Ty}

theorem local_pure (h : t.occurrences = []) : Local d (pure t) := by
  intro s s' u hs hok
  obtain ⟨rfl, rfl⟩ := pure_ok.1 hok
  rw [h]
  exact .refl hs

theorem fresh_local : Local d fresh := by
  intro s s' t hs hok
  obtain ⟨hroom, rfl, rfl⟩ := fresh_ok.1 hok
  refine hs.advance (Nat.le_succ _) (fun _ => hroom) fun v hv => ?_
  obtain rfl : v = ⟨s.next⟩ := by simpa using hv
  exact .inr (.inr ⟨Nat.le_refl _, Nat.lt_succ_self _⟩)

theorem instantiate_local (hs : s.Regular)
    (hσ : ∀ v ∈ σ.freeVars, v ∈ s.env.freeVars ∨ v ∈ d.freeVars)
    (hok : instantiate σ s = .ok t s') : s.Advances d s' t.occurrences := by
  obtain ⟨f, m, rfl, rfl, hm, hrange, -⟩ := instantiate_ok hok
  refine hs.advance (by omega) (fun hmax => by omega) fun w hw => ?_
  rcases Scheme.mem_occurrences_specialize.1 hw with ⟨v, -, hb, hw⟩ | ⟨v, hv, hw⟩
  · obtain rfl : w = f v := by simpa using hw
    exact .inr (.inr (hrange v hb))
  · obtain rfl : w = v := by simpa using hw
    exact (hσ w hv).imp_right .inl

theorem ident_local (x : Name) : Local d (ident x) := by
  intro s s' t hs hok
  obtain ⟨σ, hx, hok⟩ := ident_ok hok
  exact instantiate_local hs (fun v hv => .inl (Env.mem_freeVars.2 ⟨x, σ, hx, hv⟩)) hok

theorem solvePending_local {u : Unit} (hs : s.Regular) (hok : solvePending s = .ok u s') :
    s.Advances d s' [] := by
  obtain ⟨S, hS, rfl⟩ := solvePending_ok.1 hok
  exact ⟨⟨rfl, Nat.le_refl _, id⟩, List.prefix_refl _, hs.solve hS,
    fun P _ _ hw => ⟨⟨hw.equations, hw.env⟩, by simp⟩, fun _ _ _ hη _ => ⟨hη, by simp⟩⟩

theorem solve_of_solvePending {u : Unit} (hs : s.Regular) (hok : solvePending s = .ok u s') :
    Substitution.solve ∅ s'.equations = ⟨s'.solution, none⟩ := by
  obtain ⟨S, hS, rfl⟩ := solvePending_ok.1 hok
  exact hs.solve_unsolved.symm.trans hS

theorem exists_of_mem_freeVars_generalize (hok : generalize t s = .ok σ s') {v : TyVar}
    (hv : v ∈ σ.freeVars) : ∃ u ∈ s'.env.freeVars, v ∈ (s'.solution.image u).occurrences := by
  obtain ⟨-, rfl⟩ := generalize_ok.1 hok
  exact Substitution.exists_of_mem_freeVars_applyEnv (Env.mem_freeVars_generalize.1 hv).2

/-- The scheme of a new definition has no free variables but those of the environment that the
solution has been written into. -/
theorem mem_freeVars_define (hok : generalize t s = .ok σ s') {x : Name} {v : TyVar}
    (hv : v ∈ Env.freeVars (s'.commit.env.insert x σ)) : v ∈ s'.commit.env.freeVars := by
  obtain ⟨-, rfl⟩ := generalize_ok.1 hok
  exact Env.mem_freeVars_insert_generalize hv

theorem generalize_local (hs : s.Regular) (hok : generalize t s = .ok σ s') :
    s.Advances d s' σ.freeVars := by
  have hsolve := (generalize_ok.1 hok).1
  have h : s.Advances d s' [] := solvePending_local hs hsolve
  refine ⟨h.keeps, h.equations_le, h.regular, fun P hd hnew hw => ?_, fun θ η hθ hη he => ?_⟩
  · have hw' := (h.within P hd hnew hw).1
    refine ⟨hw', fun v hv => ?_⟩
    obtain ⟨u, hu, hv⟩ := exists_of_mem_freeVars_generalize hok hv
    exact (h.regular.madeOf hw'.equations).image (hw'.env u hu) v hv
  · have hη' := (h.determined θ η hθ hη he).1
    refine ⟨hη', fun v hv => ?_⟩
    obtain ⟨u, hu, hv⟩ := exists_of_mem_freeVars_generalize hok hv
    have hfθ := (solves_iff_factors (solve_of_solvePending hs hsolve)).1 hθ
    have hfη := (solves_iff_factors (solve_of_solvePending hs hsolve)).1 hη'
    refine Ty.eq_of_subst_eq ?_ hv
    rw [hfη u, hfθ u, he u (.inl (h.keeps.env_eq ▸ hu))]

theorem lambda_local {x : Name} {body : ExprId} (hbody : Local d (go body)) :
    Local d (lambda go x body) := by
  intro s s' t hs hok
  obtain ⟨a, b, s₁, h₁, h₂, rfl⟩ := lambda_ok hok
  obtain ⟨s₂, hrun, rfl⟩ := withBinding_ok.1 h₂
  have ha := fresh_local (d := d) s s₁ a hs h₁
  have hb := hbody _ s₂ b (ha.regular.withEnv _) hrun
  refine (ha.scope ?_ hb).mono (by simp)
  intro v hv
  simpa using hv

theorem letIn_local {x : Name} {value body : ExprId} (hvalue : Local d (go value))
    (hbody : Local d (go body)) : Local d (letIn go x value body) := by
  intro s s' t hs hok
  obtain ⟨a, σ, s₁, s₂, h₁, h₂, h₃⟩ := letIn_ok hok
  obtain ⟨s₃, hrun, rfl⟩ := withBinding_ok.1 h₃
  have ha := hvalue s s₁ a hs h₁
  have hσ := ha.trans (generalize_local (d := d) ha.regular h₂)
  have ht := hbody _ s₃ t (hσ.regular.withEnv _) hrun
  exact (hσ.scope (List.subset_append_right _ _) ht).mono (List.subset_append_right _ _)

theorem apply_local {func arg : ExprId} (hfunc : Local d (go func)) (harg : Local d (go arg)) :
    Local d (apply go func arg) := by
  intro s s' t hs hok
  obtain ⟨f, a, s₁, s₂, s₃, h₁, h₂, h₃, rfl⟩ := apply_ok hok
  have hf := hfunc s s₁ f hs h₁
  have ha := harg s₁ s₂ a hf.regular h₂
  have ht := fresh_local (d := d) s₂ s₃ t ha.regular h₃
  refine ((hf.trans (ha.trans ht)).constrain (List.subset_append_left _ _) ?_).mono ?_
  · rw [Ty.occurrences_fn]
    exact List.subset_append_right _ _
  · exact fun v hv => List.mem_append_right _ (List.mem_append_right _ hv)

theorem ternary_local {cond thenBranch elseBranch : ExprId} (hcond : Local d (go cond))
    (hthen : Local d (go thenBranch)) (helse : Local d (go elseBranch)) :
    Local d (ternary go cond thenBranch elseBranch) := by
  intro s s' t hs hok
  obtain ⟨c, e, s₁, s₂, s₃, h₁, h₂, h₃, rfl⟩ := ternary_ok hok
  have ht := hthen s s₁ t hs h₁
  have hc := hcond s₁ s₂ c ht.regular h₂
  have he := helse s₂ s₃ e hc.regular h₃
  have htest := (ht.trans (hc.trans he)).constrain (l := c) (r := .bool)
    (fun v hv => List.mem_append_right _ (List.mem_append_left _ hv)) (by simp)
  refine (htest.constrain (fun v hv => ?_) (List.subset_append_left _ _)).mono
    (List.subset_append_left _ _)
  exact List.mem_append_right _ (List.mem_append_right _ hv)

theorem elements_local {ids : List ExprId} (hgo : ∀ id, Local d (go id)) {ts : List Ty}
    (hs : s.Regular) (hok : elements go ids s = .ok ts s') :
    s.Advances d s' (ts.flatMap Ty.occurrences) := by
  induction ids generalizing s ts with
  | nil =>
    obtain ⟨rfl, rfl⟩ := elements_nil_ok.1 hok
    exact .refl hs
  | cons id ids ih =>
    obtain ⟨t, us, s₁, h₁, h₂, rfl⟩ := elements_cons_ok hok
    have ht := hgo id s s₁ t hs h₁
    exact ht.trans (ih ht.regular h₂)

theorem tuple_local {table : ExprTable} {r : ExprRange} (hgo : ∀ id, Local d (go id)) :
    Local d (tuple go table r) := by
  intro s s' t hs hok
  obtain ⟨ids, ts, -, hts, rfl⟩ := tuple_ok hok
  rw [Ty.occurrences_tuple]
  exact elements_local hgo hs hts

theorem member_local {receiver : ExprId} {m : Name} (hreceiver : Local d (go receiver)) :
    Local d (member go d receiver m) := by
  intro s s' t hs hok
  obtain ⟨u, r, n, σ, i, s₁, s₂, s₃, s₄, h₁, h₂, -, hσ, h₃, h₄, rfl⟩ := member_ok hok
  have hu := hreceiver s s₁ u hs h₁
  have hr : s₁.Advances d s₂ [] := by
    rcases h₂ with h₂ | ⟨-, rfl⟩
    · exact solvePending_local hu.regular (resolve_ok.1 h₂).1
    · exact .refl hu.regular
  have hi :=
    instantiate_local (d := d) hr.regular (fun v hv => .inr (Declarations.mem_freeVars hσ hv)) h₃
  have ht := fresh_local (d := d) s₃ s₄ t hi.regular h₄
  have hall := ((hu.trans hr).trans (hi.trans ht)).mono (List.subset_append_right _ _)
  exact (hall.constrain (List.subset_append_right _ _) (List.subset_append_left _ _)).mono
    (List.subset_append_right _ _)

theorem node_local {p : Program} (hgo : ∀ id, Local p.declarations (go id)) (e : Expr) :
    Local p.declarations (node go p e) := by
  cases e with
  | bool b => exact local_pure (t := .bool) (by simp)
  | int i => exact local_pure (t := .int) (by simp)
  | float bits => exact local_pure (t := .float) (by simp)
  | str n => exact local_pure (t := .str) (by simp)
  | ident x => exact ident_local x
  | lambda x body => exact lambda_local (hgo body)
  | apply func arg => exact apply_local (hgo func) (hgo arg)
  | letIn x value body => exact letIn_local (hgo value) (hgo body)
  | ternary c t e => exact ternary_local (hgo c) (hgo t) (hgo e)
  | member receiver m => exact member_local (hgo receiver)
  | tuple r => exact tuple_local hgo

end Infer

namespace Program

theorem inferWithin_local (p : Program) (n : Nat) (id : ExprId) :
    Infer.Local p.declarations (p.inferWithin n id) := by
  induction n generalizing id with
  | zero => exact fun _ _ _ _ hok => absurd hok nofun
  | succ n ih =>
    intro s s' t hs hok
    obtain ⟨k, e, hk, -, hok⟩ := inferWithin_ok hok
    obtain rfl := Nat.succ.inj hk
    exact Infer.node_local ih e s s' t hs hok

end Program

namespace State

/-- No variable that the environment or the declarations leave open will be handed out. -/
structure Supplied (d : Declarations) (s : State) : Prop where
  next_le : s.next ≤ TyVar.maxId
  taken : ∀ v, v ∈ s.env.freeVars ∨ v ∈ d.freeVars → Taken s.next v

variable {d : Declarations} {s s₁ s₂ : State} {t : Ty} {σ : Scheme} {P : TyVar → Prop}

theorem Supplied.keeps (h : s.Supplied d) (hk : s.Keeps s₁) : s₁.Supplied d where
  next_le := hk.next_max h.next_le
  taken v hv := (h.taken v (hk.env_eq ▸ hv)).mono hk.next_le

theorem Advances.commit (ha : s.beginRun.Advances d s₁ t.occurrences)
    (hok : Infer.generalize t s₁ = .ok σ s₂) {x : Name} (hd : ∀ v ∈ d.freeVars, P v)
    (hnew : ∀ v, Issued s.next s₂.next v → P v) (henv : ∀ v ∈ s.env.freeVars, P v) :
    ∀ v ∈ Env.freeVars (s₂.commit.env.insert x σ), P v := by
  intro v hv
  have hall := ha.trans (Infer.generalize_local (d := d) ha.regular hok)
  obtain ⟨hw, -⟩ := hall.within P hd hnew ⟨nofun, henv⟩
  obtain ⟨u, hu, hv⟩ :=
    Substitution.exists_of_mem_freeVars_applyEnv (Infer.mem_freeVars_define hok hv)
  exact (hall.regular.madeOf hw.equations).image (hw.env u hu) v hv

theorem Supplied.commit (h : s.Supplied d) (ha : s.beginRun.Advances d s₁ t.occurrences)
    (hok : Infer.generalize t s₁ = .ok σ s₂) (x : Name) :
    Supplied d { s₂.commit with env := s₂.commit.env.insert x σ } := by
  have hall := ha.trans (Infer.generalize_local (d := d) ha.regular hok)
  have hle : s.next ≤ s₂.next := hall.keeps.next_le
  have hd : ∀ v ∈ d.freeVars, Taken s₂.next v := fun v hv => (h.taken v (.inr hv)).mono hle
  have henv : ∀ v ∈ s.env.freeVars, Taken s₂.next v := fun v hv => (h.taken v (.inl hv)).mono hle
  refine ⟨hall.keeps.next_max h.next_le, fun v hv => hv.elim ?_ (hd v)⟩
  exact ha.commit hok hd (fun v hv _ => hv.2) henv v

end State

namespace Program

variable {p : Program} {s s' : State}

theorem start_supplied (p : Program) (env : Env) : (p.start env).Supplied p.declarations :=
  ⟨p.next_start_le fun _ _ h => absurd h (Nat.lt_irrefl _), fun _ => p.taken_start⟩

theorem define_supplied {x : Name} {id : ExprId} {σ : Scheme} (hs : s.Supplied p.declarations)
    (hok : p.define x id s = .ok σ s') : s'.Supplied p.declarations := by
  obtain ⟨t, s₁, s₂, hrun, hgen, rfl⟩ := define_ok.1 hok
  exact hs.commit (p.inferWithin_local p.depth id _ _ _ s.beginRun_regular hrun) hgen x

end Program
end TypeInference

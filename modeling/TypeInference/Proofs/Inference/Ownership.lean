import TypeInference.Proofs.Inference.Locality

/-! Whose variables are quantified. Generalization quantifies variables that the checker has handed
out itself, and no variable of its caller, with one exception: the environment does not hold what
the declarations leave open, so that is quantified as well, with all that the solution has put in
its place. A caller's variable could also be quantified because the solution is captured by a scheme
that quantifies it; this takes a scheme with free variables that quantifies a variable free
elsewhere in the environment. -/
namespace TypeInference

open Unification (vars)

/-- Solutions of the equations that agree on such variables agree on this one, too. -/
def Determined (es : List Equation) (P : TyVar → Prop) (w : TyVar) : Prop :=
  ∀ θ η : TyVar → Ty, Solves θ es → Solves η es → (∀ v, P v → η v = θ v) → η w = θ w

theorem Determined.mono {es ds : List Equation} {P : TyVar → Prop} {w : TyVar}
    (h : Determined es P w) (hle : es <+: ds) : Determined ds P w := fun θ η hθ hη he =>
  h θ η (fun e hmem => hθ e (hle.subset hmem)) (fun e hmem => hη e (hle.subset hmem)) he

theorem Substitution.Idempotent.factors_subst {S : Substitution} (h : S.Idempotent)
    (r : TyVar → Ty) : S.Factors fun v => (S.image v).subst r := by
  intro v
  rw [← Ty.subst_subst, h.factors v]

section Solved

variable {es : List Equation} {S : Substitution} {P : TyVar → Prop} {u w : TyVar}

theorem determined_of_image (hS : Substitution.solve ∅ es = ⟨S, none⟩) (hu : P u)
    (hw : w ∈ (S.image u).occurrences) : Determined es P w := by
  intro θ η hθ hη he
  refine Ty.eq_of_subst_eq ?_ hw
  rw [(solves_iff_factors hS).1 hθ u, (solves_iff_factors hS).1 hη u, he u hu]

/-- A variable that is left open is determined only by what leads to it. -/
theorem Determined.exists_image (h : Determined es P w) (hS : Substitution.solve ∅ es = ⟨S, none⟩)
    (hw : w ∉ S) : ∃ u, P u ∧ w ∈ (S.image u).occurrences := by
  by_contra hn
  have hi := solution_idempotent hS
  have himg : S.image w = .var w := Substitution.image_of_not_mem hw
  -- put something else in place of `w`, which changes no solution of the variables with `P`
  have he : ∀ v, P v → (S.image v).replace w .bool = S.image v := fun v hv =>
    Ty.replace_of_not_mem fun hocc => hn ⟨v, hv, hocc⟩
  have hsame :=
    h S.image (fun v => (S.image v).replace w .bool) ((solves_iff_factors hS).2 hi.factors)
    ((solves_iff_factors hS).2 (hi.factors_subst _)) he
  simp [himg, Ty.replace, Ty.subst] at hsame

end Solved

/-- A scheme with free variables quantifies no variable that the environment leaves open. -/
def Env.Separate (env : Env) : Prop :=
  ∀ (x : Name) (τ : Scheme), env[x]? = some τ → ¬τ.Closed → ∀ w ∈ τ.vars, w ∉ env.freeVars

namespace State

variable {d : Declarations} {n : Nat} {b s s₁ s₂ : State} {t : Ty} {σ : Scheme} {w : TyVar}

/-- What the result of a part of a run leaves open is new, or the environment or a declared member
leads to it. -/
theorem Advances.source (h : s.Advances d s₁ t.occurrences) (hmax : s.next ≤ TyVar.maxId)
    (hs : ∀ v ∈ vars s.equations, Taken s.next v) {u : Unit}
    (hok : Infer.solvePending s₁ = .ok u s₂) (hw : w ∈ (s₂.solution.apply t).occurrences) :
    Issued s.next s₂.next w ∨
      ∃ u, (u ∈ s.env.freeVars ∨ u ∈ d.freeVars) ∧ w ∈ (s₂.solution.image u).occurrences := by
  by_contra hn
  obtain ⟨hold, hfree⟩ := not_or.1 hn
  have h₂ : s.Advances d s₂ t.occurrences := by
    simpa using h.trans (Infer.solvePending_local h.regular hok)
  have hfactors : ∀ θ, Solves θ s₂.equations ↔ s₂.solution.Factors θ := fun θ =>
    solves_iff_factors (Infer.solve_of_solvePending h.regular hok)
  have hi := h₂.regular.idempotent
  -- a solution that gives something else for `w`, except to the variables handed out meanwhile
  classical
  let r : TyVar → Ty := fun v => (s₂.solution.image v).replace w .bool
  let η : TyVar → Ty := fun v => if Issued s.next s₂.next v then s₂.solution.image v else r v
  have hr : Solves r s₂.equations := (hfactors r).2 (hi.factors_subst _)
  have hη : Solves η s.equations := by
    have hr₁ : Solves r s.equations := fun e he => hr e (h₂.equations_le.subset he)
    exact hr₁.congr fun v hv => if_neg ((hs v hv).not_issued (h₂.keeps.next_max hmax))
  have hagree : ∀ v, v ∈ s.env.freeVars ∨ v ∈ d.freeVars ∨ Issued s.next s₂.next v →
      η v = s₂.solution.image v := by
    intro v hv
    by_cases hnew : Issued s.next s₂.next v
    · exact if_pos hnew
    · have hv : v ∈ s.env.freeVars ∨ v ∈ d.freeVars := hv.imp_right (Or.resolve_right · hnew)
      exact (if_neg hnew).trans (Ty.replace_of_not_mem fun hocc => hfree ⟨v, hv, hocc⟩)
  obtain ⟨hη₂, ht⟩ := h₂.determined s₂.solution.image η ((hfactors _).2 hi.factors) hη hagree
  obtain ⟨v, hv, hwv⟩ := Ty.mem_occurrences_subst.1 hw
  have hsame : (s₂.solution.image v).subst η = (s₂.solution.image v).subst .var := by
    rw [(hfactors η).1 hη₂ v, ht v hv, Ty.subst_var]
  have hηw : η w = .var w := Ty.eq_of_subst_eq hsame hwv
  have himg : s₂.solution.image w = .var w := Substitution.image_of_not_mem (hi.not_mem hwv)
  simp [η, r, hold, himg, Ty.replace, Ty.subst] at hηw

/-- Between calls of a checker whose supply started at `n`: a scheme with free variables quantifies
no variable of the caller that the environment holds open. -/
structure Settled (d : Declarations) (n : Nat) (s : State) : Prop extends s.Supplied d where
  le_next : n ≤ s.next
  schemes : ∀ (x : Name) (τ : Scheme), s.env[x]? = some τ → ¬τ.Closed → ∀ w ∈ τ.vars,
    Issued n s.next w ∨ w ∈ d.freeVars ∨ w ∉ s.env.freeVars

/-- Where the variables of a run that starts from `b` come from. -/
def Source (d : Declarations) (b : State) (m : Nat) (v : TyVar) : Prop :=
  v ∈ b.env.freeVars ∨ v ∈ d.freeVars ∨ Issued b.next m v

/-- A run that has started from `b` goes on. -/
structure Running (d : Declarations) (b s : State) : Prop where
  regular : s.Regular
  next_le : b.next ≤ s.next
  next_max : b.next ≤ TyVar.maxId → s.next ≤ TyVar.maxId
  within : s.Within (Source d b s.next)

theorem running_beginRun (d : Declarations) (b : State) : Running d b b.beginRun where
  regular := b.beginRun_regular
  next_le := Nat.le_refl _
  next_max := id
  within := ⟨nofun, fun _ hv => .inl hv⟩

theorem Running.advance (h : Running d b s) {vs : List TyVar} (ha : s.Advances d s₁ vs) :
    Running d b s₁ ∧ ∀ v ∈ vs, Source d b s₁.next v := by
  have hmono : ∀ v, Source d b s.next v → Source d b s₁.next v := fun v =>
    Or.imp_right (Or.imp_right fun hv => hv.mono (Nat.le_refl _) ha.keeps.next_le)
  obtain ⟨hw, hvs⟩ := ha.within (Source d b s₁.next) (fun v hv => .inr (.inl hv))
    (fun v hv => .inr (.inr (hv.mono h.next_le (Nat.le_refl _)))) (h.within.mono hmono)
  exact ⟨⟨ha.regular, Nat.le_trans h.next_le ha.keeps.next_le,
    fun hmax => ha.keeps.next_max (h.next_max hmax), hw⟩, hvs⟩

theorem Running.insert (h : Running d b s) (x : Name)
    (hfree : ∀ v ∈ σ.freeVars, Source d b s.next v) :
    Running d b { s with env := s.env.insert x σ } where
  regular := h.regular.withEnv _
  next_le := h.next_le
  next_max := h.next_max
  within := ⟨h.within.equations, fun v hv =>
    (Env.mem_freeVars_insert hv).elim (hfree v) (h.within.env v)⟩

/-- In a run from `b`: a scheme with free variables quantifies variables of the checker, such as the
declarations determine, or such as the run does not meet elsewhere. -/
structure Tracked (d : Declarations) (n : Nat) (b s : State) : Prop extends Running d b s where
  schemes : ∀ (x : Name) (τ : Scheme), s.env[x]? = some τ → ¬τ.Closed → ∀ w ∈ τ.vars,
    Issued n s.next w ∨ Determined s.equations (· ∈ d.freeVars) w ∨ w ∉ b.env.freeVars

theorem Settled.tracked (h : b.Settled d n) : Tracked d n b b.beginRun where
  toRunning := running_beginRun d b
  schemes x τ hx hτ w hw := by
    rcases h.schemes x τ hx hτ w hw with hw | hw | hw
    · exact .inl hw
    · exact .inr (.inl fun θ η _ _ he => he w hw)
    · exact .inr (.inr hw)

theorem Supplied.taken_source (h : b.Supplied d) {m : Nat} (hm : b.next ≤ m) {v : TyVar}
    (hv : Source d b m v) : Taken m v := by
  rcases hv with hv | hv | hv
  · exact (h.taken v (.inl hv)).mono hm
  · exact (h.taken v (.inr hv)).mono hm
  · exact fun _ => hv.2

namespace Tracked

theorem advance (h : Tracked d n b s) {vs : List TyVar} (ha : s.Advances d s₁ vs) :
    Tracked d n b s₁ ∧ ∀ v ∈ vs, Source d b s₁.next v := by
  obtain ⟨hrun, hvs⟩ := h.toRunning.advance ha
  refine ⟨⟨hrun, fun x τ hx hτ w hw => ?_⟩, hvs⟩
  rw [ha.keeps.env_eq] at hx
  rcases h.schemes x τ hx hτ w hw with hw | hw | hw
  · exact .inl (hw.mono (Nat.le_refl _) ha.keeps.next_le)
  · exact .inr (.inl (hw.mono ha.equations_le))
  · exact .inr (.inr hw)

theorem insert (h : Tracked d n b s) (x : Name) (hfree : ∀ v ∈ σ.freeVars, Source d b s.next v)
    (hvars : ∀ w ∈ σ.vars, Issued n s.next w ∨ Determined s.equations (· ∈ d.freeVars) w) :
    Tracked d n b { s with env := s.env.insert x σ } where
  toRunning := h.toRunning.insert x hfree
  schemes y τ hy hτ w hw := by
    rcases Env.of_getElem?_insert hy with rfl | hy
    · exact (hvars w hw).imp_right .inl
    · exact h.schemes y τ hy hτ w hw

/-- A generalization within the run quantifies variables of the checker, and such as a variable
leads to that the declarations leave open. -/
theorem quantified (h : Tracked d n b s) (hb : b.Settled d n) (ha : s.Advances d s₁ t.occurrences)
    (hok : Infer.generalize t s₁ = .ok σ s₂) (hw : w ∈ σ.vars) :
    Issued n s₂.next w ∨ ∃ u ∈ d.freeVars, w ∈ (s₂.solution.image u).occurrences := by
  obtain ⟨hsolve, hσ⟩ := Infer.generalize_ok.1 hok
  rw [hσ] at hw
  obtain ⟨hocc, hfree⟩ := Env.mem_vars_generalize.1 hw
  have hall := ha.trans (Infer.solvePending_local (d := d) ha.regular hsolve)
  have hn : n ≤ s.next := Nat.le_trans hb.le_next h.next_le
  have htaken : ∀ v ∈ vars s.equations, Taken s.next v := fun v hv =>
    hb.taken_source h.next_le (h.within.equations v hv)
  rcases ha.source (h.next_max hb.next_le) htaken hsolve hocc with hnew | ⟨u, hu | hu, hwu⟩
  · exact .inl (hnew.mono hn (Nat.le_refl _))
  · -- the environment leads to `w` but does not hold it open, so a scheme has captured it
    have henv : s₂.env = s.env := hall.keeps.env_eq
    obtain ⟨x, τ, hx, huτ⟩ := Env.mem_freeVars.1 hu
    have hτ : ¬τ.Closed := fun hc => hc.not_mem_freeVars u huτ
    have hcap : w ∈ τ.vars := by
      by_contra hn
      exact hfree (Substitution.mem_freeVars_applyEnv (henv ▸ hx) huτ hwu hn)
    have hopen : w ∉ s₂.solution := hall.regular.idempotent.not_mem hwu
    obtain ⟨h₂, -⟩ := h.advance hall
    rcases h₂.schemes x τ (henv ▸ hx) hτ w hcap with hw | hw | hw
    · exact .inl hw
    · exact .inr (hw.exists_image (Infer.solve_of_solvePending ha.regular hsolve) hopen)
    · have hsrc := (h₂.regular.madeOf h₂.within.equations).image (h₂.within.env u (henv ▸ hu)) w hwu
      rcases hsrc with hw' | hw' | hw'
      · exact absurd hw' hw
      · exact .inr ⟨w, hw', by simp [Substitution.image_of_not_mem hopen]⟩
      · exact .inl (hw'.mono hb.le_next (Nat.le_refl _))
  · exact .inr ⟨u, hu, hwu⟩

end Tracked

/-- The variables that a scheme of the run quantifies are determined by the declarations, unless
they are the checker's. -/
theorem Tracked.generalize (h : Tracked d n b s) (hb : b.Settled d n)
    (ha : s.Advances d s₁ t.occurrences) (hok : Infer.generalize t s₁ = .ok σ s₂) (x : Name) :
    Tracked d n b { s₂ with env := s₂.env.insert x σ } := by
  obtain ⟨h₁, -⟩ := h.advance ha
  obtain ⟨h₂, hfree⟩ := h₁.advance (Infer.generalize_local ha.regular hok)
  refine h₂.insert x hfree fun w hw => (h.quantified hb ha hok hw).imp_right ?_
  rintro ⟨u, hu, hw⟩
  exact determined_of_image
    (Infer.solve_of_solvePending ha.regular (Infer.generalize_ok.1 hok).1) hu hw

theorem Settled.keeps (h : s.Settled d n) (hk : s.Keeps s₁) : s₁.Settled d n where
  toSupplied := h.toSupplied.keeps hk
  le_next := Nat.le_trans h.le_next hk.next_le
  schemes x τ hx hτ w hw := by
    rw [hk.env_eq] at hx ⊢
    exact (h.schemes x τ hx hτ w hw).imp_left fun hw => hw.mono (Nat.le_refl _) hk.next_le

/-- After a definition the environment holds no variable open that its new scheme quantifies. -/
theorem Settled.commit (h : s.Settled d n) (ha : s.beginRun.Advances d s₁ t.occurrences)
    (hok : Infer.generalize t s₁ = .ok σ s₂) (x : Name) :
    Settled d n { s₂.commit with env := s₂.commit.env.insert x σ } := by
  obtain ⟨-, hσ⟩ := Infer.generalize_ok.1 hok
  have hkeeps := (ha.trans (Infer.generalize_local (d := d) ha.regular hok)).keeps
  have hle : s.next ≤ s₂.next := hkeeps.next_le
  refine ⟨h.toSupplied.commit ha hok x, Nat.le_trans h.le_next hle, fun y τ hy hτ w hw => ?_⟩
  rcases Env.of_getElem?_insert hy with rfl | hy
  · rw [hσ] at hw
    exact .inr (.inr fun hv => (Env.mem_vars_generalize.1 hw).2 (Infer.mem_freeVars_define hok hv))
  · have hy : (s₂.solution.applyEnv s₂.env)[y]? = some τ := hy
    rw [Substitution.getElem?_applyEnv, hkeeps.env_eq] at hy
    obtain ⟨τ₀, hτ₀, rfl⟩ := Option.map_eq_some_iff.1 hy
    have hopen : ¬τ₀.Closed := fun hc => hτ (by rwa [Substitution.applyScheme, hc.subst_eq])
    rcases h.schemes y τ₀ hτ₀ hopen w hw with hw | hw | hw
    · exact .inl (hw.mono (Nat.le_refl _) hle)
    · exact .inr (.inl hw)
    · by_cases hv : w ∈ Env.freeVars (s₂.commit.env.insert x σ)
      · have hsrc : Source d s s₂.next w := ha.commit hok (fun _ hv => .inr (.inl hv))
          (fun _ hv => .inr (.inr hv)) (fun _ hv => .inl hv) w hv
        rcases hsrc with hv | hv | hv
        · exact absurd hv hw
        · exact .inr (.inl hv)
        · exact .inl (hv.mono h.le_next (Nat.le_refl _))
      · exact .inr (.inr hv)

end State

namespace Program

open State

variable {p : Program} {env : Env} {b s s₁ s₂ : State} {t : Ty} {σ : Scheme}

theorem tracked_carries {k : Nat} (hb : b.Settled p.declarations k) (n : Nat) :
    Infer.Carries (p.inferWithin n) (Tracked p.declarations k b) where
  run hs h₁ := (hs.advance (p.inferWithin_local n _ _ _ _ hs.regular h₁)).1
  parameter hs h₁ x := by
    obtain ⟨ht, ha⟩ := hs.advance (Infer.fresh_local (d := p.declarations) _ _ _ hs.regular h₁)
    exact ht.insert x (fun v hv => ha v (by simpa using hv)) nofun
  value hs h₁ h₂ x := hs.generalize hb (p.inferWithin_local n _ _ _ _ hs.regular h₁) h₂ x

theorem start_settled (henv : env.Separate) :
    (p.start env).Settled p.declarations (p.start env).next :=
  ⟨p.start_supplied env, Nat.le_refl _, fun x τ hx hτ w hw => .inr (.inr (henv x τ hx hτ w hw))⟩

theorem Session.settled (henv : env.Separate) (h : p.Session env s) :
    s.Settled p.declarations (p.start env).next := by
  refine h.invariant (start_settled henv) Settled.keeps fun s s' x id σ hs hok => ?_
  obtain ⟨t, s₁, s₂, hrun, hgen, rfl⟩ := define_ok.1 hok
  exact hs.commit (p.inferWithin_local p.depth id _ _ _ hs.tracked.regular hrun) hgen x

/-- Whatever calls a checker has served and however they ended, every variable that it quantifies
was handed out by its own supply, and neither the caller's environment nor a declared member leaves
it open, or else the solution has put it in place of a variable that a declared member leaves
open. -/
theorem quantified_own (henv : env.Separate) (hs : p.Session env s) (hcall : p.Generalizes s t s₁)
    (hok : Infer.generalize t s₁ = .ok σ s₂) {v : TyVar} (hv : v ∈ σ.vars) :
    (Issued (p.start env).next s₂.next v ∧ v ∉ env.freeVars ∧ v ∉ p.declarations.freeVars) ∨
      ∃ u ∈ p.declarations.freeVars, v ∈ (s₂.solution.apply (.var u)).occurrences := by
  have hb := hs.settled henv
  obtain ⟨n, id, s₀, hs₀, hrun⟩ := hcall.exists_run (tracked_carries hb) hb.tracked
  have ha := p.inferWithin_local n id s₀ s₁ t hs₀.regular hrun
  have hgen := Infer.generalize_local (d := p.declarations) ha.regular hok
  have hmax := (ha.trans hgen).keeps.next_max (hs₀.next_max hb.next_le)
  refine (hs₀.quantified hb ha hok hv).imp_left fun hnew => ⟨hnew, fun hv => ?_, fun hv => ?_⟩
  · exact (p.taken_start (.inl hv)).not_issued hmax hnew
  · exact (p.taken_start (.inr hv)).not_issued hmax hnew

/-- `λ y, (x, 1.m)`, where the type of the member is not known. -/
def openProgram : Program where
  table := ⟨#[.ident ⟨5⟩, .int 1, .member ⟨1⟩ ⟨6⟩, .tuple ⟨0, 2⟩, .lambda ⟨7⟩ ⟨3⟩], #[⟨0⟩, ⟨2⟩]⟩
  declarations := Declarations.declare ∅ .int ⟨6⟩ (.mono (.var ⟨0⟩))

theorem quantified_own_open :
    (Env.unknown ⟨5⟩ ⟨1⟩).Separate ∧ ∃ s t s₁ s₂ σ, openProgram.Session (.unknown ⟨5⟩ ⟨1⟩) s ∧
    openProgram.Generalizes s t s₁ ∧ Infer.generalize t s₁ = .ok σ s₂ ∧
    σ = ⟨[⟨2⟩, ⟨0⟩], .fn (.var ⟨2⟩) (.tuple [.var ⟨1⟩, .var ⟨0⟩])⟩ ∧ ∀ v ∈ σ.vars,
      (Issued (openProgram.start (.unknown ⟨5⟩ ⟨1⟩)).next s₂.next v ∧
        v ∉ (Env.unknown ⟨5⟩ ⟨1⟩).freeVars ∧ v ∉ openProgram.declarations.freeVars) ∨
      ∃ u ∈ openProgram.declarations.freeVars, v ∈ (s₂.solution.apply (.var u)).occurrences := by
  have henv : (Env.unknown ⟨5⟩ ⟨1⟩).Separate := by
    intro x τ hx _ w hw
    rcases Env.of_getElem?_insert hx with rfl | hx
    · cases hw
    · simp at hx
  have hrun : EStateM.run' (do
      modify State.beginRun
      let t ← openProgram.inferExpr ⟨4⟩
      Infer.generalize t : Infer Scheme) (openProgram.start (.unknown ⟨5⟩ ⟨1⟩)) =
      some ⟨[⟨2⟩, ⟨0⟩], .fn (.var ⟨2⟩) (.tuple [.var ⟨1⟩, .var ⟨0⟩])⟩ := by
    rw [inferExpr_eq_of_nested (n := 4) (by decide) (by decide)]
    cbv
  obtain ⟨t, s₁, s₂, hcall, hgen⟩ := Generalizes.of_run' hrun
  exact ⟨henv, _, t, s₁, s₂, _, .start, hcall, hgen, rfl,
    fun v hv => quantified_own henv .start hcall hgen hv⟩

/-- `(if true then x else f 0, λ x, let w = f in w 0)`. -/
def capturingProgram : Program where
  table := ⟨#[.bool true, .ident ⟨6⟩, .ident ⟨5⟩, .int 0, .apply ⟨2⟩ ⟨3⟩, .ternary ⟨0⟩ ⟨1⟩ ⟨4⟩,
    .ident ⟨7⟩, .apply ⟨6⟩ ⟨3⟩, .letIn ⟨7⟩ ⟨2⟩ ⟨7⟩, .lambda ⟨6⟩ ⟨8⟩, .tuple ⟨0, 2⟩], #[⟨5⟩, ⟨9⟩]⟩
  declarations := ∅

def capturingEnv : Env :=
  ((∅ : Env).insert ⟨5⟩ ⟨[⟨1⟩], .fn (.var ⟨1⟩) (.var ⟨0⟩)⟩).insert ⟨6⟩ (.mono (.var ⟨1⟩))

/-- A variable that a declared member leaves open may be quantified, and so may a variable of the
environment if the scheme of another name quantifies it. -/
theorem caller_variable_quantified :
    (∃ s t s₁ s₂ σ v, openProgram.Session (.unknown ⟨5⟩ ⟨1⟩) s ∧ openProgram.Generalizes s t s₁ ∧
      Infer.generalize t s₁ = .ok σ s₂ ∧ v ∈ σ.vars ∧ v ∈ openProgram.declarations.freeVars) ∧
    ∃ s t s₁ s₂ σ v, capturingProgram.Session capturingEnv s ∧ capturingProgram.Generalizes s t s₁ ∧
      Infer.generalize t s₁ = .ok σ s₂ ∧ v ∈ σ.vars ∧ v ∈ capturingEnv.freeVars := by
  constructor
  · have hrun : EStateM.run' (do
        modify State.beginRun
        let t ← openProgram.inferExpr ⟨2⟩
        Infer.generalize t : Infer Scheme) (openProgram.start (.unknown ⟨5⟩ ⟨1⟩)) =
          some ⟨[⟨0⟩], .var ⟨0⟩⟩ := by
      rw [inferExpr_eq_of_nested (n := 2) (by decide) (by decide)]
      cbv
    obtain ⟨t, s₁, s₂, hcall, hgen⟩ := Generalizes.of_run' hrun
    exact ⟨_, t, s₁, s₂, _, ⟨0⟩, .start, hcall, hgen, by simp, by cbv⟩
  · obtain ⟨n, hdepth⟩ := Nat.exists_eq_add_of_le' (by decide : 4 ≤ capturingProgram.depth)
    have hrun : EStateM.run' (do
        modify State.beginRun
        let _ ← Infer.elements (capturingProgram.inferWithin (n + 3)) [⟨5⟩]
        let a ← Infer.fresh
        modify fun s => { s with env := s.env.insert ⟨6⟩ (.mono a) }
        let t ← capturingProgram.inferWithin (n + 1) ⟨2⟩
        Infer.generalize t : Infer Scheme) (capturingProgram.start capturingEnv) =
        some ⟨[⟨5⟩, ⟨1⟩], .fn (.var ⟨5⟩) (.var ⟨1⟩)⟩ := by cbv
    obtain ⟨s₂, hok⟩ := Infer.run'_eq_some.1 hrun
    obtain ⟨_, s₀, hbegin, hok⟩ := Infer.bind_ok.1 hok
    obtain ⟨-, rfl⟩ := EStateM.Result.ok.inj hbegin
    obtain ⟨ts, s₃, helems, hok⟩ := Infer.bind_ok.1 hok
    obtain ⟨a, s₄, hfresh, hok⟩ := Infer.bind_ok.1 hok
    obtain ⟨_, s₅, hbind, hok⟩ := Infer.bind_ok.1 hok
    obtain ⟨-, rfl⟩ := EStateM.Result.ok.inj hbind
    obtain ⟨t, s₁, hval, hgen⟩ := Infer.bind_ok.1 hok
    have hlist : capturingProgram.table.getList ⟨0, 2⟩ = .ok ([⟨5⟩] ++ ⟨9⟩ :: []) := rfl
    have hvisit : capturingProgram.Visits (n + 4) ⟨10⟩
        (capturingProgram.start capturingEnv).beginRun
        (n + 2) ⟨8⟩ { s₄ with env := s₄.env.insert ⟨6⟩ (.mono a) } :=
      .deeper (e := .tuple ⟨0, 2⟩) rfl (.element hlist helems)
        (.deeper (e := .lambda ⟨6⟩ ⟨8⟩) rfl (.lambda hfresh) .here)
    have hcall : capturingProgram.LetCall capturingProgram.depth ⟨10⟩
        (capturingProgram.start capturingEnv).beginRun t s₁ := by
      rw [hdepth]
      exact ⟨n + 1, ⟨8⟩, ⟨2⟩, ⟨7⟩, ⟨7⟩, _, hvisit, rfl, hval⟩
    exact ⟨_, t, s₁, s₂, _, ⟨1⟩, .start, .letIn hcall, hgen, by simp, by cbv⟩

end Program
end TypeInference

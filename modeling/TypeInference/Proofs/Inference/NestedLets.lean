import TypeInference.Proofs.Inference.Resumption

/-! Definitions and nested lets. A list of definitions that is followed by an expression has the
type that the expression has inside of lets, one for each definition. After each definition the run
of the lets has solved all its equations, so the next definition starts from a checkpoint of that
run. -/
namespace TypeInference

open State

/-- The expression binds names to values, each inside the one before, around the body. -/
def ExprTable.Lets (t : ExprTable) : List (Name × ExprId) → ExprId → ExprId → Prop
  | [], body, id => id = body
  | (x, value) :: defs, body, id =>
    ∃ rest, t.get id = .ok (.letIn x value rest) ∧ t.Lets defs body rest

namespace Checkpoint

variable {c : Checkpoint} {D : TyVar → Prop} {s s' : State} {t : Ty} {σ : Scheme}

def ofState (hs : s.Consistent D) (hall : s.unsolved = []) : Checkpoint where
  equations := s.equations
  solution := s.solution
  base := s.next
  solution_eq := by
    have htake := hs.solution_eq
    rwa [List.take_of_length_le (List.drop_eq_nil_iff.1 hall)] at htake
  bound_taken := hs.solution_taken.bound

theorem linked_start (hs : s.beginRun.Consistent D) :
    (ofState hs rfl).Linked s.beginRun s.beginRun where
  base_le := Nat.le_refl _
  next_eq := rfl
  equations_eq := ⟨[], rfl, rfl⟩
  regular := s.beginRun_regular
  regular_new := s.beginRun_regular
  env x := by
    cases hx : s.beginRun.env[x]? with
    | none => exact .none
    | some σ => exact .some (pairs_self fun v _ hv => Std.ExtTreeMap.not_mem_empty hv)

/-- Two runs have solved their equations. One binds a generalized type and goes on. The other writes
its solution into the environment, binds the type and starts anew. -/
theorem Solved.define (hs : c.Solved s s') (hc : s.Consistent D) (hall : s.unsolved = [])
    (hσ : σ = (s.solution.applyEnv s.env).generalize (s.solution.apply t)) (x : Name) :
    (ofState hc hall).Linked { s with env := s.env.insert x σ }
      (State.beginRun { s'.commit with env := s'.commit.env.insert x σ }) where
  base_le := Nat.le_refl _
  next_eq := hs.next_eq
  equations_eq := ⟨[], (List.append_nil _).symm, rfl⟩
  regular := hs.regular.withEnv _
  regular_new := beginRun_regular _
  env := by
    refine Env.insert_rel (fun y => ?_) (pairs_self fun v hv => ?_) x
    · change Option.Rel _ s.env[y]? (s'.solution.applyEnv s'.env)[y]?
      rw [← hs.applyEnv_eq, Substitution.getElem?_applyEnv]
      cases hy : s.env[y]? with
      | none => exact .none
      | some τ => exact .some ⟨rfl, fun v hv w hw hb => hc.noCapture y τ hy v hv w hb hw⟩
    · rw [hσ] at hv
      exact hc.idempotent.not_mem_apply (Env.mem_freeVars_generalize.1 hv).1

/-- The first run succeeds exactly if the second succeeds, if that has solved its equations then. -/
theorem Agrees.ok_iff {α : Type} {r r' : EStateM.Result Failure State α} (h : c.Agrees Eq r r')
    (hsolves : ∀ a s', r' = .ok a s' → ∃ θ, Solves θ s'.equations) (a : α) :
    (∃ s, r = .ok a s) ↔ ∃ s', r' = .ok a s' := by
  cases h with
  | ok hab =>
    subst hab
    simp
  | failed hfail =>
    constructor
    · rintro ⟨s, hok⟩
      cases hok
    · rintro ⟨s', hok⟩
      obtain ⟨θ, hθ⟩ := hsolves a s' hok
      exact absurd hθ ((hfail a s' hok).2 θ)

end Checkpoint

namespace Program

variable {p : Program} {c : Checkpoint} {D : TyVar → Prop} {s s' : State} {t : Ty} {k : Nat}
    {id : ExprId}

def resolved (p : Program) (k : Nat) (id : ExprId) : Infer Ty := do
  let t ← p.inferWithin k id
  Infer.resolve t

theorem resolved_letIn_ok {x : Name} {value rest : ExprId}
    (hget : p.table.get id = .ok (.letIn x value rest)) :
    (∃ s', p.resolved (k + 1) id s = .ok t s') ↔ ∃ a σ s₁ s₂, p.inferWithin k value s = .ok a s₁ ∧
      Infer.generalize a s₁ = .ok σ s₂ ∧
      ∃ s', p.resolved k rest { s₂ with env := s₂.env.insert x σ } = .ok t s' := by
  have hletIn : p.inferWithin (k + 1) id = Infer.letIn (p.inferWithin k) x value rest :=
    inferWithin_of_get hget
  -- the end of the scope does not matter to what follows
  have hscope : ∀ (u : Ty) (s₁ : State) (Γ : Env),
    (∃ s', Infer.resolve u { s₁ with env := Γ } = .ok t s') ↔
      ∃ s', Infer.resolve u s₁ = .ok t s' := by
    intro u s₁ Γ
    rw [Infer.exists_resolve_ok, Infer.exists_resolve_ok]
    rfl
  constructor
  · rintro ⟨s', hok⟩
    obtain ⟨u, s₃, hu, hres⟩ := Infer.bind_ok.1 hok
    rw [hletIn] at hu
    obtain ⟨a, σ, s₁, s₂, h₁, h₂, h₃⟩ := Infer.letIn_ok hu
    obtain ⟨s₄, h₄, rfl⟩ := Infer.withBinding_ok.1 h₃
    obtain ⟨s₅, hres⟩ := (hscope u s₄ _).1 ⟨s', hres⟩
    exact ⟨a, σ, s₁, s₂, h₁, h₂, s₅, Infer.bind_ok.2 ⟨u, s₄, h₄, hres⟩⟩
  · rintro ⟨a, σ, s₁, s₂, h₁, h₂, s', hok⟩
    obtain ⟨u, s₄, h₄, hres⟩ := Infer.bind_ok.1 hok
    obtain ⟨s₅, hres⟩ := (hscope u s₄ (s₄.env.restore x s₂.env[x]?)).2 ⟨s', hres⟩
    refine ⟨s₅, Infer.bind_ok.2 ⟨u, _, ?_, hres⟩⟩
    rw [hletIn]
    exact Infer.bind_ok.2 ⟨a, s₁, h₁,
      Infer.bind_ok.2 ⟨σ, s₂, h₂, Infer.withBinding_ok.2 ⟨s₄, h₄, rfl⟩⟩⟩

/-- One definition. Either its value is generalized in both runs, and the second starts anew from a
checkpoint of the first, or both fail. -/
theorem define_resumes (hd : p.ClosedDeclarations) {value : ExprId} (hk : p.table.Nested k value)
    (hle : k ≤ p.depth) (hs : c.Linked s s'.beginRun) (hc : s.Consistent D) (x : Name) :
    (∃ a σ s₁ s₂ s₃, p.inferWithin k value s = .ok a s₁ ∧ Infer.generalize a s₁ = .ok σ s₂ ∧
      p.define x value s' = .ok σ s₃ ∧ ∃ (b : Checkpoint) (E : TyVar → Prop),
        b.Linked { s₂ with env := s₂.env.insert x σ } s₃.beginRun ∧
        State.Consistent E { s₂ with env := s₂.env.insert x σ }) ∨
    (∀ a σ s₁ s₂, p.inferWithin k value s = .ok a s₁ → Infer.generalize a s₁ ≠ .ok σ s₂) ∧
      ∀ σ s₃, p.define x value s' ≠ .ok σ s₃ := by
  have hvalue := inferWithin_resumes hd c hk (hk.mono hle) s s'.beginRun hs
  generalize hr : p.inferWithin k value s = r, hr' : p.inferWithin p.depth value s'.beginRun =
    r' at hvalue
  cases hvalue with
  | @ok a a' s₁ s₁' ha hs₁ =>
    rcases hs₁.solvePending with ⟨s₂, s₂', h₂, h₂', hsolved, -⟩ | ⟨e, e', s₂, s₂', h₂, h₂', -⟩
    · obtain ⟨hext, hknown⟩ := hd.grows k value D s s₁ a hc hr
      have hgen : Infer.generalize a s₁ =
          .ok ((s₂.solution.applyEnv s₂.env).generalize (s₂.solution.apply a)) s₂ :=
        Infer.generalize_ok.2 ⟨h₂, rfl⟩
      have hgen' : Infer.generalize a' s₁' =
          .ok ((s₂.solution.applyEnv s₂.env).generalize (s₂.solution.apply a)) s₂' :=
        Infer.generalize_ok.2 ⟨h₂', by rw [hsolved.apply_eq ha, hsolved.applyEnv_eq]⟩
      have hc₂ := (Infer.solvePending_grows hext.consistent h₂).consistent
      have hin := (Infer.generalize_grows hext.consistent hknown hgen x).2
      exact .inl ⟨a, _, s₁, s₂, _, rfl, hgen, define_ok.2 ⟨a', s₁', s₂', hr', hgen', rfl⟩, _, _,
        hsolved.define hc₂ (Infer.unsolved_solvePending h₂) rfl x, hin⟩
    · refine .inr ⟨fun b σ s₃ s₄ hb hgen => ?_, fun σ s₃ hdef => ?_⟩
      · cases hb
        rw [(Infer.generalize_ok.1 hgen).1] at h₂
        cases h₂
      · obtain ⟨b, s₄, s₅, hb, hgen, -⟩ := define_ok.1 hdef
        cases hr'.symm.trans hb
        rw [(Infer.generalize_ok.1 hgen).1] at h₂'
        cases h₂'
  | failed hfail =>
    refine .inr ⟨by rintro b σ s₃ s₄ ⟨⟩, fun σ s₃ hdef => ?_⟩
    obtain ⟨b, s₄, s₅, hb, hgen, -⟩ := define_ok.1 hdef
    obtain ⟨hs₄, hunsolvable⟩ := hfail b s₄ (hr'.symm.trans hb)
    obtain ⟨θ, hθ⟩ := Infer.exists_solves_of_solvePending hs₄ (Infer.generalize_ok.1 hgen).1
    exact hunsolvable θ hθ

theorem defineAll_cons_ok {x : Name} {value body : ExprId} {defs : List (Name × ExprId)} :
    (∃ s', (p.defineAll ((x, value) :: defs) >>= fun _ => p.infer body) s = .ok t s') ↔
      ∃ σ s₁, p.define x value s = .ok σ s₁ ∧
        ∃ s', (p.defineAll defs >>= fun _ => p.infer body) s₁ = .ok t s' := by
  constructor
  · rintro ⟨s', hok⟩
    obtain ⟨u, s₂, hdefs, hbody⟩ := Infer.bind_ok.1 hok
    obtain ⟨σ, s₁, hdef, hdefs⟩ := Infer.bind_ok.1 hdefs
    exact ⟨σ, s₁, hdef, s', Infer.bind_ok.2 ⟨u, s₂, hdefs, hbody⟩⟩
  · rintro ⟨σ, s₁, hdef, s', hok⟩
    obtain ⟨u, s₂, hdefs, hbody⟩ := Infer.bind_ok.1 hok
    exact ⟨s', Infer.bind_ok.2 ⟨u, s₂, Infer.bind_ok.2 ⟨σ, s₁, hdef, hdefs⟩, hbody⟩⟩

theorem resolved_lets_iff (hd : p.ClosedDeclarations) {defs : List (Name × ExprId)} {body : ExprId}
    (hlets : p.table.Lets defs body id) (hk : p.table.Nested k id) (hle : k ≤ p.depth)
    (hs : c.Linked s s'.beginRun) (hc : s.Consistent D) (t : Ty) :
    (∃ s₁, p.resolved k id s = .ok t s₁) ↔
      ∃ s₁, (p.defineAll defs >>= fun _ => p.infer body) s' = .ok t s₁ := by
  induction defs generalizing c D s s' k id with
  | nil =>
    obtain rfl : id = body := hlets
    have hagrees : c.Agrees Eq (p.resolved k id s) (p.resolved p.depth id s'.beginRun) :=
      (inferWithin_resumes hd c hk (hk.mono hle)).bind
        (fun _ _ ht => Checkpoint.Simulates.resolve ht) _ _ hs
    refine hagrees.ok_iff (fun a s₁ hok => ?_) t
    obtain ⟨u, s₂, hu, hres⟩ := Infer.bind_ok.1 hok
    have hs₂ := (Infer.Appends.appends hs.regular_new hu).1
    have hsolve := (Infer.resolve_ok.1 hres).1
    have hsolves := Infer.exists_solves_of_solvePending hs₂ hsolve
    obtain ⟨S, -, rfl⟩ := Infer.solvePending_ok.1 hsolve
    exact hsolves
  | cons b defs ih =>
    obtain ⟨x, value⟩ := b
    obtain ⟨rest, hget, hlets⟩ := hlets
    cases k with
    | zero => exact hk.elim
    | succ k =>
      obtain ⟨e, cs, he, hcs, hk⟩ := hk
      obtain rfl := Except.ok.inj (hget.symm.trans he)
      obtain rfl := Except.ok.inj hcs
      have hle' : k ≤ p.depth := Nat.le_of_succ_le hle
      rw [resolved_letIn_ok hget, defineAll_cons_ok]
      rcases define_resumes hd (hk value (by simp)) hle' hs hc x with
        ⟨a, σ, s₁, s₂, s₃, h₁, h₂, h₃, b, E, hlinked, hE⟩ | ⟨hfail, hfail'⟩
      · have hrest := ih hlets (hk rest (by simp)) hle' hlinked hE
        constructor
        · rintro ⟨a', σ', s₁', s₂', h₁', h₂', hok⟩
          cases h₁.symm.trans h₁'
          cases h₂.symm.trans h₂'
          exact ⟨σ, s₃, h₃, hrest.1 hok⟩
        · rintro ⟨σ', s₃', h₃', hok⟩
          cases h₃.symm.trans h₃'
          exact ⟨a, σ, s₁, s₂, h₁, h₂, hrest.2 hok⟩
      · constructor
        · rintro ⟨a, σ, s₁, s₂, h₁, h₂, -⟩
          exact absurd h₂ (hfail a σ s₁ s₂ h₁)
        · rintro ⟨σ, s₃, h₃, -⟩
          exact absurd h₃ (hfail' σ s₃)

/-- Definitions agree with nested lets: checking the definitions one after the other and then the
body on one checker succeeds exactly if the body inside of lets has a type, and it finds that
type. -/
theorem typeOf_lets_iff_defineAll {env : Env} (henv : env.Unmixed) (hd : p.ClosedDeclarations)
    {defs : List (Name × ExprId)} {body : ExprId} (hlets : p.table.Lets defs body id)
    (hwf : p.table.WellFormed id) (t : Ty) :
    p.typeOf env id = .ok t ↔ ∃ s, (do p.defineAll defs; p.infer body) (p.start env) = .ok t s := by
  have hdepth : p.table.Nested p.depth id := hwf.nested.mono (Nat.le_add_left _ _)
  have hc := p.start_consistent henv
  have hlinked := Checkpoint.linked_start hc
  rw [typeOf_ok]
  exact resolved_lets_iff hd hlets hdepth (Nat.le_refl _) hlinked hc t

/-- `let i = λ y, y in let a = (if true then x else 1) in i x.m`, where integers have a member
`m : ∀ b, b → int`. -/
def chainedProgram : Program where
  table := ⟨#[.ident ⟨5⟩, .int 1, .bool true, .ternary ⟨2⟩ ⟨0⟩ ⟨1⟩, .member ⟨0⟩ ⟨8⟩, .ident ⟨10⟩,
    .lambda ⟨10⟩ ⟨5⟩, .ident ⟨6⟩, .apply ⟨7⟩ ⟨4⟩, .letIn ⟨7⟩ ⟨3⟩ ⟨8⟩, .letIn ⟨6⟩ ⟨6⟩ ⟨9⟩], #[]⟩
  declarations := Declarations.declare ∅ .int ⟨8⟩ ⟨[⟨0⟩], .fn (.var ⟨0⟩) .int⟩

/-- The definition of `a` decides what the receiver `x` is. -/
theorem typeOf_lets_iff_defineAll_receiver :
    (Env.unknown ⟨5⟩ ⟨0⟩).Unmixed ∧ chainedProgram.ClosedDeclarations ∧
    chainedProgram.table.Lets [(⟨6⟩, ⟨6⟩), (⟨7⟩, ⟨3⟩)] ⟨8⟩ ⟨10⟩ ∧
    chainedProgram.table.WellFormed ⟨10⟩ ∧
    chainedProgram.typeOf (.unknown ⟨5⟩ ⟨0⟩) ⟨10⟩ = .ok (.fn (.var ⟨3⟩) .int) ∧
    ∃ s, (do chainedProgram.defineAll [(⟨6⟩, ⟨6⟩), (⟨7⟩, ⟨3⟩)]; chainedProgram.infer ⟨8⟩)
      (chainedProgram.start (.unknown ⟨5⟩ ⟨0⟩)) = .ok (.fn (.var ⟨3⟩) .int) s := by
  have henv := Env.unmixed_unknown ⟨5⟩ ⟨0⟩
  have hd : chainedProgram.ClosedDeclarations :=
    Declarations.closed_declare Declarations.closed_empty rfl
  have hlets : chainedProgram.table.Lets [(⟨6⟩, ⟨6⟩), (⟨7⟩, ⟨3⟩)] ⟨8⟩ ⟨10⟩ :=
    ⟨⟨9⟩, rfl, ⟨8⟩, rfl, rfl⟩
  have hn : chainedProgram.table.Nested 5 ⟨10⟩ := by decide
  have htype : chainedProgram.typeOf (.unknown ⟨5⟩ ⟨0⟩) ⟨10⟩ = .ok (.fn (.var ⟨3⟩) .int) := by
    rw [typeOf, infer_eq_of_nested hn (by decide)]
    cbv
  have hwf := hn.wellFormed
  exact ⟨henv, hd, hlets, hwf, htype, (typeOf_lets_iff_defineAll henv hd hlets hwf _).1 htype⟩

end Program
end TypeInference

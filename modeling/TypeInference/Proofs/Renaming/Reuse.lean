import TypeInference.Proofs.Renaming.Alignment
import TypeInference.Proofs.Renaming.Stages

/-! Reuse. A checker that has been asked before hands out other variables than a new one, and that
is all that its past can be told by. The same holds inside a scope that a caller has opened, as long
as the type it binds leaves open no variable that is still to be handed out. -/
namespace TypeInference

def Infer.answer {α : Type} (act : Infer α) (s : State) : Except Failure α :=
  match act s with
  | .ok a _ => .ok a
  | .error e _ => .error e

theorem Infer.answer_error {α : Type} {act : Infer α} {s : State} {e : Failure} :
    act.answer s = .error e ↔ ∃ s', act s = .error e s' := by
  rw [answer]
  cases act s <;> simp

theorem Infer.answer_withBinding {α : Type} (x : Name) (σ : Scheme) (act : Infer α) (s : State) :
    (withBinding x σ act).answer s = act.answer { s with env := s.env.insert x σ } := by
  rw [answer, answer, withBinding]
  cases act { s with env := s.env.insert x σ } <;> rfl

def renameAnswer (ρ : TyVar → TyVar) : Except Failure Ty → Except Failure Ty
  | .ok t => .ok (t.rename ρ)
  | .error e => .error (e.rename ρ)

theorem Env.Unmixed.reserved {env : Env} (h : env.Unmixed) (n : Nat) : env.Reserved n := by
  intro x σ hx hopen v hv
  rcases h x σ hx with hmono | hclosed
  · simp [List.isEmpty_iff.1 hmono] at hv
  · exact absurd hclosed hopen

namespace Program

variable {p : Program} {env : Env} {s : State} {id : ExprId}

/-- The states of a checker that has been asked for types, and for definitions that it has
refused. -/
inductive Consulted (p : Program) (env : Env) : State → Prop where
  | start : Consulted p env (p.start env)
  | infer {s : State} (h : Consulted p env s) (id : ExprId) : Consulted p env ((p.infer id).after s)
  | refuse {s : State} (h : Consulted p env s) {x : Name} {id : ExprId} {e : Failure}
    (herr : (p.define x id).answer s = .error e) : Consulted p env ((p.define x id).after s)

theorem Consulted.keeps (h : p.Consulted env s) : (p.start env).Keeps s := by
  induction h with
  | start => exact .refl _
  | infer _ id ih => exact ih.trans (p.infer_scoped id _)
  | @refuse s _ x id e herr ih =>
    obtain ⟨s', herr⟩ := Infer.answer_error.1 herr
    rcases p.define_after x id s with hkeeps | ⟨σ, s₁, hok⟩
    · exact ih.trans hkeeps
    · rw [herr] at hok
      cases hok

theorem Consulted.env_eq (h : p.Consulted env s) : s.env = env := h.keeps.env_eq

theorem Consulted.supplied (h : p.Consulted env s) : s.Supplied p.declarations :=
  (p.start_supplied env).keeps h.keeps

/-- What a checker answers depends on its environment. Its supply, which may be ahead of that of a
new checker, decides about the choice of variables only. -/
theorem infer_answer (hs : s.Supplied p.declarations)
    (hcap : s.next = (p.start s.env).next ∨ s.env.Reserved (p.start s.env).next)
    (hroom : (p.infer id).answer s ≠ .error (.fault .overflow)) :
    ∃ ρ : TyVar → TyVar, Function.Injective ρ ∧
      (∀ v, v ∈ s.env.freeVars ∨ v ∈ p.declarations.freeVars → ρ v = v) ∧
      (p.infer id).answer s = renameAnswer ρ (p.typeOf s.env id) := by
  obtain ⟨κ, hlinked, hfix⟩ := start_linked_fixing hs hcap
  refine ⟨κ.map, κ.injective, fun v hv => hv.elim (hfix v) (κ.map_declared v), ?_⟩
  have hagrees := infer_agrees hlinked id
  rw [Infer.answer] at hroom ⊢
  rw [typeOf]
  generalize p.infer id (p.start s.env) = r, p.infer id s = r' at hagrees hroom ⊢
  cases hagrees with
  | ok ht => rw [ht.1]; rfl
  | error he => rw [he]; rfl
  | exhausted => exact absurd rfl hroom

/-- A checker that has been asked for types and for definitions that it has refused answers like a
new one: with the same type or the same error, up to one renaming that keeps variables apart and
leaves those of the environment and the declarations alone. -/
theorem infer_consulted (henv : env.Unmixed) (h : p.Consulted env s)
    (hroom : (p.infer id).answer s ≠ .error (.fault .overflow)) :
    ∃ ρ : TyVar → TyVar, Function.Injective ρ ∧
      (∀ v, v ∈ env.freeVars ∨ v ∈ p.declarations.freeVars → ρ v = v) ∧
      (p.infer id).answer s = renameAnswer ρ (p.typeOf env id) := by
  obtain rfl := h.env_eq
  exact infer_answer h.supplied (.inr (henv.reserved _)) hroom

/-- `x x`, `λ y, x y` and `λ y, x`. -/
def askedProgram : Program where
  table := ⟨#[.ident ⟨5⟩, .apply ⟨0⟩ ⟨0⟩, .ident ⟨10⟩, .apply ⟨0⟩ ⟨2⟩, .lambda ⟨10⟩ ⟨3⟩,
    .lambda ⟨10⟩ ⟨0⟩], #[]⟩
  declarations := ∅

/-- A type has been asked for, and a definition by `x x` refused after its equation had been
recorded. -/
theorem infer_consulted_refused : ∃ s, askedProgram.Consulted (.unknown ⟨5⟩ ⟨0⟩) s ∧
    (askedProgram.infer ⟨4⟩).answer s = .ok (.fn (.var ⟨4⟩) (.var ⟨5⟩)) ∧
    askedProgram.typeOf (.unknown ⟨5⟩ ⟨0⟩) ⟨4⟩ = .ok (.fn (.var ⟨1⟩) (.var ⟨2⟩)) ∧
    ∃ ρ : TyVar → TyVar, Function.Injective ρ ∧
      (∀ v, v ∈ (Env.unknown ⟨5⟩ ⟨0⟩).freeVars ∨ v ∈ askedProgram.declarations.freeVars → ρ v = v) ∧
      (askedProgram.infer ⟨4⟩).answer s =
        renameAnswer ρ (askedProgram.typeOf (.unknown ⟨5⟩ ⟨0⟩) ⟨4⟩) := by
  have hrefused : (askedProgram.define ⟨6⟩ ⟨1⟩).answer
      ((askedProgram.infer ⟨4⟩).after (askedProgram.start (.unknown ⟨5⟩ ⟨0⟩))) =
      .error (.type (.conflict (.infinite ⟨0⟩ (.fn (.var ⟨0⟩) (.var ⟨3⟩))))) := by
    rw [infer_eq_of_nested (n := 3) (by decide) (by decide),
      define_eq_of_nested (n := 2) (by decide) (by decide)]
    cbv
  have hagain : (askedProgram.infer ⟨4⟩).answer ((askedProgram.define ⟨6⟩ ⟨1⟩).after
      ((askedProgram.infer ⟨4⟩).after (askedProgram.start (.unknown ⟨5⟩ ⟨0⟩)))) =
      .ok (.fn (.var ⟨4⟩) (.var ⟨5⟩)) := by
    rw [infer_eq_of_nested (n := 3) (by decide) (by decide),
      define_eq_of_nested (n := 2) (by decide) (by decide)]
    cbv
  have hnew : askedProgram.typeOf (.unknown ⟨5⟩ ⟨0⟩) ⟨4⟩ = .ok (.fn (.var ⟨1⟩) (.var ⟨2⟩)) := by
    rw [typeOf, infer_eq_of_nested (n := 3) (by decide) (by decide)]
    cbv
  have hs := (Consulted.start.infer ⟨4⟩).refuse hrefused
  refine ⟨_, hs, hagain, hnew, infer_consulted (Env.unmixed_unknown ⟨5⟩ ⟨0⟩) hs ?_⟩
  rw [hagain]
  simp

/-- In a scope that binds a name to a scheme, a checker answers like a new one for the environment
with that binding: with alpha-equal types, or with the same error up to the choice of variables. The
scheme must leave open only variables below the counter of the checker, unless the supply is used
up. If the new checker starts at another counter, no scheme with free variables may quantify a
variable at or above that one. -/
theorem withBinding_infer (h : p.Consulted env s) {x : Name} {σ : Scheme}
    (hopen : ∀ v ∈ σ.freeVars, Taken s.next v)
    (hcap : s.next = (p.start (env.insert x σ)).next ∨
      Env.Reserved (p.start (env.insert x σ)).next (env.insert x σ))
    (hroom : (Infer.withBinding x σ (p.infer id)).answer s ≠ .error (.fault .overflow)) :
    (∃ t t', p.typeOf (env.insert x σ) id = .ok t ∧
      (Infer.withBinding x σ (p.infer id)).answer s = .ok t' ∧ t.alphaEq t' = true) ∨
    ∃ (ρ : TyVar → TyVar) (e : Failure), Function.Injective ρ ∧
      p.typeOf (env.insert x σ) id = .error e ∧
      (Infer.withBinding x σ (p.infer id)).answer s = .error (e.rename ρ) := by
  obtain rfl := h.env_eq
  rw [Infer.answer_withBinding] at hroom ⊢
  have hs : State.Supplied p.declarations { s with env := s.env.insert x σ } := by
    refine ⟨h.supplied.next_le, fun v hv => ?_⟩
    rcases hv with hv | hv
    · rcases Env.mem_freeVars_insert hv with hv | hv
      · exact hopen v hv
      · exact h.supplied.taken v (.inl hv)
    · exact h.supplied.taken v (.inr hv)
  obtain ⟨ρ, hρ, -, hanswer⟩ := infer_answer hs hcap hroom
  rw [hanswer]
  cases p.typeOf (s.env.insert x σ) id with
  | ok t => exact .inl ⟨t, t.rename ρ, rfl, rfl, Ty.alphaEq_rename hρ.injOn⟩
  | error e => exact .inr ⟨ρ, e, hρ, rfl, rfl⟩

def scopedEnv : Env := .unknown ⟨7⟩ ⟨3⟩

def scopedScheme : Scheme := ⟨[⟨1⟩], .fn (.var ⟨1⟩) (.var ⟨3⟩)⟩

theorem mem_freeVars_scopedScheme {v : TyVar} (hv : v ∈ scopedScheme.freeVars) : v = ⟨3⟩ := by
  simp only [Scheme.mem_freeVars, scopedScheme, Ty.occurrences_fn, Ty.occurrences_var,
    List.cons_append, List.nil_append, List.mem_cons, List.not_mem_nil, or_false] at hv
  tauto

/-- The checker has failed to find a type for `λ y, x y` before the scope binds `x`. -/
theorem withBinding_infer_scoped : ∃ s, askedProgram.Consulted scopedEnv s ∧
    (∀ v ∈ scopedScheme.freeVars, Taken s.next v) ∧
    Env.Reserved (askedProgram.start (scopedEnv.insert ⟨5⟩ scopedScheme)).next
      (scopedEnv.insert ⟨5⟩ scopedScheme) ∧
    ∃ t t', askedProgram.typeOf (scopedEnv.insert ⟨5⟩ scopedScheme) ⟨4⟩ = .ok t ∧
      (Infer.withBinding ⟨5⟩ scopedScheme (askedProgram.infer ⟨4⟩)).answer s = .ok t' ∧
      t.alphaEq t' = true ∧ t = .fn (.var ⟨4⟩) (.var ⟨6⟩) ∧ t' = .fn (.var ⟨5⟩) (.var ⟨7⟩) := by
  have hscope : (Infer.withBinding ⟨5⟩ scopedScheme (askedProgram.infer ⟨4⟩)).answer
      ((askedProgram.infer ⟨4⟩).after (askedProgram.start scopedEnv)) =
      .ok (.fn (.var ⟨5⟩) (.var ⟨7⟩)) := by
    rw [infer_eq_of_nested (n := 3) (by decide) (by decide)]
    cbv
  have hnew : askedProgram.typeOf (scopedEnv.insert ⟨5⟩ scopedScheme) ⟨4⟩ =
      .ok (.fn (.var ⟨4⟩) (.var ⟨6⟩)) := by
    rw [typeOf, infer_eq_of_nested (n := 3) (by decide) (by decide)]
    cbv
  have hnext : ((askedProgram.infer ⟨4⟩).after (askedProgram.start scopedEnv)).next = 5 := by
    rw [infer_eq_of_nested (n := 3) (by decide) (by decide)]
    cbv
  have hstart : (askedProgram.start (scopedEnv.insert ⟨5⟩ scopedScheme)).next = 4 := by cbv
  have hs : askedProgram.Consulted scopedEnv
      ((askedProgram.infer ⟨4⟩).after (askedProgram.start scopedEnv)) :=
    Consulted.start.infer ⟨4⟩
  have hopen : ∀ v ∈ scopedScheme.freeVars,
      Taken ((askedProgram.infer ⟨4⟩).after (askedProgram.start scopedEnv)).next v := by
    intro v hv _
    rw [mem_freeVars_scopedScheme hv, hnext]
    decide
  have hcap : Env.Reserved (askedProgram.start (scopedEnv.insert ⟨5⟩ scopedScheme)).next
      (scopedEnv.insert ⟨5⟩ scopedScheme) := by
    intro x σ hx _ v hv
    rw [hstart]
    rcases Env.of_getElem?_insert hx with rfl | hx
    · obtain rfl : v = ⟨1⟩ := by simpa [scopedScheme] using hv
      decide
    · rcases Env.of_getElem?_insert hx with rfl | hx
      · cases hv
      · simp at hx
  refine ⟨_, hs, hopen, hcap, ?_⟩
  rcases withBinding_infer hs hopen (.inr hcap) (by rw [hscope]; simp) with
    ⟨t, t', ht, ht', halpha⟩ | ⟨_, e, -, he, -⟩
  · refine ⟨t, t', ht, ht', halpha, ?_, ?_⟩
    · exact (Except.ok.inj (hnew.symm.trans ht)).symm
    · exact (Except.ok.inj (hscope.symm.trans ht')).symm
  · rw [hnew] at he
    cases he

/-- A scope whose scheme leaves open a variable that the checker hands out next. In it `λ y, x y`
has no type, though a new checker for the environment with that binding finds one, and the type of
`λ y, x` takes its argument for what `x` is. -/
theorem withBinding_captures :
    (Infer.withBinding ⟨5⟩ (.mono (.var ⟨0⟩)) (askedProgram.infer ⟨4⟩)).answer
        (askedProgram.start ∅) =
      .error (.type (.conflict (.infinite ⟨0⟩ (.fn (.var ⟨0⟩) (.var ⟨1⟩))))) ∧
    askedProgram.typeOf ((∅ : Env).insert ⟨5⟩ (.mono (.var ⟨0⟩))) ⟨4⟩ =
      .ok (.fn (.var ⟨1⟩) (.var ⟨2⟩)) ∧
    (Infer.withBinding ⟨5⟩ (.mono (.var ⟨0⟩)) (askedProgram.infer ⟨5⟩)).answer
        (askedProgram.start ∅) =
      .ok (.fn (.var ⟨0⟩) (.var ⟨0⟩)) ∧
    askedProgram.typeOf ((∅ : Env).insert ⟨5⟩ (.mono (.var ⟨0⟩))) ⟨5⟩ =
      .ok (.fn (.var ⟨1⟩) (.var ⟨0⟩)) ∧
    (Ty.fn (.var ⟨1⟩) (.var ⟨0⟩)).alphaEq (.fn (.var ⟨0⟩) (.var ⟨0⟩)) = false := by
  simp (disch := decide) only [typeOf, infer_eq_of_nested (p := askedProgram) (n := 3)]
  refine ⟨?_, ?_, ?_, ?_, ?_⟩ <;> cbv

end Program
end TypeInference

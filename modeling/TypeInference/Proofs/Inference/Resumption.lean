import TypeInference.Proofs.Inference.Capture
import TypeInference.Proofs.Inference.Simulation
import TypeInference.Proofs.Unification.Composition

/-! Resumption. One run goes on from equations that it has solved, another starts there without them
and sees only what their solution has written into its environment. What the second finds is what
the first finds, under that solution, and both end in the same way. On the way they may differ at
member accesses: where the first knows a receiver by a variable only and has to solve its equations,
the second may know its type already and leave them. If they have no solution, the first fails there
and the second at its end. -/
namespace TypeInference

open State

theorem Ty.not_isVar_subst {t : Ty} (θ : TyVar → Ty) (h : ¬t.isVar = true) :
    ¬(t.subst θ).isVar = true := by
  cases t <;> simp_all [isVar, subst]

theorem Ty.nominalName?_subst_of_not_isVar {t : Ty} (θ : TyVar → Ty) (h : ¬t.isVar = true) :
    (t.subst θ).nominalName? = t.nominalName? := by
  cases t <;> simp_all [isVar, nominalName?, subst]

/-- Equations that have been solved, with their solution. The supply stood at `base`. -/
structure Checkpoint where
  equations : List Equation
  solution : Substitution
  base : Nat
  solution_eq : Substitution.solve ∅ equations = ⟨solution, none⟩
  bound_taken : ∀ v ∈ solution, Taken base v

namespace Checkpoint

variable (c : Checkpoint) {α β γ δ : Type}

def PairsTy (t t' : Ty) : Prop := t' = c.solution.apply t

/-- The second scheme is the first under the solution, which brings nothing into it that it
quantifies. -/
structure Pairs (σ σ' : Scheme) : Prop where
  eq : σ' = c.solution.applyScheme σ
  apart : ∀ v ∈ σ.freeVars, ∀ w ∈ (c.solution.image v).occurrences, w ∉ σ.vars

/-- The first state has gone on from the checkpoint with the equations that it had. The second has
started there: it has the later equations only, and all that it has is under the solution. -/
structure Linked (s s' : State) : Prop where
  base_le : c.base ≤ s.next
  next_eq : s'.next = s.next
  equations_eq : ∃ es, s.equations = c.equations ++ es ∧
    s'.equations = es.map (Equation.subst c.solution.image)
  regular : s.Regular
  regular_new : s'.Regular
  env : ∀ x : Name, Option.Rel c.Pairs s.env[x]? s'.env[x]?

structure Solved (s s' : State) : Prop extends c.Linked s s' where
  image_eq : s.solution.image = (c.solution.compose s'.solution).image
  unbound : ∀ v, ∀ w ∈ (s.solution.image v).occurrences, w ∉ c.solution

/-- Both runs have succeeded, or the first has failed, and the second has failed or cannot solve the
equations that it has recorded. -/
inductive Agrees (R : α → β → Prop) :
    EStateM.Result Failure State α → EStateM.Result Failure State β → Prop where
  | ok {a : α} {b : β} {s s' : State} (h : R a b) (hs : c.Linked s s') :
    Agrees R (.ok a s) (.ok b s')
  | failed {e : Failure} {s : State} {r : EStateM.Result Failure State β}
    (h : ∀ b s', r = .ok b s' → s'.Regular ∧ ∀ θ, ¬Solves θ s'.equations) : Agrees R (.error e s) r

def Simulates (R : α → β → Prop) (act : Infer α) (act' : Infer β) : Prop :=
  ∀ s s' : State, c.Linked s s' → c.Agrees R (act s) (act' s')

variable {c} {R : α → β → Prop} {Q : γ → δ → Prop} {s s' : State} {t t' : Ty} {σ σ' : Scheme}

theorem idempotent (c : Checkpoint) : c.solution.Idempotent := solution_idempotent c.solution_eq

/-- Variables handed out after the checkpoint are not bound by the solution. -/
theorem image_new {n : Nat} (hn : c.base ≤ n) (hroom : n < TyVar.maxId) :
    c.solution.image ⟨n⟩ = .var ⟨n⟩ := by
  refine Substitution.image_of_not_mem fun hmem => ?_
  have hlt : n < c.base := c.bound_taken _ hmem (by omega)
  omega

theorem pairs_mono (ht : c.PairsTy t t') : c.Pairs (.mono t) (.mono t') := by
  refine ⟨?_, fun _ _ _ _ => List.not_mem_nil⟩
  rw [ht]
  simp [Substitution.applyScheme, Scheme.subst, Scheme.mono, Substitution.apply]

/-- A scheme whose free variables are not bound by the solution is the same in both runs. -/
theorem pairs_self (hσ : ∀ v ∈ σ.freeVars, v ∉ c.solution) : c.Pairs σ σ where
  eq := by
    have hid : ∀ v ∈ σ.ty.occurrences,
        (if v ∈ σ.vars then .var v else c.solution.image v) = Ty.var v := by
      intro v hv
      split
      · rfl
      · next hb => exact Substitution.image_of_not_mem (hσ v (Scheme.mem_freeVars.2 ⟨hv, hb⟩))
    rw [Substitution.applyScheme, Scheme.subst, Ty.subst_congr hid, Ty.subst_var]
  apart v hv w hw := by
    rw [Substitution.image_of_not_mem (hσ v hv)] at hw
    obtain rfl : w = v := by simpa using hw
    exact (Scheme.mem_freeVars.1 hv).2

/-- A solution for the second run does to the second scheme what the composition does to the
first. -/
theorem Pairs.applyScheme_eq (h : c.Pairs σ σ') {T U : Substitution}
    (hU : U.image = (c.solution.compose T).image) : U.applyScheme σ = T.applyScheme σ' := by
  rw [h.eq, Substitution.applyScheme, Substitution.applyScheme, Substitution.applyScheme, hU]
  simp only [Scheme.subst, Ty.subst_subst]
  congr 1
  refine Ty.subst_congr fun v hv => ?_
  by_cases hb : v ∈ σ.vars
  · simp [hb, Ty.subst]
  · rw [if_neg hb, if_neg hb, Substitution.image_compose, Substitution.apply]
    refine Ty.subst_congr fun w hw => (if_neg ?_).symm
    exact h.apart v (Scheme.mem_freeVars.2 ⟨hv, hb⟩) w hw

namespace Linked

theorem lookup (hs : c.Linked s s') (x : Name) :
    (∃ σ σ', s.env[x]? = some σ ∧ s'.env[x]? = some σ' ∧ c.Pairs σ σ') ∨
      s.env[x]? = none ∧ s'.env[x]? = none := Env.lookup_rel (hs.env x)

theorem advance (hs : c.Linked s s') (n : Nat) :
    c.Linked { s with next := s.next + n } { s' with next := s'.next + n } where
  base_le := Nat.le_add_right_of_le hs.base_le
  next_eq := congrArg (· + n) hs.next_eq
  equations_eq := hs.equations_eq
  regular := ⟨hs.regular.solved_le, hs.regular.solution_eq⟩
  regular_new := ⟨hs.regular_new.solved_le, hs.regular_new.solution_eq⟩
  env := hs.env

theorem constrain (hs : c.Linked s s') {l l' r r' : Ty} (hl : c.PairsTy l l')
    (hr : c.PairsTy r r') :
    c.Linked { s with constraints := s.constraints.push ⟨l, r⟩ }
      { s' with constraints := s'.constraints.push ⟨l', r'⟩ } where
  base_le := hs.base_le
  next_eq := hs.next_eq
  equations_eq := by
    obtain ⟨es, hes, hes'⟩ := hs.equations_eq
    refine ⟨es ++ [⟨l, r⟩], ?_, ?_⟩
    · rw [← List.append_assoc, ← hes]
      simp [State.equations]
    · rw [List.map_append, ← hes', hl, hr]
      simp [State.equations, Equation.subst, Substitution.apply]
  regular := hs.regular.constrain _
  regular_new := hs.regular_new.constrain _
  env := hs.env

theorem insert (hs : c.Linked s s') (hσ : c.Pairs σ σ') (x : Name) :
    c.Linked { s with env := s.env.insert x σ } { s' with env := s'.env.insert x σ' } where
  base_le := hs.base_le
  next_eq := hs.next_eq
  equations_eq := hs.equations_eq
  regular := hs.regular.withEnv _
  regular_new := hs.regular_new.withEnv _
  env := Env.insert_rel hs.env hσ x

theorem solvePending (hs : c.Linked s s') :
    (∃ s₁ s₁', Infer.solvePending s = .ok () s₁ ∧ Infer.solvePending s' = .ok () s₁' ∧
      c.Solved s₁ s₁' ∧
      c.Linked s₁ s') ∨
    ∃ e e' s₁ s₁', Infer.solvePending s = .error e s₁ ∧ Infer.solvePending s' = .error e' s₁' ∧
      ∀ θ, ¬Solves θ s'.equations := by
  obtain ⟨es, hes, hes'⟩ := hs.equations_eq
  have hall : s.solution.solve s.unsolved = c.solution.solve es := by
    rw [hs.regular.solve_unsolved, hes, Substitution.solve_append_ok c.solution_eq]
  have hall' : s'.solution.solve s'.unsolved = Substitution.solve ∅ s'.equations :=
    hs.regular_new.solve_unsolved
  have hparts := Substitution.solve_append_compose c.solution_eq es
  rw [Substitution.solve_append_ok c.solution_eq, ← hall, ← hes', ← hall'] at hparts
  rcases hS : s.solution.solve s.unsolved with ⟨S, _ | d⟩ <;>
    rcases hS' : s'.solution.solve s'.unsolved with ⟨S', _ | d'⟩ <;>
    simp only [hS, hS', reduceCtorEq, false_and, true_and] at hparts
  · refine .inl ⟨_, _, Infer.solvePending_ok.2 ⟨S, hS, rfl⟩,
      Infer.solvePending_ok.2 ⟨S', hS', rfl⟩, ?_, ?_⟩
    · refine ⟨⟨hs.base_le, hs.next_eq, hs.equations_eq, hs.regular.solve hS,
        hs.regular_new.solve hS', hs.env⟩, hparts, fun v => ?_⟩
      have himage : ∀ w ∈ ((c.solution.solve es).solution.image v).occurrences, w ∉ c.solution :=
        Substitution.solve_image (fun _ _ _ hw => c.idempotent.not_mem hw) fun _ hw =>
          c.idempotent.not_mem hw
      rwa [← hall, hS] at himage
    · exact ⟨hs.base_le, hs.next_eq, hs.equations_eq, hs.regular.solve hS, hs.regular_new, hs.env⟩
  · refine .inr ⟨_, _, _, _, Infer.solvePending_error.2 ⟨S, d, hS, rfl, rfl⟩,
      Infer.solvePending_error.2 ⟨S', d', hS', rfl, rfl⟩, fun θ => ?_⟩
    exact not_solves_of_conflict (hall'.symm.trans hS')

end Linked

theorem Solved.apply_eq (hs : c.Solved s s') (ht : c.PairsTy t t') :
    s.solution.apply t = s'.solution.apply t' := by
  rw [ht, Substitution.apply_eq_of_image hs.image_eq]

theorem Solved.applyEnv_eq (hs : c.Solved s s') :
    s.solution.applyEnv s.env = s'.solution.applyEnv s'.env := by
  apply Std.ExtTreeMap.ext_getElem?
  intro x
  rw [Substitution.getElem?_applyEnv, Substitution.getElem?_applyEnv]
  rcases hs.lookup x with ⟨σ, σ', hx, hx', hσ⟩ | ⟨hx, hx'⟩ <;> rw [hx, hx']
  · rw [Option.map_some, Option.map_some, hσ.applyScheme_eq hs.image_eq]
  · rfl

namespace Simulates

variable {act : Infer α} {act' : Infer β} {f : α → Infer γ} {f' : β → Infer δ}

/-- If the first run has failed, the second may go on, but it keeps the equations that it cannot
solve. -/
theorem bind [∀ b, Infer.Appends (f' b)] (h : c.Simulates R act act')
    (hf : ∀ a b, R a b → c.Simulates Q (f a) (f' b)) : c.Simulates Q (act >>= f) (act' >>= f') := by
  intro s s' hs
  have hact := h s s' hs
  generalize hr : act s = r, hr' : act' s' = r' at hact
  cases hact with
  | ok hab hs₁ =>
    rw [Infer.bind_of_ok hr, Infer.bind_of_ok hr']
    exact hf _ _ hab _ _ hs₁
  | failed hfail =>
    rw [Infer.bind_error.2 (.inl hr)]
    refine .failed fun d s₂ hok => ?_
    obtain ⟨b, s₁, h₁, h₂⟩ := Infer.bind_ok.1 hok
    obtain ⟨hs₁, hunsolvable⟩ := hfail b s₁ (hr'.symm.trans h₁)
    obtain ⟨hs₂, hle⟩ := Infer.Appends.appends hs₁ h₂
    exact ⟨hs₂, fun θ hθ => hunsolvable θ fun e he => hθ e (hle.subset he)⟩

theorem pure {a : α} {b : β} (h : R a b) : c.Simulates R (Pure.pure a) (Pure.pure b) :=
  fun _ _ hs => .ok h hs

theorem both_fail {e e' : Failure} {s₁ s₁' : State} : c.Agrees R (.error e s₁) (.error e' s₁') :=
  .failed nofun

theorem fail (e e' : TypeError) : c.Simulates R (Infer.fail e) (Infer.fail e') :=
  fun _ _ _ => both_fail

theorem fresh : c.Simulates c.PairsTy Infer.fresh Infer.fresh := by
  intro s s' hs
  by_cases hroom : s.next < TyVar.maxId
  · have hroom' : s'.next < TyVar.maxId := hs.next_eq ▸ hroom
    rw [Infer.fresh_ok.2 ⟨hroom, rfl, rfl⟩, Infer.fresh_ok.2 ⟨hroom', rfl, rfl⟩]
    refine .ok ?_ (hs.advance 1)
    rw [PairsTy, hs.next_eq, Substitution.apply, Ty.subst, c.image_new hs.base_le hroom]
  · have hroom' : ¬s'.next < TyVar.maxId := hs.next_eq ▸ hroom
    rw [Infer.fresh_overflow hroom, Infer.fresh_overflow hroom']
    exact both_fail

/-- An instance of the second scheme is the instance of the first under the solution. -/
theorem pairs_instantiate (hσ : c.Pairs σ σ') {n : Nat} (hn : c.base ≤ n)
    (hroom : n + σ.vars.length ≤ TyVar.maxId) :
    c.PairsTy
      ((Substitution.relabel σ.vars ((List.range' n σ.vars.length).map TyVar.mk)).apply σ.ty)
      ((Substitution.relabel σ.vars ((List.range' n σ.vars.length).map TyVar.mk)).apply σ'.ty) := by
  obtain ⟨f, hrange, -, himg⟩ := Substitution.exists_relabel_range' σ.vars n
  have hnew : ∀ v ∈ σ.vars, c.solution.image (f v) = .var (f v) := by
    intro v hv
    obtain ⟨hle, hlt⟩ := hrange v hv
    exact c.image_new (Nat.le_trans hn hle) (by omega)
  rw [PairsTy, hσ.eq]
  simp only [Substitution.apply, Substitution.applyScheme, Scheme.subst, Ty.subst_subst]
  refine Ty.subst_congr fun v hv => ?_
  by_cases hb : v ∈ σ.vars
  · simp [hb, Ty.subst, himg, hnew]
  · have hid : ∀ w ∈ (c.solution.image v).occurrences,
        (Substitution.relabel σ.vars ((List.range' n σ.vars.length).map TyVar.mk)).image w =
          .var w := by
      intro w hw
      rw [himg, if_neg (hσ.apart v (Scheme.mem_freeVars.2 ⟨hv, hb⟩) w hw)]
    rw [if_neg hb, himg, if_neg hb, Ty.subst, Ty.subst_congr hid, Ty.subst_var]

theorem instantiate (hσ : c.Pairs σ σ') :
    c.Simulates c.PairsTy (Infer.instantiate σ) (Infer.instantiate σ') := by
  intro s s' hs
  have hvars : σ'.vars = σ.vars := by rw [hσ.eq]; rfl
  have hmono : σ'.isMono = σ.isMono := by rw [Scheme.isMono, Scheme.isMono, hvars]
  by_cases hm : σ.isMono = true
  · rw [Infer.instantiate_mono hm, Infer.instantiate_mono (hmono.trans hm)]
    refine .ok ?_ hs
    have hv : σ.vars = [] := List.isEmpty_iff.1 hm
    rw [PairsTy, hσ.eq]
    simp [Substitution.applyScheme, Scheme.subst, hv, Substitution.apply]
  · have hm' : ¬σ'.isMono = true := by rwa [hmono]
    by_cases hroom : s.next + σ.vars.length ≤ TyVar.maxId
    · have hroom' : s'.next + σ'.vars.length ≤ TyVar.maxId := by rwa [hs.next_eq, hvars]
      rw [Infer.instantiate_poly hm hroom, Infer.instantiate_poly hm' hroom', hvars]
      refine .ok ?_ (hs.advance σ.vars.length)
      rw [hs.next_eq]
      exact pairs_instantiate hσ hs.base_le hroom
    · have hroom' : ¬s'.next + σ'.vars.length ≤ TyVar.maxId := by rwa [hs.next_eq, hvars]
      rw [Infer.instantiate_overflow hm hroom, Infer.instantiate_overflow hm' hroom']
      exact both_fail

theorem constrain {l l' r r' : Ty} (hl : c.PairsTy l l') (hr : c.PairsTy r r') :
    c.Simulates Eq (Infer.constrain l r) (Infer.constrain l' r') :=
  fun _ _ hs => .ok rfl (hs.constrain hl hr)

theorem afterSolving {f : State → α} {f' : State → β}
    (h : ∀ s s', c.Solved s s' → R (f s) (f' s')) :
    c.Simulates R (do Infer.solvePending; let s ← get; return f s)
      (do Infer.solvePending; let s ← get; return f' s) := by
  intro s s' hs
  rcases hs.solvePending with ⟨s₁, s₁', h₁, h₁', hsolved, -⟩ | ⟨e, e', s₁, s₁', h₁, h₁', -⟩
  · rw [Infer.bind_of_ok h₁, Infer.bind_of_ok h₁']
    exact .ok (h s₁ s₁' hsolved) hsolved.toLinked
  · rw [Infer.bind_error.2 (.inl h₁), Infer.bind_error.2 (.inl h₁')]
    exact both_fail

theorem resolve (ht : c.PairsTy t t') : c.Simulates Eq (Infer.resolve t) (Infer.resolve t') :=
  afterSolving fun _ _ hs => hs.apply_eq ht

/-- Both runs generalize to the same scheme, and the solution of the checkpoint says nothing about
it. -/
theorem generalize (ht : c.PairsTy t t') :
    c.Simulates c.Pairs (Infer.generalize t) (Infer.generalize t') := by
  refine afterSolving fun s s' hs => ?_
  rw [hs.apply_eq ht, hs.applyEnv_eq]
  refine pairs_self fun v hv => ?_
  have hocc := (Env.mem_freeVars_generalize.1 hv).1
  rw [← hs.apply_eq ht] at hocc
  obtain ⟨u, -, hu⟩ := Ty.mem_occurrences_subst.1 hocc
  exact hs.unbound u v hu

theorem withBinding (h : c.Simulates R act act') (hσ : c.Pairs σ σ') (x : Name) :
    c.Simulates R (Infer.withBinding x σ act) (Infer.withBinding x σ' act') := by
  intro s s' hs
  have hact := h _ _ (hs.insert hσ x)
  generalize hr : act { s with env := s.env.insert x σ } = r,
    hr' : act' { s' with env := s'.env.insert x σ' } = r' at hact
  rw [Infer.withBinding, hr]
  cases hact with
  | ok hab hs₁ =>
    rw [Infer.withBinding, hr']
    exact .ok hab ⟨hs₁.base_le, hs₁.next_eq, hs₁.equations_eq, hs₁.regular.withEnv _,
      hs₁.regular_new.withEnv _, Env.restore_rel hs₁.env x (hs.env x)⟩
  | failed hfail =>
    refine .failed fun b s₁ hok => ?_
    obtain ⟨s₂, hrun, rfl⟩ := Infer.withBinding_ok.1 hok
    obtain ⟨hs₂, hunsolvable⟩ := hfail b s₂ (hr'.symm.trans hrun)
    exact ⟨hs₂.withEnv _, hunsolvable⟩

theorem ident (x : Name) : c.Simulates c.PairsTy (Infer.ident x) (Infer.ident x) := by
  intro s s' hs
  rcases hs.lookup x with ⟨σ, σ', hx, hx', hσ⟩ | ⟨hx, hx'⟩
  · rw [Infer.ident_bound hx, Infer.ident_bound hx']
    exact instantiate hσ s s' hs
  · rw [Infer.ident_unbound hx, Infer.ident_unbound hx']
    exact both_fail

/-- The second run may know the name of the receiver without solving its equations. -/
theorem receiverType (ht : c.PairsTy t t') :
    c.Simulates (fun r r' => r'.nominalName? = r.nominalName?) (Infer.receiverType t)
      (Infer.receiverType t') := by
  by_cases hv : t.isVar = true
  · rw [Infer.receiverType, if_pos hv]
    by_cases hv' : t'.isVar = true
    · rw [Infer.receiverType, if_pos hv']
      exact afterSolving fun s s' hs => congrArg Ty.nominalName? (hs.apply_eq ht).symm
    · rw [Infer.receiverType, if_neg hv']
      intro s s' hs
      rcases hs.solvePending with ⟨s₁, s₁', h₁, -, hsolved, hs₁⟩ | ⟨e, -, s₁, -, h₁, -, hunsolvable⟩
      · rw [Infer.resolve_ok.2 ⟨h₁, rfl⟩]
        refine .ok ?_ hs₁
        rw [hsolved.apply_eq ht]
        exact (Ty.nominalName?_subst_of_not_isVar _ hv').symm
      · have hresolve : Infer.resolve t s = .error e s₁ := Infer.bind_error.2 (.inl h₁)
        rw [hresolve]
        refine .failed fun b s₂ hok => ?_
        obtain ⟨-, rfl⟩ := Infer.pure_ok.1 hok
        exact ⟨hs.regular_new, hunsolvable⟩
  · have hname : (c.solution.apply t).nominalName? = t.nominalName? :=
      Ty.nominalName?_subst_of_not_isVar _ hv
    have hv' : ¬t'.isVar = true := by
      rw [ht]
      exact Ty.not_isVar_subst _ hv
    rw [Infer.receiverType, if_neg hv, Infer.receiverType, if_neg hv']
    exact pure (ht ▸ hname)

theorem receiverName (m : Name) {r r' : Ty} (hr : r'.nominalName? = r.nominalName?) :
    c.Simulates Eq (Infer.receiverName m r) (Infer.receiverName m r') := by
  cases hn : r.nominalName? with
  | none =>
    obtain ⟨e, he⟩ := Infer.receiverName_of_none (m := m) hn
    obtain ⟨e', he'⟩ := Infer.receiverName_of_none (m := m) (hr.trans hn)
    rw [he, he']
    exact fail e e'
  | some n =>
    intro s s' hs
    rw [Infer.receiverName_ok.2 ⟨hn, rfl⟩, Infer.receiverName_ok.2 ⟨hr.trans hn, rfl⟩]
    exact .ok rfl hs

/-- Declared schemes are closed, so both runs use the same instance. -/
theorem useMember {d : Declarations} {m : Name} (hd : ∀ n σ, d.member? n m = some σ → σ.Closed)
    (n : Name) : c.Simulates c.PairsTy (Infer.useMember d m n) (Infer.useMember d m n) := by
  rw [Infer.useMember]
  cases hm : d.member? n m with
  | none => exact fail _ _
  | some σ =>
    have hσ : c.Pairs σ σ := pairs_self fun v hv => absurd hv ((hd n σ hm).not_mem_freeVars v)
    exact (instantiate hσ).bind fun i i' hi => fresh.bind fun r r' hr =>
      (constrain hr hi).bind fun _ _ _ => pure hr

theorem access {d : Declarations} {m : Name} (hd : ∀ n σ, d.member? n m = some σ → σ.Closed)
    (ht : c.PairsTy t t') : c.Simulates c.PairsTy (Infer.access d m t) (Infer.access d m t') := by
  refine (receiverType ht).bind fun r r' hr => (receiverName m hr).bind fun n n' hn => ?_
  subst hn
  exact useMember hd n

end Simulates

def runs (c : Checkpoint) : TwoRuns where
  Linked := c.Linked
  PairsTy := c.PairsTy
  Pairs := c.Pairs
  Agrees := c.Agrees

theorem lawful (c : Checkpoint) {p : Program} (hd : p.ClosedDeclarations) :
    c.runs.Lawful p.declarations where
  base h := ((Ty.subst_congr (by simp [h])).trans (Ty.subst_var _)).symm
  fn ht hu := by
    obtain rfl := ht
    obtain rfl := hu
    simp [runs, PairsTy, Substitution.apply, Ty.subst]
  tuple_cons ht hts := by
    simp only [runs, PairsTy, Substitution.apply, Ty.subst, Ty.substAll_eq,
      Ty.tuple.injEq] at ht hts ⊢
    rw [ht, hts, List.map_cons]
  mono := pairs_mono
  bind := Simulates.bind
  pure := Simulates.pure
  fault _ _ _ _ := Simulates.both_fail
  fresh := Simulates.fresh
  ident := Simulates.ident
  constrain := Simulates.constrain
  generalize := Simulates.generalize
  withBinding := Simulates.withBinding
  access ht m := Simulates.access (fun n => hd n m) ht

end Checkpoint

namespace Program

/-- From linked states, inference ends in agreement, with any depth on either side that is enough
for the expression. -/
theorem inferWithin_resumes {p : Program} (hd : p.ClosedDeclarations) (c : Checkpoint) {k n : Nat}
    {id : ExprId} (hk : p.table.Nested k id) (hn : p.table.Nested n id) :
    c.Simulates c.PairsTy (p.inferWithin k id) (p.inferWithin n id) := by
  induction k generalizing n id with
  | zero => exact hk.elim
  | succ k ih =>
    cases n with
    | zero => exact hn.elim
    | succ n =>
      obtain ⟨e, cs, he, hcs, hk⟩ := hk
      obtain ⟨e', cs', he', hcs', hn⟩ := hn
      obtain rfl := Except.ok.inj (he.symm.trans he')
      obtain rfl := Except.ok.inj (hcs.symm.trans hcs')
      rw [inferWithin_of_get he, inferWithin_of_get he]
      refine (c.lawful hd).node fun ds hds id hid => ?_
      obtain rfl := Except.ok.inj (hcs.symm.trans hds)
      exact ih (hk id hid) (hn id hid)

end Program
end TypeInference

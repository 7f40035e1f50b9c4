import TypeInference.Proofs.Inference.Appends

/-! What inference makes of the names in an expression. A name is free in an expression if it occurs
there outside the scopes that bind it. The environment is one map, which every scope changes and
puts back, but a run looks only at the free names of its expression: these alone can be reported as
unbound, and a closed scheme at any other name makes no difference. -/
namespace TypeInference

def Expr.binder? : Expr → Option Name
  | .lambda x _ | .letIn x _ _ => some x
  | _ => none

/-- The name occurs in the expression outside the scopes that bind it. The value of a `let` is
outside the scope of the `let`. -/
inductive ExprTable.Free (t : ExprTable) : ExprId → Name → Prop where
  | ident {id : ExprId} {x : Name} (h : t.get id = .ok (.ident x)) : Free t id x
  | lambda {id body : ExprId} {x y : Name} (h : t.get id = .ok (.lambda y body)) (hne : x ≠ y)
    (hbody : Free t body x) : Free t id x
  | value {id value body : ExprId} {x y : Name} (h : t.get id = .ok (.letIn y value body))
    (hvalue : Free t value x) : Free t id x
  | body {id value body : ExprId} {x y : Name} (h : t.get id = .ok (.letIn y value body))
    (hne : x ≠ y) (hbody : Free t body x) : Free t id x
  | part {id c : ExprId} {e : Expr} {cs : List ExprId} {x : Name} (h : t.get id = .ok e)
    (hbinder : e.binder? = none) (hcs : t.children e = .ok cs) (hc : c ∈ cs)
    (hfree : Free t c x) : Free t id x

def ExprTable.FreeIn (t : ExprTable) (x : Name) : Expr → Prop
  | .ident y => x = y
  | .lambda y body => x ≠ y ∧ t.Free body x
  | .letIn y value body => t.Free value x ∨ x ≠ y ∧ t.Free body x
  | e => ∃ cs, t.children e = .ok cs ∧ ∃ c ∈ cs, t.Free c x

theorem ExprTable.free_iff {t : ExprTable} {id : ExprId} {e : Expr} {x : Name}
    (he : t.get id = .ok e) : t.Free id x ↔ t.FreeIn x e := by
  constructor
  · intro h
    cases h with
    | ident h =>
      cases h.symm.trans he
      rfl
    | lambda h hne hbody =>
      cases h.symm.trans he
      exact ⟨hne, hbody⟩
    | value h hvalue =>
      cases h.symm.trans he
      exact .inl hvalue
    | body h hne hbody =>
      cases h.symm.trans he
      exact .inr ⟨hne, hbody⟩
    | part h hbinder hcs hc hfree =>
      cases h.symm.trans he
      cases e with
      | ident y =>
        cases hcs
        cases hc
      | lambda y body => cases hbinder
      | letIn y value body => cases hbinder
      | _ => exact ⟨_, hcs, _, hc, hfree⟩
  · intro h
    cases e with
    | ident y => exact h ▸ .ident he
    | lambda y body => exact .lambda he h.1 h.2
    | letIn y value body => exact h.elim (.value he) fun h => .body he h.1 h.2
    | _ =>
      obtain ⟨cs, hcs, c, hc, hfree⟩ := h
      exact .part he rfl hcs hc hfree

namespace Env

/-- No scheme with free variables stands at the name. -/
def ClosedAt (env : Env) (x : Name) : Prop := ∀ σ, env[x]? = some σ → σ.Closed

/-- Where the environments differ, neither has a scheme with free variables. -/
def ClosedDiff (env env' : Env) : Prop :=
  ∀ x : Name, env'[x]? = env[x]? ∨ env.ClosedAt x ∧ env'.ClosedAt x

variable {env env' : Env}

theorem ClosedDiff.symm (h : env.ClosedDiff env') : env'.ClosedDiff env := fun x =>
  (h x).imp Eq.symm And.symm

theorem ClosedDiff.freeVars_subset (h : env.ClosedDiff env') {v : TyVar} (hv : v ∈ env.freeVars) :
    v ∈ env'.freeVars := by
  obtain ⟨x, σ, hx, hvσ⟩ := mem_freeVars.1 hv
  rcases h x with heq | ⟨hclosed, -⟩
  · exact mem_freeVars.2 ⟨x, σ, heq.trans hx, hvσ⟩
  · exact absurd hvσ ((hclosed σ hx).not_mem_freeVars v)

theorem ClosedDiff.freeVars_eq (h : env.ClosedDiff env') : env'.freeVars = env.freeVars :=
  Std.ExtTreeSet.ext_mem fun _ => ⟨h.symm.freeVars_subset, h.freeVars_subset⟩

theorem ClosedDiff.insert (h : env.ClosedDiff env') (x : Name) (σ : Scheme) :
    ClosedDiff (env.insert x σ) (env'.insert x σ) := by
  intro y
  simp only [ClosedAt, Std.ExtTreeMap.getElem?_insert]
  split
  · exact .inl rfl
  · exact h y

theorem getElem?_insert_of_ne {x y : Name} (hne : y ≠ x) (σ : Scheme) :
    (env.insert x σ)[y]? = env[y]? := by
  rw [Std.ExtTreeMap.getElem?_insert,
    if_neg fun h => hne (Std.LawfulEqCmp.compare_eq_iff_eq.1 h).symm]

theorem ClosedAt.insert {x y : Name} {σ : Scheme} (h : env.ClosedAt x) (hσ : σ.Closed) :
    ClosedAt (env.insert y σ) x := by
  intro τ hτ
  rcases of_getElem?_insert hτ with rfl | hτ
  · exact hσ
  · exact h τ hτ

/-- A substitution leaves closed schemes alone. -/
theorem ClosedAt.applyEnv {x : Name} (h : env.ClosedAt x) (S : Substitution) :
    (S.applyEnv env).ClosedAt x := by
  intro τ hτ
  rw [Substitution.getElem?_applyEnv] at hτ
  obtain ⟨σ, hσ, rfl⟩ := Option.map_eq_some_iff.1 hτ
  rw [Substitution.applyScheme, (h σ hσ).subst_eq]
  exact h σ hσ

theorem ClosedDiff.applyEnv (h : env.ClosedDiff env') (S : Substitution) :
    (S.applyEnv env).ClosedDiff (S.applyEnv env') := by
  intro x
  refine (h x).imp (fun heq => ?_) fun hclosed => ⟨hclosed.1.applyEnv S, hclosed.2.applyEnv S⟩
  rw [Substitution.getElem?_applyEnv, Substitution.getElem?_applyEnv, heq]

theorem ClosedDiff.generalize_eq (h : env.ClosedDiff env') (t : Ty) :
    env'.generalize t = env.generalize t := by
  rw [generalize, generalize, h.freeVars_eq]

end Env

namespace Infer

variable {α β : Type}

def withEnv (env : Env) : EStateM.Result Failure State α → EStateM.Result Failure State α
  | .ok a s => .ok a { s with env := env }
  | .error e s => .error e { s with env := env }

/-- The action leaves the environment as it was and looks at it for the sake of these names. If it
fails because a name is unbound, that is one of them. If another environment has the same schemes at
them, and differs from the first at closed schemes only, the action does the same there. -/
structure Lexical (N : Name → Prop) (act : Infer α) : Prop where
  frame : Scoped act
  unbound : ∀ s x s', act s = .error (.type (.unbound x)) s' → N x ∧ s.env[x]? = none
  reads : ∀ (s : State) (env : Env), s.env.ClosedDiff env → (∀ x, N x → env[x]? = s.env[x]?) →
    act { s with env := env } = withEnv env (act s)

variable {N M : Name → Prop} {act : Infer α}

theorem Lexical.mono (h : Lexical N act) (hNM : ∀ x, N x → M x) : Lexical M act where
  frame := h.frame
  unbound s x s' herr := (h.unbound s x s' herr).imp_left (hNM x)
  reads s env hdiff hsame := h.reads s env hdiff fun x hx => hsame x (hNM x hx)

theorem Lexical.bind {f : α → Infer β} (h : Lexical N act) (hf : ∀ a, Lexical N (f a)) :
    Lexical N (act >>= f) where
  frame := h.frame.bind fun a => (hf a).frame
  unbound s x s' herr := by
    rcases bind_error.1 herr with herr | ⟨a, s₁, hok, herr⟩
    · exact h.unbound s x s' herr
    · rw [← (h.frame.ok hok).env_eq]
      exact (hf a).unbound s₁ x s' herr
  reads s env hdiff hsame := by
    have hact := h.reads s env hdiff hsame
    cases hrun : act s with
    | ok a s₁ =>
      rw [hrun] at hact
      have henv := (h.frame.ok hrun).env_eq
      rw [bind_of_ok hact, bind_of_ok hrun]
      exact (hf a).reads s₁ env (henv ▸ hdiff) fun x hx => henv ▸ hsame x hx
    | error e s₁ =>
      rw [hrun] at hact
      rw [bind_error.2 (.inl hact), bind_error.2 (.inl hrun)]
      rfl

theorem lexical_of_blind (hframe : Scoped act)
    (hbound : ∀ s x s', act s ≠ .error (.type (.unbound x)) s')
    (hsame : ∀ (s : State) (env : Env), act { s with env := env } = withEnv env (act s)) :
    Lexical N act where
  frame := hframe
  unbound s x s' herr := absurd herr (hbound s x s')
  reads s env _ _ := hsame s env

theorem lexical_pure (a : α) : Lexical N (pure a : Infer α) :=
  lexical_of_blind (scoped_pure a) nofun fun _ _ => rfl

theorem lexical_fail {e : TypeError} (he : ∀ x, e ≠ .unbound x) : Lexical N (fail e : Infer α) := by
  refine lexical_of_blind (scoped_fail e) (fun s x s' herr => ?_) fun _ _ => rfl
  obtain ⟨h, -⟩ := EStateM.Result.error.inj herr
  exact he x (Failure.type.inj h)

theorem lexical_ofFault (r : Except Fault α) : Lexical N (ofFault r) := by
  cases r with
  | ok a => exact lexical_pure a
  | error f => exact lexical_of_blind (scoped_throw _) nofun fun _ _ => rfl

theorem lexical_ofFault_bind {r : Except Fault α} {f : α → Infer β}
    (h : ∀ a, r = .ok a → Lexical N (f a)) : Lexical N (ofFault r >>= f) := by
  cases r with
  | ok a => exact h a rfl
  | error e => exact (lexical_ofFault (.error e) : Lexical N (ofFault (.error e) : Infer β))

theorem lexical_fresh : Lexical N fresh := by
  refine lexical_of_blind scoped_fresh (fun s x s' herr => ?_) fun s env => ?_
  · rw [fresh] at herr
    split at herr <;> cases herr
  · rw [fresh, fresh]
    cases s.toContext.fresh? <;> rfl

theorem lexical_instantiate (σ : Scheme) : Lexical N (instantiate σ) := by
  refine lexical_of_blind (scoped_instantiate σ) (fun s x s' herr => ?_) fun s env => ?_
  · rw [instantiate] at herr
    split at herr <;> cases herr
  · rw [instantiate, instantiate]
    cases s.toContext.instantiate? σ <;> rfl

theorem lexical_constrain (l r : Ty) : Lexical N (constrain l r) :=
  lexical_of_blind (scoped_constrain l r) nofun fun _ _ => rfl

theorem lexical_solvePending : Lexical N solvePending := by
  refine lexical_of_blind scoped_solvePending (fun s x s' herr => ?_) fun s env => ?_
  · obtain ⟨S, c, -, he, -⟩ := solvePending_error.1 herr
    cases he
  · rw [solvePending, solvePending]
    rcases s.solution.solve (s.constraints.extract s.solved s.constraints.size).toList
      with ⟨S, _ | c⟩ <;> rfl

theorem lexical_read {f : State → α}
    (hf : ∀ (s : State) (env : Env), s.env.ClosedDiff env → f { s with env := env } = f s) :
    Lexical N (do let s ← get; return f s : Infer α) where
  frame := scoped_get.bind fun _ => scoped_pure _
  unbound _ _ _ := nofun
  reads s env hdiff _ := by
    rw [get_bind, get_bind, hf s env hdiff]
    rfl

theorem lexical_resolve (t : Ty) : Lexical N (resolve t) :=
  lexical_solvePending.bind fun _ => lexical_read fun _ _ _ => rfl

/-- All schemes of the environment take part, but for their free variables only. -/
theorem lexical_generalize (t : Ty) : Lexical N (generalize t) :=
  lexical_solvePending.bind fun _ => lexical_read fun s _ hdiff =>
    (hdiff.applyEnv s.solution).generalize_eq (s.solution.apply t)

/-- Inside the scope of a name the action may look at it, since both environments bind it alike. -/
theorem Lexical.withBinding (h : Lexical M act) {x : Name} (hNM : ∀ y, M y → y ≠ x → N y)
    (σ : Scheme) : Lexical N (withBinding x σ act) where
  frame := scoped_withBinding h.frame
  unbound s y s' herr := by
    have hact : ∃ s₁, act { s with env := s.env.insert x σ } = .error (.type (.unbound y)) s₁ := by
      rw [Infer.withBinding] at herr
      split at herr
      · cases herr
      · cases herr
        exact ⟨_, ‹_›⟩
    obtain ⟨s₁, hact⟩ := hact
    obtain ⟨hy, hnone⟩ := h.unbound _ y s₁ hact
    have hne : y ≠ x := by
      rintro rfl
      simp at hnone
    exact ⟨hNM y hy hne, (Env.getElem?_insert_of_ne hne σ).symm.trans hnone⟩
  reads s env hdiff hsame := by
    have hinside : ∀ y, M y → (env.insert x σ)[y]? = (s.env.insert x σ)[y]? := by
      intro y hy
      by_cases hyx : y = x
      · rw [hyx, Std.ExtTreeMap.getElem?_insert_self, Std.ExtTreeMap.getElem?_insert_self]
      · rw [Env.getElem?_insert_of_ne hyx, Env.getElem?_insert_of_ne hyx]
        exact hsame y (hNM y hy hyx)
    have hact :=
      h.reads { s with env := s.env.insert x σ } (env.insert x σ) (hdiff.insert x σ) hinside
    have hold : Env.restore (env.insert x σ) x env[x]? = env := Env.restore_insert env x σ
    rw [Infer.withBinding, Infer.withBinding]
    cases hrun : act { s with env := s.env.insert x σ } <;> rw [hrun] at hact <;>
      simp [hact, withEnv, hold]

theorem lexical_ident (x : Name) : Lexical (· = x) (ident x) where
  frame := scoped_ident x
  unbound s y s' herr := by
    cases hx : s.env[x]? with
    | none =>
      rw [ident_unbound hx] at herr
      cases herr
      exact ⟨rfl, hx⟩
    | some σ =>
      rw [ident_bound hx] at herr
      exact ((lexical_instantiate (N := fun _ => False) σ).unbound s y s' herr).1.elim
  reads s env hdiff hsame := by
    have hsame := hsame x rfl
    cases hx : s.env[x]? with
    | none =>
      rw [ident_unbound hx, ident_unbound (hsame.trans hx)]
      rfl
    | some σ =>
      rw [ident_bound hx, ident_bound (hsame.trans hx)]
      exact (lexical_instantiate (N := fun _ => False) σ).reads s env hdiff nofun

theorem lexical_receiverName (m : Name) (t : Ty) : Lexical N (receiverName m t) := by
  cases t with
  | fn p r => exact lexical_fail nofun
  | tuple ts => exact lexical_fail nofun
  | var v => exact lexical_fail nofun
  | _ => exact lexical_pure _

theorem lexical_useMember (d : Declarations) (m n : Name) : Lexical N (useMember d m n) := by
  rw [useMember]
  split
  · refine lexical_fail fun x h => ?_
    cases h
  · exact (lexical_instantiate _).bind fun _ => lexical_fresh.bind fun _ =>
      (lexical_constrain _ _).bind fun _ => lexical_pure _

theorem lexical_access (d : Declarations) (m : Name) (t : Ty) : Lexical N (access d m t) := by
  have hreceiver : Lexical N (receiverType t) := by
    rw [receiverType]
    split
    exacts [lexical_resolve t, lexical_pure t]
  exact hreceiver.bind fun r => (lexical_receiverName m r).bind fun n => lexical_useMember d m n

theorem lexical_elements {go : ExprId → Infer Ty} {ids : List ExprId}
    (h : ∀ id ∈ ids, Lexical N (go id)) : Lexical N (elements go ids) := by
  induction ids with
  | nil => exact lexical_pure []
  | cons id ids ih =>
    obtain ⟨hid, hids⟩ := List.forall_mem_cons.1 h
    exact hid.bind fun _ => (ih hids).bind fun _ => lexical_pure _

theorem lexical_node {go : ExprId → Infer Ty} {p : Program} {id : ExprId} {e : Expr}
    (hgo : ∀ c, Lexical (p.table.Free c) (go c)) (he : p.table.get id = .ok e) :
    Lexical (p.table.Free id) (node go p e) := by
  have hpart : ∀ {cs c}, e.binder? = none → p.table.children e = .ok cs → c ∈ cs →
      Lexical (p.table.Free id) (go c) :=
    fun hb hcs hc => (hgo _).mono fun _ hx => .part he hb hcs hc hx
  cases e with
  | ident x => exact (lexical_ident x).mono fun y hy => hy ▸ .ident he
  | lambda x body =>
    refine lexical_fresh.bind fun _ => ?_
    exact ((hgo body).withBinding (fun _ hy hne => .lambda he hne hy) _).bind fun _ =>
      lexical_pure _
  | letIn x value body =>
    refine ((hgo value).mono fun _ hy => .value he hy).bind fun a =>
      (lexical_generalize a).bind fun σ => ?_
    exact (hgo body).withBinding (fun _ hy hne => .body he hne hy) σ
  | apply func arg =>
    have hfunc := hpart (c := func) rfl rfl (by simp)
    have harg := hpart (c := arg) rfl rfl (by simp)
    exact hfunc.bind fun _ => harg.bind fun _ => lexical_fresh.bind fun _ =>
      (lexical_constrain _ _).bind fun _ => lexical_pure _
  | ternary cond thenBranch elseBranch =>
    have hthen := hpart (c := thenBranch) rfl rfl (by simp)
    have hcond := hpart (c := cond) rfl rfl (by simp)
    have helse := hpart (c := elseBranch) rfl rfl (by simp)
    exact hthen.bind fun _ => hcond.bind fun _ => helse.bind fun _ =>
      (lexical_constrain _ _).bind fun _ => (lexical_constrain _ _).bind fun _ => lexical_pure _
  | member receiver m =>
    have hreceiver := hpart (c := receiver) rfl rfl (by simp)
    change Lexical _ (member go p.declarations receiver m)
    rw [member_eq]
    exact hreceiver.bind fun t => lexical_access p.declarations m t
  | tuple r =>
    refine lexical_ofFault_bind fun cs hcs => ?_
    exact (lexical_elements fun c hc => hpart rfl hcs hc).bind fun _ => lexical_pure _
  | _ => exact lexical_pure _

section Parts

variable {go : ExprId → Infer Ty} {c : ExprId} {s s' : State}

theorem elements_mem_ok {ids : List ExprId} {ts : List Ty} (hgo : ∀ id, Scoped (go id))
    (hok : elements go ids s = .ok ts s') (hc : c ∈ ids) :
    ∃ s₁ u s₂, go c s₁ = .ok u s₂ ∧ s₁.env = s.env := by
  induction ids generalizing s ts with
  | nil => cases hc
  | cons id ids ih =>
    obtain ⟨u, us, s₁, hid, hids, -⟩ := elements_cons_ok hok
    rcases List.mem_cons.1 hc with rfl | hc
    · exact ⟨s, u, s₁, hid, rfl⟩
    · obtain ⟨s₂, v, s₃, hrun, henv⟩ := ih hids hc
      exact ⟨s₂, v, s₃, hrun, henv.trans ((hgo id).ok hid).env_eq⟩

theorem node_part_ok {p : Program} {e : Expr} {cs : List ExprId} {t : Ty}
    (hgo : ∀ id, Scoped (go id)) (hok : node go p e s = .ok t s') (hbinder : e.binder? = none)
    (hcs : p.table.children e = .ok cs) (hc : c ∈ cs) :
    ∃ s₁ u s₂, go c s₁ = .ok u s₂ ∧ s₁.env = s.env := by
  cases e with
  | lambda x body => cases hbinder
  | letIn x value body => cases hbinder
  | apply func arg =>
    obtain ⟨f, a, s₁, s₂, s₃, hf, ha, -⟩ := apply_ok hok
    cases hcs
    rcases List.mem_pair.1 hc with rfl | rfl
    · exact ⟨s, f, s₁, hf, rfl⟩
    · exact ⟨s₁, a, s₂, ha, ((hgo _).ok hf).env_eq⟩
  | ternary cond thenBranch elseBranch =>
    obtain ⟨b, d, s₁, s₂, s₃, ht, hb, hd, -⟩ := ternary_ok hok
    have henv₁ := ((hgo _).ok ht).env_eq
    have henv₂ := ((hgo _).ok hb).env_eq.trans henv₁
    cases hcs
    rcases List.mem_cons.1 hc with rfl | hc
    · exact ⟨s₁, b, s₂, hb, henv₁⟩
    · rcases List.mem_pair.1 hc with rfl | rfl
      · exact ⟨s, t, s₁, ht, rfl⟩
      · exact ⟨s₂, d, s₃, hd, henv₂⟩
  | member receiver m =>
    obtain ⟨u, r, n, σ, i, s₁, s₂, s₃, s₄, hu, -⟩ := member_ok hok
    cases hcs
    cases List.mem_singleton.1 hc
    exact ⟨s, u, s₁, hu, rfl⟩
  | tuple r =>
    obtain ⟨ids, ts, hids, hts, -⟩ := tuple_ok hok
    cases hids.symm.trans hcs
    exact elements_mem_ok hgo hts hc
  | _ =>
    cases hcs
    cases hc

end Parts

end Infer

namespace Program

open Infer

variable {p : Program} {s s' : State} {id : ExprId} {t : Ty}

theorem inferWithin_lexical (p : Program) (n : Nat) (id : ExprId) :
    Lexical (p.table.Free id) (p.inferWithin n id) := by
  induction n generalizing id with
  | zero =>
    exact (lexical_ofFault (.error .tooDeep) : Lexical _ (ofFault (.error .tooDeep) : Infer Ty))
  | succ n ih => exact lexical_ofFault_bind fun e he => lexical_node ih he

theorem infer_lexical (p : Program) (id : ExprId) : Lexical (p.table.Free id) (p.infer id) := by
  have hbegin : Lexical (p.table.Free id) (modify State.beginRun : Infer PUnit) :=
    lexical_of_blind (fun _ => ⟨rfl, Nat.le_refl _, fun h => h⟩) nofun fun _ _ => rfl
  exact hbegin.bind fun _ => (p.inferWithin_lexical p.depth id).bind lexical_resolve

theorem node_of_inferWithin {n : Nat} {e : Expr} (he : p.table.get id = .ok e)
    (hok : p.inferWithin n id s = .ok t s') : ∃ k, node (p.inferWithin k) p e s = .ok t s' := by
  obtain ⟨k, e', -, he', hnode⟩ := inferWithin_ok hok
  cases he.symm.trans he'
  exact ⟨k, hnode⟩

/-- Inference that succeeds has looked every free name up, and found it. -/
theorem bound_of_inferWithin {n : Nat} {x : Name} (hfree : p.table.Free id x)
    (hok : p.inferWithin n id s = .ok t s') : s.env[x]? ≠ none := by
  -- no scope on the path to an occurrence binds the name, so its end looks the name up as here
  induction hfree generalizing n s t s' with
  | ident h =>
    obtain ⟨k, hnode⟩ := node_of_inferWithin h hok
    obtain ⟨σ, hσ, -⟩ := ident_ok hnode
    simp [hσ]
  | lambda h hne hbody ih =>
    obtain ⟨k, hnode⟩ := node_of_inferWithin h hok
    obtain ⟨a, b, s₁, hfresh, hbind, -⟩ := lambda_ok hnode
    obtain ⟨s₂, hrun, -⟩ := withBinding_ok.1 hbind
    rw [← (scoped_fresh.ok hfresh).env_eq, ← Env.getElem?_insert_of_ne hne (.mono a)]
    exact ih hrun
  | value h hvalue ih =>
    obtain ⟨k, hnode⟩ := node_of_inferWithin h hok
    obtain ⟨a, σ, s₁, s₂, hval, -⟩ := letIn_ok hnode
    exact ih hval
  | body h hne hbody ih =>
    obtain ⟨k, hnode⟩ := node_of_inferWithin h hok
    obtain ⟨a, σ, s₁, s₂, hval, hgen, hbind⟩ := letIn_ok hnode
    obtain ⟨s₃, hrun, -⟩ := withBinding_ok.1 hbind
    have hkeeps := ((p.inferWithin_scoped k _).ok hval).trans ((scoped_generalize a).ok hgen)
    rw [← hkeeps.env_eq, ← Env.getElem?_insert_of_ne hne σ]
    exact ih hrun
  | part h hbinder hcs hc hfree ih =>
    obtain ⟨k, hnode⟩ := node_of_inferWithin h hok
    obtain ⟨s₁, u, s₂, hrun, henv⟩ := node_part_ok (p.inferWithin_scoped k) hnode hbinder hcs hc
    exact henv ▸ ih hrun

/-- A name can be reported as unbound only if it is free in the expression and the environment does
not bind it. So nothing is reported if all free names are bound, and all of them are bound if there
is a type. It does not matter what the checker has done before. -/
theorem unbound_names_are_free (p : Program) (id : ExprId) :
    (∀ env,
      (∀ x, p.typeOf env id = .error (.type (.unbound x)) → p.table.Free id x ∧ env[x]? = none) ∧
      ((∀ x, p.table.Free id x → env[x]? ≠ none) →
        ∀ x, p.typeOf env id ≠ .error (.type (.unbound x))) ∧
      ∀ t, p.typeOf env id = .ok t → ∀ x, p.table.Free id x → env[x]? ≠ none) ∧
    ∀ s,
      (∀ x s', p.infer id s = .error (.type (.unbound x)) s' →
        p.table.Free id x ∧ s.env[x]? = none) ∧
      ((∀ x, p.table.Free id x → s.env[x]? ≠ none) →
        ∀ x s', p.infer id s ≠ .error (.type (.unbound x)) s') ∧
      ∀ t s', p.infer id s = .ok t s' → ∀ x, p.table.Free id x → s.env[x]? ≠ none := by
  have hunbound : ∀ s x s', p.infer id s = .error (.type (.unbound x)) s' →
      p.table.Free id x ∧ s.env[x]? = none := (p.infer_lexical id).unbound
  have hbound : ∀ s t s', p.infer id s = .ok t s' → ∀ x, p.table.Free id x → s.env[x]? ≠ none := by
    intro s t s' hok x hx
    obtain ⟨u, s₁, hrun, -⟩ := infer_ok hok
    exact bound_of_inferWithin (s := s.beginRun) hx hrun
  refine ⟨fun env => ⟨fun x herr => ?_, fun hall x herr => ?_, fun t hok => ?_⟩, fun s =>
    ⟨hunbound s, fun hall x s' herr => ?_, hbound s⟩⟩
  · obtain ⟨s', herr⟩ := typeOf_error.1 herr
    exact hunbound _ x s' herr
  · obtain ⟨s', herr⟩ := typeOf_error.1 herr
    obtain ⟨hx, hnone⟩ := hunbound _ x s' herr
    exact hall x hx hnone
  · obtain ⟨s', hok⟩ := typeOf_ok.1 hok
    exact hbound _ t s' hok
  · obtain ⟨hx, hnone⟩ := hunbound s x s' herr
    exact hall x hx hnone

/-- `let x = x in λ y, x y`, and the tuple of it and of `y`. -/
def siblingProgram : Program where
  table := ⟨#[.ident ⟨1⟩, .ident ⟨2⟩, .apply ⟨0⟩ ⟨1⟩, .lambda ⟨2⟩ ⟨2⟩, .letIn ⟨1⟩ ⟨0⟩ ⟨3⟩,
    .tuple ⟨0, 2⟩], #[⟨4⟩, ⟨1⟩]⟩
  declarations := ∅

def siblingEnv : Env := (∅ : Env).insert ⟨1⟩ ⟨[⟨0⟩], .fn (.var ⟨0⟩) (.var ⟨0⟩)⟩

/-- The scope of `y` in the first part of the tuple has ended where the second part uses it. -/
theorem unbound_names_are_free_siblings :
    siblingProgram.typeOf siblingEnv ⟨5⟩ = .error (.type (.unbound ⟨2⟩)) ∧
    siblingProgram.table.Free ⟨5⟩ ⟨2⟩ ∧ siblingEnv[(⟨2⟩ : Name)]? = none ∧
    siblingProgram.typeOf (siblingEnv.insert ⟨2⟩ (.mono .int)) ⟨5⟩ =
      .ok (.tuple [.fn (.var ⟨3⟩) (.var ⟨3⟩), .int]) ∧
    ∀ x, siblingProgram.table.Free ⟨5⟩ x → (siblingEnv.insert ⟨2⟩ (.mono .int))[x]? ≠ none := by
  have hfail : siblingProgram.typeOf siblingEnv ⟨5⟩ = .error (.type (.unbound ⟨2⟩)) := by
    rw [typeOf, infer_eq_of_nested (n := 5) (by decide) (by decide)]
    cbv
  have hok : siblingProgram.typeOf (siblingEnv.insert ⟨2⟩ (.mono .int)) ⟨5⟩ =
      .ok (.tuple [.fn (.var ⟨3⟩) (.var ⟨3⟩), .int]) := by
    rw [typeOf, infer_eq_of_nested (n := 5) (by decide) (by decide)]
    cbv
  obtain ⟨hunbound, -⟩ := (unbound_names_are_free siblingProgram ⟨5⟩).1 siblingEnv
  obtain ⟨-, -, hbound⟩ :=
    (unbound_names_are_free siblingProgram ⟨5⟩).1 (siblingEnv.insert ⟨2⟩ (.mono .int))
  exact ⟨hfail, (hunbound ⟨2⟩ hfail).1, (hunbound ⟨2⟩ hfail).2, hok, hbound _ hok⟩

/-- Bindings of names that are not free in the expression make no difference, as long as their
schemes are closed: with or without them, the type or the error is the same. Nor is there a
difference later in the life of a checker, where the run also leaves the same variables, equations
and solution. -/
theorem typeOf_eq_of_irrelevant (p : Program) (id : ExprId) {env env' : Env}
    (h : ∀ x : Name, env'[x]? = env[x]? ∨ ¬p.table.Free id x ∧ env.ClosedAt x ∧ env'.ClosedAt x) :
    p.typeOf env' id = p.typeOf env id ∧
    ∀ s : State, s.env = env → p.infer id { s with env := env' } = withEnv env' (p.infer id s) := by
  have hdiff : env.ClosedDiff env' := fun x => (h x).imp_right And.right
  have hsame : ∀ x, p.table.Free id x → env'[x]? = env[x]? := fun x hx =>
    (h x).elim (fun heq => heq) fun hnot => absurd hx hnot.1
  have hrun : ∀ s : State, s.env = env →
      p.infer id { s with env := env' } = withEnv env' (p.infer id s) := by
    rintro s rfl
    exact (p.infer_lexical id).reads s env' hdiff hsame
  refine ⟨?_, hrun⟩
  -- the first fresh variable depends on the free variables of the environment only
  have hstart : p.start env' = { p.start env with env := env' } := by
    simp only [start, State.ofEnv, hdiff.freeVars_eq]
  rw [typeOf, typeOf, hstart, hrun (p.start env) rfl]
  cases p.infer id (p.start env) <;> rfl

theorem free_sibling {x : Name} (h : siblingProgram.table.Free ⟨4⟩ x) : x = ⟨1⟩ := by
  rcases (ExprTable.free_iff rfl).1 h with h | ⟨-, h⟩
  · exact (ExprTable.free_iff rfl).1 h
  · obtain ⟨hne, h⟩ := (ExprTable.free_iff rfl).1 h
    obtain ⟨_, hcs, c, hc, h⟩ := (ExprTable.free_iff rfl).1 h
    cases hcs
    rcases List.mem_pair.1 hc with rfl | rfl
    · exact (ExprTable.free_iff rfl).1 h
    · exact absurd ((ExprTable.free_iff (e := .ident ⟨2⟩) rfl).1 h) hne

def integerEnv : Env := (siblingEnv.insert ⟨2⟩ (.mono .int)).insert ⟨3⟩ (.mono .str)

def polymorphicEnv : Env := (siblingEnv.insert ⟨2⟩ ⟨[⟨0⟩], .var ⟨0⟩⟩).insert ⟨4⟩ (.mono .bool)

/-- One binding is replaced, one is removed and one is added. The function hides the first of
them. -/
theorem typeOf_eq_of_irrelevant_replaced :
    integerEnv[(⟨2⟩ : Name)]? ≠ polymorphicEnv[(⟨2⟩ : Name)]? ∧
    polymorphicEnv[(⟨3⟩ : Name)]? = none ∧
    integerEnv[(⟨4⟩ : Name)]? = none ∧
    siblingProgram.typeOf polymorphicEnv ⟨4⟩ = siblingProgram.typeOf integerEnv ⟨4⟩ ∧
    siblingProgram.typeOf integerEnv ⟨4⟩ = .ok (.fn (.var ⟨3⟩) (.var ⟨3⟩)) := by
  have hclosed : ∀ x, siblingEnv.ClosedAt x := fun x => .insert (fun σ hσ => by simp at hσ) rfl
  have hinteger : ∀ x, integerEnv.ClosedAt x := fun x =>
    ((hclosed x).insert (σ := .mono .int) rfl).insert rfl
  have hpolymorphic : ∀ x, polymorphicEnv.ClosedAt x := fun x =>
    ((hclosed x).insert (σ := ⟨[⟨0⟩], .var ⟨0⟩⟩) rfl).insert rfl
  refine ⟨by decide +kernel, by decide +kernel, by decide +kernel,
    (typeOf_eq_of_irrelevant siblingProgram ⟨4⟩ fun x => ?_).1, ?_⟩
  · by_cases hx : x = ⟨1⟩
    · rw [hx]
      exact .inl (by decide +kernel)
    · exact .inr ⟨fun h => hx (free_sibling h), hinteger x, hpolymorphic x⟩
  · rw [typeOf, infer_eq_of_nested (n := 4) (by decide) (by decide)]
    cbv

end Program
end TypeInference

import TypeInference.Proofs.Inference.Invariant

/-! Every rule keeps the invariant of a run and returns a type that is known then. Each rule is
looked at by itself, with what it needs to know about the inference of subexpressions; the statement
about whole expressions follows by induction on the depth. -/
namespace TypeInference

open State

/-- Where the action succeeds, the state is extended and the result is known in it. -/
def Infer.Grows (act : Infer Ty) : Prop :=
  ∀ (D : TyVar → Prop) (s s' : State) (t : Ty), s.Consistent D → act s = .ok t s' →
    s.Extends D s' ∧ s'.Knows D t

namespace State

variable {D : TyVar → Prop} {s : State}

@[simp] theorem knows_fn {p r : Ty} : s.Knows D (.fn p r) ↔ s.Knows D p ∧ s.Knows D r := by
  simp [Knows, or_imp, forall_and]

@[simp] theorem knows_tuple {ts : List Ty} : s.Knows D (.tuple ts) ↔ ∀ t ∈ ts, s.Knows D t := by
  simp only [Knows, Ty.occurrences_tuple, List.mem_flatMap]
  exact ⟨fun h t ht v hv => h v ⟨t, ht, hv⟩, fun h v ⟨t, ht, hv⟩ => h t ht v hv⟩

theorem solves_push {θ : TyVar → Ty} {l r : Ty} :
    Solves θ ({ s with constraints := s.constraints.push ⟨l, r⟩ } : State).equations ↔
      Solves θ s.equations ∧ l.subst θ = r.subst θ := by
  simp [equations, Equation.Holds]

end State

namespace Infer

variable {D : TyVar → Prop} {s s' : State} {t : Ty} {σ : Scheme}

theorem grows_pure (h : t.occurrences = []) : Grows (pure t) := by
  intro D s s' u hc hok
  obtain ⟨rfl, rfl⟩ := pure_ok.1 hok
  exact ⟨hc.refl, by simp [Knows, h]⟩

theorem fresh_grows : Grows fresh := by
  intro D s s' t hc hok
  obtain ⟨hroom, rfl, rfl⟩ := fresh_ok.1 hok
  refine ⟨hc.advance (Nat.le_succ _), fun v hv => ?_⟩
  obtain rfl : v = ⟨s.next⟩ := by simpa using hv
  exact hc.known_new hroom (Nat.le_refl _) (Nat.lt_succ_self _)

theorem instantiate_grows (hc : s.Consistent D) (hσ : ∀ v ∈ σ.freeVars, s.Known D v)
    (hok : instantiate σ s = .ok t s') : s.Extends D s' ∧ s'.Knows D t := by
  obtain ⟨f, m, rfl, rfl, hm, hrange, -⟩ := instantiate_ok hok
  have hext : s.Extends D { s with next := m } := hc.advance (by omega)
  refine ⟨hext, fun w hw => ?_⟩
  rcases Scheme.mem_occurrences_specialize.1 hw with ⟨v, -, hb, hw⟩ | ⟨v, hv, hw⟩
  · obtain rfl : w = f v := by simpa using hw
    obtain ⟨hle, hlt⟩ := hrange v hb
    exact hc.known_new (by omega) hle hlt
  · obtain rfl : w = v := by simpa using hw
    exact hext.known (hσ w hv)

theorem solvePending_grows {u : Unit} (hc : s.Consistent D) (hok : solvePending s = .ok u s') :
    s.Extends D s' := by
  obtain ⟨S, hS, rfl⟩ := solvePending_ok.1 hok
  exact hc.solve hS

/-- Solving adds no equation, and the solutions of all equations are then the maps that factor
through the substitution found. -/
theorem solves_solvePending {u : Unit} (hc : s.Consistent D) (hok : solvePending s = .ok u s') :
    s'.equations = s.equations ∧ ∀ θ, Solves θ s.equations ↔ s'.solution.Factors θ := by
  have hall := (solvePending_grows hc hok).consistent.solution_eq
  obtain ⟨S, -, rfl⟩ := solvePending_ok.1 hok
  refine ⟨rfl, fun θ => solves_iff_factors ?_⟩
  rwa [List.take_of_length_le (by simp [equations])] at hall

theorem ident_grows (x : Name) : Grows (ident x) := by
  intro D s s' t hc hok
  obtain ⟨σ, hx, hok⟩ := ident_ok hok
  exact instantiate_grows hc (fun v hv => hc.env_known v (Env.mem_freeVars.2 ⟨x, σ, hx, hv⟩)) hok

variable {go : ExprId → Infer Ty}

theorem withBinding_grows {E : TyVar → Prop} {x : Name} {act : Infer Ty} (hact : Grows act)
    (hs : s.Consistent D) (hDE : ∀ v, D v → E v)
    (hin : State.Consistent E { s with env := s.env.insert x σ })
    (hok : withBinding x σ act s = .ok t s') : s.Extends D s' ∧ s'.Knows D t := by
  obtain ⟨s₁, h₁, rfl⟩ := withBinding_ok.1 hok
  obtain ⟨hext, ht⟩ := hact E _ s₁ t hin h₁
  exact ⟨hext.scope hs hDE, fun v hv => ⟨(ht v hv).1, fun w hw hD => (ht v hv).2 w hw (hDE w hD)⟩⟩

theorem lambda_grows {x : Name} {body : ExprId} (hbody : Grows (go body)) :
    Grows (lambda go x body) := by
  intro D s s' t hc hok
  obtain ⟨a, b, s₁, h₁, h₂, rfl⟩ := lambda_ok hok
  obtain ⟨hext₁, ha⟩ := fresh_grows D s s₁ a hc h₁
  have hin := hext₁.consistent.insert_mono x ha
  obtain ⟨hext₂, hb⟩ := withBinding_grows hbody hext₁.consistent (fun _ h => h) hin h₂
  exact ⟨hext₁.trans hext₂, knows_fn.2 ⟨hext₂.knows ha, hb⟩⟩

theorem generalize_grows (hc : s.Consistent D) (ht : s.Knows D t) (hok : generalize t s = .ok σ s')
    (x : Name) : s.Extends D s' ∧
      State.Consistent (fun v => D v ∨ v ∈ σ.vars) { s' with env := s'.env.insert x σ } := by
  obtain ⟨hsolve, hσ⟩ := generalize_ok.1 hok
  have hext := solvePending_grows hc hsolve
  exact ⟨hext, hext.consistent.retire (unsolved_solvePending hsolve) (hext.knows ht) hσ x⟩

theorem letIn_grows {x : Name} {value body : ExprId} (hvalue : Grows (go value))
    (hbody : Grows (go body)) : Grows (letIn go x value body) := by
  intro D s s' t hc hok
  obtain ⟨a, σ, s₁, s₂, h₁, h₂, h₃⟩ := letIn_ok hok
  obtain ⟨hext₁, ha⟩ := hvalue D s s₁ a hc h₁
  obtain ⟨hext₂, hin⟩ := generalize_grows hext₁.consistent ha h₂ x
  obtain ⟨hext₃, ht⟩ := withBinding_grows hbody hext₂.consistent (fun v h => .inl h) hin h₃
  exact ⟨(hext₁.trans hext₂).trans hext₃, ht⟩

theorem apply_grows {func arg : ExprId} (hfunc : Grows (go func)) (harg : Grows (go arg)) :
    Grows (apply go func arg) := by
  intro D s s' t hc hok
  obtain ⟨f, a, s₁, s₂, s₃, h₁, h₂, h₃, rfl⟩ := apply_ok hok
  obtain ⟨hext₁, hf⟩ := hfunc D s s₁ f hc h₁
  obtain ⟨hext₂, ha⟩ := harg D s₁ s₂ a hext₁.consistent h₂
  obtain ⟨hext₃, hr⟩ := fresh_grows D s₂ s₃ t hext₂.consistent h₃
  have hext₄ := hext₃.consistent.constrain (hext₃.knows (hext₂.knows hf))
    (knows_fn.2 ⟨hext₃.knows ha, hr⟩)
  exact ⟨((hext₁.trans hext₂).trans hext₃).trans hext₄, hext₄.knows hr⟩

theorem ternary_grows {cond thenBranch elseBranch : ExprId} (hcond : Grows (go cond))
    (hthen : Grows (go thenBranch)) (helse : Grows (go elseBranch)) :
    Grows (ternary go cond thenBranch elseBranch) := by
  intro D s s' t hc hok
  obtain ⟨c, e, s₁, s₂, s₃, h₁, h₂, h₃, rfl⟩ := ternary_ok hok
  obtain ⟨hext₁, ht⟩ := hthen D s s₁ t hc h₁
  obtain ⟨hext₂, hc⟩ := hcond D s₁ s₂ c hext₁.consistent h₂
  obtain ⟨hext₃, he⟩ := helse D s₂ s₃ e hext₂.consistent h₃
  have ht₃ := hext₃.knows (hext₂.knows ht)
  have hext₄ := hext₃.consistent.constrain (hext₃.knows hc) (r := .bool) (by simp [Knows])
  have hext₅ := hext₄.consistent.constrain (hext₄.knows he) (hext₄.knows ht₃)
  exact ⟨(((hext₁.trans hext₂).trans hext₃).trans hext₄).trans hext₅, hext₅.knows (hext₄.knows ht₃)⟩

theorem elements_grows {ids : List ExprId} (hids : ∀ id ∈ ids, Grows (go id)) {ts : List Ty}
    (hc : s.Consistent D) (hok : elements go ids s = .ok ts s') :
    s.Extends D s' ∧ ∀ t ∈ ts, s'.Knows D t := by
  induction ids generalizing s ts with
  | nil =>
    obtain ⟨rfl, rfl⟩ := elements_nil_ok.1 hok
    exact ⟨hc.refl, nofun⟩
  | cons id ids ih =>
    obtain ⟨t, us, s₁, h₁, h₂, rfl⟩ := elements_cons_ok hok
    obtain ⟨hext₁, ht⟩ := hids id List.mem_cons_self D s s₁ t hc h₁
    obtain ⟨hext₂, hts⟩ := ih (fun id h => hids id (List.mem_cons_of_mem _ h)) hext₁.consistent h₂
    exact ⟨hext₁.trans hext₂, List.forall_mem_cons.2 ⟨hext₂.knows ht, hts⟩⟩

theorem tuple_grows {table : ExprTable} {r : ExprRange}
    (hids : ∀ ids, table.getList r = .ok ids → ∀ id ∈ ids, Grows (go id)) :
    Grows (tuple go table r) := by
  intro D s s' t hc hok
  obtain ⟨ids, ts, hlist, hts, rfl⟩ := tuple_ok hok
  obtain ⟨hext, hts⟩ := elements_grows (hids ids hlist) hc hts
  exact ⟨hext, knows_tuple.2 hts⟩

theorem resolve_grows {r : Ty} (hc : s.Consistent D) (hok : resolve t s = .ok r s') :
    s.Extends D s' :=
  solvePending_grows hc (resolve_ok.1 hok).1

theorem member_grows {d : Declarations} {receiver : ExprId} {m : Name}
    (hreceiver : Grows (go receiver)) (hd : ∀ n σ, d.member? n m = some σ → σ.Closed) :
    Grows (member go d receiver m) := by
  intro D s s' t hc hok
  obtain ⟨u, r, n, σ, i, s₁, s₂, s₃, s₄, h₁, h₂, -, hσ, h₃, h₄, rfl⟩ := member_ok hok
  obtain ⟨hext₁, -⟩ := hreceiver D s s₁ u hc h₁
  have hext₂ : s₁.Extends D s₂ := by
    rcases h₂ with h₂ | ⟨-, rfl⟩
    · exact resolve_grows hext₁.consistent h₂
    · exact hext₁.consistent.refl
  obtain ⟨hext₃, hi⟩ := instantiate_grows hext₂.consistent
    (fun v hv => absurd hv ((hd n σ hσ).not_mem_freeVars v)) h₃
  obtain ⟨hext₄, ht⟩ := fresh_grows D s₃ s₄ t hext₃.consistent h₄
  have hext₅ := hext₄.consistent.constrain ht (hext₄.knows hi)
  exact ⟨(((hext₁.trans hext₂).trans hext₃).trans hext₄).trans hext₅, hext₅.knows ht⟩

theorem node_grows {p : Program} {e : Expr}
    (hcs : ∀ cs, p.table.children e = .ok cs → ∀ c ∈ cs, Grows (go c))
    (hm : ∀ receiver m, e = .member receiver m →
      ∀ n σ, p.declarations.member? n m = some σ → σ.Closed) :
    Grows (node go p e) := by
  cases e with
  | bool b => exact grows_pure (t := .bool) (by simp)
  | int i => exact grows_pure (t := .int) (by simp)
  | float bits => exact grows_pure (t := .float) (by simp)
  | str n => exact grows_pure (t := .str) (by simp)
  | ident x => exact ident_grows x
  | lambda x body => exact lambda_grows (hcs _ rfl body (by simp))
  | apply func arg => exact apply_grows (hcs _ rfl func (by simp)) (hcs _ rfl arg (by simp))
  | letIn x value body => exact letIn_grows (hcs _ rfl value (by simp)) (hcs _ rfl body (by simp))
  | ternary c t e =>
    exact ternary_grows (hcs _ rfl c (by simp)) (hcs _ rfl t (by simp)) (hcs _ rfl e (by simp))
  | member receiver m => exact member_grows (hcs _ rfl receiver (by simp)) (hm receiver m rfl)
  | tuple r => exact tuple_grows hcs

end Infer

namespace Program

def ClosedMembers (p : Program) (id : ExprId) : Prop :=
  ∀ c receiver m, p.table.Reaches id c → p.table.get c = .ok (.member receiver m) →
    ∀ n σ, p.declarations.member? n m = some σ → σ.Closed

def ClosedDeclarations (p : Program) : Prop :=
  ∀ n m σ, p.declarations.member? n m = some σ → σ.Closed

variable {p : Program} {id c : ExprId}

theorem ClosedDeclarations.members (hd : p.ClosedDeclarations) (id : ExprId) :
    p.ClosedMembers id := fun _ _ m _ _ n σ => hd n m σ

theorem ClosedMembers.child (h : p.ClosedMembers id) (hc : p.table.Child id c) :
    p.ClosedMembers c :=
  fun d receiver m hd => h d receiver m (.head hc hd)

theorem inferWithin_grows (n : Nat) (h : p.ClosedMembers id) :
    Infer.Grows (p.inferWithin n id) := by
  induction n generalizing id with
  | zero => exact fun _ _ _ _ _ hok => absurd hok nofun
  | succ n ih =>
    intro D s s' t hc hok
    obtain ⟨k, e, hk, he, hok⟩ := inferWithin_ok hok
    obtain rfl := Nat.succ.inj hk
    refine Infer.node_grows ?_ ?_ D s s' t hc hok
    · exact fun cs hcs c hc => ih (h.child (ExprTable.child_of_get he hcs hc))
    · rintro receiver m rfl
      exact h id receiver m .refl he

theorem ClosedDeclarations.grows (hd : p.ClosedDeclarations) (n : Nat) (id : ExprId) :
    Infer.Grows (p.inferWithin n id) := inferWithin_grows n (hd.members id)

end Program

namespace Declarations

variable {d : Declarations} {n m : Name} {σ τ : Scheme}

theorem of_member?_declare {n' m' : Name} (h : (d.declare n m σ).member? n' m' = some τ) :
    τ = σ ∨ d.member? n' m' = some τ := by
  obtain ⟨members, hn, hm⟩ := Option.bind_eq_some_iff.1 h
  rw [declare, Std.ExtTreeMap.getElem?_insert] at hn
  split at hn
  · next hcmp =>
    obtain rfl := Std.LawfulEqCmp.compare_eq_iff_eq.1 hcmp
    obtain rfl := Option.some.inj hn
    refine (Env.of_getElem?_insert hm).imp_right fun hm => ?_
    cases hd : d[n]? with
    | none => simp [hd] at hm
    | some members => simpa [member?, hd] using hm
  · exact .inr (Option.bind_eq_some_iff.2 ⟨members, hn, hm⟩)

theorem closed_empty : ∀ n m τ, member? ∅ n m = some τ → τ.Closed := by simp [member?]

theorem closed_declare (hd : ∀ n m τ, d.member? n m = some τ → τ.Closed) (hσ : σ.Closed) :
    ∀ n' m' τ, (d.declare n m σ).member? n' m' = some τ → τ.Closed := by
  intro n' m' τ h
  rcases of_member?_declare h with rfl | h
  · exact hσ
  · exact hd n' m' τ h

end Declarations

namespace Context

theorem le_next_reserve (c : Context) (vs : List TyVar) : c.next ≤ (c.reserve vs).next := by
  induction vs generalizing c with
  | nil => exact Nat.le_refl _
  | cons v vs ih => exact Nat.le_trans (Nat.le_max_left _ _) (ih (c.reserveVar v))

theorem next_reserve_le {c : Context} {vs : List TyVar} {n : Nat} (hc : c.next ≤ n)
    (hvs : ∀ v ∈ vs, Taken n v) : (c.reserve vs).next ≤ n := by
  induction vs generalizing c with
  | nil => exact hc
  | cons v vs ih =>
    obtain ⟨hv, hvs⟩ := List.forall_mem_cons.1 hvs
    refine ih (Nat.max_le.2 ⟨hc, ?_⟩) hvs
    by_cases hn : n < TyVar.maxId
    · have := hv hn
      omega
    · omega

theorem taken_reserve {c : Context} {vs : List TyVar} {v : TyVar} (hv : v ∈ vs) :
    Taken (c.reserve vs).next v := by
  induction vs generalizing c with
  | nil => cases hv
  | cons w vs ih =>
    rcases List.mem_cons.1 hv with rfl | hv
    · refine Taken.mono (le_next_reserve (c.reserveVar v) vs) fun hlt => ?_
      simp only [reserveVar] at hlt ⊢
      omega
    · exact ih hv

end Context

namespace Env

/-- No scheme of the environment has both quantified and free variables. -/
def Unmixed (env : Env) : Prop :=
  ∀ (x : Name) (σ : Scheme), env[x]? = some σ → σ.isMono = true ∨ σ.Closed

theorem unmixed_empty : Unmixed ∅ := by
  intro x σ hx
  simp at hx

theorem Unmixed.insert {env : Env} (h : env.Unmixed) {x : Name} {σ : Scheme}
    (hσ : σ.isMono = true ∨ σ.Closed) : Unmixed (env.insert x σ) := by
  intro y τ hy
  rcases of_getElem?_insert hy with rfl | hy
  · exact hσ
  · exact h y τ hy

/-- The type of one name is not known yet. -/
def unknown (x : Name) (v : TyVar) : Env := (∅ : Env).insert x (.mono (.var v))

theorem unmixed_unknown (x : Name) (v : TyVar) : (unknown x v).Unmixed :=
  unmixed_empty.insert (.inl rfl)

end Env

theorem Program.taken_start {env : Env} (p : Program) {v : TyVar}
    (hv : v ∈ env.freeVars ∨ v ∈ p.declarations.freeVars) : Taken (p.start env).next v := by
  rcases hv with hv | hv
  · exact (Context.taken_reserve (Std.ExtTreeSet.mem_toList.2 hv)).mono
      (Context.le_next_reserve _ _)
  · exact Context.taken_reserve (Std.ExtTreeSet.mem_toList.2 hv)

theorem Program.next_start_le {env : Env} (p : Program) {n : Nat}
    (h : ∀ v, v ∈ env.freeVars ∨ v ∈ p.declarations.freeVars → Taken n v) :
    (p.start env).next ≤ n :=
  Context.next_reserve_le (Context.next_reserve_le (Nat.zero_le n)
    fun v hv => h v (.inl (Std.ExtTreeSet.mem_toList.1 hv)))
    fun v hv => h v (.inr (Std.ExtTreeSet.mem_toList.1 hv))

theorem Program.start_consistent {env : Env} (p : Program) (henv : env.Unmixed) :
    State.Consistent (fun _ => False) (p.start env).beginRun where
  toRegular := (p.start env).beginRun_regular
  equations_taken := nofun
  retired_taken _ := False.elim
  schemes x σ hx := by
    rcases henv x σ hx with hm | hc
    · exact .inr fun v hv => by simp [List.isEmpty_iff.1 hm] at hv
    · exact .inl hc
  env_known v hv := ⟨p.taken_start (.inl hv), fun _ _ => id⟩
  unsolved_known := nofun

end TypeInference

import TypeInference.Proofs.Inference.Simulation
import TypeInference.Proofs.Renaming.Schemes

/-! Two runs of the same program that differ in the choice of variables. They go through linked
states and end in the same way, unless the run whose supply is ahead uses it up. Each action is
looked at by itself; the rules follow as for any comparison of two runs. -/
namespace TypeInference

open Unification (vars)

def Failure.rename (ρ : TyVar → TyVar) : Failure → Failure
  | .type e => .type (e.rename ρ)
  | .fault f => .fault f

namespace Correspondence

variable {d : Declarations} (κ : Correspondence d) {α β γ δ : Type}

/-- The second state is the first with corresponding variables, and only live variables are in
use. -/
structure Linked (s s' : State) : Prop where
  base_le : κ.base ≤ s.next
  next_eq : s'.next = s.next + κ.shift
  equations_eq : s'.equations = s.equations.map (Equation.rename κ.map)
  equations_live : ∀ v ∈ vars s.equations, κ.live v
  solved_eq : s'.solved = s.solved
  solution : s.solution.Renamed κ.map s'.solution
  solution_live : ∀ v, κ.live v → ∀ w ∈ (s.solution.image v).occurrences, κ.live w
  env : κ.PairsEnv s.env s'.env

def PairsTy (t t' : Ty) : Prop := t' = t.rename κ.map ∧ ∀ v ∈ t.occurrences, κ.live v

/-- The runs have ended in the same way, or the supply of the second was ahead and is used up. -/
inductive Agrees (R : α → β → Prop) :
    EStateM.Result Failure State α → EStateM.Result Failure State β → Prop where
  | ok {a : α} {b : β} {s s' : State} (h : R a b) (hs : κ.Linked s s') :
    Agrees R (.ok a s) (.ok b s')
  | error {e e' : Failure} {s s' : State} (h : e' = e.rename κ.map) :
    Agrees R (.error e s) (.error e' s')
  | exhausted {r : EStateM.Result Failure State α} {s' : State} (h : 0 < κ.shift) :
    Agrees R r (.error (.fault .overflow) s')

def Simulates (R : α → β → Prop) (act : Infer α) (act' : Infer β) : Prop :=
  ∀ s s' : State, κ.Linked s s' → κ.Agrees R (act s) (act' s')

variable {κ} {R : α → β → Prop} {Q : γ → δ → Prop} {s s' : State} {t t' : Ty} {σ σ' : Scheme}

namespace Linked

theorem advance (hs : κ.Linked s s') (n : Nat) :
    κ.Linked { s with next := s.next + n } { s' with next := s'.next + n } := by
  have hnext : s'.next + n = s.next + n + κ.shift := by
    have := hs.next_eq
    omega
  exact { hs with base_le := Nat.le_add_right_of_le hs.base_le, next_eq := hnext }

theorem constrain (hs : κ.Linked s s') {l l' r r' : Ty} (hl : κ.PairsTy l l')
    (hr : κ.PairsTy r r') :
    κ.Linked { s with constraints := s.constraints.push ⟨l, r⟩ }
      { s' with constraints := s'.constraints.push ⟨l', r'⟩ } := by
  have heqs : ∀ (s : State) (e : Equation),
      ({ s with constraints := s.constraints.push e } : State).equations = s.equations ++ [e] := by
    simp [State.equations]
  refine { hs with equations_eq := ?_, equations_live := ?_ }
  · rw [heqs, heqs, hs.equations_eq, hl.1, hr.1, List.map_append]
    rfl
  · rw [heqs, Unification.vars_append, List.forall_mem_append]
    refine ⟨hs.equations_live, fun v hv => ?_⟩
    simp only [Unification.vars_cons, Unification.vars_nil, List.append_nil, Equation.vars,
      List.mem_append] at hv
    exact hv.elim (hl.2 v) (hr.2 v)

theorem insert (hs : κ.Linked s s') (hσ : κ.Pairs σ σ') (x : Name) :
    κ.Linked { s with env := s.env.insert x σ } { s' with env := s'.env.insert x σ' } :=
  { hs with env := hs.env.insert hσ x }

theorem commit (hs : κ.Linked s s') : κ.Linked s.commit s'.commit :=
  { hs with env := hs.env.applyEnv hs.solution hs.solution_live }

/-- A run starts without equations, so only the supplies and the environments matter. -/
theorem ofEnv (hbase : κ.base ≤ s.next) (hnext : s'.next = s.next + κ.shift)
    (henv : κ.PairsEnv s.env s'.env) : κ.Linked s.beginRun s'.beginRun where
  base_le := hbase
  next_eq := hnext
  equations_eq := rfl
  equations_live := nofun
  solved_eq := rfl
  solution := Substitution.renamed_empty
  solution_live v hv w hw := by
    obtain rfl : w = v := by simpa [State.beginRun] using hw
    exact hv
  env := henv

theorem beginRun (hs : κ.Linked s s') : κ.Linked s.beginRun s'.beginRun :=
  ofEnv hs.base_le hs.next_eq hs.env

theorem unsolved_eq (hs : κ.Linked s s') :
    s'.unsolved = s.unsolved.map (Equation.rename κ.map) := by
  rw [State.unsolved, State.unsolved, hs.equations_eq, hs.solved_eq, List.map_drop]

theorem solve (hs : κ.Linked s s') {n n' : Nat} (hn : n' = n) :
    κ.Linked { s with solution := (s.solution.solve s.unsolved).solution, solved := n }
      { s' with solution := (s'.solution.solve s'.unsolved).solution, solved := n' } := by
  refine { hs with solved_eq := hn, solution := ?_, solution_live := fun v hv => ?_ }
  · rw [hs.unsolved_eq]
    exact (Substitution.solve_rename κ.injective hs.solution s.unsolved).solution
  · refine Substitution.solve_image (fun u hu => ?_) (hs.solution_live v hv)
    obtain ⟨e, he, hu⟩ := List.mem_flatMap.1 hu
    exact hs.solution_live u
      (hs.equations_live u (List.mem_flatMap.2 ⟨e, List.mem_of_mem_drop he, hu⟩))

theorem apply (hs : κ.Linked s s') (ht : κ.PairsTy t t') :
    κ.PairsTy (s.solution.apply t) (s'.solution.apply t') := by
  refine ⟨by rw [ht.1, hs.solution.apply], fun v hv => ?_⟩
  obtain ⟨u, hu, hv⟩ := Ty.mem_occurrences_subst.1 hv
  exact hs.solution_live u (ht.2 u hu) v hv

end Linked

/-- Two actions that need `n` variables: the run that is ahead runs out of them first. -/
theorem Agrees.of_room (hs : κ.Linked s s') {n : Nat} {r : EStateM.Result Failure State α}
    {r' : EStateM.Result Failure State β}
    (hfail : ¬s.next + n ≤ TyVar.maxId → r = .error (.fault .overflow) s)
    (hfail' : ¬s'.next + n ≤ TyVar.maxId → r' = .error (.fault .overflow) s')
    (hok : s.next + n ≤ TyVar.maxId → s'.next + n ≤ TyVar.maxId → κ.Agrees R r r') :
    κ.Agrees R r r' := by
  have hnext := hs.next_eq
  by_cases hroom' : s'.next + n ≤ TyVar.maxId
  · exact hok (by omega) hroom'
  · rw [hfail' hroom']
    by_cases hroom : s.next + n ≤ TyVar.maxId
    · exact .exhausted (by omega)
    · rw [hfail hroom]
      exact .error rfl

namespace Simulates

theorem bind {act : Infer α} {act' : Infer β} {f : α → Infer γ} {f' : β → Infer δ}
    (h : κ.Simulates R act act') (hf : ∀ a b, R a b → κ.Simulates Q (f a) (f' b)) :
    κ.Simulates Q (act >>= f) (act' >>= f') := by
  intro s s' hs
  have hact := h s s' hs
  change κ.Agrees Q (EStateM.bind act f s) (EStateM.bind act' f' s')
  rw [EStateM.bind, EStateM.bind]
  generalize act s = r, act' s' = r' at hact
  cases hact with
  | ok hab hs => exact hf _ _ hab _ _ hs
  | error he => exact .error he
  | exhausted hk => exact .exhausted hk

theorem pure {a : α} {b : β} (h : R a b) : κ.Simulates R (Pure.pure a) (Pure.pure b) :=
  fun _ _ hs => .ok h hs

theorem fail {e e' : TypeError} (h : e' = e.rename κ.map) :
    κ.Simulates R (Infer.fail e) (Infer.fail e') := fun _ _ _ => .error (by rw [h]; rfl)

theorem fresh : κ.Simulates κ.PairsTy Infer.fresh Infer.fresh := by
  intro s s' hs
  refine .of_room hs (n := 1) Infer.fresh_overflow Infer.fresh_overflow fun hroom hroom' => ?_
  rw [Infer.fresh_ok.2 ⟨hroom, rfl, rfl⟩, Infer.fresh_ok.2 ⟨hroom', rfl, rfl⟩]
  refine .ok ⟨?_, fun v hv => ?_⟩ (hs.advance 1)
  · rw [Ty.rename_var, κ.map_new _ hs.base_le, hs.next_eq]
  · obtain rfl : v = ⟨s.next⟩ := by simpa using hv
    exact κ.live_new _ hs.base_le

theorem map_range' (hs : κ.Linked s s') (n : Nat) :
    ((List.range' s.next n).map TyVar.mk).map κ.map = (List.range' s'.next n).map TyVar.mk := by
  rw [hs.next_eq, Nat.add_comm, ← List.map_add_range', List.map_map, List.map_map]
  refine List.map_congr_left fun i hi => ?_
  have hle : s.next ≤ i := (List.mem_range'_1.1 hi).1
  simp [κ.map_new i (Nat.le_trans hs.base_le hle), Nat.add_comm]

theorem instantiate (hσ : σ.Matches κ.map σ') (hlive : ∀ v ∈ σ.freeVars, κ.live v) :
    κ.Simulates κ.PairsTy (Infer.instantiate σ) (Infer.instantiate σ') := by
  intro s s' hs
  have hmono := hσ.isMono_eq
  by_cases hm : σ.isMono = true
  · rw [Infer.instantiate_mono hm, Infer.instantiate_mono (hmono.trans hm)]
    have hv : σ.vars = [] := List.isEmpty_iff.1 hm
    obtain ⟨f, -, -, hty, -⟩ := hσ
    refine .ok ⟨?_, fun v hocc => hlive v (Scheme.mem_freeVars.2 ⟨hocc, by simp [hv]⟩)⟩ hs
    rw [hty, Scheme.specialize, hv]
    rfl
  · have hm' : ¬σ'.isMono = true := by rwa [hmono]
    have hlen := hσ.length_eq
    refine .of_room hs (n := σ.vars.length) (Infer.instantiate_overflow hm)
      (fun h => Infer.instantiate_overflow hm' (by rwa [hlen])) fun hroom hroom' => ?_
    rw [Infer.instantiate_poly hm hroom, Infer.instantiate_poly hm' (by rwa [hlen]), hlen]
    refine .ok ⟨?_, fun v hv => ?_⟩ (hs.advance σ.vars.length)
    · rw [← map_range' hs]
      exact hσ.apply_relabel (by simp)
    · obtain ⟨f, m, -, hinst, -, hnew, -⟩ := Infer.instantiate_ok (Infer.instantiate_poly hm hroom)
      rw [hinst] at hv
      rcases Scheme.mem_occurrences_specialize.1 hv with ⟨u, -, hb, hv⟩ | ⟨u, hu, hv⟩
      · obtain rfl : v = f u := by simpa using hv
        exact κ.live_new _ (Nat.le_trans hs.base_le (hnew u hb).1)
      · obtain rfl : v = u := by simpa using hv
        exact hlive v hu

theorem constrain {l l' r r' : Ty} (hl : κ.PairsTy l l') (hr : κ.PairsTy r r') :
    κ.Simulates Eq (Infer.constrain l r) (Infer.constrain l' r') :=
  fun _ _ hs => .ok rfl (hs.constrain hl hr)

theorem solvePending : κ.Simulates Eq Infer.solvePending Infer.solvePending := by
  intro s s' hs
  have hsize : s'.constraints.size = s.constraints.size := by
    simpa [State.equations] using congrArg List.length hs.equations_eq
  have hsolve := Substitution.solve_rename κ.injective hs.solution s.unsolved
  have hlinked := hs.solve hsize
  rw [← hs.unsolved_eq] at hsolve
  rcases hS : s.solution.solve s.unsolved with ⟨S, _ | c⟩ <;>
    rcases hS' : s'.solution.solve s'.unsolved with ⟨S', _ | c'⟩ <;>
    simp only [hS, hS'] at hsolve hlinked
  · rw [Infer.solvePending_ok (u := ()).2 ⟨S, hS, rfl⟩,
      Infer.solvePending_ok (u := ()).2 ⟨S', hS', rfl⟩]
    exact .ok rfl hlinked
  · cases hsolve.conflict
  · cases hsolve.conflict
  · rw [Infer.solvePending_error.2 ⟨S, c, hS, rfl, rfl⟩,
      Infer.solvePending_error.2 ⟨S', c', hS', rfl, rfl⟩]
    obtain rfl : c' = c.rename κ.map := Option.some.inj hsolve.conflict
    exact .error rfl

theorem afterSolving {f : State → α} {f' : State → β}
    (h : ∀ s s', κ.Linked s s' → R (f s) (f' s')) :
    κ.Simulates R (do Infer.solvePending; let s ← get; return f s)
      (do Infer.solvePending; let s ← get; return f' s) :=
  solvePending.bind fun _ _ _ s s' hs => .ok (h s s' hs) hs

theorem resolve (ht : κ.PairsTy t t') :
    κ.Simulates κ.PairsTy (Infer.resolve t) (Infer.resolve t') :=
  afterSolving fun _ _ hs => hs.apply ht

theorem generalize (ht : κ.PairsTy t t') :
    κ.Simulates κ.Pairs (Infer.generalize t) (Infer.generalize t') := by
  refine afterSolving fun s s' hs => ?_
  obtain ⟨heq, hlive⟩ := hs.apply ht
  rw [heq, (hs.env.applyEnv hs.solution hs.solution_live).generalize_eq]
  exact pairs_rename fun v hv => hlive v (Env.mem_freeVars_generalize.1 hv).1

theorem withBinding {act : Infer α} {act' : Infer β} (h : κ.Simulates R act act')
    (hσ : κ.Pairs σ σ') (x : Name) :
    κ.Simulates R (Infer.withBinding x σ act) (Infer.withBinding x σ' act') := by
  intro s s' hs
  have hact := h _ _ (hs.insert hσ x)
  rw [Infer.withBinding, Infer.withBinding]
  generalize act { s with env := s.env.insert x σ } = r,
    act' { s' with env := s'.env.insert x σ' } = r' at hact
  cases hact with
  | ok hab hs₁ => exact .ok hab { hs₁ with env := hs₁.env.restore x (hs.env x) }
  | error he => exact .error he
  | exhausted hk => exact .exhausted hk

theorem ident (x : Name) : κ.Simulates κ.PairsTy (Infer.ident x) (Infer.ident x) := by
  intro s s' hs
  rcases hs.env.lookup x with ⟨σ, σ', hx, hx', hσ⟩ | ⟨hx, hx'⟩
  · rw [Infer.ident_bound hx, Infer.ident_bound hx']
    exact instantiate hσ.matched hσ.live s s' hs
  · rw [Infer.ident_unbound hx, Infer.ident_unbound hx']
    exact .error rfl

theorem receiverType (ht : κ.PairsTy t t') :
    κ.Simulates κ.PairsTy (Infer.receiverType t) (Infer.receiverType t') := by
  have hv : t'.isVar = t.isVar := by rw [ht.1, Ty.isVar_rename]
  rw [Infer.receiverType, Infer.receiverType, hv]
  split
  · exact resolve ht
  · exact pure ht

theorem receiverName (m : Name) (ht : κ.PairsTy t t') :
    κ.Simulates Eq (Infer.receiverName m t) (Infer.receiverName m t') := by
  obtain ⟨rfl, -⟩ := ht
  cases t with
  | fn p r => exact fail rfl
  | tuple ts => exact fail rfl
  | var v => exact fail rfl
  | _ => exact pure rfl

theorem useMember (m n : Name) :
    κ.Simulates κ.PairsTy (Infer.useMember d m n) (Infer.useMember d m n) := by
  rw [Infer.useMember]
  cases hm : d.member? n m with
  | none => exact fail rfl
  | some σ =>
    obtain ⟨hσ, hlive⟩ := matches_declared hm
    refine (instantiate hσ hlive).bind fun i i' hi => fresh.bind fun r r' hr => ?_
    exact (constrain hr hi).bind fun _ _ _ => pure hr

theorem access (ht : κ.PairsTy t t') (m : Name) :
    κ.Simulates κ.PairsTy (Infer.access d m t) (Infer.access d m t') := by
  refine (receiverType ht).bind fun r r' hr => (receiverName m hr).bind fun n n' hn => ?_
  subst hn
  exact useMember m n

end Simulates

def runs (κ : Correspondence d) : TwoRuns where
  Linked := κ.Linked
  PairsTy := κ.PairsTy
  Pairs := κ.Pairs
  Agrees := κ.Agrees

theorem lawful (κ : Correspondence d) : κ.runs.Lawful d where
  base h := ⟨(Ty.rename_eq_self (by simp [h])).symm, by simp [h]⟩
  fn ht hu := by
    refine ⟨by rw [ht.1, hu.1, Ty.rename_fn], ?_⟩
    rw [Ty.occurrences_fn]
    exact List.forall_mem_append.2 ⟨ht.2, hu.2⟩
  tuple_cons ht hts := by
    obtain ⟨hrest, hlive⟩ := hts
    rw [Ty.rename_tuple, Ty.tuple.injEq] at hrest
    rw [Ty.occurrences_tuple] at hlive
    refine ⟨by rw [ht.1, hrest, Ty.rename_tuple, List.map_cons], ?_⟩
    rw [Ty.occurrences_tuple, List.flatMap_cons]
    exact List.forall_mem_append.2 ⟨ht.2, hlive⟩
  mono ht := by
    obtain ⟨rfl, hlive⟩ := ht
    exact pairs_rename fun v hv => hlive v (by simpa using hv)
  bind := Simulates.bind
  pure := Simulates.pure
  fault _ _ _ _ := .error rfl
  fresh := Simulates.fresh
  ident := Simulates.ident
  constrain := Simulates.constrain
  generalize := Simulates.generalize
  withBinding := Simulates.withBinding
  access := Simulates.access

end Correspondence

namespace Program

open Correspondence

variable {p : Program} {κ : Correspondence p.declarations} {s s' : State}

theorem inferWithin_simulates (n : Nat) (id : ExprId) :
    κ.Simulates κ.PairsTy (p.inferWithin n id) (p.inferWithin n id) := by
  induction n generalizing id with
  | zero => exact fun _ _ _ => .error rfl
  | succ n ih =>
    refine Simulates.bind (κ.lawful.ofFault (p.table.get id)) fun e e' he => ?_
    obtain ⟨-, rfl⟩ := he
    change κ.Simulates _ (Infer.node (p.inferWithin n) p _) (Infer.node (p.inferWithin n) p _)
    exact κ.lawful.node fun _ _ id _ => ih id

theorem infer_agrees (hs : κ.Linked s.beginRun s'.beginRun) (id : ExprId) :
    κ.Agrees κ.PairsTy (p.infer id s) (p.infer id s') :=
  (inferWithin_simulates p.depth id).bind (fun _ _ ht => Simulates.resolve ht) _ _ hs

theorem define_agrees (hs : κ.Linked s.beginRun s'.beginRun) (x : Name) (id : ExprId) :
    κ.Agrees κ.Pairs (p.define x id s) (p.define x id s') :=
  (inferWithin_simulates p.depth id).bind (fun _ _ ht => (Simulates.generalize ht).bind
    fun _ _ hσ _ _ hs => .ok hσ (hs.commit.insert hσ x)) _ _ hs

/-- Definitions that follow one another succeed from both states and leave paired environments, or
fail from both, unless the supply of the second runs out. -/
theorem defineAll_agrees (defs : List (Name × ExprId)) (hs : κ.Linked s.beginRun s'.beginRun) :
    (∃ s₁ s₁', p.defineAll defs s = .ok () s₁ ∧ p.defineAll defs s' = .ok () s₁' ∧
      κ.PairsEnv s₁.env s₁'.env) ∨
    (∃ e s₁ s₁', p.defineAll defs s = .error e s₁ ∧
      p.defineAll defs s' = .error (e.rename κ.map) s₁') ∨
    0 < κ.shift ∧ ∃ s₁', p.defineAll defs s' = .error (.fault .overflow) s₁' := by
  induction defs generalizing s s' with
  | nil => exact .inl ⟨s, s', rfl, rfl, hs.env⟩
  | cons b defs ih =>
    obtain ⟨x, id⟩ := b
    have hdef := define_agrees hs x id
    generalize hr : p.define x id s = r, hr' : p.define x id s' = r' at hdef
    cases hdef with
    | @ok σ σ' s₁ s₁' _ hs₁ =>
      have hrest : p.defineAll ((x, id) :: defs) s = p.defineAll defs s₁ := Infer.bind_of_ok hr
      have hrest' : p.defineAll ((x, id) :: defs) s' = p.defineAll defs s₁' := Infer.bind_of_ok hr'
      rw [hrest, hrest']
      exact ih hs₁.beginRun
    | @error e _ s₁ s₁' he =>
      subst he
      exact .inr (.inl ⟨e, s₁, s₁', Infer.bind_error.2 (.inl hr), Infer.bind_error.2 (.inl hr')⟩)
    | @exhausted _ s₁' hk => exact .inr (.inr ⟨hk, s₁', Infer.bind_error.2 (.inl hr')⟩)

end Program
end TypeInference

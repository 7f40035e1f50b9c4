import TypeInference.Proofs.Expr.Building
import TypeInference.Proofs.Inference.Appends
import TypeInference.Proofs.Inference.Calls

/-! What can stop a run. A run asks the table for expressions and lists, and the supply for
variables. In a table that was built call by call all expressions and lists are there, and the
nesting of expressions ends. So a run that ends without a type or a type error has asked for a
variable that the supply did not have, and the counter had come to its end. -/
namespace TypeInference

namespace Context

/-- Asks for variables one after the other. If one is missing, what is left is the context in which
it was asked for. -/
def draw : Nat → Context → Except Context (List TyVar × Context)
  | 0, c => .ok ([], c)
  | n + 1, c =>
    match c.fresh? with
    | none => .error c
    | some (v, c) => (draw n c).map fun (vs, c) => (v :: vs, c)

variable {c c' : Context} {n : Nat}

theorem draw_succ_of_lt (h : c.next < TyVar.maxId) (n : Nat) : c.draw (n + 1) =
    (draw n { c with next := c.next + 1 }).map fun (vs, c') => (⟨c.next⟩ :: vs, c') := by
  rw [draw, fresh?, if_pos h]

theorem draw_succ_of_le (h : TyVar.maxId ≤ c.next) (n : Nat) : c.draw (n + 1) = .error c := by
  rw [draw, fresh?, if_neg (Nat.not_lt.2 h)]

theorem draw_error_iff : (∃ c', c.draw n = .error c') ↔ n ≠ 0 ∧ TyVar.maxId < c.next + n := by
  induction n generalizing c with
  | zero => simp [draw]
  | succ n ih =>
    by_cases h : c.next < TyVar.maxId
    · have hmap : (∃ c', c.draw (n + 1) = .error c') ↔
          ∃ c', draw n { c with next := c.next + 1 } = .error c' := by
        rw [draw_succ_of_lt h]
        cases draw n { c with next := c.next + 1 } <;> simp [Except.map]
      rw [hmap, ih]
      dsimp only
      omega
    · rw [draw_succ_of_le (Nat.not_lt.1 h)]
      exact ⟨fun _ => ⟨by omega, by omega⟩, fun _ => ⟨c, rfl⟩⟩

theorem next_of_draw_error (hc : c.next ≤ TyVar.maxId) (h : c.draw n = .error c') :
    c'.next = TyVar.maxId := by
  induction n generalizing c with
  | zero => cases h
  | succ n ih =>
    rcases Nat.lt_or_eq_of_le hc with hlt | heq
    · rw [draw_succ_of_lt hlt] at h
      cases hd : draw n { c with next := c.next + 1 } with
      | ok r => simp [hd, Except.map] at h
      | error c₁ =>
        rw [hd] at h
        cases h
        exact ih (c := { c with next := c.next + 1 }) hlt hd
    · rw [draw_succ_of_le heq.ge] at h
      cases h
      exact heq

end Context

theorem ExprTable.get_ne_overflow (t : ExprTable) {id : ExprId} : t.get id ≠ .error .overflow := by
  rw [get]
  split <;> simp

theorem ExprTable.children_ne_overflow (t : ExprTable) {e : Expr} :
    t.children e ≠ .error .overflow := by
  cases e with
  | tuple r =>
    rw [children, getList]
    split_ifs <;> simp
  | _ => simp [children]

namespace Infer

variable {α β : Type}

/-- The action meets this fault. -/
def Faults (act : Infer α) (s : State) (f : Fault) : Prop := ∃ s', act s = .error (.fault f) s'

variable {act : Infer α} {g : α → Infer β} {a : α} {s s₁ : State} {f : Fault} {t : Ty}

theorem Faults.first (h : act.Faults s f) : (act >>= g).Faults s f := by
  obtain ⟨s', h⟩ := h
  exact ⟨s', bind_error.2 (.inl h)⟩

theorem Faults.later (hok : act s = .ok a s₁) (h : (g a).Faults s₁ f) : (act >>= g).Faults s f := by
  obtain ⟨s', h⟩ := h
  exact ⟨s', bind_error.2 (.inr ⟨a, s₁, hok, h⟩)⟩

theorem Faults.bind_cases (h : (act >>= g).Faults s f) :
    act.Faults s f ∨ ∃ a s₁, act s = .ok a s₁ ∧ (g a).Faults s₁ f := by
  obtain ⟨s', h⟩ := h
  rcases bind_error.1 h with h | ⟨a, s₁, hok, h⟩
  · exact .inl ⟨s', h⟩
  · exact .inr ⟨a, s₁, hok, s', h⟩

theorem not_faults_pure : ¬(pure a : Infer α).Faults s f := nofun

theorem not_faults_fail {e : TypeError} : ¬(fail e : Infer α).Faults s f := nofun

theorem not_faults_constrain {l r : Ty} : ¬(constrain l r).Faults s f := nofun

theorem not_faults_record {l r : Ty} : ¬(do constrain l r; return a : Infer α).Faults s f := by
  intro h
  rcases h.bind_cases with h | ⟨_, s₁, -, h⟩
  exacts [not_faults_constrain h, not_faults_pure h]

theorem not_faults_solvePending : ¬solvePending.Faults s f := by
  rintro ⟨s', h⟩
  obtain ⟨S, c, -, he, -⟩ := solvePending_error.1 h
  cases he

theorem not_faults_afterSolving {r : State → α} :
    ¬(do solvePending; let s ← get; return r s : Infer α).Faults s f := by
  intro h
  rcases h.bind_cases with h | ⟨_, s₁, -, s', h⟩
  · exact not_faults_solvePending h
  · rw [get_bind] at h
    cases h

theorem not_faults_resolve : ¬(resolve t).Faults s f := not_faults_afterSolving

theorem not_faults_generalize : ¬(generalize t).Faults s f := not_faults_afterSolving

theorem not_faults_receiverType : ¬(receiverType t).Faults s f := by
  rw [receiverType]
  split
  exacts [not_faults_resolve, not_faults_pure]

theorem not_faults_receiverName {m : Name} : ¬Faults (receiverName m t) s f := by
  cases hn : t.nominalName? with
  | none =>
    obtain ⟨e, he⟩ := receiverName_of_none (m := m) hn
    rw [he]
    exact not_faults_fail
  | some n =>
    rintro ⟨s', h⟩
    cases (receiverName_ok (m := m).2 ⟨hn, rfl⟩).symm.trans h

theorem faults_withBinding {x : Name} {σ : Scheme} :
    (withBinding x σ act).Faults s f ↔ act.Faults { s with env := s.env.insert x σ } f := by
  simp only [Faults, withBinding]
  cases act { s with env := s.env.insert x σ } <;> simp

theorem faults_ofFault {r : Except Fault α} : (ofFault r).Faults s f ↔ r = .error f := by
  cases r with
  | ok a => simp [Faults, ofFault, pure, EStateM.pure]
  | error f' => simp [Faults, ofFault, throw, throwThe, MonadExceptOf.throw, EStateM.throw]

theorem faults_fresh : fresh.Faults s f ↔ f = .overflow ∧ ∃ c, s.toContext.draw 1 = .error c := by
  rw [Context.draw_error_iff]
  by_cases h : s.next < TyVar.maxId
  · have hok : fresh s = .ok (.var ⟨s.next⟩) { s with next := s.next + 1 } :=
      fresh_ok.2 ⟨h, rfl, rfl⟩
    simp only [Faults, hok, reduceCtorEq, exists_false, false_iff]
    omega
  · have hout : TyVar.maxId < s.next + 1 := Nat.lt_succ_of_le (Nat.not_lt.1 h)
    simp [Faults, fresh_overflow h, hout, eq_comm]

theorem faults_instantiate {σ : Scheme} :
    (instantiate σ).Faults s f ↔
      f = .overflow ∧ ∃ c, s.toContext.draw σ.vars.length = .error c := by
  rw [Context.draw_error_iff]
  by_cases hm : σ.isMono = true
  · have hlen : σ.vars.length = 0 := by simpa [Scheme.isMono] using hm
    simp [Faults, instantiate_mono hm, hlen]
  · have hlen : σ.vars.length ≠ 0 := by simpa [Scheme.isMono] using hm
    by_cases hroom : s.next + σ.vars.length ≤ TyVar.maxId
    · simp [Faults, instantiate_poly hm hroom, hroom]
    · simp [Faults, instantiate_overflow hm hroom, hlen, Nat.not_le.1 hroom, eq_comm]

theorem faults_elements {go : ExprId → Infer Ty} {ids : List ExprId} :
    Faults (elements go ids) s f ↔
    ∃ before id later ts s₁, ids = before ++ id :: later ∧ elements go before s = .ok ts s₁ ∧
      (go id).Faults s₁ f := by
  induction ids generalizing s with
  | nil => simp [elements, not_faults_pure]
  | cons id ids ih =>
    constructor
    · intro h
      rcases h.bind_cases with h | ⟨t, s₁, hid, h⟩
      · exact ⟨[], id, ids, [], s, rfl, rfl, h⟩
      rcases h.bind_cases with h | ⟨ts, s₂, -, h⟩
      · obtain ⟨before, c, later, ts, s₂, rfl, hbefore, hc⟩ := ih.1 h
        exact ⟨id :: before, c, later, t :: ts, s₂, rfl,
          bind_ok.2 ⟨t, s₁, hid, bind_ok.2 ⟨ts, s₂, hbefore, rfl⟩⟩, hc⟩
      · exact absurd h not_faults_pure
    · rintro ⟨before, c, later, ts, s₁, hsplit, hbefore, hc⟩
      cases before with
      | nil =>
        obtain ⟨rfl, rfl⟩ := List.cons.inj hsplit
        obtain ⟨-, rfl⟩ := elements_nil_ok.1 hbefore
        exact .first hc
      | cons b before =>
        obtain ⟨rfl, rfl⟩ := List.cons.inj hsplit
        obtain ⟨t, us, s₂, hid, hbefore, -⟩ := elements_cons_ok hbefore
        exact .later hid (.first (ih.2 ⟨before, c, later, us, s₁, rfl, hbefore, hc⟩))

/-- The type of the receiver has been found, and it declares the member with this scheme. -/
def Selects (go : ExprId → Infer Ty) (d : Declarations) (receiver : ExprId) (m : Name) (s : State)
    (σ : Scheme) (s₁ : State) : Prop :=
  ∃ t r n s₀, go receiver s = .ok t s₀ ∧ receiverType t s₀ = .ok r s₁ ∧ r.nominalName? = some n ∧
    d.member? n m = some σ

/-- While an expression of this form is inferred from the first state, so many variables are asked
for in the second. Those that its parts ask for are not counted. -/
inductive Asks (go : ExprId → Infer Ty) (d : Declarations) : Expr → State → Nat → State → Prop where
  | use {x : Name} {σ : Scheme} {s : State} (hx : s.env[x]? = some σ) :
    Asks go d (.ident x) s σ.vars.length s
  | parameter {x : Name} {body : ExprId} {s : State} : Asks go d (.lambda x body) s 1 s
  | result {func arg : ExprId} {u v : Ty} {s s₁ s₂ : State} (h₁ : go func s = .ok u s₁)
    (h₂ : go arg s₁ = .ok v s₂) : Asks go d (.apply func arg) s 1 s₂
  | member {receiver : ExprId} {m : Name} {σ : Scheme} {s s₁ : State}
    (h₁ : Selects go d receiver m s σ s₁) : Asks go d (.member receiver m) s σ.vars.length s₁
  | memberResult {receiver : ExprId} {m : Name} {σ : Scheme} {u : Ty} {s s₁ s₂ : State}
    (h₁ : Selects go d receiver m s σ s₁) (h₂ : instantiate σ s₁ = .ok u s₂) :
    Asks go d (.member receiver m) s 1 s₂

variable {go : ExprId → Infer Ty} {p : Program} {d : Declarations} {e : Expr} {c : ExprId} {k : Nat}

theorem Selects.keeps (hgo : ∀ id, Scoped (go id)) {receiver : ExprId} {m : Name} {σ : Scheme}
    (h : Selects go d receiver m s σ s₁) : s.Keeps s₁ := by
  obtain ⟨t, r, n, s₀, h₀, h₁, -⟩ := h
  exact ((hgo receiver).ok h₀).trans ((scoped_receiverType t).ok h₁)

theorem Asks.keeps (hgo : ∀ id, Scoped (go id)) (h : Asks go d e s k s₁) : s.Keeps s₁ := by
  cases h with
  | use hx => exact .refl s
  | parameter => exact .refl s
  | result h₁ h₂ => exact ((hgo _).ok h₁).trans ((hgo _).ok h₂)
  | member h₁ => exact h₁.keeps hgo
  | memberResult h₁ h₂ => exact (h₁.keeps hgo).trans ((scoped_instantiate _).ok h₂)

theorem Enters.child {table : ExprTable} (h : Enters go table e s c s₁) :
    ∃ cs, table.children e = .ok cs ∧ c ∈ cs := by
  cases h with
  | element hl h₁ => exact ⟨_, hl, by simp⟩
  | _ => exact ⟨_, rfl, by simp⟩

theorem Enters.faults (h : Enters go p.table e s c s₁) (hf : (go c).Faults s₁ f) :
    Faults (node go p e) s f := by
  cases h with
  | lambda h₁ => exact .later h₁ (.first (faults_withBinding.2 hf))
  | func => exact .first hf
  | arg h₁ => exact .later h₁ (.first hf)
  | value => exact .first hf
  | body h₁ h₂ => exact .later h₁ (.later h₂ (faults_withBinding.2 hf))
  | thenBranch => exact .first hf
  | cond h₁ => exact .later h₁ (.first hf)
  | elseBranch h₁ h₂ => exact .later h₁ (.later h₂ (.first hf))
  | receiver => exact .first hf
  | element hl h₁ =>
    exact .later (ofFault_ok.2 ⟨hl, rfl⟩) (.first (faults_elements.2 ⟨_, _, _, _, _, rfl, h₁, hf⟩))

theorem Selects.faults {receiver : ExprId} {m : Name} {σ : Scheme}
    (h : Selects go d receiver m s σ s₁)
    (hf : Faults
      (do let t ← instantiate σ; let r ← fresh; constrain r t; return r : Infer Ty) s₁ f) :
    Faults (member go d receiver m) s f := by
  obtain ⟨t, r, n, s₀, h₀, h₁, hn, hσ⟩ := h
  rw [member_eq]
  refine .later h₀ (.later h₁ (.later (receiverName_ok.2 ⟨hn, rfl⟩) ?_))
  rwa [useMember, hσ]

theorem Asks.faults (h : Asks go p.declarations e s k s₁)
    (hc : ∃ c, s₁.toContext.draw k = .error c) : Faults (node go p e) s .overflow := by
  cases h with
  | use hx =>
    change (ident _).Faults s .overflow
    rw [Faults, ident_bound hx]
    exact faults_instantiate.2 ⟨rfl, hc⟩
  | parameter => exact .first (faults_fresh.2 ⟨rfl, hc⟩)
  | result h₁ h₂ => exact .later h₁ (.later h₂ (.first (faults_fresh.2 ⟨rfl, hc⟩)))
  | member h₁ => exact h₁.faults (.first (faults_instantiate.2 ⟨rfl, hc⟩))
  | memberResult h₁ h₂ => exact h₁.faults (.later h₂ (.first (faults_fresh.2 ⟨rfl, hc⟩)))

theorem Faults.member_cases {receiver : ExprId} {m : Name}
    (h : Faults (member go d receiver m) s f) :
    (go receiver).Faults s f ∨
      f = .overflow ∧ ∃ k s₁ c, Asks go d (.member receiver m) s k s₁ ∧
        s₁.toContext.draw k = .error c := by
  rw [member_eq] at h
  rcases h.bind_cases with h | ⟨t, s₁, h₁, h⟩
  · exact .inl h
  rcases h.bind_cases with h | ⟨r, s₂, h₂, h⟩
  · exact absurd h not_faults_receiverType
  rcases h.bind_cases with h | ⟨n, s₃, h₃, h⟩
  · exact absurd h not_faults_receiverName
  obtain ⟨hn, rfl⟩ := receiverName_ok.1 h₃
  cases hσ : d.member? n m with
  | none =>
    rw [useMember, hσ] at h
    exact absurd h not_faults_fail
  | some σ =>
    rw [useMember, hσ] at h
    have hsel : Selects go d receiver m s σ s₂ := ⟨t, r, n, s₁, h₁, h₂, hn, hσ⟩
    rcases h.bind_cases with h | ⟨u, s₃, h₃, h⟩
    · obtain ⟨hf, c, hc⟩ := faults_instantiate.1 h
      exact .inr ⟨hf, _, s₂, c, .member hsel, hc⟩
    rcases h.bind_cases with h | ⟨w, s₄, -, h⟩
    · obtain ⟨hf, c, hc⟩ := faults_fresh.1 h
      exact .inr ⟨hf, 1, s₃, c, .memberResult hsel h₃, hc⟩
    · exact absurd h not_faults_record

/-- A fault of an expression is one of a part, or a variable is missing, or the list of its parts is
not there. -/
theorem Faults.node_cases (h : Faults (node go p e) s f) :
    (∃ c s₁, Enters go p.table e s c s₁ ∧ (go c).Faults s₁ f) ∨
    (f = .overflow ∧ ∃ k s₁ c, Asks go p.declarations e s k s₁ ∧ s₁.toContext.draw k = .error c) ∨
    p.table.children e = .error f := by
  cases e with
  | ident x =>
    change (ident x).Faults s f at h
    cases hx : s.env[x]? with
    | none =>
      rw [Faults, ident_unbound hx] at h
      obtain ⟨s', h⟩ := h
      cases h
    | some σ =>
      rw [Faults, ident_bound hx] at h
      obtain ⟨hf, c, hc⟩ := faults_instantiate.1 h
      exact .inr (.inl ⟨hf, _, s, c, .use hx, hc⟩)
  | lambda x body =>
    rcases h.bind_cases with h | ⟨a, s₁, h₁, h⟩
    · obtain ⟨hf, c, hc⟩ := faults_fresh.1 h
      exact .inr (.inl ⟨hf, 1, s, c, .parameter, hc⟩)
    rcases h.bind_cases with h | ⟨_, s₂, -, h⟩
    · exact .inl ⟨body, _, .lambda h₁, faults_withBinding.1 h⟩
    · exact absurd h not_faults_pure
  | apply func arg =>
    rcases h.bind_cases with h | ⟨u, s₁, h₁, h⟩
    · exact .inl ⟨func, s, .func, h⟩
    rcases h.bind_cases with h | ⟨v, s₂, h₂, h⟩
    · exact .inl ⟨arg, s₁, .arg h₁, h⟩
    rcases h.bind_cases with h | ⟨_, s₃, -, h⟩
    · obtain ⟨hf, c, hc⟩ := faults_fresh.1 h
      exact .inr (.inl ⟨hf, 1, s₂, c, .result h₁ h₂, hc⟩)
    · exact absurd h not_faults_record
  | letIn x value body =>
    rcases h.bind_cases with h | ⟨a, s₁, h₁, h⟩
    · exact .inl ⟨value, s, .value, h⟩
    rcases h.bind_cases with h | ⟨σ, s₂, h₂, h⟩
    · exact absurd h not_faults_generalize
    · exact .inl ⟨body, _, .body h₁ h₂, faults_withBinding.1 h⟩
  | ternary cond thenBranch elseBranch =>
    rcases h.bind_cases with h | ⟨a, s₁, h₁, h⟩
    · exact .inl ⟨thenBranch, s, .thenBranch, h⟩
    rcases h.bind_cases with h | ⟨b, s₂, h₂, h⟩
    · exact .inl ⟨cond, s₁, .cond h₁, h⟩
    rcases h.bind_cases with h | ⟨_, s₃, -, h⟩
    · exact .inl ⟨elseBranch, s₂, .elseBranch h₁ h₂, h⟩
    rcases h.bind_cases with h | ⟨_, s₄, -, h⟩
    · exact absurd h not_faults_constrain
    · exact absurd h not_faults_record
  | member receiver m =>
    rcases Faults.member_cases h with h | h
    · exact .inl ⟨receiver, s, .receiver, h⟩
    · exact .inr (.inl h)
  | tuple r =>
    rcases h.bind_cases with h | ⟨ids, s₁, hget, h⟩
    · exact .inr (.inr (faults_ofFault.1 h))
    obtain ⟨hids, rfl⟩ := ofFault_ok.1 hget
    rcases h.bind_cases with h | ⟨_, s₂, -, h⟩
    · obtain ⟨before, c, later, ts, s₂, rfl, hbefore, hc⟩ := faults_elements.1 h
      exact .inl ⟨c, s₂, .element hids hbefore, hc⟩
    · exact absurd h not_faults_pure
  | _ => exact absurd h not_faults_pure

end Infer

namespace Program

open Infer

variable {p : Program} {n m k : Nat} {id c : ExprId} {s s₁ : State} {f : Fault}

def Asks (p : Program) (n : Nat) (id : ExprId) (s : State) (k : Nat) (s₁ : State) : Prop :=
  ∃ m c e s₀, p.Visits n id s (m + 1) c s₀ ∧ p.table.get c = .ok e ∧
    Infer.Asks (p.inferWithin m) p.declarations e s₀ k s₁

theorem Visits.reaches (h : p.Visits n id s m c s₁) : p.table.Reaches id c := by
  induction h with
  | here => exact .refl
  | deeper he hin hv ih =>
    obtain ⟨cs, hcs, hc⟩ := hin.child
    exact .head (ExprTable.child_of_get he hcs hc) ih

theorem Asks.next_le (h : p.Asks n id s k s₁) (hs : s.next ≤ TyVar.maxId) :
    s₁.next ≤ TyVar.maxId := by
  obtain ⟨m, c, e, s₀, hv, -, hasks⟩ := h
  have hcarries : ∀ n, Carries (p.inferWithin n) fun s => s.next ≤ TyVar.maxId := fun n =>
    { run := fun hs hok => ((p.inferWithin_scoped n _).ok hok).next_max hs
      parameter := fun hs hok _ => (scoped_fresh.ok hok).next_max hs
      value := fun hs hok hgen _ =>
        ((scoped_generalize _).ok hgen).next_max (((p.inferWithin_scoped n _).ok hok).next_max hs) }
  exact (hasks.keeps (p.inferWithin_scoped m)).next_max (hv.carries hcarries hs)

/-- Inference runs out of variables exactly if a variable that it asks for is missing. -/
theorem faults_overflow_iff : (p.inferWithin n id).Faults s .overflow ↔
    ∃ k s₁ c, p.Asks n id s k s₁ ∧ s₁.toContext.draw k = .error c := by
  induction n generalizing id s with
  | zero =>
    constructor
    · rintro ⟨s', h⟩
      cases h
    · rintro ⟨k, s₁, c, ⟨m, b, e, s₀, hv, -⟩, -⟩
      cases hv
  | succ n ih =>
    constructor
    · intro h
      rcases h.bind_cases with h | ⟨e, s₁, hget, h⟩
      · exact absurd (faults_ofFault.1 h) p.table.get_ne_overflow
      obtain ⟨he, rfl⟩ := ofFault_ok.1 hget
      rcases h.node_cases with ⟨c, s₁, hin, h⟩ | ⟨-, k, s₁, c, hasks, hc⟩ | h
      · obtain ⟨k, s₂, b, ⟨m, a, e', s₀, hv, ha, hasks⟩, hb⟩ := ih.1 h
        exact ⟨k, s₂, b, ⟨m, a, e', s₀, .deeper he hin hv, ha, hasks⟩, hb⟩
      · exact ⟨k, s₁, c, ⟨n, id, e, s, .here, he, hasks⟩, hc⟩
      · exact absurd h p.table.children_ne_overflow
    · rintro ⟨k, s₁, c, ⟨m, b, e, s₀, hv, he, hasks⟩, hc⟩
      cases hv with
      | here => exact .later (ofFault_ok.2 ⟨he, rfl⟩) (hasks.faults ⟨c, hc⟩)
      | deeper he' hin hv =>
        exact .later (ofFault_ok.2 ⟨he', rfl⟩)
          (hin.faults (ih.2 ⟨k, s₁, c, ⟨m, b, e, s₀, hv, he, hasks⟩, hc⟩))

/-- Where all parts are in the table, nothing but a variable can be missing. -/
theorem fault_eq_overflow (hn : p.table.Nested n id) (h : (p.inferWithin n id).Faults s f) :
    f = .overflow := by
  induction n generalizing id s with
  | zero => exact hn.elim
  | succ n ih =>
    obtain ⟨e, cs, he, hcs, hn⟩ := hn
    rcases h.bind_cases with h | ⟨e', s₁, hget, h⟩
    · rw [he] at h
      cases faults_ofFault.1 h
    obtain ⟨he', rfl⟩ := ofFault_ok.1 hget
    cases he.symm.trans he'
    rcases h.node_cases with ⟨c, s₁, hin, h⟩ | ⟨hf, -⟩ | h
    · obtain ⟨ds, hds, hc⟩ := hin.child
      cases hcs.symm.trans hds
      exact ih (hn c hc) h
    · exact hf
    · cases hcs.symm.trans h

theorem faults_infer : (p.infer id).Faults s f ↔ (p.inferExpr id).Faults s.beginRun f := by
  constructor
  · intro h
    rcases h.bind_cases with ⟨s', h⟩ | ⟨_, s₁, hbegin, h⟩
    · cases h
    obtain ⟨-, rfl⟩ := EStateM.Result.ok.inj hbegin
    rcases h.bind_cases with h | ⟨t, s₁, -, h⟩
    · exact h
    · exact absurd h not_faults_resolve
  · intro h
    have hbegin : (modify State.beginRun : Infer PUnit) s = .ok () s.beginRun := rfl
    exact .later hbegin (.first h)

/-- In a table that was built call by call, inference of anything that a call has returned ends with
a type or with a type error, or because a variable is missing. The last happens exactly if,
somewhere in the run, variables are asked for and one is not there, and then the counter is at its
end. All expressions and lists that the run looks at are in the table, and it goes no deeper than
the table is long. -/
theorem built_run_ends {ids : List ExprId} (h : p.table.Built ids) (hid : id ∈ ids) (env : Env) :
    ((∃ t, p.typeOf env id = .ok t) ∨ (∃ e, p.typeOf env id = .error (.type e)) ∨
      p.typeOf env id = .error (.fault .overflow)) ∧
    (p.typeOf env id = .error (.fault .overflow) ↔
      ∃ k s c, p.Asks p.depth id (p.start env).beginRun k s ∧
        s.toContext.draw k = .error c ∧ c.next = TyVar.maxId) ∧
    (∀ n s m c s₁, p.Visits n id s m c s₁ →
      ∃ e cs, p.table.get c = .ok e ∧ p.table.children e = .ok cs) ∧
    ∀ n, p.table.size ≤ n → p.inferWithin n id = p.inferExpr id := by
  have hwf := h.wellFormed hid
  have hle : p.table.size ≤ p.depth := Nat.le_add_left _ _
  have hfault : ∀ f, p.typeOf env id = .error (.fault f) ↔
      (p.inferExpr id).Faults (p.start env).beginRun f :=
    fun f => typeOf_error.trans faults_infer
  refine ⟨?_, ⟨fun hover => ?_, ?_⟩, fun n s m c s₁ hv => hwf.inRange c hv.reaches, fun n hn => ?_⟩
  · cases hres : p.typeOf env id with
    | ok t => exact .inl ⟨t, rfl⟩
    | error e =>
      cases e with
      | type e => exact .inr (.inl ⟨e, rfl⟩)
      | fault f =>
        rw [fault_eq_overflow (hwf.nested.mono hle) ((hfault f).1 hres)]
        exact .inr (.inr rfl)
  · obtain ⟨k, s, c, hasks, hc⟩ := faults_overflow_iff.1 ((hfault .overflow).1 hover)
    have hstart : (p.start env).beginRun.next ≤ TyVar.maxId := (p.start_supplied env).next_le
    exact ⟨k, s, c, hasks, hc, Context.next_of_draw_error (hasks.next_le hstart) hc⟩
  · rintro ⟨k, s, c, hasks, hc, -⟩
    exact (hfault .overflow).2 (faults_overflow_iff.2 ⟨k, s, c, hasks, hc⟩)
  · rw [inferExpr, inferWithin_eq_of_nested hwf.nested hn, inferWithin_eq_of_nested hwf.nested hle]

/-- `x`, `y`, and the tuple of both. -/
def pairProgram : Program where
  table := ⟨#[.ident ⟨1⟩, .ident ⟨2⟩, .tuple ⟨0, 2⟩], #[⟨0⟩, ⟨1⟩]⟩
  declarations := ∅

def oneLeftEnv : Env :=
  ((∅ : Env).insert ⟨1⟩ (.mono (.var ⟨4294967293⟩))).insert ⟨2⟩
    ⟨[⟨0⟩, ⟨1⟩], .fn (.var ⟨0⟩) (.var ⟨1⟩)⟩

theorem built_pairProgram : pairProgram.table.Built [⟨2⟩, ⟨1⟩, ⟨0⟩] :=
  .call (.call (.call .empty (.ident ⟨1⟩) (List.nil_subset _)) (.ident ⟨2⟩) (List.nil_subset _))
    (.tuple [⟨0⟩, ⟨1⟩]) (by decide)

/-- The tuple has no type since a variable is missing, while its first part has. -/
theorem built_run_ends_one_left :
    pairProgram.table.Built [⟨2⟩, ⟨1⟩, ⟨0⟩] ∧
    pairProgram.typeOf oneLeftEnv ⟨2⟩ = .error (.fault .overflow) ∧
    (∃ k s c, pairProgram.Asks pairProgram.depth ⟨2⟩ (pairProgram.start oneLeftEnv).beginRun k s ∧
      s.toContext.draw k = .error c ∧ c.next = TyVar.maxId) ∧
    pairProgram.typeOf oneLeftEnv ⟨0⟩ = .ok (.var ⟨4294967293⟩) ∧
    pairProgram.inferWithin 3 ⟨2⟩ = pairProgram.inferExpr ⟨2⟩ := by
  have hid : (⟨2⟩ : ExprId) ∈ [⟨2⟩, ⟨1⟩, ⟨0⟩] := List.mem_cons_self
  obtain ⟨-, hover, -, hlevels⟩ := built_run_ends built_pairProgram hid oneLeftEnv
  have hfail : pairProgram.typeOf oneLeftEnv ⟨2⟩ = .error (.fault .overflow) := by
    rw [typeOf, infer_eq_of_nested (n := 2) (by decide) (by decide)]
    cbv
  refine ⟨built_pairProgram, hfail, hover.1 hfail, ?_, hlevels 3 (Nat.le_refl _)⟩
  rw [typeOf, infer_eq_of_nested (n := 1) (by decide) (by decide)]
  cbv

end Program
end TypeInference

import TypeInference.Proofs.Inference.Appends

/-! Two runs side by side. To compare two runs of a program one says which of their states, types
and schemes belong together and which of their results agree. What has to be shown then is about the
actions; the rules are chains of actions, and here it is shown once that they follow. -/
namespace TypeInference

open Infer (Appends)

/-- A comparison of two runs. -/
structure TwoRuns where
  Linked : State → State → Prop
  PairsTy : Ty → Ty → Prop
  Pairs : Scheme → Scheme → Prop
  /-- Of two results, those of successful actions in the relation. -/
  Agrees : {α β : Type} → (α → β → Prop) → EStateM.Result Failure State α →
    EStateM.Result Failure State β → Prop

namespace TwoRuns

def Simulates (r : TwoRuns) {α β : Type} (R : α → β → Prop) (act : Infer α)
    (act' : Infer β) : Prop :=
  ∀ s s' : State, r.Linked s s' → r.Agrees R (act s) (act' s')

/-- The comparison passes through the actions. In a chain of actions the second run may have gone on
where the first has failed, so it must be known that it drops no equation. -/
structure Lawful (r : TwoRuns) (d : Declarations) : Prop where
  base : ∀ {t : Ty}, t.occurrences = [] → r.PairsTy t t
  fn : ∀ {t t' u u' : Ty}, r.PairsTy t t' → r.PairsTy u u' → r.PairsTy (.fn t u) (.fn t' u')
  tuple_cons : ∀ {t t' : Ty} {ts ts' : List Ty}, r.PairsTy t t' →
    r.PairsTy (.tuple ts) (.tuple ts') →
    r.PairsTy (.tuple (t :: ts)) (.tuple (t' :: ts'))
  mono : ∀ {t t' : Ty}, r.PairsTy t t' → r.Pairs (.mono t) (.mono t')
  bind : ∀ {α β γ δ : Type} {R : α → β → Prop} {Q : γ → δ → Prop} {act : Infer α} {act' : Infer β}
    {f : α → Infer γ} {f' : β → Infer δ} [∀ b, Appends (f' b)], r.Simulates R act act' →
    (∀ a b, R a b → r.Simulates Q (f a) (f' b)) → r.Simulates Q (act >>= f) (act' >>= f')
  pure : ∀ {α β : Type} {R : α → β → Prop} {a : α} {b : β}, R a b → r.Simulates R (pure a) (pure b)
  fault : ∀ {α β : Type} {R : α → β → Prop} (f : Fault), r.Simulates R (throw (.fault f))
    (throw (.fault f))
  fresh : r.Simulates r.PairsTy Infer.fresh Infer.fresh
  ident : ∀ x : Name, r.Simulates r.PairsTy (Infer.ident x) (Infer.ident x)
  constrain : ∀ {t t' u u' : Ty}, r.PairsTy t t' → r.PairsTy u u' →
    r.Simulates Eq (Infer.constrain t u) (Infer.constrain t' u')
  generalize : ∀ {t t' : Ty}, r.PairsTy t t' →
    r.Simulates r.Pairs (Infer.generalize t) (Infer.generalize t')
  withBinding : ∀ {σ σ' : Scheme} {act act' : Infer Ty}, r.Simulates r.PairsTy act act' →
    r.Pairs σ σ' →
    ∀ x : Name, r.Simulates r.PairsTy (Infer.withBinding x σ act) (Infer.withBinding x σ' act')
  access : ∀ {t t' : Ty}, r.PairsTy t t' →
    ∀ m : Name, r.Simulates r.PairsTy (Infer.access d m t) (Infer.access d m t')

namespace Lawful

variable {r : TwoRuns} {d : Declarations} {go go' : ExprId → Infer Ty} [∀ id, Appends (go' id)]

section

variable (h : r.Lawful d)
include h

theorem ofFault {α : Type} (o : Except Fault α) :
    r.Simulates (fun a b => o = .ok a ∧ b = a) (Infer.ofFault o) (Infer.ofFault o) := by
  cases o with
  | ok a => exact h.pure ⟨rfl, rfl⟩
  | error f => exact h.fault f

theorem lambda (x : Name) {body : ExprId} (hbody : r.Simulates r.PairsTy (go body) (go' body)) :
    r.Simulates r.PairsTy (Infer.lambda go x body) (Infer.lambda go' x body) :=
  h.bind h.fresh fun _ _ ha => h.bind (h.withBinding hbody (h.mono ha) x) fun _ _ hb =>
    h.pure (h.fn ha hb)

theorem letIn (x : Name) {value body : ExprId}
    (hvalue : r.Simulates r.PairsTy (go value) (go' value))
    (hbody : r.Simulates r.PairsTy (go body) (go' body)) :
    r.Simulates r.PairsTy (Infer.letIn go x value body) (Infer.letIn go' x value body) :=
  h.bind hvalue fun _ _ ht => h.bind (h.generalize ht) fun _ _ hσ => h.withBinding hbody hσ x

theorem apply {func arg : ExprId} (hfunc : r.Simulates r.PairsTy (go func) (go' func))
    (harg : r.Simulates r.PairsTy (go arg) (go' arg)) :
    r.Simulates r.PairsTy (Infer.apply go func arg) (Infer.apply go' func arg) :=
  h.bind hfunc fun _ _ hf => h.bind harg fun _ _ ha => h.bind h.fresh fun _ _ hr =>
    h.bind (h.constrain hf (h.fn ha hr)) fun _ _ _ => h.pure hr

theorem ternary {cond thenBranch elseBranch : ExprId}
    (hcond : r.Simulates r.PairsTy (go cond) (go' cond))
    (hthen : r.Simulates r.PairsTy (go thenBranch) (go' thenBranch))
    (helse : r.Simulates r.PairsTy (go elseBranch) (go' elseBranch)) :
    r.Simulates r.PairsTy (Infer.ternary go cond thenBranch elseBranch)
      (Infer.ternary go' cond thenBranch elseBranch) := by
  refine h.bind hthen fun t t' ht => h.bind hcond fun c c' hc => h.bind helse fun e e' he => ?_
  have hbool : r.PairsTy .bool .bool := h.base (by simp)
  exact h.bind (h.constrain hc hbool) fun _ _ _ => h.bind (h.constrain he ht) fun _ _ _ => h.pure ht

theorem elements {ids : List ExprId} (hids : ∀ id ∈ ids, r.Simulates r.PairsTy (go id) (go' id)) :
    r.Simulates (fun ts ts' => r.PairsTy (.tuple ts) (.tuple ts')) (Infer.elements go ids)
      (Infer.elements go' ids) := by
  induction ids with
  | nil => exact h.pure (h.base (by simp))
  | cons id ids ih =>
    obtain ⟨hid, hids⟩ := List.forall_mem_cons.1 hids
    exact h.bind hid fun _ _ ht => h.bind (ih hids) fun _ _ hts => h.pure (h.tuple_cons ht hts)

theorem tuple {table : ExprTable} {range : ExprRange}
    (hids : ∀ ids, table.getList range = .ok ids →
      ∀ id ∈ ids, r.Simulates r.PairsTy (go id) (go' id)) :
    r.Simulates r.PairsTy (Infer.tuple go table range) (Infer.tuple go' table range) := by
  refine h.bind (h.ofFault (table.getList range)) fun ids ids' hget => ?_
  obtain ⟨hget, rfl⟩ := hget
  exact h.bind (h.elements (hids ids' hget)) fun _ _ hts => h.pure hts

end

theorem node {p : Program} (h : r.Lawful p.declarations) {e : Expr}
    (hcs : ∀ cs, p.table.children e = .ok cs → ∀ id ∈ cs, r.Simulates r.PairsTy (go id) (go' id)) :
    r.Simulates r.PairsTy (Infer.node go p e) (Infer.node go' p e) := by
  cases e with
  | bool b => exact h.pure (h.base (by simp))
  | int i => exact h.pure (h.base (by simp))
  | float bits => exact h.pure (h.base (by simp))
  | str n => exact h.pure (h.base (by simp))
  | ident x => exact h.ident x
  | lambda x body => exact h.lambda x (hcs _ rfl body (by simp))
  | apply func arg => exact h.apply (hcs _ rfl func (by simp)) (hcs _ rfl arg (by simp))
  | letIn x value body => exact h.letIn x (hcs _ rfl value (by simp)) (hcs _ rfl body (by simp))
  | ternary c t e =>
    exact h.ternary (hcs _ rfl c (by simp)) (hcs _ rfl t (by simp)) (hcs _ rfl e (by simp))
  | member receiver m =>
    rw [Infer.node, Infer.node, Infer.member_eq, Infer.member_eq]
    exact h.bind (hcs _ rfl receiver (by simp)) fun _ _ ht => h.access ht m
  | tuple range => exact h.tuple hcs

end Lawful
end TwoRuns
end TypeInference

import TypeInference.Proofs.Expr.Nesting
import TypeInference.Proofs.Inference.Actions

/-! Inference goes down as many levels as an expression has. Allowing more makes no difference, so a
run can be evaluated on the levels of its expression, whatever the length of the table. -/
namespace TypeInference

namespace Infer

variable {go go' : ExprId → Infer Ty} {p : Program} {e : Expr} {ids : List ExprId}

theorem elements_eq (h : ∀ id ∈ ids, go' id = go id) : elements go' ids = elements go ids := by
  induction ids with
  | nil => rfl
  | cons id ids ih =>
    obtain ⟨hid, hids⟩ := List.forall_mem_cons.1 h
    rw [elements, elements, hid, ih hids]

theorem node_eq (hids : p.table.children e = .ok ids) (h : ∀ id ∈ ids, go' id = go id) :
    node go' p e = node go p e := by
  cases e with
  | lambda x body =>
    cases hids
    simp only [node, lambda, h body (by simp)]
  | apply func arg =>
    cases hids
    simp only [node, apply, h func (by simp), h arg (by simp)]
  | letIn x value body =>
    cases hids
    simp only [node, letIn, h value (by simp), h body (by simp)]
  | ternary cond thenBranch elseBranch =>
    cases hids
    simp only [node, ternary, h cond (by simp), h thenBranch (by simp), h elseBranch (by simp)]
  | member receiver m =>
    cases hids
    simp only [node, member, h receiver (by simp)]
  | tuple r =>
    have hget : p.table.getList r = .ok ids := hids
    funext s
    refine bind_congr_ok rfl fun ids' s₁ hok => ?_
    obtain ⟨hids', rfl⟩ := ofFault_ok.1 hok
    cases hget.symm.trans hids'
    exact bind_congr_ok (congrFun (elements_eq h) s) fun _ _ _ => rfl
  | _ => rfl

end Infer

namespace Program

variable {p : Program} {n k : Nat} {id : ExprId}

theorem inferWithin_eq_of_nested (hk : p.table.Nested k id) (hkn : k ≤ n) :
    p.inferWithin n id = p.inferWithin k id := by
  induction k generalizing n id with
  | zero => exact hk.elim
  | succ k ih =>
    obtain ⟨e, cs, he, hcs, hk⟩ := hk
    obtain ⟨n, rfl⟩ : ∃ i, n = i + 1 := ⟨n - 1, by omega⟩
    funext s
    refine Infer.bind_congr_ok rfl fun e' s₁ hget => ?_
    obtain ⟨he', rfl⟩ := Infer.ofFault_ok.1 hget
    cases he.symm.trans he'
    exact congrFun (Infer.node_eq hcs fun c hc => ih (hk c hc) (by omega)) s

theorem inferExpr_eq_of_nested (h : p.table.Nested n id) (hn : n ≤ p.depth) :
    p.inferExpr id = p.inferWithin n id := inferWithin_eq_of_nested h hn

theorem infer_eq_of_nested (h : p.table.Nested n id) (hn : n ≤ p.depth) :
    p.infer id = Host.infer (p.inferWithin n) id := by
  rw [infer, Host.infer, Host.infer, inferExpr_eq_of_nested h hn]

theorem define_eq_of_nested (h : p.table.Nested n id) (hn : n ≤ p.depth) (x : Name) :
    p.define x id = Host.define (p.inferWithin n) x id := by
  rw [define, Host.define, Host.define, inferExpr_eq_of_nested h hn]

theorem defineAll_eq_of_nested {defs : List (Name × ExprId)}
    (h : ∀ d ∈ defs, p.table.Nested n d.2) (hn : n ≤ p.depth) :
    p.defineAll defs = Host.defineAll (p.inferWithin n) defs := by
  induction defs with
  | nil => rfl
  | cons d defs ih =>
    obtain ⟨hd, hdefs⟩ := List.forall_mem_cons.1 h
    change (p.define d.1 d.2 >>= fun _ => p.defineAll defs) = _
    rw [define_eq_of_nested hd hn, ih hdefs]
    rfl

end Program
end TypeInference

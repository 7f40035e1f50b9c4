import TypeInference.Proofs.Expr.Nesting

/-! Tables that are built call by call. Every call enters one expression and returns its position,
and the parts of the expression are positions that earlier calls have returned. So every entry names
earlier entries only, ranges of the list of positions stay inside it, and all that is returned is
well-formed. -/
namespace TypeInference

inductive Build where
  | bool (value : Bool)
  | int (value : Int)
  | float (bits : UInt64)
  | str (text : Name)
  | ident (x : Name)
  | lambda (param : Name) (body : ExprId)
  | apply (func arg : ExprId)
  | letIn (x : Name) (value body : ExprId)
  | ternary (cond thenBranch elseBranch : ExprId)
  | member (receiver : ExprId) (member : Name)
  | tuple (elems : List ExprId)

namespace Build

def parts : Build → List ExprId
  | .lambda _ body => [body]
  | .apply func arg => [func, arg]
  | .letIn _ value body => [value, body]
  | .ternary cond thenBranch elseBranch => [cond, thenBranch, elseBranch]
  | .member receiver _ => [receiver]
  | .tuple elems => elems
  | .bool _ | .int _ | .float _ | .str _ | .ident _ => []

def run (t : ExprTable) : Build → ExprId × ExprTable
  | .bool b => t.add (.bool b)
  | .int n => t.add (.int n)
  | .float bits => t.add (.float bits)
  | .str text => t.add (.str text)
  | .ident x => t.add (.ident x)
  | .lambda x body => t.add (.lambda x body)
  | .apply func arg => t.add (.apply func arg)
  | .letIn x value body => t.add (.letIn x value body)
  | .ternary cond thenBranch elseBranch => t.add (.ternary cond thenBranch elseBranch)
  | .member receiver m => t.add (.member receiver m)
  | .tuple elems => t.addTuple elems

end Build

namespace ExprTable

/-- The table has been built from nothing by calls that returned these positions, the last one
first, and were passed none but those. -/
inductive Built : ExprTable → List ExprId → Prop where
  | empty : Built .empty []
  | call {t : ExprTable} {ids : List ExprId} (h : Built t ids) (b : Build)
    (hparts : b.parts ⊆ ids) :
    Built (b.run t).2 ((b.run t).1 :: ids)

def Layered (t : ExprTable) : Prop :=
  ∀ a e, t.get a = .ok e → ∃ cs, t.children e = .ok cs ∧ ∀ b ∈ cs, b.index < a.index

variable {t : ExprTable} {e : Expr} {cs ids : List ExprId}

@[simp] theorem size_add (t : ExprTable) (e : Expr) : (t.add e).2.size = t.size + 1 :=
  Array.size_push _

@[simp] theorem size_addList (t : ExprTable) (ids : List ExprId) :
    (t.addList ids).2.size = t.size := by
  rw [addList]
  split <;> rfl

theorem children_add (t : ExprTable) (e e' : Expr) : (t.add e).2.children e' = t.children e' := by
  cases e' <;> rfl

theorem getList_eq_ok {r : ExprRange} : t.getList r = .ok cs ↔
    r.start + r.len ≤ t.lists.size ∧ (t.lists.extract r.start (r.start + r.len)).toList = cs := by
  by_cases hend : r.start + r.len ≤ t.lists.size
  · rw [getList, if_neg (by omega), if_neg (by omega)]
    simp [hend]
  · rw [getList]
    split
    · simp [hend]
    · rw [if_pos (by omega)]
      simp [hend]

theorem getList_addList_self (t : ExprTable) (ids : List ExprId) :
    (t.addList ids).2.getList (t.addList ids).1 = .ok ids := by
  rw [getList_eq_ok, addList]
  split <;> simp_all [ExprRange.empty]

theorem getList_addList {r : ExprRange} (h : t.getList r = .ok cs) (ids : List ExprId) :
    (t.addList ids).2.getList r = .ok cs := by
  obtain ⟨hle, hcs⟩ := getList_eq_ok.1 h
  rw [getList_eq_ok, addList]
  split
  · exact ⟨hle, hcs⟩
  · have hnone : r.start + r.len - t.lists.size = 0 := Nat.sub_eq_zero_of_le hle
    refine ⟨by simp; omega, ?_⟩
    rw [Array.extract_append, hnone]
    simpa using hcs

theorem children_addList (h : t.children e = .ok cs) (ids : List ExprId) :
    (t.addList ids).2.children e = .ok cs := by
  cases e with
  | tuple r => exact getList_addList h ids
  | _ => exact h

theorem layered_empty : empty.Layered := fun a e h => by simp [empty, get] at h

theorem Layered.add (h : t.Layered) (hcs : t.children e = .ok cs)
    (hlt : ∀ c ∈ cs, c.index < t.size) : (t.add e).2.Layered := by
  intro a e' ha
  rw [children_add]
  rw [get_eq_ok, ExprTable.add, Array.getElem?_push] at ha
  split at ha
  next hsize =>
    cases ha
    exact ⟨cs, hcs, fun c hc => hsize ▸ hlt c hc⟩
  next => exact h a e' (get_eq_ok.2 ha)

theorem Layered.addList (h : t.Layered) (ids : List ExprId) : (t.addList ids).2.Layered := by
  intro a e ha
  have hget : t.get a = .ok e := by
    rw [ExprTable.addList] at ha
    split at ha <;> exact ha
  obtain ⟨cs, hcs, hlt⟩ := h a e hget
  exact ⟨cs, children_addList hcs ids, hlt⟩

theorem Layered.addTuple (h : t.Layered) (hlt : ∀ c ∈ ids, c.index < t.size) :
    (t.addTuple ids).2.Layered := by
  refine (h.addList ids).add (getList_addList_self t ids) fun c hc => ?_
  rw [size_addList]
  exact hlt c hc

end ExprTable

namespace Build

variable {t : ExprTable}

theorem run_index (t : ExprTable) (b : Build) : (b.run t).1.index = t.size := by
  cases b with
  | tuple elems => exact t.size_addList elems
  | _ => rfl

theorem size_run (t : ExprTable) (b : Build) : (b.run t).2.size = t.size + 1 := by
  cases b with
  | tuple elems =>
    change ((t.addList elems).2.add _).2.size = _
    rw [ExprTable.size_add, ExprTable.size_addList]
  | _ => exact ExprTable.size_add _ _

theorem layered_run (h : t.Layered) (b : Build) (hlt : ∀ c ∈ b.parts, c.index < t.size) :
    (b.run t).2.Layered := by
  cases b with
  | tuple elems => exact h.addTuple hlt
  | _ => exact h.add rfl hlt

end Build

namespace ExprTable.Built

variable {t : ExprTable} {ids : List ExprId}

theorem index_lt (h : t.Built ids) : ∀ id ∈ ids, id.index < t.size := by
  induction h with
  | empty => exact nofun
  | call h b hparts ih =>
    rw [b.size_run]
    refine List.forall_mem_cons.2 ⟨?_, fun id hid => Nat.lt_succ_of_lt (ih id hid)⟩
    rw [b.run_index]
    exact Nat.lt_succ_self _

theorem layered (h : t.Built ids) : t.Layered := by
  induction h with
  | empty => exact layered_empty
  | call h b hparts ih => exact b.layered_run ih fun c hc => h.index_lt c (hparts hc)

theorem wellFormed (h : t.Built ids) {id : ExprId} (hid : id ∈ ids) : t.WellFormed id :=
  wellFormed_of_earlier h.layered (h.index_lt id hid)

end ExprTable.Built
end TypeInference

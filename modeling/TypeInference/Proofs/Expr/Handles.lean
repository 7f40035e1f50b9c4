import TypeInference.Proofs.Expr.Building

/-! Handles into a table of expressions. A table hands out positions of expressions and ranges of
its list of positions. No call takes anything away, so whatever a table resolves, every later table
resolves to the same. Hence each handle stands for what it was handed out for, however calls of all
kinds follow each other. -/
namespace TypeInference

namespace Build

def list : Build → List ExprId
  | .tuple elems => elems
  | _ => []

/-- The expression that a call enters, where `r` is the range of its list. -/
def expr (r : ExprRange) : Build → Expr
  | .bool b => .bool b
  | .int n => .int n
  | .float bits => .float bits
  | .str text => .str text
  | .ident x => .ident x
  | .lambda x body => .lambda x body
  | .apply func arg => .apply func arg
  | .letIn x value body => .letIn x value body
  | .ternary cond thenBranch elseBranch => .ternary cond thenBranch elseBranch
  | .member receiver m => .member receiver m
  | .tuple _ => .tuple r

theorem run_eq (t : ExprTable) (b : Build) :
    b.run t = (t.addList b.list).2.add (b.expr (t.addList b.list).1) := by
  cases b <;> rfl

end Build

namespace ExprTable

/-- What the earlier table resolves, the later one resolves to the same. -/
structure Keeps (later earlier : ExprTable) : Prop where
  get : ∀ {id e}, earlier.get id = .ok e → later.get id = .ok e
  getList : ∀ {r ids}, earlier.getList r = .ok ids → later.getList r = .ok ids

variable {t u v : ExprTable} {id : ExprId} {ids : List ExprId} {e : Expr}

theorem Keeps.refl (t : ExprTable) : t.Keeps t := ⟨fun h => h, fun h => h⟩

theorem Keeps.trans (huv : v.Keeps u) (htu : u.Keeps t) : v.Keeps t where
  get h := huv.get (htu.get h)
  getList h := huv.getList (htu.getList h)

theorem get_add_self (t : ExprTable) (e : Expr) : (t.add e).2.get (t.add e).1 = .ok e := by
  simp [get_eq_ok, add]

theorem keeps_add (t : ExprTable) (e : Expr) : (t.add e).2.Keeps t where
  get {id e'} h := by
    have hne : id.index ≠ t.exprs.size := Nat.ne_of_lt (index_lt_size h)
    rw [get_eq_ok] at h ⊢
    rw [add, Array.getElem?_push, if_neg hne, h]
  getList h := h

theorem get_addList (t : ExprTable) (ids : List ExprId) (id : ExprId) :
    (t.addList ids).2.get id = t.get id := by
  rw [addList]
  split <;> rfl

theorem keeps_addList (t : ExprTable) (ids : List ExprId) : (t.addList ids).2.Keeps t where
  get {id e} h := by rw [get_addList, h]
  getList h := getList_addList h ids

theorem addList_nil (t : ExprTable) : t.addList [] = (.empty, t) := rfl

inductive Call where
  | add (e : Expr)
  | addList (ids : List ExprId)
  | build (b : Build)

inductive Handle where
  | expr (id : ExprId)
  | list (r : ExprRange)

def Handle.position? : Handle → Option ExprId
  | .expr id => some id
  | .list _ => none

def Call.run (t : ExprTable) : Call → Handle × ExprTable
  | .add e => (.expr (t.add e).1, (t.add e).2)
  | .addList ids => (.list (t.addList ids).1, (t.addList ids).2)
  | .build b => (.expr (b.run t).1, (b.run t).2)

def after (t : ExprTable) (calls : List Call) : ExprTable := calls.foldl (fun t c => (c.run t).2) t

def handles (t : ExprTable) : List Call → List Handle
  | [] => []
  | c :: calls => (c.run t).1 :: (c.run t).2.handles calls

/-- The range is that of a list: it resolves to the list, and for the empty list it is the one empty
range. -/
def Lists (t : ExprTable) (r : ExprRange) (ids : List ExprId) : Prop :=
  t.getList r = .ok ids ∧ (ids = [] → r = .empty)

def Call.Resolves (t : ExprTable) : Call → Handle → Prop
  | .add e, .expr id => t.get id = .ok e
  | .addList ids, .list r => t.Lists r ids
  | .build b, .expr id => ∃ r, t.get id = .ok (b.expr r) ∧ t.Lists r b.list
  | _, _ => False

variable {c : Call} {calls : List Call} {handle : Handle}

@[simp] theorem after_cons (t : ExprTable) (c : Call) (calls : List Call) :
    t.after (c :: calls) = (c.run t).2.after calls := rfl

theorem after_append (t : ExprTable) (calls later : List Call) :
    t.after (calls ++ later) = (t.after calls).after later := List.foldl_append

theorem lists_addList (t : ExprTable) (ids : List ExprId) :
    (t.addList ids).2.Lists (t.addList ids).1 ids := by
  refine ⟨t.getList_addList_self ids, ?_⟩
  rintro rfl
  rw [addList_nil]

theorem Lists.keeps {r : ExprRange} (h : t.Lists r ids) (hu : u.Keeps t) : u.Lists r ids :=
  ⟨hu.getList h.1, h.2⟩

theorem resolves_run (t : ExprTable) (c : Call) : c.Resolves (c.run t).2 (c.run t).1 := by
  cases c with
  | add e => exact t.get_add_self e
  | addList ids => exact t.lists_addList ids
  | build b =>
    refine ⟨(t.addList b.list).1, ?_, ?_⟩
    · rw [Call.run, b.run_eq]
      exact get_add_self _ _
    · rw [Call.run, b.run_eq]
      exact (t.lists_addList b.list).keeps (keeps_add _ _)

theorem Call.Resolves.keeps (h : c.Resolves t handle) (hu : u.Keeps t) : c.Resolves u handle := by
  cases c <;> cases handle
  case add.expr => exact hu.get h
  case addList.list => exact h.keeps hu
  case build.expr =>
    obtain ⟨r, hget, hlist⟩ := h
    exact ⟨r, hu.get hget, hlist.keeps hu⟩
  all_goals exact h

theorem keeps_run (t : ExprTable) (c : Call) : (c.run t).2.Keeps t := by
  cases c with
  | add e => exact t.keeps_add e
  | addList ids => exact t.keeps_addList ids
  | build b =>
    rw [Call.run, b.run_eq]
    exact (keeps_add _ _).trans (t.keeps_addList b.list)

theorem keeps_after (t : ExprTable) (calls : List Call) : (t.after calls).Keeps t := by
  induction calls generalizing t with
  | nil => exact .refl t
  | cons c calls ih => exact (ih (c.run t).2).trans (t.keeps_run c)

theorem resolves_handles (t : ExprTable) (calls : List Call) :
    List.Forall₂ (Call.Resolves (t.after calls)) calls (t.handles calls) := by
  induction calls generalizing t with
  | nil => exact .nil
  | cons c calls ih =>
    exact .cons ((t.resolves_run c).keeps ((c.run t).2.keeps_after calls)) (ih (c.run t).2)

theorem exists_positions_run (t : ExprTable) (c : Call) :
    ∃ n, (c.run t).2.size = t.size + n ∧
      [(c.run t).1].filterMap Handle.position? = (List.range' t.size n).map ExprId.mk := by
  cases c with
  | add e => exact ⟨1, t.size_add e, rfl⟩
  | addList ids => exact ⟨0, t.size_addList ids, rfl⟩
  | build b =>
    have hindex : (b.run t).1 = ⟨t.size⟩ := congrArg ExprId.mk (b.run_index t)
    exact ⟨1, b.size_run t, by simp [Call.run, Handle.position?, hindex]⟩

theorem exists_positions_handles (t : ExprTable) (calls : List Call) :
    ∃ n, (t.after calls).size = t.size + n ∧
      (t.handles calls).filterMap Handle.position? = (List.range' t.size n).map ExprId.mk := by
  induction calls generalizing t with
  | nil => exact ⟨0, rfl, rfl⟩
  | cons c calls ih =>
    obtain ⟨m, hsize, hfirst⟩ := t.exists_positions_run c
    obtain ⟨n, hsizes, hrest⟩ := ih (c.run t).2
    refine ⟨m + n, by rw [after_cons, hsizes, hsize, Nat.add_assoc], ?_⟩
    rw [handles, ← List.singleton_append, List.filterMap_append, hfirst, hrest,
      hsize, ← List.map_append, List.range'_append_1]

/-- From the empty table on, positions are handed out from the first one without a gap, and every
handle, through all later calls, resolves to what it was handed out for. -/
theorem handles_stay_valid (calls later : List Call) :
    (empty.handles calls).filterMap Handle.position? =
      (List.range (empty.after calls).size).map ExprId.mk ∧
    List.Forall₂ (Call.Resolves (empty.after (calls ++ later))) calls (empty.handles calls) := by
  constructor
  · obtain ⟨n, hsize, hpositions⟩ := empty.exists_positions_handles calls
    have hempty : empty.size = 0 := rfl
    rw [hpositions, hsize, hempty, Nat.zero_add, List.range_eq_range']
  · have hkeeps := (empty.after calls).keeps_after later
    rw [after_append]
    exact (empty.resolves_handles calls).imp fun c handle h => h.keeps hkeeps

end ExprTable
end TypeInference

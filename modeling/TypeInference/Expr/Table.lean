import TypeInference.Expr.Basic
import TypeInference.Fault

/-! Tables of expressions. A table only grows, so a position or a range that it has given out keeps
its meaning. -/
namespace TypeInference

structure ExprTable where
  exprs : Array Expr
  lists : Array ExprId
deriving DecidableEq

namespace ExprTable

def empty : ExprTable := ⟨#[], #[]⟩

def size (t : ExprTable) : Nat := t.exprs.size

def get (t : ExprTable) (id : ExprId) : Except Fault Expr :=
  match t.exprs[id.index]? with
  | some e => .ok e
  | none => .error (.missingExpr id.index t.exprs.size)

def getList (t : ExprTable) (r : ExprRange) : Except Fault (List ExprId) :=
  if t.lists.size < r.start then .error (.listStart r.start t.lists.size)
  else if t.lists.size < r.start + r.len then .error (.listEnd (r.start + r.len) t.lists.size)
  else .ok (t.lists.extract r.start (r.start + r.len)).toList

def add (t : ExprTable) (e : Expr) : ExprId × ExprTable :=
  (⟨t.exprs.size⟩, { t with exprs := t.exprs.push e })

/-- Enters a list of positions. All empty lists share one range. -/
def addList (t : ExprTable) (ids : List ExprId) : ExprRange × ExprTable :=
  if ids.isEmpty then (.empty, t)
  else (⟨t.lists.size, ids.length⟩, { t with lists := t.lists ++ ids.toArray })

def addTuple (t : ExprTable) (ids : List ExprId) : ExprId × ExprTable :=
  let (r, t) := t.addList ids
  t.add (.tuple r)

end ExprTable
end TypeInference

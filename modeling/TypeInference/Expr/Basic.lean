import TypeInference.Name

/-! Expressions. Subexpressions are positions in a table of expressions, and the elements of a
tuple are a range of the table's list of positions. -/
namespace TypeInference

structure ExprId where
  index : Nat
deriving DecidableEq

structure ExprRange where
  start : Nat
  len : Nat
deriving DecidableEq

namespace ExprRange

def empty : ExprRange := ⟨0, 0⟩

def isEmpty (r : ExprRange) : Bool := r.len == 0

end ExprRange

inductive Expr where
  | bool (value : Bool)
  | int (value : Int)
  /-- A floating-point number by its 64 bits. -/
  | float (bits : UInt64)
  | str (text : Name)
  | ident (x : Name)
  | lambda (param : Name) (body : ExprId)
  | apply (func arg : ExprId)
  | letIn (x : Name) (value body : ExprId)
  | ternary (cond thenBranch elseBranch : ExprId)
  | member (receiver : ExprId) (member : Name)
  | tuple (elems : ExprRange)
deriving DecidableEq

def Expr.isLiteral : Expr → Bool
  | .bool _ | .int _ | .float _ | .str _ => true
  | _ => false

end TypeInference

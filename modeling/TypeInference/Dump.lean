import TypeInference.Expr.Table
import TypeInference.TypeError

/-! Dumps: values written out constructor by constructor, with the numbers of names and variables
in place of their texts. -/
namespace TypeInference
namespace Dump

def call (head arg : String) : String := head ++ "(" ++ arg ++ ")"

def list (items : List String) : String := "[" ++ String.intercalate ", " items ++ "]"

def record (head : String) (fields : List (String × String)) : String :=
  head ++ " \x7b " ++ String.intercalate ", " (fields.map fun f => f.1 ++ ": " ++ f.2) ++ " \x7d"

end Dump

open Dump

def Name.dump (n : Name) : String := call "Name" (toString n.id)

def NameTable.Full.dump (e : NameTable.Full) : String :=
  record "Overflow" [("count", toString e.count)]

def TyVar.dump (v : TyVar) : String := call "TypeVar" (toString v.id)

namespace Ty

mutual

def dump : Ty → String
  | .bool => "Bool"
  | .int => "Int"
  | .float => "Float"
  | .str => "Str"
  | .var v => call "Var" v.dump
  | .fn p r => record "Function" [("param", dump p), ("ret", dump r)]
  | .tuple ts => call "Tuple" (list (dumpAll ts))
  | .named n ts => record "Applied" [("name", n.dump), ("args", list (dumpAll ts))]

def dumpAll : List Ty → List String
  | [] => []
  | t :: ts => dump t :: dumpAll ts

end

end Ty

def Scheme.dump (s : Scheme) : String :=
  record "TypeScheme" [("vars", list (s.vars.map TyVar.dump)), ("ty", s.ty.dump)]

def TypeError.dump : TypeError → String
  | .conflict (.infinite v t) => record "InfiniteType" [("var", v.dump), ("ty", t.dump)]
  | .conflict (.mismatch l r) => record "Mismatch" [("lhs", l.dump), ("rhs", r.dump)]
  | .arrowMember m => record "ArrowMember" [("member", m.dump)]
  | .unknownMember t m => record "UnknownMember" [("type_name", t.dump), ("member", m.dump)]
  | .unbound x => call "Unbound" x.dump
  | .indeterminateReceiver m => record "IndeterminateReceiver" [("member", m.dump)]
  | .unsupportedReceiver t m =>
    record "UnsupportedReceiver" [("receiver", t.dump), ("member", m.dump)]

def ExprId.dump (id : ExprId) : String := call "ExprId" (toString id.index)

/-- A range is written by its two ends, and the second has to fit into 32 bits. -/
def ExprRange.dump (r : ExprRange) : Except Fault String :=
  if r.start + r.len ≤ 4294967295 then
    .ok (call "ExprRange" (toString r.start ++ ".." ++ toString (r.start + r.len)))
  else .error .overflow

def Expr.dump : Expr → Except Fault String
  | .bool b => .ok (call "Bool" (toString b))
  | .int i => .ok (call "Int" (toString i))
  | .float bits => .ok (call "Float" (toString bits.toNat))
  | .str s => .ok (call "Str" s.dump)
  | .ident x => .ok (call "Ident" x.dump)
  | .lambda x body => .ok (record "Lambda" [("param", x.dump), ("body", body.dump)])
  | .apply f a => .ok (record "Apply" [("func", f.dump), ("arg", a.dump)])
  | .letIn x value body =>
    .ok (record "Let" [("name", x.dump), ("value", value.dump), ("body", body.dump)])
  | .ternary c t e =>
    .ok (record "Ternary" [("cond", c.dump), ("then_branch", t.dump), ("else_branch", e.dump)])
  | .member r m => .ok (record "Member" [("receiver", r.dump), ("member", m.dump)])
  | .tuple r => r.dump.map (call "Tuple")

def ExprTable.dump (t : ExprTable) : Except Fault String := do
  let exprs ← t.exprs.toList.mapM Expr.dump
  return record "ExprArena"
    [("exprs", list exprs), ("expr_lists", list (t.lists.toList.map ExprId.dump))]

end TypeInference

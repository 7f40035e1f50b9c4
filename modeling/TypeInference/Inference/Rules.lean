import TypeInference.Expr.Table
import TypeInference.Inference.State

/-! The typing rules as actions. Each rule takes the inference of subexpressions as an argument,
returns a type and records the equations under which it is right. The rules do not say where the
name of a type comes from: this is left to the states that inference runs on. -/
namespace TypeInference

/-- States that inference can run on. They hold a state of inference, and can be asked for the name
under which the members of a type are declared. -/
class Host (W : Type) where
  lift {α : Type} (act : Infer α) : EStateM Failure W α
  withBinding {α : Type} (x : Name) (σ : Scheme) (act : EStateM Failure W α) : EStateM Failure W α
  nominalName (t : Ty) : EStateM Failure W (Option Name)

instance : Host State where
  lift act := act
  withBinding := Infer.withBinding
  nominalName t := pure t.nominalName?

/-- What inference reads: the expressions, and the members that types declare. -/
structure Program where
  table : ExprTable
  declarations : Declarations

namespace Infer

/-- Every use of a name gets variables of its own for the quantified ones. -/
def ident (x : Name) : Infer Ty := do
  match (← get).env[x]? with
  | some σ => instantiate σ
  | none => fail (.unbound x)

/-- A receiver of unknown type is resolved first. -/
def receiverType (t : Ty) : Infer Ty := if t.isVar then resolve t else pure t

def useMember (d : Declarations) (m receiver : Name) : Infer Ty :=
  match d.member? receiver m with
  | none => fail (.unknownMember receiver m)
  | some σ => do
    let t ← instantiate σ
    let result ← fresh
    constrain result t
    return result

open Host (lift nominalName)

variable {W : Type} [Host W] (go : ExprId → EStateM Failure W Ty)

/-- A parameter has one type throughout the body. -/
def lambda (x : Name) (body : ExprId) : EStateM Failure W Ty := do
  let param ← lift fresh
  let result ← Host.withBinding x (.mono param) (go body)
  return .fn param result

/-- The value does not see the new binding; the body sees it with a generalized type. -/
def letIn (x : Name) (value body : ExprId) : EStateM Failure W Ty := do
  let t ← go value
  let σ ← lift (generalize t)
  Host.withBinding x σ (go body)

def apply (func arg : ExprId) : EStateM Failure W Ty := do
  let f ← go func
  let a ← go arg
  let result ← lift fresh
  lift (constrain f (.fn a result))
  return result

/-- The first branch is looked at before the condition and gives the type. -/
def ternary (cond thenBranch elseBranch : ExprId) : EStateM Failure W Ty := do
  let t ← go thenBranch
  let c ← go cond
  let e ← go elseBranch
  lift (constrain c .bool)
  lift (constrain e t)
  return t

def elements : List ExprId → EStateM Failure W (List Ty)
  | [] => return []
  | id :: ids => do
    let t ← go id
    let ts ← elements ids
    return t :: ts

def tuple (table : ExprTable) (r : ExprRange) : EStateM Failure W Ty := do
  let ids ← lift (ofFault (table.getList r))
  let ts ← elements go ids
  return .tuple ts

/-- The name of a receiver. Functions and tuples are refused before it is asked for. -/
def receiverName (member : Name) (receiver : Ty) : EStateM Failure W Name :=
  match receiver with
  | .fn _ _ => lift (fail (.arrowMember member))
  | .tuple _ => lift (fail (.unsupportedReceiver receiver member))
  | _ => do
    match ← nominalName receiver with
    | some n => return n
    | none => lift (fail (.indeterminateReceiver member))

def member (d : Declarations) (receiver : ExprId) (m : Name) : EStateM Failure W Ty := do
  let t ← go receiver
  let t ← lift (receiverType t)
  let n ← receiverName m t
  lift (useMember d m n)

def node (p : Program) : Expr → EStateM Failure W Ty
  | .bool _ => return .bool
  | .int _ => return .int
  | .float _ => return .float
  | .str _ => return .str
  | .ident x => lift (ident x)
  | .lambda x body => lambda go x body
  | .apply func arg => apply go func arg
  | .letIn x value body => letIn go x value body
  | .ternary c t e => ternary go c t e
  | .member receiver m => member go p.declarations receiver m
  | .tuple r => tuple go p.table r

end Infer

namespace Program

/-- A path that is longer than the table visits an expression twice, so no expression without a
cycle is nested more deeply. The allowance beyond the table lets an expression with a cycle fail
with the error that is met on the way. -/
def depth (p : Program) : Nat := 4294967296 + p.table.size

end Program

def Host.inferWithin {W : Type} [Host W] (p : Program) : Nat → ExprId → EStateM Failure W Ty
  | 0, _ => throw (.fault .tooDeep)
  | depth + 1, id => do
    let e ← lift (Infer.ofFault (p.table.get id))
    Infer.node (inferWithin p depth) p e

namespace Program

def inferWithin (p : Program) : Nat → ExprId → Infer Ty := Host.inferWithin p

def inferExpr (p : Program) : ExprId → Infer Ty := p.inferWithin p.depth

end Program
end TypeInference

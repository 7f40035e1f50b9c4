import TypeInference.Name

/-! Types: four base types, variables, functions, tuples and nominal types. Equality of types is
decided by a structural walk, and `Ty.ind` is induction with a hypothesis for every component. -/
namespace TypeInference

structure TyVar where
  id : Nat
deriving DecidableEq

namespace TyVar

instance : Ord TyVar := ⟨fun a b => compare a.id b.id⟩

instance : Std.TransOrd TyVar := inferInstanceAs (Std.TransCmp (compareOn TyVar.id))

instance : Std.LawfulEqOrd TyVar where
  eq_of_compare {a b} h := by
    cases a
    cases b
    exact congrArg TyVar.mk (@Std.LawfulEqCmp.eq_of_compare Nat compare _ _ _ h)

def maxId : Nat := 4294967295

def display (v : TyVar) : String := "?" ++ toString v.id

end TyVar

inductive Ty where
  | bool
  | int
  | float
  | str
  | var (v : TyVar)
  | fn (param result : Ty)
  | tuple (elems : List Ty)
  | named (name : Name) (args : List Ty)

namespace Ty

/-- Induction on types; the components of a tuple or of a nominal type are reached by membership. -/
@[induction_eliminator]
theorem ind {motive : Ty → Prop} (bool : motive .bool) (int : motive .int) (float : motive .float)
    (str : motive .str) (var : ∀ v, motive (.var v))
    (fn : ∀ param result, motive param → motive result → motive (.fn param result))
    (tuple : ∀ elems, (∀ t ∈ elems, motive t) → motive (.tuple elems))
    (named : ∀ name args, (∀ t ∈ args, motive t) → motive (.named name args)) (t : Ty) : motive t :=
  @Ty.rec motive (fun ts => ∀ t ∈ ts, motive t)
    bool int float str var fn tuple named nofun
    (fun _ _ ih ihs _ h => (List.mem_cons.1 h).elim (fun e => e ▸ ih) (ihs _)) t

mutual

def beq : Ty → Ty → Bool
  | .bool, .bool => true
  | .int, .int => true
  | .float, .float => true
  | .str, .str => true
  | .var v, .var w => v == w
  | .fn p r, .fn q s => beq p q && beq r s
  | .tuple ts, .tuple us => beqAll ts us
  | .named n ts, .named m us => n == m && beqAll ts us
  | _, _ => false

def beqAll : List Ty → List Ty → Bool
  | [], [] => true
  | t :: ts, u :: us => beq t u && beqAll ts us
  | _, _ => false

end

theorem beqAll_iff {ts : List Ty} (ih : ∀ t ∈ ts, ∀ u, beq t u = true ↔ t = u) (us : List Ty) :
    beqAll ts us = true ↔ ts = us := by
  induction ts generalizing us with
  | nil => cases us <;> simp [beqAll]
  | cons t ts ihs =>
    cases us with
    | nil => simp [beqAll]
    | cons u us =>
      have h := ihs (fun t ht => ih t (List.mem_cons_of_mem _ ht)) us
      simp [beqAll, ih t List.mem_cons_self u, h]

theorem beq_iff (t u : Ty) : beq t u = true ↔ t = u := by
  induction t generalizing u with
  | fn p r ihp ihr => cases u <;> simp [beq, ihp, ihr]
  | tuple ts ih => cases u <;> simp [beq, beqAll_iff ih]
  | named n ts ih => cases u <;> simp [beq, beqAll_iff ih]
  | _ => cases u <;> simp [beq]

instance : DecidableEq Ty := fun t u => decidable_of_iff _ (beq_iff t u)

def unit : Ty := .tuple []

/-- The function type that takes the parameters one after the other. -/
def curried (params : List Ty) (result : Ty) : Ty := params.foldr .fn result

def isPrimitive : Ty → Bool
  | .bool | .int | .float | .str => true
  | _ => false

def isVar : Ty → Bool
  | .var _ => true
  | _ => false

/-- The name under which members of a type are declared. Variables, functions and tuples have
none. -/
def nominalName? : Ty → Option Name
  | .bool => some .bool
  | .int => some .int
  | .float => some .float
  | .str => some .string
  | .named n _ => some n
  | _ => none

def baseText? : Ty → Option String
  | .bool => some "Bool"
  | .int => some "Int"
  | .float => some "Float"
  | .str => some "String"
  | _ => none

/-- The name under which members of a type are declared, with the name of a base type taken from a
table, where it is entered if it is missing. -/
def internNominal (names : NameTable) : Ty → Option Name × NameTable
  | .named n _ => (some n, names)
  | t =>
    match t.baseText? with
    | some s => ((names.intern s).1, (names.intern s).2)
    | none => (none, names)

end Ty

end TypeInference

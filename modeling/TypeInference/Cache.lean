import TypeInference.Json.Reader
import TypeInference.Scheme

/-! The stored form of names, variables, types and schemes: compact JSON, in which a type is tagged
by the name of its head. Reading is liberal about the order of fields and about further fields,
and it stops at a fixed depth of nesting. -/
namespace TypeInference
namespace Cache

/-- How many arrays and objects may stand inside each other. -/
def maxDepth : Nat := 127

def word? : Json → Option Nat
  | .natural n => if n ≤ 4294967295 then some n else none
  | _ => none

def object (fields : List (String × String)) : String :=
  "\x7b" ++ String.intercalate "," (fields.map fun f => "\"" ++ f.1 ++ "\":" ++ f.2) ++ "\x7d"

def array (items : List String) : String := "[" ++ String.intercalate "," items ++ "]"

end Cache

open Cache

def Name.store (n : Name) : String := toString n.id

def TyVar.store (v : TyVar) : String := toString v.id

namespace Ty

mutual

def store : Ty → String
  | .bool => "\"Bool\""
  | .int => "\"Int\""
  | .float => "\"Float\""
  | .str => "\"Str\""
  | .var v => object [("Var", v.store)]
  | .fn p r => object [("Function", object [("param", store p), ("ret", store r)])]
  | .tuple ts => object [("Tuple", array (storeAll ts))]
  | .named n ts => object [("Applied", object [("name", n.store), ("args", array (storeAll ts))])]

def storeAll : List Ty → List String
  | [] => []
  | t :: ts => store t :: storeAll ts

end

def base? : String → Option Ty
  | "Bool" => some .bool
  | "Int" => some .int
  | "Float" => some .float
  | "Str" => some .str
  | _ => none

def ofJson? : Nat → Json → Option Ty
  | _, .string (some tag) => base? tag
  | depth + 1, .object [(some tag, body)] =>
    match tag, depth, body with
    | "Var", _, body => (word? body).map fun n => .var ⟨n⟩
    | "Function", depth + 1, body => do
      let [p, r] ← body.fields? ["param", "ret"] | none
      return .fn (← ofJson? depth p) (← ofJson? depth r)
    | "Tuple", depth + 1, .array items => do
      return .tuple (← items.mapM (ofJson? depth))
    | "Applied", depth + 2, body => do
      let [n, .array args] ← body.fields? ["name", "args"] | none
      return .named ⟨← word? n⟩ (← args.mapM (ofJson? depth))
    | tag, _, .null => base? tag
    | _, _, _ => none
  | _, _ => none

end Ty

def Scheme.store (s : Scheme) : String :=
  object [("vars", array (s.vars.map TyVar.store)), ("ty", s.ty.store)]

def Scheme.ofJson? : Nat → Json → Option Scheme
  | depth + 2, body => do
    let [.array vars, t] ← body.fields? ["vars", "ty"] | none
    return ⟨← vars.mapM fun v => (word? v).map TyVar.mk, ← Ty.ofJson? (depth + 1) t⟩
  | _, _ => none

namespace Cache

def readName? (s : String) : Option Name := do return ⟨← word? (← Json.ofString? s)⟩

def readVar? (s : String) : Option TyVar := do return ⟨← word? (← Json.ofString? s)⟩

def readTy? (s : String) : Option Ty := do Ty.ofJson? maxDepth (← Json.ofString? s)

def readScheme? (s : String) : Option Scheme := do Scheme.ofJson? maxDepth (← Json.ofString? s)

end Cache
end TypeInference

import TypeInference.Ty.Basic

/-! The text of a type. A parameter stands in brackets, so does a tuple; a nominal type without
arguments is its bare name. -/
namespace TypeInference
namespace Ty

mutual

def display (names : NameTable) : Ty → String
  | .bool => "bool"
  | .int => "int"
  | .float => "float"
  | .str => "str"
  | .var v => v.display
  | .fn p r => "(" ++ display names p ++ ") -> " ++ display names r
  | .tuple ts => "(" ++ displayAll names ts ++ ")"
  | .named n [] => names.lookup n
  | .named n ts => names.lookup n ++ "<" ++ displayAll names ts ++ ">"

def displayAll (names : NameTable) : List Ty → String
  | [] => ""
  | [t] => display names t
  | t :: ts => display names t ++ ", " ++ displayAll names ts

end

end Ty
end TypeInference

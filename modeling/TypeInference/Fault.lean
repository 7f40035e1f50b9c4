/-! Faults: requests that have no answer, such as a reference to an expression that is not there.
They are not errors of the typed program, and a run that meets one is over. -/
namespace TypeInference

inductive Fault where
  | missingExpr (index count : Nat)
  | listStart (start count : Nat)
  | listEnd (stop count : Nat)
  /-- A number would pass the largest that fits into 32 bits. -/
  | overflow
  /-- An expression is nested more deeply than its table can be without a cycle. -/
  | tooDeep
deriving DecidableEq

def Fault.message : Fault → String
  | .missingExpr i n =>
    "index out of bounds: the len is " ++ toString n ++ " but the index is " ++ toString i
  | .listStart i n =>
    "range start index " ++ toString i ++ " out of range for slice of length " ++ toString n
  | .listEnd i n =>
    "range end index " ++ toString i ++ " out of range for slice of length " ++ toString n
  | .overflow => "attempt to add with overflow"
  | .tooDeep => "expression nested too deeply"

end TypeInference

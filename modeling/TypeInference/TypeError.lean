import TypeInference.Ty.Display
import TypeInference.Equation

/-! The errors that inference reports, and their one-line messages. -/
namespace TypeInference

inductive TypeError where
  /-- The constraints have no solution. -/
  | conflict (c : Conflict)
  /-- Member access on a function. -/
  | arrowMember (member : Name)
  | unknownMember (type member : Name)
  | unbound (x : Name)
  /-- Member access before the type of the receiver is known. -/
  | indeterminateReceiver (member : Name)
  /-- Member access on a tuple. -/
  | unsupportedReceiver (receiver : Ty) (member : Name)
deriving DecidableEq

namespace TypeError

def isUnification : TypeError → Bool
  | .conflict _ => true
  | _ => false

def message (names : NameTable) : TypeError → String
  | .conflict (.infinite v t) =>
    "cannot construct infinite type: " ++ v.display ++ " = " ++ t.display names
  | .conflict (.mismatch l r) =>
    "type mismatch: `" ++ l.display names ++ "` does not unify with `" ++ r.display names ++ "`"
  | .arrowMember m => "functions have no members (accessing `" ++ names.lookup m ++ "`)"
  | .unknownMember t m =>
    "type `" ++ names.lookup t ++ "` has no member `" ++ names.lookup m ++ "`"
  | .unbound x => "unknown identifier `" ++ names.lookup x ++ "`"
  | .indeterminateReceiver m =>
    "cannot access `" ++ names.lookup m ++ "`: receiver type is not known here"
  | .unsupportedReceiver t m =>
    "type `" ++ t.display names ++ "` does not support member access (accessing `" ++
      names.lookup m ++ "`)"

end TypeError
end TypeInference

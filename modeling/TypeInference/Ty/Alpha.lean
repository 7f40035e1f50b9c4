import TypeInference.Ty.Variables

/-! Equality of types up to a consistent renaming of their variables. Two types are walked side by
side, and the variables that meet are paired one to one. -/
namespace TypeInference

abbrev Pairing := List (TyVar × TyVar)

/-- Pairs two variables, unless one of them already has another partner. -/
def Pairing.pair? (ps : Pairing) (v w : TyVar) : Option Pairing :=
  if (v, w) ∈ ps then some ps
  else if ps.any fun p => p.1 == v || p.2 == w then none
  else some ((v, w) :: ps)

namespace Ty

mutual

/-- Extends a pairing until it turns the first type into the second, if it can be extended so. -/
def align? : Ty → Ty → Pairing → Option Pairing
  | .var v, .var w, ps => ps.pair? v w
  | .fn p r, .fn q s, ps => (align? p q ps).bind (align? r s)
  | .tuple ts, .tuple us, ps => alignAll? ts us ps
  | .named n ts, .named m us, ps => if n = m then alignAll? ts us ps else none
  | .bool, .bool, ps | .int, .int, ps | .float, .float, ps | .str, .str, ps => some ps
  | _, _, _ => none

def alignAll? : List Ty → List Ty → Pairing → Option Pairing
  | [], [], ps => some ps
  | t :: ts, u :: us, ps => (align? t u ps).bind (alignAll? ts us)
  | _, _, _ => none

end

def alphaEq (t u : Ty) : Bool := (align? t u []).isSome

end Ty
end TypeInference

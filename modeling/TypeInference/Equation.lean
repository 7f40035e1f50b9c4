import TypeInference.Substitution

/-! Equations between types, and the move that each of them calls for: bind a variable, go on with
the components, or give up. -/
namespace TypeInference

structure Equation where
  lhs : Ty
  rhs : Ty
deriving DecidableEq

/-- Why an equation has no solution: a variable would contain itself, or the heads differ. -/
inductive Conflict where
  | infinite (v : TyVar) (t : Ty)
  | mismatch (lhs rhs : Ty)
deriving DecidableEq

namespace Equation

def subst (θ : TyVar → Ty) (e : Equation) : Equation := ⟨e.lhs.subst θ, e.rhs.subst θ⟩

def replace (v : TyVar) (t : Ty) (e : Equation) : Equation := ⟨e.lhs.replace v t, e.rhs.replace v t⟩

def vars (e : Equation) : List TyVar := e.lhs.occurrences ++ e.rhs.occurrences

def size (e : Equation) : Nat := e.lhs.size + e.rhs.size

/-- The equations between the components of two types with the same head. -/
def split? : Ty → Ty → Option (List Equation)
  | .bool, .bool | .int, .int | .float, .float | .str, .str => some []
  | .fn p r, .fn q s => some [⟨p, q⟩, ⟨r, s⟩]
  | .tuple ts, .tuple us => if ts.length = us.length then some (List.zipWith mk ts us) else none
  | .named n ts, .named m us =>
    if n = m ∧ ts.length = us.length then some (List.zipWith mk ts us) else none
  | _, _ => none

theorem split?_cases {l r : Ty} {es : List Equation} (h : split? l r = some es) :
    (l.isPrimitive = true ∧ l = r ∧ es = []) ∨
    (∃ p t q u, l = .fn p t ∧ r = .fn q u ∧ es = [⟨p, q⟩, ⟨t, u⟩]) ∨
    (∃ ts us, l = .tuple ts ∧ r = .tuple us ∧ ts.length = us.length ∧ es = List.zipWith mk ts us) ∨
    (∃ n ts us, l = .named n ts ∧ r = .named n us ∧ ts.length = us.length ∧
      es = List.zipWith mk ts us) := by
  unfold split? at h
  split at h
  case h_5 => exact .inr (.inl ⟨_, _, _, _, rfl, rfl, (Option.some.inj h).symm⟩)
  case h_6 =>
    split at h
    next hl => exact .inr (.inr (.inl ⟨_, _, rfl, rfl, hl, (Option.some.inj h).symm⟩))
    next => cases h
  case h_7 =>
    split at h
    next hl =>
      obtain ⟨rfl, hl⟩ := hl
      exact .inr (.inr (.inr ⟨_, _, _, rfl, rfl, hl, (Option.some.inj h).symm⟩))
    next => cases h
  case h_8 => cases h
  all_goals exact .inl ⟨rfl, rfl, (Option.some.inj h).symm⟩

/-- What to do about one equation. -/
inductive Move where
  /-- Replace a variable by a type in which it does not occur. -/
  | bind (v : TyVar) (t : Ty)
  /-- Go on with these equations instead. -/
  | split (es : List Equation)
  | fail (c : Conflict)
deriving DecidableEq

/-- Equal sides leave nothing to do. A variable is bound to the other side, the one on the left
first, unless it occurs there. Other sides are split, and fail if their heads differ. -/
def move (e : Equation) : Move :=
  if e.lhs = e.rhs then .split []
  else
    match e.lhs, e.rhs with
    | .var v, t => if t.contains v then .fail (.infinite v t) else .bind v t
    | t, .var v => if t.contains v then .fail (.infinite v t) else .bind v t
    | l, r =>
      match split? l r with
      | some es => .split es
      | none => .fail (.mismatch l r)

theorem move_bind {e : Equation} {v : TyVar} {t : Ty} (h : e.move = .bind v t) :
    (e = ⟨.var v, t⟩ ∨ e = ⟨t, .var v⟩) ∧ v ∉ t.occurrences := by
  obtain ⟨l, r⟩ := e
  unfold move at h
  split at h
  · cases h
  · split at h
    · split at h <;> simp_all [Ty.contains_iff]
    · split at h <;> simp_all [Ty.contains_iff]
    · split at h <;> simp_all

theorem move_split {e : Equation} {es : List Equation} (h : e.move = .split es) :
    (e.lhs = e.rhs ∧ es = []) ∨ split? e.lhs e.rhs = some es := by
  obtain ⟨l, r⟩ := e
  unfold move at h
  split at h
  · exact .inl ⟨‹_›, (Move.split.inj h).symm⟩
  · split at h
    · split at h <;> simp_all
    · split at h <;> simp_all
    · split at h <;> simp_all

theorem move_fail {e : Equation} {c : Conflict} (h : e.move = .fail c) :
    (∃ v t, (e = ⟨.var v, t⟩ ∨ e = ⟨t, .var v⟩) ∧ t ≠ .var v ∧ v ∈ t.occurrences ∧
      c = .infinite v t) ∨
    (e.lhs.isVar = false ∧ e.rhs.isVar = false ∧ split? e.lhs e.rhs = none ∧
      c = .mismatch e.lhs e.rhs) := by
  obtain ⟨l, r⟩ := e
  unfold move at h
  split at h
  · cases h
  · next hne =>
    split at h
    · next v hl =>
      split at h
      · next hc =>
        subst hl
        exact .inl ⟨v, r, .inl rfl, fun e => hne e.symm, Ty.contains_iff.1 hc,
          (Move.fail.inj h).symm⟩
      · cases h
    · next v hr _ =>
      split at h
      · next hc =>
        subst hr
        exact .inl ⟨v, l, .inr rfl, hne, Ty.contains_iff.1 hc, (Move.fail.inj h).symm⟩
      · cases h
    · next hl hr =>
      split at h
      · cases h
      · next hs =>
        refine .inr ⟨?_, ?_, hs, (Move.fail.inj h).symm⟩
        · cases l <;> simp_all [Ty.isVar]
        · cases r <;> simp_all [Ty.isVar]

end Equation
end TypeInference

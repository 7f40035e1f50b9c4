import TypeInference.Proofs.Unification.History

/-! What a conflict says about the two types that were to be unified. Elimination compares subterms
that stand at one position of both types, and a binding changes all positions at once. So the
subterms that it stops at stand at one position of the two types under the substitution that it
leaves. -/
namespace TypeInference

namespace Ty

def components : Ty → List Ty
  | .fn p r => [p, r]
  | .tuple ts | .named _ ts => ts
  | .bool | .int | .float | .str | .var _ => []

/-- The subterm at a position. A position tells, level by level, which component to go to. -/
def subterm? (t : Ty) : List Nat → Option Ty
  | [] => some t
  | i :: p => t.components[i]?.bind fun u => u.subterm? p

inductive Head where
  | bool
  | int
  | float
  | str
  | var (v : TyVar)
  | fn
  | tuple (count : Nat)
  | named (name : Name) (count : Nat)
deriving DecidableEq

def head : Ty → Head
  | .bool => .bool
  | .int => .int
  | .float => .float
  | .str => .str
  | .var v => .var v
  | .fn _ _ => .fn
  | .tuple ts => .tuple ts.length
  | .named n ts => .named n ts.length

variable {t u : Ty} {p : List Nat}

theorem subterm?_append (t : Ty) (p q : List Nat) :
    t.subterm? (p ++ q) = (t.subterm? p).bind fun u => u.subterm? q := by
  induction p generalizing t with
  | nil => rfl
  | cons i p ih =>
    rw [List.cons_append, subterm?, subterm?]
    cases t.components[i]? with
    | none => rfl
    | some u => exact ih u

theorem components_subst {i : Nat} (θ : TyVar → Ty) (h : t.components[i]? = some u) :
    (t.subst θ).components[i]? = some (u.subst θ) := by
  cases t with
  | fn q r =>
    have hmap : (subst θ (.fn q r)).components = (components (.fn q r)).map (subst θ) := rfl
    rw [hmap, List.getElem?_map, h, Option.map_some]
  | tuple ts =>
    rw [subst, substAll_eq, components, List.getElem?_map, show ts[i]? = some u from h,
      Option.map_some]
  | named n ts =>
    rw [subst, substAll_eq, components, List.getElem?_map, show ts[i]? = some u from h,
      Option.map_some]
  | _ => simp [components] at h

theorem subterm?_subst (θ : TyVar → Ty) (h : t.subterm? p = some u) :
    (t.subst θ).subterm? p = some (u.subst θ) := by
  induction p generalizing t with
  | nil => exact congrArg (Option.map (subst θ)) h
  | cons i p ih =>
    obtain ⟨s, hs, hu⟩ := Option.bind_eq_some_iff.1 h
    exact Option.bind_eq_some_iff.2 ⟨s.subst θ, components_subst θ hs, ih hu⟩

end Ty

namespace Equation

variable {a b : Ty} {e d : Equation} {es : List Equation} {c : Conflict}

/-- Both sides of the equation stand at one position of the two types. -/
def StandsIn (a b : Ty) (e : Equation) : Prop :=
  ∃ p, a.subterm? p = some e.lhs ∧ b.subterm? p = some e.rhs

theorem StandsIn.subst (h : e.StandsIn a b) (θ : TyVar → Ty) :
    (e.subst θ).StandsIn (a.subst θ) (b.subst θ) := by
  obtain ⟨p, ha, hb⟩ := h
  exact ⟨p, Ty.subterm?_subst θ ha, Ty.subterm?_subst θ hb⟩

theorem components_of_split {l r : Ty} (h : split? l r = some es) (hd : d ∈ es) :
    ∃ i : Nat, l.components[i]? = some d.lhs ∧ r.components[i]? = some d.rhs := by
  have hzip : ∃ ts us, l.components = ts ∧ r.components = us ∧ es = List.zipWith mk ts us := by
    obtain ⟨hp, rfl, rfl⟩ | ⟨p, t, q, u, rfl, rfl, rfl⟩ | ⟨ts, us, rfl, rfl, -, rfl⟩ |
      ⟨n, ts, us, rfl, rfl, -, rfl⟩ := split?_cases h
    · cases hd
    · exact ⟨[p, t], [q, u], rfl, rfl, rfl⟩
    · exact ⟨ts, us, rfl, rfl, rfl⟩
    · exact ⟨ts, us, rfl, rfl, rfl⟩
  obtain ⟨ts, us, rfl, rfl, rfl⟩ := hzip
  obtain ⟨i, hi⟩ := List.mem_iff_getElem?.1 hd
  obtain ⟨t, u, ht, hu, rfl⟩ := List.getElem?_zipWith_eq_some.1 hi
  exact ⟨i, ht, hu⟩

theorem StandsIn.split (h : e.StandsIn a b) (he : e.move = .split es) (hd : d ∈ es) :
    d.StandsIn a b := by
  obtain ⟨-, rfl⟩ | hs := move_split he
  · cases hd
  · obtain ⟨p, ha, hb⟩ := h
    obtain ⟨i, hl, hr⟩ := components_of_split hs hd
    refine ⟨p ++ [i], ?_, ?_⟩
    · rw [Ty.subterm?_append, ha, Option.bind_some, Ty.subterm?, hl]
      rfl
    · rw [Ty.subterm?_append, hb, Option.bind_some, Ty.subterm?, hr]
      rfl

theorem head_ne_of_split {l r : Ty} (hl : l.isVar = false) (h : split? l r = none) :
    l.head ≠ r.head := by
  intro he
  cases l <;> cases r <;> simp_all [Ty.head, Ty.isVar, split?]

end Equation

namespace Conflict

def types : Conflict → List Ty
  | .infinite v t => [.var v, t]
  | .mismatch l r => [l, r]

/-- The two types show the conflict at one position. There they have different heads, neither of
them a variable, or one has a variable where the other has a larger type that contains it. -/
def ShownBy (a b : Ty) : Conflict → Prop
  | .mismatch l r =>
    l.isVar = false ∧ r.isVar = false ∧ l.head ≠ r.head ∧
      ∃ p, a.subterm? p = some l ∧ b.subterm? p = some r
  | .infinite v t =>
    t ≠ .var v ∧ t.contains v = true ∧
      ∃ p, a.subterm? p = some (.var v) ∧ b.subterm? p = some t ∨
        a.subterm? p = some t ∧ b.subterm? p = some (.var v)

end Conflict

namespace Equation

variable {a b : Ty} {e : Equation} {c : Conflict}

theorem StandsIn.shownBy (h : e.StandsIn a b) (he : e.move = .fail c) : c.ShownBy a b := by
  obtain ⟨p, ha, hb⟩ := h
  obtain ⟨v, t, rfl | rfl, hne, hv, rfl⟩ | ⟨hl, hr, hs, rfl⟩ := move_fail he
  · exact ⟨hne, Ty.contains_iff.2 hv, p, .inl ⟨ha, hb⟩⟩
  · exact ⟨hne, Ty.contains_iff.2 hv, p, .inr ⟨ha, hb⟩⟩
  · exact ⟨hl, hr, head_ne_of_split hl hs, p, ha, hb⟩

theorem types_of_fail (he : e.move = .fail c) {t : Ty} (ht : t ∈ c.types) :
    t = e.lhs ∨ t = e.rhs := by
  obtain ⟨v, u, rfl | rfl, -, -, rfl⟩ | ⟨-, -, -, rfl⟩ := move_fail he
  · simpa [Conflict.types] using ht
  · simpa [Conflict.types, or_comm] using ht
  · simpa [Conflict.types] using ht

end Equation

namespace Unification

variable {S T : Substitution} {a b : Ty} {es : List Equation} {c : Conflict}

/-- As long as all equations stand in the two types under the current substitution, so does the one
that elimination stops at. -/
theorem exists_standsIn_of_conflict (hu : Under S es)
    (hes : ∀ e ∈ es, e.StandsIn (S.apply a) (S.apply b)) (h : eliminate S es = ⟨T, some c⟩) :
    ∃ e : Equation, e.move = .fail c ∧ e.StandsIn (T.apply a) (T.apply b) ∧ Under T [e] := by
  induction S, es using eliminate_induction with
  | nil S => simp at h
  | bind S e es v t he ih =>
    rw [eliminate_bind he] at h
    refine ih (hu.bind he) (fun d hd => ?_) h
    obtain ⟨d, hmem, rfl⟩ := List.mem_map.1 hd
    have hv : v ∉ S := (forall_vars_bind he hu).1
    rw [Substitution.apply_bind hv, Substitution.apply_bind hv]
    exact (hes d (List.mem_cons_of_mem _ hmem)).subst _
  | split S e es ds he ih =>
    rw [eliminate_split he] at h
    refine ih (hu.split he) (fun d hd => ?_) h
    rcases List.mem_append.1 hd with hd | hd
    · exact (hes e List.mem_cons_self).split he hd
    · exact hes d (List.mem_cons_of_mem _ hd)
  | fail S e es d he =>
    rw [eliminate_fail he] at h
    obtain ⟨rfl, hc⟩ := Outcome.mk.inj h
    obtain rfl := Option.some.inj hc
    refine ⟨e, he, hes e List.mem_cons_self, fun v hv => hu v ?_⟩
    simpa using List.mem_append_left _ hv

/-- Whatever a unifier was asked for before: if it cannot unify two types, then these show the
reported conflict at one position, under the substitution that is left, which does not change the
types it reports. -/
theorem unify_conflict_shown (calls : List Call) (h : (after ∅ calls).unify a b = ⟨S, some c⟩) :
    c.ShownBy (S.apply a) (S.apply b) ∧ ∀ t ∈ c.types, S.apply t = t := by
  have hi := after_idempotent Substitution.idempotent_empty calls
  have hroot : ∀ e ∈ [(⟨(after ∅ calls).apply a, (after ∅ calls).apply b⟩ : Equation)],
      e.StandsIn ((after ∅ calls).apply a) ((after ∅ calls).apply b) := by
    intro e he
    obtain rfl := List.mem_singleton.1 he
    exact ⟨[], rfl, rfl⟩
  obtain ⟨e, he, hstands, hunder⟩ :=
    exists_standsIn_of_conflict (Substitution.under_apply hi a b) hroot h
  refine ⟨hstands.shownBy he, fun t ht => Substitution.apply_eq_self fun v hv => hunder v ?_⟩
  rcases Equation.types_of_fail he ht with rfl | rfl
  · simp [Equation.vars, hv]
  · simp [Equation.vars, hv]

def functionCall : Call := .unify (.var ⟨0⟩) (.fn (.var ⟨1⟩) .int)

def pairLeft : Ty := .tuple [.var ⟨1⟩, .var ⟨0⟩]

def pairRight : Ty := .tuple [.bool, .fn .str (.var ⟨2⟩)]

/-- The types differ at a position that one of them has only under the substitution. -/
theorem unify_conflict_shown_below_variable :
    ∃ S, (after ∅ [functionCall]).unify pairLeft pairRight = ⟨S, some (.mismatch .bool .str)⟩ ∧
      pairLeft.subterm? [1, 0] = none ∧ (S.apply pairLeft).subterm? [1, 0] = some .bool ∧
      pairRight.subterm? [1, 0] = some .str ∧
      (Conflict.mismatch .bool .str).ShownBy (S.apply pairLeft) (S.apply pairRight) ∧
      ∀ t ∈ (Conflict.mismatch .bool .str).types, S.apply t = t := by
  have hc : ((after ∅ [functionCall]).unify pairLeft pairRight).conflict =
      some (.mismatch .bool .str) := by cbv
  have hp : (((after ∅ [functionCall]).unify pairLeft pairRight).solution.apply pairLeft).subterm?
      [1, 0] = some .bool := by cbv
  rcases hu : (after ∅ [functionCall]).unify pairLeft pairRight with ⟨S, o⟩
  rw [hu] at hc hp
  obtain rfl : o = some (.mismatch .bool .str) := hc
  exact ⟨S, rfl, rfl, hp, rfl, unify_conflict_shown [functionCall] hu⟩

end Unification
end TypeInference

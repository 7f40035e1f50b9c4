import TypeInference.Unification.Elimination

/-! Solutions of equations. A map from variables to types solves an equation if it makes both sides
equal. Each move of elimination keeps the solutions: binding and splitting lose none and add none,
and a conflict has none. -/
namespace TypeInference

def Equation.Holds (θ : TyVar → Ty) (e : Equation) : Prop := e.lhs.subst θ = e.rhs.subst θ

/-- The map makes both sides of every equation equal. -/
def Solves (θ : TyVar → Ty) (es : List Equation) : Prop := ∀ e ∈ es, e.Holds θ

@[simp] theorem solves_nil (θ : TyVar → Ty) : Solves θ [] := nofun

@[simp] theorem solves_cons {θ : TyVar → Ty} {e : Equation} {es : List Equation} :
    Solves θ (e :: es) ↔ e.Holds θ ∧ Solves θ es := List.forall_mem_cons

@[simp] theorem solves_append {θ : TyVar → Ty} {es ds : List Equation} :
    Solves θ (es ++ ds) ↔ Solves θ es ∧ Solves θ ds := List.forall_mem_append

theorem Solves.congr {θ η : TyVar → Ty} {es : List Equation} (h : Solves θ es)
    (he : ∀ v ∈ Unification.vars es, η v = θ v) : Solves η es := by
  intro e hmem
  have hvars : ∀ v ∈ e.vars, η v = θ v := fun v hv => he v (List.mem_flatMap.2 ⟨e, hmem, hv⟩)
  have hl : e.lhs.subst η = e.lhs.subst θ :=
    Ty.subst_congr fun v hv => hvars v (List.mem_append_left _ hv)
  have hr : e.rhs.subst η = e.rhs.subst θ :=
    Ty.subst_congr fun v hv => hvars v (List.mem_append_right _ hv)
  rw [Equation.Holds, hl, hr]
  exact h e hmem

namespace Ty

theorem size_le_sizeAll {t : Ty} {ts : List Ty} (h : t ∈ ts) : t.size ≤ sizeAll ts := by
  induction ts with
  | nil => cases h
  | cons u us ih =>
    simp only [sizeAll]
    rcases List.mem_cons.1 h with rfl | h
    · omega
    · have := ih h
      omega

theorem size_le_sizeAll_subst {v : TyVar} {ts : List Ty} {θ : TyVar → Ty}
    (ih : ∀ t ∈ ts, v ∈ t.occurrences → (θ v).size ≤ (t.subst θ).size)
    (hv : v ∈ ts.flatMap occurrences) : (θ v).size ≤ sizeAll (substAll θ ts) := by
  obtain ⟨t, ht, hv⟩ := List.mem_flatMap.1 hv
  have hle : (t.subst θ).size ≤ sizeAll (substAll θ ts) :=
    size_le_sizeAll (by simpa using ⟨t, ht, rfl⟩)
  exact Nat.le_trans (ih t ht hv) hle

theorem size_le_size_subst {v : TyVar} {t : Ty} (θ : TyVar → Ty) (hv : v ∈ t.occurrences) :
    (θ v).size ≤ (t.subst θ).size := by
  induction t with
  | var w =>
    obtain rfl : v = w := by simpa using hv
    exact Nat.le_refl _
  | fn p r ihp ihr =>
    simp only [subst, size]
    rw [occurrences_fn, List.mem_append] at hv
    rcases hv with hv | hv
    · have := ihp hv
      omega
    · have := ihr hv
      omega
  | tuple ts ih => exact Nat.le_succ_of_le (size_le_sizeAll_subst ih (by simpa using hv))
  | named n ts ih => exact Nat.le_succ_of_le (size_le_sizeAll_subst ih (by simpa using hv))
  | _ => simp at hv

/-- A variable that occurs strictly inside a type cannot stand for it. -/
theorem subst_ne_of_mem {v : TyVar} {t : Ty} (θ : TyVar → Ty) (hne : t ≠ .var v)
    (hv : v ∈ t.occurrences) : t.subst θ ≠ θ v := by
  intro h
  have hlt : (θ v).size < (t.subst θ).size := by
    cases t with
    | var w =>
      obtain rfl : v = w := by simpa using hv
      exact absurd rfl hne
    | fn p r =>
      simp only [subst, size]
      rw [occurrences_fn, List.mem_append] at hv
      rcases hv with hv | hv
      · have := size_le_size_subst θ hv
        omega
      · have := size_le_size_subst θ hv
        omega
    | tuple ts =>
      exact Nat.lt_succ_of_le (size_le_sizeAll_subst (fun _ _ => size_le_size_subst θ)
        (by simpa using hv))
    | named n ts =>
      exact Nat.lt_succ_of_le (size_le_sizeAll_subst (fun _ _ => size_le_size_subst θ)
        (by simpa using hv))
    | _ => simp at hv
  rw [h] at hlt
  exact Nat.lt_irrefl _ hlt

theorem subst_replace {θ : TyVar → Ty} {v : TyVar} {s : Ty} (h : θ v = s.subst θ) (t : Ty) :
    (t.replace v s).subst θ = t.subst θ := by
  rw [replace, subst_subst]
  apply subst_congr
  intro w _
  split
  · next hw => rw [hw, h]
  · rfl

end Ty

namespace Equation

theorem solves_zipWith {θ : TyVar → Ty} {ts us : List Ty} (h : ts.length = us.length) :
    Solves θ (List.zipWith mk ts us) ↔ ts.map (Ty.subst θ) = us.map (Ty.subst θ) := by
  induction ts generalizing us with
  | nil => simp_all [eq_comm]
  | cons t ts ih =>
    cases us with
    | nil => simp at h
    | cons u us => simp [Holds, ih (Nat.succ.inj h)]

theorem solves_split {θ : TyVar → Ty} {l r : Ty} {es : List Equation} (h : split? l r = some es) :
    Solves θ es ↔ l.subst θ = r.subst θ := by
  obtain ⟨-, rfl, rfl⟩ | ⟨p, t, q, u, rfl, rfl, rfl⟩ | ⟨ts, us, rfl, rfl, hl, rfl⟩ |
    ⟨n, ts, us, rfl, rfl, hl, rfl⟩ := split?_cases h
  · simp
  · simp [Holds, Ty.subst]
  · simp [solves_zipWith hl, Ty.subst]
  · simp [solves_zipWith hl, Ty.subst]

theorem split_ne_none {θ : TyVar → Ty} {l r : Ty} (hl : l.isVar = false) (hr : r.isVar = false)
    (he : l.subst θ = r.subst θ) : split? l r ≠ none := by
  cases l <;> cases r <;> simp only [Ty.subst, Ty.isVar, reduceCtorEq] at he hl hr
  case tuple ts us =>
    have hlen : ts.length = us.length := by simpa using congrArg List.length (Ty.tuple.inj he)
    simp [split?, hlen]
  case named n ts m us =>
    obtain ⟨hn, hargs⟩ := Ty.named.inj he
    have hlen : ts.length = us.length := by simpa using congrArg List.length hargs
    simp [split?, hn, hlen]
  all_goals simp [split?]

theorem holds_move_split {θ : TyVar → Ty} {e : Equation} {es : List Equation}
    (h : e.move = .split es) : e.Holds θ ↔ Solves θ es := by
  obtain ⟨he, rfl⟩ | hs := move_split h
  · simp [Holds, he]
  · exact (solves_split hs).symm

theorem holds_move_bind {θ : TyVar → Ty} {e : Equation} {v : TyVar} {t : Ty}
    (h : e.move = .bind v t) : e.Holds θ ↔ θ v = t.subst θ := by
  obtain ⟨rfl | rfl, -⟩ := move_bind h
  · exact Iff.rfl
  · exact eq_comm

theorem not_holds_move_fail {e : Equation} {c : Conflict} (θ : TyVar → Ty) (h : e.move = .fail c) :
    ¬e.Holds θ := by
  obtain ⟨v, t, rfl | rfl, hne, hv, -⟩ | ⟨hl, hr, hs, -⟩ := move_fail h
  · exact fun he => Ty.subst_ne_of_mem θ hne hv he.symm
  · exact Ty.subst_ne_of_mem θ hne hv
  · exact fun he => split_ne_none hl hr he hs

end Equation

theorem solves_replace {θ : TyVar → Ty} {v : TyVar} {t : Ty} (h : θ v = t.subst θ)
    (es : List Equation) : Solves θ (Unification.replace v t es) ↔ Solves θ es := by
  simp [Solves, Unification.replace, Equation.Holds, Equation.replace, Ty.subst_replace h]

end TypeInference

import TypeInference.Ty.Basic

/-! The variables of a type and simultaneous substitution for them. `occurrences` lists every
occurrence from left to right, `freeVars` each variable once at its first occurrence, and
`contains` tests for one variable; the three see the same variables. -/
namespace TypeInference
namespace Ty

mutual

/-- Puts the variable occurrences of a type, from left to right, in front of a list. -/
def occurrencesThen : Ty → List TyVar → List TyVar
  | .var v, vs => v :: vs
  | .fn p r, vs => occurrencesThen p (occurrencesThen r vs)
  | .tuple ts, vs => occurrencesAllThen ts vs
  | .named _ ts, vs => occurrencesAllThen ts vs
  | .bool, vs | .int, vs | .float, vs | .str, vs => vs

def occurrencesAllThen : List Ty → List TyVar → List TyVar
  | [], vs => vs
  | t :: ts, vs => occurrencesThen t (occurrencesAllThen ts vs)

end

def occurrences (t : Ty) : List TyVar := t.occurrencesThen []

mutual

def contains (v : TyVar) : Ty → Bool
  | .var w => w == v
  | .fn p r => contains v p || contains v r
  | .tuple ts => containsAny v ts
  | .named _ ts => containsAny v ts
  | .bool | .int | .float | .str => false

def containsAny (v : TyVar) : List Ty → Bool
  | [] => false
  | t :: ts => contains v t || containsAny v ts

end

mutual

/-- Extends a list of variables, the latest first, by those of a type that it does not hold yet. -/
def collect : Ty → List TyVar → List TyVar
  | .var v, seen => if v ∈ seen then seen else v :: seen
  | .fn p r, seen => collect r (collect p seen)
  | .tuple ts, seen => collectAll ts seen
  | .named _ ts, seen => collectAll ts seen
  | .bool, seen | .int, seen | .float, seen | .str, seen => seen

def collectAll : List Ty → List TyVar → List TyVar
  | [], seen => seen
  | t :: ts, seen => collectAll ts (collect t seen)

end

/-- The variables of a type, each once, in the order of their first occurrences. -/
def freeVars (t : Ty) : List TyVar := (t.collect []).reverse

mutual

def subst (θ : TyVar → Ty) : Ty → Ty
  | .var v => θ v
  | .fn p r => .fn (subst θ p) (subst θ r)
  | .tuple ts => .tuple (substAll θ ts)
  | .named n ts => .named n (substAll θ ts)
  | .bool => .bool
  | .int => .int
  | .float => .float
  | .str => .str

def substAll (θ : TyVar → Ty) : List Ty → List Ty
  | [] => []
  | t :: ts => subst θ t :: substAll θ ts

end

def replace (t : Ty) (v : TyVar) (image : Ty) : Ty :=
  t.subst fun w => if w = v then image else .var w

/-- Moves every variable up by `k`, unless one of them would pass the largest variable. -/
def shift? (k : Nat) (t : Ty) : Option Ty :=
  if t.freeVars.all (fun v => v.id + k ≤ TyVar.maxId) then some (t.subst fun v => .var ⟨v.id + k⟩)
  else none

mutual

/-- Replaces every outermost function by the empty tuple. -/
def eraseFunctions : Ty → Ty
  | .fn _ _ => unit
  | .tuple ts => .tuple (eraseFunctionsAll ts)
  | .named n ts => .named n (eraseFunctionsAll ts)
  | t => t

def eraseFunctionsAll : List Ty → List Ty
  | [] => []
  | t :: ts => eraseFunctions t :: eraseFunctionsAll ts

end

def occurrencesOutsideFunctions (t : Ty) : List TyVar := t.eraseFunctions.occurrences

mutual

def size : Ty → Nat
  | .fn p r => size p + size r + 1
  | .tuple ts => sizeAll ts + 1
  | .named _ ts => sizeAll ts + 1
  | .bool | .int | .float | .str | .var _ => 1

def sizeAll : List Ty → Nat
  | [] => 0
  | t :: ts => size t + sizeAll ts

end

theorem occurrencesAllThen_eq {ts : List Ty}
    (ih : ∀ t ∈ ts, ∀ vs, t.occurrencesThen vs = t.occurrences ++ vs) (vs : List TyVar) :
    occurrencesAllThen ts vs = ts.flatMap occurrences ++ vs := by
  induction ts with
  | nil => rfl
  | cons t ts ihs =>
    rw [occurrencesAllThen, ih t List.mem_cons_self,
      ihs fun t ht => ih t (List.mem_cons_of_mem _ ht), List.flatMap_cons, List.append_assoc]

theorem occurrencesThen_eq (t : Ty) (vs : List TyVar) :
    t.occurrencesThen vs = t.occurrences ++ vs := by
  induction t generalizing vs with
  | fn p r ihp ihr =>
    change p.occurrencesThen (r.occurrencesThen vs) = p.occurrencesThen (r.occurrencesThen []) ++ vs
    rw [ihp (r.occurrencesThen vs), ihp (r.occurrencesThen []), ihr vs, List.append_assoc]
    rfl
  | tuple ts ih =>
    simp only [occurrences, occurrencesThen, occurrencesAllThen_eq ih, List.append_nil]
  | named n ts ih =>
    simp only [occurrences, occurrencesThen, occurrencesAllThen_eq ih, List.append_nil]
  | _ => rfl

@[simp] theorem occurrences_bool : bool.occurrences = [] := rfl
@[simp] theorem occurrences_int : int.occurrences = [] := rfl
@[simp] theorem occurrences_float : float.occurrences = [] := rfl
@[simp] theorem occurrences_str : str.occurrences = [] := rfl
@[simp] theorem occurrences_var (v : TyVar) : (var v).occurrences = [v] := rfl

@[simp] theorem occurrences_fn (p r : Ty) : (fn p r).occurrences = p.occurrences ++ r.occurrences :=
  occurrencesThen_eq p r.occurrences

@[simp] theorem occurrences_tuple (ts : List Ty) :
    (tuple ts).occurrences = ts.flatMap occurrences := by
  rw [occurrences, occurrencesThen, occurrencesAllThen_eq fun t _ => occurrencesThen_eq t,
    List.append_nil]

@[simp] theorem occurrences_named (n : Name) (ts : List Ty) :
    (named n ts).occurrences = ts.flatMap occurrences := by
  rw [occurrences, occurrencesThen, occurrencesAllThen_eq fun t _ => occurrencesThen_eq t,
    List.append_nil]

@[simp] theorem containsAny_eq (v : TyVar) (ts : List Ty) :
    containsAny v ts = ts.any (contains v) := by
  induction ts with
  | nil => rfl
  | cons t ts ih => simp [containsAny, ih]

@[simp] theorem collectAll_eq (ts : List Ty) (seen : List TyVar) :
    collectAll ts seen = ts.foldl (fun seen t => collect t seen) seen := by
  induction ts generalizing seen with
  | nil => rfl
  | cons t ts ih => simp [collectAll, ih]

@[simp] theorem substAll_eq (θ : TyVar → Ty) (ts : List Ty) : substAll θ ts = ts.map (subst θ) := by
  induction ts with
  | nil => rfl
  | cons t ts ih => simp [substAll, ih]

theorem size_pos (t : Ty) : 0 < t.size := by
  cases t <;> simp [size]

theorem contains_iff {v : TyVar} {t : Ty} : t.contains v = true ↔ v ∈ t.occurrences := by
  induction t with
  | var w =>
    simp only [contains, occurrences_var, beq_iff_eq, List.mem_singleton]
    exact eq_comm
  | fn p r ihp ihr => simp [contains, ihp, ihr]
  | tuple ts ih => simpa [contains] using exists_congr fun t => and_congr_right (ih t)
  | named n ts ih => simpa [contains] using exists_congr fun t => and_congr_right (ih t)
  | _ => simp [contains]

theorem mem_collect {v : TyVar} {t : Ty} {seen : List TyVar} :
    v ∈ t.collect seen ↔ v ∈ seen ∨ v ∈ t.occurrences := by
  induction t generalizing seen with
  | var w =>
    simp only [collect, occurrences_var, List.mem_singleton]
    split <;> grind
  | fn p r ihp ihr => simp [collect, ihp, ihr, or_assoc]
  | tuple ts ih =>
    simp only [collect, occurrences_tuple, collectAll_eq, List.mem_flatMap]
    induction ts generalizing seen with
    | nil => simp
    | cons t ts ihs =>
      simp [ihs fun t ht => ih t (List.mem_cons_of_mem _ ht), ih t List.mem_cons_self, or_assoc]
  | named n ts ih =>
    simp only [collect, occurrences_named, collectAll_eq, List.mem_flatMap]
    induction ts generalizing seen with
    | nil => simp
    | cons t ts ihs =>
      simp [ihs fun t ht => ih t (List.mem_cons_of_mem _ ht), ih t List.mem_cons_self, or_assoc]
  | _ => simp [collect]

@[simp] theorem mem_freeVars {v : TyVar} {t : Ty} : v ∈ t.freeVars ↔ v ∈ t.occurrences := by
  simp [freeVars, mem_collect]

theorem subst_congr {θ η : TyVar → Ty} {t : Ty} (h : ∀ v ∈ t.occurrences, θ v = η v) :
    t.subst θ = t.subst η := by
  induction t with
  | var v => exact h v (by simp)
  | fn p r ihp ihr =>
    simp only [occurrences_fn, List.mem_append] at h
    simp [subst, ihp fun v hv => h v (.inl hv), ihr fun v hv => h v (.inr hv)]
  | tuple ts ih =>
    simp only [occurrences_tuple, List.mem_flatMap] at h
    simpa [subst] using fun t ht => ih t ht fun v hv => h v ⟨t, ht, hv⟩
  | named n ts ih =>
    simp only [occurrences_named, List.mem_flatMap] at h
    simpa [subst] using fun t ht => ih t ht fun v hv => h v ⟨t, ht, hv⟩
  | _ => rfl

@[simp] theorem subst_var (t : Ty) : t.subst .var = t := by
  induction t with
  | fn p r ihp ihr => simp [subst, ihp, ihr]
  | tuple ts ih => simpa [subst] using (List.map_congr_left ih).trans (List.map_id ts)
  | named n ts ih => simpa [subst] using (List.map_congr_left ih).trans (List.map_id ts)
  | _ => rfl

theorem subst_subst (θ η : TyVar → Ty) (t : Ty) :
    (t.subst θ).subst η = t.subst fun v => (θ v).subst η := by
  induction t with
  | fn p r ihp ihr => simp [subst, ihp, ihr]
  | tuple ts ih => simpa [subst] using ih
  | named n ts ih => simpa [subst] using ih
  | _ => rfl

theorem mem_occurrences_subst {v : TyVar} {θ : TyVar → Ty} {t : Ty} :
    v ∈ (t.subst θ).occurrences ↔ ∃ w ∈ t.occurrences, v ∈ (θ w).occurrences := by
  induction t with
  | var w => simp [subst]
  | fn p r ihp ihr => simp [subst, ihp, ihr, or_and_right, exists_or]
  | tuple ts ih => grind [subst, occurrences_tuple, occurrences_named, substAll_eq]
  | named n ts ih => grind [subst, occurrences_tuple, occurrences_named, substAll_eq]
  | _ => simp [subst]

theorem replace_of_not_mem {v : TyVar} {s t : Ty} (h : v ∉ t.occurrences) : t.replace v s = t := by
  have hc : ∀ w ∈ t.occurrences, (if w = v then s else .var w) = Ty.var w := by
    intro w hw
    rw [if_neg]
    rintro rfl
    exact h hw
  rw [replace, subst_congr hc, subst_var]

theorem mem_occurrences_replace {v w : TyVar} {s t : Ty} (hv : v ∉ s.occurrences)
    (h : w ∈ (t.replace v s).occurrences) :
    w ≠ v ∧ (w ∈ t.occurrences ∨ w ∈ s.occurrences) := by
  obtain ⟨u, hu, hw⟩ := mem_occurrences_subst.1 h
  by_cases huv : u = v
  · rw [if_pos huv] at hw
    exact ⟨fun e => hv (e ▸ hw), .inr hw⟩
  · rw [if_neg huv] at hw
    simp only [occurrences_var, List.mem_singleton] at hw
    subst hw
    exact ⟨huv, .inl hu⟩

end Ty
end TypeInference

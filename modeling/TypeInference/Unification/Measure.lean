import TypeInference.Equation

/-! Why elimination ends. Binding a variable leaves fewer variables in the other equations, and
splitting an equation brings in no variable and makes the equations smaller. -/
namespace TypeInference
namespace Unification

def vars (es : List Equation) : List TyVar := es.flatMap Equation.vars

/-- How many variables there are to eliminate. -/
def rank (es : List Equation) : Nat := (vars es).eraseDups.length

def size : List Equation → Nat
  | [] => 0
  | e :: es => e.size + size es

def replace (v : TyVar) (t : Ty) (es : List Equation) : List Equation :=
  es.map (Equation.replace v t)

theorem nodup_eraseDups (vs : List TyVar) : vs.eraseDups.Nodup := by
  match vs with
  | [] => simp
  | v :: vs =>
    rw [List.eraseDups_cons, List.nodup_cons]
    exact ⟨by simp [List.mem_eraseDups], nodup_eraseDups _⟩
termination_by vs.length
decreasing_by exact Nat.lt_succ_of_le (List.length_filter_le _ _)

theorem rank_le {es ds : List Equation} (h : vars ds ⊆ vars es) : rank ds ≤ rank es :=
  (nodup_eraseDups _).length_le_of_subset fun _ hv =>
    List.mem_eraseDups.2 (h (List.mem_eraseDups.1 hv))

theorem rank_lt {es ds : List Equation} {v : TyVar} (hv : v ∈ vars es)
    (h : ∀ w ∈ vars ds, w ≠ v ∧ w ∈ vars es) : rank ds < rank es := by
  have hn : (v :: (vars ds).eraseDups).Nodup :=
    List.nodup_cons.2 ⟨fun hd => (h v (List.mem_eraseDups.1 hd)).1 rfl, nodup_eraseDups _⟩
  apply hn.length_le_of_subset
  intro w hw
  rcases List.mem_cons.1 hw with rfl | hw
  · exact List.mem_eraseDups.2 hv
  · exact List.mem_eraseDups.2 (h w (List.mem_eraseDups.1 hw)).2

@[simp] theorem vars_nil : vars [] = [] := rfl

@[simp] theorem vars_cons (e : Equation) (es : List Equation) :
    vars (e :: es) = e.vars ++ vars es := rfl

@[simp] theorem vars_append (es ds : List Equation) : vars (es ++ ds) = vars es ++ vars ds :=
  List.flatMap_append

@[simp] theorem size_nil : size [] = 0 := rfl

@[simp] theorem size_cons (e : Equation) (es : List Equation) : size (e :: es) = e.size + size es :=
  rfl

@[simp] theorem size_append (es ds : List Equation) : size (es ++ ds) = size es + size ds := by
  induction es with
  | nil => simp
  | cons e es ih => simp [ih, Nat.add_assoc]

theorem mem_vars_zipWith {ts us : List Ty} (h : ts.length = us.length) {v : TyVar} :
    v ∈ vars (List.zipWith Equation.mk ts us) ↔
      v ∈ ts.flatMap Ty.occurrences ∨ v ∈ us.flatMap Ty.occurrences := by
  induction ts generalizing us with
  | nil => simp_all [eq_comm]
  | cons t ts ih =>
    cases us with
    | nil => simp at h
    | cons u us =>
      have ih := ih (Nat.succ.inj h)
      simp only [List.zipWith_cons_cons, vars_cons, Equation.vars, List.flatMap_cons,
        List.mem_append, ih]
      grind

theorem size_zipWith {ts us : List Ty} (h : ts.length = us.length) :
    size (List.zipWith Equation.mk ts us) = Ty.sizeAll ts + Ty.sizeAll us := by
  induction ts generalizing us with
  | nil => simp_all [eq_comm, Ty.sizeAll]
  | cons t ts ih =>
    cases us with
    | nil => simp at h
    | cons u us =>
      simp only [List.zipWith_cons_cons, size_cons, Equation.size, ih (Nat.succ.inj h), Ty.sizeAll]
      omega

theorem mem_vars_split {l r : Ty} {es : List Equation} (h : Equation.split? l r = some es)
    {v : TyVar} : v ∈ vars es ↔ v ∈ l.occurrences ∨ v ∈ r.occurrences := by
  obtain ⟨hp, rfl, rfl⟩ | ⟨p, t, q, u, rfl, rfl, rfl⟩ | ⟨ts, us, rfl, rfl, hl, rfl⟩ |
    ⟨n, ts, us, rfl, rfl, hl, rfl⟩ := Equation.split?_cases h
  · cases l <;> simp_all [Ty.isPrimitive]
  · simp [Equation.vars]
    grind
  · simp [mem_vars_zipWith hl]
  · simp [mem_vars_zipWith hl]

theorem size_split {l r : Ty} {es : List Equation} (h : Equation.split? l r = some es) :
    size es < l.size + r.size := by
  obtain ⟨hp, rfl, rfl⟩ | ⟨p, t, q, u, rfl, rfl, rfl⟩ | ⟨ts, us, rfl, rfl, hl, rfl⟩ |
    ⟨n, ts, us, rfl, rfl, hl, rfl⟩ := Equation.split?_cases h
  · have := l.size_pos
    simp only [size_nil]
    omega
  · simp [Equation.size, Ty.size]
    omega
  · simp [size_zipWith hl, Ty.size]
    omega
  · simp [size_zipWith hl, Ty.size]
    omega

theorem vars_move_bind {e : Equation} {v : TyVar} {t : Ty} (h : e.move = .bind v t) :
    v ∈ e.vars ∧ t.occurrences ⊆ e.vars ∧ v ∉ t.occurrences := by
  obtain ⟨he, hv⟩ := Equation.move_bind h
  obtain rfl | rfl := he <;> simp [Equation.vars, hv]

theorem vars_move_split {e : Equation} {es : List Equation} (h : e.move = .split es) :
    vars es ⊆ e.vars := by
  obtain ⟨-, rfl⟩ | hs := Equation.move_split h
  · simp
  · intro v hv
    simpa [Equation.vars] using (mem_vars_split hs).1 hv

theorem size_move_split {e : Equation} {es : List Equation} (h : e.move = .split es) :
    size es < e.size := by
  obtain ⟨-, rfl⟩ | hs := Equation.move_split h
  · have := e.lhs.size_pos
    simp only [size_nil, Equation.size]
    omega
  · exact size_split hs

theorem rank_replace_lt {e : Equation} {es : List Equation} {v : TyVar} {t : Ty}
    (h : e.move = .bind v t) : rank (replace v t es) < rank (e :: es) := by
  obtain ⟨hv, ht, hvt⟩ := vars_move_bind h
  apply rank_lt (List.mem_append_left _ hv)
  intro w hw
  simp only [vars, replace, List.flatMap_map, List.mem_flatMap, Equation.vars, Equation.replace,
    List.mem_append] at hw
  obtain ⟨d, hd, hw | hw⟩ := hw
  · obtain ⟨hne, hw | hw⟩ := Ty.mem_occurrences_replace hvt hw
    · exact ⟨hne, List.mem_append_right _ (List.mem_flatMap.2 ⟨d, hd, List.mem_append_left _ hw⟩)⟩
    · exact ⟨hne, List.mem_append_left _ (ht hw)⟩
  · obtain ⟨hne, hw | hw⟩ := Ty.mem_occurrences_replace hvt hw
    · exact ⟨hne, List.mem_append_right _ (List.mem_flatMap.2 ⟨d, hd, List.mem_append_right _ hw⟩)⟩
    · exact ⟨hne, List.mem_append_left _ (ht hw)⟩

theorem rank_split_le {e : Equation} {ds es : List Equation} (h : e.move = .split ds) :
    rank (ds ++ es) ≤ rank (e :: es) := by
  apply rank_le
  intro v hv
  rw [vars_append, List.mem_append] at hv
  rw [vars_cons, List.mem_append]
  exact hv.imp_left (vars_move_split h ·)

theorem size_split_lt {e : Equation} {ds es : List Equation} (h : e.move = .split ds) :
    size (ds ++ es) < size (e :: es) := by
  rw [size_append, size_cons]
  exact Nat.add_lt_add_right (size_move_split h) _

end Unification
end TypeInference

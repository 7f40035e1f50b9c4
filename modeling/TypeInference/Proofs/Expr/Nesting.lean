import Mathlib
import TypeInference.Expr.Table

/-! Which expressions an expression is made of, and how deeply they are nested. An expression all of
whose parts are in the table, and none of which contains itself, is nested no more deeply than
the table is long. -/
namespace TypeInference
namespace ExprTable

def children (t : ExprTable) : Expr → Except Fault (List ExprId)
  | .lambda _ body => .ok [body]
  | .apply func arg => .ok [func, arg]
  | .letIn _ value body => .ok [value, body]
  | .ternary cond thenBranch elseBranch => .ok [cond, thenBranch, elseBranch]
  | .member receiver _ => .ok [receiver]
  | .tuple elems => t.getList elems
  | .bool _ | .int _ | .float _ | .str _ | .ident _ => .ok []

def Child (t : ExprTable) (id c : ExprId) : Prop :=
  ∃ e cs, t.get id = .ok e ∧ t.children e = .ok cs ∧ c ∈ cs

/-- The second expression is the first or a part of it. -/
def Reaches (t : ExprTable) : ExprId → ExprId → Prop := Relation.ReflTransGen t.Child

/-- Every part of the expression is in the table, and no part contains itself. -/
structure WellFormed (t : ExprTable) (id : ExprId) : Prop where
  inRange : ∀ c, t.Reaches id c → ∃ e cs, t.get c = .ok e ∧ t.children e = .ok cs
  acyclic : ∀ c, t.Reaches id c → ¬Relation.TransGen t.Child c c

def MemberFree (t : ExprTable) (id : ExprId) : Prop :=
  ∀ c, t.Reaches id c → ∀ receiver m, t.get c ≠ .ok (.member receiver m)

/-- The expression is in the table and has at most `n` levels. -/
def Nested (t : ExprTable) : Nat → ExprId → Prop
  | 0, _ => False
  | n + 1, id => ∃ e cs, t.get id = .ok e ∧ t.children e = .ok cs ∧ ∀ c ∈ cs, t.Nested n c

variable {t : ExprTable} {id c : ExprId} {e : Expr} {cs : List ExprId} {n : Nat}

theorem nested_succ_iff : t.Nested (n + 1) id ↔
    match t.get id >>= t.children with
    | .ok cs => ∀ c ∈ cs, t.Nested n c
    | .error _ => False := by
  rw [Nested]
  cases t.get id with
  | error f => simp [bind, Except.bind]
  | ok e => cases hcs : t.children e <;> simp [bind, Except.bind, hcs]

instance decidableNested (t : ExprTable) : (n : Nat) → (id : ExprId) → Decidable (t.Nested n id)
  | 0, _ => .isFalse fun h => h
  | n + 1, id =>
    match h : t.get id >>= t.children with
    | .ok cs =>
      have : ∀ c, Decidable (t.Nested n c) := decidableNested t n
      decidable_of_iff (∀ c ∈ cs, t.Nested n c) (by rw [nested_succ_iff, h])
    | .error _ => .isFalse (by rw [nested_succ_iff, h]; exact fun h => h)

theorem child_of_get (he : t.get id = .ok e) (hcs : t.children e = .ok cs) (hc : c ∈ cs) :
    t.Child id c := ⟨e, cs, he, hcs, hc⟩

theorem get_eq_ok : t.get id = .ok e ↔ t.exprs[id.index]? = some e := by
  rw [get]
  split <;> simp_all

theorem index_lt_size (h : t.get id = .ok e) : id.index < t.size := by
  obtain ⟨hlt, -⟩ := Array.getElem?_eq_some_iff.1 (get_eq_ok.1 h)
  exact hlt

theorem WellFormed.child (h : t.WellFormed id) (hc : t.Child id c) : t.WellFormed c where
  inRange d hd := h.inRange d (.head hc hd)
  acyclic d hd := h.acyclic d (.head hc hd)

theorem MemberFree.child (h : t.MemberFree id) (hc : t.Child id c) : t.MemberFree c :=
  fun d hd => h d (.head hc hd)

theorem wellFormed_of_earlier
    (h : ∀ a e, t.get a = .ok e → ∃ cs, t.children e = .ok cs ∧ ∀ b ∈ cs, b.index < a.index)
    (hid : id.index < t.size) : t.WellFormed id := by
  have hchild : ∀ a b, t.Child a b → b.index < a.index := by
    rintro a b ⟨e, cs, he, hcs, hb⟩
    obtain ⟨ds, hds, hlt⟩ := h a e he
    rw [hcs] at hds
    exact hlt b (Except.ok.inj hds ▸ hb)
  have htrans : ∀ a b, Relation.TransGen t.Child a b → b.index < a.index := by
    intro a b hab
    induction hab with
    | single hb => exact hchild _ _ hb
    | tail _ hc ih => exact Nat.lt_trans (hchild _ _ hc) ih
  have hsize : ∀ a, t.Reaches id a → a.index < t.size := by
    intro a ha
    induction ha with
    | refl => exact hid
    | tail _ hc ih => exact Nat.lt_trans (hchild _ _ hc) ih
  refine ⟨fun a ha => ?_, fun a _ haa => Nat.lt_irrefl _ (htrans a a haa)⟩
  have hlt : a.index < t.exprs.size := hsize a ha
  have hget : t.get a = .ok t.exprs[a.index] := get_eq_ok.2 (Array.getElem?_eq_getElem hlt)
  obtain ⟨cs, hcs, -⟩ := h a _ hget
  exact ⟨_, cs, hget, hcs⟩

theorem length_le_size {ids : List ExprId} (hn : ids.Nodup) (hlt : ∀ a ∈ ids, a.index < t.size) :
    ids.length ≤ t.size := by
  have hinj : Function.Injective ExprId.index := by
    rintro ⟨i⟩ ⟨j⟩ rfl
    rfl
  have hsub : ids.map ExprId.index ⊆ List.range t.size := by
    intro i hi
    obtain ⟨a, ha, rfl⟩ := List.mem_map.1 hi
    exact List.mem_range.2 (hlt a ha)
  simpa using (hn.map hinj).length_le_of_subset hsub

theorem WellFormed.path_cons (h : t.WellFormed id) {above : List ExprId} (hnodup : above.Nodup)
    (hlt : ∀ a ∈ above, a.index < t.size) (hpath : ∀ a ∈ above, Relation.TransGen t.Child a id) :
    (id :: above).Nodup ∧ ∀ a ∈ id :: above, a.index < t.size := by
  obtain ⟨e, cs, he, -⟩ := h.inRange id .refl
  have hnot : id ∉ above := fun hid => h.acyclic id .refl (hpath id hid)
  exact ⟨List.nodup_cons.2 ⟨hnot, hnodup⟩, List.forall_mem_cons.2 ⟨index_lt_size he, hlt⟩⟩

/-- The expressions above leave room for `n` levels, since all are different entries of the
table. -/
theorem WellFormed.nested_below (h : t.WellFormed id) (above : List ExprId)
    (hnodup : above.Nodup) (hlt : ∀ a ∈ above, a.index < t.size)
    (hpath : ∀ a ∈ above, Relation.TransGen t.Child a id)
    (hroom : t.size ≤ above.length + n) : t.Nested n id := by
  induction n generalizing id above with
  | zero =>
    obtain ⟨hnodup, hlt⟩ := h.path_cons hnodup hlt hpath
    have hlen := length_le_size hnodup hlt
    rw [List.length_cons] at hlen
    omega
  | succ n ih =>
    obtain ⟨e, cs, he, hcs⟩ := h.inRange id .refl
    obtain ⟨hnodup, hlt⟩ := h.path_cons hnodup hlt hpath
    refine ⟨e, cs, he, hcs, fun c hc => ?_⟩
    have hchild := child_of_get he hcs hc
    refine ih (h.child hchild) (id :: above) hnodup hlt ?_ ?_
    · exact List.forall_mem_cons.2 ⟨.single hchild, fun a ha => (hpath a ha).tail hchild⟩
    · rw [List.length_cons]
      omega

theorem WellFormed.nested (h : t.WellFormed id) : t.Nested t.size id :=
  h.nested_below [] List.nodup_nil nofun nofun (by simp)

theorem Nested.mono {m : Nat} (hnm : n ≤ m) (h : t.Nested n id) : t.Nested m id := by
  induction n generalizing m id with
  | zero => exact h.elim
  | succ n ih =>
    obtain ⟨e, cs, he, hcs, hn⟩ := h
    obtain ⟨m, rfl⟩ : ∃ k, m = k + 1 := ⟨m - 1, by omega⟩
    exact ⟨e, cs, he, hcs, fun c hc => ih (by omega) (hn c hc)⟩

theorem Nested.child (h : t.Nested (n + 1) id) (hc : t.Child id c) : t.Nested n c := by
  obtain ⟨e, cs, he, hcs, h⟩ := h
  obtain ⟨e', cs', he', hcs', hc⟩ := hc
  cases he.symm.trans he'
  cases hcs.symm.trans hcs'
  exact h c hc

theorem Nested.acyclic (h : t.Nested n id) : ¬Relation.TransGen t.Child id id := by
  induction n generalizing id with
  | zero => exact h.elim
  | succ n ih =>
    intro hcycle
    obtain ⟨c, hc, hback⟩ := Relation.TransGen.head'_iff.1 hcycle
    -- the next expression on the cycle is on it as well, and has fewer levels
    exact ih (h.child hc) (.tail' hback hc)

theorem Nested.of_reaches (h : t.Nested n id) (hc : t.Reaches id c) : ∃ m, t.Nested m c := by
  induction hc with
  | refl => exact ⟨n, h⟩
  | tail _ hc ih =>
    obtain ⟨m, h⟩ := ih
    cases m with
    | zero => exact h.elim
    | succ m => exact ⟨m, h.child hc⟩

theorem Nested.wellFormed (h : t.Nested n id) : t.WellFormed id where
  inRange c hc := by
    obtain ⟨m, h⟩ := h.of_reaches hc
    cases m with
    | zero => exact h.elim
    | succ m =>
      obtain ⟨e, cs, he, hcs, -⟩ := h
      exact ⟨e, cs, he, hcs⟩
  acyclic c hc := by
    obtain ⟨m, h⟩ := h.of_reaches hc
    exact h.acyclic

end ExprTable
end TypeInference

import TypeInference.Inference.Checker
import TypeInference.Proofs.Typing.HasType
import TypeInference.Proofs.Unification.MostGeneral

/-! What the actions of inference do when they succeed: one statement for each elementary action,
with the whole state that it leaves, and one for each rule, with the results and states on the
way. -/
namespace TypeInference

namespace Substitution

theorem mem_relabel {vs ws : List TyVar} (hlen : vs.length = ws.length) {v : TyVar} :
    v ∈ relabel vs ws ↔ v ∈ vs := by
  induction vs generalizing ws with
  | nil => simp [relabel]
  | cons a vs ih =>
    cases ws with
    | nil => simp at hlen
    | cons b ws =>
      have ih := ih (Nat.succ.inj hlen)
      rw [relabel, Std.ExtTreeMap.mem_insertIfNew, ih, List.mem_cons,
        Std.LawfulEqCmp.compare_eq_iff_eq, eq_comm]

theorem image_relabel_cons {v w u : TyVar} {vs ws : List TyVar} (hlen : vs.length = ws.length) :
    (relabel (v :: vs) (w :: ws)).image u =
      if v = u ∧ v ∉ vs then .var w else (relabel vs ws).image u := by
  simp only [image, relabel, Std.ExtTreeMap.getElem?_insertIfNew, Std.LawfulEqCmp.compare_eq_iff_eq,
    mem_relabel hlen]
  split
  · rfl
  · rfl

/-- Relabelling sends the variables of the first list to different variables of the second, and
leaves all others alone. -/
theorem exists_relabel {vs ws : List TyVar} (hlen : vs.length = ws.length) (hn : ws.Nodup) :
    ∃ f : TyVar → TyVar, (∀ v ∈ vs, f v ∈ ws) ∧ (∀ v ∈ vs, ∀ u ∈ vs, f v = f u → v = u) ∧
      ∀ v, (relabel vs ws).image v = if v ∈ vs then .var (f v) else .var v := by
  induction vs generalizing ws with
  | nil => exact ⟨fun v => v, by simp [relabel]⟩
  | cons a vs ih =>
    cases ws with
    | nil => simp at hlen
    | cons b ws =>
      obtain ⟨hb, hn⟩ := List.nodup_cons.1 hn
      obtain ⟨f, hmem, hinj, himg⟩ := ih (Nat.succ.inj hlen) hn
      have hne : ∀ v ∈ vs, f v ≠ b := fun v hv e => hb (e ▸ hmem v hv)
      -- a variable that the tail relabels too keeps its label from there
      refine ⟨fun v => if v ∈ vs then f v else b, ?_, ?_, ?_⟩
      · intro v _
        by_cases hv : v ∈ vs
        · simp [hv, hmem v hv]
        · simp [hv]
      · intro v hv u hu hf
        by_cases hv' : v ∈ vs <;> by_cases hu' : u ∈ vs <;>
          simp only [hv', hu', if_true, if_false] at hf
        · exact hinj v hv' u hu' hf
        · exact absurd hf (hne v hv')
        · exact absurd hf.symm (hne u hu')
        · rw [(List.mem_cons.1 hv).resolve_right hv', (List.mem_cons.1 hu).resolve_right hu']
      · intro v
        rw [image_relabel_cons (Nat.succ.inj hlen), himg v]
        by_cases hv : v ∈ vs
        · have : ¬(a = v ∧ a ∉ vs) := fun h => h.2 (h.1 ▸ hv)
          simp [this, hv]
        · by_cases hav : a = v
          · subst hav
            simp [hv]
          · simp [hav, hv, Ne.symm hav]

theorem exists_relabel_range' (vs : List TyVar) (n : Nat) :
    ∃ f : TyVar → TyVar, (∀ v ∈ vs, n ≤ (f v).id ∧ (f v).id < n + vs.length) ∧
      (∀ v ∈ vs, ∀ u ∈ vs, f v = f u → v = u) ∧
      ∀ v, (relabel vs ((List.range' n vs.length).map TyVar.mk)).image v =
        if v ∈ vs then .var (f v) else .var v := by
  have hlen : vs.length = ((List.range' n vs.length).map TyVar.mk).length := by simp
  have hn : ((List.range' n vs.length).map TyVar.mk).Nodup :=
    List.Nodup.map (fun a b e => congrArg TyVar.id e) List.nodup_range'
  obtain ⟨f, hmem, hinj, himg⟩ := exists_relabel hlen hn
  refine ⟨f, fun v hv => ?_, hinj, himg⟩
  obtain ⟨i, hi, hfi⟩ := List.mem_map.1 (hmem v hv)
  rw [← hfi]
  exact List.mem_range'_1.1 hi

end Substitution

theorem Context.instantiate?_eq_some {σ : Scheme} {c c' : Context} {t : Ty}
    (h : c.instantiate? σ = some (t, c')) :
    ∃ (f : TyVar → TyVar) (m : Nat), c' = { c with next := m } ∧
      t = σ.specialize (fun v => .var (f v)) .var ∧ (c.next = m ∨ c.next < m ∧ m ≤ TyVar.maxId) ∧
      (∀ v ∈ σ.vars, c.next ≤ (f v).id ∧ (f v).id < m) ∧
      ∀ v ∈ σ.vars, ∀ w ∈ σ.vars, f v = f w → v = w := by
  rw [instantiate?] at h
  split at h
  · next hm =>
    have hv : σ.vars = [] := List.isEmpty_iff.1 hm
    obtain ⟨rfl, rfl⟩ := Prod.mk.inj (Option.some.inj h)
    exact ⟨fun v => v, c.next, rfl, by simp [Scheme.specialize, hv], .inl rfl, by simp [hv],
      by simp [hv]⟩
  · next hm =>
    have hpos : 0 < σ.vars.length := by
      rw [List.length_pos_iff]
      exact fun hv => hm (List.isEmpty_iff.2 hv)
    rw [freshVars?] at h
    split at h
    · next hroom =>
      obtain ⟨rfl, rfl⟩ := Prod.mk.inj (Option.some.inj h)
      obtain ⟨f, hnew, hinj, himg⟩ := Substitution.exists_relabel_range' σ.vars c.next
      refine ⟨f, c.next + σ.vars.length, rfl, ?_, .inr ⟨by omega, hroom⟩, hnew, hinj⟩
      rw [Substitution.apply, Scheme.specialize]
      exact Ty.subst_congr fun v _ => himg v
    · cases h

namespace Infer

variable {α β : Type} {s s' : State}

theorem bind_ok {act : Infer α} {f : α → Infer β} {b : β} :
    (act >>= f) s = .ok b s' ↔ ∃ a s₁, act s = .ok a s₁ ∧ f a s₁ = .ok b s' := by
  change EStateM.bind act f s = .ok b s' ↔ _
  rw [EStateM.bind]
  cases act s <;> simp

theorem bind_of_ok {act : Infer α} {f : α → Infer β} {a : α} {s₁ : State} (h : act s = .ok a s₁) :
    (act >>= f) s = f a s₁ := by
  change EStateM.bind act f s = _
  rw [EStateM.bind, h]

theorem bind_congr_ok {act act' : Infer α} {f f' : α → Infer β} (h : act s = act' s)
    (hf : ∀ a s₁, act' s = .ok a s₁ → f a s₁ = f' a s₁) : (act >>= f) s = (act' >>= f') s := by
  change EStateM.bind act f s = EStateM.bind act' f' s
  rw [EStateM.bind, EStateM.bind, h]
  cases hact : act' s with
  | ok a s₁ => exact hf a s₁ hact
  | error e s₁ => rfl

theorem pure_ok {a b : α} : (pure a : Infer α) s = .ok b s' ↔ a = b ∧ s = s' := by
  change EStateM.Result.ok a s = .ok b s' ↔ _
  simp

theorem get_ok {a : State} : (get : Infer State) s = .ok a s' ↔ s = a ∧ s = s' := by
  change EStateM.Result.ok s s = .ok a s' ↔ _
  simp

theorem get_bind (f : State → Infer α) : (get >>= f) s = f s s := rfl

theorem ofFault_ok {r : Except Fault α} {a : α} : ofFault r s = .ok a s' ↔ r = .ok a ∧ s = s' := by
  cases r with
  | ok b => simp [ofFault, pure_ok]
  | error f =>
    change EStateM.Result.error _ s = .ok a s' ↔ _
    simp

theorem fail_ne_ok {e : TypeError} {a : α} : (fail e : Infer α) s ≠ .ok a s' := nofun

theorem fresh_ok {t : Ty} :
    fresh s = .ok t s' ↔
      s.next < TyVar.maxId ∧ t = .var ⟨s.next⟩ ∧ s' = { s with next := s.next + 1 } := by
  rw [fresh, Context.fresh?]
  by_cases h : s.next < TyVar.maxId
  · simp [h, eq_comm]
  · simp [h]

theorem fresh_overflow (h : ¬s.next < TyVar.maxId) : fresh s = .error (.fault .overflow) s := by
  rw [fresh, Context.fresh?, if_neg h]

theorem constrain_ok {l r : Ty} {u : Unit} :
    constrain l r s = .ok u s' ↔ s' = { s with constraints := s.constraints.push ⟨l, r⟩ } := by
  simp [constrain, Context.constrain, eq_comm]

theorem instantiate_mono {σ : Scheme} (h : σ.isMono = true) : instantiate σ s = .ok σ.ty s := by
  rw [instantiate, Context.instantiate?, if_pos h]

theorem instantiate_poly {σ : Scheme} (h : ¬σ.isMono = true)
    (hroom : s.next + σ.vars.length ≤ TyVar.maxId) :
    instantiate σ s =
      .ok
        ((Substitution.relabel σ.vars ((List.range' s.next σ.vars.length).map TyVar.mk)).apply σ.ty)
        { s with next := s.next + σ.vars.length } := by
  rw [instantiate, Context.instantiate?, if_neg h, Context.freshVars?, if_pos hroom]
  rfl

theorem instantiate_overflow {σ : Scheme} (h : ¬σ.isMono = true)
    (hroom : ¬s.next + σ.vars.length ≤ TyVar.maxId) :
    instantiate σ s = .error (.fault .overflow) s := by
  rw [instantiate, Context.instantiate?, if_neg h, Context.freshVars?, if_neg hroom]
  rfl

theorem instantiate_ok {σ : Scheme} {t : Ty} (h : instantiate σ s = .ok t s') :
    ∃ (f : TyVar → TyVar) (m : Nat), s' = { s with next := m } ∧
      t = σ.specialize (fun v => .var (f v)) .var ∧ (s.next = m ∨ s.next < m ∧ m ≤ TyVar.maxId) ∧
      (∀ v ∈ σ.vars, s.next ≤ (f v).id ∧ (f v).id < m) ∧
      ∀ v ∈ σ.vars, ∀ w ∈ σ.vars, f v = f w → v = w := by
  rw [instantiate] at h
  cases hc : s.toContext.instantiate? σ with
  | none =>
    rw [hc] at h
    cases h
  | some r =>
    rw [hc] at h
    obtain ⟨rfl, rfl⟩ := EStateM.Result.ok.inj h
    obtain ⟨f, m, hm, hinst⟩ := Context.instantiate?_eq_some hc
    exact ⟨f, m, by rw [hm], hinst⟩

end Infer

namespace State

def equations (s : State) : List Equation := s.constraints.toList

def unsolved (s : State) : List Equation := s.equations.drop s.solved

theorem toList_extract_solved (s : State) :
    (s.constraints.extract s.solved s.constraints.size).toList = s.unsolved := by
  rw [Array.toList_extract, List.extract_eq_take_drop, unsolved, equations,
    List.take_of_length_le (by simp)]

end State

namespace Infer

variable {α β : Type} {s s' : State}

theorem solvePending_ok {u : Unit} :
    solvePending s = .ok u s' ↔ ∃ S, s.solution.solve s.unsolved = ⟨S, none⟩ ∧
      s' = { s with solution := S, solved := s.constraints.size } := by
  rw [solvePending, s.toList_extract_solved]
  rcases s.solution.solve s.unsolved with ⟨S, _ | c⟩ <;> simp [eq_comm]

theorem unsolved_solvePending {u : Unit} (h : solvePending s = .ok u s') : s'.unsolved = [] := by
  obtain ⟨S, -, rfl⟩ := solvePending_ok.1 h
  simp [State.unsolved, State.equations]

theorem solvePending_error {e : Failure} :
    solvePending s = .error e s' ↔ ∃ S c, s.solution.solve s.unsolved = ⟨S, some c⟩ ∧
      e = .type (.conflict c) ∧ s' = { s with solution := S } := by
  rw [solvePending, s.toList_extract_solved]
  rcases s.solution.solve s.unsolved with ⟨S, _ | c⟩ <;> simp [eq_comm]

theorem afterSolving_ok {f : State → α} {a : α} :
    (do solvePending; let s ← get; return f s : Infer α) s = .ok a s' ↔
      solvePending s = .ok () s' ∧ a = f s' := by
  simp only [bind_ok, get_ok, pure_ok]
  constructor
  · rintro ⟨_, s₁, h, _, _, ⟨rfl, rfl⟩, rfl, rfl⟩
    exact ⟨h, rfl⟩
  · rintro ⟨h, rfl⟩
    exact ⟨(), s', h, s', s', ⟨rfl, rfl⟩, rfl, rfl⟩

theorem resolve_ok {t u : Ty} :
    resolve t s = .ok u s' ↔ solvePending s = .ok () s' ∧ u = s'.solution.apply t :=
  afterSolving_ok

theorem exists_resolve_ok {t u : Ty} :
    (∃ s', resolve t s = .ok u s') ↔
      ∃ S, s.solution.solve s.unsolved = ⟨S, none⟩ ∧ u = S.apply t := by
  simp only [resolve_ok, solvePending_ok]
  constructor
  · rintro ⟨s', ⟨S, hS, rfl⟩, rfl⟩
    exact ⟨S, hS, rfl⟩
  · rintro ⟨S, hS, rfl⟩
    exact ⟨_, ⟨S, hS, rfl⟩, rfl⟩

theorem generalize_ok {t : Ty} {σ : Scheme} :
    generalize t s = .ok σ s' ↔ solvePending s = .ok () s' ∧
      σ = (s'.solution.applyEnv s'.env).generalize (s'.solution.apply t) :=
  afterSolving_ok

theorem withBinding_ok {x : Name} {σ : Scheme} {act : Infer α} {a : α} :
    withBinding x σ act s = .ok a s' ↔ ∃ s₁, act { s with env := s.env.insert x σ } = .ok a s₁ ∧
      s' = { s₁ with env := s₁.env.restore x s.env[x]? } := by
  simp only [withBinding]
  generalize act { s with env := s.env.insert x σ } = r
  cases r <;> simp [eq_comm]

section Rules

variable {go : ExprId → Infer Ty} {x m : Name} {t : Ty}

theorem ident_bound {σ : Scheme} (hx : s.env[x]? = some σ) : ident x s = instantiate σ s := by
  rw [ident, get_bind, hx]

theorem ident_unbound (hx : s.env[x]? = none) : ident x s = .error (.type (.unbound x)) s := by
  rw [ident, get_bind, hx]
  rfl

theorem ident_ok (h : ident x s = .ok t s') :
    ∃ σ, s.env[x]? = some σ ∧ instantiate σ s = .ok t s' := by
  cases hx : s.env[x]? with
  | none =>
    rw [ident_unbound hx] at h
    cases h
  | some σ => exact ⟨σ, rfl, ident_bound hx ▸ h⟩

theorem lambda_ok {body : ExprId} (h : lambda go x body s = .ok t s') :
    ∃ a b s₁, fresh s = .ok a s₁ ∧ withBinding x (.mono a) (go body) s₁ = .ok b s' ∧
      t = .fn a b := by
  obtain ⟨a, s₁, ha, h⟩ := bind_ok.1 h
  obtain ⟨b, s₂, hb, h⟩ := bind_ok.1 h
  obtain ⟨rfl, rfl⟩ := pure_ok.1 h
  exact ⟨a, b, s₁, ha, hb, rfl⟩

theorem letIn_ok {value body : ExprId} (h : letIn go x value body s = .ok t s') :
    ∃ a σ s₁ s₂, go value s = .ok a s₁ ∧ generalize a s₁ = .ok σ s₂ ∧
      withBinding x σ (go body) s₂ = .ok t s' := by
  obtain ⟨a, s₁, ha, h⟩ := bind_ok.1 h
  obtain ⟨σ, s₂, hσ, h⟩ := bind_ok.1 h
  exact ⟨a, σ, s₁, s₂, ha, hσ, h⟩

theorem apply_ok {func arg : ExprId} (h : apply go func arg s = .ok t s') :
    ∃ f a s₁ s₂ s₃, go func s = .ok f s₁ ∧ go arg s₁ = .ok a s₂ ∧ fresh s₂ = .ok t s₃ ∧
      s' = { s₃ with constraints := s₃.constraints.push ⟨f, .fn a t⟩ } := by
  obtain ⟨f, s₁, hf, h⟩ := bind_ok.1 h
  obtain ⟨a, s₂, ha, h⟩ := bind_ok.1 h
  obtain ⟨r, s₃, hr, h⟩ := bind_ok.1 h
  obtain ⟨_, s₄, hc, h⟩ := bind_ok.1 h
  obtain ⟨rfl, rfl⟩ := pure_ok.1 h
  exact ⟨f, a, s₁, s₂, s₃, hf, ha, hr, constrain_ok.1 hc⟩

theorem ternary_ok {cond thenBranch elseBranch : ExprId}
    (h : ternary go cond thenBranch elseBranch s = .ok t s') :
    ∃ c e s₁ s₂ s₃, go thenBranch s = .ok t s₁ ∧ go cond s₁ = .ok c s₂ ∧
      go elseBranch s₂ = .ok e s₃ ∧
      s' = { s₃ with constraints := (s₃.constraints.push ⟨c, .bool⟩).push ⟨e, t⟩ } := by
  obtain ⟨t, s₁, ht, h⟩ := bind_ok.1 h
  obtain ⟨c, s₂, hc, h⟩ := bind_ok.1 h
  obtain ⟨e, s₃, he, h⟩ := bind_ok.1 h
  obtain ⟨_, s₄, h₄, h⟩ := bind_ok.1 h
  obtain ⟨_, s₅, h₅, h⟩ := bind_ok.1 h
  obtain ⟨rfl, rfl⟩ := pure_ok.1 h
  rw [constrain_ok.1 h₄] at h₅
  exact ⟨c, e, s₁, s₂, s₃, ht, hc, he, constrain_ok.1 h₅⟩

theorem elements_nil_ok {ts : List Ty} : elements go [] s = .ok ts s' ↔ [] = ts ∧ s = s' := pure_ok

theorem elements_cons_ok {id : ExprId} {ids : List ExprId} {ts : List Ty}
    (h : elements go (id :: ids) s = .ok ts s') :
    ∃ u us s₁, go id s = .ok u s₁ ∧ elements go ids s₁ = .ok us s' ∧ ts = u :: us := by
  obtain ⟨u, s₁, hu, h⟩ := bind_ok.1 h
  obtain ⟨us, s₂, hus, h⟩ := bind_ok.1 h
  obtain ⟨rfl, rfl⟩ := pure_ok.1 h
  exact ⟨u, us, s₁, hu, hus, rfl⟩

theorem tuple_ok {table : ExprTable} {r : ExprRange} (h : tuple go table r s = .ok t s') :
    ∃ ids ts, table.getList r = .ok ids ∧ elements go ids s = .ok ts s' ∧ t = .tuple ts := by
  obtain ⟨ids, s₁, hget, h⟩ := bind_ok.1 h
  obtain ⟨hids, rfl⟩ := ofFault_ok.1 hget
  obtain ⟨ts, s₂, hts, h⟩ := bind_ok.1 h
  obtain ⟨rfl, rfl⟩ := pure_ok.1 h
  exact ⟨ids, ts, hids, hts, rfl⟩

theorem receiverName_ok {n : Name} :
    receiverName m t s = .ok n s' ↔ t.nominalName? = some n ∧ s = s' := by
  cases t with
  | fn p r => simp [receiverName, Host.lift, Ty.nominalName?, fail_ne_ok]
  | tuple ts => simp [receiverName, Host.lift, Ty.nominalName?, fail_ne_ok]
  | var v => simp [receiverName, Host.lift, Host.nominalName, Ty.nominalName?, fail_ne_ok]
  | _ => simp [receiverName, Host.nominalName, Ty.nominalName?, pure_ok]

theorem receiverType_ok {r : Ty} (h : receiverType t s = .ok r s') :
    resolve t s = .ok r s' ∨ r = t ∧ s' = s := by
  rw [receiverType] at h
  split at h
  · exact .inl h
  · exact .inr ((pure_ok.1 h).imp Eq.symm Eq.symm)

theorem useMember_ok {d : Declarations} {n : Name} (h : useMember d m n s = .ok t s') :
    ∃ σ i s₁ s₂, d.member? n m = some σ ∧ instantiate σ s = .ok i s₁ ∧ fresh s₁ = .ok t s₂ ∧
      s' = { s₂ with constraints := s₂.constraints.push ⟨t, i⟩ } := by
  rw [useMember] at h
  cases hm : d.member? n m with
  | none =>
    rw [hm] at h
    exact absurd h fail_ne_ok
  | some σ =>
    rw [hm] at h
    obtain ⟨i, s₁, hi, h⟩ := bind_ok.1 h
    obtain ⟨w, s₂, hw, h⟩ := bind_ok.1 h
    obtain ⟨_, s₃, hc, h⟩ := bind_ok.1 h
    obtain ⟨rfl, rfl⟩ := pure_ok.1 h
    exact ⟨σ, i, s₁, s₂, rfl, hi, hw, constrain_ok.1 hc⟩

theorem member_ok {d : Declarations} {receiver : ExprId} (h : member go d receiver m s = .ok t s') :
    ∃ u r n σ i s₁ s₂ s₃ s₄, go receiver s = .ok u s₁ ∧
      (resolve u s₁ = .ok r s₂ ∨ r = u ∧ s₂ = s₁) ∧ r.nominalName? = some n ∧
      d.member? n m = some σ ∧
      instantiate σ s₂ = .ok i s₃ ∧ fresh s₃ = .ok t s₄ ∧
      s' = { s₄ with constraints := s₄.constraints.push ⟨t, i⟩ } := by
  obtain ⟨u, s₁, hu, h⟩ := bind_ok.1 h
  obtain ⟨r, s₂, hr, h⟩ := bind_ok.1 h
  obtain ⟨n, s₃, hname, h⟩ := bind_ok.1 h
  obtain ⟨hn, rfl⟩ := receiverName_ok.1 hname
  obtain ⟨σ, i, s₃, s₄, hm, hi, ht, rfl⟩ := useMember_ok h
  exact ⟨u, r, n, σ, i, s₁, s₂, s₃, s₄, hu, receiverType_ok hr, hn, hm, hi, ht, rfl⟩

end Rules

end Infer

namespace Program

variable {p : Program} {s s' : State} {t : Ty} {id : ExprId}

theorem inferWithin_of_get {n : Nat} {e : Expr} (he : p.table.get id = .ok e) :
    p.inferWithin (n + 1) id = Infer.node (p.inferWithin n) p e := by
  change (Infer.ofFault (p.table.get id) >>= Infer.node (p.inferWithin n) p) = _
  rw [he]
  rfl

theorem inferWithin_ok {n : Nat} (h : p.inferWithin n id s = .ok t s') :
    ∃ k e, n = k + 1 ∧ p.table.get id = .ok e ∧ Infer.node (p.inferWithin k) p e s = .ok t s' := by
  cases n with
  | zero => exact absurd h nofun
  | succ k =>
    obtain ⟨e, s₁, hget, hnode⟩ := Infer.bind_ok.1 h
    obtain ⟨he, rfl⟩ := Infer.ofFault_ok.1 hget
    exact ⟨k, e, rfl, he, hnode⟩

theorem infer_ok (h : p.infer id s = .ok t s') :
    ∃ u s₁, p.inferExpr id s.beginRun = .ok u s₁ ∧ Infer.resolve u s₁ = .ok t s' := by
  obtain ⟨_, s₀, hbegin, hrun⟩ := Infer.bind_ok.1 h
  obtain ⟨-, rfl⟩ := EStateM.Result.ok.inj hbegin
  exact Infer.bind_ok.1 hrun

theorem typeOf_ok {env : Env} :
    p.typeOf env id = .ok t ↔ ∃ s, p.infer id (p.start env) = .ok t s := by
  rw [typeOf]
  cases p.infer id (p.start env) <;> simp

theorem typeOf_error {env : Env} {e : Failure} :
    p.typeOf env id = .error e ↔ ∃ s, p.infer id (p.start env) = .error e s := by
  rw [typeOf]
  cases p.infer id (p.start env) <;> simp

end Program
end TypeInference

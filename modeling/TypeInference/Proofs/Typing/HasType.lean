import TypeInference.Inference.Rules
import TypeInference.Proofs.Expr.Nesting

/-! The typing rules without an algorithm. An expression has a type in an environment if a finite
derivation says so: names are used at any instance of their schemes, a parameter has one type, and
the value of a `let` is used at the generalization of its type. -/
namespace TypeInference

namespace Scheme

/-- The type of a scheme with `ρ` for its quantified variables and `θ` for the others. -/
def specialize (σ : Scheme) (ρ θ : TyVar → Ty) : Ty :=
  σ.ty.subst fun v => if v ∈ σ.vars then ρ v else θ v

/-- The type is the scheme's with some types for the quantified variables. -/
def Instance (σ : Scheme) (t : Ty) : Prop := ∃ ρ : TyVar → Ty, t = σ.specialize ρ .var

/-- Every variable of the type is quantified. -/
def Closed (σ : Scheme) : Prop := σ.freeVars = []

variable {σ : Scheme} {ρ θ η : TyVar → Ty} {t : Ty}

theorem Closed.mem_vars (h : σ.Closed) {v : TyVar} (hv : v ∈ σ.ty.occurrences) : v ∈ σ.vars := by
  by_contra hn
  have hf : v ∈ σ.freeVars := mem_freeVars.2 ⟨hv, hn⟩
  rw [h] at hf
  exact List.not_mem_nil hf

theorem Closed.not_mem_freeVars (h : σ.Closed) (v : TyVar) : v ∉ σ.freeVars := by
  rw [h]
  exact List.not_mem_nil

theorem mem_occurrences_specialize {w : TyVar} :
    w ∈ (σ.specialize ρ θ).occurrences ↔
      (∃ v ∈ σ.ty.occurrences, v ∈ σ.vars ∧ w ∈ (ρ v).occurrences) ∨
        ∃ v ∈ σ.freeVars, w ∈ (θ v).occurrences := by
  rw [specialize, Ty.mem_occurrences_subst]
  constructor
  · rintro ⟨v, hv, hw⟩
    split at hw
    · next hb => exact .inl ⟨v, hv, hb, hw⟩
    · next hn => exact .inr ⟨v, mem_freeVars.2 ⟨hv, hn⟩, hw⟩
  · rintro (⟨v, hv, hb, hw⟩ | ⟨v, hv, hw⟩)
    · exact ⟨v, hv, by rwa [if_pos hb]⟩
    · obtain ⟨hocc, hn⟩ := mem_freeVars.1 hv
      exact ⟨v, hocc, by rwa [if_neg hn]⟩

theorem specialize_congr (h : ∀ v ∈ σ.freeVars, θ v = η v) :
    σ.specialize ρ θ = σ.specialize ρ η := by
  apply Ty.subst_congr
  intro v hv
  split
  · rfl
  · next hn => exact h v (mem_freeVars.2 ⟨hv, hn⟩)

theorem Closed.specialize_eq (h : σ.Closed) : σ.specialize ρ θ = σ.specialize ρ η :=
  specialize_congr fun v hv => absurd hv (h.not_mem_freeVars v)

@[simp] theorem specialize_mono : (mono t).specialize ρ θ = t.subst θ := by
  simp [specialize, mono]

theorem instance_specialize (σ : Scheme) (ρ : TyVar → Ty) :
    σ.Instance (σ.specialize ρ .var) := ⟨ρ, rfl⟩

/-- A scheme that quantifies nothing has its type as its only instance. -/
@[simp] theorem instance_mono {u : Ty} : (mono t).Instance u ↔ u = t := by
  constructor
  · rintro ⟨ρ, rfl⟩
    simp
  · rintro rfl
    exact ⟨.var, by simp⟩

theorem Closed.subst_eq (h : σ.Closed) (θ : TyVar → Ty) : σ.subst θ = σ := by
  have hc : ∀ v ∈ σ.ty.occurrences, (if v ∈ σ.vars then .var v else θ v) = Ty.var v := fun v hv =>
    if_pos (h.mem_vars hv)
  rw [subst, Ty.subst_congr hc, Ty.subst_var]

theorem subst_specialize (σ : Scheme) (ρ θ η : TyVar → Ty) :
    (σ.specialize ρ θ).subst η = σ.specialize (fun v => (ρ v).subst η) fun v => (θ v).subst η := by
  rw [specialize, Ty.subst_subst]
  refine Ty.subst_congr fun v _ => ?_
  split <;> rfl

theorem subst_of_isMono (h : σ.isMono = true) (θ : TyVar → Ty) :
    σ.subst θ = mono (σ.ty.subst θ) := by
  have hv : σ.vars = [] := List.isEmpty_iff.1 h
  simp [subst, hv, mono]

/-- Where nothing can be captured, the instances after substituting are the ways to specialize. -/
theorem instance_subst (h : σ.isMono = true ∨ σ.Closed) :
    (σ.subst θ).Instance t ↔ ∃ ρ, t = σ.specialize ρ θ := by
  rcases h with hm | hc
  · have hv : σ.vars = [] := List.isEmpty_iff.1 hm
    rw [subst_of_isMono hm, instance_mono]
    simp only [specialize, hv, List.not_mem_nil, if_false]
    exact ⟨fun h => ⟨.var, h⟩, fun h => h.choose_spec⟩
  · rw [hc.subst_eq]
    exact exists_congr fun ρ => by rw [hc.specialize_eq]

end Scheme

inductive HasType (p : Program) : Env → ExprId → Ty → Prop where
  | bool {Γ : Env} {id : ExprId} {b : Bool} (h : p.table.get id = .ok (.bool b)) :
    HasType p Γ id .bool
  | int {Γ : Env} {id : ExprId} {i : Int} (h : p.table.get id = .ok (.int i)) :
    HasType p Γ id .int
  | float {Γ : Env} {id : ExprId} {bits : UInt64} (h : p.table.get id = .ok (.float bits)) :
    HasType p Γ id .float
  | str {Γ : Env} {id : ExprId} {s : Name} (h : p.table.get id = .ok (.str s)) :
    HasType p Γ id .str
  | ident {Γ : Env} {id : ExprId} {x : Name} {σ : Scheme} {t : Ty}
    (h : p.table.get id = .ok (.ident x)) (hx : Γ[x]? = some σ) (ht : σ.Instance t) :
    HasType p Γ id t
  | lambda {Γ : Env} {id body : ExprId} {x : Name} {a b : Ty}
    (h : p.table.get id = .ok (.lambda x body)) (hb : HasType p (Γ.insert x (.mono a)) body b) :
    HasType p Γ id (.fn a b)
  | apply {Γ : Env} {id func arg : ExprId} {a b : Ty}
    (h : p.table.get id = .ok (.apply func arg)) (hf : HasType p Γ func (.fn a b))
    (ha : HasType p Γ arg a) :
    HasType p Γ id b
  | letIn {Γ : Env} {id value body : ExprId} {x : Name} {a b : Ty}
    (h : p.table.get id = .ok (.letIn x value body)) (hv : HasType p Γ value a)
    (hb : HasType p (Γ.insert x (Γ.generalize a)) body b) :
    HasType p Γ id b
  | ternary {Γ : Env} {id cond thenBranch elseBranch : ExprId} {t : Ty}
    (h : p.table.get id = .ok (.ternary cond thenBranch elseBranch)) (hc : HasType p Γ cond .bool)
    (ht : HasType p Γ thenBranch t) (he : HasType p Γ elseBranch t) :
    HasType p Γ id t
  | tuple {Γ : Env} {id : ExprId} {r : ExprRange} {ids : List ExprId} {ts : List Ty}
    (h : p.table.get id = .ok (.tuple r)) (hl : p.table.getList r = .ok ids)
    (hlen : ids.length = ts.length) (hts : ∀ b ∈ ids.zip ts, HasType p Γ b.1 b.2) :
    HasType p Γ id (.tuple ts)
  | member {Γ : Env} {id receiver : ExprId} {m n : Name} {σ : Scheme} {t u : Ty}
    (h : p.table.get id = .ok (.member receiver m)) (hr : HasType p Γ receiver t)
    (hn : t.nominalName? = some n) (hm : p.declarations.member? n m = some σ) (hu : σ.Instance u) :
    HasType p Γ id u

namespace HasType

def Elements (p : Program) (Γ : Env) (ids : List ExprId) (ts : List Ty) : Prop :=
  List.Forall₂ (HasType p Γ) ids ts

/-- What has to hold for an expression of a given form to have a type. -/
def Node (p : Program) (Γ : Env) : Expr → Ty → Prop
  | .bool _, t => t = .bool
  | .int _, t => t = .int
  | .float _, t => t = .float
  | .str _, t => t = .str
  | .ident x, t => ∃ σ, Γ[x]? = some σ ∧ σ.Instance t
  | .lambda x body, t => ∃ a b, t = .fn a b ∧ HasType p (Γ.insert x (.mono a)) body b
  | .apply func arg, t => ∃ a, HasType p Γ func (.fn a t) ∧ HasType p Γ arg a
  | .letIn x value body, t =>
    ∃ a, HasType p Γ value a ∧ HasType p (Γ.insert x (Γ.generalize a)) body t
  | .ternary c th el, t => HasType p Γ c .bool ∧ HasType p Γ th t ∧ HasType p Γ el t
  | .tuple r, t => ∃ ids ts, p.table.getList r = .ok ids ∧ t = .tuple ts ∧ Elements p Γ ids ts
  | .member receiver m, t => ∃ u n σ, HasType p Γ receiver u ∧ u.nominalName? = some n ∧
      p.declarations.member? n m = some σ ∧ σ.Instance t

variable {p : Program} {Γ : Env} {id : ExprId} {e : Expr} {t : Ty}

theorem elements_iff {ids : List ExprId} {ts : List Ty} :
    Elements p Γ ids ts ↔ ids.length = ts.length ∧ ∀ b ∈ ids.zip ts, HasType p Γ b.1 b.2 := by
  rw [Elements, List.forall₂_iff_zip]
  exact and_congr_right fun _ => ⟨fun h b hb => h hb, fun h _ _ hb => h _ hb⟩

theorem iff_node (he : p.table.get id = .ok e) : HasType p Γ id t ↔ Node p Γ e t := by
  constructor
  · intro h
    cases h with
    | bool h => exact (Except.ok.inj (he.symm.trans h)) ▸ rfl
    | int h => exact (Except.ok.inj (he.symm.trans h)) ▸ rfl
    | float h => exact (Except.ok.inj (he.symm.trans h)) ▸ rfl
    | str h => exact (Except.ok.inj (he.symm.trans h)) ▸ rfl
    | ident h hx ht => exact (Except.ok.inj (he.symm.trans h)) ▸ ⟨_, hx, ht⟩
    | lambda h hb => exact (Except.ok.inj (he.symm.trans h)) ▸ ⟨_, _, rfl, hb⟩
    | apply h hf ha => exact (Except.ok.inj (he.symm.trans h)) ▸ ⟨_, hf, ha⟩
    | letIn h hv hb => exact (Except.ok.inj (he.symm.trans h)) ▸ ⟨_, hv, hb⟩
    | ternary h hc ht he' => exact (Except.ok.inj (he.symm.trans h)) ▸ ⟨hc, ht, he'⟩
    | tuple h hl hlen hts =>
      exact (Except.ok.inj (he.symm.trans h)) ▸ ⟨_, _, hl, rfl, elements_iff.2 ⟨hlen, hts⟩⟩
    | member h hr hn hm hu => exact (Except.ok.inj (he.symm.trans h)) ▸ ⟨_, _, _, hr, hn, hm, hu⟩
  · intro h
    cases e with
    | bool b => exact h ▸ .bool he
    | int i => exact h ▸ .int he
    | float bits => exact h ▸ .float he
    | str s => exact h ▸ .str he
    | ident x =>
      obtain ⟨σ, hx, ht⟩ := h
      exact .ident he hx ht
    | lambda x body =>
      obtain ⟨a, b, rfl, hb⟩ := h
      exact .lambda he hb
    | apply func arg =>
      obtain ⟨a, hf, ha⟩ := h
      exact .apply he hf ha
    | letIn x value body =>
      obtain ⟨a, hv, hb⟩ := h
      exact .letIn he hv hb
    | ternary c th el => exact .ternary he h.1 h.2.1 h.2.2
    | tuple r =>
      obtain ⟨ids, ts, hl, rfl, hts⟩ := h
      obtain ⟨hlen, hts⟩ := elements_iff.1 hts
      exact .tuple he hl hlen hts
    | member receiver m =>
      obtain ⟨u, n, σ, hr, hn, hm, ht⟩ := h
      exact .member he hr hn hm ht

end HasType
end TypeInference

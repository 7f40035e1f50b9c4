import TypeInference.Proofs.Inference.Locality
import TypeInference.Proofs.Renaming.Runs

/-! Definitions in stages. A checker that takes over the environment which another one has left
starts its supply anew, above the free variables of the environment. From there on it does what the
other would have done, with lower variables. The one thing that it may get wrong are schemes that
quantify a variable which it hands out again, and these only if they have free variables as well. -/
namespace TypeInference

def TyVar.shiftFrom (n k : Nat) (v : TyVar) : TyVar := if v.id < n then v else ⟨v.id + k⟩

theorem TyVar.shiftFrom_injective (n k : Nat) : Function.Injective (shiftFrom n k) := by
  rintro ⟨v⟩ ⟨w⟩ h
  simp only [shiftFrom] at h
  split at h <;> split at h <;> simp only [TyVar.mk.injEq] at h ⊢ <;> omega

theorem Taken.shiftFrom_eq {n k : Nat} {v : TyVar} (h : Taken n v) (hmax : n + k ≤ TyVar.maxId) :
    v.shiftFrom n k = v := by
  by_cases hn : n < TyVar.maxId
  · exact if_pos (h hn)
  · obtain rfl : k = 0 := by omega
    exact ite_self v

/-- What a supply at `n` hands out corresponds to what is handed out by one that is `k` ahead. All
other variables correspond to themselves, and any may be live. -/
def Correspondence.shifted {d : Declarations} {n k : Nat} (hd : ∀ v ∈ d.freeVars, Taken n v)
    (hmax : n + k ≤ TyVar.maxId) : Correspondence d where
  map := TyVar.shiftFrom n k
  injective := TyVar.shiftFrom_injective n k
  live := fun _ => True
  base := n
  shift := k
  map_new _ hm := if_neg (Nat.not_lt.2 hm)
  live_new _ _ := trivial
  map_declared v hv := (hd v hv).shiftFrom_eq hmax
  live_declared _ _ := trivial

/-- A scheme with free variables quantifies no variable from `n` on. -/
def Env.Reserved (n : Nat) (env : Env) : Prop :=
  ∀ (x : Name) (σ : Scheme), env[x]? = some σ → ¬σ.Closed → ∀ v ∈ σ.vars, v.id < n

namespace Program

variable {p : Program} {env env₁ Γ Δ : Env} {ds ds₁ ds₂ : List (Name × ExprId)} {s s₁ : State}
    {e : Failure}

theorem envOf_ok : p.envOf env ds = .ok Γ ↔
    ∃ s, p.defineAll ds (p.start env) = .ok () s ∧ s.env = Γ := by
  rw [envOf]
  cases p.defineAll ds (p.start env) <;> simp

theorem envOf_error : p.envOf env ds = .error e ↔
    ∃ s, p.defineAll ds (p.start env) = .error e s := by
  rw [envOf]
  cases p.defineAll ds (p.start env) <;> simp

theorem defineAll_append (h : p.defineAll ds₁ s = .ok () s₁) :
    p.defineAll (ds₁ ++ ds₂) s = p.defineAll ds₂ s₁ := by
  induction ds₁ generalizing s with
  | nil =>
    obtain ⟨-, rfl⟩ := Infer.pure_ok.1 h
    rfl
  | cons b ds ih =>
    obtain ⟨σ, s', hdef, hrest⟩ := Infer.bind_ok.1 h
    rw [← ih hrest]
    exact Infer.bind_of_ok hdef

theorem defineAll_supplied (hs : s.Supplied p.declarations) (h : p.defineAll ds s = .ok () s₁) :
    s₁.Supplied p.declarations := by
  induction ds generalizing s with
  | nil =>
    obtain ⟨-, rfl⟩ := Infer.pure_ok.1 h
    exact hs
  | cons b ds ih =>
    obtain ⟨σ, s', hdef, hrest⟩ := Infer.bind_ok.1 h
    exact ih (define_supplied hs hdef) hrest

/-- A new checker for the environment of a state is linked to the state by a correspondence that
leaves the free variables of the environment alone. If their supplies are at the same variable, the
schemes may be any. -/
theorem start_linked_fixing (hs : s.Supplied p.declarations)
    (hcap : s.next = (p.start s.env).next ∨ s.env.Reserved (p.start s.env).next) :
    ∃ κ : Correspondence p.declarations, κ.Linked (p.start s.env).beginRun s.beginRun ∧
      ∀ v ∈ s.env.freeVars, κ.map v = v := by
  obtain ⟨k, hk⟩ := Nat.exists_eq_add_of_le (p.next_start_le hs.taken)
  have hmax : (p.start s.env).next + k ≤ TyVar.maxId := hk ▸ hs.next_le
  have hfix : ∀ v ∈ s.env.freeVars, v.shiftFrom (p.start s.env).next k = v := fun v hv =>
    (p.taken_start (.inl hv)).shiftFrom_eq hmax
  refine ⟨.shifted (fun v hv => p.taken_start (.inr hv)) hmax,
    .ofEnv (Nat.le_refl _) hk fun x => ?_, hfix⟩
  change Option.Rel _ s.env[x]? s.env[x]?
  cases hx : s.env[x]? with
  | none => exact .none
  | some σ =>
    refine .some ?_
    by_cases hc : σ.Closed
    · exact ⟨hc.matches_self _, .inr (.inl hc), fun _ _ => trivial⟩
    · have hvars : ∀ v ∈ σ.vars, v.shiftFrom (p.start s.env).next k = v := by
        intro v hv
        rcases hcap with hnext | hcap
        · obtain rfl : k = 0 := by omega
          exact ite_self v
        · exact if_pos (hcap x σ hx hc v hv)
      have hocc : ∀ v ∈ σ.ty.occurrences, v.shiftFrom (p.start s.env).next k = v := by
        intro v hv
        by_cases hb : v ∈ σ.vars
        · exact hvars v hb
        · exact hfix v (Env.mem_freeVars.2 ⟨x, σ, hx, Scheme.mem_freeVars.2 ⟨hv, hb⟩⟩)
      have hsame : σ.rename (TyVar.shiftFrom (p.start s.env).next k) = σ := by
        rw [Scheme.rename, Ty.rename_eq_self hocc, List.map_congr_left hvars, List.map_id']
      exact ⟨Scheme.matches_self fun v hv => hocc v (Scheme.mem_freeVars.1 hv).1, .inl hsame.symm,
        fun _ _ => trivial⟩

theorem start_linked (hs : s.Supplied p.declarations) (hcap : s.env.Reserved (p.start s.env).next) :
    ∃ κ : Correspondence p.declarations, κ.Linked (p.start s.env).beginRun s.beginRun := by
  obtain ⟨κ, hlinked, -⟩ := start_linked_fixing hs (.inr hcap)
  exact ⟨κ, hlinked⟩

/-- Definitions may be checked in stages. Assume that no scheme which the first stage leaves with
free variables quantifies a variable at or above the counter that the second stage starts at,
whether or not the second stage gets so far, and that checking all in one go does not run out of
variables. Then the second stage succeeds exactly if the whole does. The environments then agree up
to one renaming of free variables and, scheme by scheme, the choice of the quantified ones. -/
theorem envOf_append (h₁ : p.envOf env ds₁ = .ok env₁) (hcap : env₁.Reserved (p.start env₁).next)
    (hroom : p.envOf env (ds₁ ++ ds₂) ≠ .error (.fault .overflow)) :
    ((∃ Γ, p.envOf env₁ ds₂ = .ok Γ) ↔ ∃ Δ, p.envOf env (ds₁ ++ ds₂) = .ok Δ) ∧
      ∀ Γ Δ, p.envOf env₁ ds₂ = .ok Γ → p.envOf env (ds₁ ++ ds₂) = .ok Δ →
        ∃ ρ : TyVar → TyVar, Function.Injective ρ ∧
          ∀ x : Name, Option.Rel (Scheme.Matches ρ) Γ[x]? Δ[x]? := by
  obtain ⟨s₁, hs₁, rfl⟩ := envOf_ok.1 h₁
  obtain ⟨κ, hlinked⟩ := start_linked (defineAll_supplied (p.start_supplied env) hs₁) hcap
  have hwhole : p.defineAll (ds₁ ++ ds₂) (p.start env) = p.defineAll ds₂ s₁ := defineAll_append hs₁
  rcases defineAll_agrees ds₂ hlinked
    with ⟨t, t', ht, ht', henv⟩ | ⟨e, t, t', ht, ht'⟩ | ⟨-, t', ht'⟩
  · have hΓ : p.envOf s₁.env ds₂ = .ok t.env := envOf_ok.2 ⟨t, ht, rfl⟩
    have hΔ : p.envOf env (ds₁ ++ ds₂) = .ok t'.env := envOf_ok.2 ⟨t', hwhole.trans ht', rfl⟩
    refine ⟨⟨fun _ => ⟨_, hΔ⟩, fun _ => ⟨_, hΓ⟩⟩, fun Γ Δ h h' => ⟨κ.map, κ.injective, fun x => ?_⟩⟩
    obtain rfl := Except.ok.inj (hΓ.symm.trans h)
    obtain rfl := Except.ok.inj (hΔ.symm.trans h')
    rcases henv.lookup x with ⟨σ, σ', hx, hx', hσ⟩ | ⟨hx, hx'⟩ <;> rw [hx, hx']
    · exact .some hσ.matched
    · exact .none
  · have hΓ : p.envOf s₁.env ds₂ = .error e := envOf_error.2 ⟨t, ht⟩
    have hΔ : p.envOf env (ds₁ ++ ds₂) = .error (e.rename κ.map) :=
      envOf_error.2 ⟨t', hwhole.trans ht'⟩
    simp [hΓ, hΔ]
  · exact absurd (envOf_error.2 ⟨t', hwhole.trans ht'⟩) hroom

theorem bind_eq_ok {α β : Type} {r : Except Failure α} {f : α → Except Failure β} {b : β} :
    (r >>= f) = .ok b ↔ ∃ a, r = .ok a ∧ f a = .ok b := by
  change Except.bind r f = .ok b ↔ _
  cases r <;> simp [Except.bind]

/-- `λ y, x`, `λ y, x y`, `λ y, y` and `f`. -/
def stagedProgram : Program where
  table := ⟨#[.ident ⟨5⟩, .lambda ⟨10⟩ ⟨0⟩, .ident ⟨10⟩, .apply ⟨0⟩ ⟨2⟩, .lambda ⟨10⟩ ⟨3⟩,
    .lambda ⟨10⟩ ⟨2⟩, .ident ⟨6⟩], #[]⟩
  declarations := ∅

/-- The first stage leaves a scheme for `f` with free variables that are above the one it
quantifies. The second stage hands out a variable that the first has used. -/
theorem envOf_append_staged : ∃ env₁ : Env,
    stagedProgram.envOf (.unknown ⟨5⟩ ⟨0⟩) [(⟨6⟩, ⟨1⟩), (⟨7⟩, ⟨4⟩), (⟨8⟩, ⟨5⟩)] = .ok env₁ ∧
    env₁[(⟨6⟩ : Name)]? = some ⟨[⟨1⟩], .fn (.var ⟨1⟩) (.fn (.var ⟨2⟩) (.var ⟨3⟩))⟩ ∧
    env₁.Reserved (stagedProgram.start env₁).next ∧ ∃ Γ Δ : Env,
      stagedProgram.envOf env₁ [(⟨9⟩, ⟨6⟩)] = .ok Γ ∧
      stagedProgram.envOf (.unknown ⟨5⟩ ⟨0⟩)
        ([(⟨6⟩, ⟨1⟩), (⟨7⟩, ⟨4⟩), (⟨8⟩, ⟨5⟩)] ++ [(⟨9⟩, ⟨6⟩)]) = .ok Δ ∧
      Γ[(⟨9⟩ : Name)]? = some ⟨[⟨4⟩], .fn (.var ⟨4⟩) (.fn (.var ⟨2⟩) (.var ⟨3⟩))⟩ ∧
      Δ[(⟨9⟩ : Name)]? = some ⟨[⟨5⟩], .fn (.var ⟨5⟩) (.fn (.var ⟨2⟩) (.var ⟨3⟩))⟩ ∧
      ∃ ρ : TyVar → TyVar, Function.Injective ρ ∧
        ∀ x : Name, Option.Rel (Scheme.Matches ρ) Γ[x]? Δ[x]? := by
  have hrun : (do
      let env₁ ← stagedProgram.envOf (.unknown ⟨5⟩ ⟨0⟩) [(⟨6⟩, ⟨1⟩), (⟨7⟩, ⟨4⟩), (⟨8⟩, ⟨5⟩)]
      let Γ ← stagedProgram.envOf env₁ [(⟨9⟩, ⟨6⟩)]
      let Δ ← stagedProgram.envOf (.unknown ⟨5⟩ ⟨0⟩)
        ([(⟨6⟩, ⟨1⟩), (⟨7⟩, ⟨4⟩), (⟨8⟩, ⟨5⟩)] ++ [(⟨9⟩, ⟨6⟩)])
      return ((env₁.toList, (stagedProgram.start env₁).next), Γ[(⟨9⟩ : Name)]?, Δ[(⟨9⟩ : Name)]?) :
        Except Failure ((List (Name × Scheme) × Nat) × Option Scheme × Option Scheme)) =
      .ok (([(⟨5⟩, ⟨[], .fn (.var ⟨2⟩) (.var ⟨3⟩)⟩),
        (⟨6⟩, ⟨[⟨1⟩], .fn (.var ⟨1⟩) (.fn (.var ⟨2⟩) (.var ⟨3⟩))⟩),
        (⟨7⟩, ⟨[], .fn (.var ⟨2⟩) (.var ⟨3⟩)⟩), (⟨8⟩, ⟨[⟨4⟩], .fn (.var ⟨4⟩) (.var ⟨4⟩)⟩)], 4),
        some ⟨[⟨4⟩], .fn (.var ⟨4⟩) (.fn (.var ⟨2⟩) (.var ⟨3⟩))⟩,
        some ⟨[⟨5⟩], .fn (.var ⟨5⟩) (.fn (.var ⟨2⟩) (.var ⟨3⟩))⟩) := by
    simp (disch := decide) only [envOf, defineAll_eq_of_nested (p := stagedProgram) (n := 3)]
    cbv
  obtain ⟨env₁, h₁, hrun⟩ := bind_eq_ok.1 hrun
  obtain ⟨Γ, hΓ, hrun⟩ := bind_eq_ok.1 hrun
  obtain ⟨Δ, hΔ, hrun⟩ := bind_eq_ok.1 hrun
  obtain ⟨hfirst, hsecond⟩ := Prod.mk.inj (Except.ok.inj hrun)
  obtain ⟨hlist, hnext⟩ := Prod.mk.inj hfirst
  obtain ⟨hΓ9, hΔ9⟩ := Prod.mk.inj hsecond
  have hf : env₁[(⟨6⟩ : Name)]? = some ⟨[⟨1⟩], .fn (.var ⟨1⟩) (.fn (.var ⟨2⟩) (.var ⟨3⟩))⟩ := by
    rw [← Std.ExtTreeMap.mem_toList_iff_getElem?_eq_some, hlist]
    simp
  have hcap : env₁.Reserved (stagedProgram.start env₁).next := by
    intro x σ hx hσ v hv
    rw [← Std.ExtTreeMap.mem_toList_iff_getElem?_eq_some, hlist] at hx
    simp only [List.mem_cons, Prod.mk.injEq, List.not_mem_nil, or_false] at hx
    rw [hnext]
    rcases hx with ⟨-, rfl⟩ | ⟨-, rfl⟩ | ⟨-, rfl⟩ | ⟨-, rfl⟩
    · cases hv
    · obtain rfl : v = ⟨1⟩ := by simpa using hv
      decide
    · cases hv
    · exact absurd (by cbv) hσ
  have hroom : stagedProgram.envOf (.unknown ⟨5⟩ ⟨0⟩)
      ([(⟨6⟩, ⟨1⟩), (⟨7⟩, ⟨4⟩), (⟨8⟩, ⟨5⟩)] ++ [(⟨9⟩, ⟨6⟩)]) ≠ .error (.fault .overflow) := by
    rw [hΔ]
    simp
  exact ⟨env₁, h₁, hf, hcap, Γ, Δ, hΓ, hΔ, hΓ9, hΔ9, (envOf_append h₁ hcap hroom).2 Γ Δ hΓ hΔ⟩

/-- `λ y, x`, `0`, `λ z, f 0 z` and `(g 0, g true)`. -/
def recapturingProgram : Program where
  table := ⟨#[.ident ⟨5⟩, .lambda ⟨10⟩ ⟨0⟩, .int 0, .ident ⟨6⟩, .apply ⟨3⟩ ⟨2⟩, .ident ⟨10⟩,
    .apply ⟨4⟩ ⟨5⟩, .lambda ⟨10⟩ ⟨6⟩, .ident ⟨7⟩, .bool true, .apply ⟨8⟩ ⟨2⟩, .apply ⟨8⟩ ⟨9⟩,
    .tuple ⟨0, 2⟩], #[⟨10⟩, ⟨11⟩]⟩
  declarations := ∅

def scarceEnv : Env := .unknown ⟨5⟩ ⟨4294967293⟩

/-- What fails without the assumptions, and with more than the conclusion. Two stages that define an
identity each quantify the same variable, so no one renaming takes their schemes to those of a
single stage. A second stage that hands out a variable which the scheme of `f` quantifies gives `g`
too general a type, and accepts a use of it that a single stage rejects. And two stages get by with
a variable that a single one does not have. -/
theorem stages_differ :
    (∃ env₁ Γ Δ : Env, stagedProgram.envOf ∅ [(⟨6⟩, ⟨5⟩)] = .ok env₁ ∧
      stagedProgram.envOf env₁ [(⟨7⟩, ⟨5⟩)] = .ok Γ ∧
      stagedProgram.envOf ∅ ([(⟨6⟩, ⟨5⟩)] ++ [(⟨7⟩, ⟨5⟩)]) = .ok Δ ∧
      ¬∃ ρ : TyVar → TyVar, ∀ x : Name, Δ[x]? = Γ[x]?.map (Scheme.rename ρ)) ∧
    (∃ env₁ Γ : Env,
      recapturingProgram.envOf (.unknown ⟨5⟩ ⟨0⟩) [(⟨6⟩, ⟨1⟩), (⟨5⟩, ⟨2⟩)] = .ok env₁ ∧
      recapturingProgram.envOf env₁ [(⟨7⟩, ⟨7⟩), (⟨8⟩, ⟨12⟩)] = .ok Γ ∧
      recapturingProgram.envOf (.unknown ⟨5⟩ ⟨0⟩)
          ([(⟨6⟩, ⟨1⟩), (⟨5⟩, ⟨2⟩)] ++ [(⟨7⟩, ⟨7⟩), (⟨8⟩, ⟨12⟩)]) =
        .error (.type (.conflict (.mismatch .int .bool)))) ∧
    ∃ env₁ Γ : Env, stagedProgram.envOf scarceEnv [(⟨6⟩, ⟨5⟩)] = .ok env₁ ∧
      stagedProgram.envOf env₁ [(⟨7⟩, ⟨5⟩)] = .ok Γ ∧
      stagedProgram.envOf scarceEnv ([(⟨6⟩, ⟨5⟩)] ++ [(⟨7⟩, ⟨5⟩)]) = .error (.fault .overflow) := by
  refine ⟨?_, ?_, ?_⟩
  · have hrun : (do
        let env₁ ← stagedProgram.envOf ∅ [(⟨6⟩, ⟨5⟩)]
        let Γ ← stagedProgram.envOf env₁ [(⟨7⟩, ⟨5⟩)]
        let Δ ← stagedProgram.envOf ∅ ([(⟨6⟩, ⟨5⟩)] ++ [(⟨7⟩, ⟨5⟩)])
        return ((Γ[(⟨6⟩ : Name)]?, Γ[(⟨7⟩ : Name)]?), Δ[(⟨6⟩ : Name)]?, Δ[(⟨7⟩ : Name)]?) :
          Except Failure ((Option Scheme × Option Scheme) × Option Scheme × Option Scheme)) =
        .ok ((some ⟨[⟨0⟩], .fn (.var ⟨0⟩) (.var ⟨0⟩)⟩, some ⟨[⟨0⟩], .fn (.var ⟨0⟩) (.var ⟨0⟩)⟩),
          some ⟨[⟨0⟩], .fn (.var ⟨0⟩) (.var ⟨0⟩)⟩, some ⟨[⟨1⟩], .fn (.var ⟨1⟩) (.var ⟨1⟩)⟩) := by
      simp (disch := decide) only [envOf, defineAll_eq_of_nested (p := stagedProgram) (n := 2)]
      cbv
    obtain ⟨env₁, h₁, hrun⟩ := bind_eq_ok.1 hrun
    obtain ⟨Γ, hΓ, hrun⟩ := bind_eq_ok.1 hrun
    obtain ⟨Δ, hΔ, hrun⟩ := bind_eq_ok.1 hrun
    obtain ⟨hfirst, hsecond⟩ := Prod.mk.inj (Except.ok.inj hrun)
    obtain ⟨hΓ6, hΓ7⟩ := Prod.mk.inj hfirst
    obtain ⟨hΔ6, hΔ7⟩ := Prod.mk.inj hsecond
    refine ⟨env₁, Γ, Δ, h₁, hΓ, hΔ, ?_⟩
    rintro ⟨ρ, hρ⟩
    have h6 : (⟨0⟩ : TyVar) = ρ ⟨0⟩ := by
      have := hρ ⟨6⟩
      rw [hΓ6, hΔ6] at this
      simpa [Scheme.rename] using this
    have h7 : (⟨1⟩ : TyVar) = ρ ⟨0⟩ := by
      have := hρ ⟨7⟩
      rw [hΓ7, hΔ7] at this
      simpa [Scheme.rename] using this
    exact absurd (h6.trans h7.symm) (by decide)
  · have hrun : (do
        let env₁ ← recapturingProgram.envOf (.unknown ⟨5⟩ ⟨0⟩) [(⟨6⟩, ⟨1⟩), (⟨5⟩, ⟨2⟩)]
        let Γ ← recapturingProgram.envOf env₁ [(⟨7⟩, ⟨7⟩), (⟨8⟩, ⟨12⟩)]
        return Γ[(⟨8⟩ : Name)]? : Except Failure (Option Scheme)) =
        .ok (some ⟨[], .tuple [.var ⟨8⟩, .var ⟨8⟩]⟩) := by
      simp (disch := decide) only [envOf, defineAll_eq_of_nested (p := recapturingProgram) (n := 4)]
      cbv
    have hwhole : recapturingProgram.envOf (.unknown ⟨5⟩ ⟨0⟩)
        ([(⟨6⟩, ⟨1⟩), (⟨5⟩, ⟨2⟩)] ++ [(⟨7⟩, ⟨7⟩), (⟨8⟩, ⟨12⟩)]) =
        .error (.type (.conflict (.mismatch .int .bool))) := by
      simp (disch := decide) only [envOf, defineAll_eq_of_nested (p := recapturingProgram) (n := 4)]
      cbv
    obtain ⟨env₁, h₁, hrun⟩ := bind_eq_ok.1 hrun
    obtain ⟨Γ, hΓ, -⟩ := bind_eq_ok.1 hrun
    exact ⟨env₁, Γ, h₁, hΓ, hwhole⟩
  · have hrun : (do
        let env₁ ← stagedProgram.envOf scarceEnv [(⟨6⟩, ⟨5⟩)]
        let Γ ← stagedProgram.envOf env₁ [(⟨7⟩, ⟨5⟩)]
        return Γ[(⟨7⟩ : Name)]? : Except Failure (Option Scheme)) =
        .ok (some ⟨[⟨4294967294⟩], .fn (.var ⟨4294967294⟩) (.var ⟨4294967294⟩)⟩) := by
      simp (disch := decide) only [envOf, defineAll_eq_of_nested (p := stagedProgram) (n := 2)]
      cbv
    have hwhole : stagedProgram.envOf scarceEnv ([(⟨6⟩, ⟨5⟩)] ++ [(⟨7⟩, ⟨5⟩)]) =
        .error (.fault .overflow) := by
      simp (disch := decide) only [envOf, defineAll_eq_of_nested (p := stagedProgram) (n := 2)]
      cbv
    obtain ⟨env₁, h₁, hrun⟩ := bind_eq_ok.1 hrun
    obtain ⟨Γ, hΓ, -⟩ := bind_eq_ok.1 hrun
    exact ⟨env₁, Γ, h₁, hΓ, hwhole⟩

end Program
end TypeInference

import TypeInference.Proofs.Inference.Invariant
import TypeInference.Proofs.Renaming.Unification

/-! Schemes up to the choice of variables. What a scheme means does not depend on the names of its
quantified variables, so two schemes match if their free variables are renamed by a given map and
the quantified ones in any way that keeps them apart. Environments are compared scheme by scheme. -/
namespace TypeInference

open Function (Injective)

namespace Scheme

def rename (ρ : TyVar → TyVar) (σ : Scheme) : Scheme := ⟨σ.vars.map ρ, σ.ty.rename ρ⟩

/-- The second scheme is the first with its free variables renamed by `ρ` and its quantified
variables renamed one to one, such that no free variable becomes quantified. -/
def Matches (ρ : TyVar → TyVar) (σ σ' : Scheme) : Prop :=
  ∃ f : TyVar → TyVar, (∀ v ∈ σ.vars, ∀ w ∈ σ.vars, f v = f w → v = w) ∧ σ'.vars = σ.vars.map f ∧
    σ'.ty = σ.specialize (fun v => .var (f v)) (fun v => .var (ρ v)) ∧
    ∀ v ∈ σ.freeVars, ρ v ∉ σ'.vars

variable {ρ : TyVar → TyVar} {σ σ' : Scheme} {v : TyVar}

theorem matches_rename (hρ : Injective ρ) (σ : Scheme) : σ.Matches ρ (σ.rename ρ) := by
  refine ⟨ρ, fun v _ w _ h => hρ h, rfl, ?_, fun v hv => ?_⟩
  · rw [specialize, rename, Ty.rename]
    simp only [ite_self]
  · rw [rename, List.mem_map_of_injective hρ]
    exact (mem_freeVars.1 hv).2

theorem matches_self (h : ∀ v ∈ σ.freeVars, ρ v = v) : σ.Matches ρ σ := by
  refine ⟨fun v => v, fun v _ w _ h => h, by simp, ?_, fun v hv => ?_⟩
  · rw [specialize_congr (η := .var) fun v hv => congrArg Ty.var (h v hv), specialize]
    simp only [ite_self, Ty.subst_var]
  · rw [h v hv]
    exact (mem_freeVars.1 hv).2

theorem Closed.matches_self (h : σ.Closed) (ρ : TyVar → TyVar) : σ.Matches ρ σ :=
  Scheme.matches_self fun v hv => absurd hv (h.not_mem_freeVars v)

theorem Matches.length_eq (h : σ.Matches ρ σ') : σ'.vars.length = σ.vars.length := by
  obtain ⟨f, -, hvars, -⟩ := h
  rw [hvars, List.length_map]

theorem Matches.isMono_eq (h : σ.Matches ρ σ') : σ'.isMono = σ.isMono := by
  obtain ⟨f, -, hvars, -⟩ := h
  rw [isMono, isMono, hvars, List.isEmpty_map]

theorem Matches.mem_freeVars_iff (h : σ.Matches ρ σ') :
    v ∈ σ'.freeVars ↔ ∃ u ∈ σ.freeVars, ρ u = v := by
  obtain ⟨f, -, hvars, hty, hfree⟩ := h
  rw [mem_freeVars, hty, specialize, Ty.mem_occurrences_subst]
  constructor
  · rintro ⟨⟨u, hu, hv⟩, hn⟩
    split at hv
    · next hb =>
      obtain rfl : v = f u := by simpa using hv
      exact absurd (hvars ▸ List.mem_map_of_mem hb) hn
    · next hb =>
      obtain rfl : v = ρ u := by simpa using hv
      exact ⟨u, mem_freeVars.2 ⟨hu, hb⟩, rfl⟩
  · rintro ⟨u, hu, rfl⟩
    obtain ⟨hocc, hb⟩ := mem_freeVars.1 hu
    exact ⟨⟨u, hocc, by simp [hb]⟩, hfree u hu⟩

theorem Matches.closed_iff (h : σ.Matches ρ σ') : σ'.Closed ↔ σ.Closed := by
  constructor
  · intro hc
    refine List.eq_nil_iff_forall_not_mem.2 fun v hv => ?_
    exact hc.not_mem_freeVars (ρ v) (h.mem_freeVars_iff.2 ⟨v, hv, rfl⟩)
  · intro hc
    refine List.eq_nil_iff_forall_not_mem.2 fun v hv => ?_
    obtain ⟨u, hu, -⟩ := h.mem_freeVars_iff.1 hv
    exact hc.not_mem_freeVars u hu

end Scheme

namespace Substitution

variable {ρ f : TyVar → TyVar} {vs ws : List TyVar} {v : TyVar}

theorem image_relabel_map (hlen : vs.length = ws.length)
    (hf : ∀ v ∈ vs, ∀ w ∈ vs, f v = f w → v = w) (hv : v ∈ vs) :
    (relabel (vs.map f) (ws.map ρ)).image (f v) = ((relabel vs ws).image v).rename ρ := by
  induction vs generalizing ws with
  | nil => cases hv
  | cons a vs ih =>
    cases ws with
    | nil => simp at hlen
    | cons b ws =>
      have hlen : vs.length = ws.length := Nat.succ.inj hlen
      have heq : f a = f v ↔ a = v := ⟨hf a List.mem_cons_self v hv, congrArg f⟩
      have hmem : f a ∈ vs.map f ↔ a ∈ vs := by
        refine ⟨fun h => ?_, List.mem_map_of_mem⟩
        obtain ⟨u, hu, he⟩ := List.mem_map.1 h
        exact hf u (List.mem_cons_of_mem _ hu) a List.mem_cons_self he ▸ hu
      rw [List.map_cons, List.map_cons, image_relabel_cons (by simpa using hlen),
        image_relabel_cons hlen]
      simp only [heq, hmem]
      split
      · rfl
      · next hn =>
        -- the variable occurs later, too, and is relabelled there
        have hv : v ∈ vs := by
          rcases List.mem_cons.1 hv with rfl | hv
          · by_contra h
            exact hn ⟨rfl, h⟩
          · exact hv
        exact ih hlen (fun u hu w hw =>
          hf u (List.mem_cons_of_mem _ hu) w (List.mem_cons_of_mem _ hw)) hv

theorem image_relabel_of_not_mem (hlen : vs.length = ws.length) (hv : v ∉ vs) :
    (relabel vs ws).image v = .var v :=
  image_of_not_mem fun h => hv ((mem_relabel hlen).1 h)

end Substitution

open Substitution in
/-- Matching schemes have the same instances up to the renaming. -/
theorem Scheme.Matches.apply_relabel {ρ : TyVar → TyVar} {σ σ' : Scheme} (h : σ.Matches ρ σ')
    {ws : List TyVar} (hlen : σ.vars.length = ws.length) :
    (relabel σ'.vars (ws.map ρ)).apply σ'.ty = ((relabel σ.vars ws).apply σ.ty).rename ρ := by
  have hlen' : σ'.vars.length = (ws.map ρ).length := by rw [h.length_eq, List.length_map, hlen]
  obtain ⟨f, hf, hvars, hty, hfree⟩ := h
  rw [Substitution.apply, hty, subst_specialize, Substitution.apply, Ty.rename,
    Ty.subst_subst, specialize]
  refine Ty.subst_congr fun v hv => ?_
  split
  · next hb =>
    rw [Ty.subst, hvars]
    exact image_relabel_map hlen hf hb
  · next hb =>
    rw [Ty.subst, image_relabel_of_not_mem hlen' (hfree v (mem_freeVars.2 ⟨hv, hb⟩)),
      image_relabel_of_not_mem hlen hb]
    rfl

/-- How the variables of two runs correspond: their supplies are `shift` apart, and what is handed
out from `base` on is renamed accordingly. Variables that may get into an equation are live. -/
structure Correspondence (d : Declarations) where
  map : TyVar → TyVar
  injective : Injective map
  live : TyVar → Prop
  base : Nat
  shift : Nat
  map_new : ∀ n, base ≤ n → map ⟨n⟩ = ⟨n + shift⟩
  live_new : ∀ n, base ≤ n → live ⟨n⟩
  map_declared : ∀ v ∈ d.freeVars, map v = v
  live_declared : ∀ v ∈ d.freeVars, live v

namespace Correspondence

variable {d : Declarations} (κ : Correspondence d)

/-- The schemes match, and the solution of a run will be applied to both in the same way: they are
renamed throughout, or closed, or neither quantifies a live variable. -/
structure Pairs (σ σ' : Scheme) : Prop where
  matched : σ.Matches κ.map σ'
  safe : σ' = σ.rename κ.map ∨ σ.Closed ∨
    (∀ v ∈ σ.vars, ¬κ.live v) ∧ ∀ v, κ.live v → κ.map v ∉ σ'.vars
  live : ∀ v ∈ σ.freeVars, κ.live v

/-- The environments bind the same names to paired schemes. -/
def PairsEnv (Γ Γ' : Env) : Prop := ∀ x : Name, Option.Rel κ.Pairs Γ[x]? Γ'[x]?

variable {κ} {Γ Γ' : Env} {σ σ' : Scheme} {S S' : Substitution} {v : TyVar}

theorem pairs_rename (hlive : ∀ v ∈ σ.freeVars, κ.live v) : κ.Pairs σ (σ.rename κ.map) :=
  ⟨Scheme.matches_rename κ.injective σ, .inl rfl, hlive⟩

theorem matches_declared {n m : Name} (h : d.member? n m = some σ) :
    σ.Matches κ.map σ ∧ ∀ v ∈ σ.freeVars, κ.live v :=
  ⟨Scheme.matches_self fun v hv => κ.map_declared v (Declarations.mem_freeVars h hv),
    fun v hv => κ.live_declared v (Declarations.mem_freeVars h hv)⟩

theorem rename_apply_eq (hS : S.Renamed κ.map S') (σ : Scheme) :
    S'.applyScheme (σ.rename κ.map) = (S.applyScheme σ).rename κ.map := by
  simp only [Substitution.applyScheme, Scheme.subst, Scheme.rename, Ty.rename, Ty.subst_subst]
  congr 1
  refine Ty.subst_congr fun v _ => ?_
  simp only [Ty.subst, List.mem_map_of_injective κ.injective]
  split
  · rfl
  · exact hS v

/-- Applying corresponding solutions to paired schemes keeps them paired. -/
theorem Pairs.apply (h : κ.Pairs σ σ') (hS : S.Renamed κ.map S')
    (hlive : ∀ v, κ.live v → ∀ w ∈ (S.image v).occurrences, κ.live w) :
    κ.Pairs (S.applyScheme σ) (S'.applyScheme σ') := by
  have hfree : ∀ v ∈ (S.applyScheme σ).freeVars, κ.live v := by
    intro v hv
    obtain ⟨u, hu, hvu⟩ := Substitution.exists_of_mem_freeVars_applyScheme hv
    exact hlive u (h.live u hu) v hvu
  rcases h.safe with rfl | hc | ⟨hvars, hvars'⟩
  · rw [rename_apply_eq hS]
    exact pairs_rename hfree
  · rw [Substitution.applyScheme, Substitution.applyScheme, hc.subst_eq,
      (h.matched.closed_iff.2 hc).subst_eq]
    exact h
  · refine ⟨?_, .inr (.inr ⟨hvars, hvars'⟩), hfree⟩
    obtain ⟨f, hf, hmap, hty, -⟩ := h.matched
    refine ⟨f, hf, hmap, ?_, fun v hv => hvars' v (hfree v hv)⟩
    change σ'.ty.subst _ = _
    rw [hty, Scheme.subst_specialize]
    simp only [Scheme.specialize, Substitution.applyScheme, Scheme.subst, Ty.subst_subst]
    refine Ty.subst_congr fun v hv => ?_
    by_cases hb : v ∈ σ.vars
    · have hfb : f v ∈ σ'.vars := hmap ▸ List.mem_map_of_mem hb
      simp [hb, hfb, Ty.subst]
    · have hl := h.live v (Scheme.mem_freeVars.2 ⟨hv, hb⟩)
      simp only [hb, if_false, Ty.subst, hvars' v hl, hS v]
      refine Ty.subst_congr fun w hw => ?_
      exact (if_neg fun hw' => hvars w hw' (hlive v hl w hw)).symm

namespace PairsEnv

theorem lookup (h : κ.PairsEnv Γ Γ') (x : Name) :
    (∃ σ σ', Γ[x]? = some σ ∧ Γ'[x]? = some σ' ∧ κ.Pairs σ σ') ∨ Γ[x]? = none ∧ Γ'[x]? = none :=
  Env.lookup_rel (h x)

theorem insert (h : κ.PairsEnv Γ Γ') (hσ : κ.Pairs σ σ') (x : Name) :
    κ.PairsEnv (Γ.insert x σ) (Γ'.insert x σ') := Env.insert_rel h hσ x

theorem restore (h : κ.PairsEnv Γ Γ') (x : Name) {o o' : Option Scheme}
    (ho : Option.Rel κ.Pairs o o') :
    κ.PairsEnv (Γ.restore x o) (Γ'.restore x o') := Env.restore_rel h x ho

theorem applyEnv (h : κ.PairsEnv Γ Γ') (hS : S.Renamed κ.map S')
    (hlive : ∀ v, κ.live v → ∀ w ∈ (S.image v).occurrences, κ.live w) :
    κ.PairsEnv (S.applyEnv Γ) (S'.applyEnv Γ') := by
  intro x
  rw [Substitution.getElem?_applyEnv, Substitution.getElem?_applyEnv]
  rcases h.lookup x with ⟨σ, σ', hx, hx', hσ⟩ | ⟨hx, hx'⟩ <;> rw [hx, hx']
  · exact .some (hσ.apply hS hlive)
  · exact .none

theorem mem_freeVars_iff (h : κ.PairsEnv Γ Γ') : κ.map v ∈ Γ'.freeVars ↔ v ∈ Γ.freeVars := by
  rw [Env.mem_freeVars, Env.mem_freeVars]
  refine exists_congr fun x => ?_
  rcases h.lookup x with ⟨σ, σ', hx, hx', hσ⟩ | ⟨hx, hx'⟩ <;> rw [hx, hx']
  · simp only [Option.some.injEq, exists_eq_left', hσ.matched.mem_freeVars_iff]
    constructor
    · rintro ⟨u, hu, he⟩
      exact κ.injective he ▸ hu
    · exact fun hv => ⟨v, hv, rfl⟩
  · simp

theorem generalize_eq (h : κ.PairsEnv Γ Γ') (t : Ty) :
    Γ'.generalize (t.rename κ.map) = (Γ.generalize t).rename κ.map := by
  simp only [Env.generalize, Scheme.rename, Ty.freeVars_rename κ.injective, List.filter_map]
  congr 2
  refine List.filter_congr fun v _ => ?_
  have hmem : κ.map v ∈ Γ'.freeVars ↔ v ∈ Γ.freeVars := h.mem_freeVars_iff
  simpa [Std.ExtTreeSet.contains_iff_mem] using congrArg (!·) (Bool.eq_iff_iff.2 hmem)

end PairsEnv
end Correspondence
end TypeInference

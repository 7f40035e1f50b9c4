import Mathlib
import TypeInference.Substitution

/-! The variables of a type and where they occur. Maps that turn a type into the same type agree on
its variables, and these are listed in the order in which they first occur. So what a substitution
does to a type is decided by what it does to the listed variables. -/
namespace TypeInference
namespace Ty

theorem eq_of_subst_eq {θ η : TyVar → Ty} {t : Ty} (h : t.subst θ = t.subst η) {v : TyVar}
    (hv : v ∈ t.occurrences) : θ v = η v := by
  induction t with
  | var w =>
    obtain rfl : v = w := by simpa using hv
    exact h
  | fn p r ihp ihr =>
    obtain ⟨hp, hr⟩ := Ty.fn.inj h
    rw [occurrences_fn, List.mem_append] at hv
    exact hv.elim (ihp hp) (ihr hr)
  | tuple ts ih =>
    have hts : ts.map (subst θ) = ts.map (subst η) := by simpa [subst] using h
    obtain ⟨t, ht, hv⟩ := List.mem_flatMap.1 (by simpa using hv)
    exact ih t ht (List.map_inj_left.1 hts t ht) hv
  | named n ts ih =>
    have hts : ts.map (subst θ) = ts.map (subst η) := by simpa [subst] using h
    obtain ⟨t, ht, hv⟩ := List.mem_flatMap.1 (by simpa using hv)
    exact ih t ht (List.map_inj_left.1 hts t ht) hv
  | _ => simp at hv

theorem eraseDups_concat (xs : List TyVar) (v : TyVar) :
    (xs ++ [v]).eraseDups = if v ∈ xs then xs.eraseDups else xs.eraseDups ++ [v] := by
  rw [List.eraseDups_append]
  split
  · next h => simp [List.removeAll, h]
  · next h => simp [List.removeAll, List.eraseDups_cons, h]

theorem foldl_collect_eraseDups {ts : List Ty}
    (ih : ∀ t ∈ ts, ∀ xs : List TyVar,
      t.collect xs.eraseDups.reverse = (xs ++ t.occurrences).eraseDups.reverse) (xs : List TyVar) :
    ts.foldl (fun seen t => collect t seen) xs.eraseDups.reverse =
      (xs ++ ts.flatMap occurrences).eraseDups.reverse := by
  induction ts generalizing xs with
  | nil => simp
  | cons t ts ihs =>
    rw [List.foldl_cons, ih t List.mem_cons_self, ihs fun t ht => ih t (List.mem_cons_of_mem _ ht),
      List.flatMap_cons, List.append_assoc]

theorem collect_eraseDups (t : Ty) (xs : List TyVar) :
    t.collect xs.eraseDups.reverse = (xs ++ t.occurrences).eraseDups.reverse := by
  induction t generalizing xs with
  | var v =>
    rw [collect, occurrences_var, eraseDups_concat]
    simp only [List.mem_reverse, List.mem_eraseDups]
    split <;> simp
  | fn p r ihp ihr => rw [collect, ihp, ihr, occurrences_fn, List.append_assoc]
  | tuple ts ih =>
    rw [collect, collectAll_eq, occurrences_tuple]
    exact foldl_collect_eraseDups ih xs
  | named n ts ih =>
    rw [collect, collectAll_eq, occurrences_named]
    exact foldl_collect_eraseDups ih xs
  | _ => simp [collect]

theorem freeVars_eq_eraseDups (t : Ty) : t.freeVars = t.occurrences.eraseDups := by
  have h := t.collect_eraseDups []
  rw [List.eraseDups_nil, List.reverse_nil, List.nil_append] at h
  rw [freeVars, h, List.reverse_reverse]

theorem pairwise_eraseDups (xs : List TyVar) :
    xs.eraseDups.Pairwise fun v w => xs.idxOf v < xs.idxOf w := by
  induction xs using List.reverseRecOn with
  | nil => simp
  | append_singleton xs u ih =>
    have hmem : ∀ v ∈ xs.eraseDups, v ∈ xs := fun v hv => List.mem_eraseDups.1 hv
    have hkeep : ∀ v ∈ xs, (xs ++ [u]).idxOf v = xs.idxOf v := fun v hv => by
      rw [List.idxOf_append, if_pos hv]
    have hold : xs.eraseDups.Pairwise fun v w => (xs ++ [u]).idxOf v < (xs ++ [u]).idxOf w := by
      refine ih.imp_of_mem fun hv hw hlt => ?_
      rwa [hkeep _ (hmem _ hv), hkeep _ (hmem _ hw)]
    rw [eraseDups_concat]
    split
    · exact hold
    · next hu =>
      refine List.pairwise_append.2 ⟨hold, List.pairwise_singleton _ _, fun v hv w hw => ?_⟩
      obtain rfl : w = u := by simpa using hw
      rw [hkeep v (hmem v hv), List.idxOf_append, if_neg hu]
      have hlt := List.idxOf_lt_length_iff.2 (hmem v hv)
      omega

theorem pairwise_freeVars (t : Ty) :
    t.freeVars.Pairwise fun v w => t.occurrences.idxOf v < t.occurrences.idxOf w := by
  rw [freeVars_eq_eraseDups]
  exact pairwise_eraseDups t.occurrences

theorem contains_iff_mem_freeVars {v : TyVar} {t : Ty} : t.contains v = true ↔ v ∈ t.freeVars := by
  rw [contains_iff, mem_freeVars]

theorem contains_subst_iff {θ : TyVar → Ty} {v : TyVar} {t : Ty} :
    (t.subst θ).contains v = true ↔ ∃ u ∈ t.freeVars, (θ u).contains v = true := by
  simp only [contains_iff, mem_occurrences_subst, mem_freeVars]

theorem subst_eq_subst_iff {θ η : TyVar → Ty} {t : Ty} :
    t.subst θ = t.subst η ↔ ∀ u ∈ t.freeVars, θ u = η u := by
  constructor
  · intro h u hu
    exact eq_of_subst_eq h (mem_freeVars.1 hu)
  · intro h
    exact subst_congr fun u hu => h u (mem_freeVars.2 hu)

/-- Listing the variables of a type, testing for one and replacing all of them see the same
occurrences. -/
theorem freeVars_determine_apply (t : Ty) :
    t.freeVars = t.occurrences.eraseDups ∧
    (∀ v, t.contains v = true ↔ v ∈ t.freeVars) ∧
    (∀ (S : Substitution) (v : TyVar),
      (S.apply t).contains v = true ↔ ∃ u ∈ t.freeVars, (S.apply (.var u)).contains v = true) ∧
    ∀ S₁ S₂ : Substitution,
      S₁.apply t = S₂.apply t ↔ ∀ u ∈ t.freeVars, S₁.apply (.var u) = S₂.apply (.var u) := by
  refine ⟨t.freeVars_eq_eraseDups, fun v => contains_iff_mem_freeVars, fun S v => ?_,
    fun S₁ S₂ => ?_⟩
  · exact contains_subst_iff
  · exact subst_eq_subst_iff

end Ty
end TypeInference

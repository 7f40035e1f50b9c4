import TypeInference.Proofs.Renaming.Unification
import TypeInference.Ty.Alpha

/-! A type is aligned with every one-to-one renaming of itself. Along the walk each variable is
paired with its new name, and since different variables have different new names, no pair stands in
the way of another. -/
namespace TypeInference

variable {ρ : TyVar → TyVar} {X : Set TyVar} {ps : Pairing}

def Pairing.Follows (ρ : TyVar → TyVar) (X : Set TyVar) (ps : Pairing) : Prop :=
  ∀ p ∈ ps, p.1 ∈ X ∧ p.2 = ρ p.1

theorem Pairing.Follows.pair (hρ : X.InjOn ρ) (hps : ps.Follows ρ X) {v : TyVar} (hv : v ∈ X) :
    ∃ qs, ps.pair? v (ρ v) = some qs ∧ qs.Follows ρ X := by
  by_cases hmem : (v, ρ v) ∈ ps
  · exact ⟨ps, by rw [pair?, if_pos hmem], hps⟩
  · have hfree : ¬(ps.any fun p => p.1 == v || p.2 == ρ v) = true := by
      intro hany
      obtain ⟨⟨w, u⟩, hp, heq⟩ := List.any_eq_true.1 hany
      obtain ⟨hw, hu⟩ := hps _ hp
      have hwv : w = v := by
        rcases Bool.or_eq_true_iff.1 heq with h | h
        · exact beq_iff_eq.1 h
        · exact hρ hw hv (hu.symm.trans (beq_iff_eq.1 h))
      exact hmem (hwv ▸ hu ▸ hp)
    refine ⟨(v, ρ v) :: ps, by rw [pair?, if_neg hmem, if_neg hfree], ?_⟩
    exact List.forall_mem_cons.2 ⟨⟨hv, rfl⟩, hps⟩

namespace Ty

theorem alignAll_rename {ts : List Ty}
    (ih : ∀ t ∈ ts, ∀ ps : Pairing, ps.Follows ρ X →
      ∃ qs, align? t (t.rename ρ) ps = some qs ∧ qs.Follows ρ X) (hps : ps.Follows ρ X) :
    ∃ qs, alignAll? ts (ts.map (rename ρ)) ps = some qs ∧ qs.Follows ρ X := by
  induction ts generalizing ps with
  | nil => exact ⟨ps, rfl, hps⟩
  | cons t ts ihs =>
    obtain ⟨qs, hqs, hfollows⟩ := ih t List.mem_cons_self ps hps
    obtain ⟨rs, hrs, hfollows⟩ := ihs (fun t ht => ih t (List.mem_cons_of_mem _ ht)) hfollows
    refine ⟨rs, ?_, hfollows⟩
    rw [List.map_cons, alignAll?, hqs, Option.bind_some, hrs]

/-- The walk along a type and its renaming goes through, and the pairs keep following the
renaming. -/
theorem align_rename (hρ : X.InjOn ρ) {t : Ty} (ht : ∀ v ∈ t.occurrences, v ∈ X)
    (hps : ps.Follows ρ X) : ∃ qs, align? t (t.rename ρ) ps = some qs ∧ qs.Follows ρ X := by
  induction t generalizing ps with
  | var v => exact hps.pair hρ (ht v (by simp))
  | fn p r ihp ihr =>
    rw [occurrences_fn, List.forall_mem_append] at ht
    obtain ⟨qs, hqs, hfollows⟩ := ihp ht.1 hps
    obtain ⟨rs, hrs, hfollows⟩ := ihr ht.2 hfollows
    refine ⟨rs, ?_, hfollows⟩
    rw [rename_fn, align?, hqs, Option.bind_some, hrs]
  | tuple ts ih =>
    rw [rename_tuple, align?]
    refine alignAll_rename (fun t hmem ps hps => ih t hmem (fun v hv => ht v ?_) hps) hps
    simpa using ⟨t, hmem, hv⟩
  | named n ts ih =>
    rw [rename_named, align?, if_pos rfl]
    refine alignAll_rename (fun t hmem ps hps => ih t hmem (fun v hv => ht v ?_) hps) hps
    simpa using ⟨t, hmem, hv⟩
  | _ => exact ⟨ps, rfl, hps⟩

/-- A type differs from a renaming that keeps its variables apart in the choice of variables
only. -/
theorem alphaEq_rename {t : Ty} (hρ : Set.InjOn ρ {v | v ∈ t.occurrences}) :
    t.alphaEq (t.rename ρ) = true := by
  have hnil : Pairing.Follows ρ {v | v ∈ t.occurrences} [] := nofun
  obtain ⟨qs, hqs, -⟩ := align_rename hρ (fun _ hv => hv) hnil
  rw [alphaEq, hqs, Option.isSome_some]

end Ty
end TypeInference

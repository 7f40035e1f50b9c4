import TypeInference.Proofs.Renaming.Alignment

/-! Two types are equal up to the choice of variables exactly if a renaming that keeps variables
apart turns one into the other. The walk along both types leaves its pairs one to one, and any map
that the pairs follow is such a renaming. Since renamings can be undone and done one after the
other, the test is an equivalence of types. -/
namespace TypeInference

variable {ρ : TyVar → TyVar} {X : Set TyVar} {ps qs : Pairing} {v w : TyVar}

namespace Pairing

/-- No variable of either side has two partners. -/
def OneToOne (ps : Pairing) : Prop := ∀ p ∈ ps, ∀ q ∈ ps, p.1 = q.1 ↔ p.2 = q.2

def sources (ps : Pairing) : Set TyVar := {v | ∃ w, (v, w) ∈ ps}

/-- The partner of a variable, or the variable itself if it has none. -/
def partner (ps : Pairing) (v : TyVar) : TyVar := (ps.find? fun p => p.1 == v).elim v Prod.snd

theorem pair?_cases (h : ps.pair? v w = some qs) :
    (v, w) ∈ ps ∧ qs = ps ∨ (∀ p ∈ ps, p.1 ≠ v ∧ p.2 ≠ w) ∧ qs = (v, w) :: ps := by
  rw [pair?] at h
  split at h
  · next hmem => exact .inl ⟨hmem, (Option.some.inj h).symm⟩
  · split at h
    · cases h
    · next hfree =>
      refine .inr ⟨fun p hp => ?_, (Option.some.inj h).symm⟩
      have hp' : ¬(p.1 == v || p.2 == w) = true := fun he => hfree (List.any_eq_true.2 ⟨p, hp, he⟩)
      simpa using hp'

theorem oneToOne_nil : OneToOne [] := by
  simp [OneToOne]

theorem OneToOne.pair (hps : ps.OneToOne) (h : ps.pair? v w = some qs) : qs.OneToOne := by
  rcases pair?_cases h with ⟨-, rfl⟩ | ⟨hnew, rfl⟩
  · exact hps
  · intro p hp q hq
    rcases List.mem_cons.1 hp with rfl | hp <;> rcases List.mem_cons.1 hq with rfl | hq
    · exact iff_of_true rfl rfl
    · exact iff_of_false (hnew q hq).1.symm (hnew q hq).2.symm
    · exact iff_of_false (hnew p hp).1 (hnew p hp).2
    · exact hps p hp q hq

theorem OneToOne.partner_eq (h : ps.OneToOne) (hvw : (v, w) ∈ ps) : ps.partner v = w := by
  rw [partner]
  cases hfind : ps.find? fun p => p.1 == v with
  | none => exact absurd (List.find?_eq_none.1 hfind _ hvw) (by simp)
  | some p =>
    have hp : p.1 = v := by simpa using List.find?_some hfind
    exact (h p (List.mem_of_find?_eq_some hfind) _ hvw).1 hp

theorem OneToOne.follows (h : ps.OneToOne) : ps.Follows ps.partner ps.sources := fun p hp =>
  ⟨⟨p.2, hp⟩, (h.partner_eq hp).symm⟩

theorem OneToOne.injOn_partner (h : ps.OneToOne) : ps.sources.InjOn ps.partner := by
  rintro v ⟨v', hv⟩ w ⟨w', hw⟩ heq
  rw [h.partner_eq hv, h.partner_eq hw] at heq
  exact (h _ hv _ hw).2 heq

end Pairing

namespace Ty

/-- What a walk along two types has found: pairs that were one to one are so still, and a map that
the pairs follow at the end was followed at the start and turns the first type into the second. -/
structure Aligned (t u : Ty) (ps qs : Pairing) : Prop where
  oneToOne : ps.OneToOne → qs.OneToOne
  follows : ∀ {ρ : TyVar → TyVar} {X : Set TyVar}, qs.Follows ρ X →
    ps.Follows ρ X ∧ (∀ v ∈ t.occurrences, v ∈ X) ∧ t.rename ρ = u

theorem aligned_var (h : ps.pair? v w = some qs) : Aligned (.var v) (.var w) ps qs := by
  refine ⟨fun hps => hps.pair h, fun hqs => ?_⟩
  have hgrows : (∀ p ∈ ps, p ∈ qs) ∧ (v, w) ∈ qs := by
    rcases Pairing.pair?_cases h with ⟨hmem, rfl⟩ | ⟨-, rfl⟩
    · exact ⟨fun p hp => hp, hmem⟩
    · exact ⟨fun p hp => List.mem_cons_of_mem _ hp, List.mem_cons_self⟩
  obtain ⟨hv, hw⟩ := hqs _ hgrows.2
  exact ⟨fun p hp => hqs p (hgrows.1 p hp), by simpa using hv, congrArg Ty.var hw.symm⟩

theorem aligned_fn {p r q s : Ty} {rs : Pairing} (hp : Aligned p q ps qs) (hr : Aligned r s qs rs) :
    Aligned (.fn p r) (.fn q s) ps rs := by
  refine ⟨fun hps => hr.oneToOne (hp.oneToOne hps), fun hrs => ?_⟩
  obtain ⟨hqs, hoccr, rfl⟩ := hr.follows hrs
  obtain ⟨hps, hoccp, rfl⟩ := hp.follows hqs
  exact ⟨hps, by simpa using List.forall_mem_append.2 ⟨hoccp, hoccr⟩, rfl⟩

theorem alignedAll {ts us : List Ty}
    (ih : ∀ t ∈ ts, ∀ (u : Ty) (ps qs : Pairing), align? t u ps = some qs → Aligned t u ps qs)
    (h : alignAll? ts us ps = some qs) :
    (ps.OneToOne → qs.OneToOne) ∧ ∀ {ρ : TyVar → TyVar} {X : Set TyVar}, qs.Follows ρ X →
      ps.Follows ρ X ∧ (∀ v ∈ ts.flatMap occurrences, v ∈ X) ∧ ts.map (rename ρ) = us := by
  induction ts generalizing us ps with
  | nil =>
    cases us with
    | nil =>
      obtain rfl : ps = qs := Option.some.inj h
      exact ⟨fun hps => hps, fun hqs => ⟨hqs, by simp, rfl⟩⟩
    | cons u us => cases h
  | cons t ts ihs =>
    cases us with
    | nil => cases h
    | cons u us =>
      rw [alignAll?] at h
      obtain ⟨rs, hrs, h⟩ := Option.bind_eq_some_iff.1 h
      have ht := ih t List.mem_cons_self u ps rs hrs
      obtain ⟨hone, hfollows⟩ := ihs (fun t ht => ih t (List.mem_cons_of_mem _ ht)) h
      refine ⟨fun hps => hone (ht.oneToOne hps), fun hqs => ?_⟩
      obtain ⟨hrs, hoccs, rfl⟩ := hfollows hqs
      obtain ⟨hps, hocc, rfl⟩ := ht.follows hrs
      exact ⟨hps, by simpa using List.forall_mem_append.2 ⟨hocc, hoccs⟩, rfl⟩

theorem aligned_of_align {t u : Ty} (h : align? t u ps = some qs) : Aligned t u ps qs := by
  induction t generalizing u ps qs with
  | var v =>
    cases u with
    | var w => exact aligned_var h
    | _ => cases h
  | fn p r ihp ihr =>
    cases u with
    | fn q s =>
      rw [align?] at h
      obtain ⟨rs, hp, hr⟩ := Option.bind_eq_some_iff.1 h
      exact aligned_fn (ihp hp) (ihr hr)
    | _ => cases h
  | tuple ts ih =>
    cases u with
    | tuple us =>
      rw [align?] at h
      obtain ⟨hone, hfollows⟩ := alignedAll (fun t ht u ps qs => ih t ht) h
      refine ⟨hone, fun hqs => ?_⟩
      obtain ⟨hps, hocc, rfl⟩ := hfollows hqs
      exact ⟨hps, by simpa using hocc, rename_tuple ts⟩
    | _ => cases h
  | named n ts ih =>
    cases u with
    | named m us =>
      rw [align?] at h
      split at h
      · next hn =>
        subst hn
        obtain ⟨hone, hfollows⟩ := alignedAll (fun t ht u ps qs => ih t ht) h
        refine ⟨hone, fun hqs => ?_⟩
        obtain ⟨hps, hocc, rfl⟩ := hfollows hqs
        exact ⟨hps, by simpa using hocc, rename_named n ts⟩
      · cases h
    | _ => cases h
  | _ =>
    cases u <;> cases h
    exact ⟨fun hps => hps, fun hqs => ⟨hqs, by simp, rfl⟩⟩

theorem alphaEq_iff {t u : Ty} : t.alphaEq u = true ↔
    ∃ ρ : TyVar → TyVar, Set.InjOn ρ {v | v ∈ t.occurrences} ∧ t.rename ρ = u := by
  constructor
  · intro h
    obtain ⟨qs, hqs⟩ := Option.isSome_iff_exists.1 h
    have ha := aligned_of_align hqs
    have hone := ha.oneToOne Pairing.oneToOne_nil
    obtain ⟨-, hocc, hren⟩ := ha.follows hone.follows
    exact ⟨qs.partner, hone.injOn_partner.mono hocc, hren⟩
  · rintro ⟨ρ, hρ, rfl⟩
    exact alphaEq_rename hρ

theorem alphaEq_refl (t : Ty) : t.alphaEq t = true :=
  alphaEq_iff.2 ⟨fun v => v, fun _ _ _ _ h => h, rename_eq_self fun _ _ => rfl⟩

theorem alphaEq_symm {t u : Ty} (h : t.alphaEq u = true) : u.alphaEq t = true := by
  obtain ⟨ρ, hρ, rfl⟩ := alphaEq_iff.1 h
  have : Nonempty TyVar := ⟨⟨0⟩⟩
  have hback := hρ.leftInvOn_invFunOn
  refine alphaEq_iff.2 ⟨Function.invFunOn ρ {v | v ∈ t.occurrences}, ?_, ?_⟩
  · -- every variable of the renamed type is the new name of one that leads back to it
    intro v hv w hw heq
    rw [Set.mem_ofPred_eq, occurrences_rename, List.mem_map] at hv hw
    obtain ⟨a, ha, rfl⟩ := hv
    obtain ⟨b, hb, rfl⟩ := hw
    rw [hback ha, hback hb] at heq
    rw [heq]
  · rw [rename_rename]
    exact rename_eq_self fun v hv => hback hv

theorem alphaEq_trans {t u s : Ty} (htu : t.alphaEq u = true) (hus : u.alphaEq s = true) :
    t.alphaEq s = true := by
  obtain ⟨ρ, hρ, rfl⟩ := alphaEq_iff.1 htu
  obtain ⟨τ, hτ, rfl⟩ := alphaEq_iff.1 hus
  refine alphaEq_iff.2 ⟨τ ∘ ρ, hτ.comp hρ fun v hv => ?_, (rename_rename ρ τ t).symm⟩
  rw [Set.mem_ofPred_eq, occurrences_rename]
  exact List.mem_map_of_mem hv

/-- Equality up to the choice of variables holds exactly between a type and its renamings that keep
variables apart, and it is an equivalence. -/
theorem alphaEq_decides_renaming :
    (∀ t u : Ty, t.alphaEq u = true ↔
      ∃ ρ : TyVar → TyVar, Set.InjOn ρ {v | v ∈ t.occurrences} ∧ t.rename ρ = u) ∧
    Equivalence fun t u : Ty => t.alphaEq u = true :=
  ⟨fun _ _ => alphaEq_iff, alphaEq_refl, alphaEq_symm, alphaEq_trans⟩

example : (fn (var ⟨0⟩) (var ⟨0⟩)).alphaEq (fn (var ⟨7⟩) (var ⟨7⟩)) = true ∧
    (fn (var ⟨0⟩) (var ⟨0⟩)).alphaEq (fn (var ⟨1⟩) (var ⟨2⟩)) = false := by decide

end Ty
end TypeInference

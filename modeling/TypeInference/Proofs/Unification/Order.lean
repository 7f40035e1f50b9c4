import TypeInference.Proofs.Renaming.Alignment
import TypeInference.Proofs.Unification.MostGeneral

/-! The order of equations and of their sides decides which conflict is found, and nothing else.
Lists that differ only so have the same solutions, so both are solved or neither is. The two
substitutions may choose different variables to stand for the others, but each factors through the
other, and an exchange of variables turns one into the other. -/
namespace TypeInference

variable {S T : Substitution} {θ : TyVar → Ty} {e : Equation} {es ds : List Equation}
    {v w : TyVar} {t : Ty}

theorem Ty.exists_var_of_subst (h : t.subst θ = .var v) : ∃ w, t = .var w ∧ θ w = .var v := by
  cases t with
  | var w => exact ⟨w, rfl, h⟩
  | _ => cases h

namespace Substitution

/-- The variable that a variable stands for; a variable that stands for another type is left
alone. -/
def representative (S : Substitution) (v : TyVar) : TyVar :=
  match S.image v with
  | .var w => w
  | _ => v

theorem representative_of_image (h : S.image v = .var w) : S.representative v = w := by
  rw [representative, h]

/-- Exchanges each variable that only one of the substitutions binds with the variable that it
stands for there. -/
def exchange (S T : Substitution) (v : TyVar) : TyVar :=
  if v ∉ S then T.representative v else if v ∉ T then S.representative v else v

/-- If the second substitution factors through the first, it binds what the first leaves open to
variables only, and the first leads back from these. -/
theorem Factors.exists_representative (h : T.Factors S.image) (hv : v ∉ S) :
    ∃ w, T.image v = .var w ∧ S.image w = .var v := by
  have hback : (T.image v).subst S.image = .var v := by rw [h v, image_of_not_mem hv]
  exact Ty.exists_var_of_subst hback

theorem Idempotent.not_mem_of_image (h : S.Idempotent) (hv : S.image v = .var w) : w ∉ S :=
  h.not_mem (v := v) (by rw [hv]; simp)

theorem image_eq_exchange (h : T.Factors S.image) (hv : v ∉ S) :
    T.image v = .var (exchange S T v) := by
  obtain ⟨w, hT, -⟩ := h.exists_representative hv
  rw [exchange, if_pos hv, representative_of_image hT, hT]

theorem exchange_involutive (hS : S.Idempotent) (hT : T.Idempotent) (hST : S.Factors T.image)
    (hTS : T.Factors S.image) : Function.Involutive (exchange S T) := by
  intro v
  by_cases hvS : v ∈ S
  · by_cases hvT : v ∈ T
    · have hfix : exchange S T v = v := by simp [exchange, hvS, hvT]
      rw [hfix, hfix]
    · -- only the first substitution binds the variable, and it leads to one that it leaves open
      obtain ⟨w, hSv, hTw⟩ := hST.exists_representative hvT
      have hwS : w ∉ S := hS.not_mem_of_image hSv
      have hv : exchange S T v = w := by simp [exchange, hvS, hvT, representative_of_image hSv]
      rw [hv, exchange, if_pos hwS, representative_of_image hTw]
  · obtain ⟨w, hTv, hSw⟩ := hTS.exists_representative hvS
    have hwT : w ∉ T := hT.not_mem_of_image hTv
    have hv : exchange S T v = w := by rw [exchange, if_pos hvS, representative_of_image hTv]
    rw [hv]
    by_cases hwS : w ∈ S
    · simp [exchange, hwS, hwT, representative_of_image hSw]
    · obtain rfl : w = v := by simpa [image_of_not_mem hwS] using hSw
      exact hv

theorem apply_eq_rename_exchange (hS : S.Idempotent) (hST : S.Factors T.image)
    (hTS : T.Factors S.image) (t : Ty) : T.apply t = (S.apply t).rename (exchange S T) := by
  have hfactor : T.apply t = (S.apply t).subst T.image := (hST.apply t).symm
  rw [hfactor, Ty.rename]
  exact Ty.subst_congr fun v hv => image_eq_exchange hTS (hS.not_mem_apply hv)

/-- Idempotent substitutions that factor through each other differ by an exchange of variables. -/
theorem exists_exchange (hS : S.Idempotent) (hT : T.Idempotent) (hST : S.Factors T.image)
    (hTS : T.Factors S.image) : ∃ ρ : TyVar → TyVar, Function.Involutive ρ ∧
      ∀ t, T.apply t = (S.apply t).rename ρ ∧ S.apply t = (T.apply t).rename ρ := by
  have hinv := exchange_involutive hS hT hST hTS
  refine ⟨exchange S T, hinv, fun t => ?_⟩
  have ht := apply_eq_rename_exchange hS hST hTS t
  refine ⟨ht, ?_⟩
  rw [ht, Ty.rename_rename]
  exact (Ty.rename_eq_self fun v _ => hinv v).symm

end Substitution

namespace Equation

def flip (e : Equation) : Equation := ⟨e.rhs, e.lhs⟩

theorem holds_flip : e.flip.Holds θ ↔ e.Holds θ := eq_comm

end Equation

/-- The second list has the equations of the first in some order, any of them with exchanged
sides. -/
def Rearranges (es ds : List Equation) : Prop :=
  ∃ fs, es.Perm fs ∧ List.Forall₂ (fun e d => d = e ∨ d = e.flip) fs ds

theorem Rearranges.solves_iff (h : Rearranges es ds) : Solves θ es ↔ Solves θ ds := by
  obtain ⟨fs, hperm, hflip⟩ := h
  have hfs : Solves θ es ↔ Solves θ fs := forall_congr' fun e => by rw [hperm.mem_iff]
  rw [hfs]
  clear hperm hfs
  induction hflip with
  | nil => exact Iff.rfl
  | @cons e d fs ds hd _ ih =>
    rw [solves_cons, solves_cons]
    have hd' : e.Holds θ ↔ d.Holds θ := by
      rcases hd with rfl | rfl
      · exact Iff.rfl
      · exact Equation.holds_flip.symm
    exact and_congr hd' ih

theorem exists_solve_ok_iff : (∃ S, solve es = .ok S) ↔ ∃ θ : TyVar → Ty, Solves θ es := by
  constructor
  · rintro ⟨S, h⟩
    have hs := solve_eq_ok.1 h
    exact ⟨S.image, (solves_iff_factors hs).2 (solution_idempotent hs).factors⟩
  · rintro ⟨θ, hθ⟩
    rcases hs : Substitution.solve ∅ es with ⟨S, _ | c⟩
    · exact ⟨S, solve_eq_ok.2 hs⟩
    · exact absurd hθ (not_solves_of_conflict hs)

theorem Rearranges.factors (h : Rearranges es ds) (hS : solve es = .ok S) (hT : solve ds = .ok T) :
    S.Factors T.image ∧ T.Factors S.image := by
  have hs := solve_eq_ok.1 hS
  have ht := solve_eq_ok.1 hT
  have hsol : Solves S.image es := (solves_iff_factors hs).2 (solution_idempotent hs).factors
  have htol : Solves T.image ds := (solves_iff_factors ht).2 (solution_idempotent ht).factors
  exact ⟨(solves_iff_factors hs).1 (h.solves_iff.2 htol),
    (solves_iff_factors ht).1 (h.solves_iff.1 hsol)⟩

/-- However equations are ordered and their sides exchanged, they are solved in all arrangements or
in none, and the solutions differ by an exchange of variables only. -/
theorem solve_rearranged (h : Rearranges es ds) :
    ((∃ S, solve es = .ok S) ↔ ∃ T, solve ds = .ok T) ∧
      ∀ S T, solve es = .ok S → solve ds = .ok T →
        (∀ t, (S.apply t).alphaEq (T.apply t) = true) ∧
        ∃ ρ : TyVar → TyVar, Function.Involutive ρ ∧
          ∀ t, T.apply t = (S.apply t).rename ρ ∧ S.apply t = (T.apply t).rename ρ := by
  constructor
  · rw [exists_solve_ok_iff, exists_solve_ok_iff]
    exact exists_congr fun θ => h.solves_iff
  · intro S T hS hT
    obtain ⟨hST, hTS⟩ := h.factors hS hT
    have hSi := solution_idempotent (solve_eq_ok.1 hS)
    have hTi := solution_idempotent (solve_eq_ok.1 hT)
    obtain ⟨ρ, hinv, hρ⟩ := Substitution.exists_exchange hSi hTi hST hTS
    refine ⟨fun t => ?_, ρ, hinv, hρ⟩
    rw [(hρ t).1]
    exact Ty.alphaEq_rename hinv.injective.injOn

def chosenEquations : List Equation :=
  [⟨.var ⟨0⟩, .var ⟨1⟩⟩, ⟨.var ⟨2⟩, .fn (.var ⟨0⟩) (.var ⟨3⟩)⟩]

def turnedEquations : List Equation :=
  [⟨.fn (.var ⟨0⟩) (.var ⟨3⟩), .var ⟨2⟩⟩, ⟨.var ⟨1⟩, .var ⟨0⟩⟩]

theorem solve_rearranged_turned : Rearranges chosenEquations turnedEquations ∧
    ∃ S T, solve chosenEquations = .ok S ∧ solve turnedEquations = .ok T ∧
      S.apply (.var ⟨2⟩) = .fn (.var ⟨1⟩) (.var ⟨3⟩) ∧
      T.apply (.var ⟨2⟩) = .fn (.var ⟨0⟩) (.var ⟨3⟩) ∧
      ∀ t, (S.apply t).alphaEq (T.apply t) = true := by
  have h : Rearranges chosenEquations turnedEquations :=
    ⟨chosenEquations.reverse, (List.reverse_perm _).symm, .cons (.inr rfl) (.cons (.inr rfl) .nil)⟩
  have hS : (solve chosenEquations).map (·.apply (.var ⟨2⟩)) = .ok (.fn (.var ⟨1⟩) (.var ⟨3⟩)) := by
    cbv
  have hT : (solve turnedEquations).map (·.apply (.var ⟨2⟩)) = .ok (.fn (.var ⟨0⟩) (.var ⟨3⟩)) := by
    cbv
  cases hs : solve chosenEquations with
  | error c => simp [hs, Except.map] at hS
  | ok S =>
    cases ht : solve turnedEquations with
    | error c => simp [ht, Except.map] at hT
    | ok T =>
      refine ⟨h, S, T, rfl, rfl, ?_, ?_, ((solve_rearranged h).2 S T hs ht).1⟩
      · simpa [hs, Except.map] using hS
      · simpa [ht, Except.map] using hT

end TypeInference

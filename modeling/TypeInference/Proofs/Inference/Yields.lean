import TypeInference.Proofs.Inference.Growth

/-! Postconditions of actions that may run out of variables and fail in no other way. A rule is gone
through bind by bind, with what each part yields at hand for the next. -/
namespace TypeInference
namespace Infer

open State

/-- The action succeeds with such a result, unless it runs out of variables. -/
def Yields {α : Type} (act : Infer α) (s : State) (Q : α → State → Prop) : Prop :=
  (∃ a s', act s = .ok a s' ∧ Q a s') ∨ ∃ s', act s = .error (.fault .overflow) s'

variable {α β : Type} {act : Infer α} {s : State} {Q : α → State → Prop} {θ : TyVar → Ty}
  {D : TyVar → Prop}

theorem Yields.bind {f : α → Infer β} {R : β → State → Prop} (h : Yields act s Q)
    (hf : ∀ a s', Q a s' → Yields (f a) s' R) : Yields (act >>= f) s R := by
  have hbind : (act >>= f) s = EStateM.bind act f s := rfl
  rw [Yields, hbind, EStateM.bind]
  rcases h with ⟨a, s', hok, hQ⟩ | ⟨s', herr⟩
  · rw [hok]
    exact hf a s' hQ
  · rw [herr]
    exact .inr ⟨s', rfl⟩

theorem Yields.imp {R : α → State → Prop} (h : Yields act s Q)
    (hQ : ∀ a s', act s = .ok a s' → Q a s' → R a s') : Yields act s R := by
  rcases h with ⟨a, s', hok, h⟩ | herr
  · exact .inl ⟨a, s', hok, hQ a s' hok h⟩
  · exact .inr herr

theorem Yields.ok (h : Yields act s Q) (hroom : ∀ s', act s ≠ .error (.fault .overflow) s') :
    ∃ a s', act s = .ok a s' ∧ Q a s' := by
  rcases h with hok | ⟨s', herr⟩
  · exact hok
  · exact absurd herr (hroom s')

theorem yields_of_ok {a : α} {s' : State} (hok : act s = .ok a s') (h : Q a s') : Yields act s Q :=
  .inl ⟨a, s', hok, h⟩

theorem yields_pure {a : α} (h : Q a s) : Yields (pure a) s Q := yields_of_ok rfl h

theorem yields_get (s : State) : Yields get s fun a s' => a = s ∧ s' = s :=
  yields_of_ok rfl ⟨rfl, rfl⟩

theorem yields_modify (f : State → State) (s : State) : Yields (modify f) s fun _ s' => s' = f s :=
  yields_of_ok (a := ()) rfl rfl

theorem yields_ofFault {r : Except Fault α} {a : α} (hr : r = .ok a) (s : State) :
    Yields (ofFault r) s fun b s' => b = a ∧ s' = s :=
  yields_of_ok (ofFault_ok.2 ⟨hr, rfl⟩) ⟨rfl, rfl⟩

theorem yields_constrain (l r : Ty) (s : State) :
    Yields (constrain l r) s fun _ s' => s' = { s with constraints := s.constraints.push ⟨l, r⟩ } :=
  yields_of_ok (a := ()) (constrain_ok.2 rfl) rfl

theorem yields_fresh (s : State) : Yields fresh s fun _ _ => True := by
  cases h : s.toContext.fresh? with
  | none => exact .inr ⟨s, by rw [fresh, h]⟩
  | some r => exact .inl ⟨_, _, by rw [fresh, h], trivial⟩

theorem yields_instantiate (σ : Scheme) (s : State) : Yields (instantiate σ) s fun _ _ => True := by
  cases h : s.toContext.instantiate? σ with
  | none => exact .inr ⟨s, by rw [instantiate, h]⟩
  | some r => exact .inl ⟨_, _, by rw [instantiate, h], trivial⟩

theorem yields_withBinding {x : Name} {σ : Scheme}
    (h : Yields act { s with env := s.env.insert x σ } Q) :
    Yields (withBinding x σ act) s
      fun a s' => ∃ s₁, Q a s₁ ∧ s' = { s₁ with env := s₁.env.restore x s.env[x]? } := by
  rcases h with ⟨a, s₁, hok, hQ⟩ | ⟨s₁, herr⟩
  · exact yields_of_ok (withBinding_ok.2 ⟨s₁, hok, rfl⟩) ⟨s₁, hQ, rfl⟩
  · exact .inr ⟨_, by rw [withBinding, herr]⟩

theorem yields_solvePending (hc : s.Consistent D) (hθ : Solves θ s.equations) :
    Yields solvePending s fun _ _ => True := by
  rw [← List.take_append_drop s.solved s.equations, solves_append] at hθ
  obtain ⟨hsolved, hpending⟩ := hθ
  have hfactors := (solves_iff_factors hc.solution_eq).1 hsolved
  have hnone := (Substitution.factors_solve hc.idempotent hfactors hpending).1
  rcases hsolve : s.solution.solve s.unsolved with ⟨S, c⟩
  rw [← unsolved, hsolve] at hnone
  obtain rfl : c = none := hnone
  exact yields_of_ok (a := ()) (solvePending_ok.2 ⟨S, hsolve, rfl⟩) trivial

theorem yields_afterSolving (hc : s.Consistent D) (hθ : Solves θ s.equations) (f : State → α) :
    Yields (do solvePending; return f (← get)) s fun _ _ => True := by
  refine (yields_solvePending hc hθ).bind fun _ s₁ _ => ?_
  exact (yields_get s₁).bind fun _ _ _ => yields_pure trivial

theorem yields_generalize (hc : s.Consistent D) (hθ : Solves θ s.equations) (t : Ty) :
    Yields (generalize t) s fun σ s' => generalize t s = .ok σ s' :=
  (yields_afterSolving hc hθ _).imp fun _ _ hok _ => hok

theorem yields_resolve (hc : s.Consistent D) (hθ : Solves θ s.equations) (t : Ty) :
    Yields (resolve t) s fun u s' => resolve t s = .ok u s' :=
  (yields_afterSolving hc hθ _).imp fun _ _ hok _ => hok

end Infer
end TypeInference

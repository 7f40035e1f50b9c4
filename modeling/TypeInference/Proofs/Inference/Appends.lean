import TypeInference.Proofs.Inference.Locality

/-! Actions that only add equations. What has been recorded is never taken back while a run goes on,
so equations that have no solution are there at its end, and solving them fails. Which actions
behave like this is found by instance search, rule by rule. -/
namespace TypeInference

open State

namespace Infer

variable {α β : Type}

/-- Where the action succeeds, the equations are still there and the state is regular. -/
class Appends (act : Infer α) : Prop where
  appends : ∀ {s s' : State} {a : α}, s.Regular → act s = .ok a s' →
    s'.Regular ∧ s.equations <+: s'.equations

variable {go : ExprId → Infer Ty} {act act' : Infer α} {f : α → Infer β} {t : Ty}

theorem Appends.of_advances {d : Declarations} {w : α → List TyVar}
    (h : ∀ (s s' : State) (a : α), s.Regular → act s = .ok a s' → s.Advances d s' (w a)) :
    Appends act :=
  ⟨fun hs hok => ⟨(h _ _ _ hs hok).regular, (h _ _ _ hs hok).equations_le⟩⟩

instance (a : α) : Appends (pure a : Infer α) where
  appends hs hok := by
    obtain ⟨-, rfl⟩ := pure_ok.1 hok
    exact ⟨hs, List.prefix_refl _⟩

instance [Appends act] [∀ a, Appends (f a)] : Appends (act >>= f) where
  appends hs hok := by
    obtain ⟨a, s₁, h₁, h₂⟩ := bind_ok.1 hok
    obtain ⟨hs₁, hle₁⟩ := Appends.appends hs h₁
    obtain ⟨hs₂, hle₂⟩ := Appends.appends hs₁ h₂
    exact ⟨hs₂, hle₁.trans hle₂⟩

instance {c : Prop} [Decidable c] [Appends act] [Appends act'] :
    Appends (if c then act else act') := by
  split <;> infer_instance

instance (e : TypeError) : Appends (fail e : Infer α) := ⟨fun _ hok => absurd hok fail_ne_ok⟩

instance : Appends fresh := .of_advances (d := ∅) fresh_local

instance (σ : Scheme) : Appends (instantiate σ) where
  appends hs hok := by
    obtain ⟨f, m, rfl, -⟩ := instantiate_ok hok
    exact ⟨⟨hs.solved_le, hs.solution_eq⟩, List.prefix_refl _⟩

instance (l r : Ty) : Appends (constrain l r) where
  appends hs hok := by
    rw [constrain_ok.1 hok]
    refine ⟨hs.constrain _, ?_⟩
    simp [equations]

instance : Appends (resolve t) :=
  .of_advances (d := ∅) (w := fun _ => []) fun _ _ _ hs hok =>
    solvePending_local hs (resolve_ok.1 hok).1

instance : Appends (generalize t) :=
  .of_advances (d := ∅) fun _ _ _ hs hok => generalize_local hs hok

instance (x : Name) (σ : Scheme) [Appends act] : Appends (withBinding x σ act) where
  appends hs hok := by
    obtain ⟨s₁, hrun, rfl⟩ := withBinding_ok.1 hok
    obtain ⟨hs₁, hle⟩ := Appends.appends (hs.withEnv _) hrun
    exact ⟨hs₁.withEnv _, hle⟩

instance [Appends act] : Appends (Host.lift act : Infer α) := inferInstanceAs (Appends act)

instance (x : Name) (σ : Scheme) [Appends act] : Appends (Host.withBinding x σ act : Infer α) :=
  inferInstanceAs (Appends (withBinding x σ act))

instance (m : Name) : Appends (receiverName m t) where
  appends hs hok := by
    obtain ⟨-, rfl⟩ := receiverName_ok.1 hok
    exact ⟨hs, List.prefix_refl _⟩

instance [∀ id, Appends (go id)] (ids : List ExprId) : Appends (elements go ids) := by
  induction ids with
  | nil => exact inferInstanceAs (Appends (pure []))
  | cons id ids ih =>
    exact inferInstanceAs (Appends (do let t ← go id; let ts ← elements go ids; return t :: ts))

instance (p : Program) (n : Nat) (id : ExprId) : Appends (p.inferWithin n id) :=
  .of_advances (p.inferWithin_local n id)

def access (d : Declarations) (m : Name) (t : Ty) : Infer Ty := do
  let r ← receiverType t
  let n ← receiverName m r
  useMember d m n

theorem member_eq (d : Declarations) (receiver : ExprId) (m : Name) :
    member go d receiver m = go receiver >>= access d m := rfl

theorem receiverName_of_none {m : Name} (h : t.nominalName? = none) :
    ∃ e, receiverName m t = (fail e : Infer Name) := by
  cases t with
  | fn p r => exact ⟨.arrowMember m, rfl⟩
  | tuple ts => exact ⟨.unsupportedReceiver (.tuple ts) m, rfl⟩
  | var v => exact ⟨.indeterminateReceiver m, rfl⟩
  | _ => cases h

instance : Appends (receiverType t) :=
  inferInstanceAs (Appends (if t.isVar then resolve t else pure t))

instance (d : Declarations) (m n : Name) : Appends (useMember d m n) := by
  rw [useMember]
  split <;> infer_instance

instance (d : Declarations) (m : Name) : Appends (access d m t) :=
  inferInstanceAs (Appends (receiverType t >>= fun r => receiverName m r >>= useMember d m))

theorem exists_solves_of_solvePending {s s' : State} {u : Unit} (hs : s.Regular)
    (hok : solvePending s = .ok u s') : ∃ θ, Solves θ s.equations := by
  have hall := solve_of_solvePending hs hok
  obtain ⟨S, -, rfl⟩ := solvePending_ok.1 hok
  exact ⟨S.image, (solves_iff_factors hall).2 (solution_idempotent hall).factors⟩

end Infer
end TypeInference

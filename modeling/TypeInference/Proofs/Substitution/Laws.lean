import TypeInference.Proofs.Unification.Refinement

/-! Laws of substitutions as finite maps. Composition is doing one after the other; it is
associative and has the empty substitution as its unit, also where the domains overlap or an image
mentions a bound variable. Binding one more variable in place is composing with that single binding.
Composition of idempotent substitutions is idempotent unless the second one brings back a variable
that the first one has replaced. -/
namespace TypeInference
namespace Substitution

variable {S T U : Substitution} {v w : TyVar} {t : Ty}

theorem compose_assoc (S T U : Substitution) :
    (S.compose T).compose U = S.compose (T.compose U) := by
  apply Std.ExtTreeMap.ext_getElem?
  intro v
  simp only [getElem?_compose]
  cases S[v]? with
  | none => simp
  | some t => simp [apply_compose]

theorem empty_compose (S : Substitution) : compose ∅ S = S := by
  apply Std.ExtTreeMap.ext_getElem?
  intro v
  simp [getElem?_compose]

theorem compose_empty (S : Substitution) : S.compose ∅ = S := by
  apply Std.ExtTreeMap.ext_getElem?
  intro v
  have happly : apply ∅ = id := funext apply_empty
  simp [getElem?_compose, happly]

/-- Composition applies the first substitution and then the second, and with the empty substitution
it is a monoid of maps. -/
theorem compose_sequential_monoid :
    (∀ (S T : Substitution) (t : Ty), (S.compose T).apply t = T.apply (S.apply t)) ∧
    (∀ S T U : Substitution, (S.compose T).compose U = S.compose (T.compose U)) ∧
    ∀ S : Substitution, compose ∅ S = S ∧ S.compose ∅ = S :=
  ⟨apply_compose, compose_assoc, fun S => ⟨empty_compose S, compose_empty S⟩⟩

theorem Idempotent.not_mem_of_apply_eq (hS : S.Idempotent) (h : S.apply t = t)
    (hw : w ∈ t.occurrences) : w ∉ S := by
  rw [← h] at hw
  exact hS.not_mem_apply hw

/-- Binding in place, as the solver does it, is composing with a single binding; the substitution
stays idempotent, and the new binding takes effect after the others. -/
theorem bind_in_place (hS : S.Idempotent) (hv : v ∉ S) (hvt : t.contains v = false)
    (ht : S.apply t = t) :
    S.bind v t = S.compose (singleton v t) ∧ (S.bind v t).Idempotent ∧
      ∀ u, (S.bind v t).apply u = (singleton v t).apply (S.apply u) := by
  have hbind := bind_eq_compose hv t
  have hvt : v ∉ t.occurrences := fun hmem => by simp [Ty.contains_iff.2 hmem] at hvt
  refine ⟨hbind, hS.bind hvt fun w hw => hS.not_mem_of_apply_eq ht hw, fun u => ?_⟩
  rw [hbind, apply_compose]

theorem idempotent_singleton (hvt : v ∉ t.occurrences) : (singleton v t).Idempotent := by
  have h : bind ∅ v t = singleton v t := by rw [bind_eq_compose (by simp), empty_compose]
  rw [← h]
  exact idempotent_empty.bind hvt (by simp)

def functionBinding : Substitution := singleton ⟨0⟩ (.fn (.var ⟨1⟩) (.var ⟨2⟩))

def pairOfVariables : Ty := .tuple [.var ⟨2⟩, .var ⟨3⟩]

theorem bind_in_place_rewritten :
    functionBinding.bind ⟨1⟩ pairOfVariables =
      functionBinding.compose (singleton ⟨1⟩ pairOfVariables) ∧
    (functionBinding.bind ⟨1⟩ pairOfVariables).Idempotent ∧
    (functionBinding.bind ⟨1⟩ pairOfVariables).apply (.var ⟨0⟩) =
      .fn pairOfVariables (.var ⟨2⟩) := by
  have hS : functionBinding.Idempotent := idempotent_singleton (by decide)
  have hv : ⟨1⟩ ∉ functionBinding := by simp [functionBinding, singleton]
  obtain ⟨hbind, hidem, happly⟩ :=
    bind_in_place hS hv (by decide) (t := pairOfVariables) (by decide)
  refine ⟨hbind, hidem, ?_⟩
  rw [happly]
  decide

/-- What the substitution makes of the variables that `S` leaves alone mentions no variable that `S`
binds. -/
def Spares (T S : Substitution) : Prop := ∀ v ∉ S, ∀ w ∈ (T.image v).occurrences, w ∉ S

theorem mem_compose : v ∈ S.compose T ↔ v ∈ S ∨ v ∈ T := by
  rw [compose, Std.ExtTreeMap.mem_union_iff, Std.ExtTreeMap.mem_map, or_comm]

theorem Idempotent.apply_apply (hS : S.Idempotent) (t : Ty) : S.apply (S.apply t) = S.apply t :=
  hS.factors.apply t

theorem spares_of_idempotent_compose (h : (S.compose T).Idempotent) : T.Spares S := by
  intro v hv w hw hwS
  have himage : (S.compose T).image v = T.image v := by
    rw [image_compose, image_of_not_mem hv, apply, Ty.subst]
  rw [← himage] at hw
  exact h.not_mem hw (mem_compose.2 (.inl hwS))

/-- What the second substitution is applied to holds only variables that the first one leaves
alone. -/
theorem Spares.idempotent_compose (h : T.Spares S) (hS : S.Idempotent) (hT : T.Idempotent) :
    (S.compose T).Idempotent := by
  intro v u hu w hw hmem
  have himage : u = T.apply (S.image v) := by
    rw [← image_compose, image, hu, Option.getD_some]
  subst himage
  obtain ⟨x, hx, hwx⟩ := Ty.mem_occurrences_subst.1 hw
  rcases mem_compose.1 hmem with hwS | hwT
  · exact h x (hS.not_mem hx) w hwx hwS
  · exact hT.not_mem hwx hwT

/-- Composing keeps substitutions idempotent exactly if the second one does not bring back a
variable that the first one binds. Then applying the composition twice is applying it once. -/
theorem compose_idempotent_iff (hS : S.Idempotent) (hT : T.Idempotent) :
    ((S.compose T).Idempotent ↔ T.Spares S) ∧
    (T.Spares S → ∀ t, (S.compose T).apply ((S.compose T).apply t) = (S.compose T).apply t) := by
  refine ⟨⟨spares_of_idempotent_compose, fun h => h.idempotent_compose hS hT⟩, fun h t => ?_⟩
  exact (h.idempotent_compose hS hT).apply_apply t

/-- The second binding rewrites the first and mentions other variables only. -/
theorem compose_idempotent_iff_rewritten :
    functionBinding.Idempotent ∧ (singleton ⟨1⟩ pairOfVariables).Idempotent ∧
    (singleton ⟨1⟩ pairOfVariables).Spares functionBinding ∧
    (functionBinding.compose (singleton ⟨1⟩ pairOfVariables)).Idempotent ∧
    ∀ t, (functionBinding.compose (singleton ⟨1⟩ pairOfVariables)).apply
        ((functionBinding.compose (singleton ⟨1⟩ pairOfVariables)).apply t) =
      (functionBinding.compose (singleton ⟨1⟩ pairOfVariables)).apply t := by
  have hS : functionBinding.Idempotent := idempotent_singleton (by decide)
  have hT : (singleton ⟨1⟩ pairOfVariables).Idempotent := idempotent_singleton (by decide)
  have hspares : (singleton ⟨1⟩ pairOfVariables).Spares functionBinding := by
    intro v hv w hw hwS
    obtain rfl : ⟨0⟩ = w := by simpa [functionBinding, singleton] using hwS
    rw [image_singleton] at hw
    split at hw
    · simp [pairOfVariables] at hw
    · obtain rfl : ⟨0⟩ = v := by simpa using hw
      exact hv hwS
  obtain ⟨hiff, htwice⟩ := compose_idempotent_iff hS hT
  exact ⟨hS, hT, hspares, hiff.2 hspares, htwice hspares⟩

def towardsSecond : Substitution := singleton ⟨0⟩ (.fn .int (.var ⟨1⟩))

def backToFirst : Substitution := singleton ⟨1⟩ (.var ⟨0⟩)

/-- Two idempotent substitutions, each of which brings in the variable that the other one binds:
every time their composition is applied, one more function is put around the variable. -/
theorem compose_not_idempotent :
    towardsSecond.Idempotent ∧ backToFirst.Idempotent ∧
    ¬(towardsSecond.compose backToFirst).Idempotent ∧
    (towardsSecond.compose backToFirst).apply (.var ⟨1⟩) = .var ⟨0⟩ ∧
    (towardsSecond.compose backToFirst).apply
      ((towardsSecond.compose backToFirst).apply (.var ⟨1⟩)) = .fn .int (.var ⟨0⟩) := by
  have honce : (towardsSecond.compose backToFirst).apply (.var ⟨1⟩) = .var ⟨0⟩ := by
    rw [apply_compose]
    decide
  have htwice : (towardsSecond.compose backToFirst).apply
      ((towardsSecond.compose backToFirst).apply (.var ⟨1⟩)) = .fn .int (.var ⟨0⟩) := by
    rw [honce, apply_compose]
    decide
  refine ⟨idempotent_singleton (by decide), idempotent_singleton (by decide), fun h => ?_,
    honce, htwice⟩
  rw [h.apply_apply, honce] at htwice
  cases htwice

end Substitution
end TypeInference

import TypeInference.Proofs.Unification.History

/-! Unification as recursive descent. A call applies the substitution to both types and then calls
itself for their components, one pair after the other, where each call finds what the calls before
it have bound. Bindings can make the types of later calls larger than those of the call they come
from. But a variable that is bound on the way is gone from them, and as long as none is bound they
are components. So the number of variables and then the size go down from a call to the calls it
makes, and the descent ends. It computes what elimination computes. -/
namespace TypeInference

namespace Substitution

theorem subst_eq_self {S : Substitution} {e : Equation} (h : ∀ v ∈ e.vars, v ∉ S) :
    e.subst S.image = e := by
  obtain ⟨l, r⟩ := e
  have hl : S.apply l = l := apply_eq_self fun v hv => h v (List.mem_append_left _ hv)
  have hr : S.apply r = r := apply_eq_self fun v hv => h v (List.mem_append_right _ hv)
  change Equation.mk (S.apply l) (S.apply r) = ⟨l, r⟩
  rw [hl, hr]

theorem Factors.subst_subst {S T : Substitution} (h : S.Factors T.image) (e : Equation) :
    (e.subst S.image).subst T.image = e.subst T.image := by
  change Equation.mk ((S.apply e.lhs).subst T.image) ((S.apply e.rhs).subst T.image) = _
  rw [h.apply, h.apply, Equation.subst]

end Substitution

namespace Unification

variable {S T : Substitution} {e d : Equation} {es ds : List Equation} {c : Conflict}

theorem map_subst_eq_self (hu : Under S es) : es.map (Equation.subst S.image) = es := by
  refine (List.map_congr_left fun e he => ?_).trans (List.map_id es)
  exact Substitution.subst_eq_self fun v hv => hu v (List.mem_flatMap.2 ⟨e, he, hv⟩)

theorem Under.append_left (hu : Under S (es ++ ds)) : Under S es := fun v hv =>
  hu v (by rw [vars_append]; exact List.mem_append_left _ hv)

theorem under_map_subst (hi : S.Idempotent) (es : List Equation) :
    Under S (es.map (Equation.subst S.image)) := by
  intro v hv
  obtain ⟨d, hd, hv⟩ := List.mem_flatMap.1 hv
  obtain ⟨d, -, rfl⟩ := List.mem_map.1 hd
  exact (List.mem_append.1 hv).elim hi.not_mem_apply hi.not_mem_apply

theorem factors_eliminate_solution (hi : S.Idempotent) (hu : Under S es) :
    S.Factors (eliminate S es).solution.image :=
  (factors_of_eliminate hu (eliminate_idempotent hi hu).factors).1

theorem map_subst_replace {θ : TyVar → Ty} {v : TyVar} {t : Ty} (h : θ v = t.subst θ)
    (es : List Equation) : (replace v t es).map (Equation.subst θ) = es.map (Equation.subst θ) := by
  rw [replace, List.map_map]
  refine List.map_congr_left fun d _ => ?_
  rw [Function.comp_apply, Equation.subst, Equation.replace, Ty.subst_replace h, Ty.subst_replace h,
    Equation.subst]

/-- Once the first equations are eliminated, the others follow under what these have bound. -/
theorem eliminate_append_ok (hi : S.Idempotent) (hu : Under S (es ++ ds))
    (h : eliminate S es = ⟨T, none⟩) :
    eliminate S (es ++ ds) = eliminate T (ds.map (Equation.subst T.image)) := by
  induction S, es using eliminate_induction generalizing ds with
  | nil S =>
    rw [eliminate_nil] at h
    obtain ⟨rfl, -⟩ := Outcome.mk.inj h
    rw [List.nil_append] at hu ⊢
    rw [map_subst_eq_self hu]
  | bind S e es v t he ih =>
    rw [List.cons_append] at hu
    have hbind : Under (S.bind v t) (replace v t es ++ replace v t ds) := by
      have := hu.bind he
      rwa [replace, List.map_append] at this
    obtain ⟨hv, ht, -⟩ := forall_vars_bind he hu
    have hbi := hi.bind (vars_move_bind he).2.2 ht
    rw [eliminate_bind he] at h
    rw [List.cons_append, eliminate_bind he, replace, List.map_append]
    refine (ih hbi hbind h).trans ?_
    -- what comes out factors through the binding, so it makes no difference to the other equations
    have hfactor : (S.bind v t).Factors T.image := by
      have := factors_eliminate_solution hbi hbind.append_left
      rwa [h] at this
    have himage : T.image v = t.subst T.image := ((Substitution.factors_bind hv).1 hfactor).2
    exact congrArg (eliminate T) (map_subst_replace himage ds)
  | split S e es es' he ih =>
    rw [eliminate_split he] at h
    rw [List.cons_append] at hu
    rw [List.cons_append, eliminate_split he, ← List.append_assoc]
    have hsplit := hu.split he
    rw [← List.append_assoc] at hsplit
    exact ih hi hsplit h
  | fail S e es c he =>
    rw [eliminate_fail he] at h
    cases h

theorem eliminate_append_conflict (h : eliminate S es = ⟨T, some c⟩) :
    eliminate S (es ++ ds) = ⟨T, some c⟩ := by
  induction S, es using eliminate_induction generalizing ds with
  | nil S => simp at h
  | bind S e es v t he ih =>
    rw [eliminate_bind he] at h
    rw [List.cons_append, eliminate_bind he, replace, List.map_append]
    exact ih h
  | split S e es es' he ih =>
    rw [eliminate_split he] at h
    rw [List.cons_append, eliminate_split he, ← List.append_assoc]
    exact ih h
  | fail S e es c he =>
    rw [eliminate_fail he] at h
    rw [List.cons_append, eliminate_fail he, h]

end Unification

open Unification

variable {S T : Substitution} {e d : Equation} {es ds : List Equation} {c : Conflict}

namespace Substitution

/-- Solving equations one after the other is eliminating all of them under the substitution. -/
theorem solve_eq_eliminate (hi : S.Idempotent) (es : List Equation) :
    S.solve es = eliminate S (es.map (Equation.subst S.image)) := by
  induction es generalizing S with
  | nil => simp [solve]
  | cons e es ih =>
    have hunder : Under S ([e.subst S.image] ++ es.map (Equation.subst S.image)) := by
      rw [← List.map_singleton, ← List.map_append]
      exact under_map_subst hi ([e] ++ es)
    rcases hu : S.unify e.lhs e.rhs with ⟨T, _ | c⟩
    · have helim : eliminate S [e.subst S.image] = ⟨T, none⟩ := hu
      rw [solve_cons_ok hu, List.map_cons, ← List.singleton_append,
        eliminate_append_ok hi hunder helim, ih (unify_idempotent hu hi), List.map_map]
      congr 1
      have hfactor : S.Factors T.image :=
        (factors_of_unify hu hi (unify_idempotent hu hi).factors).1
      exact List.map_congr_left fun d _ => (hfactor.subst_subst d).symm
    · have helim : eliminate S [e.subst S.image] = ⟨T, some c⟩ := hu
      rw [solve_cons_conflict hu, List.map_cons, ← List.singleton_append,
        eliminate_append_conflict helim]

end Substitution

namespace Unification

/-- A call in the descent: the substitution that it finds, and the two types that it is given. -/
structure Frame where
  subst : Substitution
  given : Equation

namespace Frame

def sides (f : Frame) : Equation := f.given.subst f.subst.image

def outcome (f : Frame) : Outcome := f.subst.unify f.given.lhs f.given.rhs

/-- A call makes a call for each pair of components, once the calls for the pairs before are
through. -/
inductive Calls : Frame → Frame → Prop
  | component {f : Frame} {before later : List Equation} {e : Equation} {T : Substitution}
    (hsplit : f.sides.move = .split (before ++ e :: later))
    (hbefore : f.subst.solve before = ⟨T, none⟩) : Calls f ⟨T, e⟩

end Frame

/-- Makes calls one after the other, up to the first that meets a conflict or is cut off. -/
def inTurn (call : Frame → Option Outcome) (S : Substitution) : List Equation → Option Outcome
  | [] => some ⟨S, none⟩
  | e :: es =>
    match call ⟨S, e⟩ with
    | some ⟨T, none⟩ => inTurn call T es
    | stopped => stopped

/-- Unification by recursive descent, cut off where calls are nested more than `depth` levels
deep. -/
def descend : Nat → Frame → Option Outcome
  | 0, _ => none
  | depth + 1, f =>
    match f.sides.move with
    | .bind v t => some ⟨f.subst.bind v t, none⟩
    | .split es => inTurn (descend depth) f.subst es
    | .fail c => some ⟨f.subst, some c⟩

/-- How much there is to do about an equation: its variables are counted first, then its size. -/
def weight (e : Equation) : ℕ ×ₗ ℕ := toLex (rank [e], e.size)

namespace Frame

variable {f g : Frame}

theorem not_mem_of_mem_sides (hi : f.subst.Idempotent) {v : TyVar} (hv : v ∈ f.sides.vars) :
    v ∉ f.subst :=
  (List.mem_append.1 hv).elim hi.not_mem_apply hi.not_mem_apply

/-- A call does what the first move says: it binds, makes the calls for the components, or stops. -/
theorem outcome_eq (hi : f.subst.Idempotent) :
    f.outcome =
      match f.sides.move with
      | .bind v t => ⟨f.subst.bind v t, none⟩
      | .split es => f.subst.solve es
      | .fail c => ⟨f.subst, some c⟩ := by
  have helim : f.outcome = eliminate f.subst [f.sides] := rfl
  rw [helim, eliminate_cons]
  cases hmove : f.sides.move with
  | bind v t => simp [replace]
  | fail c => rfl
  | split es =>
    have hunder : Under f.subst es := fun v hv =>
      not_mem_of_mem_sides hi (vars_move_split hmove hv)
    simp only [List.append_nil]
    rw [Substitution.solve_eq_eliminate hi, map_subst_eq_self hunder]

theorem Calls.idempotent (h : f.Calls g) (hi : f.subst.Idempotent) : g.subst.Idempotent := by
  cases h with
  | @component before later e T _ hbefore =>
    have := Substitution.solve_idempotent hi before
    rwa [hbefore] at this

theorem idempotent_of_reaches (hi : f.subst.Idempotent) (h : Relation.ReflTransGen Calls f g) :
    g.subst.Idempotent := by
  induction h with
  | refl => exact hi
  | tail _ hcall ih => exact hcall.idempotent ih

/-- The calls before bring in no variable, and those that they have bound are gone. -/
theorem Calls.mem_sides (h : f.Calls g) (hi : f.subst.Idempotent) {w : TyVar}
    (hw : w ∈ g.sides.vars) : w ∈ f.sides.vars ∧ w ∉ g.subst := by
  refine ⟨?_, not_mem_of_mem_sides (h.idempotent hi) hw⟩
  cases h with
  | @component before later e T hsplit hbefore =>
    have hvars : ∀ v ∈ vars (before ++ e :: later), v ∈ f.sides.vars := vars_move_split hsplit
    have hself : ∀ v ∈ f.sides.vars, ∀ u ∈ (f.subst.image v).occurrences, u ∈ f.sides.vars := by
      intro v hv u hu
      rw [Substitution.image_of_not_mem (not_mem_of_mem_sides hi hv)] at hu
      obtain rfl : u = v := by simpa using hu
      exact hv
    have hbefore' : ∀ v ∈ vars before, ∀ u ∈ (f.subst.image v).occurrences, u ∈ f.sides.vars :=
      fun v hv => hself v (hvars v (by simp [hv]))
    have himage : ∀ v ∈ e.vars, ∀ u ∈ (T.image v).occurrences, u ∈ f.sides.vars := by
      intro v hv
      have := Substitution.solve_image hbefore' (hself v (hvars v (by simp [hv])))
      rwa [hbefore] at this
    rcases List.mem_append.1 hw with hw | hw
    · obtain ⟨v, hv, hw⟩ := Ty.mem_occurrences_subst.1 hw
      exact himage v (List.mem_append_left _ hv) w hw
    · obtain ⟨v, hv, hw⟩ := Ty.mem_occurrences_subst.1 hw
      exact himage v (List.mem_append_right _ hv) w hw

theorem Calls.weight_lt (h : f.Calls g) (hi : f.subst.Idempotent) :
    weight g.sides < weight f.sides := by
  have hvars : ∀ w ∈ vars [g.sides], w ∈ vars [f.sides] ∧ w ∉ g.subst := by
    intro w hw
    simpa using h.mem_sides hi (by simpa using hw)
  rw [weight, weight, Prod.Lex.toLex_lt_toLex']
  by_cases hbound : ∃ v ∈ vars [f.sides], v ∈ g.subst
  · -- a variable that has been bound on the way is no longer counted
    obtain ⟨v, hv, hvg⟩ := hbound
    have hlt : rank [g.sides] < rank [f.sides] :=
      rank_lt hv fun w hw => ⟨fun hwv => (hvars w hw).2 (hwv ▸ hvg), (hvars w hw).1⟩
    exact ⟨hlt.le, fun heq => absurd heq hlt.ne⟩
  · -- nothing has been bound that matters, so the two types are still components
    refine ⟨rank_le fun w hw => (hvars w hw).1, fun _ => ?_⟩
    cases h with
    | @component before later e T hsplit hbefore =>
      have hself : (Frame.mk T e).sides = e := by
        refine Substitution.subst_eq_self fun v hv hvT => hbound ⟨v, ?_, hvT⟩
        have := vars_move_split hsplit (show v ∈ vars (before ++ e :: later) by simp [hv])
        simpa using this
      have hsize := size_move_split hsplit
      rw [size_append, size_cons] at hsize
      rw [hself]
      omega

/-- No chain of calls goes on for ever. -/
theorem acc_of_idempotent (f : Frame) (hi : f.subst.Idempotent) : Acc (fun g f => Calls f g) f := by
  induction hw : weight f.sides using WellFoundedLT.induction generalizing f with
  | ind w ih =>
    subst hw
    exact ⟨f, fun g hg => ih _ (hg.weight_lt hi) g (hg.idempotent hi) rfl⟩

end Frame

/-- If the descent gets through with every call that a call makes, it gets through with all of them
in turn. -/
theorem exists_depth_inTurn {f : Frame} {before later : List Equation} {T : Substitution}
    (ih : ∀ g, f.Calls g → ∃ depth, ∀ n ≥ depth, descend n g = some g.outcome)
    (hsplit : f.sides.move = .split (before ++ later))
    (hbefore : f.subst.solve before = ⟨T, none⟩) :
    ∃ depth, ∀ n ≥ depth, inTurn (descend n) T later = some (T.solve later) := by
  induction later generalizing before T with
  | nil => exact ⟨0, fun n _ => rfl⟩
  | cons e later ihl =>
    obtain ⟨depth, hdepth⟩ := ih ⟨T, e⟩ (.component hsplit hbefore)
    rcases hu : T.unify e.lhs e.rhs with ⟨U, _ | c⟩
    · have hnext : f.subst.solve (before ++ [e]) = ⟨U, none⟩ := by
        rw [Substitution.solve_append_ok hbefore, Substitution.solve_cons_ok hu, Substitution.solve]
      obtain ⟨depth', hdepth'⟩ := ihl (by rwa [List.append_cons] at hsplit) hnext
      refine ⟨max depth depth', fun n hn => ?_⟩
      have hcall : descend n ⟨T, e⟩ = some ⟨U, none⟩ := by
        rw [hdepth n (le_trans (le_max_left _ _) hn), Frame.outcome, hu]
      rw [inTurn, hcall, Substitution.solve_cons_ok hu]
      exact hdepth' n (le_trans (le_max_right _ _) hn)
    · refine ⟨depth, fun n hn => ?_⟩
      have hcall : descend n ⟨T, e⟩ = some ⟨U, some c⟩ := by rw [hdepth n hn, Frame.outcome, hu]
      rw [inTurn, hcall, Substitution.solve_cons_conflict hu]

theorem exists_depth_descend (f : Frame) (hi : f.subst.Idempotent) :
    ∃ depth, ∀ n ≥ depth, descend n f = some f.outcome := by
  induction f.acc_of_idempotent hi with
  | intro f _ ih =>
    have houtcome := f.outcome_eq hi
    cases hmove : f.sides.move with
    | bind v t =>
      refine ⟨1, fun n hn => ?_⟩
      obtain ⟨n, rfl⟩ := Nat.exists_eq_add_of_le' hn
      rw [houtcome, descend, hmove]
    | fail c =>
      refine ⟨1, fun n hn => ?_⟩
      obtain ⟨n, rfl⟩ := Nat.exists_eq_add_of_le' hn
      rw [houtcome, descend, hmove]
    | split es =>
      have hcalls : ∀ g, f.Calls g → ∃ depth, ∀ n ≥ depth, descend n g = some g.outcome :=
        fun g hg => ih g hg (hg.idempotent hi)
      have hall : f.sides.move = .split ([] ++ es) := hmove
      obtain ⟨depth, hdepth⟩ := exists_depth_inTurn hcalls hall rfl
      refine ⟨depth + 1, fun n hn => ?_⟩
      obtain ⟨n, rfl⟩ := Nat.exists_eq_add_of_le' (le_trans (Nat.le_add_left 1 depth) hn)
      rw [houtcome, descend, hmove]
      exact hdepth n (Nat.le_of_succ_le_succ hn)

/-- Whatever a unifier was asked for before, the descent for two types ends: it comes to an outcome
at some depth, each call in it has less to do than the call that makes it, and there is no endless
chain of calls. -/
theorem descent_ends (calls : List Call) (l r : Ty) :
    (∃ depth, ∀ n ≥ depth, descend n ⟨after ∅ calls, ⟨l, r⟩⟩ = some ((after ∅ calls).unify l r)) ∧
    (∀ f g : Frame, Relation.ReflTransGen Frame.Calls ⟨after ∅ calls, ⟨l, r⟩⟩ f → f.Calls g →
      weight g.sides < weight f.sides) ∧
    Acc (fun g f => Frame.Calls f g) ⟨after ∅ calls, ⟨l, r⟩⟩ := by
  have hi := after_idempotent Substitution.idempotent_empty calls
  refine ⟨exists_depth_descend ⟨after ∅ calls, ⟨l, r⟩⟩ hi, fun f g hf hg => ?_,
    Frame.acc_of_idempotent _ hi⟩
  exact hg.weight_lt (Frame.idempotent_of_reaches hi hf)

/-- The first components bind the variable of which the second ones have three copies. -/
def copiesFrame : Frame :=
  ⟨∅, ⟨.tuple [.var ⟨0⟩, .tuple [.var ⟨0⟩, .var ⟨0⟩, .var ⟨0⟩]],
    .tuple [.fn (.fn .int .int) .int, .var ⟨1⟩]⟩⟩

/-- The second call has larger types than the call that makes it, and still less to do. -/
theorem descent_ends_enlarged :
    ∃ g, copiesFrame.Calls g ∧ copiesFrame.sides.size < g.sides.size ∧
      weight g.sides < weight copiesFrame.sides := by
  have hmove : copiesFrame.sides.move = .split ([⟨.var ⟨0⟩, .fn (.fn .int .int) .int⟩] ++
      ⟨.tuple [.var ⟨0⟩, .var ⟨0⟩, .var ⟨0⟩], .var ⟨1⟩⟩ :: []) := by cbv
  have hfirst : (Substitution.solve ∅ [⟨.var ⟨0⟩, .fn (.fn .int .int) .int⟩]).conflict = none := by
    cbv
  have hsize : copiesFrame.sides.size < (Frame.mk
      (Substitution.solve ∅ [⟨.var ⟨0⟩, .fn (.fn .int .int) .int⟩]).solution
      ⟨.tuple [.var ⟨0⟩, .var ⟨0⟩, .var ⟨0⟩], .var ⟨1⟩⟩).sides.size := by decide +kernel
  have hcall : copiesFrame.Calls ⟨_, ⟨.tuple [.var ⟨0⟩, .var ⟨0⟩, .var ⟨0⟩], .var ⟨1⟩⟩⟩ :=
    .component hmove (congrArg (Outcome.mk _) hfirst)
  exact ⟨_, hcall, hsize, (descent_ends [] _ _).2.1 copiesFrame _ .refl hcall⟩

end Unification
end TypeInference

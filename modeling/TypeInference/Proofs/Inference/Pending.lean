import TypeInference.Proofs.Inference.Scopes
import TypeInference.Proofs.Unification.History

/-! What is pending. A state lists the equations of a run and counts how many of them are solved;
the rest is passed to the solver when it is next called. A ledger kept beside the state says of each
listed equation whether it has really been passed on. The count agrees with the ledger as long as it
is not larger than the list when an equation is recorded. Dropping the equations alone leaves the
count as it was, and then the next equations are taken for solved ones. -/
namespace TypeInference
namespace State

inductive Request where
  | fresh
  | instantiate (σ : Scheme)
  | constrain (l r : Ty)
  /-- Drop the equations, and nothing else. -/
  | clear
  | solve
  | commit
  | beginRun

namespace Request

def run (s : State) : Request → State
  | .fresh => Infer.fresh.after s
  | .instantiate σ => (Infer.instantiate σ).after s
  | .constrain l r => (Infer.constrain l r).after s
  | .clear => s.clear
  | .solve => Infer.solvePending.after s
  | .commit => s.commit
  | .beginRun => s.beginRun

def records : Request → Bool
  | .constrain _ _ => true
  | _ => false

/-- An equation is recorded only if no more equations are counted as solved than are listed. -/
def Timely (s : State) (r : Request) : Prop := r.records = true → s.solved ≤ s.equations.length

instance (s : State) (r : Request) : Decidable (r.Timely s) := inferInstanceAs (Decidable (_ → _))

end Request

def after (s : State) : List Request → State
  | [] => s
  | r :: rs => after (r.run s) rs

def Timely (s : State) : List Request → Prop
  | [] => True
  | r :: rs => r.Timely s ∧ Timely (r.run s) rs

instance decidableTimely : (s : State) → (requests : List Request) → Decidable (s.Timely requests)
  | _, [] => isTrue trivial
  | s, r :: rs =>
    have := decidableTimely (r.run s) rs
    inferInstanceAs (Decidable (_ ∧ _))

theorem after_append (s : State) (before later : List Request) :
    s.after (before ++ later) = (s.after before).after later := by
  induction before generalizing s with
  | nil => rfl
  | cons r rs ih => exact ih (r.run s)

theorem timely_append {s : State} {before later : List Request} :
    s.Timely (before ++ later) ↔ s.Timely before ∧ (s.after before).Timely later := by
  induction before generalizing s with
  | nil => simp [Timely, after]
  | cons r rs ih =>
    rw [List.cons_append, Timely, Timely, after, ih, and_assoc]

end State

theorem Context.constraints_reserve (c : Context) (vs : List TyVar) :
    (c.reserve vs).constraints = c.constraints := by
  induction vs generalizing c with
  | nil => rfl
  | cons v vs ih => exact ih (c.reserveVar v)

structure State.Alike (s s' : State) : Prop where
  equations : s'.equations = s.equations
  solved : s'.solved = s.solved
  solution : s'.solution = s.solution

namespace Infer

theorem alike_fresh (s : State) : s.Alike (fresh.after s) := by
  by_cases h : s.next < TyVar.maxId
  · rw [after_ok (fresh_ok.2 ⟨h, rfl, rfl⟩)]
    exact ⟨rfl, rfl, rfl⟩
  · rw [after_error (fresh_overflow h)]
    exact ⟨rfl, rfl, rfl⟩

theorem alike_instantiate (σ : Scheme) (s : State) : s.Alike ((instantiate σ).after s) := by
  cases hrun : instantiate σ s with
  | ok t s' =>
    obtain ⟨f, m, rfl, -⟩ := instantiate_ok hrun
    rw [after_ok hrun]
    exact ⟨rfl, rfl, rfl⟩
  | error e s' =>
    obtain rfl : s = s' := by
      rw [instantiate] at hrun
      split at hrun
      · cases hrun
      · cases hrun
        rfl
    rw [after_error hrun]
    exact ⟨rfl, rfl, rfl⟩

end Infer

open State (Request)

/-- A listed equation, and whether a successful call has passed it to the solver. -/
structure Entry where
  equation : Equation
  fed : Bool

namespace Entry

def new (e : Equation) : Entry := ⟨e, false⟩

def feed (a : Entry) : Entry := ⟨a.equation, true⟩

end Entry

namespace Ledger

/-- The ledger after a request. The solver is passed the equations from the first uncounted one
on. -/
def record (s : State) (entries : List Entry) : Request → List Entry
  | .constrain l r => entries ++ [Entry.new ⟨l, r⟩]
  | .clear | .beginRun => []
  | .solve =>
    match Infer.solvePending s with
    | .ok _ _ => entries.take s.solved ++ (entries.drop s.solved).map Entry.feed
    | .error _ _ => entries
  | .fresh | .instantiate _ | .commit => entries

def after (s : State) (entries : List Entry) : List Request → List Entry
  | [] => entries
  | r :: rs => after (r.run s) (record s entries r) rs

def unfed (entries : List Entry) : Nat := entries.countP fun a => !a.fed

/-- The ledger lists the equations of the state. Those passed on hold under the solution, and those
that are not counted have not been passed on. -/
structure Sound (s : State) (entries : List Entry) : Prop where
  equations : entries.map Entry.equation = s.equations
  idempotent : s.solution.Idempotent
  holds : ∀ a ∈ entries, a.fed = true → a.equation.Holds s.solution.image
  rest : ∀ a ∈ entries.drop s.solved, a.fed = false

def Exact (s : State) (entries : List Entry) : Prop := ∀ a ∈ entries.take s.solved, a.fed = true

variable {s s' : State} {entries : List Entry} {r : Request} {requests : List Request}

theorem Sound.length_eq (h : Sound s entries) : entries.length = s.equations.length := by
  rw [← h.equations, List.length_map]

/-- The count of pending equations is never too large. It is right exactly if all that are counted
as solved have been passed on. -/
theorem Sound.pending_eq_iff (h : Sound s entries) :
    s.pending = unfed entries ↔ Exact s entries := by
  have hpending : s.pending = (entries.drop s.solved).length := by
    rw [List.length_drop, h.length_eq, State.pending, State.equations, Array.length_toList]
  have hrest : unfed (entries.drop s.solved) = (entries.drop s.solved).length := by
    rw [unfed, List.countP_eq_length]
    intro a ha
    simp [h.rest a ha]
  have hsplit : unfed entries = unfed (entries.take s.solved) + unfed (entries.drop s.solved) := by
    rw [unfed, unfed, unfed, ← List.countP_append, List.take_append_drop]
  have hexact : Exact s entries ↔ unfed (entries.take s.solved) = 0 := by
    rw [unfed, List.countP_eq_zero]
    exact forall₂_congr fun a _ => by simp
  rw [hexact, hpending, hsplit, hrest]
  omega

theorem Sound.congr (h : Sound s entries) (hs : s.Alike s') : Sound s' entries where
  equations := by rw [hs.equations, h.equations]
  idempotent := by rw [hs.solution]; exact h.idempotent
  holds := by rw [hs.solution]; exact h.holds
  rest := by rw [hs.solved]; exact h.rest

theorem Exact.congr (h : Exact s entries) (hs : s.Alike s') : Exact s' entries := by
  rw [Exact, hs.solved]
  exact h

theorem sound_nil (heqs : s.equations = []) (hi : s.solution.Idempotent) : Sound s [] where
  equations := heqs.symm
  idempotent := hi
  holds := nofun
  rest := by simp

theorem Sound.holds_solve (h : Sound s entries) (es : List Equation) {a : Entry} (ha : a ∈ entries)
    (hfed : a.fed = true) : a.equation.Holds (s.solution.solve es).solution.image := by
  have hfactor := h.idempotent.factors_solve es
  rw [Equation.Holds, ← hfactor.apply, ← hfactor.apply a.equation.rhs]
  exact congrArg _ (h.holds a ha hfed)

/-- Bindings that a failed call has made do no harm. -/
theorem Sound.refined (h : Sound s entries) (es : List Equation) {S : Substitution}
    (hS : (s.solution.solve es).solution = S) : Sound { s with solution := S } entries where
  equations := h.equations
  idempotent := hS ▸ Substitution.solve_idempotent h.idempotent es
  holds _ ha hfed := hS ▸ h.holds_solve es ha hfed
  rest := h.rest

theorem Sound.constrain (h : Sound s entries) (l r : Ty) :
    Sound ((Infer.constrain l r).after s) (entries ++ [Entry.new ⟨l, r⟩]) := by
  have hstate : (Infer.constrain l r).after s =
    { s with constraints := s.constraints.push ⟨l, r⟩ } := rfl
  rw [hstate]
  refine ⟨?_, h.idempotent, fun a ha hfed => ?_, fun a ha => ?_⟩
  · rw [List.map_append, h.equations]
    simp [State.equations, Entry.new]
  · rcases List.mem_append.1 ha with ha | ha
    · exact h.holds a ha hfed
    · obtain rfl := List.mem_singleton.1 ha
      cases hfed
  · have ha : a ∈ (entries ++ [Entry.new ⟨l, r⟩]).drop s.solved := ha
    rw [List.drop_append] at ha
    rcases List.mem_append.1 ha with ha | ha
    · exact h.rest a ha
    · obtain rfl := List.mem_singleton.1 (List.mem_of_mem_drop ha)
      rfl

theorem Sound.solved (h : Sound s entries) {S : Substitution}
    (hS : s.solution.solve s.unsolved = ⟨S, none⟩) :
    Sound { s with solution := S, solved := s.constraints.size }
      (entries.take s.solved ++ (entries.drop s.solved).map Entry.feed) := by
  have hi : S.Idempotent := by
    have := Substitution.solve_idempotent h.idempotent s.unsolved
    rwa [hS] at this
  have hnew : Solves S.image s.unsolved := by
    have hf : (s.solution.solve s.unsolved).solution.Factors S.image := by
      rw [hS]
      exact hi.factors
    exact (Substitution.factors_of_solve h.idempotent hf).2 (by rw [hS])
  refine ⟨?_, hi, fun a ha hfed => ?_, ?_⟩
  · rw [List.map_append, List.map_map]
    change (entries.take s.solved).map Entry.equation ++ (entries.drop s.solved).map
      Entry.equation = s.equations
    rw [← List.map_append, List.take_append_drop, h.equations]
  · rcases List.mem_append.1 ha with ha | ha
    · have := h.holds_solve s.unsolved (List.mem_of_mem_take ha) hfed
      rwa [hS] at this
    · obtain ⟨b, hb, rfl⟩ := List.mem_map.1 ha
      refine hnew b.equation ?_
      rw [State.unsolved, ← h.equations, ← List.map_drop]
      exact List.mem_map_of_mem hb
  · have hlen : (entries.take s.solved ++ (entries.drop s.solved).map Entry.feed).length =
        s.constraints.size := by
      rw [List.length_append, List.length_map, ← List.length_append, List.take_append_drop,
        h.length_eq, State.equations, Array.length_toList]
    intro a ha
    rw [List.drop_of_length_le (Nat.le_of_eq hlen)] at ha
    cases ha

/-- Every request keeps the ledger right. -/
theorem Sound.run (h : Sound s entries) (r : Request) : Sound (r.run s) (record s entries r) := by
  cases r with
  | fresh => exact h.congr (Infer.alike_fresh s)
  | instantiate σ => exact h.congr (Infer.alike_instantiate σ s)
  | constrain l r => exact h.constrain l r
  | clear => exact sound_nil rfl h.idempotent
  | solve =>
    cases hrun : Infer.solvePending s with
    | ok u s' =>
      obtain ⟨S, hS, rfl⟩ := Infer.solvePending_ok.1 hrun
      rw [Request.run, Infer.after_ok hrun, record, hrun]
      exact h.solved hS
    | error e s' =>
      obtain ⟨S, c, hS, -, rfl⟩ := Infer.solvePending_error.1 hrun
      rw [Request.run, Infer.after_error hrun, record, hrun]
      exact h.refined s.unsolved (by rw [hS])
  | commit => exact h.congr ⟨rfl, rfl, rfl⟩
  | beginRun => exact sound_nil rfl Substitution.idempotent_empty

theorem Exact.run (hs : Sound s entries) (h : Exact s entries) (hr : r.Timely s) :
    Exact (r.run s) (record s entries r) := by
  cases r with
  | fresh => exact h.congr (Infer.alike_fresh s)
  | instantiate σ => exact h.congr (Infer.alike_instantiate σ s)
  | constrain l r =>
    have hle : s.solved ≤ entries.length := by rw [hs.length_eq]; exact hr rfl
    intro a ha
    rw [record] at ha
    have ha : a ∈ (entries ++ [Entry.new ⟨l, r⟩]).take s.solved := ha
    rw [List.take_append_of_le_length hle] at ha
    exact h a ha
  | clear => simp [Exact, record]
  | solve =>
    cases hrun : Infer.solvePending s with
    | ok u s' =>
      intro a ha
      have ha := List.mem_of_mem_take ha
      rw [record, hrun] at ha
      rcases List.mem_append.1 ha with ha | ha
      · exact h a ha
      · obtain ⟨b, -, rfl⟩ := List.mem_map.1 ha
        rfl
    | error e s' =>
      obtain ⟨S, c, -, -, rfl⟩ := Infer.solvePending_error.1 hrun
      rw [Request.run, Infer.after_error hrun, record, hrun]
      exact h
  | commit => exact h
  | beginRun => simp [Exact, record]

/-- An equation that is recorded too late is counted and has not been passed on. -/
theorem timely_of_exact (hs : Sound s entries) (h : Exact (r.run s) (record s entries r)) :
    r.Timely s := by
  cases r with
  | constrain l r =>
    intro _
    by_contra hlate
    have hlt : entries.length < s.solved := by
      rw [hs.length_eq]
      exact Nat.lt_of_not_le hlate
    have hmem : Entry.new ⟨l, r⟩ ∈ (entries ++ [Entry.new ⟨l, r⟩]).take s.solved := by
      rw [List.take_of_length_le (by simpa using hlt)]
      simp
    have hfed := h _ hmem
    cases hfed
  | _ => nofun

theorem Sound.after (h : Sound s entries) (requests : List Request) :
    Sound (s.after requests) (after s entries requests) := by
  induction requests generalizing s entries with
  | nil => exact h
  | cons r rs ih => exact ih (h.run r)

theorem Exact.after (hs : Sound s entries) (h : Exact s entries) (ht : s.Timely requests) :
    Exact (s.after requests) (after s entries requests) := by
  induction requests generalizing s entries with
  | nil => exact h
  | cons r rs ih => exact ih (hs.run r) (h.run hs ht.1) ht.2

theorem timely_iff (hs : Sound s entries) (h : Exact s entries) :
    s.Timely requests ↔
      ∀ before, before <+: requests → Exact (s.after before) (after s entries before) := by
  constructor
  · rintro ht before ⟨later, rfl⟩
    exact h.after hs (State.timely_append.1 ht).1
  · intro hall
    induction requests generalizing s entries with
    | nil => trivial
    | cons r rs ih =>
      have hrun : Exact (r.run s) (record s entries r) := hall [r] ⟨rs, rfl⟩
      refine ⟨timely_of_exact hs hrun, ih (hs.run r) hrun fun before hbefore => ?_⟩
      exact hall (r :: before) (List.cons_prefix_cons.2 ⟨rfl, hbefore⟩)

end Ledger

namespace State

variable {s : State} {r : Request} {requests : List Request}

theorem Alike.solved_le {s' : State} (hs : s.Alike s') (h : s.solved ≤ s.equations.length) :
    s'.solved ≤ s'.equations.length := by
  rw [hs.solved, hs.equations]
  exact h

/-- Only dropping the equations can leave the count beyond the end of the list. -/
theorem solved_le_run (h : s.solved ≤ s.equations.length) (hr : r ≠ .clear) :
    (r.run s).solved ≤ (r.run s).equations.length := by
  cases r with
  | fresh => exact (Infer.alike_fresh s).solved_le h
  | instantiate σ => exact (Infer.alike_instantiate σ s).solved_le h
  | constrain l r =>
    have hlen : (Request.run s (.constrain l r)).equations.length = s.equations.length + 1 := by
      simp [Request.run, Infer.after, Infer.constrain, Context.constrain, equations]
    rw [hlen]
    exact Nat.le_succ_of_le h
  | clear => exact absurd rfl hr
  | solve =>
    cases hrun : Infer.solvePending s with
    | ok u s' =>
      obtain ⟨S, -, rfl⟩ := Infer.solvePending_ok.1 hrun
      rw [Request.run, Infer.after_ok hrun]
      simp [equations]
    | error e s' =>
      obtain ⟨S, c, -, -, rfl⟩ := Infer.solvePending_error.1 hrun
      rw [Request.run, Infer.after_error hrun]
      exact h
  | commit => exact h
  | beginRun => exact Nat.zero_le _

theorem timely_of_clear_not_mem (h : s.solved ≤ s.equations.length)
    (hclear : Request.clear ∉ requests) : s.Timely requests := by
  induction requests generalizing s with
  | nil => trivial
  | cons r rs ih =>
    rw [List.mem_cons, not_or] at hclear
    exact ⟨fun _ => h, ih (solved_le_run h (Ne.symm hclear.1)) hclear.2⟩

theorem equations_ofEnv (env : Env) (d : Declarations) : (ofEnv env d).equations = [] := by
  simp [ofEnv, equations, Context.constraints_reserve, Context.empty]

theorem ledger_of_new (hs : s = .empty ∨ ∃ env d, s = .ofEnv env d) :
    s.solved = 0 ∧ Ledger.Sound s [] ∧ Ledger.Exact s [] := by
  obtain rfl | ⟨env, d, rfl⟩ := hs
  · exact ⟨rfl, Ledger.sound_nil rfl Substitution.idempotent_empty, by simp [Ledger.Exact]⟩
  · exact ⟨rfl, Ledger.sound_nil (equations_ofEnv env d) Substitution.idempotent_empty,
      by simp [Ledger.Exact]⟩

/-- After all requests that a new state can be asked for: what has been passed to the solver holds
once a call succeeds. The count of pending equations is right at every point exactly if no equation
is recorded while more are counted as solved than are listed, and then all listed equations hold
once a call succeeds. Without dropping equations alone this is always so. -/
theorem pending_right_iff_timely (hs : s = .empty ∨ ∃ env d, s = .ofEnv env d)
    (requests : List Request) :
    (∀ s', Infer.solvePending (s.after requests) = .ok () s' →
      ∀ a ∈ Ledger.after s [] (requests ++ [.solve]), a.fed = true →
        s'.solution.apply a.equation.lhs = s'.solution.apply a.equation.rhs) ∧
    (s.Timely requests ↔ ∀ before, before <+: requests →
      (s.after before).pending = Ledger.unfed (Ledger.after s [] before)) ∧
    (s.Timely requests → ∀ s', Infer.solvePending (s.after requests) = .ok () s' →
      ∀ e ∈ s'.constraints, s'.solution.apply e.lhs = s'.solution.apply e.rhs) ∧
    (Request.clear ∉ requests → s.Timely requests) := by
  obtain ⟨hsolved, hsound, hexact⟩ := ledger_of_new hs
  have hfinal : ∀ s', Infer.solvePending (s.after requests) = .ok () s' →
      s.after (requests ++ [.solve]) = s' := by
    intro s' hs'
    rw [after_append]
    exact Infer.after_ok hs'
  refine ⟨fun s' hs' a ha hfed => ?_, ?_, fun ht s' hs' e he => ?_, ?_⟩
  · have h := hsound.after (requests ++ [.solve])
    rw [hfinal s' hs'] at h
    exact h.holds a ha hfed
  · rw [Ledger.timely_iff hsound hexact]
    exact forall₂_congr fun before _ => (hsound.after before).pending_eq_iff.symm
  · -- the call that succeeds is itself a timely request, after which all equations are counted
    have ht' : s.Timely (requests ++ [.solve]) := timely_append.2 ⟨ht, nofun, trivial⟩
    have h := hsound.after (requests ++ [.solve])
    have hx := hexact.after hsound ht'
    rw [hfinal s' hs'] at h hx
    have he : e ∈ s'.equations := Array.mem_toList_iff.2 he
    rw [← h.equations] at he
    obtain ⟨a, ha, rfl⟩ := List.mem_map.1 he
    refine h.holds a ha (hx a ?_)
    obtain ⟨S, -, rfl⟩ := Infer.solvePending_ok.1 hs'
    rw [List.take_of_length_le]
    · exact ha
    · rw [h.length_eq]
      simp [equations]
  · exact timely_of_clear_not_mem (by rw [hsolved]; exact Nat.zero_le _)

/-- Drops an equation that was never solved, and one that was; the second time the solver is called
before the next equation is recorded. -/
def timelyRequests : List Request :=
  [.constrain .int .bool, .clear, .constrain (.var ⟨0⟩) .int, .solve, .clear, .solve,
    .constrain (.var ⟨1⟩) (.fn (.var ⟨0⟩) .bool)]

theorem pending_right_iff_timely_clearing :
    State.empty.Timely timelyRequests ∧
      (State.empty.after timelyRequests).pending = 1 ∧
      Ledger.unfed (Ledger.after .empty [] timelyRequests) = 1 := by
  have ht : State.empty.Timely timelyRequests := by decide +kernel
  have hp : (State.empty.after timelyRequests).pending = 1 := by decide +kernel
  have h :=
    (pending_right_iff_timely (.inl rfl) timelyRequests).2.1.1 ht timelyRequests
      (List.prefix_refl _)
  exact ⟨ht, hp, h ▸ hp⟩

def untimelyRequests : List Request := [.constrain .int .int, .solve, .clear, .constrain .int .bool]

/-- The equation between different types is taken for the solved one that was dropped: nothing is
pending, and solving succeeds. -/
theorem equation_lost_after_clear :
    (State.empty.after untimelyRequests).pending = 0 ∧
      Ledger.unfed (Ledger.after .empty [] untimelyRequests) = 1 ∧
      ∃ s', Infer.solvePending (State.empty.after untimelyRequests) = .ok () s' ∧
        (⟨.int, .bool⟩ : Equation) ∈ s'.constraints ∧
        s'.solution.apply .int ≠ s'.solution.apply .bool := by
  have hlisted : (State.empty.after untimelyRequests).constraints = #[⟨.int, .bool⟩] := by
    decide +kernel
  have hpassed : (State.empty.after untimelyRequests).unsolved = [] := by decide +kernel
  have hsolve : (State.empty.after untimelyRequests).solution.solve
      (State.empty.after untimelyRequests).unsolved =
      ⟨(State.empty.after untimelyRequests).solution, none⟩ := by
    rw [hpassed, Substitution.solve]
  refine ⟨by decide +kernel, by decide +kernel, _, Infer.solvePending_ok.2 ⟨_, hsolve, rfl⟩, ?_, ?_⟩
  · simp [hlisted]
  · intro heq
    have heq : Ty.int = Ty.bool := heq
    cases heq

end State
end TypeInference

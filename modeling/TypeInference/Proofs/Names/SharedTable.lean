import TypeInference.Inference.Checker
import TypeInference.Proofs.Names.Interning

/-! Inference that asks a shared table for the names of receivers. Such a question can enter a text,
so the table is part of the state. It never does in a table that begins with the names of the base
types, and the runs are those without a table. -/
namespace TypeInference

/-- Actions that can change a table of names. Changes made before a failure stay here, too. -/
abbrev Shared := EStateM Failure (State × NameTable)

namespace Shared

variable {α β : Type}

def lift (act : Infer α) : Shared α := fun w =>
  match act w.1 with
  | .ok a s => .ok a (s, w.2)
  | .error e s => .error e (s, w.2)

def nominalName (t : Ty) : Shared (Option Name) := fun w =>
  .ok (t.internNominal w.2).1 (w.1, (t.internNominal w.2).2)

def withBinding (x : Name) (σ : Scheme) (act : Shared α) : Shared α := fun w =>
  let old := w.1.env[x]?
  match act ({ w.1 with env := w.1.env.insert x σ }, w.2) with
  | .ok a w => .ok a ({ w.1 with env := w.1.env.restore x old }, w.2)
  | .error e w => .error e ({ w.1 with env := w.1.env.restore x old }, w.2)

instance : Host (State × NameTable) where
  lift := lift
  withBinding := withBinding
  nominalName := nominalName

def inferExpr (p : Program) : ExprId → Shared Ty := Host.inferWithin p p.depth

def infer (p : Program) : ExprId → Shared Ty := Host.infer (inferExpr p)

def define (p : Program) : Name → ExprId → Shared Scheme := Host.define (inferExpr p)

def defineAll (p : Program) : List (Name × ExprId) → Shared Unit := Host.defineAll (inferExpr p)

/-- With this table, the action does what the other does without a table, and does not change the
table. -/
def Follows (names : NameTable) (act' : Shared α) (act : Infer α) : Prop :=
  ∀ s, act' (s, names) = lift act (s, names)

namespace Follows

variable {names : NameTable} {act : Infer α} {act' : Shared α} {go : ExprId → Infer Ty}
    {go' : ExprId → Shared Ty}

theorem of_lift (act : Infer α) : Follows names (lift act) act := fun _ => rfl

theorem pure (a : α) : Follows names (Pure.pure a) (Pure.pure a) := fun _ => rfl

theorem bind {f : α → Infer β} {f' : α → Shared β} (h : Follows names act' act)
    (hf : ∀ a, Follows names (f' a) (f a)) : Follows names (act' >>= f') (act >>= f) := by
  intro s
  have hs := h s
  change EStateM.bind act' f' (s, names) = lift (EStateM.bind act f) (s, names)
  rw [EStateM.bind, hs, lift, lift, EStateM.bind]
  cases act s with
  | ok a s' => exact hf a s'
  | error e s' => rfl

theorem withBinding (x : Name) (σ : Scheme) (h : Follows names act' act) :
    Follows names (Shared.withBinding x σ act') (Infer.withBinding x σ act) := by
  intro s
  simp only [Shared.withBinding, lift, Infer.withBinding]
  rw [h, lift]
  cases act { s with env := s.env.insert x σ } <;> rfl

section Rules

variable (hgo : ∀ id, Follows names (go' id) (go id))
include hgo

theorem lambda (x : Name) (body : ExprId) :
    Follows names (Infer.lambda go' x body) (Infer.lambda go x body) :=
  (of_lift _).bind fun _ => ((hgo body).withBinding x _).bind fun _ => pure _

theorem letIn (x : Name) (value body : ExprId) :
    Follows names (Infer.letIn go' x value body) (Infer.letIn go x value body) :=
  (hgo value).bind fun _ => (of_lift _).bind fun _ => (hgo body).withBinding x _

theorem apply (func arg : ExprId) :
    Follows names (Infer.apply go' func arg) (Infer.apply go func arg) :=
  (hgo func).bind fun _ => (hgo arg).bind fun _ => (of_lift _).bind fun _ =>
    (of_lift _).bind fun _ => pure _

theorem ternary (c t e : ExprId) :
    Follows names (Infer.ternary go' c t e) (Infer.ternary go c t e) :=
  (hgo t).bind fun _ => (hgo c).bind fun _ => (hgo e).bind fun _ =>
    (of_lift _).bind fun _ => (of_lift _).bind fun _ => pure _

theorem elements (ids : List ExprId) :
    Follows names (Infer.elements go' ids) (Infer.elements go ids) := by
  induction ids with
  | nil => exact pure _
  | cons id ids ih => exact (hgo id).bind fun _ => ih.bind fun _ => pure _

theorem tuple (table : ExprTable) (r : ExprRange) :
    Follows names (Infer.tuple go' table r) (Infer.tuple go table r) :=
  (of_lift _).bind fun ids => (elements hgo ids).bind fun _ => pure _

end Rules

variable (hnames : ∀ t : Ty, t.internNominal names = (t.nominalName?, names))
include hnames

theorem receiverName (m : Name) (t : Ty) :
    Follows names (Infer.receiverName m t) (Infer.receiverName m t) := by
  cases t with
  | fn p r => exact of_lift (Infer.fail (.arrowMember m))
  | tuple ts => exact of_lift (Infer.fail (.unsupportedReceiver (.tuple ts) m))
  | _ =>
    intro s
    simp only [Infer.receiverName, Host.nominalName, Bind.bind, EStateM.bind, nominalName, hnames]
    rfl

variable (hgo : ∀ id, Follows names (go' id) (go id))
include hgo

theorem member (d : Declarations) (receiver : ExprId) (m : Name) :
    Follows names (Infer.member go' d receiver m) (Infer.member go d receiver m) :=
  (hgo receiver).bind fun _ => (of_lift _).bind fun r =>
    (receiverName hnames m r).bind fun _ => of_lift _

theorem node (p : Program) (e : Expr) : Follows names (Infer.node go' p e) (Infer.node go p e) := by
  cases e with
  | ident x => exact of_lift _
  | lambda x body => exact lambda hgo x body
  | apply func arg => exact apply hgo func arg
  | letIn x value body => exact letIn hgo x value body
  | ternary c t e => exact ternary hgo c t e
  | member receiver m => exact member hnames hgo p.declarations receiver m
  | tuple r => exact tuple hgo p.table r
  | _ => exact pure _

omit hgo

theorem inferWithin (p : Program) (depth : Nat) (id : ExprId) :
    Follows names (Host.inferWithin p depth id) (p.inferWithin depth id) := by
  induction depth generalizing id with
  | zero => exact of_lift (throw (.fault .tooDeep))
  | succ depth ih => exact (of_lift _).bind fun e => node hnames ih p e

theorem infer (p : Program) (id : ExprId) : Follows names (Shared.infer p id) (p.infer id) :=
  (of_lift _).bind fun _ => (inferWithin hnames p _ id).bind fun _ => of_lift _

theorem define (p : Program) (x : Name) (id : ExprId) :
    Follows names (Shared.define p x id) (p.define x id) :=
  (of_lift _).bind fun _ => (inferWithin hnames p _ id).bind fun _ => (of_lift _).bind fun _ =>
    (of_lift _).bind fun _ => (of_lift _).bind fun _ => pure _

theorem defineAll (p : Program) (defs : List (Name × ExprId)) :
    Follows names (Shared.defineAll p defs) (p.defineAll defs) := by
  induction defs with
  | nil => exact pure _
  | cons d defs ih => exact (define hnames p d.1 d.2).bind fun _ => ih

end Follows
end Shared

namespace NameTable

variable {t : NameTable} {calls : List Call}

/-- Whatever a table was asked for before, as long as names can count its texts: it refuses no text;
it gives two texts the same name only if they are equal, also when one is asked for later; a name
keeps its text, and a text its name; every position is the name of its text; there are as many
positions as texts that were asked for, and one more after a new text; and neither the name of a
type nor a run of inference changes the table. -/
theorem interning_bijective (ht : initial.after calls = t) (hroom : t.size ≤ maxId) :
    (∀ s, t.internChecked s = .ok (t.intern s) ∧ (t.intern s).1.id ≤ maxId) ∧
    (∀ s later, let n := (t.intern s).1
      let t' := (t.intern s).2.after later
      t'.lookup n = s ∧ t'.find? s = some n ∧ ∀ u, (t'.intern u).1 = n ↔ u = s) ∧
    (∀ n : Name, n.id < t.size → t.intern (t.lookup n) = (n, t)) ∧
    t.size = (texts calls).toFinset.card ∧
    (∀ s, (t.intern s).2.size = if s ∈ texts calls then t.size else t.size + 1) ∧
    (∀ ty : Ty, ty.internNominal t = (ty.nominalName?, t)) ∧
    ∀ p : Program, (∀ id, Shared.Follows t (Shared.infer p id) (p.infer id)) ∧
      (∀ x id, Shared.Follows t (Shared.define p x id) (p.define x id)) ∧
      ∀ defs, Shared.Follows t (Shared.defineAll p defs) (p.defineAll defs) := by
  subst ht
  have hsound := sound_initial.after calls
  have hnames := internNominal_after calls
  refine ⟨fun s => ⟨internChecked_of_size_le hroom s, ?_⟩, fun s later => ?_, fun n hn => ?_,
    size_after hroom, size_intern_after hroom, hnames,
    fun p => ⟨Shared.Follows.infer hnames p, Shared.Follows.define hnames p,
      Shared.Follows.defineAll hnames p⟩⟩
  · have hid := (hsound.intern s).id_lt (find?_intern _ s)
    rw [size_intern_after hroom] at hid
    split at hid <;> omega
  · have hlater := (hsound.intern s).after later
    have hfind : (((initial.after calls).intern s).2.after later).find? s =
        some ((initial.after calls).intern s).1 :=
      find?_after_of_find? (find?_intern _ s)
    exact ⟨hlater.lookup hfind, hfind, fun u => hlater.intern_eq_iff hfind⟩
  · exact intern_of_find? (hsound.find?_lookup hn)

def repeatedCalls : List Call := [.intern "map", .internChecked "Bool", .internChecked "map"]

theorem interning_bijective_repeated :
    (initial.after repeatedCalls).size = 6 ∧ (texts repeatedCalls).length = 8 ∧
      (((initial.after repeatedCalls).intern "fold").2.after [.intern "zip"]).lookup ⟨6⟩ = "fold" ∧
      ((initial.after repeatedCalls).intern "map").2.size = 6 ∧
      Ty.int.internNominal (initial.after repeatedCalls) =
        (some .int, initial.after repeatedCalls) ∧
      ∀ (p : Program) (id : ExprId),
        Shared.Follows (initial.after repeatedCalls) (Shared.infer p id) (p.infer id) := by
  have hsize : (initial.after repeatedCalls).size = 6 := by decide +kernel
  have hfold : ((initial.after repeatedCalls).intern "fold").1 = ⟨6⟩ := by decide +kernel
  obtain ⟨-, hkeep, -, -, hgrow, hnames, hruns⟩ :=
    interning_bijective (rfl : initial.after repeatedCalls = _) (hsize ▸ by decide)
  refine ⟨hsize, rfl, hfold ▸ (hkeep "fold" [.intern "zip"]).1, ?_, hnames .int,
    fun p => (hruns p).1⟩
  rw [hgrow, if_pos (by decide), hsize]

end NameTable
end TypeInference

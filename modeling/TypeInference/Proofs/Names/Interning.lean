import Mathlib
import TypeInference.Ty.Basic

/-! Tables of names over their whole life. The map from texts to names and the sequence of texts are
inverse to each other at the start, and entering a text keeps them so. Hence a text has one name and
a name has one text, whatever is interned before and after, and the table grows with each new text.
The names of the base types are there from the start, so asking for them changes nothing. -/
namespace TypeInference

theorem Ty.internNominal_of_baseText? {t : Ty} {s : String} (h : t.baseText? = some s)
    (names : NameTable) :
    t.internNominal names = (some (names.intern s).1, (names.intern s).2) := by
  cases t <;> simp_all [internNominal, baseText?]

namespace NameTable

variable {t : NameTable} {s u : String} {n : Name}

/-- The map finds a text under a name exactly if the sequence has the text at the position of the
name. -/
def Sound (t : NameTable) : Prop :=
  ∀ (s : String) (n : Name), t.find? s = some n ↔ t.strings[n.id]? = some s

theorem intern_of_find? (h : t.find? s = some n) : t.intern s = (n, t) := by
  rw [intern, h]

theorem intern_of_new (h : t.find? s = none) :
    t.intern s = (⟨t.size⟩, ⟨t.names.insert s ⟨t.size⟩, t.strings.push s⟩) := by
  rw [intern, h]
  simp only
  rw [enter, h]

theorem find?_intern_of_ne (h : u ≠ s) : (t.intern s).2.find? u = t.find? u := by
  cases hs : t.find? s with
  | some n => rw [intern_of_find? hs]
  | none =>
    rw [intern_of_new hs, find?, find?, Std.ExtTreeMap.getElem?_insert]
    simp [Ne.symm h]

theorem find?_intern (t : NameTable) (s : String) :
    (t.intern s).2.find? s = some (t.intern s).1 := by
  cases hs : t.find? s with
  | some n => rw [intern_of_find? hs, hs]
  | none =>
    rw [intern_of_new hs, find?]
    simp

theorem find?_intern_of_find? (h : t.find? u = some n) : (t.intern s).2.find? u = some n := by
  by_cases hus : u = s
  · subst hus
    rw [intern_of_find? h, h]
  · rw [find?_intern_of_ne hus, h]

theorem size_intern (t : NameTable) (s : String) :
    (t.intern s).2.size = if t.find? s = none then t.size + 1 else t.size := by
  cases hs : t.find? s with
  | some n => simp [intern_of_find? hs]
  | none => simp [intern_of_new hs, size]

namespace Sound

theorem lookup (h : t.Sound) (hs : t.find? s = some n) : t.lookup n = s := by
  rw [NameTable.lookup, (h s n).1 hs, Option.getD_some]

theorem find?_injective (h : t.Sound) (hs : t.find? s = some n)
    (hu : t.find? u = some n) : s = u := by
  rw [← h.lookup hs, h.lookup hu]

theorem find?_lookup (h : t.Sound) (hn : n.id < t.size) : t.find? (t.lookup n) = some n := by
  have hget : t.strings[n.id]? = some t.strings[n.id] := Array.getElem?_eq_getElem hn
  rw [NameTable.lookup, hget, Option.getD_some]
  exact (h _ n).2 hget

theorem id_lt (h : t.Sound) (hs : t.find? s = some n) : n.id < t.size := by
  have hget := (h s n).1 hs
  by_contra hn
  rw [Array.getElem?_eq_none (Nat.le_of_not_lt hn)] at hget
  cases hget

theorem nodup (h : t.Sound) : t.strings.toList.Nodup := by
  rw [List.nodup_iff_injective_getElem]
  intro i j hij
  have hi : t.find? t.strings.toList[i.val] = some ⟨i⟩ := (h _ ⟨i⟩).2 (by simp)
  have hj : t.find? t.strings.toList[j.val] = some ⟨j⟩ := (h _ ⟨j⟩).2 (by simp)
  have heq : t.strings.toList[i.val] = t.strings.toList[j.val] := hij
  rw [heq, hj] at hi
  exact Fin.ext (congrArg Name.id (Option.some.inj hi)).symm

theorem mem_strings (h : t.Sound) : s ∈ t.strings ↔ t.find? s ≠ none := by
  rw [Array.mem_iff_getElem?]
  constructor
  · rintro ⟨i, hi⟩ hnone
    rw [(h s ⟨i⟩).2 hi] at hnone
    cases hnone
  · intro hs
    obtain ⟨n, hn⟩ := Option.ne_none_iff_exists'.1 hs
    exact ⟨n.id, (h s n).1 hn⟩

theorem intern (h : t.Sound) (s : String) : (t.intern s).2.Sound := by
  cases hs : t.find? s with
  | some n => rwa [intern_of_find? hs]
  | none =>
    rintro u ⟨i⟩
    by_cases hus : u = s
    · subst hus
      have hold : t.strings[i]? ≠ some u := by
        intro hget
        rw [(h u ⟨i⟩).2 hget] at hs
        cases hs
      rw [find?_intern, intern_of_new hs, Array.getElem?_push, Option.some.injEq, Name.mk.injEq]
      split
      · next hi => simpa [size] using hi.symm
      · next hi => simp [hold, Ne.symm hi, size]
    · rw [find?_intern_of_ne hus, h u ⟨i⟩, intern_of_new hs, Array.getElem?_push]
      split
      · next hi =>
        rw [Array.getElem?_eq_none (Nat.le_of_eq hi.symm)]
        simp [Ne.symm hus]
      · rfl

end Sound

theorem Sound.intern_eq_iff (h : t.Sound) (hs : t.find? s = some n) :
    (t.intern u).1 = n ↔ u = s := by
  constructor
  · intro hu
    have hfind : (t.intern u).2.find? u = some n := hu ▸ t.find?_intern u
    exact (h.intern u).find?_injective hfind (find?_intern_of_find? hs)
  · rintro rfl
    rw [intern_of_find? hs]

def internAll (t : NameTable) (ss : List String) : NameTable :=
  ss.foldl (fun t s => (t.intern s).2) t

variable {ss : List String}

@[simp] theorem internAll_cons (t : NameTable) (s : String) (ss : List String) :
    t.internAll (s :: ss) = (t.intern s).2.internAll ss := rfl

theorem internAll_append (t : NameTable) (ss later : List String) :
    t.internAll (ss ++ later) = (t.internAll ss).internAll later := List.foldl_append

theorem Sound.internAll (h : t.Sound) (ss : List String) : (t.internAll ss).Sound := by
  induction ss generalizing t with
  | nil => exact h
  | cons s ss ih => exact ih (h.intern s)

theorem find?_internAll_of_find? (h : t.find? u = some n) : (t.internAll ss).find? u = some n := by
  induction ss generalizing t with
  | nil => exact h
  | cons s ss ih => exact ih (find?_intern_of_find? h)

/-- Besides what was there, exactly the interned texts are found. -/
theorem find?_internAll_ne_none : (t.internAll ss).find? u ≠ none ↔ t.find? u ≠ none ∨ u ∈ ss := by
  induction ss generalizing t with
  | nil => simp [internAll]
  | cons s ss ih =>
    rw [internAll_cons, ih]
    by_cases hus : u = s
    · subst hus
      simp [find?_intern]
    · simp [find?_intern_of_ne hus, hus]

theorem size_le_internAll (t : NameTable) (ss : List String) : t.size ≤ (t.internAll ss).size := by
  induction ss generalizing t with
  | nil => exact le_rfl
  | cons s ss ih =>
    have hstep : t.size ≤ (t.intern s).2.size := by
      rw [size_intern]
      split <;> omega
    exact hstep.trans (ih (t.intern s).2)

inductive Call where
  | intern (s : String)
  | internChecked (s : String)

def Call.text : Call → String
  | .intern s | .internChecked s => s

/-- The table after the request. A refused text leaves it as it is. -/
def Call.run (t : NameTable) : Call → NameTable
  | .intern s => (t.intern s).2
  | .internChecked s =>
    match t.internChecked s with
    | .ok (_, t') => t'
    | .error _ => t

def after (t : NameTable) (calls : List Call) : NameTable := calls.foldl Call.run t

/-- All texts that were asked for, those that every table begins with included. -/
def texts (calls : List Call) : List String := "" :: baseTexts ++ calls.map Call.text

variable {c : Call} {calls : List Call}

@[simp] theorem after_cons (t : NameTable) (c : Call) (calls : List Call) :
    t.after (c :: calls) = (c.run t).after calls := rfl

theorem internChecked_of_size_le (h : t.size ≤ maxId) (s : String) :
    t.internChecked s = .ok (t.intern s) := by
  rw [internChecked, if_neg fun hfull => Nat.not_lt.2 h hfull.2]

theorem Call.run_of_size_le (h : t.size ≤ maxId) (c : Call) : c.run t = (t.intern c.text).2 := by
  cases c with
  | intern s => rfl
  | internChecked s => rw [run, internChecked_of_size_le h, text]

theorem Call.exists_run_eq (t : NameTable) (c : Call) : ∃ ss, c.run t = t.internAll ss := by
  cases c with
  | intern s => exact ⟨[s], rfl⟩
  | internChecked s =>
    by_cases hfull : t.find? s = none ∧ maxId < t.size
    · exact ⟨[], by rw [run, NameTable.internChecked, if_pos hfull]; rfl⟩
    · exact ⟨[s], by rw [run, NameTable.internChecked, if_neg hfull]; rfl⟩

theorem exists_after_eq (t : NameTable) (calls : List Call) :
    ∃ ss, t.after calls = t.internAll ss := by
  induction calls generalizing t with
  | nil => exact ⟨[], rfl⟩
  | cons c calls ih =>
    obtain ⟨first, hfirst⟩ := c.exists_run_eq t
    obtain ⟨rest, hrest⟩ := ih (c.run t)
    exact ⟨first ++ rest, by rw [after_cons, hrest, hfirst, internAll_append]⟩

theorem size_le_after (t : NameTable) (calls : List Call) : t.size ≤ (t.after calls).size := by
  obtain ⟨ss, hss⟩ := t.exists_after_eq calls
  exact hss ▸ t.size_le_internAll ss

theorem Sound.after (h : t.Sound) (calls : List Call) : (t.after calls).Sound := by
  obtain ⟨ss, hss⟩ := t.exists_after_eq calls
  exact hss ▸ h.internAll ss

theorem find?_after_of_find? (h : t.find? u = some n) : (t.after calls).find? u = some n := by
  obtain ⟨ss, hss⟩ := t.exists_after_eq calls
  exact hss ▸ find?_internAll_of_find? h

/-- A table that has had room to the end has refused nothing. -/
theorem after_eq_internAll (hroom : (t.after calls).size ≤ maxId) :
    t.after calls = t.internAll (calls.map Call.text) := by
  induction calls generalizing t with
  | nil => rfl
  | cons c calls ih =>
    have ht : t.size ≤ maxId := (t.size_le_after (c :: calls)).trans hroom
    rw [after_cons] at hroom ⊢
    rw [ih hroom, c.run_of_size_le ht, List.map_cons, internAll_cons]

def bare : NameTable := ⟨∅, #[]⟩

theorem sound_bare : bare.Sound := fun s n => by simp [bare, find?]

theorem initial_eq : initial = bare.internAll ("" :: baseTexts) := by
  have hblank : blank = (bare.intern "").2 := by
    rw [intern_of_new (by simp [bare, find?])]
    rfl
  rw [internAll_cons, ← hblank]
  rfl

theorem sound_initial : initial.Sound := initial_eq ▸ sound_bare.internAll _

theorem find?_after_ne_none (hroom : (initial.after calls).size ≤ maxId) :
    (initial.after calls).find? s ≠ none ↔ s ∈ texts calls := by
  rw [after_eq_internAll hroom, initial_eq, ← internAll_append, find?_internAll_ne_none, texts]
  simp [bare, find?]

theorem size_after (hroom : (initial.after calls).size ≤ maxId) :
    (initial.after calls).size = (texts calls).toFinset.card := by
  have hsound := sound_initial.after calls
  have hmem : (initial.after calls).strings.toList.toFinset = (texts calls).toFinset := by
    ext s
    rw [List.mem_toFinset, List.mem_toFinset, Array.mem_toList_iff, hsound.mem_strings,
      find?_after_ne_none hroom]
  rw [← hmem, List.toFinset_card_of_nodup hsound.nodup, Array.length_toList, size]

theorem size_intern_after (hroom : (initial.after calls).size ≤ maxId) (s : String) :
    ((initial.after calls).intern s).2.size =
      if s ∈ texts calls then (initial.after calls).size else (initial.after calls).size + 1 := by
  have hfound := find?_after_ne_none (s := s) hroom
  rw [size_intern]
  by_cases hs : s ∈ texts calls
  · rw [if_pos hs, if_neg (hfound.2 hs)]
  · rw [if_neg hs, if_pos (not_not.1 (mt hfound.1 hs))]

theorem exists_nominalName {ty : Ty} (h : ty.baseText? = some s) :
    ∃ n, ty.nominalName? = some n ∧ initial.find? s = some n := by
  have hfind : ∀ n : Name, initial.strings[n.id]? = some s → initial.find? s = some n :=
    fun n => (sound_initial s n).2
  cases ty with
  | bool => exact ⟨.bool, rfl, hfind _ h⟩
  | int => exact ⟨.int, rfl, hfind _ h⟩
  | float => exact ⟨.float, rfl, hfind _ h⟩
  | str => exact ⟨.string, rfl, hfind _ h⟩
  | _ => cases h

theorem internNominal_after (calls : List Call) (ty : Ty) :
    ty.internNominal (initial.after calls) = (ty.nominalName?, initial.after calls) := by
  cases hs : ty.baseText? with
  | some s =>
    obtain ⟨n, hn, hfind⟩ := exists_nominalName hs
    have hintern : (initial.after calls).intern s = (n, initial.after calls) :=
      intern_of_find? (find?_after_of_find? hfind)
    rw [Ty.internNominal_of_baseText? hs, hintern, hn]
  | none => cases ty <;> simp_all [Ty.internNominal, Ty.baseText?, Ty.nominalName?]

end NameTable
end TypeInference

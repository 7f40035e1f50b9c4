import Mathlib
import TypeInference.Ty.Display

/-! Types can be read off their texts. Round brackets stand around tuples and around parameters,
arrows have none of their own, and `>` closes arguments as well as ending an arrow. Still the text
of a type shows where the type ends, as long as what comes next closes or separates, and it is the
text of no other type. All that is asked of the names of nominal types is that they have different
texts, without marks, that are not those of base types. -/
namespace TypeInference
namespace Ty

/-- The characters that the texts of types are put together with. -/
def marks : List Char := ['(', ')', '<', '>', ',', '?', '-', ' ']

/-- A word has at least one character and no marks. Letters, digits and underscores of any script
are no marks. -/
def IsWord (w : List Char) : Prop := w ≠ [] ∧ ∀ c ∈ w, c ∉ marks

def baseWords : List String := ["bool", "int", "float", "str"]

mutual

def nominalNames : Ty → List Name
  | .fn p r => nominalNames p ++ nominalNames r
  | .tuple ts => nominalNamesAll ts
  | .named n ts => n :: nominalNamesAll ts
  | .bool | .int | .float | .str | .var _ => []

def nominalNamesAll : List Ty → List Name
  | [] => []
  | t :: ts => nominalNames t ++ nominalNamesAll ts

end

/-- The names have different texts, all of them words, and none of them the text of a base type. -/
structure Legible (names : NameTable) (ns : List Name) : Prop where
  isWord : ∀ n ∈ ns, IsWord (names.lookup n).toList
  notBase : ∀ n ∈ ns, names.lookup n ∉ baseWords
  distinct : ∀ n ∈ ns, ∀ m ∈ ns, names.lookup n = names.lookup m → n = m

variable {names : NameTable} {ns : List Name} {a b t : Ty} {ts us : List Ty} {r s w : List Char}

@[simp] theorem nominalNamesAll_eq (ts : List Ty) :
    nominalNamesAll ts = ts.flatMap nominalNames := by
  induction ts with
  | nil => rfl
  | cons t ts ih => simp [nominalNamesAll, ih]

theorem isWord_of_alphanum (hne : w ≠ []) (h : ∀ c ∈ w, c.isAlphanum = true ∨ c = '_') :
    IsWord w := by
  refine ⟨hne, fun c hc hm => ?_⟩
  have hmarks : ∀ c ∈ marks, c.isAlphanum = false ∧ c ≠ '_' := by simp [marks]
  rcases h c hc with hc | hc
  · simp [(hmarks c hm).1] at hc
  · exact (hmarks c hm).2 hc

/-- Before a mark or at the end, a word can be told from every other. -/
theorem word_append_inj {w' s' : List Char} (hw : ∀ c ∈ w, c ∉ marks) (hw' : ∀ c ∈ w', c ∉ marks)
    (hs : ∀ c ∈ s.head?, c ∈ marks) (hs' : ∀ c ∈ s'.head?, c ∈ marks) (h : w ++ s = w' ++ s') :
    w = w' ∧ s = s' := by
  induction w generalizing w' with
  | nil =>
    cases w' with
    | nil => exact ⟨rfl, h⟩
    | cons c w' =>
      subst h
      exact absurd (hs c rfl) (hw' c List.mem_cons_self)
  | cons c w ih =>
    cases w' with
    | nil =>
      rw [List.nil_append] at h
      subst h
      exact absurd (hs' c rfl) (hw c List.mem_cons_self)
    | cons d w' =>
      obtain ⟨rfl, htail⟩ := List.cons.inj h
      obtain ⟨rfl, hrest⟩ := ih (fun c hc => hw c (List.mem_cons_of_mem _ hc))
        (fun c hc => hw' c (List.mem_cons_of_mem _ hc)) htail
      exact ⟨rfl, hrest⟩

def chars (names : NameTable) (t : Ty) : List Char := (t.display names).toList

def separated (names : NameTable) (ts : List Ty) : List Char :=
  ts.flatMap fun t => ',' :: ' ' :: t.chars names

def listed (names : NameTable) (ts : List Ty) : List Char := (displayAll names ts).toList

def angled (names : NameTable) : List Ty → List Char
  | [] => []
  | ts => '<' :: (listed names ts ++ ['>'])

theorem listed_cons (names : NameTable) (t : Ty) (ts : List Ty) :
    listed names (t :: ts) = t.chars names ++ separated names ts := by
  induction ts generalizing t with
  | nil => simp [listed, displayAll, separated, chars]
  | cons u ts ih =>
    have h : listed names (t :: u :: ts) = t.chars names ++ ',' :: ' ' :: listed names
        (u :: ts) := by
      simp [listed, displayAll, chars]
    rw [h, ih]
    simp [separated]

theorem chars_var (names : NameTable) (v : TyVar) :
    (var v).chars names = '?' :: (toString v.id).toList := by
  simp [chars, display, TyVar.display]

theorem chars_fn (names : NameTable) (p q : Ty) :
    (fn p q).chars names = '(' ::
      (listed names [p] ++ ')' :: ' ' :: '-' :: '>' :: ' ' :: q.chars names) := by
  simp [chars, display, listed, displayAll]

theorem chars_tuple (names : NameTable) (ts : List Ty) :
    (tuple ts).chars names = '(' :: (listed names ts ++ [')']) := by
  simp [chars, display, listed]

theorem chars_named (names : NameTable) (n : Name) (ts : List Ty) :
    (named n ts).chars names = (names.lookup n).toList ++ angled names ts := by
  cases ts with
  | nil => simp [chars, display, angled]
  | cons t ts => simp [chars, display, angled, listed]

/-- The mark that the text of a type begins with; base types and nominal types begin with a word. -/
def openingMark : Ty → Option Char
  | .var _ => some '?'
  | .fn _ _ | .tuple _ => some '('
  | .bool | .int | .float | .str | .named _ _ => none

def word (names : NameTable) : Ty → String
  | .bool => "bool"
  | .int => "int"
  | .float => "float"
  | .str => "str"
  | .named n _ => names.lookup n
  | .var _ | .fn _ _ | .tuple _ => ""

def args : Ty → List Ty
  | .named _ ts => ts
  | _ => []

theorem isPrimitive_or_named (h : t.openingMark = none) :
    t.isPrimitive = true ∨ ∃ n ts, t = named n ts := by
  cases t <;> simp_all [openingMark, isPrimitive]

theorem chars_of_word (names : NameTable) (h : t.openingMark = none) :
    t.chars names = (t.word names).toList ++ angled names t.args := by
  rcases isPrimitive_or_named h with hbase | ⟨n, ts, rfl⟩
  · cases t <;> simp_all [isPrimitive, chars, display, word, angled, args]
  · exact chars_named names n ts

theorem word_mem_baseWords (names : NameTable) (h : t.isPrimitive = true) :
    t.word names ∈ baseWords := by
  cases t <;> simp_all [isPrimitive, word, baseWords]

theorem eq_of_word_eq (ha : a.isPrimitive = true) (hb : b.isPrimitive = true)
    (h : a.word names = b.word names) : a = b := by
  cases a <;> cases b <;> simp_all [isPrimitive, word]

theorem isWord_of_mem_baseWords : ∀ s ∈ baseWords, IsWord s.toList := by
  simp [baseWords, IsWord, marks]

theorem Legible.isWord_word (hl : Legible names ns) (ht : t.nominalNames ⊆ ns)
    (h : t.openingMark = none) : IsWord (t.word names).toList := by
  rcases isPrimitive_or_named h with hbase | ⟨n, ts, rfl⟩
  · exact isWord_of_mem_baseWords _ (word_mem_baseWords names hbase)
  · exact hl.isWord n (ht List.mem_cons_self)

theorem Legible.openingMark_eq (hl : Legible names ns) (ht : t.nominalNames ⊆ ns) (r : List Char) :
    t.openingMark = (t.chars names ++ r).head?.filter (· ∈ marks) := by
  cases h : t.openingMark with
  | none =>
    obtain ⟨hne, hw⟩ := hl.isWord_word ht h
    rw [chars_of_word names h]
    obtain ⟨c, w, hcw⟩ := List.exists_cons_of_ne_nil hne
    rw [hcw] at hw ⊢
    simp [Option.filter, hw c List.mem_cons_self]
  | some c =>
    cases t <;> cases h
    · rw [chars_var]
      rfl
    · rw [chars_fn]
      rfl
    · rw [chars_tuple]
      rfl

/-- Texts that agree begin with the same mark, or both with a word. -/
theorem Legible.openingMark_congr (hl : Legible names ns) (ha : a.nominalNames ⊆ ns)
    (hb : b.nominalNames ⊆ ns) (h : a.chars names ++ r = b.chars names ++ s) :
    a.openingMark = b.openingMark := by
  rw [hl.openingMark_eq ha r, hl.openingMark_eq hb s, h]

theorem Legible.not_begins_with_closing (hl : Legible names ns)
    (ht : t.nominalNames ⊆ ns) {c : Char} (hc : c = ')' ∨ c = '>') :
    t.chars names ++ r ≠ c :: s := by
  intro h
  have hmark := hl.openingMark_eq ht r
  rw [h] at hmark
  rcases hc with rfl | rfl <;> cases t <;> simp [openingMark, marks, Option.filter] at hmark

/-- What may come after a type: nothing, or a mark that closes or separates. -/
def Ends (r : List Char) : Prop := ∀ c ∈ r.head?, c = ')' ∨ c = ',' ∨ c = '>'

/-- The text shows the type, and where it ends, among all types with these names. -/
def Readable (names : NameTable) (ns : List Name) (t : Ty) : Prop :=
  ∀ u : Ty, u.nominalNames ⊆ ns → ∀ r s, Ends r → Ends s →
    t.chars names ++ r = u.chars names ++ s → t = u ∧ r = s

theorem ends_closing {c : Char} (hc : c = ')' ∨ c = '>') (r : List Char) : Ends (c :: r) := by
  intro d hd
  obtain rfl : c = d := by simpa using hd
  exact hc.imp_right .inr

theorem ends_separated (names : NameTable) (ts : List Ty) (hr : Ends r) :
    Ends (separated names ts ++ r) := by
  cases ts with
  | nil => exact hr
  | cons t ts =>
    intro c hc
    obtain rfl : ',' = c := by simpa [separated] using hc
    exact .inr (.inl rfl)

theorem Ends.mem_marks (hr : Ends r) : ∀ c ∈ r.head?, c ∈ marks := by
  intro c hc
  rcases hr c hc with rfl | rfl | rfl <;> simp [marks]

theorem mem_marks_angled (names : NameTable) (ts : List Ty) (hr : Ends r) :
    ∀ c ∈ (angled names ts ++ r).head?, c ∈ marks := by
  cases ts with
  | nil => exact hr.mem_marks
  | cons t ts => simp [angled, marks]

/-- Types are told apart one after the other, up to a mark that closes. -/
theorem separated_append_inj {c : Char} (hts : ∀ t ∈ ts, Readable names ns t)
    (hus : ∀ u ∈ us, u.nominalNames ⊆ ns) (hc : c = ')' ∨ c = '>')
    (h : separated names ts ++ c :: r = separated names us ++ c :: s) : ts = us ∧ r = s := by
  have hcomma : c ≠ ',' := by rcases hc with rfl | rfl <;> decide
  induction ts generalizing us with
  | nil =>
    cases us with
    | nil => exact ⟨rfl, (List.cons.inj h).2⟩
    | cons u us => exact absurd (List.cons.inj h).1 hcomma
  | cons t ts ih =>
    cases us with
    | nil => exact absurd (List.cons.inj h).1.symm hcomma
    | cons u us =>
      have htext : t.chars names ++ (separated names ts ++ c :: r) =
          u.chars names ++ (separated names us ++ c :: s) := by
        simpa [separated] using h
      obtain ⟨rfl, hrest⟩ := hts t List.mem_cons_self u (hus u List.mem_cons_self) _ _
        (ends_separated names ts (ends_closing hc r))
          (ends_separated names us (ends_closing hc s)) htext
      obtain ⟨rfl, hrs⟩ := ih (fun t ht => hts t (List.mem_cons_of_mem _ ht))
        (fun u hu => hus u (List.mem_cons_of_mem _ hu)) hrest
      exact ⟨rfl, hrs⟩

theorem Legible.listed_append_inj (hl : Legible names ns) {c : Char}
    (hts : ∀ t ∈ ts, t.nominalNames ⊆ ns ∧ Readable names ns t)
    (hus : ∀ u ∈ us, u.nominalNames ⊆ ns) (hc : c = ')' ∨ c = '>')
    (h : listed names ts ++ c :: r = listed names us ++ c :: s) : ts = us ∧ r = s := by
  cases ts with
  | nil =>
    cases us with
    | nil => exact ⟨rfl, (List.cons.inj h).2⟩
    | cons u us =>
      rw [listed_cons, List.append_assoc] at h
      exact absurd h.symm (hl.not_begins_with_closing (hus u List.mem_cons_self) hc)
  | cons t ts =>
    cases us with
    | nil =>
      rw [listed_cons, List.append_assoc] at h
      exact absurd h (hl.not_begins_with_closing (hts t List.mem_cons_self).1 hc)
    | cons u us =>
      refine separated_append_inj (fun t ht => (hts t ht).2) hus hc ?_
      simpa [separated, listed_cons] using h

theorem Ends.ne_of_not_closing {c : Char} (hr : Ends r) (hc : c ≠ ')' ∧ c ≠ ',' ∧ c ≠ '>') :
    r ≠ c :: s := by
  rintro rfl
  rcases hr c rfl with h | h | h
  · exact hc.1 h
  · exact hc.2.1 h
  · exact hc.2.2 h

theorem Legible.angled_append_inj (hl : Legible names ns)
    (hts : ∀ t ∈ ts, t.nominalNames ⊆ ns ∧ Readable names ns t)
    (hus : ∀ u ∈ us, u.nominalNames ⊆ ns) (hr : Ends r) (hs : Ends s)
    (h : angled names ts ++ r = angled names us ++ s) : ts = us ∧ r = s := by
  cases ts with
  | nil =>
    cases us with
    | nil => exact ⟨rfl, h⟩
    | cons u us => exact absurd h (hr.ne_of_not_closing (by decide))
  | cons t ts =>
    cases us with
    | nil => exact absurd h.symm (hs.ne_of_not_closing (by decide))
    | cons u us =>
      refine hl.listed_append_inj hts hus (.inr rfl) ?_
      simpa [angled] using h

theorem nominalNames_subset_of_tuple (h : (tuple ts).nominalNames ⊆ ns) (ht : t ∈ ts) :
    t.nominalNames ⊆ ns := by
  intro n hn
  refine h ?_
  rw [nominalNames, nominalNamesAll_eq]
  exact List.mem_flatMap.2 ⟨t, ht, hn⟩

theorem nominalNames_subset_of_named {n : Name} (h : (named n ts).nominalNames ⊆ ns) (ht : t ∈ ts) :
    t.nominalNames ⊆ ns := by
  rw [nominalNames, List.cons_subset] at h
  exact nominalNames_subset_of_tuple h.2 ht

theorem digits_not_mem_marks (n : Nat) : ∀ c ∈ (toString n).toList, c ∉ marks := by
  intro c hc hm
  have hdigit : ∀ c ∈ marks, c.isDigit = false := by simp [marks]
  rw [Nat.toString_eq_ofList_toDigits, String.toList_ofList] at hc
  have hc := Nat.isDigit_of_mem_toDigits (by decide) (by decide) hc
  rw [hdigit c hm] at hc
  cases hc

theorem Legible.readable_var (hl : Legible names ns) (v : TyVar) : Readable names ns (var v) := by
  intro u hu r s hr hs h
  have hmark := hl.openingMark_congr (by simp [nominalNames]) hu h
  cases u with
  | var w =>
    rw [chars_var, chars_var] at h
    obtain ⟨hdigits, hrs⟩ := word_append_inj (digits_not_mem_marks v.id) (digits_not_mem_marks w.id)
      hr.mem_marks hs.mem_marks (List.cons.inj h).2
    have hid : v.id = w.id := Nat.repr_inj.1 (String.toList_inj.1 hdigits)
    exact ⟨congrArg (fun id => var ⟨id⟩) hid, hrs⟩
  | _ => cases hmark

theorem Legible.word_congr (hl : Legible names ns) (ha : a.nominalNames ⊆ ns)
    (hb : b.nominalNames ⊆ ns) (hr : Ends r) (hs : Ends s) (hword : a.openingMark = none)
    (h : a.chars names ++ r = b.chars names ++ s) :
    b.openingMark = none ∧ a.word names = b.word names ∧
      angled names a.args ++ r = angled names b.args ++ s := by
  have hword' : b.openingMark = none := (hl.openingMark_congr ha hb h).symm.trans hword
  rw [chars_of_word names hword, chars_of_word names hword', List.append_assoc, List.append_assoc]
    at h
  obtain ⟨hw, hrest⟩ := word_append_inj (hl.isWord_word ha hword).2 (hl.isWord_word hb hword').2
    (mem_marks_angled names a.args hr) (mem_marks_angled names b.args hs) h
  exact ⟨hword', String.toList_inj.1 hw, hrest⟩

theorem Legible.word_ne_lookup (hl : Legible names ns) {n : Name} (hn : n ∈ ns)
    (ht : t.isPrimitive = true) : t.word names ≠ names.lookup n := by
  intro h
  exact hl.notBase n hn (h ▸ word_mem_baseWords names ht)

theorem Legible.readable_base (hl : Legible names ns) (ht : t.isPrimitive = true) :
    Readable names ns t := by
  intro u hu r s hr hs h
  have hnames : t.nominalNames ⊆ ns := by cases t <;> simp_all [nominalNames, isPrimitive]
  have hmark : t.openingMark = none := by cases t <;> simp_all [openingMark, isPrimitive]
  have hargs : t.args = [] := by cases t <;> simp_all [args, isPrimitive]
  obtain ⟨hmark', hword, hrest⟩ := hl.word_congr hnames hu hr hs hmark h
  rcases isPrimitive_or_named hmark' with hu' | ⟨n, us, rfl⟩
  · obtain rfl := eq_of_word_eq ht hu' hword
    rw [hargs] at hrest
    exact ⟨rfl, hrest⟩
  · exact absurd hword (hl.word_ne_lookup (hu List.mem_cons_self) ht)

theorem Legible.readable_named (hl : Legible names ns) {n : Name}
    (ht : (named n ts).nominalNames ⊆ ns) (ih : ∀ t ∈ ts, Readable names ns t) :
    Readable names ns (named n ts) := by
  intro u hu r s hr hs h
  obtain ⟨hmark, hword, hrest⟩ := hl.word_congr ht hu hr hs rfl h
  have hn : n ∈ ns := ht List.mem_cons_self
  rcases isPrimitive_or_named hmark with hbase | ⟨m, us, rfl⟩
  · exact absurd hword.symm (hl.word_ne_lookup hn hbase)
  · obtain rfl := hl.distinct n hn m (hu List.mem_cons_self) hword
    obtain ⟨rfl, hrs⟩ :=
      hl.angled_append_inj (fun t h => ⟨nominalNames_subset_of_named ht h, ih t h⟩)
      (fun u h => nominalNames_subset_of_named hu h) hr hs hrest
    exact ⟨rfl, hrs⟩

/-- Text in round brackets that an arrow follows is a parameter, and any other is a tuple. -/
theorem Legible.readable_fn (hl : Legible names ns) {p q : Ty} (ht : (fn p q).nominalNames ⊆ ns)
    (ihp : Readable names ns p) (ihq : Readable names ns q) : Readable names ns (fn p q) := by
  intro u hu r s hr hs h
  have hmark := hl.openingMark_congr ht hu h
  have hp : ∀ t ∈ [p], t.nominalNames ⊆ ns ∧ Readable names ns t := by
    intro t h
    obtain rfl : t = p := by simpa using h
    exact ⟨(List.append_subset.1 ht).1, ihp⟩
  cases u with
  | fn p' q' =>
    obtain ⟨hp', hq'⟩ := List.append_subset.1 hu
    have hp' : ∀ t ∈ [p'], t.nominalNames ⊆ ns := by simpa using hp'
    rw [chars_fn, chars_fn] at h
    obtain ⟨hparam, hrest⟩ :=
      hl.listed_append_inj hp hp' (.inl rfl) (by simpa using (List.cons.inj h).2)
    obtain ⟨rfl, hrs⟩ := ihq q' hq' r s hr hs (by simpa using hrest)
    exact ⟨by rw [List.singleton_inj.1 hparam], hrs⟩
  | tuple us =>
    rw [chars_fn, chars_tuple] at h
    obtain ⟨-, hrest⟩ :=
      hl.listed_append_inj hp (fun u h => nominalNames_subset_of_tuple hu h) (.inl rfl)
      (by simpa using (List.cons.inj h).2)
    -- the arrow begins with a blank, and no blank comes right after a tuple
    exact absurd hrest.symm (hs.ne_of_not_closing (by decide))
  | _ => cases hmark

theorem Legible.readable_tuple (hl : Legible names ns) (ht : (tuple ts).nominalNames ⊆ ns)
    (ih : ∀ t ∈ ts, Readable names ns t) : Readable names ns (tuple ts) := by
  intro u hu r s hr hs h
  have hmark := hl.openingMark_congr ht hu h
  have hts : ∀ t ∈ ts, t.nominalNames ⊆ ns ∧ Readable names ns t := fun t h =>
    ⟨nominalNames_subset_of_tuple ht h, ih t h⟩
  cases u with
  | fn p q =>
    have hp : ∀ t ∈ [p], t.nominalNames ⊆ ns := by simpa using (List.append_subset.1 hu).1
    rw [chars_tuple, chars_fn] at h
    obtain ⟨-, hrest⟩ := hl.listed_append_inj hts hp (.inl rfl) (by simpa using (List.cons.inj h).2)
    exact absurd hrest (hr.ne_of_not_closing (by decide))
  | tuple us =>
    rw [chars_tuple, chars_tuple] at h
    obtain ⟨rfl, hrs⟩ :=
      hl.listed_append_inj hts (fun u h => nominalNames_subset_of_tuple hu h) (.inl rfl)
      (by simpa using (List.cons.inj h).2)
    exact ⟨rfl, hrs⟩
  | _ => cases hmark

theorem Legible.readable (hl : Legible names ns) (t : Ty) (ht : t.nominalNames ⊆ ns) :
    Readable names ns t := by
  induction t with
  | var v => exact hl.readable_var v
  | fn p q ihp ihq =>
    obtain ⟨hp, hq⟩ := List.append_subset.1 ht
    exact hl.readable_fn ht (ihp hp) (ihq hq)
  | tuple ts ih => exact hl.readable_tuple ht fun t h => ih t h (nominalNames_subset_of_tuple ht h)
  | named n ts ih =>
    exact hl.readable_named ht fun t h => ih t h (nominalNames_subset_of_named ht h)
  | _ => exact hl.readable_base rfl

/-- Different types have different texts, if the names in them can be told apart from each other and
from the rest of the text. -/
theorem display_eq_iff (hl : Legible names (a.nominalNames ++ b.nominalNames)) :
    a.display names = b.display names ↔ a = b := by
  constructor
  · intro h
    have hends : Ends [] := fun c hc => by cases hc
    have hchars : a.chars names ++ [] = b.chars names ++ [] := by rw [chars, chars, h]
    exact (hl.readable a (List.subset_append_left _ _) b (List.subset_append_right _ _) [] [] hends
      hends hchars).1
  · rintro rfl
    rfl

def twoNominals : NameTable := ((NameTable.initial.intern "List").2.intern "Map_2").2

def tupleToNominal : Ty := .fn (.tuple [.named ⟨5⟩ [.var ⟨0⟩]]) (.named ⟨6⟩ [])

/-- The text of the function is the text in the brackets of the tuple around it. -/
theorem display_eq_iff_in_brackets :
    Legible twoNominals (tupleToNominal.nominalNames ++ (tuple [tupleToNominal]).nominalNames) ∧
    tupleToNominal.display twoNominals = "((List<?0>)) -> Map_2" ∧
    (tuple [tupleToNominal]).display twoNominals = "(((List<?0>)) -> Map_2)" ∧
    tupleToNominal.display twoNominals ≠ (tuple [tupleToNominal]).display twoNominals := by
  have hfirst : twoNominals.lookup ⟨5⟩ = "List" := rfl
  have hsecond : twoNominals.lookup ⟨6⟩ = "Map_2" := rfl
  have hmem : ∀ n ∈ tupleToNominal.nominalNames ++ (tuple [tupleToNominal]).nominalNames, n = ⟨5⟩ ∨
      n = ⟨6⟩ := by
    decide
  have hl : Legible twoNominals
      (tupleToNominal.nominalNames ++ (tuple [tupleToNominal]).nominalNames) := by
    constructor
    · intro n hn
      rcases hmem n hn with rfl | rfl
      · rw [hfirst]
        exact isWord_of_alphanum (by simp) (by simp)
      · rw [hsecond]
        exact isWord_of_alphanum (by simp) (by simp)
    · intro n hn
      rcases hmem n hn with rfl | rfl <;> simp [hfirst, hsecond, baseWords]
    · intro n hn m hm h
      rcases hmem n hn with rfl | rfl <;> rcases hmem m hm with rfl | rfl <;> simp_all
  refine ⟨hl, rfl, rfl, fun h => ?_⟩
  cases (display_eq_iff hl).1 h

end Ty
end TypeInference

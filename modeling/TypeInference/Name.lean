import Std.Data.ExtTreeMap.Lemmas

/-! Names and the table that gives each of them its text. A name is the position of its text
in the table, so two names of one table are equal exactly when their texts are. -/
namespace TypeInference

structure Name where
  id : Nat
deriving DecidableEq

namespace Name

instance : Ord Name := ⟨fun a b => compare a.id b.id⟩

instance : Std.TransOrd Name := inferInstanceAs (Std.TransCmp (compareOn Name.id))

instance : Std.LawfulEqOrd Name where
  eq_of_compare {a b} h := by
    cases a
    cases b
    exact congrArg Name.mk (@Std.LawfulEqCmp.eq_of_compare Nat compare _ _ _ h)

def empty : Name := ⟨0⟩

def bool : Name := ⟨1⟩
def int : Name := ⟨2⟩
def float : Name := ⟨3⟩
def string : Name := ⟨4⟩

end Name

/-- Texts in the order in which they were first interned, and the name that each of them was
given. -/
structure NameTable where
  names : Std.ExtTreeMap String Name
  strings : Array String
deriving DecidableEq

structure NameTable.Full where
  count : Nat
deriving DecidableEq

namespace NameTable

def size (t : NameTable) : Nat := t.strings.size

def find? (t : NameTable) (s : String) : Option Name := t.names[s]?

/-- The text of a name; a name of another table has the empty text. -/
def lookup (t : NameTable) (n : Name) : String := t.strings[n.id]?.getD ""

/-- Enters a text at the end of the table. Whether it is new is looked up again, since a table can
be shared, and the text may have come in after the first look. -/
def enter (t : NameTable) (s : String) : Name × NameTable :=
  match t.find? s with
  | some n => (n, t)
  | none => (⟨t.size⟩, ⟨t.names.insert s ⟨t.size⟩, t.strings.push s⟩)

def intern (t : NameTable) (s : String) : Name × NameTable :=
  match t.find? s with
  | some n => (n, t)
  | none => t.enter s

def blank : NameTable := ⟨(∅ : Std.ExtTreeMap String Name).insert "" .empty, #[""]⟩

/-- The texts that every table begins with after the empty one: the names of the base types. -/
def baseTexts : List String := ["Bool", "Int", "Float", "String"]

def initial : NameTable := baseTexts.foldl (fun t s => (t.intern s).2) blank

def maxId : Nat := 4294967295

/-- Like `intern`, but refuses a new text once every name is in use. -/
def internChecked (t : NameTable) (s : String) : Except Full (Name × NameTable) :=
  if t.find? s = none ∧ maxId < t.size then .error ⟨t.size⟩ else .ok (t.intern s)

def Full.message (e : Full) : String :=
  "interner exceeded capacity: " ++ toString e.count ++ " strings, max is " ++ toString maxId

@[simp] theorem lookup_empty : initial.lookup Name.empty = "" := rfl
@[simp] theorem lookup_bool : initial.lookup Name.bool = "Bool" := rfl
@[simp] theorem lookup_int : initial.lookup Name.int = "Int" := rfl
@[simp] theorem lookup_float : initial.lookup Name.float = "Float" := rfl
@[simp] theorem lookup_string : initial.lookup Name.string = "String" := rfl

end NameTable

end TypeInference

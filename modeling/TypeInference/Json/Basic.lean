/-! JSON values. Only what a reader of types asks for is kept: the value of a natural number, the
text of a string. -/
namespace TypeInference

inductive Json where
  | null
  | bool (b : Bool)
  /-- A number written with digits only. -/
  | natural (n : Nat)
  /-- Any other number. -/
  | number
  /-- A string; it has no text if an escape in it is half of a pair. -/
  | string (text : Option String)
  | array (items : List Json)
  | object (fields : List (Option String × Json))

namespace Json

/-- The values of the named fields, in the order of the names. Every one of them has to be there
once; other fields are passed over. An array gives the fields in their order. -/
def fields? (names : List String) : Json → Option (List Json)
  | .array items => if items.length = names.length then some items else none
  | .object fields =>
    if fields.all fun f => f.1.isSome then
      names.mapM fun name =>
        match fields.filter fun f => f.1 == some name with
        | [f] => some f.2
        | _ => none
    else none
  | _ => none

end Json
end TypeInference

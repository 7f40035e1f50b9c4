import TypeInference.Json.Basic

/-! Reading JSON from its characters. Each reader returns what it has read and the characters that
follow. -/
namespace TypeInference
namespace Json
namespace Reader

def skipBlanks (cs : List Char) : List Char :=
  cs.dropWhile fun c => c == ' ' || c == '\n' || c == '\t' || c == '\r'

def hexDigit? (c : Char) : Option Nat :=
  if c.isDigit then some (c.toNat - '0'.toNat)
  else if 'a' ≤ c ∧ c ≤ 'f' then some (c.toNat - 'a'.toNat + 10)
  else if 'A' ≤ c ∧ c ≤ 'F' then some (c.toNat - 'A'.toNat + 10)
  else none

def hex? (cs : List Char) : Option Nat :=
  cs.foldlM (fun n c => (hexDigit? c).map (16 * n + ·)) 0

def escape? : Char → Option Char
  | '"' => some '"'
  | '\\' => some '\\'
  | '/' => some '/'
  | 'b' => some '\x08'
  | 'f' => some '\x0c'
  | 'n' => some '\n'
  | 'r' => some '\r'
  | 't' => some '\t'
  | _ => none

def units? : List Char → Option (List Nat × List Char)
  | [] => none
  | '"' :: cs => some ([], cs)
  | '\\' :: 'u' :: a :: b :: c :: d :: cs => do
    let n ← hex? [a, b, c, d]
    let (us, cs) ← units? cs
    return (n :: us, cs)
  | '\\' :: c :: cs => do
    let e ← escape? c
    let (us, cs) ← units? cs
    return (e.toNat :: us, cs)
  | c :: cs =>
    if c.toNat < 32 then none
    else do
      let (us, cs) ← units? cs
      return (c.toNat :: us, cs)

def isHigh (u : Nat) : Bool := 0xD800 ≤ u && u ≤ 0xDBFF

def isLow (u : Nat) : Bool := 0xDC00 ≤ u && u ≤ 0xDFFF

/-- Joins the halves of pairs; a half without its partner is no character. -/
def join? : List Nat → Option (List Char)
  | [] => some []
  | [u] => if isHigh u || isLow u then none else some [Char.ofNat u]
  | u :: v :: us =>
    if isHigh u then
      if isLow v then
        (join? us).map (Char.ofNat (0x10000 + (u - 0xD800) * 0x400 + (v - 0xDC00)) :: ·)
      else none
    else if isLow u then none
    else (join? (v :: us)).map (Char.ofNat u :: ·)

def text? (cs : List Char) : Option (Option String × List Char) := do
  let (us, cs) ← units? cs
  return ((join? us).map String.ofList, cs)

def digits? (cs : List Char) : Option (List Char × List Char) :=
  match cs.takeWhile Char.isDigit with
  | [] => none
  | ds => some (ds, cs.dropWhile Char.isDigit)

def fraction? : List Char → Option (Bool × List Char)
  | '.' :: cs => (digits? cs).map fun r => (true, r.2)
  | cs => some (false, cs)

def exponent? : List Char → Option (Bool × List Char)
  | c :: cs =>
    if c == 'e' || c == 'E' then
      match cs with
      | '+' :: cs | '-' :: cs => (digits? cs).map fun r => (true, r.2)
      | cs => (digits? cs).map fun r => (true, r.2)
    else some (false, c :: cs)
  | [] => some (false, [])

/-- A number; its whole part has no zero in front of other digits. -/
def number? (cs : List Char) : Option (Json × List Char) := do
  let (negative, cs) :=
    match cs with
    | '-' :: cs => (true, cs)
    | cs => (false, cs)
  let (ds, cs) ← digits? cs
  if ds.head? = some '0' ∧ ds.length ≠ 1 then failure
  let (hasFraction, cs) ← fraction? cs
  let (hasExponent, cs) ← exponent? cs
  if negative || hasFraction || hasExponent then return (.number, cs)
  return (.natural (ds.foldl (fun n d => 10 * n + (d.toNat - '0'.toNat)) 0), cs)

mutual

/-- A value that is read in at most the given number of steps. -/
def value? : Nat → List Char → Option (Json × List Char)
  | 0, _ => none
  | steps + 1, cs =>
    match skipBlanks cs with
    | '"' :: cs => (text? cs).map fun (s, cs) => (.string s, cs)
    | '[' :: cs =>
      match skipBlanks cs with
      | ']' :: cs => some (.array [], cs)
      | cs => (items? steps cs).map fun (js, cs) => (.array js, cs)
    | '\x7b' :: cs =>
      match skipBlanks cs with
      | '\x7d' :: cs => some (.object [], cs)
      | cs => (members? steps cs).map fun (ms, cs) => (.object ms, cs)
    | 'n' :: 'u' :: 'l' :: 'l' :: cs => some (.null, cs)
    | 't' :: 'r' :: 'u' :: 'e' :: cs => some (.bool true, cs)
    | 'f' :: 'a' :: 'l' :: 's' :: 'e' :: cs => some (.bool false, cs)
    | cs => number? cs

def items? : Nat → List Char → Option (List Json × List Char)
  | 0, _ => none
  | steps + 1, cs => do
    let (j, cs) ← value? steps cs
    match skipBlanks cs with
    | ']' :: cs => return ([j], cs)
    | ',' :: cs =>
      let (js, cs) ← items? steps cs
      return (j :: js, cs)
    | _ => none

def members? : Nat → List Char → Option (List (Option String × Json) × List Char)
  | 0, _ => none
  | steps + 1, cs =>
    match skipBlanks cs with
    | '"' :: cs => do
      let (key, cs) ← text? cs
      match skipBlanks cs with
      | ':' :: cs =>
        let (j, cs) ← value? steps cs
        match skipBlanks cs with
        | '\x7d' :: cs => return ([(key, j)], cs)
        | ',' :: cs =>
          let (ms, cs) ← members? steps cs
          return ((key, j) :: ms, cs)
        | _ => none
      | _ => none
    | _ => none

end

end Reader

/-- The value of a whole text. Every step but those into the first item of an array consumes a
character, so twice the length of the text is enough. -/
def ofString? (s : String) : Option Json :=
  let cs := s.toList
  match Reader.value? (2 * cs.length + 2) cs with
  | some (j, cs) => if (Reader.skipBlanks cs).isEmpty then some j else none
  | none => none

end Json
end TypeInference

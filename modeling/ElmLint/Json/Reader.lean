import ElmLint.Json.Value

/-!
# Reading JSON

`read?` accepts exactly one value with white space around it. Every reader takes the text left and
returns what it read with the text after it.
-/

namespace ElmLint.Json

def skipBlank (cs : List Char) : List Char :=
  cs.dropWhile fun c => c = ' ' || c = '\t' || c = '\n' || c = '\r'

def hexValue? (c : Char) : Option Nat :=
  if '0' ≤ c ∧ c ≤ '9' then some (c.toNat - 48)
  else if 'a' ≤ c ∧ c ≤ 'f' then some (c.toNat - 87)
  else if 'A' ≤ c ∧ c ≤ 'F' then some (c.toNat - 55)
  else none

/-- The UTF-16 unit of an escape, after its mark. -/
def readUnit? : List Char → Option (Nat × List Char)
  | a :: b :: c :: d :: cs => do
    let a ← hexValue? a
    let b ← hexValue? b
    let c ← hexValue? c
    let d ← hexValue? d
    return (a * 4096 + b * 256 + c * 16 + d, cs)
  | _ => none

/-- The character of an escape, after its backslash. A high surrogate needs the escape of a low
one after it. -/
def readEscape? : List Char → Option (Char × List Char)
  | '"' :: cs => some ('"', cs)
  | '\\' :: cs => some ('\\', cs)
  | '/' :: cs => some ('/', cs)
  | 'b' :: cs => some ('\x08', cs)
  | 'f' :: cs => some ('\x0c', cs)
  | 'n' :: cs => some ('\n', cs)
  | 'r' :: cs => some ('\r', cs)
  | 't' :: cs => some ('\t', cs)
  | 'u' :: cs => do
    let (unit, cs) ← readUnit? cs
    if 0xd800 ≤ unit ∧ unit < 0xdc00 then
      match cs with
      | '\\' :: 'u' :: cs =>
        let (low, cs) ← readUnit? cs
        if 0xdc00 ≤ low ∧ low < 0xe000 then
          some (Char.ofNat (0x10000 + (unit - 0xd800) * 0x400 + (low - 0xdc00)), cs)
        else none
      | _ => none
    else if 0xdc00 ≤ unit ∧ unit < 0xe000 then none
    else some (Char.ofNat unit, cs)
  | _ => none

/-- The rest of a string after its opening quote; `done` holds the characters so far, the last
first. -/
def readString? : (fuel : Nat) → (done : List Char) → List Char → Option (String × List Char)
  | 0, _, _ => none
  | _, _, [] => none
  | fuel + 1, done, c :: cs =>
    if c = '"' then some (String.ofList done.reverse, cs)
    else if c = '\\' then
      match readEscape? cs with
      | some (c, cs) => readString? fuel (c :: done) cs
      | none => none
    else if c.toNat < 0x20 then none
    else readString? fuel (c :: done) cs

def isNumberChar (c : Char) : Bool :=
  c.isDigit || c = '+' || c = '-' || c = '.' || c = 'e' || c = 'E'

def readNumber (cs : List Char) : Json × List Char :=
  let literal := cs.takeWhile isNumberChar
  let rest := cs.dropWhile isNumberChar
  if literal.all Char.isDigit then
    (.natural (literal.foldl (fun n d => n * 10 + (d.toNat - 48)) 0), rest)
  else (.otherNumber (String.ofList literal), rest)

/-- Puts a member in front of the others. It takes the place of an earlier one of its name. -/
def addMember (name : String) (value : Json) (members : List (String × Json)) :
    List (String × Json) :=
  (name, value) :: members.filter (·.1 != name)

mutual

def readValue? : (fuel : Nat) → List Char → Option (Json × List Char)
  | 0, _ => none
  | fuel + 1, cs =>
    match skipBlank cs with
    | 'n' :: 'u' :: 'l' :: 'l' :: cs => some (.null, cs)
    | 't' :: 'r' :: 'u' :: 'e' :: cs => some (.bool true, cs)
    | 'f' :: 'a' :: 'l' :: 's' :: 'e' :: cs => some (.bool false, cs)
    | '"' :: cs => (readString? (cs.length + 1) [] cs).map fun (text, cs) => (.string text, cs)
    | '[' :: cs =>
      match skipBlank cs with
      | ']' :: cs => some (.array [], cs)
      | cs => (readItems? fuel [] cs).map fun (items, cs) => (.array items, cs)
    | '{' :: cs =>
      match skipBlank cs with
      | '}' :: cs => some (.object [], cs)
      | cs => (readMembers? fuel [] cs).map fun (members, cs) => (.object members, cs)
    | c :: cs => if c = '-' ∨ c.isDigit then some (readNumber (c :: cs)) else none
    | [] => none

/-- The items of an array up to its bracket; `done` holds those before, the last first. -/
def readItems? : (fuel : Nat) → (done : List Json) → List Char → Option (List Json × List Char)
  | 0, _, _ => none
  | fuel + 1, done, cs =>
    match readValue? fuel cs with
    | none => none
    | some (item, cs) =>
      match skipBlank cs with
      | ',' :: cs => readItems? fuel (item :: done) cs
      | ']' :: cs => some ((item :: done).reverse, cs)
      | _ => none

/-- The members of an object up to its brace; `done` holds those before, the last first. -/
def readMembers? : (fuel : Nat) → (done : List (String × Json)) → List Char →
    Option (List (String × Json) × List Char)
  | 0, _, _ => none
  | fuel + 1, done, cs =>
    match skipBlank cs with
    | '"' :: cs =>
      match readString? (cs.length + 1) [] cs with
      | none => none
      | some (name, cs) =>
        match skipBlank cs with
        | ':' :: cs =>
          match readValue? fuel cs with
          | none => none
          | some (value, cs) =>
            match skipBlank cs with
            | ',' :: cs => readMembers? fuel (addMember name value done) cs
            | '}' :: cs => some ((addMember name value done).reverse, cs)
            | _ => none
        | _ => none
    | _ => none

end

/-- The value that the whole text stands for. Every value takes at least one character, so the
text's length bounds the nesting and the number of items. -/
def read? (text : String) : Option Json :=
  match readValue? (text.toList.length + 1) text.toList with
  | some (json, rest) => if (skipBlank rest).isEmpty then some json else none
  | none => none

end ElmLint.Json

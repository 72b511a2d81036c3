import ElmLint.Json.Value

/-!
# Writing JSON

A value is written on one line in ASCII. Characters above U+FFFF become a surrogate pair of
escapes.
-/

namespace ElmLint.Json

def hexUnit (unit : Nat) : List Char :=
  [unit / 4096 % 16, unit / 256 % 16, unit / 16 % 16, unit % 16].map Nat.digitChar

def escapeUnit (unit : Nat) : List Char := '\\' :: 'u' :: hexUnit unit

def writeChar (c : Char) : List Char :=
  if c = '"' ∨ c = '\\' then ['\\', c]
  else if 0x20 ≤ c.toNat ∧ c.toNat < 0x7f then [c]
  else if c.toNat < 0x10000 then escapeUnit c.toNat
  else
    let rest := c.toNat - 0x10000
    escapeUnit (0xd800 + rest / 0x400) ++ escapeUnit (0xdc00 + rest % 0x400)

def writeString (text : String) : String :=
  "\"" ++ String.ofList (text.toList.flatMap writeChar) ++ "\""

mutual

def write : Json → String
  | .null => "null"
  | .bool true => "true"
  | .bool false => "false"
  | .natural value => toString value
  | .otherNumber literal => literal
  | .string value => writeString value
  | .array items => "[" ++ ",".intercalate (writeItems items) ++ "]"
  | .object members => "\x7b" ++ ",".intercalate (writeMembers members) ++ "\x7d"

def writeItems : List Json → List String
  | [] => []
  | item :: items => write item :: writeItems items

def writeMembers : List (String × Json) → List String
  | [] => []
  | (name, value) :: members => (writeString name ++ ":" ++ write value) :: writeMembers members

end

end ElmLint.Json

/-!
# JSON values

Messages and settings are exchanged as JSON. The members of an object are kept in the order they
are written, and no two of them have one name.
-/

namespace ElmLint

/-- A JSON value. Numbers other than naturals are carried as they are written, since nothing here
accepts them. -/
inductive Json where
  | null
  | bool (value : Bool)
  | natural (value : Nat)
  | otherNumber (literal : String)
  | string (value : String)
  | array (items : List Json)
  | object (members : List (String × Json))
  deriving Repr, Inhabited

namespace Json

/-- The value of the member called `name`. -/
def member? (name : String) (members : List (String × Json)) : Option Json :=
  (members.find? (·.1 == name)).map (·.2)

/-- The member of an object, if the value is one and has it. -/
def get? (json : Json) (name : String) : Option Json :=
  match json with
  | .object members => member? name members
  | _ => none

def string? : Json → Option String
  | .string value => some value
  | _ => none

def natural? : Json → Option Nat
  | .natural value => some value
  | _ => none

def bool? : Json → Option Bool
  | .bool value => some value
  | _ => none

def array? : Json → Option (List Json)
  | .array items => some items
  | _ => none

def object? : Json → Option (List (String × Json))
  | .object members => some members
  | _ => none

/-! ## Decoding structures -/

/-- The natural number, if it fits into 64 bits. -/
def word? (json : Json) : Option Nat := json.natural?.filter (· < UInt64.size)

/-- The fields of a structure, each with its value if it is there. A structure is written as an
object, whose other members do not matter, or as an array of the first fields' values in order. -/
def fields? (names : List String) : Json → Option (List (Option Json))
  | .object members => some (names.map (member? · members))
  | .array items =>
    if items.length ≤ names.length then
      some (items.map some ++ List.replicate (names.length - items.length) none)
    else none
  | _ => none

/-- The name of an alternative that carries nothing. It is written as a string, or as an object
whose one member has that name and no value. -/
def alternative? : Json → Option String
  | .string name => some name
  | .object [(name, .null)] => some name
  | _ => none

def items? (decode : Json → Option α) (json : Json) : Option (List α) :=
  json.array?.bind (·.mapM decode)

def optional? (default : α) (decode : Json → Option α) : Option Json → Option α
  | none => some default
  | some json => decode json

end Json

end ElmLint

import ElmLint.Json.Value
import ElmLint.Lint.Code

/-!
# Settings

What an editor can set, and how it is exchanged. Fields that are left out keep their defaults.
-/

namespace ElmLint

structure Settings where
  lintEnabled : Bool
  /-- The checks that are turned off, as they were given. -/
  disabledLints : List LintCode
  /-- How long a file has to be left alone before it is analysed, in milliseconds. -/
  debounce : Nat
  /-- The pause between two files of one run, in milliseconds. -/
  interFileDelay : Nat
  deriving DecidableEq, Repr

namespace Settings

def standard : Settings := ⟨true, [], 200, 10⟩

instance : Inhabited Settings := ⟨standard⟩

def runs (s : Settings) (code : LintCode) : Bool := s.lintEnabled && !s.disabledLints.contains code

/-- The names of the fields in messages, in their order. -/
def fieldNames : List String := ["lintEnabled", "disabledLints", "debounceMs", "interFileDelayMs"]

/-- The settings as a message. An empty list of checks is left out. -/
def toJson (s : Settings) : Json :=
  .object ([("lintEnabled", .bool s.lintEnabled)] ++
    (if s.disabledLints.isEmpty then []
     else [("disabledLints", .array (s.disabledLints.map (.string ·.name)))]) ++
    [("debounceMs", .natural s.debounce), ("interFileDelayMs", .natural s.interFileDelay)])

def code? (json : Json) : Option LintCode := json.alternative?.bind LintCode.ofName?

/-- The settings in a message. A field of the wrong type, or a check that does not exist, makes the
whole message invalid. -/
def ofJson? (json : Json) : Option Settings :=
  match json.fields? fieldNames with
  | some [enabled, disabled, debounce, delay] => do
    let enabled ← Json.optional? standard.lintEnabled Json.bool? enabled
    let disabled ← Json.optional? standard.disabledLints (Json.items? code?) disabled
    let debounce ← Json.optional? standard.debounce Json.word? debounce
    let delay ← Json.optional? standard.interFileDelay Json.word? delay
    return ⟨enabled, disabled, debounce, delay⟩
  | _ => none

end Settings

end ElmLint

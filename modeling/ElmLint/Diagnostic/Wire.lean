import ElmLint.Diagnostic.Basic
import ElmLint.Json.Value

/-!
# Diagnostics as messages

A diagnostic is exchanged without its kind; what is received counts as a finding of the lint
checks. Tags are left out when there are none.
-/

namespace ElmLint

def Position.toJson (p : Position) : Json :=
  .object [("line", .natural p.line), ("column", .natural p.column)]

def Position.ofJson? (json : Json) : Option Position :=
  match json.fields? ["line", "column"] with
  | some [some line, some column] => do
    let line ← line.word?
    let column ← column.word?
    return ⟨line, column⟩
  | _ => none

def Span.toJson (s : Span) : Json :=
  .object [("start", s.start.toJson), ("end", s.stop.toJson)]

/-- The span in a message. Its ends may be in any order. -/
def Span.ofJson? (json : Json) : Option Span :=
  match json.fields? ["start", "end"] with
  | some [some start, some stop] => do
    let start ← Position.ofJson? start
    let stop ← Position.ofJson? stop
    return ⟨start, stop⟩
  | _ => none

def Severity.ofJson? (json : Json) : Option Severity := json.alternative?.bind Severity.ofName?

def DiagnosticTag.ofJson? (json : Json) : Option DiagnosticTag :=
  json.alternative?.bind DiagnosticTag.ofName?

namespace Diagnostic

/-- The names of the fields in messages, in their order. -/
def fieldNames : List String := ["code", "message", "severity", "source", "range", "tags"]

def toJson (d : Diagnostic) : Json :=
  .object ([("code", .string d.code), ("message", .string d.message),
      ("severity", .string d.severity.name), ("source", .string d.source),
      ("range", d.span.toJson)] ++
    (if d.tags.isEmpty then [] else [("tags", .array (d.tags.map (.string ·.name)))]))

def ofJson? (json : Json) : Option Diagnostic :=
  match json.fields? fieldNames with
  | some [some code, some message, some severity, some source, some span, tags] => do
    let code ← code.string?
    let message ← message.string?
    let severity ← Severity.ofJson? severity
    let source ← source.string?
    let span ← Span.ofJson? span
    let tags ← Json.optional? [] (Json.items? DiagnosticTag.ofJson?) tags
    return ⟨code, message, severity, source, span, tags, .lint⟩
  | _ => none

end Diagnostic

end ElmLint

import ElmLint.Text.Position

/-!
# Diagnostics

A diagnostic is one issue at one span of a file. It comes from one of three producers, which is
told by its kind.
-/

namespace ElmLint

inductive Severity where
  | error | warning | information | hint
  deriving DecidableEq, Repr, Inhabited

namespace Severity

def name : Severity → String
  | .error => "error"
  | .warning => "warning"
  | .information => "information"
  | .hint => "hint"

def ofName? (name : String) : Option Severity :=
  [Severity.error, .warning, .information, .hint].find? (·.name == name)

theorem ofName?_name (severity : Severity) : ofName? severity.name = some severity := by
  cases severity <;> decide

def number : Severity → Nat
  | .error => 1
  | .warning => 2
  | .information => 3
  | .hint => 4

end Severity

inductive DiagnosticTag where
  | unnecessary | deprecated
  deriving DecidableEq, Repr, Inhabited

namespace DiagnosticTag

def name : DiagnosticTag → String
  | .unnecessary => "unnecessary"
  | .deprecated => "deprecated"

def ofName? (name : String) : Option DiagnosticTag :=
  [DiagnosticTag.unnecessary, .deprecated].find? (·.name == name)

theorem ofName?_name (tag : DiagnosticTag) : ofName? tag.name = some tag := by
  cases tag <;> decide

end DiagnosticTag

inductive DiagnosticKind where
  | build | typeInference | lint
  deriving DecidableEq, Repr, Inhabited

namespace DiagnosticKind

def all : List DiagnosticKind := [.build, .typeInference, .lint]

def name : DiagnosticKind → String
  | .lint => "lint"
  | .typeInference => "type-inference"
  | .build => "build"

def ofName? (name : String) : Option DiagnosticKind := all.find? (·.name == name)

end DiagnosticKind

structure Diagnostic where
  /-- What the issue is, in a form that does not change. -/
  code : String
  message : String
  severity : Severity
  source : String
  span : Span
  tags : List DiagnosticTag
  kind : DiagnosticKind
  deriving DecidableEq, Repr, Inhabited

namespace Diagnostic

def engine : String := "elmls"

def warning (code message : String) (span : Span) : Diagnostic where
  code := code
  message := message
  severity := .warning
  source := engine
  span := span
  tags := []
  kind := .lint

/-- The same issue with a tag, which it carries at most once by this. -/
def withTag (d : Diagnostic) (tag : DiagnosticTag) : Diagnostic :=
  if d.tags.contains tag then d else { d with tags := d.tags ++ [tag] }

def isUnnecessary (d : Diagnostic) : Bool := d.tags.contains .unnecessary

/-- The issue on one line: producer, code, severity, place and tags. -/
def summary (d : Diagnostic) : String :=
  s!"{d.kind.name}/{d.code}/{d.severity.number}/" ++
  s!"{d.span.start.line}:{d.span.start.column}-{d.span.stop.line}:{d.span.stop.column}" ++
  String.join (d.tags.map ("/" ++ ·.name))

end Diagnostic

end ElmLint

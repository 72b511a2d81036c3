import ElmLint.Diagnostic.Basic
import ElmLint.Text.FileUri

/-!
# Failures of producers

A failure costs the results of one request and nothing else; the last results stay.
-/

namespace ElmLint

inductive ProducerError where
  /-- The producer of `kind` failed on a file. -/
  | failed (kind : DiagnosticKind) (uri : FileUri) (message : String)
  /-- The producer saw that its request was cancelled. -/
  | cancelled
  | step (message : String)
  deriving DecidableEq, Repr

def ProducerError.message : ProducerError → String
  | .failed kind uri message => s!"{kind.name} diagnostics failed for {uri.text}: {message}"
  | .cancelled => "diagnostics request cancelled"
  | .step message => s!"step failed: {message}"

end ElmLint

import ElmLint.Proofs.Lint.OwnText

/-!
# Checks that are turned off

All checks run and report into one list. A finding of a code that is turned off is not added to it,
and that is all: step by step, the list is what is left of the full list when the diagnostics of
these codes are taken out.
-/

namespace ElmLint

variable {disabled disabled' : List LintCode} {list : List Diagnostic}

namespace Lint

open Syntax (Tree)

variable {index : LineIndex} {s : Subject}

-- ---------------------------------------------------------------------------
-- One report after another
-- ---------------------------------------------------------------------------

/-- What has been reported, after a finding. -/
def report (index : LineIndex) (disabled : List LintCode) (output : List Diagnostic) (f : Finding) :
    List Diagnostic :=
  if disabled.contains f.code then output else output ++ (f.toDiagnostic? index).toList

end Lint

end ElmLint

import ElmLint.Lint.Check
import ElmLint.Project.RecordFields

/-!
# Linting a document

The checks see one document. Where they ask what an alias stands for, the project answers.
-/

namespace ElmLint

/-- The lint diagnostics of a document whose aliases mean what `recordFields?` tells. -/
def Document.lint (d : Document) (recordFields? : String → Option (List String))
    (disabled : List LintCode) : List Diagnostic :=
  Lint.lintTree d.parse.tree d.lineIndex recordFields? disabled

def Workspace.lint (w : Workspace) (d : Document) (disabled : List LintCode) : List Diagnostic :=
  d.lint (w.recordFields? d) disabled

end ElmLint

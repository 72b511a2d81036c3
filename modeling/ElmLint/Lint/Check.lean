import ElmLint.Lint.Bindings
import ElmLint.Lint.Declarations
import ElmLint.Lint.Imports
import ElmLint.Lint.Style

/-!
# Linting a file

The checks run in a fixed order, and each reports in text order, so one tree always has one list
of diagnostics.
-/

namespace ElmLint.Lint

open Syntax (Tree)

def checks : List (Subject → List Finding) :=
  [unusedImports, unusedImportedValues, unusedAliases, unusedBindings, mapNothingToNothing,
   booleanCaseExpr, dropConcatOfLists, dropConsOfItemAndList, useConsOverConcat,
   singleFieldRecord, unnecessaryListConcat, unnecessaryPortModule, noUncurriedPrefix,
   unusedTypeAliases, unusedValueConstructors]

def findings (s : Subject) : List Finding := checks.flatMap (· s)

def lintTree (tree : Tree) (index : LineIndex) (recordFields? : String → Option (List String))
    (disabled : List LintCode) : List Diagnostic :=
  ((findings (.ofTree tree recordFields?)).filter (!disabled.contains ·.code)).filterMap
    (·.toDiagnostic? index)

end ElmLint.Lint

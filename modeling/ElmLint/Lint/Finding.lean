import ElmLint.Diagnostic.Basic
import ElmLint.Lint.Code
import ElmLint.Lint.Scope
import ElmLint.Text.LineIndex

/-!
# Findings

A check reports findings over bytes of the file. They become diagnostics once lines and columns are
known.
-/

namespace ElmLint.Lint

open Syntax (Site SourceFile)

/-- What a check has found, and where. -/
structure Finding where
  code : LintCode
  message : String
  range : ByteRange
  deriving DecidableEq, Repr

/-- What the checks look at: a file, what it refers to, and the fields of the records that aliases
stand for as far as they are known. -/
structure Subject where
  file : SourceFile
  refs : References
  recordFields? : String → Option (List String)

def Subject.ofTree (tree : Syntax.Tree) (recordFields? : String → Option (List String)) :
    Subject where
  file := .ofTree tree
  refs := .collect (.root tree)
  recordFields? := recordFields?

/-- Every name of the module can be used from outside. A file without a header is an application
that exposes all it has. -/
def Subject.exposesEverything (s : Subject) : Bool :=
  s.file.header?.all fun header => Syntax.exposesAll header.exposing?

namespace Finding

def atSite (code : LintCode) (message : String) (site : Site) : Finding :=
  ⟨code, message, site.significantRange⟩

/-- A finding on what reaches from the start of `first` to the end of `last`. -/
def between (code : LintCode) (message : String) (first last : Site) : Finding :=
  ⟨code, message, first.significantRange.cover last.significantRange⟩

/-- The finding as a diagnostic. Findings end where tokens end, so they have lines and columns. -/
def toDiagnostic? (index : LineIndex) (f : Finding) : Option Diagnostic :=
  (index.span? f.range).map fun span =>
    let d := Diagnostic.warning f.code.name f.message span
    if f.code.isUnnecessary then d.withTag .unnecessary else d

end Finding

end ElmLint.Lint

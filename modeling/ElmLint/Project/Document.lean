import ElmLint.Project.Resolve
import ElmLint.Syntax.Parse
import ElmLint.Text.LineIndex

/-!
# Documents

A document is a file of the project with what is derived from its text. A change of the text makes
a new document.
-/

namespace ElmLint

open Syntax (Parse SourceFile)

structure Document where
  uri : FileUri
  text : String
  parse : Parse
  /-- The file can be edited, as those of packages cannot. -/
  writable : Bool
  resolved : ResolvedModules

namespace Document

def ofText (uri : FileUri) (text : String) (writable : Bool) : Document where
  uri := uri
  text := text
  parse := Syntax.parse text
  writable := writable
  resolved := .none

instance : Inhabited Document := ⟨ofText default "" true⟩

def file (d : Document) : SourceFile := .ofTree d.parse.tree

def lineIndex (d : Document) : LineIndex := .ofText d.text

def moduleName? (d : Document) : Option String := d.file.moduleName?

def resolve (d : Document) (sourceDirs : List FileUri) (has : FileUri → Bool) : Document :=
  { d with resolved := resolveImports sourceDirs has d.file.imports }

end Document

end ElmLint

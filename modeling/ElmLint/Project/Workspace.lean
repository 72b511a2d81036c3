import ElmLint.Project.Document

/-!
# The project

A workspace holds the files of the project and knows which are open in the editor. The imports of
every file are resolved against all files at all times.
-/

namespace ElmLint

structure Workspace where
  sourceDirs : List FileUri
  files : Table FileUri Document
  /-- The files that were opened and not closed since, in the order in which they were opened. -/
  opened : List FileUri

namespace Workspace

def empty (sourceDirs : List FileUri) : Workspace := ⟨sourceDirs, .empty, []⟩

instance : Inhabited Workspace := ⟨empty []⟩

def document? (w : Workspace) (uri : FileUri) : Option Document := w.files.get? uri

def resolveAll (w : Workspace) : Workspace :=
  { w with files := w.files.mapValues fun _ d => d.resolve w.sourceDirs w.files.has }

def incoming (w : Workspace) (uri : FileUri) (text : String) (writable : Bool) : Document :=
  (Document.ofText uri text writable).resolve w.sourceDirs
    fun candidate => w.files.has candidate || candidate == uri

/-- Adds or replaces a file. A new file can be what other files import, so they are resolved
again; an edit of a known file is resolved alone. -/
def setFile (w : Workspace) (uri : FileUri) (text : String) (writable : Bool) : Workspace :=
  let added := { w with files := w.files.put uri (w.incoming uri text writable) }
  if w.files.has uri then added else added.resolveAll

/-- Takes a file out of the project, and out of the open files in any case. -/
def remove (w : Workspace) (uri : FileUri) : Workspace :=
  let closed := { w with opened := w.opened.filter (· != uri) }
  if w.files.has uri then { closed with files := w.files.erase uri }.resolveAll else closed

def open_ (w : Workspace) (uri : FileUri) : Workspace :=
  if w.opened.contains uri then w else { w with opened := w.opened ++ [uri] }

def close (w : Workspace) (uri : FileUri) : Workspace :=
  { w with opened := w.opened.filter (· != uri) }

/-- The files that are open and belong to the project, in the order in which they were opened. -/
def openFiles (w : Workspace) : List FileUri := w.opened.filter w.files.has

/-- The files that can be edited, in ascending order. -/
def writableFiles (w : Workspace) : List FileUri :=
  FileUri.sort ((w.files.entries.filter (·.2.writable)).map (·.1))

end Workspace

end ElmLint

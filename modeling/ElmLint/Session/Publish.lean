import ElmLint.Session.Basic

/-!
# Storing and publishing

A producer's list for a file is stored as a whole. The editor is told whenever a stored list
changes, and then is told all diagnostics of the file. While it is being told, it may announce a
change.
-/

namespace ElmLint

/-- The files that wait, after a mark. A file that waits already keeps its place. -/
def Mark.insert (mark : Mark) (pending : List Mark) : List Mark :=
  if pending.any (·.uri == mark.uri) then
    pending.map fun m => if m.uri = mark.uri then mark else m
  else pending ++ [mark]

namespace Session

/-- Lets a file wait to be analysed. The wait for silence begins anew. -/
def mark (s : Session) (uri : FileUri) : Session :=
  { s.record (.marked uri) with
    pending := Mark.insert ⟨uri, s.now⟩ s.pending
    debounce? := some (s.now + s.settings.debounce) }

def change (s : Session) (uri : FileUri) : Session :=
  if s.isShutDown then s
  else mark { s.record (.changed uri) with sequence := s.sequence + 1 } uri

/-- Tells the editor all diagnostics of a file. -/
def send (s : Session) (uri : FileUri) : Session :=
  let told := s.record (.published uri (s.diagnosticsOf uri))
  match s.reactions.get? uri with
  | some changed => change { told with reactions := s.reactions.erase uri } changed
  | none => told

def store (s : Session) (uri : FileUri) (kind : DiagnosticKind) (list : List Diagnostic) :
    Session :=
  let changed := (s.known uri).set kind list
  { s with diagnostics :=
      if changed.isEmpty then s.diagnostics.erase uri else s.diagnostics.put uri changed }

/-- Stores a list for each file and then tells the editor of those files whose list changed, in
ascending order. -/
def replace (s : Session) (kind : DiagnosticKind) (list : FileUri → List Diagnostic)
    (uris : List FileUri) : Session :=
  let changed := (FileUri.sort uris.eraseDups).filter fun uri =>
    (s.known uri).changes kind (list uri)
  changed.foldl send (changed.foldl (fun s uri => s.store uri kind (list uri)) s)

/-- A producer's findings as they are stored: each is attributed to the producer. -/
def attributed (kind : DiagnosticKind) (found : List Diagnostic) : List Diagnostic :=
  found.map fun d => { d with kind }

/-- Stores and publishes what a producer has found in a file. For a file that is gone, nothing is
stored. -/
def publish (s : Session) (uri : FileUri) (kind : DiagnosticKind) (found : List Diagnostic) :
    Session :=
  match s.workspace.document? uri with
  | some _ => s.replace kind (fun _ => attributed kind found) [uri]
  | none => s

/-- Forgets what is known of a file, and that it waits. -/
def forget (s : Session) (uri : FileUri) : Session :=
  { s.record (.deleted uri) with
    pending := s.pending.filter (·.uri ≠ uri)
    diagnostics := s.diagnostics.erase uri }

/-- A file was deleted. The editor is told if it was told of diagnostics. -/
def delete (s : Session) (uri : FileUri) : Session :=
  if (s.known uri).isEmpty then s.forget uri else (s.forget uri).send uri

def relint (s : Session) : Session :=
  s.workspace.writableFiles.foldl
    (fun s uri =>
      match s.workspace.document? uri with
      | some d => s.publish uri .lint (s.lint d)
      | none => s)
    s

/-- Takes over new settings. Where they change what is linted, that is seen at once. -/
def configure (s : Session) (settings : Settings) : Session :=
  let old := s.settings
  let s := { s with settings }
  if old.lintEnabled && !settings.lintEnabled then
    s.replace .lint (fun _ => []) s.diagnostics.keys
  else if settings.lintEnabled &&
      (!old.lintEnabled || old.disabledLints != settings.disabledLints) then
    s.relint
  else s

end Session

end ElmLint

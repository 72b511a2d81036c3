import ElmLint.Diagnostic.FileDiagnostics
import ElmLint.Diagnostic.Settings
import ElmLint.Project.Lint
import ElmLint.Schedule.Scheduler
import ElmLint.Session.Walk

/-!
# Sessions

A session keeps the diagnostics of a project in step with the edits of an editor. It is a state
that changes at four occasions only: a call from the editor, the turn of the run, an answer of a
producer, and the end of the wait for the editor to fall silent. Each change is atomic.
-/

namespace ElmLint

/-- A file that waits to be analysed, with the time of its latest edit. -/
structure Mark where
  uri : FileUri
  time : Nat
  deriving DecidableEq, Repr

/-- Who cancels a run. -/
inductive Canceller where
  /-- The run that takes its place. -/
  | successor
  /-- The run itself, which has noticed that a change was announced since it began. -/
  | change
  /-- Something urgent that comes first. -/
  | interruption
  /-- Whoever asked for the run. -/
  | caller
  /-- The type checker that the run has asked. -/
  | producer
  /-- The end of the session. -/
  | ending
  deriving DecidableEq, Repr

/-- What a session does, to its surroundings or on the way of its runs. -/
inductive Fact where
  /-- A change of a file is announced. -/
  | changed (uri : FileUri)
  /-- A file waits to be analysed, and the wait for silence begins anew. -/
  | marked (uri : FileUri)
  /-- A file is forgotten. -/
  | deleted (uri : FileUri)
  /-- The files that wait are taken for a run. -/
  | drained
  /-- A run starts over these files. -/
  | started (run : Nat) (files : List FileUri)
  /-- A run is cancelled. -/
  | cancelled (run : Nat) (canceller : Canceller)
  /-- The type checker is asked about a file. -/
  | typesAsked (uri : FileUri)
  /-- A run hands over its findings in a file, to be stored and published. -/
  | handedOver (run : Nat) (uri : FileUri) (kind : DiagnosticKind)
  /-- A run is through with the types of a file, found or not. -/
  | typed (run : Nat) (uri : FileUri)
  /-- A run is through with the linting of a file, and so with the file. -/
  | linted (run : Nat) (uri : FileUri)
  /-- A run finds that a file is gone, and goes on. -/
  | skipped (run : Nat) (uri : FileUri)
  /-- A build is asked for. -/
  | buildAsked (number : Nat) (uri : FileUri)
  /-- The editor is told all diagnostics of a file. -/
  | published (uri : FileUri) (diagnostics : List Diagnostic)
  /-- The session ends. -/
  | ended
  deriving DecidableEq, Repr

/-- Facts with their times, the newest first. -/
abbrev History : Type := List (Nat × Fact)

/-- The state of a session. -/
structure Session where
  workspace : Workspace
  settings : Settings
  /-- The time in milliseconds. -/
  now : Nat
  isShutDown : Bool
  /-- The number of changes that were announced. -/
  sequence : Nat
  /-- The files that wait for the editor to fall silent, each once. -/
  pending : List Mark
  /-- The time at which silence has lasted long enough, if someone waits for that. -/
  debounce? : Option Nat
  scheduler : Scheduler Walk
  /-- The latest run, unless it has completed. It stays when the run ends before, for the next run
  to take over what is left. -/
  inFlight? : Option InFlight
  /-- What is known of each file. A file without diagnostics has no entry. -/
  diagnostics : Table FileUri FileDiagnostics
  /-- The number of builds that were asked for. -/
  builds : Nat
  /-- The build whose result counts. -/
  awaitedBuild? : Option Nat
  /-- The editor changes the second file as soon as it is told of the first, once. -/
  reactions : Table FileUri FileUri
  /-- What was done and when. -/
  history : History

namespace Session

/-- A session over a project in which nothing has happened. -/
def initial (sourceDirs : List FileUri) (settings : Settings) : Session where
  workspace := .empty sourceDirs
  settings := settings
  now := 0
  isShutDown := false
  sequence := 0
  pending := []
  debounce? := none
  scheduler := .idle
  inFlight? := none
  diagnostics := .empty
  builds := 0
  awaitedBuild? := none
  reactions := .empty
  history := []

/-- What is known of a file, producer by producer. -/
def known (s : Session) (uri : FileUri) : FileDiagnostics := (s.diagnostics.get? uri).getD .empty

/-- All diagnostics of a file, as the editor shows them. -/
def diagnosticsOf (s : Session) (uri : FileUri) : List Diagnostic := (s.known uri).merged

/-- The number of files that are behind a run. -/
def progress (s : Session) (run : Nat) : Nat := (s.scheduler.run? run).elim 0 (·.action.progress)

/-- The files of a run in flight that are not behind it. -/
def unfinished (s : Session) (i : InFlight) : List FileUri := i.files.drop (s.progress i.run)

/-- The files in flight that are not finished. -/
def inFlight (s : Session) : List FileUri := s.inFlight?.elim [] s.unfinished

/-- A change was announced since the walk began, so that its results are out of date. -/
def isStale (s : Session) (walk : Walk) : Bool := s.sequence != walk.sequence

/-- Writes down a fact. -/
def record (s : Session) (fact : Fact) : Session := { s with history := (s.now, fact) :: s.history }

/-- The lint diagnostics of a document under the settings. -/
def lint (s : Session) (d : Document) : List Diagnostic :=
  if s.settings.lintEnabled then s.workspace.lint d s.settings.disabledLints else []

end Session

end ElmLint

import ElmLint.Rehearsal.Basic

/-!
# The steps of a rehearsal

Between two advances of the clock every step is a call that returns before anyone else has a turn.
After each step there is a snapshot of what can be seen from outside.
-/

namespace ElmLint

inductive Command where
  | setFile (uri : FileUri) (text : String) (writable : Bool)
  | removeFile (uri : FileUri)
  | showFile (uri : FileUri)
  | hideFile (uri : FileUri)
  | openDocument (uri : FileUri)
  | saveDocument (uri : FileUri)
  | changeDocument (uri : FileUri)
  | deleteDocument (uri : FileUri)
  /-- Tells the stand-in for the type checker what to find in a file and how to answer. -/
  | prepareTypes (uri? : Option FileUri) (found? : Option (List Diagnostic))
    (mode? : Option AnswerMode) (delay? : Option Nat)
  /-- Tells the stand-in for the build what to find and how to answer. -/
  | prepareBuild (found? : Option (Table FileUri (List Diagnostic))) (mode? : Option AnswerMode)
    (delay? : Option Nat)
  /-- The next time the editor is told of the file `uri`, it changes the file `changed`. -/
  | react (uri changed : FileUri)
  | configure (settings : Settings)
  | getSettings
  | getDiagnostics (uri : FileUri)
  /-- Does some commands ahead of the run in flight. -/
  | interrupt (commands : List Command)
  | shutDown

inductive RehearsalStep where
  | command (command : Command)
  | request (id : String) (files : List FileUri) (pause : Nat)
  | cancel (id : String)
  | advance (ms : Nat)

mutual

inductive Reply where
  | nothing
  | removed (wasThere : Bool)
  | settings (settings : Settings)
  | diagnostics (list : List Diagnostic)
  /-- What was seen after each of the commands of an interruption. -/
  | interrupted (snapshots : List Snapshot)

inductive Snapshot where
  | mk (reply : Reply) (now sequence : Nat) (inFlight : List FileUri)
    (facts : List (Nat × Fact)) (answers : List (String × Outcome))

end

namespace StandIns

def prepareTypes (s : StandIns) (uri? : Option FileUri) (found? : Option (List Diagnostic))
    (mode? : Option AnswerMode) (delay? : Option Nat) : StandIns :=
  { s with
    types := match uri?, found? with
      | some uri, some found => s.types.put uri found
      | _, _ => s.types
    typesModes := match uri?, mode? with
      | some uri, some mode => s.typesModes.put uri mode
      | _, _ => s.typesModes
    typesDelay := delay?.getD s.typesDelay }

def prepareBuild (s : StandIns) (found? : Option (Table FileUri (List Diagnostic)))
    (mode? : Option AnswerMode) (delay? : Option Nat) : StandIns :=
  { s with
    build := found?.getD s.build
    buildMode := mode?.getD s.buildMode
    buildDelay := delay?.getD s.buildDelay }

def isSeen (s : StandIns) : Fact → Bool
  | .typesAsked _ | .buildAsked _ _ => !s.areIdle
  | .published _ _ => true
  | _ => false

end StandIns

namespace Rehearsal

/-- What can be seen now, with what has been done since `earlier`. -/
def snapshot (r : Rehearsal) (earlier : Session) (reply : Reply)
    (answers : List (String × Outcome)) : Snapshot :=
  .mk reply r.session.now r.session.sequence r.session.inFlight
    ((news earlier r.session).filter (r.standIns.isSeen ·.2)) answers

structure Done where
  rehearsal : Rehearsal
  reply : Reply
  /-- The state before the first fact that nobody was told of. -/
  told : Session

mutual

def perform (r : Rehearsal) : Command → Done
  | .setFile uri text writable => ⟨r.happen (.setFile uri text writable), .nothing, r.session⟩
  | .removeFile uri =>
    ⟨r.happen (.removeFile uri), .removed (r.session.workspace.files.has uri), r.session⟩
  | .showFile uri => ⟨r.happen (.showFile uri), .nothing, r.session⟩
  | .hideFile uri => ⟨r.happen (.hideFile uri), .nothing, r.session⟩
  | .openDocument uri => ⟨r.happen (.openDocument uri), .nothing, r.session⟩
  | .saveDocument uri => ⟨r.happen (.saveDocument uri), .nothing, r.session⟩
  | .changeDocument uri => ⟨r.happen (.changeDocument uri), .nothing, r.session⟩
  | .deleteDocument uri => ⟨r.happen (.deleteDocument uri), .nothing, r.session⟩
  | .prepareTypes uri? found? mode? delay? =>
    ⟨{ r with standIns := r.standIns.prepareTypes uri? found? mode? delay? }, .nothing, r.session⟩
  | .prepareBuild found? mode? delay? =>
    ⟨{ r with standIns := r.standIns.prepareBuild found? mode? delay? }, .nothing, r.session⟩
  | .react uri changed => ⟨r.happen (.react uri changed), .nothing, r.session⟩
  | .configure settings => ⟨r.happen (.configure settings), .nothing, r.session⟩
  | .getSettings => ⟨r, .settings r.session.settings, r.session⟩
  | .getDiagnostics uri => ⟨r, .diagnostics (r.session.diagnosticsOf uri), r.session⟩
  | .interrupt commands =>
    let hasCancelled := r.session.isInterruptible
    let (inner, snapshots) := performAll (r.happen .beginInterruption) commands
    ⟨inner.happen (.endInterruption hasCancelled), .interrupted snapshots, inner.session⟩
  | .shutDown => ⟨r.happen .shutDown, .nothing, r.session⟩

/-- Carries out commands one after the other, with a snapshot after each. -/
def performAll (r : Rehearsal) : List Command → Rehearsal × List Snapshot
  | [] => (r, [])
  | command :: rest =>
    let done := r.perform command
    let (last, snapshots) := performAll done.rehearsal rest
    (last, done.rehearsal.snapshot done.told done.reply [] :: snapshots)

end

def close (r : Rehearsal) (earlier : Session) (reply : Reply) : Rehearsal × Snapshot :=
  (r.dropAnswered, r.snapshot earlier reply r.answers)

/-- Carries out a step. Requests are looked at one by one at its end, and a new one begins only when
its turn comes. So the request that it supersedes is not answered before the end of the next step. -/
def step (r : Rehearsal) : RehearsalStep → Rehearsal × Snapshot
  | .command command =>
    let done := r.perform command
    done.rehearsal.close done.told done.reply
  | .request id files pause =>
    let (begun, answers) := r.dropAnswered.request id files pause
    (begun, begun.snapshot r.session .nothing (r.answers ++ answers))
  | .cancel id => (r.cancel id).close r.session .nothing
  | .advance ms => (r.advance ms).close r.session .nothing

end Rehearsal

end ElmLint

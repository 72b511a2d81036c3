import ElmLint.Session.Editor

/-!
# Events

Everything that can happen to a session. An event is atomic, and a session changes by events only.
-/

namespace ElmLint

inductive Event where
  /-- A file gets a text, or comes into the project with it. -/
  | setFile (uri : FileUri) (text : String) (writable : Bool)
  | removeFile (uri : FileUri)
  /-- The file is open in the editor. -/
  | showFile (uri : FileUri)
  | hideFile (uri : FileUri)
  | openDocument (uri : FileUri)
  | saveDocument (uri : FileUri)
  | changeDocument (uri : FileUri)
  | deleteDocument (uri : FileUri)
  /-- The next time the editor is told of the file `uri`, it changes the file `changed`. -/
  | react (uri changed : FileUri)
  | configure (settings : Settings)
  /-- Someone asks for a run over some files, and may have cancelled that already. -/
  | request (files : List FileUri) (pause : Nat) (cancelled : Bool)
  /-- Someone cancels the run that was asked for. -/
  | cancelRequest (run : Nat)
  | beginInterruption
  | endInterruption (hasCancelled : Bool)
  | shutDown
  /-- The clock shows a time. -/
  | clock (time : Nat)
  /-- The wait for silence is woken. -/
  | silence
  /-- A run is woken to do its next step. -/
  | turn (run : Nat)
  /-- A run that waits for types is woken by its cancellation. -/
  | heedCancellation (run : Nat)
  | typesAnswered (run : Nat) (answer : TypesAnswer)
  | buildAnswered (number : Nat) (answer : BuildAnswer)

namespace Session

/-- Someone cancels the run that was asked for. Other runs are out of reach. -/
def cancelRequest (s : Session) (run : Nat) : Session :=
  if (s.scheduler.run? run).any (·.action.isOnDemand) then s.cancelRun run .caller else s

def after (s : Session) : Event → Session
  | .setFile uri text writable => { s with workspace := s.workspace.setFile uri text writable }
  | .removeFile uri => { s with workspace := s.workspace.remove uri }
  | .showFile uri => { s with workspace := s.workspace.open_ uri }
  | .hideFile uri => { s with workspace := s.workspace.close uri }
  | .openDocument uri => s.openDocument uri
  | .saveDocument uri => s.saveDocument uri
  | .changeDocument uri => s.change uri
  | .deleteDocument uri => s.delete uri
  | .react uri changed => { s with reactions := s.reactions.put uri changed }
  | .configure settings => s.configure settings
  | .request files pause cancelled => s.request files pause cancelled
  | .cancelRequest run => s.cancelRequest run
  | .beginInterruption => s.beginInterruption
  | .endInterruption hasCancelled => s.endInterruption hasCancelled
  | .shutDown => s.shutDown
  | .clock time => { s with now := max s.now time }
  | .silence => s.silence
  | .turn run => s.turn run
  | .heedCancellation run => s.heedCancellation run
  | .typesAnswered run answer => s.typesAnswered run answer
  | .buildAnswered number answer => s.buildAnswered number answer

end Session

end ElmLint

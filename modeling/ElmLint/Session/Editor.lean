import ElmLint.Session.Build
import ElmLint.Session.Run

/-!
# The calls of an editor

What an editor tells a session, apart from changes and settings. After its end a session hears
nothing of documents any more.
-/

namespace ElmLint

namespace Session

def openDocument (s : Session) (uri : FileUri) : Session :=
  if s.isShutDown then s else (s.askBuild uri).mark uri

def saveDocument (s : Session) (uri : FileUri) : Session :=
  if s.isShutDown then s else s.askBuild uri

/-- Something urgent has to cancel a run in flight before it begins, and to start another when it
is over. -/
def isInterruptible (s : Session) : Bool := s.inFlight?.isSome && !s.isShutDown

def beginInterruption (s : Session) : Session :=
  match s.inFlight? with
  | some previous => if s.isShutDown then s else s.cancelRun previous.run .interruption
  | none => s

/-- Something urgent is over. It may have cancelled a run that was in flight. -/
def endInterruption (s : Session) (hasCancelled : Bool) : Session :=
  if hasCancelled then s.drain else s

/-- Ends the session: all work stops, and all that it knows is forgotten. Requests are cancelled by
those who asked, all other runs by this. -/
def shutDown (s : Session) : Session :=
  if s.isShutDown then s
  else
    let forgotten := { s.record .ended with
      isShutDown := true
      pending := []
      debounce? := none
      inFlight? := none
      diagnostics := .empty
      awaitedBuild? := none }
    forgotten.adopt (s.scheduler.cancelAll fun walk => !walk.isOnDemand).stop

end Session

end ElmLint

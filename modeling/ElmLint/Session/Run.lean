import ElmLint.Diagnostic.ProducerError
import ElmLint.Session.Publish

/-!
# Runs of a session

At most one run is under way. A new one takes over what the latest one has not finished. A run
that notices a change publishes nothing further, for the change has marked its file and there will
be another run.
-/

namespace ElmLint

inductive TypesResult where
  | found (diagnostics : List Diagnostic)
  | failed (error : ProducerError)
  /-- The type checker breaks down, and the run with it. -/
  | crashed
  deriving Repr

structure TypesAnswer where
  /-- The type checker cancels the run before it answers. -/
  isCancelling : Bool
  result : TypesResult
  deriving Repr

namespace Session

def cancelRun (s : Session) (run : Nat) (canceller : Canceller) : Session :=
  { s.record (.cancelled run canceller) with scheduler := s.scheduler.cancel run }

/-- What is in flight once it is heard how a run ended. A run that has completed is no longer in
flight, unless another is in flight by now. -/
def hear (inFlight? : Option InFlight) (report : Report Walk) : Option InFlight :=
  if report.outcome = .completed && inFlight?.any (·.run = report.run) then none else inFlight?

/-- Takes over a later state of the scheduler and hears what it has reported since. -/
def adopt (s : Session) (scheduler : Scheduler Walk) : Session :=
  { s with
    scheduler
    inFlight? := (scheduler.reportsSince s.scheduler).foldl hear s.inFlight? }

/-- Cancels the run in flight, and leaves it without a successor. -/
def takeOver (s : Session) : Session :=
  match s.inFlight? with
  | some previous => { s.cancelRun previous.run .successor with inFlight? := none }
  | none => s

/-- Starts a run over some files at once. Its token can be cancelled from the start. -/
def launch (s : Session) (files : List FileUri) (pause : Nat) (isOnDemand : Bool)
    (canceller? : Option Canceller) : Session :=
  let run := s.scheduler.started + 1
  let begun := { s.record (.started run files) with inFlight? := some ⟨run, files⟩ }
  let told := canceller?.elim begun fun canceller => begun.record (.cancelled run canceller)
  told.adopt
    (s.scheduler.start (.ofFiles files s.sequence pause isOnDemand) canceller?.isSome)

/-- Starts a run over the files, those in flight and possibly those that are open, each at its first
place, in place of the run in flight. If there are no files, there is no run. -/
def startRun (s : Session) (files : List FileUri) (withOpenFiles : Bool) (pause : Nat)
    (isOnDemand : Bool) (canceller? : Option Canceller) : Session :=
  match (files ++ s.inFlight ++ if withOpenFiles then s.workspace.openFiles else []).eraseDups with
  | [] => s.takeOver
  | files => s.takeOver.launch files pause isOnDemand canceller?

/-- The files that wait, those first whose latest edit is oldest. -/
def marked (s : Session) : List FileUri :=
  (s.pending.mergeSort fun a b => decide (a.time ≤ b.time)).map (·.uri)

/-- No file waits any more, and nobody waits for silence. -/
def takeMarked (s : Session) : Session :=
  { s.record .drained with pending := [], debounce? := none }

/-- Starts a run over the files that wait, those in flight and those that are open. -/
def drain (s : Session) : Session :=
  s.takeMarked.startRun s.marked true s.settings.interFileDelay false
    (if s.isShutDown then some .ending else none)

/-- The editor has been silent long enough, if the time has come. -/
def silence (s : Session) : Session :=
  if s.debounce?.any (· ≤ s.now) then s.drain else s

/-- Asks for a run over some files now. Whoever asks may have cancelled the request already. -/
def request (s : Session) (files : List FileUri) (pause : Nat) (cancelled : Bool) : Session :=
  if s.isShutDown || files.isEmpty then s
  else s.startRun files false pause true (if cancelled then some .caller else none)

def proceed (s : Session) (run : Nat) (walk : Walk) (next : Option Continuation) : Session :=
  s.adopt (s.scheduler.proceed run s.now walk next)

/-- The step of a run under way ends, and it is the last one: the run gives up where it is. -/
def abandon (s : Session) (run : Nat) (walk : Walk) : Session :=
  (s.cancelRun run .change).proceed run walk (some .immediate)

/-- A run stores and publishes what was found in a file. -/
def handOver (s : Session) (run : Nat) (uri : FileUri) (kind : DiagnosticKind)
    (found : List Diagnostic) : Session :=
  (s.record (.handedOver run uri kind)).publish uri kind found

def skip (s : Session) (run : Nat) (walk : Walk) (uri : FileUri) : Session :=
  (s.record (.skipped run uri)).proceed run walk.next
    (if walk.next.hasMore then some .immediate else none)

/-- A run has linted a file and goes on with the next after a pause. -/
def proceedToNext (s : Session) (run : Nat) (walk : Walk) (uri : FileUri) : Session :=
  (s.record (.linted run uri)).proceed run walk.next
    (if walk.next.hasMore then some (.delay walk.pause) else none)

/-- A step of a run begins, at a file. -/
def step (s : Session) (run : Nat) (walk : Walk) : Session :=
  match walk.file? with
  | none => s.proceed run walk none
  | some uri =>
    match s.workspace.document? uri, walk.phase with
    | none, _ => s.skip run walk uri
    | some _, .types => s.record (.typesAsked uri)
    | some d, .lint =>
      if s.isStale walk then s.abandon run walk
      else (s.handOver run uri .lint (s.lint d)).proceedToNext run walk uri

/-- A run has its turn: if a step may begin, it does. -/
def turn (s : Session) (run : Nat) : Session :=
  match s.scheduler.begin run s.now with
  | (scheduler, some walk) => (s.adopt scheduler).step run walk
  | (scheduler, none) => s.adopt scheduler

/-- The step that asked for types ends, and the lint step of the file is next. -/
def proceedToLint (s : Session) (run : Nat) (walk : Walk) (uri : FileUri) : Session :=
  (s.record (.typed run uri)).proceed run { walk with phase := .lint } (some .immediate)

def typesFound (s : Session) (run : Nat) (walk : Walk) (uri : FileUri)
    (found : List Diagnostic) : Session :=
  let told := s.handOver run uri .typeInference found
  if told.isStale walk then told.abandon run walk else told.proceedToLint run walk uri

/-- The type checker has failed, and the types of the file stay as they are. -/
def typesFailed (s : Session) (run : Nat) (walk : Walk) (uri : FileUri) (error : ProducerError)
    (cancelled : Bool) : Session :=
  if error = .cancelled && cancelled then s.proceed run walk (some .immediate)
  else s.proceedToLint run walk uri

/-- A step that waits for types notices that its run was cancelled. -/
def heedCancellation (s : Session) (run : Nat) : Session :=
  match s.scheduler.working? run with
  | some working =>
    if working.cancelled then s.proceed run working.action (some .immediate) else s
  | none => s

/-- A step goes on with what the type checker has said. The result for a run that is out of date
is of no use. -/
def typesHeard (s : Session) (run : Nat) (walk : Walk) (uri : FileUri) (answer : TypesAnswer) :
    Session :=
  match answer.result with
  | .crashed => s.adopt (s.scheduler.finish run .failed)
  | .found found =>
    if s.isStale walk then s.abandon run walk else s.typesFound run walk uri found
  | .failed error =>
    if s.isStale walk then s.abandon run walk
    else s.typesFailed run walk uri error answer.isCancelling

/-- The type checker answers a step that waits for it. -/
def typesCome (s : Session) (run : Nat) (walk : Walk) (uri : FileUri) (answer : TypesAnswer) :
    Session :=
  (if answer.isCancelling then s.cancelRun run .producer else s).typesHeard run walk uri answer

/-- The type checker answers, if a step of the run waits for it. A run that was cancelled does not
look at the answer. -/
def typesAnswered (s : Session) (run : Nat) (answer : TypesAnswer) : Session :=
  match s.scheduler.working? run with
  | none => s
  | some working =>
    if working.cancelled then s.heedCancellation run
    else
      match working.action.file? with
      | some uri => s.typesCome run working.action uri answer
      | none => s

end Session

end ElmLint

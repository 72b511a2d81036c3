import ElmLint.Rehearsal.StandIn

/-!
# Rehearsals

A rehearsal is a session with stand-ins for its producers and a clock that moves only when it is
told to. Whoever is woken at an instant has its turn in the order of waking, the run comes last
when it has a step ahead, and only when nobody is left does the clock go on.
-/

namespace ElmLint

inductive Task where
  | silence
  | build (number : Nat)
  | run
  deriving DecidableEq, Repr

structure BuildUnderWay where
  number : Nat
  due : Nat
  answer : BuildAnswer

structure Request where
  id : String
  run : Nat
  deriving DecidableEq, Repr

structure Rehearsal where
  session : Session
  standIns : StandIns
  /-- Those that were woken and had no turn yet. -/
  awake : List Task
  /-- What the latest request for types is answered, and when. -/
  types? : Option (Nat × TypesAnswer)
  builds : List BuildUnderWay
  requests : List Request
  /-- The identifiers whose requests were cancelled. -/
  cancelledIds : List String

namespace Rehearsal

def initial (session : Session) (standIns : StandIns) : Rehearsal :=
  ⟨session, standIns, [], none, [], [], []⟩

/-- Someone is woken. Who is woken again loses the earlier place. -/
def wake (r : Rehearsal) (task : Task) : Rehearsal :=
  { r with awake := r.awake.filter (· ≠ task) ++ [task] }

def run? (r : Rehearsal) : Option (Run Walk) := r.session.scheduler.currentRun?

/-- The latest run, if it waits for types. -/
def waiting? (r : Rehearsal) : Option (Run Walk) := r.run?.filter (·.stage = .working)

/-- The surroundings take note of what the session does: producers begin their answers, and those
that it concerns are woken. -/
def notice (r : Rehearsal) : Fact → Rehearsal
  | .marked _ => r.wake .silence
  | .typesAsked uri =>
    let (delay, answer) := r.standIns.typesAnswer uri
    { r with types? := some (r.session.now + delay, answer) }
  | .buildAsked number uri =>
    let (delay, answer) := r.standIns.buildAnswer uri
    wake { r with builds := r.builds ++ [⟨number, r.session.now + delay, answer⟩] } (.build number)
  | .cancelled run _ => if r.session.scheduler.current? = some run then r.wake .run else r
  | _ => r

/-- What a session has done since an earlier state, the oldest first. -/
def news (earlier later : Session) : List (Nat × Fact) :=
  (later.history.take (later.history.length - earlier.history.length)).reverse

/-- Something happens to the session, and its surroundings take note. -/
def happen (r : Rehearsal) (event : Event) : Rehearsal :=
  let session := r.session.after event
  (news r.session session).foldl (fun r (_, fact) => r.notice fact) { r with session }

def happenToRun (r : Rehearsal) (event : Nat → Event) : Rehearsal :=
  match r.session.scheduler.current? with
  | some run => r.happen (event run)
  | none => r

def isRunReady (r : Rehearsal) : Bool := r.run?.any (·.stage = .ready)

/-- The run pauses, and its pause is over. -/
def isPauseOver (r : Rehearsal) : Bool :=
  r.run?.any fun run =>
    match run.stage with
    | .resting _ => run.isDue r.session.now
    | _ => false

/-- The run waits for types, and they are there. -/
def hasTypes (r : Rehearsal) : Bool :=
  r.waiting?.isSome && r.types?.any (·.1 ≤ r.session.now)

def deliverTypes (r : Rehearsal) : Rehearsal :=
  match r.types? with
  | some (_, answer) => happenToRun { r with types? := none } (.typesAnswered · answer)
  | none => r

/-- The run does a step. Types that take no time are there before anyone else has a turn. -/
def stepRun (r : Rehearsal) : Rehearsal :=
  let stepped := r.happenToRun .turn
  if stepped.hasTypes then stepped.deliverTypes else stepped

/-- The run has its turn. A pause that takes no time does not end it. -/
def turn (r : Rehearsal) : Rehearsal :=
  let stepped := r.stepRun
  if stepped.isPauseOver then stepped.stepRun else stepped

/-- The run was woken. A step ahead is not done yet: everyone else has a turn before. -/
def wakeRun (r : Rehearsal) : Rehearsal :=
  if r.waiting?.any (·.cancelled) then r.happenToRun .heedCancellation
  else if r.hasTypes then r.deliverTypes
  else if r.isPauseOver then r.turn
  else r

/-- A build was woken. If its answer is there, the session hears of it. -/
def wakeBuild (r : Rehearsal) (number : Nat) : Rehearsal :=
  match r.builds.find? fun b => b.number = number && b.due ≤ r.session.now with
  | some build =>
    happen { r with builds := r.builds.filter (·.number ≠ number) }
      (.buildAnswered number build.answer)
  | none => r

/-- Someone has a turn, if anyone is there who can use it. -/
def act? (r : Rehearsal) : Option Rehearsal :=
  match r.awake with
  | .silence :: rest => some (happen { r with awake := rest } .silence)
  | .build number :: rest => some (wakeBuild { r with awake := rest } number)
  | .run :: rest => some (wakeRun { r with awake := rest })
  | [] => if r.isRunReady then some r.turn else none

def runTime? (r : Rehearsal) : Option Nat :=
  r.run?.bind fun run =>
    match run.stage with
    | .resting wake => some wake
    | .working => r.types?.map (·.1)
    | .ready | .over => none

/-- Those who are to be woken, and when. -/
def alarms (r : Rehearsal) : List (Nat × Task) :=
  r.session.debounce?.toList.map (·, .silence) ++ r.builds.map (fun b => (b.due, .build b.number)) ++
    r.runTime?.toList.map (·, .run)

def moveClock (r : Rehearsal) (time : Nat) : Rehearsal :=
  { r.happen (.clock time) with awake := (r.alarms.filter (·.1 ≤ time)).map (·.2) }

/-- Does what is due until the time `target`, in at most `fuel` moves. -/
def runUntil (target : Nat) : Nat → Rehearsal → Rehearsal
  | 0, r => r.happen (.clock target)
  | fuel + 1, r =>
    match r.act? with
    | some r' => runUntil target fuel r'
    | none =>
      match ((r.alarms.map (·.1)).filter (· ≤ target)).min? with
      | some time => runUntil target fuel (r.moveClock time)
      | none => r.happen (.clock target)

/-- A bound on the moves until nothing more happens. Each reaction of the editor can start one more
run, and no run takes more than eight moves for a file. -/
def budget (r : Rehearsal) : Nat :=
  let reactions := r.session.reactions.size
  let files := r.session.pending.length + r.session.inFlight.length +
    r.session.workspace.opened.length + reactions
  r.awake.length + 3 * r.builds.length + (reactions + 3) * (8 * (files + 2))

/-- Lets an amount of time pass. What is due at its end happens too. -/
def advance (r : Rehearsal) (ms : Nat) : Rehearsal :=
  r.runUntil (r.session.now + ms) r.budget

/-- A request for a run over some files. One that needs no run is complete at once. -/
def request (r : Rehearsal) (id : String) (files : List FileUri) (pause : Nat) :
    Rehearsal × List (String × Outcome) :=
  let begun := r.happen (.request files pause (r.cancelledIds.contains id))
  let run := begun.session.scheduler.started
  if run = r.session.scheduler.started then (begun, [(id, .completed)])
  else ({ begun with requests := begun.requests ++ [⟨id, run⟩] }, [])

/-- Cancels the requests of that identifier, also those to come. -/
def cancel (r : Rehearsal) (id : String) : Rehearsal :=
  (r.requests.filter (·.id == id)).foldl (fun r request => r.happen (.cancelRequest request.run))
    { r with cancelledIds := id :: r.cancelledIds }

/-- The requests that can be answered, in the order in which they came, with their outcomes. -/
def answers (r : Rehearsal) : List (String × Outcome) :=
  r.requests.filterMap fun request =>
    (r.session.scheduler.outcome? request.run).map (request.id, ·)

def dropAnswered (r : Rehearsal) : Rehearsal :=
  { r with requests := r.requests.filter fun request =>
    (r.session.scheduler.outcome? request.run).isNone }

end Rehearsal

end ElmLint

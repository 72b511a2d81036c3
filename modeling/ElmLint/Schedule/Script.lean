import ElmLint.Schedule.Scheduler

/-!
# Scripted runs

A script says what each step of a run does. A `Stagehand` plays scripts on a scheduler and writes
down what happens and when. Its clock moves only when it is told to, and then stops at every
instant at which something is due.
-/

namespace ElmLint

inductive Instruction where
  /-- Asks for the next step after a pause. -/
  | delay (ms : Nat)
  /-- Asks for the next step at once. -/
  | go
  /-- Takes its time, and then asks for the next step at once. -/
  | work (ms : Nat)
  /-- Fails. -/
  | fail
  /-- Cancels everything under its own name, and asks for the next step at once. -/
  | cancel
  /-- Asks for nothing, as a script does that is at its end. -/
  | stop
  deriving DecidableEq, Repr

structure Scripted where
  name : String
  /-- What is left of the script. -/
  script : List Instruction
  /-- The number of steps that have begun. -/
  ticks : Nat
  /-- The end of the work under way. -/
  busyUntil : Nat
  deriving Repr

inductive ScriptEvent where
  | tick (name : String) (number : Nat)
  | worked (name : String) (number : Nat)
  | done (name : String) (outcome : Outcome)
  deriving DecidableEq, Repr

/-- A scheduler of scripted runs with a clock of its own. -/
structure Stagehand where
  now : Nat
  scheduler : Scheduler Scripted
  /-- The names that were cancelled. A run under such a name never begins a step. -/
  cancelledNames : List String
  /-- What happened and when, the newest first. -/
  events : List (Nat × ScriptEvent)

namespace Stagehand

def initial : Stagehand := ⟨0, .idle, [], []⟩

def note (s : Stagehand) (event : ScriptEvent) : Stagehand :=
  { s with events := (s.now, event) :: s.events }

/-- Takes over a later state of the scheduler and writes down what it has reported since. -/
def adopt (s : Stagehand) (scheduler : Scheduler Scripted) : Stagehand :=
  (scheduler.reportsSince s.scheduler).foldl
    (fun s report => s.note (.done report.action.name report.outcome)) { s with scheduler }

def start (s : Stagehand) (name : String) (script : List Instruction) : Stagehand :=
  s.adopt (s.scheduler.start ⟨name, script, 0, 0⟩ (s.cancelledNames.contains name))

def stop (s : Stagehand) : Stagehand := s.adopt s.scheduler.stop

/-- Cancels every run of that name, also those to come. -/
def cancel (s : Stagehand) (name : String) : Stagehand :=
  { s with
    cancelledNames := name :: s.cancelledNames
    scheduler := s.scheduler.cancelAll (·.name == name) }

def proceed (s : Stagehand) (id : Nat) (run : Scripted) (next : Option Continuation) : Stagehand :=
  s.adopt (s.scheduler.proceed id s.now run next)

/-- Plays the next instruction of a run whose step has just begun. -/
def play (s : Stagehand) (id : Nat) (run : Scripted) : Stagehand :=
  let ticked := { run with ticks := run.ticks + 1, script := run.script.tail }
  let s := s.note (.tick run.name ticked.ticks)
  match run.script.headD .stop with
  | .delay ms => s.proceed id ticked (some (.delay ms))
  | .go => s.proceed id ticked (some .immediate)
  | .work ms =>
    { s with scheduler := s.scheduler.carryOn id { ticked with busyUntil := s.now + ms } }
  | .fail => s.adopt (s.scheduler.finish id .failed)
  | .cancel => (s.cancel run.name).proceed id ticked (some .immediate)
  | .stop => s.proceed id ticked none

/-- Does one thing of a run that is due now, if there is any. -/
def actFor? (s : Stagehand) (id : Nat) : Option Stagehand :=
  match s.scheduler.working? id with
  | some run =>
    if run.action.busyUntil ≤ s.now then
      some ((s.note (.worked run.action.name run.action.ticks)).proceed id run.action
        (some .immediate))
    else none
  | none =>
    if (s.scheduler.run? id).any (·.isDue s.now) then
      match s.scheduler.begin id s.now with
      | (scheduler, some run) => some ((s.adopt scheduler).play id run)
      | (scheduler, none) => some (s.adopt scheduler)
    else none

/-- Does one thing that is due now, if there is any. -/
def act? (s : Stagehand) : Option Stagehand := s.scheduler.current?.bind s.actFor?

/-- The time at which the current run goes on by itself. -/
def wake? (s : Stagehand) : Option Nat :=
  s.scheduler.currentRun?.bind fun run =>
    match run.stage with
    | .working => some run.action.busyUntil
    | .resting wake => some wake
    | .ready | .over => none

/-- Does what is due until the time `target`, in at most `fuel` moves. -/
def runUntil (target : Nat) : Nat → Stagehand → Stagehand
  | 0, s => { s with now := target }
  | fuel + 1, s =>
    match s.act? with
    | some s' => runUntil target fuel s'
    | none =>
      match s.wake?.filter (· ≤ target) with
      | some time => runUntil target fuel { s with now := time }
      | none => { s with now := target }

/-- Every instruction takes at most four moves: its step begins, its work or pause is waited for,
and its work ends. -/
def budget (s : Stagehand) : Nat :=
  4 * (s.scheduler.currentRun?.elim 0 fun run => run.action.script.length) + 8

/-- Lets an amount of time pass. What is due at its end happens too. -/
def advance (s : Stagehand) (ms : Nat) : Stagehand := s.runUntil (s.now + ms) s.budget

end Stagehand

end ElmLint

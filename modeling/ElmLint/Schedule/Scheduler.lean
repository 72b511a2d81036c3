import ElmLint.Table

/-!
# Runs

A scheduler carries out one run at a time, one step after the other. A run that is replaced or
stopped takes no further step, and every run reports exactly once how it ended. The tasks of
earlier runs stay on record, for whoever wakes one of them has to find it over.
-/

namespace ElmLint

inductive Outcome where
  /-- A step asked for no further step. -/
  | completed
  /-- The run was stopped, or a step was about to begin after the run had been cancelled. -/
  | cancelled
  /-- A step failed. -/
  | failed
  /-- Another run took its place. -/
  | superseded
  deriving DecidableEq, Repr

inductive Continuation where
  | immediate
  | delay (ms : Nat)
  deriving DecidableEq, Repr

inductive Stage where
  /-- The next step may begin. -/
  | ready
  /-- A step has begun and not ended. -/
  | working
  /-- The next step may begin at the time `wake`, or as soon as the run is cancelled. -/
  | resting (wake : Nat)
  /-- The task has come to its end or was taken off. -/
  | over
  deriving DecidableEq, Repr

/-- Work in steps. Between the steps, all that is known of it is `action`. -/
structure Run (α : Type) where
  action : α
  cancelled : Bool
  stage : Stage
  /-- How the run ended, once that is reported. -/
  outcome? : Option Outcome
  deriving Repr

namespace Run

variable {α : Type}

def ofAction (action : α) (cancelled : Bool) : Run α := ⟨action, cancelled, .ready, none⟩

def isActive (r : Run α) : Bool := r.stage ≠ .over

def isDue (r : Run α) (now : Nat) : Bool :=
  match r.stage with
  | .ready => true
  | .resting wake => r.cancelled || wake ≤ now
  | .working | .over => false

end Run

/-- How a run ended, and what it had come to. -/
structure Report (α : Type) where
  run : Nat
  action : α
  outcome : Outcome
  deriving Repr

/-- A scheduler, the tasks of its runs, and what it has reported. Runs are numbered from one in the
order in which they start. -/
structure Scheduler (α : Type) where
  /-- The number of runs so far. -/
  started : Nat
  /-- The latest run, also when it has ended, until it is stopped. -/
  current? : Option Nat
  /-- The tasks of all runs so far. -/
  runs : Table Nat (Run α)
  /-- The reports, the newest first. -/
  reports : List (Report α)
  deriving Repr

namespace Scheduler

variable {α : Type}

def idle : Scheduler α := ⟨0, none, .empty, []⟩

instance : Inhabited (Scheduler α) := ⟨idle⟩

def run? (s : Scheduler α) (id : Nat) : Option (Run α) := s.runs.get? id

/-- The latest run, also when it has ended, until it is stopped. -/
def currentRun? (s : Scheduler α) : Option (Run α) := s.current?.bind s.run?

/-- A run has started and neither ended nor been stopped. -/
def isRunning (s : Scheduler α) : Bool := s.currentRun?.any Run.isActive

/-- The run of that number, if it is in the middle of a step. -/
def working? (s : Scheduler α) (id : Nat) : Option (Run α) :=
  (s.run? id).filter (·.stage = .working)

def outcome? (s : Scheduler α) (id : Nat) : Option Outcome := (s.run? id).bind (·.outcome?)

def update (s : Scheduler α) (id : Nat) (change : Run α → Run α) : Scheduler α :=
  match s.run? id with
  | some run => { s with runs := s.runs.put id (change run) }
  | none => s

/-- Reports how a run ended, unless it has been reported before: the first to tell is heard. -/
def report (s : Scheduler α) (id : Nat) (outcome : Outcome) : Scheduler α :=
  match s.run? id with
  | some run =>
    if run.outcome?.isNone then
      { s.update id fun run => { run with outcome? := some outcome } with
        reports := ⟨id, run.action, outcome⟩ :: s.reports }
    else s
  | none => s

/-- The task of a run takes no further step, and the run is reported. -/
def finish (s : Scheduler α) (id : Nat) (outcome : Outcome) : Scheduler α :=
  (s.update id fun run => { run with stage := .over }).report id outcome

/-- Starts a run in place of the current one. Its first step begins later. -/
def start (s : Scheduler α) (action : α) (cancelled : Bool) : Scheduler α :=
  let id := s.started + 1
  let spawned : Scheduler α :=
    ⟨id, some id, s.runs.put id (.ofAction action cancelled), s.reports⟩
  match s.current? with
  | some previous => spawned.finish previous .superseded
  | none => spawned

def stop (s : Scheduler α) : Scheduler α :=
  match s.current? with
  | some id => { s.finish id .cancelled with current? := none }
  | none => s

/-- Cancels a run, which notices before its next step. -/
def cancel (s : Scheduler α) (id : Nat) : Scheduler α :=
  s.update id fun run => { run with cancelled := true }

def cancelAll (s : Scheduler α) (sort : α → Bool) : Scheduler α :=
  { s with runs := s.runs.mapValues fun _ run =>
      { run with cancelled := run.cancelled || sort run.action } }

/-- If a step of the run may begin now, then it begins, and its action is given along; or it does
not begin, since the run was cancelled, and the run ends. -/
def begin (s : Scheduler α) (id now : Nat) : Scheduler α × Option α :=
  match s.run? id with
  | some run =>
    if run.isDue now then
      if run.cancelled then (s.finish id .cancelled, none)
      else (s.update id fun run => { run with stage := .working }, some run.action)
    else (s, none)
  | none => (s, none)

/-- The step that has begun goes on, and has come to `action` so far. -/
def carryOn (s : Scheduler α) (id : Nat) (action : α) : Scheduler α :=
  match s.working? id with
  | some _ => s.update id fun run => { run with action }
  | none => s

/-- The step that has begun ends: it has come to `action` and asks for the next step. -/
def proceed (s : Scheduler α) (id now : Nat) (action : α) (next : Option Continuation) :
    Scheduler α :=
  match s.working? id with
  | some _ =>
    match next with
    | none => (s.update id fun run => { run with action }).finish id .completed
    | some .immediate => s.update id fun run => { run with action, stage := .ready }
    | some (.delay ms) => s.update id fun run => { run with action, stage := .resting (now + ms) }
  | none => s

/-- What has been reported since an earlier state, the oldest first. -/
def reportsSince (later earlier : Scheduler α) : List (Report α) :=
  (later.reports.take (later.reports.length - earlier.reports.length)).reverse

end Scheduler

end ElmLint

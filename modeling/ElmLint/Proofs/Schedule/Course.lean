import ElmLint.Proofs.Schedule.RunLaws

/-!
# The course of a schedule

A schedule is a scheduler with a clock and a log of what has happened. `Schedule.next` is what one
event makes of it, by the operations of the scheduler alone. The newest fact comes first in the log,
so what was known at a time is read off the rest of the log from there on.
-/

namespace ElmLint

/-- How a step ends. -/
inductive StepResult (α : Type) where
  | failed
  /-- The step has come to `action` and asks for the next step, or for none. -/
  | done (action : α) (next : Option Continuation)

namespace Schedule

/-- What can happen to a scheduler, in any order. A step that has begun may be overtaken by other
events before it ends. -/
inductive Event (α : Type) where
  /-- A run starts, under a token that may have been cancelled already. -/
  | start (action : α) (cancelled : Bool)
  | stop
  /-- The token of a run is cancelled. -/
  | cancel (run : Nat)
  /-- The clock shows a time. -/
  | clock (time : Nat)
  /-- The task of a run has its turn. -/
  | turn (run : Nat)
  /-- The step of a run goes on, and has come to `action` so far. -/
  | carryOn (run : Nat) (action : α)
  /-- The step of a run ends. -/
  | stepEnds (run : Nat) (result : StepResult α)

inductive Fact where
  | started (run : Nat)
  | stopped
  | cancelled (run : Nat)
  /-- A step of the run begins. -/
  | begun (run : Nat)
  /-- A step of the run was to begin, and the run was found cancelled. -/
  | refused (run : Nat)
  /-- A step of the run fails. -/
  | failed (run : Nat)
  /-- A step of the run ends, and asks for the next or for none. -/
  | stepped (run : Nat) (next : Option Continuation)
  | reported (run : Nat) (outcome : Outcome)
  deriving DecidableEq, Repr

/-- Facts with their times, the newest first. -/
abbrev Log : Type := List (Nat × Fact)

end Schedule

/-- A scheduler over time. -/
structure Schedule (α : Type) where
  /-- The time in milliseconds. -/
  now : Nat
  scheduler : Scheduler α
  log : Schedule.Log

namespace Schedule

variable {α : Type}

def idle : Schedule α := ⟨0, .idle, []⟩

/-- The scheduler has come to a later state by what the facts say, the newest first. What it has
reported since is noted after them. -/
def tell (s : Schedule α) (scheduler : Scheduler α) (facts : List Fact) : Schedule α :=
  let reports := (scheduler.reportsSince s.scheduler).reverse.map fun report =>
    Fact.reported report.run report.outcome
  ⟨s.now, scheduler, (reports ++ facts).map (s.now, ·) ++ s.log⟩

/-- The task of a run has its turn. -/
def turn (s : Schedule α) (n : Nat) : Schedule α :=
  match s.scheduler.begin n s.now with
  | (scheduler, some _) => s.tell scheduler [.begun n]
  | (scheduler, none) =>
    s.tell scheduler (if (s.scheduler.run? n).any (·.isDue s.now) then [.refused n] else [])

/-- The step of a run ends. No one hears of a step that was taken off before. -/
def stepEnds (s : Schedule α) (n : Nat) (result : StepResult α) : Schedule α :=
  match s.scheduler.working? n, result with
  | none, _ => s
  | some _, .failed => s.tell (s.scheduler.finish n .failed) [.failed n]
  | some _, .done action next =>
    s.tell (s.scheduler.proceed n s.now action next) [.stepped n next]

/-- The token of a run is cancelled, if there is such a run. -/
def cancel (s : Schedule α) (n : Nat) : Schedule α :=
  match s.scheduler.run? n with
  | some _ => s.tell (s.scheduler.cancel n) [.cancelled n]
  | none => s

def next (s : Schedule α) : Event α → Schedule α
  | .start action cancelled =>
    let n := s.scheduler.started + 1
    s.tell (s.scheduler.start action cancelled)
      (if cancelled then [.started n, .cancelled n] else [.started n])
  | .stop => s.tell s.scheduler.stop [.stopped]
  | .cancel n => s.cancel n
  | .clock time => { s with now := max s.now time }
  | .turn n => s.turn n
  | .carryOn n action => s.tell (s.scheduler.carryOn n action) []
  | .stepEnds n result => s.stepEnds n result

-- ---------------------------------------------------------------------------
-- Reading a log
-- ---------------------------------------------------------------------------

/-- The number of runs that have started. -/
def starts : Log → Nat
  | [] => 0
  | (_, .started _) :: earlier => starts earlier + 1
  | _ :: earlier => starts earlier

def HasStarted (n : Nat) (log : Log) : Prop := ∃ time, (time, Fact.started n) ∈ log

instance (n : Nat) (log : Log) : Decidable (HasStarted n log) :=
  decidable_of_iff (log.any (·.2 = .started n) = true) (by simp [HasStarted])

/-- The run that started last, unless the scheduler was stopped since. -/
def latest? : Log → Option Nat
  | [] => none
  | (_, .started n) :: _ => some n
  | (_, .stopped) :: _ => none
  | _ :: earlier => latest? earlier

def HasCancelled (n : Nat) (log : Log) : Prop := ∃ time, (time, Fact.cancelled n) ∈ log

/-- How a run ends by what happens: another takes its place, it is stopped or found cancelled, a
step fails or asks for no further step. -/
def Fact.ends? (n : Nat) : Fact → Option Outcome
  | .started m => if m = n then none else some .superseded
  | .stopped => some .cancelled
  | .refused m => if m = n then some .cancelled else none
  | .failed m => if m = n then some .failed else none
  | .stepped m none => if m = n then some .completed else none
  | _ => none

/-- How a run has ended. The first thing since its start that ends it counts. -/
def fate? (n : Nat) : Log → Option Outcome
  | [] => none
  | (_, fact) :: earlier =>
    if HasStarted n earlier then (fate? n earlier).or (fact.ends? n) else none

/-- What was reported of a run, the latest first. -/
def reportsOf (n : Nat) : Log → List Outcome
  | [] => []
  | (_, .reported m outcome) :: earlier =>
    if m = n then outcome :: reportsOf n earlier else reportsOf n earlier
  | _ :: earlier => reportsOf n earlier

/-- A step of the run has begun and neither ended nor been taken off by a report. -/
def IsInStep (n : Nat) : Log → Prop
  | [] => False
  | (_, .begun m) :: earlier => m = n ∨ IsInStep n earlier
  | (_, .failed m) :: earlier | (_, .stepped m _) :: earlier | (_, .reported m _) :: earlier =>
    m ≠ n ∧ IsInStep n earlier
  | _ :: earlier => IsInStep n earlier

/-- A step of the run may begin: no other run has started since, it was not stopped, it has not been
reported, no one has cancelled it, all pauses it has asked for are over, and no step of any run is
under way. -/
structure MayBegin (n time : Nat) (log : Log) : Prop where
  latest : latest? log = some n
  unreported : reportsOf n log = []
  uncancelled : ¬ HasCancelled n log
  rested : ∀ time' ms, (time', .stepped n (some (.delay ms))) ∈ log → time' + ms ≤ time
  alone : ∀ m, ¬ IsInStep m log

/-- The fact can come next, at this time: steps begin only when they may, only cancelled runs are
refused, and only steps that are under way end. -/
def Fact.CanFollow (time : Nat) (earlier : Log) : Fact → Prop
  | .begun n => MayBegin n time earlier
  | .refused n => HasCancelled n earlier ∧ reportsOf n earlier = []
  | .failed n | .stepped n _ => IsInStep n earlier
  | _ => True

/-- Every fact could come when it came. -/
def Orderly (log : Log) : Prop :=
  ∀ time fact earlier, (time, fact) :: earlier <:+ log → fact.CanFollow time earlier

/-- Runs are numbered from one in the order in which they start. -/
def Numbered (log : Log) : Prop :=
  ∀ time n earlier, (time, .started n) :: earlier <:+ log → n = starts earlier + 1

/-- The fact names the run. -/
def Fact.isAbout (n : Nat) : Fact → Bool
  | .stopped => false
  | .started m | .cancelled m | .begun m | .refused m | .failed m | .stepped m _ |
    .reported m _ => m = n

/-- The fact tells neither of a start nor of a stop. -/
def Fact.isPlain : Fact → Bool
  | .started _ | .stopped => false
  | _ => true

variable {log log' : Log} {fact : Fact} {n time : Nat} {outcome : Outcome}

theorem Numbered.of_suffix (h : Numbered log) (hsuffix : log' <:+ log) : Numbered log' :=
  fun time n earlier hm => h time n earlier (hm.trans hsuffix)

/-- Only a start or a stop ends runs that it does not name. -/
theorem ends?_of_isPlain (hplain : fact.isPlain = true) (hother : fact.isAbout n = false) :
    fact.ends? n = none := by
  cases fact with
  | started | stopped => cases hplain
  | refused m | failed m => exact if_neg (of_decide_eq_false hother)
  | stepped m next =>
    cases next with
    | none => exact if_neg (of_decide_eq_false hother)
    | some next => rfl
  | _ => rfl

theorem hasStarted_cons_of_hasStarted (h : HasStarted n log) (entry : Nat × Fact) :
    HasStarted n (entry :: log) :=
  h.imp fun _ hm => List.mem_cons_of_mem _ hm

theorem fate?_cons (h : HasStarted n log) :
    fate? n ((time, fact) :: log) = (fate? n log).or (fact.ends? n) := by
  rw [fate?, if_pos h]

theorem reportsOf_cons (h : fact.isAbout n = false) :
    reportsOf n ((time, fact) :: log) = reportsOf n log := by
  cases fact with
  | reported m outcome =>
    have hne : m ≠ n := of_decide_eq_false h
    simp [reportsOf, hne]
  | _ => rfl

theorem hasCancelled_cons (h : fact ≠ .cancelled n) :
    HasCancelled n ((time, fact) :: log) ↔ HasCancelled n log := by
  simp [HasCancelled, Ne.symm h]

theorem isInStep_cons (h : fact.isAbout n = false) :
    IsInStep n ((time, fact) :: log) ↔ IsInStep n log := by
  cases fact with
  | begun m => exact or_iff_right (of_decide_eq_false h)
  | failed m | stepped m | reported m => exact and_iff_right (of_decide_eq_false h)
  | _ => exact Iff.rfl

/-- Nothing is known of a run that no fact names. -/
theorem unknown_of_not_isAbout (h : ∀ entry ∈ log, entry.2.isAbout n = false) :
    ¬ HasStarted n log ∧ fate? n log = none ∧ reportsOf n log = [] ∧ ¬ HasCancelled n log ∧
    ¬ IsInStep n log ∧ ∀ time next, (time, .stepped n next) ∉ log := by
  have hnot : ∀ fact : Fact, fact.isAbout n = true → ∀ time, (time, fact) ∉ log := by
    intro fact hfact time hm
    rw [h _ hm] at hfact
    cases hfact
  have hstarted : ¬ HasStarted n log :=
    fun ⟨time, hm⟩ => hnot (.started n) (decide_eq_true rfl) time hm
  refine ⟨hstarted, ?_, ?_, fun ⟨time, hm⟩ => hnot (.cancelled n) (decide_eq_true rfl) time hm, ?_,
    fun time next => hnot (.stepped n next) (decide_eq_true rfl) time⟩
  · cases log with
    | nil => rfl
    | cons entry log =>
      rw [fate?, if_neg fun hs => hstarted (hasStarted_cons_of_hasStarted hs entry)]
  · clear hnot hstarted
    induction log with
    | nil => rfl
    | cons entry log ih =>
      obtain ⟨hentry, hlog⟩ := List.forall_mem_cons.mp h
      exact (reportsOf_cons hentry).trans (ih hlog)
  · clear hnot hstarted
    induction log with
    | nil => exact id
    | cons entry log ih =>
      obtain ⟨hentry, hlog⟩ := List.forall_mem_cons.mp h
      exact mt (isInStep_cons hentry).mp (ih hlog)

end Schedule

end ElmLint

import ElmLint.Proofs.Session.Coherence

/-!
# The course of a session

A moment is what a session has come to by events, together with the interruptions that are under
way and the files of which the editor has yet to tell. While something urgent interrupts, no task
gets its turn. `Reachable` are the moments that any order of events leads to.
-/

namespace ElmLint

/-- A session at some time between two events. -/
structure Moment where
  session : Session
  /-- The interruptions that have begun and not ended, the latest first: whether each has cancelled
  a run. -/
  interruptions : List Bool
  /-- The files that have got a text, or were forgotten while they had one, and which the editor has
  not announced since. -/
  unannounced : List FileUri

namespace Moment

/-- Nothing has happened. -/
def initial (sourceDirs : List FileUri) (settings : Settings) : Moment :=
  ⟨.initial sourceDirs settings, [], []⟩

/-- The interruptions that are under way after an event. -/
def interruptionsAfter (m : Moment) : Event → List Bool
  | .beginInterruption => m.session.isInterruptible :: m.interruptions
  | .endInterruption _ => m.interruptions.tail
  | _ => m.interruptions

/-- The files of which the editor has yet to tell after an event. -/
def unannouncedAfter (m : Moment) : Event → List FileUri
  | .setFile uri _ _ => uri :: m.unannounced
  | .deleteDocument uri =>
    if (m.session.workspace.document? uri).isSome then uri :: m.unannounced else m.unannounced
  | .openDocument uri | .changeDocument uri => m.unannounced.filter (· ≠ uri)
  | _ => m.unannounced

/-- The moment after an event. -/
def next (m : Moment) (e : Event) : Moment :=
  ⟨m.session.after e, m.interruptionsAfter e, m.unannouncedAfter e⟩

/-- The event can come next: an interruption ends as it began, and no task acts while something
interrupts. -/
def allows (m : Moment) : Event → Bool
  | .endInterruption hasCancelled => m.interruptions.head? == some hasCancelled
  | e => !e.isTask || m.interruptions.isEmpty

/-- The events can come next in that order. -/
def allowsAll (m : Moment) : List Event → Bool
  | [] => true
  | e :: events => m.allows e && (m.next e).allowsAll events

variable {m : Moment} {e : Event} {events : List Event}

theorem coherent_foldl (hc : m.session.Coherent) (events : List Event) :
    (events.foldl next m).session.Coherent := by
  induction events generalizing m with
  | nil => exact hc
  | cons e events ih => exact ih (hc.after e)

theorem allowsAll_append (m : Moment) (events later : List Event) :
    m.allowsAll (events ++ later) = (m.allowsAll events && (events.foldl next m).allowsAll later) := by
  induction events generalizing m with
  | nil => rfl
  | cons e events ih => rw [List.cons_append, allowsAll, ih, allowsAll, Bool.and_assoc, List.foldl_cons]

/-- A session that has not ended had not ended before. -/
theorem live_of_next (hc : m.session.Coherent) (hlive : (m.next e).session.isShutDown = false) :
    m.session.isShutDown = false := by
  have hmoves := (hc.affected e).outsideKept_moves (m.session.moves_after e)
  exact (hc.live_of_affected (hmoves.isShutDown.symm.trans hlive)).1

theorem live_of_foldl (hc : m.session.Coherent)
    (hlive : (events.foldl next m).session.isShutDown = false) : m.session.isShutDown = false := by
  induction events generalizing m with
  | nil => exact hlive
  | cons e events ih => exact live_of_next hc (ih (hc.after e) hlive)

end Moment

/-- The moments that a session can come to by events of some sort, in any order. -/
inductive Reachable (sourceDirs : List FileUri) (settings : Settings) (sort : Event → Bool) :
    Moment → Prop where
  | initial : Reachable sourceDirs settings sort (.initial sourceDirs settings)
  | next {m : Moment} {e : Event} (h : Reachable sourceDirs settings sort m)
      (hallows : m.allows e = true) (hsort : sort e = true) :
      Reachable sourceDirs settings sort (m.next e)

namespace Reachable

variable {sourceDirs : List FileUri} {settings : Settings} {sort : Event → Bool} {m : Moment}

theorem coherent (h : Reachable sourceDirs settings sort m) : m.session.Coherent := by
  induction h with
  | initial => exact Session.coherent_initial sourceDirs settings
  | next _ _ _ ih => exact ih.after _

/-- What holds at first, and is kept by the outside effect of every event and by every move, holds
at all times. -/
theorem invariant {P : Session → Prop} (h : Reachable sourceDirs settings sort m)
    (hinitial : P (.initial sourceDirs settings))
    (haffected : ∀ {s : Session} (e : Event), s.Coherent → P s → P (s.affected e))
    (hmove : ∀ {awake : Bool} {s s' : Session}, s.Coherent → P s → Session.Move awake s s' → P s') :
    P m.session := by
  have hmoves : ∀ {awake : Bool} {s s' : Session}, s.Coherent → P s →
      Session.Moves awake s s' → P s' := by
    intro awake s s' hc hs hm
    induction hm with
    | refl => exact hs
    | tail hm' hm ih => exact hmove (hc.moves hm') ih hm
  induction h with
  | initial => exact hinitial
  | @next m e h _ _ ih =>
    exact hmoves (h.coherent.affected e) (haffected e h.coherent ih) (m.session.moves_after e)

theorem foldl (h : Reachable sourceDirs settings sort m) (events : List Event)
    (hallows : m.allowsAll events = true) (hsort : events.all sort = true) :
    Reachable sourceDirs settings sort (events.foldl .next m) := by
  induction events generalizing m with
  | nil => exact h
  | cons e events ih =>
    simp only [Moment.allowsAll, List.all_cons, Bool.and_eq_true] at hallows hsort
    exact ih (h.next hallows.1 hsort.1) hallows.2 hsort.2

/-- A session that has not ended had not ended before. -/
theorem live_before (h : Reachable sourceDirs settings sort m) {e : Event}
    (hlive : (m.next e).session.isShutDown = false) :
    m.session.isShutDown = false ∧ e ≠ .shutDown := by
  have hmoves := (h.coherent.affected e).outsideKept_moves (m.session.moves_after e)
  exact h.coherent.live_of_affected (hmoves.isShutDown.symm.trans hlive)

/-- A file comes into the project and is analysed. -/
def firstAnalysis : List Event :=
  [.setFile ⟨"file:///Main.elm"⟩ "module Main exposing (f)\n\nimport List\n\nf =\n    1\n" true,
   .changeDocument ⟨"file:///Main.elm"⟩, .clock 200, .silence, .turn 1,
   .typesAnswered 1 ⟨false, .found []⟩, .turn 1]

end Reachable

end ElmLint

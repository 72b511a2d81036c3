import ElmLint.Proofs.Session.Silence
import ElmLint.Rehearsal.Basic
import Mathlib.Data.List.Chain

/-!
# Marks and drains

A `Signal` is what can be seen of the wait for silence, a mark or a drain, and `signalsOf` lists the
signals of a course of events. The wait is read off the last of them (`debounce?_foldl`): it lasts
until the window is over that was in force at the latest mark. A drain for which no interruption is
the reason comes when the wait is over, directly behind the mark that had begun it
(`silence_foldl`), and marks that are close to each other have one such drain (`isBurst_foldl`).
-/

namespace ElmLint

/-- What can be seen of the wait for silence. -/
inductive Signal where
  /-- A file is marked, at a time and while a window is in force. -/
  | mark (time window : Nat)
  /-- The files that wait are taken for a run, because the wait is over or for another reason. -/
  | drain (time : Nat) (byTimer : Bool)
  deriving DecidableEq, Repr

namespace Signal

/-- The time up to which there is a wait after a signal. -/
def deadline? : Signal → Option Nat
  | mark time window => some (time + window)
  | drain .. => none

theorem exists_of_deadline? {signal : Signal} {deadline : Nat}
    (h : signal.deadline? = some deadline) :
    ∃ time window, signal = mark time window ∧ time + window = deadline := by
  cases signal with
  | mark time window => exact ⟨time, window, rfl, Option.some.inj h⟩
  | drain => cases h

/-- Time and window of a mark. -/
def mark? : Signal → Option (Nat × Nat)
  | mark time window => some (time, window)
  | drain .. => none

/-- The mark of a time and a window. -/
def ofMark (mark : Nat × Nat) : Signal := .mark mark.1 mark.2

def ofFact? (window : Nat) (byTimer : Bool) : Nat × Fact → Option Signal
  | (time, .marked _) => some (mark time window)
  | (time, .drained) => some (drain time byTimer)
  | _ => none

/-- A drain that follows some marks comes after all of them. -/
theorem drain_behind_marks {count time window silence : Nat} {byTimer : Bool}
    {earlier later rest : List Signal}
    (h : List.replicate count (mark time window) ++ rest = earlier ++ drain silence byTimer :: later) :
    ∃ between, earlier = List.replicate count (mark time window) ++ between ∧
      rest = between ++ drain silence byTimer :: later := by
  induction count generalizing earlier with
  | zero => exact ⟨earlier, rfl, h⟩
  | succ count ih =>
    cases earlier with
    | nil => cases (List.cons.inj h).1
    | cons signal earlier =>
      obtain ⟨hsignal, htail⟩ := List.cons.inj h
      obtain ⟨between, rfl, hrest⟩ := ih htail
      exact ⟨between, by rw [← hsignal]; rfl, hrest⟩

end Signal

namespace Moment

/-- The signals of an event, the oldest first. An event that brings a new window does so before it
marks anything. -/
def signals (m : Moment) (e : Event) : List Signal :=
  (Rehearsal.news m.session (m.next e).session).filterMap
    (Signal.ofFact? (m.next e).session.settings.debounce e.isSilence)

/-- The signals of events one after the other, the oldest first. -/
def signalsOf (m : Moment) : List Event → List Signal
  | [] => []
  | e :: events => m.signals e ++ (m.next e).signalsOf events

/-- The clock does not pass the end of the wait before the wait is woken. -/
def isOnTime (m : Moment) : Event → Bool
  | .clock time => m.session.debounce?.all (time ≤ ·)
  | _ => true

def areOnTime (m : Moment) : List Event → Bool
  | [] => true
  | e :: events => m.isOnTime e && (m.next e).areOnTime events

variable {m : Moment} {e : Event} {events : List Event} {deadline time window : Nat}

/-- The signals of an event are read off what it adds to the history about the wait. -/
theorem signals_eq (hc : m.session.Coherent) {about : History}
    (h : (m.next e).session.history.ofSilence = about ++ m.session.history.ofSilence) :
    m.signals e = (about.filterMap
      (Signal.ofFact? (m.next e).session.settings.debounce e.isSilence)).reverse := by
  obtain ⟨later, hlater, -⟩ := hc.skipsGone_after e
  have hnext : (m.next e).session.history = later ++ m.session.history := hlater
  have habout : about = later.ofSilence := by
    rw [hnext, History.ofSilence, List.filter_append] at h
    exact (List.append_cancel_right h).symm
  have hsilent (entry : Nat × Fact) (window : Nat) (byTimer : Bool)
      (hentry : entry.2.leavesSilence = true) :
      Signal.ofFact? window byTimer entry = none := by
    obtain ⟨time, fact⟩ := entry
    cases fact with
    | marked | drained | ended => cases hentry
    | _ => rfl
  rw [signals, Rehearsal.news, hnext, List.length_append, Nat.add_sub_cancel, List.take_left,
    List.filterMap_reverse, habout, History.ofSilence, List.filterMap_filter]
  congr 2
  funext entry
  cases hentry : entry.2.leavesSilence with
  | true => simp [hsilent entry _ _ hentry]
  | false => simp

theorem isShutDown_next_shutDown (m : Moment) :
    (m.next .shutDown).session.isShutDown = true := by
  change m.session.shutDown.isShutDown = true
  cases hs : m.session.isShutDown with
  | true => rw [Session.shutDown_again hs, hs]
  | false => rw [Session.shutDown_eq hs]

/-- What an event does to the wait for silence: it marks files, perhaps none, or it takes those that
wait. -/
theorem signals_cases (hc : m.session.Coherent) (hlive : (m.next e).session.isShutDown = false) :
    (∃ count, m.signals e = List.replicate count
        (.mark (m.next e).session.now (m.next e).session.settings.debounce) ∧
      (m.next e).session.debounce? = (if count = 0 then m.session.debounce? else
        some ((m.next e).session.now + (m.next e).session.settings.debounce)) ∧
      (count = 0 → m.session.pending = [] → (m.next e).session.pending = [])) ∨
    (m.signals e = [.drain m.session.now e.isSilence] ∧
      (e = .silence ∧ m.session.debounce?.any (· ≤ m.session.now) = true ∨
        e = .endInterruption true) ∧
      (m.next e).session.now = m.session.now ∧ (m.next e).session.debounce? = none ∧
      (m.next e).session.pending = []) := by
  have hbefore : (m.session.beforeMarks e).history = m.session.history ∧
      (m.session.beforeMarks e).debounce? = m.session.debounce? ∧
      (m.session.beforeMarks e).pending = m.session.pending := by
    cases e <;> exact ⟨rfl, rfl, rfl⟩
  obtain ⟨hdrain, hwhy⟩ | rfl | ⟨uris, hmarked⟩ := m.session.after_cases e
  · right
    have hnext : (m.next e).session = m.session.drain := hdrain
    obtain ⟨hnow, hdebounce, hpending, hhistory⟩ := m.session.drain_endsWait
    rw [← hnext] at hnow hdebounce hpending hhistory
    have hsignals := signals_eq hc (hhistory.trans List.singleton_append.symm)
    exact ⟨hsignals, hwhy, hnow, hdebounce, hpending⟩
  · rw [isShutDown_next_shutDown] at hlive
    cases hlive
  · left
    obtain ⟨hhistory, hdebounce, hpending⟩ := hbefore
    have hnow : (m.next e).session.now = (m.session.beforeMarks e).now := hmarked.now
    have hsettings : (m.next e).session.settings = (m.session.beforeMarks e).settings :=
      hmarked.settings
    refine ⟨uris.length, ?_, ?_, ?_⟩
    · have hlog := hmarked.history
      rw [hhistory, ← hnow] at hlog
      rw [signals_eq hc hlog, List.filterMap_map]
      simp [Function.comp_def, Signal.ofFact?, List.map_const']
    · rw [hnow, hsettings, ← hdebounce]
      simp only [List.length_eq_zero_iff]
      exact hmarked.debounce?
    · rw [← hpending]
      exact fun hcount => hmarked.pending (List.length_eq_zero_iff.mp hcount)

/-- When a wait is over and is woken, the files that wait are taken. -/
theorem signals_silence (hc : m.session.Coherent) (hdebounce : m.session.debounce? = some deadline)
    (hle : deadline ≤ m.session.now) :
    m.signals .silence = [.drain m.session.now true] ∧ (m.next .silence).session.pending = [] := by
  have hdue : m.session.debounce?.any (· ≤ m.session.now) = true := by simpa [hdebounce] using hle
  have hnext : (m.next .silence).session = m.session.drain := if_pos hdue
  obtain ⟨-, -, hpending, hhistory⟩ := m.session.drain_endsWait
  rw [← hnext] at hpending hhistory
  exact ⟨signals_eq hc (hhistory.trans List.singleton_append.symm), hpending⟩

-- ---------------------------------------------------------------------------
-- Courses of events
-- ---------------------------------------------------------------------------

/-- The wait after a course of events is the one that its last signal tells of. -/
theorem debounce?_foldl (hc : m.session.Coherent)
    (hlive : (events.foldl next m).session.isShutDown = false) :
    (events.foldl next m).session.debounce? =
      (m.signalsOf events).getLast?.elim m.session.debounce? Signal.deadline? := by
  induction events generalizing m with
  | nil => rfl
  | cons e events ih =>
    rw [List.foldl_cons, ih (hc.after e) hlive, signalsOf, List.getLast?_append]
    cases hlast : ((m.next e).signalsOf events).getLast? with
    | some signal => rfl
    | none =>
      have hlive' := live_of_foldl (m := m.next e) (hc.after e) hlive
      obtain ⟨count, hsignals, hdebounce, -⟩ | ⟨hsignals, -, -, hdebounce, -⟩ :=
        signals_cases hc hlive'
      · rw [hsignals, List.getLast?_replicate, Option.none_or, Option.elim_none, hdebounce]
        split <;> rfl
      · rw [hsignals, Option.elim_none, hdebounce]
        rfl

theorem now_eq_beforeMarks (hlive : (m.next e).session.isShutDown = false) :
    (m.next e).session.now = (m.session.beforeMarks e).now := by
  obtain ⟨hdrain, hwhy⟩ | rfl | ⟨uris, hmarked⟩ := m.session.after_cases e
  · have hnext : (m.next e).session = m.session.drain := hdrain
    rw [hnext, m.session.drain_endsWait.1]
    obtain ⟨rfl, -⟩ | rfl := hwhy <;> rfl
  · rw [isShutDown_next_shutDown] at hlive
    cases hlive
  · exact hmarked.now

/-- Time does not go back. -/
theorem now_le_next (hlive : (m.next e).session.isShutDown = false) :
    m.session.now ≤ (m.next e).session.now := by
  rw [now_eq_beforeMarks hlive]
  cases e with
  | clock time => exact Nat.le_max_left _ _
  | _ => exact Nat.le_refl _

/-- On time, the clock does not pass the end of a wait. -/
theorem now_next_le (hlive : (m.next e).session.isShutDown = false) (htime : m.isOnTime e = true)
    (hdebounce : m.session.debounce? = some deadline) (hle : m.session.now ≤ deadline) :
    (m.next e).session.now ≤ deadline := by
  rw [now_eq_beforeMarks hlive]
  cases e with
  | clock time =>
    have htime' : time ≤ deadline := by simpa [isOnTime, hdebounce] using htime
    exact Nat.max_le.mpr ⟨hle, htime'⟩
  | _ => exact hle

/-- Every mark to come is made now or later. -/
theorem now_le_of_mark (hc : m.session.Coherent)
    (hlive : (events.foldl next m).session.isShutDown = false)
    (hmark : (time, window) ∈ (m.signalsOf events).filterMap Signal.mark?) :
    m.session.now ≤ time := by
  induction events generalizing m with
  | nil => simp [signalsOf] at hmark
  | cons e events ih =>
    have hlive' := live_of_foldl (m := m.next e) (hc.after e) hlive
    have hnow := now_le_next hlive'
    rw [signalsOf, List.filterMap_append, List.mem_append] at hmark
    obtain hmark | hmark := hmark
    · obtain ⟨count, hsignals, -⟩ | ⟨hsignals, -⟩ := signals_cases hc hlive'
      · simp only [hsignals, List.filterMap_replicate, Signal.mark?, List.mem_replicate,
          Prod.mk.injEq] at hmark
        exact hmark.2.1 ▸ hnow
      · simp [hsignals, Signal.mark?] at hmark
    · exact Nat.le_trans hnow (ih (hc.after e) hlive hmark)

/-- When the files that wait are taken because the wait is over, then it is: the signal before is
the mark that has begun it, if there is any before. -/
theorem silence_foldl (hc : m.session.Coherent)
    (hlive : (events.foldl next m).session.isShutDown = false) {earlier later : List Signal}
    (hdrain : m.signalsOf events = earlier ++ .drain time true :: later) :
    ∃ deadline, earlier.getLast?.elim m.session.debounce? Signal.deadline? = some deadline ∧
      deadline ≤ time := by
  induction events generalizing m earlier with
  | nil => simp [signalsOf] at hdrain
  | cons e events ih =>
    have hlive' := live_of_foldl (m := m.next e) (hc.after e) hlive
    rw [signalsOf] at hdrain
    obtain ⟨count, hsignals, hdebounce, -⟩ | ⟨hsignals, hwhy, -, hdebounce, -⟩ :=
      signals_cases hc hlive'
    · rw [hsignals] at hdrain
      obtain ⟨between, rfl, hrest⟩ := Signal.drain_behind_marks hdrain
      obtain ⟨deadline, hdeadline, hle⟩ := ih (hc.after e) hlive hrest
      refine ⟨deadline, ?_, hle⟩
      rw [← hdeadline, hdebounce, List.getLast?_append, List.getLast?_replicate]
      cases between.getLast? with
      | some signal => rfl
      | none => by_cases hcount : count = 0 <;> simp [hcount, Signal.deadline?]
    · rw [hsignals] at hdrain
      cases earlier with
      | nil =>
        obtain ⟨htime, htimer⟩ := Signal.drain.inj (List.cons.inj hdrain).1
        obtain ⟨rfl, hdue⟩ | rfl := hwhy
        · obtain ⟨deadline, hdeadline, hle⟩ := (Option.any_eq_true _ _).mp hdue
          exact ⟨deadline, hdeadline, htime ▸ by simpa using hle⟩
        · cases htimer
      | cons signal earlier =>
        obtain ⟨rfl, hrest⟩ := List.cons.inj hdrain
        obtain ⟨deadline, hdeadline, hle⟩ := ih (hc.after e) hlive hrest
        refine ⟨deadline, ?_, hle⟩
        rw [← hdeadline, hdebounce, List.getLast?_cons]
        cases earlier.getLast? <;> rfl

-- ---------------------------------------------------------------------------
-- Bursts
-- ---------------------------------------------------------------------------

/-- Each mark but the first is made before the wait is over that the one before has begun. -/
def AreClose (marks : List (Nat × Nat)) : Prop := marks.IsChain fun a b => b.1 < a.1 + a.2

/-- What follows some equal marks is close to the last of them. -/
theorem AreClose.behind {first mark : Nat × Nat} {marks : List (Nat × Nat)} {count : Nat}
    (h : AreClose (first :: (List.replicate count mark ++ marks))) :
    AreClose ((if count = 0 then first else mark) :: marks) := by
  cases count with
  | zero => exact h
  | succ count =>
    rw [List.replicate_succ', List.append_assoc] at h
    exact List.IsChain.right_of_append (List.IsChain.tail h)

/-- Nothing more happens to a wait that is over, unless a file is marked or an interruption ends. -/
theorem signalsOf_eq_nil (hc : m.session.Coherent)
    (hlive : (events.foldl next m).session.isShutDown = false)
    (hends : ∀ e ∈ events, e ≠ .endInterruption true) (hnone : m.session.debounce? = none)
    (hpending : m.session.pending = [])
    (hmarks : (m.signalsOf events).filterMap Signal.mark? = []) :
    m.signalsOf events = [] ∧ (events.foldl next m).session.pending = [] ∧
      (events.foldl next m).session.debounce? = none := by
  induction events generalizing m with
  | nil => exact ⟨rfl, hpending, hnone⟩
  | cons e events ih =>
    obtain ⟨hend, hends⟩ := List.forall_mem_cons.mp hends
    have hlive' := live_of_foldl (m := m.next e) (hc.after e) hlive
    rw [signalsOf, List.filterMap_append, List.append_eq_nil_iff] at hmarks
    obtain ⟨count, hsignals, hdebounce, hstill⟩ | ⟨-, ⟨-, hdue⟩ | hwhy, -⟩ := signals_cases hc hlive'
    · have hcount : count = 0 := by simpa [hsignals, Signal.mark?] using hmarks.1
      rw [if_pos hcount, hnone] at hdebounce
      obtain ⟨hrest, hover⟩ :=
        ih (hc.after e) hlive hends hdebounce (hstill hcount hpending) hmarks.2
      exact ⟨by rw [signalsOf, hsignals, hcount, hrest]; rfl, hover⟩
    · simp [hnone] at hdue
    · exact absurd hwhy hend

/-- After a first mark come these signals, up to the session `after`. Either they are marks, and there
is still a wait, or the files that wait were taken once, behind the last mark and when the wait that
it had begun was over. On time they are taken right then. -/
def IsBurst (first : Nat × Nat) (onTime : Prop) (signals : List Signal) (after : Session) : Prop :=
  let marks := signals.filterMap Signal.mark?
  let (time, window) := marks.getLastD first
  (signals = marks.map Signal.ofMark ∧ after.debounce? = some (time + window) ∧
    (onTime → after.now ≤ time + window)) ∨
  ∃ silence, signals = marks.map Signal.ofMark ++ [.drain silence true] ∧ time + window ≤ silence ∧
    (onTime → silence = time + window) ∧ after.pending = [] ∧ after.debounce? = none

theorem isBurst_nil {first : Nat × Nat} {onTime : Prop} {after : Session}
    (hwaits : after.debounce? = some (first.1 + first.2))
    (honTime : onTime → after.now ≤ first.1 + first.2) : IsBurst first onTime [] after :=
  .inl ⟨rfl, hwaits, honTime⟩

/-- A burst can have further marks in front. -/
theorem IsBurst.behind (first mark : Nat × Nat) (count : Nat) {last : Nat × Nat}
    {onTime onTime' : Prop} {signals : List Signal} {after : Session}
    (h : IsBurst last onTime' signals after) (hlast : (if count = 0 then first else mark) = last)
    (honTime : onTime → onTime') :
    IsBurst first onTime (List.replicate count (Signal.ofMark mark) ++ signals) after := by
  have hmarks : (List.replicate count (Signal.ofMark mark) ++ signals).filterMap Signal.mark? =
      List.replicate count mark ++ signals.filterMap Signal.mark? := by
    rw [List.filterMap_append, List.filterMap_replicate]
    rfl
  have hbehind : (List.replicate count mark ++ signals.filterMap Signal.mark?).getLastD first =
      (signals.filterMap Signal.mark?).getLastD last := by
    rw [← hlast, List.getLastD_eq_getLast?, List.getLastD_eq_getLast?, List.getLast?_append,
      List.getLast?_replicate]
    cases (signals.filterMap Signal.mark?).getLast? with
    | some last => rfl
    | none => split <;> rfl
  unfold IsBurst
  dsimp only
  rw [hmarks, hbehind, List.map_append, List.map_replicate]
  obtain ⟨hrest, hafter, htime⟩ | ⟨silence, hrest, hle, htime, hdone⟩ := h
  · exact .inl ⟨by rw [← hrest], hafter, htime ∘ honTime⟩
  · exact .inr ⟨silence, by rw [List.append_assoc, ← hrest], hle, htime ∘ honTime, hdone⟩

/-- A burst ends with the first drain, and no mark comes close behind it. -/
theorem isBurst_of_silence (hc : m.session.Coherent)
    (hlive : (events.foldl next m).session.isShutDown = false)
    (hends : ∀ e ∈ events, e ≠ .endInterruption true) (hnone : m.session.debounce? = none)
    (hpending : m.session.pending = []) {first : Nat × Nat} {onTime : Prop}
    (hover : first.1 + first.2 ≤ m.session.now)
    (honTime : onTime → m.session.now ≤ first.1 + first.2)
    (hclose : AreClose (first :: (m.signalsOf events).filterMap Signal.mark?)) :
    IsBurst first onTime (.drain m.session.now true :: m.signalsOf events)
      (events.foldl next m).session := by
  have hnomarks : (m.signalsOf events).filterMap Signal.mark? = [] := by
    cases hmarks : (m.signalsOf events).filterMap Signal.mark? with
    | nil => rfl
    | cons mark marks =>
      have hlate : m.session.now ≤ mark.1 :=
        now_le_of_mark hc hlive (by rw [hmarks]; exact List.mem_cons_self)
      have hearly : mark.1 < first.1 + first.2 := by
        rw [hmarks] at hclose
        exact (List.isChain_cons.mp hclose).1 mark rfl
      omega
  obtain ⟨hrest, hpending', hnone'⟩ := signalsOf_eq_nil hc hlive hends hnone hpending hnomarks
  rw [hrest]
  exact .inr ⟨m.session.now, rfl, hover, fun h => Nat.le_antisymm (honTime h) hover, hpending',
    hnone'⟩

/-- While marks are close to each other and no interruption ends, the files that wait are taken once
at most. -/
theorem isBurst_foldl (hc : m.session.Coherent)
    (hlive : (events.foldl next m).session.isShutDown = false)
    (hends : ∀ e ∈ events, e ≠ .endInterruption true) {first : Nat × Nat}
    (hwaits : m.session.debounce? = some (first.1 + first.2))
    (hclose : AreClose (first :: (m.signalsOf events).filterMap Signal.mark?)) :
    IsBurst first (m.areOnTime events = true ∧ m.session.now ≤ first.1 + first.2)
      (m.signalsOf events) (events.foldl next m).session := by
  induction events generalizing m first with
  | nil => exact isBurst_nil hwaits And.right
  | cons e events ih =>
    obtain ⟨hend, hends'⟩ := List.forall_mem_cons.mp hends
    have hlive' := live_of_foldl (m := m.next e) (hc.after e) hlive
    rw [signalsOf, List.filterMap_append] at hclose
    rw [signalsOf]
    obtain ⟨count, hsignals, hdebounce, -⟩ | ⟨hsignals, ⟨rfl, hdue⟩ | hwhy, hnow, hnone, hpending⟩ :=
      signals_cases hc hlive'
    · -- the burst goes on behind the last of these marks
      let mark := ((m.next e).session.now, (m.next e).session.settings.debounce)
      have hwaits' : (m.next e).session.debounce? =
          some ((if count = 0 then first else mark).1 + (if count = 0 then first else mark).2) := by
        rw [hdebounce, hwaits]
        split <;> rfl
      rw [hsignals, List.filterMap_replicate] at hclose
      rw [show m.signals e = List.replicate count (Signal.ofMark mark) from hsignals]
      refine .behind first mark count (ih (hc.after e) hlive hends' hwaits' hclose.behind) rfl ?_
      rintro ⟨htimes, hle⟩
      rw [areOnTime, Bool.and_eq_true] at htimes
      refine ⟨htimes.2, ?_⟩
      split
      · exact now_next_le hlive' htimes.1 hwaits hle
      · exact Nat.le_add_right _ _
    · have hover : first.1 + first.2 ≤ m.session.now := by simpa [hwaits] using hdue
      rw [hsignals] at hclose ⊢
      rw [← hnow] at hover ⊢
      exact isBurst_of_silence (m := m.next .silence) (hc.after .silence) hlive hends' hnone hpending
        hover (fun honTime => hnow ▸ honTime.2) hclose
    · exact absurd hwhy hend

/-- A burst begins with the first of its marks. -/
theorem isBurst_signalsOf (hc : m.session.Coherent)
    (hlive : (events.foldl next m).session.isShutDown = false)
    (hends : ∀ e ∈ events, e ≠ .endInterruption true) {first : Nat × Nat} {rest : List Signal}
    (hfirst : m.signalsOf events = Signal.ofMark first :: rest)
    (hclose : AreClose (first :: rest.filterMap Signal.mark?)) :
    IsBurst first (m.areOnTime events = true) rest (events.foldl next m).session := by
  induction events generalizing m with
  | nil => cases hfirst
  | cons e events ih =>
    obtain ⟨hend, hends'⟩ := List.forall_mem_cons.mp hends
    have hlive' := live_of_foldl (m := m.next e) (hc.after e) hlive
    have honTime : m.areOnTime (e :: events) = true → (m.next e).areOnTime events = true :=
      fun h => (Bool.and_eq_true _ _ ▸ h).2
    rw [signalsOf] at hfirst
    obtain ⟨count, hsignals, hdebounce, -⟩ | ⟨hsignals, -⟩ := signals_cases hc hlive'
    · rw [hsignals] at hfirst
      cases count with
      | zero =>
        obtain hburst | ⟨silence, hburst⟩ := ih (m := m.next e) (hc.after e) hlive hends' hfirst
        · exact .inl ⟨hburst.1, hburst.2.1, hburst.2.2 ∘ honTime⟩
        · exact .inr ⟨silence, hburst.1, hburst.2.1, hburst.2.2.1 ∘ honTime, hburst.2.2.2⟩
      | succ count =>
        -- the further marks of this event are like the first one
        rw [List.replicate_succ, List.cons_append] at hfirst
        obtain ⟨hmark, rfl⟩ := List.cons.inj hfirst
        obtain ⟨hnow, hwindow⟩ := Signal.mark.inj hmark
        rw [hmark, List.filterMap_append, List.filterMap_replicate] at hclose
        rw [if_neg (Nat.succ_ne_zero count), hnow, hwindow] at hdebounce
        have hclose' := AreClose.behind hclose
        rw [ite_self] at hclose'
        have hburst := isBurst_foldl (m := m.next e) (hc.after e) hlive hends' hdebounce hclose'
        rw [hmark]
        refine .behind first first count hburst (ite_self _) fun h => ⟨honTime h, ?_⟩
        rw [hnow]
        exact Nat.le_add_right _ _
    · rw [hsignals] at hfirst
      cases (List.cons.inj hfirst).1

-- ---------------------------------------------------------------------------
-- Sessions
-- ---------------------------------------------------------------------------

/-- The wait for silence in every session that is not shut down. It lasts as the latest mark says,
unless the files that wait were taken since, so that there is a wait if files wait. When the files
are taken because the wait is over, then a mark had begun it that no other mark or drain has
followed, and its window has passed; and they are taken if someone looks then. Marks that are close
to each other, with no interruption that ends, lead to one such drain: afterwards no file waits, and
before there is still a wait that, on time, is not over. -/
theorem waits_since_latestMark (sourceDirs : List FileUri) (settings : Settings)
    (events : List Event)
    (hlive : (events.foldl next (initial sourceDirs settings)).session.isShutDown = false) :
    let s := (events.foldl next (initial sourceDirs settings)).session
    let signals := (initial sourceDirs settings).signalsOf events
    s.debounce? = signals.getLast?.bind Signal.deadline? ∧
    (s.pending ≠ [] → ∃ time window, signals.getLast? = some (.mark time window) ∧
      s.debounce? = some (time + window)) ∧
    (∀ earlier later silence, signals = earlier ++ .drain silence true :: later →
      ∃ time window, earlier.getLast? = some (.mark time window) ∧ time + window ≤ silence) ∧
    (∀ deadline, s.debounce? = some deadline → deadline ≤ s.now →
      let m := events.foldl next (initial sourceDirs settings)
      m.signals .silence = [.drain s.now true] ∧ (m.next .silence).session.pending = []) ∧
    ∀ before burst, events = before ++ burst → (∀ e ∈ burst, e ≠ .endInterruption true) →
      let m := before.foldl next (initial sourceDirs settings)
      ∀ first rest, m.signalsOf burst = Signal.ofMark first :: rest →
        AreClose (first :: rest.filterMap Signal.mark?) →
        IsBurst first (m.areOnTime burst = true) rest s := by
  intro s signals
  have hc : (initial sourceDirs settings).session.Coherent :=
    Session.coherent_initial sourceDirs settings
  have hdebounce : s.debounce? = signals.getLast?.bind Signal.deadline? := by
    rw [debounce?_foldl hc hlive]
    cases signals.getLast? <;> rfl
  refine ⟨hdebounce, fun hpending => ?_, fun earlier later silence hdrain => ?_,
    fun _ => signals_silence (coherent_foldl hc events), ?_⟩
  · have hwaits := (coherent_foldl hc events).pending hpending
    obtain ⟨deadline, hdeadline⟩ := Option.isSome_iff_exists.mp hwaits
    obtain ⟨signal, hlast, hsignal⟩ := Option.bind_eq_some_iff.mp (hdebounce.symm.trans hdeadline)
    obtain ⟨time, window, rfl, rfl⟩ := Signal.exists_of_deadline? hsignal
    exact ⟨time, window, hlast, hdeadline⟩
  · obtain ⟨deadline, hdeadline, hle⟩ := silence_foldl hc hlive hdrain
    cases hlast : earlier.getLast? with
    | none =>
      rw [hlast] at hdeadline
      cases hdeadline
    | some signal =>
      rw [hlast, Option.elim_some] at hdeadline
      obtain ⟨time, window, rfl, rfl⟩ := Signal.exists_of_deadline? hdeadline
      exact ⟨time, window, rfl, hle⟩
  · intro before burst hevents hends m first rest hfirst hclose
    have hend : events.foldl next (initial sourceDirs settings) = burst.foldl next m := by
      rw [hevents, List.foldl_append]
    rw [hend] at hlive
    change IsBurst _ _ _ (events.foldl next _).session
    rw [hend]
    exact isBurst_signalsOf (coherent_foldl hc before) hlive hends hfirst hclose

/-- A file is changed twice before the editor is silent. -/
def twoKeystrokes : List Event :=
  [.setFile ⟨"file:///Main.elm"⟩ "module Main exposing (f)\n\nimport List\n\nf =\n    1\n" true,
   .changeDocument ⟨"file:///Main.elm"⟩, .clock 150, .changeDocument ⟨"file:///Main.elm"⟩,
   .clock 350, .silence, .clock 400]

theorem waits_since_latestMark_twoKeystrokes :
    let m := initial [] .standard
    m.signalsOf twoKeystrokes = [.mark 0 200, .mark 150 200, .drain 350 true] ∧
      IsBurst (0, 200) (m.areOnTime twoKeystrokes = true) [.mark 150 200, .drain 350 true]
        (twoKeystrokes.foldl next m).session := by
  have hsignals : (initial [] .standard).signalsOf twoKeystrokes =
      [.mark 0 200, .mark 150 200, .drain 350 true] := by decide +kernel
  have hburst := (waits_since_latestMark [] .standard twoKeystrokes (by decide +kernel)).2.2.2.2 []
    twoKeystrokes rfl (by simp [twoKeystrokes]) (0, 200) _ hsignals
  have hclose : AreClose [(0, 200), (150, 200)] := .cons_cons (by decide) (.singleton _)
  exact ⟨hsignals, hburst hclose⟩

end Moment

end ElmLint

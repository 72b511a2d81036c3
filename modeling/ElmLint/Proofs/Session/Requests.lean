import ElmLint.Proofs.Session.Journey
import ElmLint.Proofs.Session.Publication
import ElmLint.Proofs.Session.Supersession

/-!
# What the outcome of a request tells

Whoever asks for a run is told how it ended. A run that has completed has left all its files behind,
and nothing was announced to have changed as long as it handed over findings. What another run has
left is in flight when the end is told, for its successor or for whoever comes next to take over.
-/

namespace ElmLint

namespace Session

open History (changes changesAtStart? passed stops)

variable {s s' : Session} {uri : FileUri} {n m : Nat} {r r' : Run Walk} {facts : List Fact}

-- ---------------------------------------------------------------------------
-- Which events start runs
-- ---------------------------------------------------------------------------

/-- No run has started. -/
def NoStart (s s' : Session) : Prop := s'.scheduler.started = s.scheduler.started

theorem Undisturbed.noStart (h : Undisturbed s s') : NoStart s s' := by
  rw [NoStart, h.scheduler]

namespace NoStart

theorem proceed (s : Session) (n : Nat) (walk : Walk) (next : Option Continuation) :
    NoStart s (s.proceed n walk next) := by
  change (s.scheduler.proceed n s.now walk next).started = _
  cases hw : s.scheduler.working? n with
  | none => simp [Scheduler.proceed, hw]
  | some r => exact Scheduler.started_proceed hw ..

theorem cancelRun (s : Session) (n : Nat) (canceller : Canceller) :
    NoStart s (s.cancelRun n canceller) :=
  Scheduler.started_cancel ..

theorem step (s : Session) (n : Nat) (walk : Walk) : NoStart s (s.step n walk) := by
  unfold Session.step
  split
  · exact proceed ..
  · split
    · exact proceed (s.record _) ..
    · exact rfl
    · split
      · exact (proceed ..).trans (cancelRun s n .change)
      · exact (proceed ..).trans (undisturbed_handOver ..).noStart

theorem turn (s : Session) (n : Nat) : NoStart s (s.turn n) := by
  have hbegin : (s.scheduler.begin n s.now).1.started = s.scheduler.started := by
    unfold Scheduler.begin
    split
    · split
      · split <;> simp
      · rfl
    · rfl
  unfold Session.turn
  split
  · rename_i scheduler walk hb
    rw [hb] at hbegin
    exact (step ..).trans hbegin
  · rename_i scheduler hb
    rw [hb] at hbegin
    exact hbegin

theorem heedCancellation (s : Session) (n : Nat) : NoStart s (s.heedCancellation n) := by
  unfold Session.heedCancellation
  split
  · split
    · exact proceed ..
    · exact rfl
  · exact rfl

theorem abandon (s : Session) (n : Nat) (walk : Walk) : NoStart s (s.abandon n walk) :=
  (proceed ..).trans (cancelRun s n .change)

theorem typesHeard (s : Session) (n : Nat) (walk : Walk) (uri : FileUri) (answer : TypesAnswer) :
    NoStart s (s.typesHeard n walk uri answer) := by
  unfold Session.typesHeard
  split
  · exact Scheduler.started_finish ..
  · split
    · exact abandon ..
    · unfold typesFound
      dsimp only
      split
      · exact (abandon ..).trans (undisturbed_handOver ..).noStart
      · exact (proceed ..).trans (undisturbed_handOver ..).noStart
  · split
    · exact abandon ..
    · unfold typesFailed
      split
      · exact proceed ..
      · exact proceed (s.record _) ..

theorem typesAnswered (s : Session) (n : Nat) (answer : TypesAnswer) :
    NoStart s (s.typesAnswered n answer) := by
  unfold Session.typesAnswered
  split
  · exact rfl
  · split
    · exact heedCancellation ..
    · split
      · unfold typesCome
        split
        · exact (typesHeard ..).trans (cancelRun s n .producer)
        · exact typesHeard ..
      · exact rfl

theorem configure (s : Session) (settings : Settings) : NoStart s (s.configure settings) := by
  unfold Session.configure
  dsimp only
  split
  · exact (undisturbed_replace ..).noStart
  · split
    · refine (undisturbed_foldl _ (fun s uri => ?_) _ _).noStart
      split
      · exact undisturbed_publish ..
      · exact .refl s
    · exact rfl

theorem shutDown (s : Session) : NoStart s s.shutDown := by
  cases hs : s.isShutDown with
  | true => rw [shutDown_again hs]; rfl
  | false =>
    rw [NoStart, shutDown_eq hs]
    exact Scheduler.started_stop _

end NoStart

/-- A run has started that takes over all that was in flight. -/
def TakesOver (s s' : Session) : Prop :=
  ∃ t files pause isOnDemand canceller?, Launched t s' files pause isOnDemand canceller? ∧
    t.scheduler = s.scheduler ∧ ∀ uri ∈ s.inFlight, uri ∈ files

/-- An event starts no run, or it starts one that takes over all that is in flight. -/
theorem Coherent.noStart_or_takesOver (hc : s.Coherent) (e : Event) :
    NoStart s (s.after e) ∨ TakesOver s (s.after e) := by
  have hdrain : NoStart s s.drain ∨ TakesOver s s.drain := by
    obtain ⟨-, -, heq⟩ | ⟨-, hl⟩ := hc.drain_cases
    · left
      rw [heq]
      rfl
    · refine .inr ⟨_, _, _, _, _, hl, rfl, fun uri huri => ?_⟩
      simp [huri]
  cases e with
  | setFile | removeFile | showFile | hideFile | react | clock => exact .inl rfl
  | openDocument uri =>
    left
    change NoStart s (s.openDocument uri)
    unfold openDocument
    split <;> rfl
  | saveDocument uri =>
    left
    change NoStart s (s.saveDocument uri)
    unfold saveDocument
    split <;> rfl
  | changeDocument uri => exact .inl (undisturbed_change s uri).noStart
  | deleteDocument uri =>
    left
    change NoStart s (s.delete uri)
    unfold delete
    split
    · rfl
    · exact (undisturbed_send (s.forget uri) uri).noStart
  | configure settings => exact .inl (.configure s settings)
  | request files pause cancelled =>
    change NoStart s (s.request files pause cancelled) ∨ TakesOver s (s.request files pause cancelled)
    unfold Session.request
    split
    · exact .inl rfl
    · rename_i hheard
      have hfiles : files ≠ [] := by
        rintro rfl
        simp at hheard
      have hl := hc.request_launched hfiles pause (if cancelled then some .caller else none)
      refine .inr ⟨_, _, _, _, _, hl, rfl, fun uri huri => ?_⟩
      simp [huri]
  | cancelRequest run =>
    left
    change NoStart s (s.cancelRequest run)
    unfold cancelRequest
    split
    · exact .cancelRun ..
    · rfl
  | beginInterruption =>
    left
    obtain heq | ⟨-, i, r, -, hh⟩ := hc.beginInterruption_cases
    · exact congrArg (·.scheduler.started) heq
    · exact hh.started
  | endInterruption hasCancelled =>
    cases hasCancelled with
    | true => exact hdrain
    | false => exact .inl rfl
  | shutDown => exact .inl (.shutDown s)
  | silence =>
    change NoStart s s.silence ∨ TakesOver s s.silence
    unfold silence
    split
    · exact hdrain
    · exact .inl rfl
  | turn run => exact .inl (.turn s run)
  | heedCancellation run => exact .inl (.heedCancellation s run)
  | typesAnswered run answer => exact .inl (.typesAnswered s run answer)
  | buildAnswered number answer =>
    left
    change NoStart s (s.buildAnswered number answer)
    unfold buildAnswered
    split
    · split
      · exact (undisturbed_replace ..).noStart
      · rfl
    · rfl

-- ---------------------------------------------------------------------------
-- What becomes of runs
-- ---------------------------------------------------------------------------

/-- What a run can become: it keeps its files and the number of changes at its start, does not go
back, and completes only when it has left all of its files behind. -/
structure Becomes (r r' : Run Walk) : Prop where
  files : r'.action.files = r.action.files
  sequence : r'.action.sequence = r.action.sequence
  hasMore : r.action.hasMore = false → r'.action.hasMore = false
  completed : r'.outcome? = some .completed →
    r.outcome? = some .completed ∨ r'.action.hasMore = false

theorem Becomes.refl (r : Run Walk) : Becomes r r := ⟨rfl, rfl, id, .inl⟩

theorem Becomes.trans {r'' : Run Walk} (h : Becomes r r') (h' : Becomes r' r'') : Becomes r r'' where
  files := h'.files.trans h.files
  sequence := h'.sequence.trans h.sequence
  hasMore := h'.hasMore ∘ h.hasMore
  completed hcompleted := by
    obtain hbefore | hdone := h'.completed hcompleted
    · exact (h.completed hbefore).imp_right h'.hasMore
    · exact .inr hdone

theorem becomes_ended (r : Run Walk) {outcome : Outcome} (hne : outcome ≠ .completed) :
    Becomes r (r.ended outcome) := by
  refine ⟨rfl, rfl, id, fun h => .inl ?_⟩
  obtain hbefore | ⟨-, hnow⟩ := Option.or_eq_some_iff.mp h
  · exact hbefore
  · exact absurd (Option.some.inj hnow) hne

theorem becomes_retired (s : Session) (n : Nat) (r : Run Walk) : Becomes r (s.retired n r) := by
  have hcancelled : Becomes r { r with cancelled := r.cancelled || s.inFlight?.any (·.run = n) } :=
    ⟨rfl, rfl, id, .inl⟩
  unfold retired
  split
  · exact hcancelled.trans (becomes_ended _ (by decide))
  · exact hcancelled

/-- Every run is still there, as what it can have become. -/
def RunsGoOn (s s' : Session) : Prop :=
  ∀ n r, s.scheduler.run? n = some r → ∃ r', s'.scheduler.run? n = some r' ∧ Becomes r r'

namespace RunsGoOn

theorem refl (s : Session) : RunsGoOn s s := fun _ r hr => ⟨r, hr, .refl r⟩

theorem trans {t : Session} (h : RunsGoOn s t) (h' : RunsGoOn t s') : RunsGoOn s s' := by
  intro n r hr
  obtain ⟨q, hq, hbecomes⟩ := h n r hr
  obtain ⟨r', hr', hbecomes'⟩ := h' n q hq
  exact ⟨r', hr', hbecomes.trans hbecomes'⟩

theorem still (hscheduler : s'.scheduler = s.scheduler) : RunsGoOn s s' := by
  rw [RunsGoOn, hscheduler]
  exact refl s

theorem handled (hh : Handled s s' n r r' facts) (hbecomes : Becomes r r') : RunsGoOn s s' := by
  intro m q hq
  rw [hh.run?]
  split
  · rename_i he
    rw [he, hh.was, Option.some.injEq] at hq
    exact ⟨r', rfl, hq ▸ hbecomes⟩
  · exact ⟨q, hq, .refl q⟩

/-- A run goes on behind a file, unless there is no other file. -/
theorem passed {fact : Fact} (hp : Passed s s' n r r' uri fact) : RunsGoOn s s' := by
  intro m q hq
  have hr' : s'.scheduler.run? n = some r' := by rw [hp.run?, if_pos rfl]
  rw [hp.run?]
  split
  · rename_i he
    rw [he, hp.was, Option.some.injEq] at hq
    subst hq
    refine ⟨r', rfl, by rw [hp.action]; rfl, by rw [hp.action]; rfl, fun hdone => ?_,
      fun hcompleted => .inr ?_⟩
    · simp only [hp.action, Walk.hasMore, Walk.next, decide_eq_false_iff_not] at hdone ⊢
      omega
    · rw [hp.action, ← hp.isActive]
      cases hactive : r'.isActive with
      | false => rfl
      | true =>
        rw [(hp.valid.reported hr').mpr hactive] at hcompleted
        cases hcompleted
  · exact ⟨q, hq, .refl q⟩

theorem launched (hv : s.scheduler.Valid) {files : List FileUri} {pause : Nat} {isOnDemand : Bool}
    {canceller? : Option Canceller} (hl : Launched s s' files pause isOnDemand canceller?) :
    RunsGoOn s s' := by
  intro m q hq
  have hm := hv.numbered hq
  rw [hl.old m (by omega), hq]
  exact ⟨_, rfl, becomes_retired s m q⟩

theorem move (hc : s.Coherent) (hm : Move awake s s') : RunsGoOn s s' := by
  cases hm with
  | tell | askTypes | askBuild | store | handOver | mark => exact still rfl
  | change _ uri => exact still (undisturbed_change s uri).scheduler
  | drain =>
    obtain ⟨-, -, heq⟩ | ⟨-, hl⟩ := hc.drain_cases
    · rw [heq]
      exact still rfl
    · exact launched (s := s.takeMarked) hc.valid hl
  | request _ hf pause cancelled => exact launched hc.valid (hc.request_launched hf pause _)
  | cancel hr _ => exact handled (handled_cancelRun hr _) ⟨rfl, rfl, id, .inl⟩
  | begin _ hr hd _ => exact handled (handled_begin hr hd) ⟨rfl, rfl, id, .inl⟩
  | heed _ hr _ _ => exact handled (handled_finish hr .cancelled) (becomes_ended _ (by decide))
  | crash _ hw =>
    exact handled (handled_finish (Scheduler.working?_eq_some.mp hw).1 .failed)
      (becomes_ended _ (by decide))
  | yield _ hw _ => exact handled (handled_yield hw) ⟨rfl, rfl, id, .inl⟩
  | abandon _ hw _ => exact handled (handled_abandon hw) ⟨rfl, rfl, id, .inl⟩
  | proceedToLint _ hw _ => exact handled (handled_proceedToLint hw) ⟨rfl, rfl, id, .inl⟩
  | proceedToNext _ hw hf _ _ =>
    obtain ⟨r', hp⟩ := passed_proceedToNext hc.valid hw hf
    exact passed hp
  | skip _ hw hf _ =>
    obtain ⟨r', hp⟩ := passed_skip hc.valid hw hf
    exact passed hp
  | complete _ hw hf => exact absurd hf (hc.file?_ne_none hw)

theorem moves (hc : s.Coherent) (hm : Moves awake s s') : RunsGoOn s s' := by
  induction hm with
  | refl => exact refl s
  | tail hm' hm ih => exact ih.trans (move (hc.moves hm') hm)

theorem shutDown (s : Session) : RunsGoOn s s.shutDown := by
  cases hs : s.isShutDown with
  | true =>
    rw [shutDown_again hs]
    exact refl s
  | false =>
    intro n r hr
    have hcancelled : Becomes r { r with cancelled := r.cancelled || !r.action.isOnDemand } :=
      ⟨rfl, rfl, id, .inl⟩
    rw [shutDown_eq hs, Scheduler.run?_stop, Scheduler.run?_cancelAll, hr]
    split
    · exact ⟨_, rfl, hcancelled.trans (becomes_ended _ (by decide))⟩
    · exact ⟨_, rfl, hcancelled⟩

theorem affected (hc : s.Coherent) (e : Event) : RunsGoOn s (s.affected e) := by
  cases e with
  | beginInterruption =>
    obtain heq | ⟨-, i, r, -, hh⟩ := hc.beginInterruption_cases
    · rw [Session.affected, heq]
      exact refl s
    · exact handled hh ⟨rfl, rfl, id, .inl⟩
  | shutDown => exact shutDown s
  | _ => exact still rfl

theorem after (hc : s.Coherent) (e : Event) : RunsGoOn s (s.after e) :=
  (affected hc e).trans (moves (hc.affected e) (moves_after s e))

end RunsGoOn

/-- What is in flight is what the latest run has not left behind, as long as that is something. -/
theorem Orderly.mem_inFlight (h : s.Orderly) (hc : s.Coherent) (hlive : s.isShutDown = false)
    (hr : s.scheduler.run? s.scheduler.started = some r)
    (huri : uri ∈ r.action.files.drop r.action.progress) : uri ∈ s.inFlight := by
  have hleft : r.action.progress < r.action.files.length := by
    have := List.length_pos_of_mem huri
    rw [List.length_drop] at this
    omega
  have hi := h.kept hlive r hr hleft
  rw [Session.inFlight, hi, Option.elim_some, hc.unfinished_eq hi hr]
  exact huri

/-- A latest run that has left all of its files behind is not in flight any more. -/
theorem Coherent.inFlight_eq_nil (hc : s.Coherent)
    (hr : s.scheduler.run? s.scheduler.started = some r) (hdone : r.action.hasMore = false) :
    s.inFlight = [] := by
  cases hi : s.inFlight? with
  | none => rw [Session.inFlight, hi, Option.elim_none]
  | some i =>
    obtain ⟨q, hq, hcurrent, -, hmore⟩ := hc.inFlight hi
    rw [(hc.valid.latest hcurrent).1, hr, Option.some.injEq] at hq
    rw [← hq, hdone] at hmore
    cases hmore

/-- A run that has left all of its files behind has visited each of them, in their order. -/
theorem IsJourney.visits {walk : Walk} {stops : List Fact} (h : IsJourney n walk stops)
    (hfits : walk.Fits) (hdone : walk.hasMore = false) :
    ∃ visits, stops = visits.flatten ∧ List.Forall₂ (IsVisit n) walk.files visits := by
  obtain ⟨visits, stay, rfl, hvisits, hstay⟩ := h
  have hlength : walk.files.length ≤ walk.progress := by
    rw [Walk.hasMore, hfits.index] at hdone
    simpa using hdone
  rw [List.take_of_length_le hlength] at hvisits
  obtain ⟨rfl, -⟩ | ⟨uri, count, hfile, -⟩ := hstay
  · exact ⟨visits, List.append_nil _, hvisits⟩
  · rw [Walk.file?, hfits.index, List.getElem?_eq_none hlength] at hfile
    cases hfile

end Session

namespace Moment

open Session (RunsGoOn)

variable {m : Moment} {uri : FileUri} {run time : Nat}

theorem runsGoOn_foldl (hc : m.session.Coherent) (events : List Event) :
    RunsGoOn m.session (events.foldl next m).session := by
  induction events generalizing m with
  | nil => exact .refl _
  | cons e events ih => exact (RunsGoOn.after hc e).trans (ih (m := m.next e) (hc.after e))

/-- While these events happen, the run finds that the file is gone, and it is. -/
def FindsGone (m : Moment) (events : List Event) (run : Nat) (uri : FileUri) : Prop :=
  ∃ earlier e later facts time, events = earlier ++ e :: later ∧
    let s := (earlier.foldl next m).session
    s.workspace.document? uri = none ∧ (s.after e).history = facts ++ s.history ∧
      (time, .skipped run uri) ∈ facts

/-- What is told to be found gone was found gone, now or before. -/
theorem findsGone_of_skipped (hc : m.session.Coherent) {events : List Event}
    (h : (time, .skipped run uri) ∈ (events.foldl next m).session.history) :
    (time, .skipped run uri) ∈ m.session.history ∨ m.FindsGone events run uri := by
  induction events generalizing m with
  | nil => exact .inl h
  | cons e events ih =>
    obtain hbefore | ⟨earlier, e', later, facts, time', rfl, hgone⟩ := ih (hc.after e) h
    · obtain ⟨facts, hhistory, hgone⟩ := hc.skipsGone_after e
      have hnext : (m.next e).session.history = facts ++ m.session.history := hhistory
      rw [hnext, List.mem_append] at hbefore
      obtain hnew | hold := hbefore
      · exact .inr ⟨[], e, events, facts, time, rfl, hgone _ _ _ hnew, hhistory, hnew⟩
      · exact .inl hold
    · exact .inr ⟨e :: earlier, e', later, facts, time', rfl, hgone⟩

end Moment

namespace Reachable

open History (changes passed stops)
open Session (Becomes IsVisit NoStart TakesOver)

variable {sourceDirs : List FileUri} {settings : Settings} {sort : Event → Bool} {m : Moment}
  {n : Nat} {r : Run Walk}

/-- What a run that has not ended has not left behind is in flight after the next event, whether it
has ended by then or not; and if it has completed, then nothing is in flight. -/
theorem inFlight_next (h : Reachable sourceDirs settings sort m) {e : Event}
    (hnext : Reachable sourceDirs settings sort (m.next e))
    (hlive : (m.next e).session.isShutDown = false) (hr : m.session.scheduler.run? n = some r)
    (ho : r.outcome? = none) :
    ∃ r', (m.next e).session.scheduler.run? n = some r' ∧ Becomes r r' ∧
      (∀ uri ∈ r'.action.files.drop r'.action.progress, uri ∈ (m.next e).session.inFlight) ∧
      (r'.outcome? = some .completed →
        r'.action.hasMore = false ∧ (m.next e).session.inFlight = []) := by
  have hactive := (h.coherent.valid.reported hr).mp ho
  have hcurrent := h.coherent.valid.active hr hactive
  have hlatest := (h.coherent.valid.latest hcurrent).1
  obtain hsame | ⟨t, files, pause, isOnDemand, canceller?, hl, hscheduler, hfiles⟩ :=
    h.coherent.noStart_or_takesOver e
  · -- the run is still the latest
    obtain ⟨r', hr', hbecomes⟩ := Session.RunsGoOn.after h.coherent e n r hr
    have hr'' : (m.next e).session.scheduler.run? (m.next e).session.scheduler.started = some r' := by
      rw [show (m.next e).session.scheduler.started = m.session.scheduler.started from hsame,
        ← hlatest]
      exact hr'
    have horderly := hnext.coherent.orderly hnext.recounted
    refine ⟨r', hr', hbecomes, fun uri huri => horderly.mem_inFlight hnext.coherent hlive hr'' huri,
      fun hcompleted => ?_⟩
    have hdone := (hbecomes.completed hcompleted).resolve_left (by simp [ho])
    exact ⟨hdone, hnext.coherent.inFlight_eq_nil hr'' hdone⟩
  · -- another run has taken its place
    have hold : (m.next e).session.scheduler.run? n = some (t.retired n r) := by
      change (m.session.after e).scheduler.run? n = _
      rw [hl.old n (by rw [hscheduler, hlatest]; omega), hscheduler, hr, Option.map_some]
    have hunfinished : m.session.inFlight = r.action.files.drop r.action.progress := by
      have hi := h.coherent.inFlight_eq hr hactive
      rw [Session.inFlight, hi, Option.elim_some, h.coherent.unfinished_eq hi hr]
    refine ⟨_, hold, Session.becomes_retired t n r, fun uri huri => ?_, fun hcompleted => ?_⟩
    · change uri ∈ (m.session.after e).inFlight
      rw [hl.inFlight_eq]
      rw [Session.action_retired, ← hunfinished] at huri
      exact hfiles uri huri
    · rw [Session.retired, hscheduler, if_pos hcurrent] at hcompleted
      simp [Run.ended, ho] at hcompleted

/-- The changes that were announced when a run handed over findings are those that were when it
started. -/
theorem changes_of_handedOver (h : Reachable sourceDirs settings sort m)
    (hr : m.session.scheduler.run? n = some r) {time : Nat} {uri : FileUri} {kind : DiagnosticKind}
    {earlier : History} (hsuffix : (time, .handedOver n uri kind) :: earlier <:+ m.session.history) :
    changes earlier = r.action.sequence := by
  have hdate := h.upToDate time n uri kind earlier hsuffix
  have hstart := h.chronicled.atStart hr
  have honce := h.chronicled.startsOnce
  obtain ⟨later, hlater⟩ := hsuffix
  rw [← hlater, List.append_cons] at hstart honce
  rw [History.changesAtStart?_append honce hdate, Option.some.injEq] at hstart
  exact hstart

/-- What the end of a run tells that someone has asked for. If it has completed, then it has visited
its files in their order, coming through the types and then linting each file or finding it gone; no
change was announced from the request on until the findings were handed over; and no file is
unfinished. However it has ended, every file that it has not left behind is in flight. -/
theorem requestOutcome_isTrue (h : Reachable sourceDirs settings (fun _ => true) m)
    {files : List FileUri} (hfiles : files ≠ []) (pause : Nat) (cancelled : Bool)
    (events : List Event) (e : Event)
    (hallows : m.allowsAll (.request files pause cancelled :: (events ++ [e])) = true) :
    let run := m.session.scheduler.started + 1
    let all := (files ++ m.session.inFlight).eraseDups
    let requested := m.next (.request files pause cancelled)
    let before := events.foldl Moment.next requested
    let s := (before.next e).session
    before.session.scheduler.outcome? run = none → s.isShutDown = false →
    (s.scheduler.outcome? run = some .completed →
      (∃ visits, stops s.history run = visits.flatten ∧ List.Forall₂ (IsVisit run) all visits) ∧
      (∀ time uri, (time, .skipped run uri) ∈ s.history →
        requested.FindsGone (events ++ [e]) run uri) ∧
      (∀ time uri kind earlier, (time, .handedOver run uri kind) :: earlier <:+ s.history →
        changes earlier = m.session.sequence) ∧
      s.inFlight = []) ∧
    (s.scheduler.outcome? run = some .cancelled ∨ s.scheduler.outcome? run = some .superseded →
      ∀ uri ∈ all, uri ∉ passed s.history run → uri ∈ s.inFlight) := by
  intro run all requested before s hpending hlive
  -- the moments on the way
  rw [Moment.allowsAll, Moment.allowsAll_append, Bool.and_eq_true, Bool.and_eq_true] at hallows
  have hrequested : Reachable sourceDirs settings (fun _ => true) requested := h.next hallows.1 rfl
  have hbefore : Reachable sourceDirs settings (fun _ => true) before :=
    hrequested.foldl events hallows.2.1 (by simp)
  have hafter : Reachable sourceDirs settings (fun _ => true) (before.next e) :=
    hbefore.foldl [e] hallows.2.2 (by simp)
  have hliveFirst : m.session.isShutDown = false :=
    Moment.live_of_next h.coherent (Moment.live_of_foldl hrequested.coherent
      (Moment.live_of_next hbefore.coherent hlive))
  -- the run on the way
  have hl : Session.Launched m.session requested.session all pause true
      (if cancelled then some .caller else none) :=
    h.coherent.launched_of_request hliveFirst hfiles pause cancelled
  obtain ⟨r, hr, hbecomes⟩ :=
    Moment.runsGoOn_foldl hrequested.coherent events run _ hl.new
  have ho : r.outcome? = none := by
    rw [Scheduler.outcome?, hr] at hpending
    exact hpending
  obtain ⟨r', hr', hbecomes', hunfinished, hcompleted⟩ := hbefore.inFlight_next hafter hlive hr ho
  have hfiles' : r'.action.files = all := (hbecomes.trans hbecomes').files
  have hsequence : r'.action.sequence = m.session.sequence := (hbecomes.trans hbecomes').sequence
  have houtcome : s.scheduler.outcome? run = r'.outcome? := by
    rw [Scheduler.outcome?, hr']
    rfl
  rw [houtcome]
  refine ⟨fun hend => ⟨?_, fun time uri hskipped => ?_, fun time uri kind earlier hsuffix => ?_,
    (hcompleted hend).2⟩, fun _ uri huri hnot => ?_⟩
  · rw [← hfiles']
    exact (hafter.journeyed.journey hr').visits (hafter.coherent.fits hr') (hcompleted hend).1
  · have hend : before.next e = (events ++ [e]).foldl Moment.next requested := by
      rw [List.foldl_append]
      rfl
    rw [show s = (before.next e).session from rfl, hend] at hskipped
    obtain hold | hgone := Moment.findsGone_of_skipped hrequested.coherent hskipped
    · have hpassed := History.mem_passed_of_skipped hold
      rw [hrequested.recounted.behind hl.new] at hpassed
      cases hpassed
    · exact hgone
  · rw [hafter.changes_of_handedOver hr' hsuffix, hsequence]
  · rw [hafter.recounted.behind hr'] at hnot
    rw [← hfiles', ← List.take_append_drop r'.action.progress r'.action.files] at huri
    exact hunfinished uri ((List.mem_append.mp huri).resolve_left hnot)

/-- Someone asks for a file and for one that is gone, and is told of the end. -/
theorem requestOutcome_isTrue_gone :
    let main : FileUri := ⟨"file:///Main.elm"⟩
    let gone : FileUri := ⟨"file:///Gone.elm"⟩
    let m := (firstAnalysis.take 1).foldl Moment.next (.initial [] .standard)
    let requested := m.next (.request [main, gone] 0 false)
    let s := ([.turn 1, .typesAnswered 1 ⟨false, .found []⟩, .turn 1, .turn 1].foldl Moment.next
      requested).session
    stops s.history 1 = [.typed 1 main, .linted 1 main, .skipped 1 gone] ∧
    (∃ visits, stops s.history 1 = visits.flatten ∧
      List.Forall₂ (IsVisit 1) [main, gone] visits) ∧ s.inFlight = [] := by
  intro main gone m requested s
  have hreach : Reachable [] .standard (fun _ => true) m :=
    Reachable.initial.foldl (firstAnalysis.take 1) (by decide +kernel) (by decide +kernel)
  have hall : ([main, gone] ++ m.session.inFlight).eraseDups = [main, gone] := by decide +kernel
  have hfiles : [main, gone] ≠ [] := by decide
  obtain ⟨hvisits, -, -, hnone⟩ := (requestOutcome_isTrue hreach hfiles 0 false
    [.turn 1, .typesAnswered 1 ⟨false, .found []⟩, .turn 1] (.turn 1) (by decide +kernel)
    (by decide +kernel) (by decide +kernel)).1 (by decide +kernel)
  rw [hall] at hvisits
  exact ⟨by decide +kernel, hvisits, hnone⟩

end Reachable

end ElmLint

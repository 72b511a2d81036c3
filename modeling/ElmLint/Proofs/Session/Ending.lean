import ElmLint.Proofs.Session.Builds
import ElmLint.Proofs.Session.Linting

/-!
# After the end

The end of a session stops all work and clears all that is known. Of what happens later, two kinds
of events take no notice of it: new settings have files linted once more, and an interruption that
had cancelled a run starts another when it is over. That run is cancelled from the start, so it does
nothing, and stays in flight. Nothing else is stored, shown or in flight after the end.
-/

namespace ElmLint

/-- The event is not lost on a session that has ended. -/
def Event.outlastsEnd : Event → Bool
  | .configure _ | .deleteDocument _ | .endInterruption true => true
  | _ => false

namespace Session

open History (told)

variable {s s' t : Session} {uri : FileUri} {n : Nat} {r r' : Run Walk} {facts : List Fact}
  {left : List Diagnostic}

/-- The session has ended: no file waits, no build counts, and a run that has not ended was
cancelled before its first step. -/
structure HasEnded (s : Session) : Prop where
  isShutDown : s.isShutDown = true
  pending : s.pending = []
  debounce? : s.debounce? = none
  awaitedBuild? : s.awaitedBuild? = none
  halted : ∀ {n r}, s.scheduler.run? n = some r → r.isActive = true →
    r.cancelled = true ∧ r.stage = .ready

theorem Coherent.hasEnded_shutDown (hc : s.Coherent) (hlive : s.isShutDown = false) :
    s.shutDown.HasEnded where
  isShutDown := by rw [shutDown_eq hlive]
  pending := by rw [shutDown_eq hlive]
  debounce? := by rw [shutDown_eq hlive]
  awaitedBuild? := by rw [shutDown_eq hlive]
  halted hr ha := by
    obtain ⟨i, hi, -⟩ := hc.shutDown.active hr ha
    rw [shutDown_eq hlive] at hi
    cases hi

/-- Only the end ends a session. -/
theorem isShutDown_after (hlive : s.isShutDown = false) {e : Event} (hne : e ≠ .shutDown) :
    (s.after e).isShutDown = false := by
  cases hasks : e.asksBuild with
  | true => exact (after_asksBuild hasks hlive).2.2.1
  | false => exact (BuildsKept.after s hasks hne).isShutDown.trans hlive

/-- As long as nothing is in flight, no run can act. -/
theorem Coherent.not_active (hc : s.Coherent) (hnone : s.inFlight = [])
    (hr : s.scheduler.run? n = some r) : r.isActive = false := by
  by_contra ha
  rw [Bool.not_eq_false] at ha
  have hi := hc.inFlight_eq hr ha
  rw [Session.inFlight, hi] at hnone
  exact hc.unfinished_ne_nil hi hnone

-- ---------------------------------------------------------------------------
-- What touches no work
-- ---------------------------------------------------------------------------

/-- No work has begun and none has gone on. -/
structure WorkKept (s s' : Session) : Prop where
  isShutDown : s'.isShutDown = s.isShutDown
  pending : s'.pending.Sublist s.pending
  debounce? : s'.debounce? = s.debounce?
  scheduler : s'.scheduler = s.scheduler
  inFlight? : s'.inFlight? = s.inFlight?

namespace WorkKept

theorem refl (s : Session) : WorkKept s s := ⟨rfl, .refl _, rfl, rfl, rfl⟩

theorem trans (h : WorkKept s t) (h' : WorkKept t s') : WorkKept s s' :=
  ⟨h'.isShutDown.trans h.isShutDown, h'.pending.trans h.pending, h'.debounce?.trans h.debounce?,
    h'.scheduler.trans h.scheduler, h'.inFlight?.trans h.inFlight?⟩

/-- What the editor changes in return is not heard any more. -/
theorem send (hend : s.isShutDown = true) (uri : FileUri) : WorkKept s (s.send uri) := by
  unfold Session.send change
  dsimp only [record]
  split
  · rw [if_pos hend]
    exact ⟨rfl, .refl _, rfl, rfl, rfl⟩
  · exact ⟨rfl, .refl _, rfl, rfl, rfl⟩

theorem foldl {f : Session → FileUri → Session}
    (h : ∀ s, s.isShutDown = true → ∀ uri, WorkKept s (f s uri)) (hend : s.isShutDown = true)
    (uris : List FileUri) : WorkKept s (uris.foldl f s) := by
  induction uris generalizing s with
  | nil => exact refl s
  | cons uri uris ih =>
    have hfirst := h s hend uri
    exact hfirst.trans (ih (hfirst.isShutDown.trans hend))

theorem replace (hend : s.isShutDown = true) (kind : DiagnosticKind)
    (list : FileUri → List Diagnostic) (uris : List FileUri) :
    WorkKept s (s.replace kind list uris) := by
  let changed := (FileUri.sort uris.eraseDups).filter fun uri =>
    (s.known uri).changes kind (list uri)
  have hstore : WorkKept s (changed.foldl (fun s uri => s.store uri kind (list uri)) s) :=
    foldl (f := fun s uri => s.store uri kind (list uri))
      (fun _ _ _ => ⟨rfl, .refl _, rfl, rfl, rfl⟩) hend _
  exact hstore.trans (foldl (fun _ => send) (hstore.isShutDown.trans hend) _)

theorem relint (hend : s.isShutDown = true) : WorkKept s s.relint := by
  refine foldl (fun s hend uri => ?_) hend _
  split
  · unfold publish
    split
    · exact replace hend ..
    · exact refl s
  · exact refl s

theorem configure (hend : s.isShutDown = true) (new : Settings) : WorkKept s (s.configure new) := by
  have hset : WorkKept s { s with settings := new } := ⟨rfl, .refl _, rfl, rfl, rfl⟩
  unfold Session.configure
  dsimp only
  split
  · exact hset.trans (replace (s := { s with settings := new }) hend ..)
  · split
    · exact hset.trans (relint (s := { s with settings := new }) hend)
    · exact hset

theorem delete (hend : s.isShutDown = true) (uri : FileUri) : WorkKept s (s.delete uri) := by
  have hforget : WorkKept s (s.forget uri) := ⟨rfl, List.filter_sublist, rfl, rfl, rfl⟩
  unfold Session.delete
  split
  · exact hforget
  · exact hforget.trans (send (s := s.forget uri) hend uri)

theorem inFlight_eq (h : WorkKept s s') : s'.inFlight = s.inFlight := by
  unfold Session.inFlight unfinished progress
  rw [h.inFlight?, h.scheduler]

end WorkKept

-- ---------------------------------------------------------------------------
-- What events do to the work
-- ---------------------------------------------------------------------------

/-- If any run was touched, it was one that ended or was cancelled. -/
def WindsUp (s s' : Session) : Prop :=
  WorkKept s s' ∨ ∃ n r r' facts, Handled s s' n r r' facts ∧
    (r'.isActive = true → r'.cancelled = true ∧ r'.stage = r.stage)

namespace HasEnded

theorem working?_eq_none (h : s.HasEnded) (n : Nat) : s.scheduler.working? n = none := by
  rw [Option.eq_none_iff_forall_ne_some]
  intro r hw
  obtain ⟨hr, hst⟩ := Scheduler.working?_eq_some.mp hw
  have hready := (h.halted hr (by simp [Run.isActive, hst])).2
  rw [hst] at hready
  cases hready

/-- The turn of a run is its end. -/
theorem turn_cases (h : s.HasEnded) (n : Nat) : s.turn n = s ∨
    ∃ r, s.scheduler.run? n = some r ∧
      s.turn n = { s with scheduler := s.scheduler.finish n .cancelled } := by
  unfold turn Scheduler.begin
  cases hr : s.scheduler.run? n with
  | none => simp
  | some r =>
    by_cases hd : r.isDue s.now = true
    · have hcancelled := (h.halted hr (Run.isDue_active hd)).1
      simp only [hd, hcancelled, ↓reduceIte]
      exact .inr ⟨r, rfl, adopt_finish _ _ (by decide)⟩
    · simp [hd]

/-- An event that is lost on a session that has ended tells nothing and lets no run act. -/
theorem after_lost (h : s.HasEnded) {e : Event} (hlost : e.outlastsEnd = false) :
    Quiet s (s.after e) ∧ s.WindsUp (s.after e) := by
  have hend := h.isShutDown
  have hstill : s.after e = s → Quiet s (s.after e) ∧ s.WindsUp (s.after e) := by
    intro he
    rw [he]
    exact ⟨.refl s, .inl (.refl s)⟩
  cases e with
  | setFile | removeFile | showFile | hideFile | react | clock =>
    exact ⟨⟨rfl, fun _ => rfl⟩, .inl ⟨rfl, .refl _, rfl, rfl, rfl⟩⟩
  | openDocument | saveDocument | changeDocument | shutDown => exact hstill (if_pos hend)
  | deleteDocument | configure => cases hlost
  | request files pause cancelled => exact hstill (if_pos (by rw [hend, Bool.true_or]))
  | cancelRequest n =>
    by_cases hasked : ((s.scheduler.run? n).any (·.action.isOnDemand)) = true
    · obtain ⟨r, hr, -⟩ := (Option.any_eq_true _ _).mp hasked
      have heq : s.after (.cancelRequest n) = s.cancelRun n .caller := if_pos hasked
      rw [heq]
      have hcancelled := handled_cancelRun hr .caller
      exact ⟨⟨rfl, fun _ => rfl⟩, .inr ⟨n, r, _, _, hcancelled, fun _ => ⟨rfl, rfl⟩⟩⟩
    · exact hstill (if_neg hasked)
  | beginInterruption =>
    refine hstill ?_
    change s.beginInterruption = s
    unfold beginInterruption
    rw [hend]
    split <;> rfl
  | endInterruption hasCancelled =>
    cases hasCancelled with
    | true => cases hlost
    | false => exact hstill rfl
  | silence =>
    refine hstill (if_neg ?_)
    rw [h.debounce?, Option.any_none]
    exact Bool.false_ne_true
  | turn n =>
    obtain heq | ⟨r, hr, heq⟩ := h.turn_cases n
    · exact hstill heq
    · change Quiet s (s.turn n) ∧ s.WindsUp (s.turn n)
      rw [heq]
      refine ⟨⟨rfl, fun _ => rfl⟩, .inr ⟨n, r, r.ended .cancelled, [], ?_, fun ha => ?_⟩⟩
      · exact handled_finish hr .cancelled
      · simp at ha
  | heedCancellation n =>
    refine hstill ?_
    change s.heedCancellation n = s
    rw [heedCancellation, h.working?_eq_none]
  | typesAnswered n answer =>
    refine hstill ?_
    change s.typesAnswered n answer = s
    rw [typesAnswered, h.working?_eq_none]
  | buildAnswered number answer =>
    refine hstill (if_neg ?_)
    rw [h.awaitedBuild?]
    simp

/-- A run that starts after the end is cancelled from the start. -/
theorem drain_cases (h : s.HasEnded) (hc : s.Coherent) :
    (s.inFlight ++ s.workspace.openFiles = [] ∧ s.drain = s.takeMarked) ∨
      Launched s.takeMarked s.drain (s.inFlight ++ s.workspace.openFiles).eraseDups
        s.settings.interFileDelay false (some .ending) := by
  have hmarked : s.marked = [] := by simp [marked, h.pending]
  have hcases := hc.drain_cases
  rw [hmarked, List.nil_append, h.isShutDown, if_pos rfl] at hcases
  exact hcases.imp (fun hnone => ⟨hnone.1, hnone.2.2⟩) And.right

theorem awaitedBuild?_after (h : s.HasEnded) (e : Event) : (s.after e).awaitedBuild? = none := by
  rw [← h.awaitedBuild?]
  by_cases hend : e = .shutDown
  · subst hend
    exact congrArg Session.awaitedBuild? (shutDown_again h.isShutDown)
  · cases hasks : e.asksBuild with
    | true => rw [after_asksBuild_of_isShutDown hasks h.isShutDown]
    | false => exact (BuildsKept.after s hasks hend).awaitedBuild?

theorem workKept (h : s.HasEnded) (hk : WorkKept s s') (hawaited : s'.awaitedBuild? = none) :
    s'.HasEnded where
  isShutDown := hk.isShutDown.trans h.isShutDown
  pending := List.sublist_nil.mp (h.pending ▸ hk.pending)
  debounce? := hk.debounce?.trans h.debounce?
  awaitedBuild? := hawaited
  halted := by
    rw [hk.scheduler]
    exact h.halted

theorem handled (h : s.HasEnded) (hh : Handled s s' n r r' facts)
    (hr' : r'.isActive = true → r'.cancelled = true ∧ r'.stage = r.stage)
    (hawaited : s'.awaitedBuild? = none) : s'.HasEnded where
  isShutDown := hh.isShutDown.trans h.isShutDown
  pending := hh.pending.trans h.pending
  debounce? := hh.debounce?.trans h.debounce?
  awaitedBuild? := hawaited
  halted := by
    intro m q hq ha
    rw [hh.run?] at hq
    split at hq
    · cases hq
      obtain ⟨hcancelled, hstage⟩ := hr' ha
      exact ⟨hcancelled, hstage.trans (h.halted hh.was (hh.isActive ha)).2⟩
    · exact h.halted hq ha

theorem drain (h : s.HasEnded) (hc : s.Coherent) : s.drain.HasEnded := by
  obtain ⟨-, heq⟩ | hl := h.drain_cases hc
  · rw [heq]
    exact ⟨h.isShutDown, rfl, rfl, h.awaitedBuild?, h.halted⟩
  · refine ⟨hl.isShutDown.trans h.isShutDown, hl.pending, hl.debounce?,
      h.awaitedBuild?_after (.endInterruption true), fun hr ha => ?_⟩
    -- the latest run is the only one that may act
    have hcurrent := hl.valid.active hr ha
    rw [hl.current?, Option.some.injEq] at hcurrent
    rw [← hcurrent, hl.new, Option.some.injEq] at hr
    rw [← hr]
    exact ⟨rfl, rfl⟩

/-- The end of an interruption that had cancelled a run is the only event that makes work. -/
theorem windsUp_after (h : s.HasEnded) {e : Event} (hover : e ≠ .endInterruption true) :
    s.WindsUp (s.after e) := by
  cases hlost : e.outlastsEnd with
  | false => exact (h.after_lost hlost).2
  | true =>
    cases e with
    | configure new => exact .inl (.configure h.isShutDown new)
    | deleteDocument uri => exact .inl (.delete h.isShutDown uri)
    | endInterruption hasCancelled =>
      cases hasCancelled with
      | true => exact absurd rfl hover
      | false => cases hlost
    | _ => cases hlost

theorem after (h : s.HasEnded) (hc : s.Coherent) (e : Event) : (s.after e).HasEnded := by
  by_cases hover : e = .endInterruption true
  · subst hover
    exact h.drain hc
  · have hawaited := h.awaitedBuild?_after e
    obtain hk | ⟨n, r, r', facts, hh, hr'⟩ := h.windsUp_after hover
    · exact h.workKept hk hawaited
    · exact h.handled hh hr' hawaited

end HasEnded

-- ---------------------------------------------------------------------------
-- What is in flight
-- ---------------------------------------------------------------------------

/-- What is in flight after an event that comes after the end, where `files` were in flight. -/
def resumed (s : Session) (files : List FileUri) : Event → List FileUri
  | .endInterruption true => (files ++ s.workspace.openFiles).eraseDups
  | _ => files

theorem resumed_of_ne {e : Event} (hover : e ≠ .endInterruption true) (files : List FileUri) :
    s.resumed files e = files := by
  unfold resumed
  split
  · exact absurd rfl hover
  · rfl

theorem WindsUp.inFlight_eq (h : s.WindsUp s') : s'.inFlight = s.inFlight := by
  obtain hk | ⟨n, r, r', facts, hh, -⟩ := h
  · exact hk.inFlight_eq
  · exact hh.inFlight_eq

theorem HasEnded.inFlight_after (h : s.HasEnded) (hc : s.Coherent) (e : Event) :
    (s.after e).inFlight = s.resumed s.inFlight e := by
  by_cases hover : e = .endInterruption true
  · subst hover
    change s.drain.inFlight = (s.inFlight ++ s.workspace.openFiles).eraseDups
    obtain ⟨hnone, heq⟩ | hl := h.drain_cases hc
    · rw [heq, hnone]
      exact (List.append_eq_nil_iff.mp hnone).1
    · exact hl.inFlight_eq
  · rw [resumed_of_ne hover]
    exact (h.windsUp_after hover).inFlight_eq

-- ---------------------------------------------------------------------------
-- What is stored and shown
-- ---------------------------------------------------------------------------

/-- The lint diagnostics of a file after an event that comes after the end, where it had those in
`left`. -/
def lintLeft (s : Session) (uri : FileUri) (left : List Diagnostic) : Event → List Diagnostic
  | .configure new => s.lintUnder new uri left
  | .deleteDocument other => if other = uri then [] else left
  | _ => left

/-- After the end, there is nothing of a file but what new settings and deletions leave of its
linting, and that is told whenever it changes. -/
theorem HasEnded.left_after (h : s.HasEnded) (hknown : s.known uri = ⟨[], [], left⟩) (e : Event) :
    (s.after e).known uri = ⟨[], [], s.lintLeft uri left e⟩ ∧
    told uri (s.after e).history = if s.lintLeft uri left e = left then told uri s.history
      else s.lintLeft uri left e :: told uri s.history := by
  have hrestated : ∀ {now left'}, Restated s (s.after e) now → now uri = ⟨[], [], left'⟩ →
      (s.after e).known uri = ⟨[], [], left'⟩ ∧ told uri (s.after e).history =
        if left' = left then told uri s.history else left' :: told uri s.history := by
    intro now left' hr hnow
    refine ⟨by rw [hr.known, hnow], ?_⟩
    rw [hr.told, hnow, hknown]
    simp [FileDiagnostics.merged_eq]
  cases e with
  | configure new =>
    refine hrestated (s.restated_configure new) ?_
    rw [hknown]
    rfl
  | deleteDocument other =>
    refine hrestated (s.restated_delete other) ?_
    by_cases ho : other = uri
    · subst ho
      simp [lintLeft, FileDiagnostics.empty]
    · rw [Function.update_of_ne (Ne.symm ho), hknown, lintLeft, if_neg ho]
  | endInterruption hasCancelled =>
    refine hrestated (Quiet.restated ?_) hknown
    cases hasCancelled with
    | true => exact quiet_drain s
    | false => exact .refl s
  | _ => exact hrestated (h.after_lost rfl).1.restated hknown

end Session

namespace Moment

open History (told)

variable {m : Moment} {uri : FileUri} {left : List Diagnostic}

/-- What is in flight after some events that come after the end. -/
def resumed (m : Moment) (files : List FileUri) : List Event → List FileUri
  | [] => files
  | e :: events => (m.next e).resumed (m.session.resumed files e) events

/-- The lint diagnostics of a file after some events that come after the end. -/
def lintLeft (m : Moment) (uri : FileUri) (left : List Diagnostic) : List Event → List Diagnostic
  | [] => left
  | e :: events => (m.next e).lintLeft uri (m.session.lintLeft uri left e) events

theorem hasEnded_foldl (h : m.session.HasEnded) (hc : m.session.Coherent) (events : List Event) :
    (events.foldl next m).session.HasEnded ∧
      (events.foldl next m).session.inFlight = m.resumed m.session.inFlight events := by
  induction events generalizing m with
  | nil => exact ⟨h, rfl⟩
  | cons e events ih =>
    obtain ⟨hended, hflight⟩ := ih (m := m.next e) (h.after hc e) (hc.after e)
    refine ⟨hended, hflight.trans ?_⟩
    rw [resumed, ← h.inFlight_after hc e]
    rfl

/-- No interruption that is under way at the end has cancelled a run, and none that begins later
does. So nothing comes into flight again. -/
theorem resumed_eq_nil (h : m.session.HasEnded) (hc : m.session.Coherent)
    (hcancelled : true ∉ m.interruptions) (events : List Event)
    (hallows : m.allowsAll events = true) : m.resumed [] events = [] := by
  induction events generalizing m with
  | nil => rfl
  | cons e events ih =>
    rw [allowsAll, Bool.and_eq_true] at hallows
    obtain ⟨hallowed, hallows⟩ := hallows
    have hover : e ≠ .endInterruption true := by
      rintro rfl
      rw [allows, beq_iff_eq] at hallowed
      exact hcancelled (List.mem_of_head? hallowed)
    rw [resumed, Session.resumed_of_ne hover]
    refine ih (h.after hc e) (hc.after e) (fun hmem => ?_) hallows
    cases e with
    | beginInterruption =>
      obtain hnow | hbefore := List.mem_cons.mp hmem
      · simp [Session.isInterruptible, h.isShutDown] at hnow
      · exact hcancelled hbefore
    | endInterruption => exact hcancelled (List.mem_of_mem_tail hmem)
    | _ => exact hcancelled hmem

theorem left_foldl (h : m.session.HasEnded) (hc : m.session.Coherent)
    (hknown : m.session.known uri = ⟨[], [], left⟩) (events : List Event) :
    (events.foldl next m).session.known uri = ⟨[], [], m.lintLeft uri left events⟩ ∧
    ∃ news, told uri (events.foldl next m).session.history = news ++ told uri m.session.history ∧
      ∀ list ∈ news, ∃ before e, before ++ [e] <+: events ∧
        list = m.lintLeft uri left (before ++ [e]) ∧ list ≠ m.lintLeft uri left before := by
  induction events generalizing m left with
  | nil => exact ⟨hknown, [], rfl, nofun⟩
  | cons e events ih =>
    obtain ⟨hfirst, htold⟩ := h.left_after hknown e
    obtain ⟨hlater, news, hnews, hlists⟩ := ih (m := m.next e) (h.after hc e) (hc.after e) hfirst
    have hearlier : ∀ list ∈ news, ∃ before e', before ++ [e'] <+: e :: events ∧
        list = m.lintLeft uri left (before ++ [e']) ∧ list ≠ m.lintLeft uri left before := by
      intro list hl
      obtain ⟨before, e', hbefore, heq, hne⟩ := hlists list hl
      exact ⟨e :: before, e', List.cons_prefix_cons.mpr ⟨rfl, hbefore⟩, heq, hne⟩
    refine ⟨hlater, ?_⟩
    rw [List.foldl_cons, hnews]
    change ∃ news', news ++ told uri (m.session.after e).history = _ ∧ _
    rw [htold]
    split
    · exact ⟨news, rfl, hearlier⟩
    · rename_i hchanged
      refine ⟨news ++ [m.session.lintLeft uri left e], by simp, fun list hl => ?_⟩
      obtain hl | hl := List.mem_append.mp hl
      · exact hearlier list hl
      · rw [List.mem_singleton.mp hl]
        exact ⟨[], e, List.cons_prefix_cons.mpr ⟨rfl, List.nil_prefix⟩, rfl, hchanged⟩

/-- As long as new settings have no file linted again, nothing is left. -/
theorem lintLeft_eq_nil (events : List Event)
    (h : ∀ before new, before ++ [.configure new] <+: events →
      new.relintsAfter (before.foldl next m).session.settings = false) :
    m.lintLeft uri [] events = [] := by
  induction events generalizing m with
  | nil => rfl
  | cons e events ih =>
    have hnone : m.session.lintLeft uri [] e = [] := by
      cases e with
      | configure new =>
        have hre := h [] new (List.cons_prefix_cons.mpr ⟨rfl, List.nil_prefix⟩)
        rw [List.foldl_nil] at hre
        simp [Session.lintLeft, Session.lintUnder, hre]
      | deleteDocument other => simp [Session.lintLeft]
      | _ => rfl
    rw [lintLeft, hnone]
    refine ih fun before new hbefore => ?_
    exact h (e :: before) new (List.cons_prefix_cons.mpr ⟨rfl, hbefore⟩)

end Moment

namespace Reachable

open History (told)

variable {sourceDirs : List FileUri} {settings : Settings} {sort : Event → Bool} {m : Moment}

theorem hasEnded (h : Reachable sourceDirs settings sort m) (hend : m.session.isShutDown = true) :
    m.session.HasEnded := by
  induction h with
  | initial => cases hend
  | @next m e h _ _ ih =>
    cases hlive : m.session.isShutDown with
    | true => exact (ih hlive).after h.coherent e
    | false =>
      have he : e = .shutDown := by
        by_contra hne
        have hlater : (m.next e).session.isShutDown = false := Session.isShutDown_after hlive hne
        rw [hlater] at hend
        cases hend
      subst he
      exact h.coherent.hasEnded_shutDown hlive

/-- The end is final but for two things, whatever happens later and in whatever order. No file
waits, nobody waits for silence, no build counts, and no run takes a step any more. In flight are
the files that are open when an interruption is over that had cancelled a run before the end, and
no others. Of a file nothing is stored or told but what new settings leave of its linting. So if no
such interruption is under way at the end, no run is left; and as long as new settings have no file
linted again, nothing is stored and nothing is told. -/
theorem left_of_shutDown (h : Reachable sourceDirs settings sort m)
    (hlive : m.session.isShutDown = false) (events : List Event) :
    let ended := m.next .shutDown
    let later := (events.foldl Moment.next ended).session
    later.HasEnded ∧
    later.inFlight = ended.resumed [] events ∧
    (∀ uri, later.known uri = ⟨[], [], ended.lintLeft uri [] events⟩ ∧
      ∃ news, told uri later.history = news ++ told uri ended.session.history ∧
        ∀ list ∈ news, ∃ before e, before ++ [e] <+: events ∧
          list = ended.lintLeft uri [] (before ++ [e]) ∧ list ≠ ended.lintLeft uri [] before) ∧
    (true ∉ m.interruptions → ended.allowsAll events = true →
      later.inFlight = [] ∧ ∀ n r, later.scheduler.run? n = some r → r.isActive = false) ∧
    ((∀ before new, before ++ [.configure new] <+: events →
        new.relintsAfter (before.foldl Moment.next ended).session.settings = false) →
      ∀ uri, later.diagnosticsOf uri = [] ∧
        told uri later.history = told uri ended.session.history) := by
  intro ended later
  have hended : ended.session.HasEnded := h.coherent.hasEnded_shutDown hlive
  have hc : ended.session.Coherent := h.coherent.shutDown
  have hshutDown : ended.session = m.session.shutDown := rfl
  have hnone : ended.session.inFlight = [] := by
    rw [hshutDown, Session.inFlight, Session.shutDown_eq hlive]
    rfl
  have hknown : ∀ uri, ended.session.known uri = ⟨[], [], []⟩ := by
    intro uri
    rw [hshutDown, Session.known, Session.shutDown_eq hlive]
    rfl
  obtain ⟨hlater, hflight⟩ := Moment.hasEnded_foldl hended hc events
  have hleft := fun uri => Moment.left_foldl hended hc (hknown uri) events
  rw [hnone] at hflight
  refine ⟨hlater, hflight, hleft, fun hcancelled hallows => ?_, fun hsettings uri => ?_⟩
  · have hempty : later.inFlight = [] :=
      hflight.trans (Moment.resumed_eq_nil hended hc hcancelled events hallows)
    exact ⟨hempty, fun n r hr => (Moment.coherent_foldl hc events).not_active hempty hr⟩
  · have hclear : ∀ before, before <+: events → ended.lintLeft uri [] before = [] :=
      fun before hbefore => Moment.lintLeft_eq_nil before fun earlier new hearlier =>
        hsettings earlier new (hearlier.trans hbefore)
    obtain ⟨hknown, news, hnews, hlists⟩ := hleft uri
    refine ⟨by simp [Session.diagnosticsOf, later, hknown, hclear events (List.prefix_refl _),
      FileDiagnostics.merged_eq], ?_⟩
    -- a list that is told differs from the one before, and both are empty
    have hsilent : news = [] := by
      rw [List.eq_nil_iff_forall_not_mem]
      intro list hl
      obtain ⟨before, e, hbefore, rfl, hne⟩ := hlists list hl
      rw [hclear _ hbefore, hclear _ ((List.prefix_append ..).trans hbefore)] at hne
      exact hne rfl
    rw [hnews, hsilent, List.nil_append]

/-- Something urgent comes up while a run is under way over a file that is open. -/
def interruptedAnalysis : List Event :=
  [.setFile ⟨"file:///Main.elm"⟩ "module Main exposing (f)\n\nimport List\n\nf =\n    1\n" true,
   .showFile ⟨"file:///Main.elm"⟩, .changeDocument ⟨"file:///Main.elm"⟩, .clock 200, .silence,
   .turn 1, .beginInterruption]

/-- The session ends while something urgent has stopped its run. When that is over, the file is in
flight again, and settings that turn off some other check have it linted. Without the two, an edit
goes unheard. -/
theorem left_of_shutDown_interruptedAnalysis :
    let uri : FileUri := ⟨"file:///Main.elm"⟩
    let ended := (interruptedAnalysis.foldl Moment.next (.initial [] .standard)).next .shutDown
    let revived := [.endInterruption true, .turn 2,
      .configure { Settings.standard with disabledLints := [.unusedAlias] }].foldl Moment.next ended
    let edited := [.changeDocument uri, .clock 400, .silence].foldl Moment.next ended
    revived.session.inFlight = [uri] ∧
    (revived.session.diagnosticsOf uri).map (·.code) = ["unused_import"] ∧
    edited.session.inFlight = [] ∧ edited.session.diagnosticsOf uri = [] ∧
    told uri edited.session.history = told uri ended.session.history := by
  intro uri ended revived edited
  have hreach : Reachable [] .standard (fun _ => true)
      (interruptedAnalysis.foldl Moment.next (.initial [] .standard)) :=
    Reachable.initial.foldl _ (by decide +kernel) (by decide +kernel)
  have hlive : (interruptedAnalysis.foldl Moment.next
      (.initial [] .standard)).session.isShutDown = false := by decide +kernel
  have hrevived := left_of_shutDown hreach hlive [.endInterruption true, .turn 2,
    .configure { Settings.standard with disabledLints := [.unusedAlias] }]
  have hedited := left_of_shutDown hreach hlive [.changeDocument uri, .clock 400, .silence]
  have hunlinted := hedited.2.2.2.2
    (fun before new hbefore => by simpa using hbefore.subset (List.mem_concat_self ..)) uri
  refine ⟨hrevived.2.1.trans (by decide +kernel), ?_, hedited.2.1.trans (by decide +kernel),
    hunlinted.1, hunlinted.2⟩
  rw [Session.diagnosticsOf, (hrevived.2.2.1 uri).1]
  decide +kernel

end Reachable

end ElmLint

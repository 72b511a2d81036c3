import ElmLint.Proofs.Session.Move

/-!
# What a move does to the runs

Three kinds of moves concern runs. `Handled`: one run changes and stays at its file. `Passed`: a run
leaves a file behind. `Launched`: a run takes the place of the run in flight. Each is described by
what looking up any run gives afterwards, by what is in flight, and by the facts that are recorded.
-/

namespace ElmLint

namespace Session

variable {s s' : Session} {uri : FileUri} {n m : Nat} {r r' : Run Walk} {facts : List Fact}

/-- Facts that are recorded together, the newest first. -/
def stamped (s : Session) (facts : List Fact) : History := facts.map (s.now, ·)

/-- Only runs, what is in flight, and the history have changed. -/
structure OnlyRuns (s s' : Session) : Prop extends OutsideKept s s' where
  sequence : s'.sequence = s.sequence
  pending : s'.pending = s.pending
  debounce? : s'.debounce? = s.debounce?
  diagnostics : s'.diagnostics = s.diagnostics

theorem OnlyRuns.of_eq {scheduler : Scheduler Walk} {inFlight? : Option InFlight}
    {history : History} (h : s' = { s with scheduler, inFlight?, history }) : OnlyRuns s s' := by
  subst h
  exact ⟨⟨rfl, rfl, rfl, rfl⟩, rfl, rfl, rfl, rfl⟩

-- ---------------------------------------------------------------------------
-- A run that stays at its file
-- ---------------------------------------------------------------------------

/-- The run `n` has changed from `r` to `r'`, where it is still at the same file. -/
structure Handled (s s' : Session) (n : Nat) (r r' : Run Walk) (facts : List Fact) : Prop
    extends OnlyRuns s s' where
  was : s.scheduler.run? n = some r
  run? : ∀ m, s'.scheduler.run? m = if m = n then some r' else s.scheduler.run? m
  action : r'.action = { r.action with phase := r'.action.phase }
  isActive : r'.isActive = true → r.isActive = true
  started : s'.scheduler.started = s.scheduler.started
  current? : s'.scheduler.current? = s.scheduler.current?
  valid : s.scheduler.Valid → s'.scheduler.Valid
  inFlight? : s'.inFlight? = s.inFlight?
  history : s'.history = s.stamped facts ++ s.history

theorem handled_update (hr : s.scheduler.run? n = some r) (change : Run Walk → Run Walk)
    (hw : (change r).action = { r.action with phase := (change r).action.phase })
    (ha : (change r).isActive = r.isActive) (ho : (change r).outcome? = r.outcome?)
    (facts : List Fact) :
    Handled s { s with
      scheduler := s.scheduler.update n change, history := s.stamped facts ++ s.history }
      n r (change r) facts where
  toOnlyRuns := .of_eq rfl
  was := hr
  run? m := by rw [Scheduler.run?_update, hr]; rfl
  action := hw
  isActive h := ha ▸ h
  started := Scheduler.started_update ..
  current? := Scheduler.current?_update ..
  valid h := h.update hr ha ho
  inFlight? := rfl
  history := rfl

theorem handled_cancelRun (hr : s.scheduler.run? n = some r) (canceller : Canceller) :
    Handled s (s.cancelRun n canceller) n r { r with cancelled := true } [.cancelled n canceller] :=
  handled_update hr (fun run => { run with cancelled := true }) rfl rfl rfl [.cancelled n canceller]

theorem handled_begin (hr : s.scheduler.run? n = some r) (hd : r.isDue s.now = true) :
    Handled s { s with
      scheduler := s.scheduler.update n fun run => { run with stage := .working } }
      n r { r with stage := .working } [] := by
  refine handled_update hr (fun run => { run with stage := .working }) rfl ?_ rfl []
  rw [Run.isDue_active hd]
  rfl

theorem handled_finish (hr : s.scheduler.run? n = some r) (outcome : Outcome) :
    Handled s { s with scheduler := s.scheduler.finish n outcome } n r (r.ended outcome) [] where
  toOnlyRuns := .of_eq rfl
  was := hr
  run? m := by rw [Scheduler.run?_finish, hr]; rfl
  action := rfl
  isActive h := by simp at h
  started := Scheduler.started_finish ..
  current? := Scheduler.current?_finish ..
  valid h := h.finish n outcome
  inFlight? := rfl
  history := rfl

/-- A step that asks for another step changes its run and nothing else. -/
theorem proceed_some (hw : s.scheduler.working? n = some r) (walk : Walk) (next : Continuation) :
    s.proceed n walk (some next) = { s with
      scheduler := s.scheduler.update n
        fun run => { run with action := walk, stage := next.stage s.now } } := by
  unfold proceed
  rw [Scheduler.proceed_some hw, adopt_update]

theorem handled_proceed (hw : s.scheduler.working? n = some r) (phase : Phase) :
    Handled s (s.proceed n { r.action with phase } (some .immediate)) n r
      { r with action := { r.action with phase }, stage := .ready } [] := by
  obtain ⟨hr, hst⟩ := Scheduler.working?_eq_some.mp hw
  rw [proceed_some hw]
  refine handled_update hr
    (fun run => { run with action := { r.action with phase }, stage := .ready }) rfl ?_ rfl []
  simp [Run.isActive, hst]

theorem handled_yield (hw : s.scheduler.working? n = some r) :
    Handled s (s.proceed n r.action (some .immediate)) n r { r with stage := .ready } [] :=
  handled_proceed hw r.action.phase

theorem handled_proceedToLint (hw : s.scheduler.working? n = some r) :
    Handled s (s.proceedToLint n r.action uri) n r
      { r with action := { r.action with phase := .lint }, stage := .ready } [.typed n uri] := by
  obtain ⟨hr, hst⟩ := Scheduler.working?_eq_some.mp hw
  have hw' : (s.record (.typed n uri)).scheduler.working? n = some r := hw
  unfold proceedToLint
  rw [proceed_some hw']
  refine handled_update hr (fun run =>
    { run with action := { r.action with phase := .lint }, stage := .ready }) rfl ?_ rfl [.typed n uri]
  simp [Run.isActive, hst]

theorem handled_abandon (hw : s.scheduler.working? n = some r) :
    Handled s (s.abandon n r.action) n r { r with cancelled := true, stage := .ready }
      [.cancelled n .change] := by
  obtain ⟨hr, hst⟩ := Scheduler.working?_eq_some.mp hw
  have hcancel := handled_cancelRun hr .change
  have hr' : (s.cancelRun n .change).scheduler.run? n = some { r with cancelled := true } := by
    rw [hcancel.run?, if_pos rfl]
  have hproceed := handled_yield (s := s.cancelRun n .change)
    (Scheduler.working?_eq_some.mpr ⟨hr', hst⟩)
  exact {
    toOnlyRuns := by
      rw [abandon, proceed_some (Scheduler.working?_eq_some.mpr ⟨hr', hst⟩)]
      exact .of_eq rfl
    was := hr
    run? m := by
      rw [abandon, hproceed.run?, hcancel.run?]
      split <;> rfl
    action := rfl
    isActive _ := by simp [Run.isActive, hst]
    started := hproceed.started.trans hcancel.started
    current? := hproceed.current?.trans hcancel.current?
    valid h := hproceed.valid (hcancel.valid h)
    inFlight? := hproceed.inFlight?
    history := hproceed.history }

-- ---------------------------------------------------------------------------
-- A run that leaves a file behind
-- ---------------------------------------------------------------------------

/-- The run `n` has changed from `r` to `r'` by leaving the file `uri` behind. If it was the last
file, the run has completed and is no longer in flight. -/
structure Passed (s s' : Session) (n : Nat) (r r' : Run Walk) (uri : FileUri) (fact : Fact) : Prop
    extends OnlyRuns s s' where
  was : s.scheduler.run? n = some r
  wasActive : r.isActive = true
  file? : r.action.file? = some uri
  run? : ∀ m, s'.scheduler.run? m = if m = n then some r' else s.scheduler.run? m
  action : r'.action = r.action.next
  cancelled : r'.cancelled = r.cancelled
  isActive : r'.isActive = r.action.next.hasMore
  started : s'.scheduler.started = s.scheduler.started
  current? : s'.scheduler.current? = s.scheduler.current?
  valid : s'.scheduler.Valid
  inFlight? : s'.inFlight? =
    if r.action.next.hasMore = false ∧ s.inFlight?.any (·.run = n) then none else s.inFlight?
  history : s'.history = (s.now, fact) :: s.history

theorem passed_proceed (hv : s.scheduler.Valid) (hw : s.scheduler.working? n = some r)
    (hf : r.action.file? = some uri) (fact : Fact) (c : Continuation) :
    Passed s
      ((s.record fact).proceed n r.action.next (if r.action.next.hasMore then some c else none)) n r
      (r.proceeded s.now r.action.next (if r.action.next.hasMore then some c else none))
      uri fact := by
  obtain ⟨hr, hst⟩ := Scheduler.working?_eq_some.mp hw
  have hactive : r.isActive = true := by simp [Run.isActive, hst]
  have hw' : (s.record fact).scheduler.working? n = some r := hw
  exact {
    toOnlyRuns := .of_eq rfl
    was := hr
    wasActive := hactive
    file? := hf
    run? m := Scheduler.run?_proceed hw ..
    action := Run.action_proceeded ..
    cancelled := Run.cancelled_proceeded ..
    isActive := by
      rw [Run.isActive_proceeded]
      cases r.action.next.hasMore <;> rfl
    started := Scheduler.started_proceed hw ..
    current? := Scheduler.current?_proceed hw ..
    valid := hv.proceed hw ..
    inFlight? := by
      rw [inFlight?_proceed hw' ((hv.reported hr).mpr hactive)]
      cases r.action.next.hasMore with
      | true => simp [record]
      | false => simp [record, hear]
    history := rfl }

theorem passed_proceedToNext (hv : s.scheduler.Valid) (hw : s.scheduler.working? n = some r)
    (hf : r.action.file? = some uri) :
    ∃ r', Passed s (s.proceedToNext n r.action uri) n r r' uri (.linted n uri) :=
  ⟨_, passed_proceed hv hw hf ..⟩

theorem passed_skip (hv : s.scheduler.Valid) (hw : s.scheduler.working? n = some r)
    (hf : r.action.file? = some uri) :
    ∃ r', Passed s (s.skip n r.action uri) n r r' uri (.skipped n uri) :=
  ⟨_, passed_proceed hv hw hf ..⟩

-- ---------------------------------------------------------------------------
-- A run in place of another
-- ---------------------------------------------------------------------------

/-- The run `m` of a session after another has taken its place: it is cancelled if it was in flight,
and its task is taken off if it was the latest run. -/
def retired (s : Session) (m : Nat) (r : Run Walk) : Run Walk :=
  let r := { r with cancelled := r.cancelled || s.inFlight?.any (·.run = m) }
  if s.scheduler.current? = some m then r.ended .superseded else r

@[simp] theorem action_retired (s : Session) (m : Nat) (r : Run Walk) :
    (s.retired m r).action = r.action := by
  unfold retired
  split <;> rfl

@[simp] theorem cancelled_retired (s : Session) (m : Nat) (r : Run Walk) :
    (s.retired m r).cancelled = (r.cancelled || s.inFlight?.any (·.run = m)) := by
  unfold retired
  split <;> rfl

/-- What is recorded when a run takes the place of another, the newest first. -/
def launchFacts (s : Session) (files : List FileUri) (canceller? : Option Canceller) : List Fact :=
  canceller?.elim [] (fun canceller => [.cancelled (s.scheduler.started + 1) canceller]) ++
    .started (s.scheduler.started + 1) files ::
    s.inFlight?.elim [] (fun i => [.cancelled i.run .successor])

theorem mem_launchFacts {files : List FileUri} {canceller? : Option Canceller} {fact : Fact}
    (h : fact ∈ s.launchFacts files canceller?) :
    fact = .started (s.scheduler.started + 1) files ∨ ∃ n c, fact = .cancelled n c := by
  simp only [launchFacts, List.mem_append, List.mem_cons] at h
  obtain hbirth | rfl | hend := h
  · cases canceller? with
    | none => cases hbirth
    | some c => exact .inr ⟨_, c, List.mem_singleton.mp hbirth⟩
  · exact .inl rfl
  · cases hi : s.inFlight? with
    | none => simp [hi] at hend
    | some i => exact .inr ⟨i.run, .successor, by simpa [hi] using hend⟩

/-- A new run over `files` has taken the place of the run in flight. -/
structure Launched (s s' : Session) (files : List FileUri) (pause : Nat) (isOnDemand : Bool)
    (canceller? : Option Canceller) : Prop extends OnlyRuns s s' where
  new : s'.scheduler.run? (s.scheduler.started + 1) =
    some (.ofAction (.ofFiles files s.sequence pause isOnDemand) canceller?.isSome)
  old : ∀ m, m ≠ s.scheduler.started + 1 →
    s'.scheduler.run? m = (s.scheduler.run? m).map (s.retired m)
  started : s'.scheduler.started = s.scheduler.started + 1
  current? : s'.scheduler.current? = some (s.scheduler.started + 1)
  valid : s'.scheduler.Valid
  inFlight? : s'.inFlight? = some ⟨s.scheduler.started + 1, files⟩
  history : s'.history = s.stamped (s.launchFacts files canceller?) ++ s.history

/-- What a launch records comes on top of what was recorded just before. -/
theorem Launched.history_eq {t : Session} {files : List FileUri} {pause : Nat} {isOnDemand : Bool}
    {canceller? : Option Canceller} (hl : Launched t s' files pause isOnDemand canceller?)
    (hhistory : t.history = s.stamped facts ++ s.history) (hnow : t.now = s.now) :
    s'.history = s.stamped (t.launchFacts files canceller? ++ facts) ++ s.history := by
  rw [hl.history, hhistory, stamped, stamped, stamped, hnow, List.map_append, List.append_assoc]

theorem scheduler_takeOver (s : Session) :
    s.takeOver.scheduler = s.inFlight?.elim s.scheduler fun i => s.scheduler.cancel i.run := by
  unfold takeOver
  cases s.inFlight? <;> rfl

theorem history_takeOver (s : Session) : s.takeOver.history =
    s.stamped (s.inFlight?.elim [] fun i => [.cancelled i.run .successor]) ++ s.history := by
  unfold takeOver
  cases s.inFlight? <;> rfl

theorem takeOver_eq (s : Session) : s.takeOver = { s with
    scheduler := s.takeOver.scheduler, inFlight? := none, history := s.takeOver.history } := by
  unfold takeOver
  cases h : s.inFlight? with
  | none => simp only [← h]
  | some i => rfl

/-- What a launch does to the session that the replaced run has left. -/
theorem launch_eq (hne : s.scheduler.current? ≠ some (s.scheduler.started + 1))
    (files : List FileUri) (pause : Nat) (isOnDemand : Bool) (canceller? : Option Canceller) :
    s.launch files pause isOnDemand canceller? = { s with
      scheduler := s.scheduler.start (.ofFiles files s.sequence pause isOnDemand) canceller?.isSome
      inFlight? := some ⟨s.scheduler.started + 1, files⟩
      history := s.stamped (
        canceller?.elim [] (fun canceller => [.cancelled (s.scheduler.started + 1) canceller]) ++
        [.started (s.scheduler.started + 1) files]) ++ s.history } := by
  have hreports := Scheduler.reportsSince_start s.scheduler
    (.ofFiles files s.sequence pause isOnDemand) canceller?.isSome hne
  unfold launch
  cases canceller? with
  | none =>
    rw [adopt_eq fun report hm => by rw [hreports report hm]; decide]
    rfl
  | some canceller =>
    rw [adopt_eq fun report hm => by rw [hreports report hm]; decide]
    rfl

theorem launched_launch (hv : s.scheduler.Valid)
    (hcurrent : ∀ i, s.inFlight? = some i → s.scheduler.current? = some i.run)
    (files : List FileUri) (pause : Nat) (isOnDemand : Bool) (canceller? : Option Canceller) :
    Launched s (s.takeOver.launch files pause isOnDemand canceller?) files pause isOnDemand
      canceller? := by
  have hscheduler := scheduler_takeOver s
  have hstarted : s.takeOver.scheduler.started = s.scheduler.started := by
    rw [hscheduler]
    cases s.inFlight? <;> simp
  have hcur : s.takeOver.scheduler.current? = s.scheduler.current? := by
    rw [hscheduler]
    cases s.inFlight? <;> simp
  have hrun : ∀ m, s.takeOver.scheduler.run? m = (s.scheduler.run? m).map fun r =>
      { r with cancelled := r.cancelled || s.inFlight?.any (·.run = m) } := by
    intro m
    rw [hscheduler]
    cases s.inFlight? with
    | none => simp
    | some i =>
      rw [Option.elim_some, Scheduler.run?_cancel]
      by_cases hm : m = i.run
      · simp [hm]
      · simp [hm, Ne.symm hm]
  have hvalid : s.takeOver.scheduler.Valid := by
    rw [hscheduler]
    cases hi : s.inFlight? with
    | none => exact hv
    | some i =>
      obtain ⟨r, hr⟩ := Option.isSome_iff_exists.mp (hv.latest (hcurrent i hi)).2
      exact hv.update hr rfl rfl
  have hsequence : s.takeOver.sequence = s.sequence := by rw [takeOver_eq]
  have hnow : s.takeOver.now = s.now := by rw [takeOver_eq]
  have hstart := fun walk cancelled m =>
    Scheduler.run?_start s.takeOver.scheduler walk cancelled m hvalid.current_ne
  rw [launch_eq hvalid.current_ne files pause isOnDemand canceller?, hsequence]
  exact {
    toOnlyRuns := by
      rw [takeOver_eq]
      exact .of_eq rfl
    new := by
      rw [← hstarted, hstart, if_pos rfl]
    old := by
      intro m hm
      rw [← hstarted] at hm
      rw [hstart, if_neg hm, hcur, hrun, Option.map_map]
      split
      · rename_i h
        congr 1
        funext r
        simp [retired, h]
      · rename_i h
        congr 1
        funext r
        simp [retired, h]
    started := by rw [Scheduler.started_start, hstarted]
    current? := by rw [Scheduler.current?_start, hstarted]
    valid := hvalid.start ..
    inFlight? := by rw [hstarted]
    history := by
      rw [hstarted, history_takeOver]
      simp [stamped, launchFacts, hnow] }

/-- A run starts exactly if there are files for it, given that no run in flight has finished all of
its files. -/
theorem startRun_cases (hv : s.scheduler.Valid)
    (hcurrent : ∀ i, s.inFlight? = some i → s.scheduler.current? = some i.run)
    (hunfinished : ∀ i, s.inFlight? = some i → s.unfinished i ≠ [])
    (files : List FileUri) (withOpenFiles : Bool) (pause : Nat) (isOnDemand : Bool)
    (canceller? : Option Canceller) :
    (files ++ s.inFlight ++ (if withOpenFiles then s.workspace.openFiles else []) = [] ∧
      s.inFlight? = none ∧ s.startRun files withOpenFiles pause isOnDemand canceller? = s) ∨
    (files ++ s.inFlight ++ (if withOpenFiles then s.workspace.openFiles else []) ≠ [] ∧
      Launched s (s.startRun files withOpenFiles pause isOnDemand canceller?)
        (files ++ s.inFlight ++ if withOpenFiles then s.workspace.openFiles else []).eraseDups
        pause isOnDemand canceller?) := by
  generalize hall : files ++ s.inFlight ++
    (if withOpenFiles then s.workspace.openFiles else []) = all
  unfold startRun
  rw [hall]
  cases all with
  | nil =>
    left
    have hnone : s.inFlight? = none := by
      cases h : s.inFlight? with
      | none => rfl
      | some i =>
        have hflight : s.inFlight = [] := by simp_all
        exact absurd (by simpa [inFlight, h] using hflight) (hunfinished i h)
    refine ⟨rfl, hnone, ?_⟩
    simp [takeOver, hnone]
  | cons uri all =>
    right
    refine ⟨List.cons_ne_nil _ _, ?_⟩
    rw [List.eraseDups_cons]
    exact launched_launch hv hcurrent ..

-- ---------------------------------------------------------------------------
-- Notes
-- ---------------------------------------------------------------------------

/-- Facts come on top of the history. None of them hands over findings, and a file that they tell to
be gone is gone. -/
def Notes (s s' : Session) : Prop :=
  ∃ facts, s'.history = s.stamped facts ++ s.history ∧
    (∀ n uri kind, .handedOver n uri kind ∉ facts) ∧
    ∀ n uri, .skipped n uri ∈ facts → s.workspace.document? uri = none

theorem Launched.notes {t : Session} {files : List FileUri} {pause : Nat} {isOnDemand : Bool}
    {canceller? : Option Canceller} (hl : Launched t s' files pause isOnDemand canceller?)
    (facts : List Fact) (hhistory : t.history = s.stamped facts ++ s.history) (hnow : t.now = s.now)
    (hhandedOver : ∀ n uri kind, .handedOver n uri kind ∉ facts)
    (hskipped : ∀ n uri, .skipped n uri ∉ facts) : s.Notes s' := by
  refine ⟨_, hl.history_eq hhistory hnow, ?_, ?_⟩
  · intro n uri kind hm
    obtain hm | hm := List.mem_append.mp hm
    · obtain he | ⟨m, c, he⟩ := mem_launchFacts hm <;> cases he
    · exact hhandedOver n uri kind hm
  · intro n uri hm
    obtain hm | hm := List.mem_append.mp hm
    · obtain he | ⟨m, c, he⟩ := mem_launchFacts hm <;> cases he
    · exact absurd hm (hskipped n uri)

-- ---------------------------------------------------------------------------
-- The end
-- ---------------------------------------------------------------------------

theorem foldl_hear_none (reports : List (Report Walk)) : reports.foldl hear none = none := by
  induction reports with
  | nil => rfl
  | cons report reports ih => simpa [hear] using ih

theorem shutDown_again (h : s.isShutDown = true) : s.shutDown = s := by simp [shutDown, h]

/-- What the end of a session changes. -/
theorem shutDown_eq (h : s.isShutDown = false) : s.shutDown = { s with
    isShutDown := true
    pending := []
    debounce? := none
    scheduler := (s.scheduler.cancelAll fun walk => !walk.isOnDemand).stop
    inFlight? := none
    diagnostics := .empty
    awaitedBuild? := none
    history := (s.now, .ended) :: s.history } := by
  unfold shutDown adopt
  rw [h, if_neg (by decide)]
  simp only [foldl_hear_none]
  rfl

theorem run?_shutDown (h : s.isShutDown = false) (hr : s.shutDown.scheduler.run? n = some r) :
    ∃ r', s.scheduler.run? n = some r' ∧ r.action = r'.action := by
  rw [shutDown_eq h, Scheduler.run?_stop, Scheduler.run?_cancelAll] at hr
  split at hr
  all_goals
    cases hr' : s.scheduler.run? n with
    | none => simp [hr'] at hr
    | some r' =>
      simp only [hr', Option.map_some, Option.some.injEq] at hr
      subst hr
      exact ⟨r', rfl, rfl⟩

end Session

end ElmLint

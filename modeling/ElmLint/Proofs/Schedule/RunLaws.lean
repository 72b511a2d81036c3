import ElmLint.Schedule.Scheduler

/-!
# What the operations of a scheduler do to its runs

Each operation is described by what a look-up of any run gives after it. `Scheduler.Valid` holds of
every scheduler that the operations can bring about: only the latest run can be active, and a run
is active exactly as long as it has not been reported.
-/

namespace ElmLint

variable {α : Type} {n m : Nat} {r r' : Run α}

/-- Where a run stands that asks at the time `now` for its next step. -/
def Continuation.stage (now : Nat) : Continuation → Stage
  | .immediate => .ready
  | .delay ms => .resting (now + ms)

namespace Run

@[simp] theorem isActive_ofAction (action : α) (cancelled : Bool) :
    (ofAction action cancelled).isActive = true := rfl

/-- The run after its task was taken off and `outcome` was reported, unless another was before. -/
def ended (r : Run α) (outcome : Outcome) : Run α :=
  { r with stage := .over, outcome? := r.outcome?.or (some outcome) }

@[simp] theorem isActive_ended (r : Run α) (outcome : Outcome) :
    (r.ended outcome).isActive = false := rfl

/-- The run after a step that has come to `action` and asks for `next`. -/
def proceeded (r : Run α) (now : Nat) (action : α) : Option Continuation → Run α
  | none => { r with action }.ended .completed
  | some next => { r with action, stage := next.stage now }

@[simp] theorem action_proceeded (r : Run α) (now : Nat) (action : α)
    (next : Option Continuation) : (r.proceeded now action next).action = action := by
  cases next <;> rfl

@[simp] theorem cancelled_proceeded (r : Run α) (now : Nat) (action : α)
    (next : Option Continuation) : (r.proceeded now action next).cancelled = r.cancelled := by
  cases next <;> rfl

/-- A run goes on exactly if it asks for a step. -/
@[simp] theorem isActive_proceeded (r : Run α) (now : Nat) (action : α)
    (next : Option Continuation) : (r.proceeded now action next).isActive = next.isSome := by
  cases next with
  | none => rfl
  | some next => cases next <;> rfl

theorem isDue_active (h : r.isDue now = true) : r.isActive = true := by
  unfold isDue at h
  split at h <;> simp_all [isActive]

end Run

namespace Scheduler

-- ---------------------------------------------------------------------------
-- Look-ups after an operation
-- ---------------------------------------------------------------------------

theorem run?_update (s : Scheduler α) (n other : Nat) (change : Run α → Run α) :
    (s.update n change).run? other = if other = n then (s.run? n).map change else s.run? other := by
  unfold update
  split
  · rename_i run hr
    simp [run?, Table.get?_put, show s.runs.get? n = some run from hr]
  · rename_i hr
    split
    · rename_i h; rw [h, hr, Option.map_none]
    · rfl

theorem run?_update_some {s : Scheduler α} (hr : s.run? n = some r) (change : Run α → Run α)
    (other : Nat) :
    (s.update n change).run? other = if other = n then some (change r) else s.run? other := by
  rw [run?_update, hr, Option.map_some]

@[simp] theorem started_update (s : Scheduler α) (n : Nat) (change : Run α → Run α) :
    (s.update n change).started = s.started := by
  unfold update; split <;> rfl

@[simp] theorem current?_update (s : Scheduler α) (n : Nat) (change : Run α → Run α) :
    (s.update n change).current? = s.current? := by
  unfold update; split <;> rfl

@[simp] theorem reports_update (s : Scheduler α) (n : Nat) (change : Run α → Run α) :
    (s.update n change).reports = s.reports := by
  unfold update; split <;> rfl

theorem run?_report (s : Scheduler α) (n other : Nat) (outcome : Outcome) :
    (s.report n outcome).run? other = if other = n
      then (s.run? n).map fun run => { run with outcome? := run.outcome?.or (some outcome) }
      else s.run? other := by
  unfold report
  cases hr : s.run? n with
  | none =>
    simp only [Option.map_none]
    split
    · rename_i h; rw [h, hr]
    · rfl
  | some run =>
    cases ho : run.outcome? with
    | none =>
      simp only [Option.isNone_none, ↓reduceIte, ho, Option.map_some, Option.none_or]
      change (s.update n _).run? other = _
      rw [run?_update, hr, Option.map_some]
    | some told =>
      simp only [Option.isNone_some, Bool.false_eq_true, ↓reduceIte, ho, Option.map_some,
        Option.some_or]
      split
      · rename_i h
        rw [h, hr, ← ho]
      · rfl

@[simp] theorem started_report (s : Scheduler α) (n : Nat) (outcome : Outcome) :
    (s.report n outcome).started = s.started := by
  unfold report; split
  · split <;> simp
  · rfl

@[simp] theorem current?_report (s : Scheduler α) (n : Nat) (outcome : Outcome) :
    (s.report n outcome).current? = s.current? := by
  unfold report; split
  · split <;> simp
  · rfl

theorem run?_finish (s : Scheduler α) (n other : Nat) (outcome : Outcome) :
    (s.finish n outcome).run? other =
      if other = n then (s.run? n).map (·.ended outcome) else s.run? other := by
  unfold finish
  rw [run?_report]
  split
  · rw [run?_update]
    simp [Run.ended, Function.comp_def]
  · rename_i h; rw [run?_update, if_neg h]

theorem run?_finish_some {s : Scheduler α} (hr : s.run? n = some r) (outcome : Outcome)
    (other : Nat) :
    (s.finish n outcome).run? other =
      if other = n then some (r.ended outcome) else s.run? other := by
  rw [run?_finish, hr, Option.map_some]

@[simp] theorem started_finish (s : Scheduler α) (n : Nat) (outcome : Outcome) :
    (s.finish n outcome).started = s.started := by simp [finish]

@[simp] theorem current?_finish (s : Scheduler α) (n : Nat) (outcome : Outcome) :
    (s.finish n outcome).current? = s.current? := by simp [finish]

/-- Finishing a run that has not been reported reports it; otherwise nothing is reported. -/
theorem reports_finish (s : Scheduler α) (n : Nat) (outcome : Outcome) :
    (s.finish n outcome).reports = match s.run? n with
      | some run => if run.outcome?.isNone then ⟨n, run.action, outcome⟩ :: s.reports else s.reports
      | none => s.reports := by
  unfold finish report
  rw [run?_update, if_pos rfl]
  cases s.run? n with
  | none => simp
  | some run => by_cases h : run.outcome?.isNone <;> simp [h]

theorem run?_cancel (s : Scheduler α) (n other : Nat) :
    (s.cancel n).run? other =
      if other = n then (s.run? n).map fun run => { run with cancelled := true }
      else s.run? other := run?_update ..

@[simp] theorem started_cancel (s : Scheduler α) (n : Nat) :
    (s.cancel n).started = s.started := started_update ..

@[simp] theorem current?_cancel (s : Scheduler α) (n : Nat) :
    (s.cancel n).current? = s.current? := current?_update ..

@[simp] theorem reports_cancel (s : Scheduler α) (n : Nat) :
    (s.cancel n).reports = s.reports := reports_update ..

theorem run?_cancelAll (s : Scheduler α) (sort : α → Bool) (n : Nat) :
    (s.cancelAll sort).run? n =
      (s.run? n).map fun run => { run with cancelled := run.cancelled || sort run.action } :=
  Table.get?_mapValues ..

theorem run?_start (s : Scheduler α) (action : α) (cancelled : Bool) (n : Nat)
    (h : s.current? ≠ some (s.started + 1)) :
    (s.start action cancelled).run? n =
      if n = s.started + 1 then some (.ofAction action cancelled)
      else if s.current? = some n then (s.run? n).map (·.ended .superseded)
      else s.run? n := by
  have hspawn : ∀ n, (⟨s.started + 1, some (s.started + 1),
      s.runs.put (s.started + 1) (.ofAction action cancelled), s.reports⟩ : Scheduler α).run? n =
        if n = s.started + 1 then some (.ofAction action cancelled) else s.run? n :=
    fun n => Table.get?_put ..
  unfold start
  cases hc : s.current? with
  | none => simp [hspawn]
  | some previous =>
    have hne : previous ≠ s.started + 1 := fun he => h (he ▸ hc)
    simp only [run?_finish, hspawn, if_neg hne, Option.some.injEq]
    by_cases h1 : n = previous
    · subst h1; simp [hne]
    · simp [h1, Ne.symm h1]

@[simp] theorem started_start (s : Scheduler α) (action : α) (cancelled : Bool) :
    (s.start action cancelled).started = s.started + 1 := by
  unfold start; split <;> simp

@[simp] theorem current?_start (s : Scheduler α) (action : α) (cancelled : Bool) :
    (s.start action cancelled).current? = some (s.started + 1) := by
  unfold start; split <;> simp

theorem run?_stop (s : Scheduler α) (n : Nat) :
    s.stop.run? n =
      if s.current? = some n then (s.run? n).map (·.ended .cancelled) else s.run? n := by
  unfold stop
  cases hc : s.current? with
  | none => simp
  | some current =>
    change (s.finish current .cancelled).run? n = _
    rw [run?_finish]
    by_cases h : n = current
    · subst h; simp
    · simp [h, Ne.symm h]

@[simp] theorem started_stop (s : Scheduler α) : s.stop.started = s.started := by
  unfold stop; split <;> simp

@[simp] theorem current?_stop (s : Scheduler α) : s.stop.current? = none := by
  unfold stop; split
  · rfl
  · assumption

variable {s : Scheduler α}

theorem working?_eq_some :
    s.working? n = some r ↔ s.run? n = some r ∧ r.stage = .working := by
  simp [working?, Option.filter_eq_some_iff]

theorem proceed_some (h : s.working? n = some r) (now : Nat) (action : α)
    (next : Continuation) : s.proceed n now action (some next) =
      s.update n fun run => { run with action, stage := next.stage now } := by
  unfold proceed
  rw [h]
  cases next <;> rfl

theorem proceed_none (h : s.working? n = some r) (now : Nat) (action : α) :
    s.proceed n now action none =
      (s.update n fun run => { run with action }).finish n .completed := by
  unfold proceed
  rw [h]

theorem run?_proceed (h : s.working? n = some r) (now : Nat) (action : α)
    (next : Option Continuation) (m : Nat) : (s.proceed n now action next).run? m =
      if m = n then some (r.proceeded now action next) else s.run? m := by
  have hr := (working?_eq_some.mp h).1
  cases next with
  | none =>
    rw [proceed_none h, run?_finish, run?_update, run?_update, hr]
    split <;> simp [Run.proceeded]
  | some next =>
    rw [proceed_some h, run?_update, hr]
    rfl

theorem started_proceed (h : s.working? n = some r) (now : Nat) (action : α)
    (next : Option Continuation) : (s.proceed n now action next).started = s.started := by
  cases next with
  | none => simp [proceed_none h]
  | some next => simp [proceed_some h]

theorem current?_proceed (h : s.working? n = some r) (now : Nat) (action : α)
    (next : Option Continuation) : (s.proceed n now action next).current? = s.current? := by
  cases next with
  | none => simp [proceed_none h]
  | some next => simp [proceed_some h]

-- ---------------------------------------------------------------------------
-- Reports
-- ---------------------------------------------------------------------------

theorem reportsSince_eq_nil {later earlier : Scheduler α} (h : later.reports = earlier.reports) :
    later.reportsSince earlier = [] := by
  simp [reportsSince, h]

theorem reportsSince_eq_singleton {later earlier : Scheduler α} {report : Report α}
    (h : later.reports = report :: earlier.reports) : later.reportsSince earlier = [report] := by
  simp [reportsSince, h]

/-- A step that asks for another reports nothing, and one that does not reports that the run has
completed. -/
theorem reportsSince_proceed (h : s.working? n = some r) (ho : r.outcome? = none) (now : Nat)
    (action : α) (next : Option Continuation) :
    (s.proceed n now action next).reportsSince s = match next with
      | none => [⟨n, action, .completed⟩]
      | some _ => [] := by
  have hr := (working?_eq_some.mp h).1
  cases next with
  | none =>
    apply reportsSince_eq_singleton
    rw [proceed_none h, reports_finish, run?_update, if_pos rfl, hr]
    simp [ho]
  | some next =>
    apply reportsSince_eq_nil
    simp [proceed_some h]

/-- What is to be reported of a run that is finished: nothing if it has been reported. -/
def reportFor (s : Scheduler α) (n : Nat) (outcome : Outcome) : List (Report α) :=
  match s.run? n with
  | some run => if run.outcome? = none then [⟨n, run.action, outcome⟩] else []
  | none => []

theorem mem_reportFor {report : Report α} {outcome : Outcome}
    (h : report ∈ s.reportFor n outcome) : report.run = n ∧ report.outcome = outcome := by
  unfold reportFor at h
  split at h
  · split at h
    · rw [List.mem_singleton.mp h]
      exact ⟨rfl, rfl⟩
    · cases h
  · cases h

theorem reportFor_of_unreported (hr : s.run? n = some r) (ho : r.outcome? = none)
    (outcome : Outcome) : s.reportFor n outcome = [⟨n, r.action, outcome⟩] := by
  rw [reportFor, hr]
  exact if_pos ho

theorem reportsSince_finish (s : Scheduler α) (n : Nat) (outcome : Outcome) :
    (s.finish n outcome).reportsSince s = s.reportFor n outcome := by
  unfold reportFor
  split
  · rename_i run hr
    split
    · rename_i ho
      apply reportsSince_eq_singleton
      simp [reports_finish, hr, ho]
    · rename_i ho
      apply reportsSince_eq_nil
      simp [reports_finish, hr, ho]
  · rename_i hr
    apply reportsSince_eq_nil
    simp [reports_finish, hr]

/-- What is to be reported of the current run when it is taken off. -/
def closing (s : Scheduler α) (outcome : Outcome) : List (Report α) :=
  s.current?.elim [] (s.reportFor · outcome)

theorem mem_closing {report : Report α} {outcome : Outcome} (h : report ∈ s.closing outcome) :
    s.current? = some report.run ∧ report.outcome = outcome := by
  unfold closing at h
  cases hc : s.current? with
  | none =>
    rw [hc] at h
    cases h
  | some n =>
    rw [hc] at h
    obtain ⟨hrun, houtcome⟩ := mem_reportFor h
    exact ⟨congrArg some hrun.symm, houtcome⟩

theorem reportsSince_stop (s : Scheduler α) : s.stop.reportsSince s = s.closing .cancelled := by
  unfold stop closing
  cases hc : s.current? with
  | none => exact reportsSince_eq_nil rfl
  | some current => exact s.reportsSince_finish current .cancelled

/-- A run that takes the place of another is the reason to report that one. -/
theorem reportsSince_start_eq (s : Scheduler α) (action : α) (cancelled : Bool)
    (h : s.current? ≠ some (s.started + 1)) :
    (s.start action cancelled).reportsSince s = s.closing .superseded := by
  unfold start closing
  cases hc : s.current? with
  | none => exact reportsSince_eq_nil rfl
  | some previous =>
    have hne : previous ≠ s.started + 1 := fun he => h (he ▸ hc)
    let spawned : Scheduler α := ⟨s.started + 1, some (s.started + 1),
      s.runs.put (s.started + 1) (.ofAction action cancelled), s.reports⟩
    have hprevious : spawned.run? previous = s.run? previous :=
      (Table.get?_put ..).trans (if_neg hne)
    change (spawned.finish previous .superseded).reportsSince spawned = _
    rw [reportsSince_finish, reportFor, hprevious]
    rfl

/-- What is reported when a run takes the place of another is at most that it did. -/
theorem reportsSince_start (s : Scheduler α) (action : α) (cancelled : Bool)
    (h : s.current? ≠ some (s.started + 1)) :
    ∀ report ∈ (s.start action cancelled).reportsSince s, report.outcome = .superseded := by
  rw [reportsSince_start_eq s action cancelled h]
  exact fun report hm => (mem_closing hm).2

-- ---------------------------------------------------------------------------
-- Valid schedulers
-- ---------------------------------------------------------------------------

/-- At most the latest run is active, and a run has been reported exactly when it is not. -/
structure Valid (s : Scheduler α) : Prop where
  numbered : ∀ {n r}, s.run? n = some r → n ≤ s.started
  latest : ∀ {n}, s.current? = some n → n = s.started ∧ (s.run? n).isSome
  active : ∀ {n r}, s.run? n = some r → r.isActive = true → s.current? = some n
  reported : ∀ {n r}, s.run? n = some r → (r.outcome? = none ↔ r.isActive = true)

theorem idle_valid : (idle : Scheduler α).Valid where
  numbered h := nomatch h
  latest h := nomatch h
  active h := nomatch h
  reported h := nomatch h

namespace Valid

theorem current_ne (h : s.Valid) : s.current? ≠ some (s.started + 1) := by
  intro hc
  have := (h.latest hc).1
  omega

/-- There is at most one active run. -/
theorem active_unique (h : s.Valid) (hr : s.run? n = some r) (ha : r.isActive = true)
    (hr' : s.run? m = some r') (ha' : r'.isActive = true) : n = m :=
  Option.some.inj ((h.active hr ha).symm.trans (h.active hr' ha'))

/-- A change of a run that leaves it active or not, and reported or not. -/
theorem update (h : s.Valid) (hr : s.run? n = some r)
    (ha : (change r).isActive = r.isActive) (ho : (change r).outcome? = r.outcome?) :
    (s.update n change).Valid where
  numbered {other r'} hr' := by
    rw [run?_update] at hr'
    split at hr'
    · rename_i he; subst he; simpa using h.numbered hr
    · simpa using h.numbered hr'
  latest {other} hc := by
    rw [current?_update] at hc
    obtain ⟨hn, hs⟩ := h.latest hc
    refine ⟨by simpa using hn, ?_⟩
    rw [run?_update]
    split
    · rw [hr]; rfl
    · exact hs
  active {other r'} hr' ha' := by
    rw [run?_update] at hr'
    rw [current?_update]
    split at hr'
    · rename_i he; subst he
      rw [hr, Option.map_some, Option.some.injEq] at hr'
      subst hr'
      exact h.active hr (ha ▸ ha')
    · exact h.active hr' ha'
  reported {other r'} hr' := by
    rw [run?_update] at hr'
    split at hr'
    · rename_i he; subst he
      rw [hr, Option.map_some, Option.some.injEq] at hr'
      subst hr'
      rw [ha, ho]
      exact h.reported hr
    · exact h.reported hr'

theorem proceed (h : s.Valid) (hw : s.working? n = some r) (now : Nat) (action : α)
    (next : Option Continuation) : (s.proceed n now action next).Valid where
  numbered {m r'} hr' := by
    rw [run?_proceed hw] at hr'
    rw [started_proceed hw]
    split at hr'
    · rename_i he; exact he ▸ h.numbered (working?_eq_some.mp hw).1
    · exact h.numbered hr'
  latest {m} hc := by
    rw [current?_proceed hw] at hc
    rw [started_proceed hw, run?_proceed hw]
    refine ⟨(h.latest hc).1, ?_⟩
    split
    · rfl
    · exact (h.latest hc).2
  active {m r'} hr' ha' := by
    obtain ⟨hr, hst⟩ := working?_eq_some.mp hw
    rw [run?_proceed hw] at hr'
    rw [current?_proceed hw]
    split at hr'
    · rename_i he
      exact he ▸ h.active hr (by simp [Run.isActive, hst])
    · exact h.active hr' ha'
  reported {m r'} hr' := by
    obtain ⟨hr, hst⟩ := working?_eq_some.mp hw
    have ho : r.outcome? = none := (h.reported hr).mpr (by simp [Run.isActive, hst])
    rw [run?_proceed hw] at hr'
    split at hr'
    · rw [Option.some.injEq] at hr'
      subst hr'
      rw [Run.isActive_proceeded]
      cases next <;> simp [Run.proceeded, Run.ended, ho]
    · exact h.reported hr'

theorem finish (h : s.Valid) (n : Nat) (outcome : Outcome) : (s.finish n outcome).Valid where
  numbered {other r'} hr' := by
    rw [run?_finish] at hr'
    rw [started_finish]
    split at hr'
    · rename_i he; subst he
      obtain ⟨r, hr, -⟩ := Option.map_eq_some_iff.mp hr'
      exact h.numbered hr
    · exact h.numbered hr'
  latest {other} hc := by
    rw [current?_finish] at hc
    obtain ⟨hn, hs⟩ := h.latest hc
    refine ⟨by simpa using hn, ?_⟩
    rw [run?_finish]
    split
    · rename_i he; subst he; simpa using hs
    · exact hs
  active {other r'} hr' ha' := by
    rw [run?_finish] at hr'
    rw [current?_finish]
    split at hr'
    · obtain ⟨r, -, rfl⟩ := Option.map_eq_some_iff.mp hr'
      simp at ha'
    · exact h.active hr' ha'
  reported {other r'} hr' := by
    rw [run?_finish] at hr'
    split at hr'
    · obtain ⟨r, -, rfl⟩ := Option.map_eq_some_iff.mp hr'
      cases ho : r.outcome? <;> simp [Run.ended, ho, Run.isActive]
    · exact h.reported hr'

theorem start (h : s.Valid) (action : α) (cancelled : Bool) :
    (s.start action cancelled).Valid where
  numbered {n r} hr := by
    rw [run?_start _ _ _ _ h.current_ne] at hr
    rw [started_start]
    split at hr
    · omega
    · split at hr
      · obtain ⟨r', hr', -⟩ := Option.map_eq_some_iff.mp hr
        exact Nat.le_succ_of_le (h.numbered hr')
      · exact Nat.le_succ_of_le (h.numbered hr)
  latest {n} hc := by
    rw [current?_start, Option.some.injEq] at hc
    subst hc
    simp [run?_start _ _ _ _ h.current_ne]
  active {n r} hr ha := by
    rw [run?_start _ _ _ _ h.current_ne] at hr
    rw [current?_start]
    split at hr
    · rename_i he; rw [he]
    · split at hr
      · obtain ⟨r', -, rfl⟩ := Option.map_eq_some_iff.mp hr
        simp at ha
      · -- any other run was not active before either
        rename_i hne
        exact absurd (h.active hr ha) hne
  reported {n r} hr := by
    rw [run?_start _ _ _ _ h.current_ne] at hr
    split at hr
    · cases hr; simp [Run.ofAction, Run.isActive]
    · split at hr
      · obtain ⟨r', -, rfl⟩ := Option.map_eq_some_iff.mp hr
        cases ho : r'.outcome? <;> simp [Run.ended, ho, Run.isActive]
      · exact h.reported hr

theorem stop (h : s.Valid) : s.stop.Valid where
  numbered {n r} hr := by
    rw [run?_stop] at hr
    rw [started_stop]
    split at hr
    · obtain ⟨r', hr', -⟩ := Option.map_eq_some_iff.mp hr
      exact h.numbered hr'
    · exact h.numbered hr
  latest {n} hc := by simp at hc
  active {n r} hr ha := by
    rw [run?_stop] at hr
    split at hr
    · obtain ⟨r', -, rfl⟩ := Option.map_eq_some_iff.mp hr
      simp at ha
    · rename_i hne
      exact absurd (h.active hr ha) hne
  reported {n r} hr := by
    rw [run?_stop] at hr
    split at hr
    · obtain ⟨r', -, rfl⟩ := Option.map_eq_some_iff.mp hr
      cases ho : r'.outcome? <;> simp [Run.ended, ho, Run.isActive]
    · exact h.reported hr

theorem cancelAll (h : s.Valid) (sort : α → Bool) : (s.cancelAll sort).Valid where
  numbered {n r} hr := by
    rw [run?_cancelAll] at hr
    obtain ⟨r', hr', -⟩ := Option.map_eq_some_iff.mp hr
    exact h.numbered hr'
  latest {n} hc := by
    obtain ⟨hn, hs⟩ := h.latest (show s.current? = some n from hc)
    refine ⟨hn, ?_⟩
    rw [run?_cancelAll]
    simpa using hs
  active {n r} hr ha := by
    rw [run?_cancelAll] at hr
    obtain ⟨r', hr', rfl⟩ := Option.map_eq_some_iff.mp hr
    exact h.active hr' ha
  reported {n r} hr := by
    rw [run?_cancelAll] at hr
    obtain ⟨r', hr', rfl⟩ := Option.map_eq_some_iff.mp hr
    have hreported := h.reported hr'
    exact hreported

end Valid

end Scheduler

end ElmLint

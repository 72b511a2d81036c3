import ElmLint.Proofs.Schedule.Course

/-!
# The protocol of runs

Whatever happens to a scheduler in whatever order, its log tells the same of every run as the run
itself (`Agrees`): each run is reported as it has ended and when it has ended, and steps begin only
when they may.
-/

namespace ElmLint

namespace Schedule

variable {α : Type} {log : Log} {fact : Fact} {n m k time now : Nat} {r : Run α}
  {outcome : Outcome}

-- ---------------------------------------------------------------------------
-- What a log tells of one run
-- ---------------------------------------------------------------------------

/-- The log tells of a run what is true of it at the time `now`. -/
structure Told (log : Log) (now n : Nat) (r : Run α) : Prop where
  started : HasStarted n log
  fate : fate? n log = r.outcome?
  reports : reportsOf n log = r.outcome?.toList
  cancelled : HasCancelled n log ↔ r.cancelled = true
  inStep : IsInStep n log ↔ r.stage = .working
  rested : ∀ time ms, (time, .stepped n (some (.delay ms))) ∈ log → r.isActive = true →
    time + ms ≤ now ∨ ∃ wake, r.stage = .resting wake ∧ time + ms ≤ wake
  reported : r.outcome? = none ↔ r.isActive = true

namespace Told

/-- A fact that names another run, and ends no run that has not ended, changes nothing. -/
theorem other (h : Told log now n r) (hother : fact.isAbout n = false)
    (hends : r.outcome? = none → fact.ends? n = none) : Told ((time, fact) :: log) now n r where
  started := hasStarted_cons_of_hasStarted h.started _
  fate := by
    rw [fate?_cons h.started, h.fate]
    cases ho : r.outcome? with
    | none => rw [hends ho]; rfl
    | some outcome => rfl
  reports := (reportsOf_cons hother).trans h.reports
  cancelled := by
    rw [hasCancelled_cons, h.cancelled]
    rintro rfl
    exact absurd rfl (of_decide_eq_false hother)
  inStep := (isInStep_cons hother).trans h.inStep
  rested time' ms hm := by
    obtain _ | ⟨_, hm⟩ := hm
    · exact absurd rfl (of_decide_eq_false hother)
    · exact h.rested time' ms hm
  reported := h.reported

theorem others (h : Told log now n r) {facts : List Fact}
    (hfacts : ∀ fact ∈ facts, fact.isAbout n = false ∧ (r.outcome? = none → fact.ends? n = none)) :
    Told (facts.map (time, ·) ++ log) now n r := by
  induction facts with
  | nil => exact h
  | cons fact facts ih =>
    obtain ⟨⟨hother, hends⟩, hfacts⟩ := List.forall_mem_cons.mp hfacts
    exact (ih hfacts).other hother hends

/-- A run that has not ended ends by the fact, and that is reported. -/
theorem ended (h : Told log now n r) (ho : r.outcome? = none) (hends : fact.ends? n = some outcome)
    (action : α) : Told ((time, .reported n outcome) :: (time, fact) :: log) now n
      ({ r with action }.ended outcome) where
  started := hasStarted_cons_of_hasStarted (hasStarted_cons_of_hasStarted h.started _) _
  fate := by
    rw [fate?_cons (hasStarted_cons_of_hasStarted h.started _), fate?_cons h.started, h.fate, ho,
      hends]
    simp [Run.ended]
  reports := by
    have hfact : reportsOf n ((time, fact) :: log) = reportsOf n log := by
      cases fact with
      | reported => cases hends
      | _ => rfl
    rw [reportsOf, if_pos rfl, hfact, h.reports, ho]
    simp [Run.ended]
  cancelled := by
    have hne : fact ≠ .cancelled n := by
      rintro rfl
      cases hends
    exact (hasCancelled_cons (by simp)).trans ((hasCancelled_cons hne).trans h.cancelled)
  inStep := by simp [IsInStep, Run.ended]
  rested _ _ _ hactive := by simp at hactive
  reported := by simp [Run.ended, ho, Run.isActive]

/-- A fact that names another run ends the run, unless it has ended before, and that is reported. -/
theorem replaced (h : Told log now n r) (time : Nat) (hother : fact.isAbout n = false)
    (hends : fact.ends? n = some outcome) :
    Told ((if r.outcome? = none then [.reported n outcome, fact] else [fact]).map (time, ·) ++ log)
      now n (r.ended outcome) := by
  split
  · rename_i ho
    exact h.ended ho hends r.action
  · rename_i ho
    have hover : r.stage = .over := by
      have hactive := mt h.reported.mpr ho
      simpa [Run.isActive] using hactive
    have hsame : r.ended outcome = r := by
      obtain ⟨action, cancelled, stage, outcome?⟩ := r
      cases outcome? with
      | none => exact absurd rfl ho
      | some told => simp_all [Run.ended]
    rw [hsame]
    exact h.other hother fun he => absurd he ho

theorem cancel (h : Told log now n r) :
    Told ((time, .cancelled n) :: log) now n { r with cancelled := true } where
  started := hasStarted_cons_of_hasStarted h.started _
  fate := by
    rw [fate?_cons h.started, h.fate]
    exact Option.or_none
  reports := h.reports
  cancelled := iff_of_true ⟨time, .head _⟩ rfl
  inStep := h.inStep
  rested time' ms hm := by
    obtain _ | ⟨_, hm⟩ := hm
    exact h.rested time' ms hm
  reported := h.reported

/-- When a run is due, its pauses are over. -/
theorem rested_of_isDue (h : Told log now n r) (hd : r.isDue now = true)
    (hc : r.cancelled = false) {ms : Nat} (hm : (time, .stepped n (some (.delay ms))) ∈ log) :
    time + ms ≤ now := by
  obtain hle | ⟨wake, hstage, hle⟩ := h.rested time ms hm (Run.isDue_active hd)
  · exact hle
  · have hwake : wake ≤ now := by simpa [Run.isDue, hstage, hc] using hd
    exact Nat.le_trans hle hwake

theorem begin (h : Told log now n r) (hd : r.isDue now = true) (hc : r.cancelled = false) :
    Told ((time, .begun n) :: log) now n { r with stage := .working } where
  started := hasStarted_cons_of_hasStarted h.started _
  fate := by
    rw [fate?_cons h.started, h.fate]
    exact Option.or_none
  reports := h.reports
  cancelled := (hasCancelled_cons (by simp)).trans h.cancelled
  inStep := iff_of_true (.inl rfl) rfl
  rested time' ms hm _ := by
    obtain _ | ⟨_, hm⟩ := hm
    exact .inl (h.rested_of_isDue hd hc hm)
  reported := h.reported.trans (iff_of_true (Run.isDue_active hd) rfl)

/-- A step ends and asks for the next. -/
theorem step (h : Told log now n r) (hw : r.stage = .working) (action : α) (next : Continuation) :
    Told ((now, .stepped n (some next)) :: log) now n
      { r with action, stage := next.stage now } where
  started := hasStarted_cons_of_hasStarted h.started _
  fate := by
    rw [fate?_cons h.started, h.fate]
    exact Option.or_none
  reports := h.reports
  cancelled := (hasCancelled_cons (by simp)).trans h.cancelled
  inStep := by cases next <;> simp [IsInStep, Continuation.stage]
  rested time' ms hm _ := by
    obtain _ | ⟨_, hm⟩ := hm
    · exact .inr ⟨now + ms, rfl, Nat.le_refl _⟩
    · left
      obtain hle | ⟨wake, hstage, -⟩ := h.rested time' ms hm (by simp [Run.isActive, hw])
      · exact hle
      · rw [hw] at hstage
        cases hstage
  reported := by
    rw [h.reported]
    cases next <;> simp [Run.isActive, hw, Continuation.stage]

/-- A run starts of which nothing was known. -/
theorem fresh (h : ∀ entry ∈ log, entry.2.isAbout n = false) (action : α) (cancelled : Bool) :
    Told ((time, .started n) :: ((if cancelled then [.cancelled n] else []).map (time, ·) ++ log))
      now n (.ofAction action cancelled) := by
  obtain ⟨hstarted, -, hreports, hcancelled, hinStep, hstepped⟩ := unknown_of_not_isAbout h
  have hunstarted : ¬ HasStarted n
      ((if cancelled then [.cancelled n] else []).map (time, ·) ++ log) := by
    cases cancelled <;> simpa [HasStarted] using hstarted
  refine ⟨⟨time, .head _⟩, if_neg hunstarted, ?_, ?_, ?_, ?_, iff_of_true rfl rfl⟩
  · cases cancelled <;> exact hreports
  · cases cancelled
    · exact (hasCancelled_cons (by simp)).trans (iff_of_false hcancelled (by simp [Run.ofAction]))
    · exact iff_of_true ⟨time, .tail _ (.head _)⟩ rfl
  · cases cancelled <;> exact iff_of_false hinStep (by simp [Run.ofAction])
  · intro time' ms hm
    cases cancelled <;> simp [hstepped] at hm

/-- Time passes, and a run goes on resting. -/
theorem later (h : Told log now n r) (hle : now ≤ time) : Told log time n r :=
  { h with rested := fun time' ms hm ha =>
      (h.rested time' ms hm ha).imp_left fun hrested => Nat.le_trans hrested hle }

end Told

-- ---------------------------------------------------------------------------
-- What a log tells of a schedule
-- ---------------------------------------------------------------------------

/-- The log of a schedule tells of every run what is true of it. -/
structure Agrees (s : Schedule α) : Prop where
  valid : s.scheduler.Valid
  starts : starts s.log = s.scheduler.started
  latest : latest? s.log = s.scheduler.current?
  told : ∀ {n r}, s.scheduler.run? n = some r → Told s.log s.now n r
  untold : ∀ {n}, s.scheduler.run? n = none → ∀ entry ∈ s.log, entry.2.isAbout n = false
  numbered : Numbered s.log
  orderly : Orderly s.log

theorem orderly_cons (h : Orderly log) (hfact : fact.CanFollow time log) :
    Orderly ((time, fact) :: log) := by
  intro time' fact' earlier hsuffix
  obtain he | hsuffix := List.suffix_cons_iff.mp hsuffix
  · cases he
    exact hfact
  · exact h time' fact' earlier hsuffix

theorem orderly_append (h : Orderly log) {facts : List Fact}
    (hfacts : ∀ fact ∈ facts, ∀ log, fact.CanFollow time log) :
    Orderly (facts.map (time, ·) ++ log) := by
  induction facts with
  | nil => exact h
  | cons fact facts ih =>
    obtain ⟨hfact, hfacts⟩ := List.forall_mem_cons.mp hfacts
    exact orderly_cons (ih hfacts) (hfact _)

theorem numbered_cons (h : Numbered log) (hfact : ∀ n, fact = .started n → n = starts log + 1) :
    Numbered ((time, fact) :: log) := by
  intro time' n earlier hsuffix
  obtain he | hsuffix := List.suffix_cons_iff.mp hsuffix
  · cases he
    exact hfact n rfl
  · exact h time' n earlier hsuffix

/-- Plain facts change nothing but what is known of the runs that they name. -/
theorem plain_append (h : Numbered log) (time : Nat) {facts : List Fact}
    (hplain : ∀ fact ∈ facts, fact.isPlain = true) :
    starts (facts.map (time, ·) ++ log) = starts log ∧
    latest? (facts.map (time, ·) ++ log) = latest? log ∧
    Numbered (facts.map (time, ·) ++ log) := by
  induction facts with
  | nil => exact ⟨rfl, rfl, h⟩
  | cons fact facts ih =>
    obtain ⟨hfact, hfacts⟩ := List.forall_mem_cons.mp hplain
    obtain ⟨hstarts, hlatest, hnumbered⟩ := ih hfacts
    cases fact with
    | started | stopped => cases hfact
    | _ => exact ⟨hstarts, hlatest, numbered_cons hnumbered nofun⟩

/-- The current run is reported, unless it has been before. -/
def closing (s : Schedule α) (outcome : Outcome) : List Fact :=
  (s.scheduler.closing outcome).reverse.map fun report => .reported report.run report.outcome

theorem mem_closing {s : Schedule α} (h : fact ∈ s.closing outcome) :
    ∃ n, s.scheduler.current? = some n ∧ fact = .reported n outcome := by
  obtain ⟨report, hm, rfl⟩ := List.mem_map.mp h
  obtain ⟨hcurrent, houtcome⟩ := Scheduler.mem_closing (List.mem_reverse.mp hm)
  exact ⟨report.run, hcurrent, by rw [houtcome]⟩

theorem closing_append (s : Schedule α) (outcome : Outcome) (hnumbered : Numbered log)
    (horderly : Orderly log) :
    let closed := (s.closing outcome).map (s.now, ·) ++ log
    starts closed = starts log ∧ latest? closed = latest? log ∧ Numbered closed ∧
    Orderly closed := by
  intro closed
  have hplain : ∀ fact ∈ s.closing outcome, fact.isPlain = true := fun fact hm => by
    obtain ⟨n, -, rfl⟩ := mem_closing hm
    rfl
  have hfollow : ∀ fact ∈ s.closing outcome, ∀ log, fact.CanFollow s.now log := fun fact hm => by
    obtain ⟨n, -, rfl⟩ := mem_closing hm
    exact fun _ => trivial
  obtain ⟨hstarts, hlatest, hnumbered⟩ := plain_append hnumbered _ hplain
  exact ⟨hstarts, hlatest, hnumbered, orderly_append horderly hfollow⟩

variable {s s' : Schedule α} {r' : Run α}

theorem log_tell_of_reports {scheduler : Scheduler α}
    (h : scheduler.reports = s.scheduler.reports) (facts : List Fact) :
    (s.tell scheduler facts).log = facts.map (s.now, ·) ++ s.log := by
  simp [tell, Scheduler.reportsSince_eq_nil h]

theorem log_tell_of_report {scheduler : Scheduler α} {report : Report α}
    (h : scheduler.reportsSince s.scheduler = [report]) (facts : List Fact) :
    (s.tell scheduler facts).log =
      (.reported report.run report.outcome :: facts).map (s.now, ·) ++ s.log := by
  simp [tell, h]

namespace Agrees

theorem working_of_isInStep (h : s.Agrees) (hn : IsInStep n s.log) :
    ∃ r, s.scheduler.run? n = some r ∧ r.stage = .working := by
  cases hr : s.scheduler.run? n with
  | none => exact absurd hn (unknown_of_not_isAbout (h.untold hr)).2.2.2.2.1
  | some r => exact ⟨r, rfl, (h.told hr).inStep.mp hn⟩

/-- A step of a run may begin when the run is due and not cancelled. -/
theorem mayBegin (h : s.Agrees) (hr : s.scheduler.run? n = some r) (hd : r.isDue s.now = true)
    (hc : r.cancelled = false) : MayBegin n s.now s.log where
  latest := h.latest.trans (h.valid.active hr (Run.isDue_active hd))
  unreported := by
    rw [(h.told hr).reports, (h.told hr).reported.mpr (Run.isDue_active hd)]
    rfl
  uncancelled := by
    rw [(h.told hr).cancelled, hc]
    decide
  rested _ _ hm := (h.told hr).rested_of_isDue hd hc hm
  alone m := by
    intro hm
    obtain ⟨q, hq, hstage⟩ := h.working_of_isInStep hm
    -- the run of a step under way would be the one that is due, and no run is both
    have hsame : m = n := h.valid.active_unique hq (by simp [Run.isActive, hstage]) hr
      (Run.isDue_active hd)
    rw [← hsame, hq] at hr
    cases hr
    simp [Run.isDue, hstage] at hd

/-- Facts are noted of one run, and that run changes. -/
theorem noted (h : s.Agrees) (facts : List Fact)
    (hlog : s'.log = facts.map (s.now, ·) ++ s.log) (hnow : s'.now = s.now)
    (hplain : ∀ fact ∈ facts, fact.isPlain = true)
    (hother : ∀ n, n ≠ k → ∀ fact ∈ facts, fact.isAbout n = false)
    (hvalid : s'.scheduler.Valid) (hstarted : s'.scheduler.started = s.scheduler.started)
    (hcurrent : s'.scheduler.current? = s.scheduler.current?)
    (hruns : ∀ n, s'.scheduler.run? n = if n = k then some r' else s.scheduler.run? n)
    (htold : Told s'.log s'.now k r') (horderly : Orderly s'.log) : s'.Agrees := by
  obtain ⟨hstarts, hlatest, hnumbered⟩ := plain_append h.numbered _ hplain
  refine ⟨hvalid, ?_, ?_, ?_, ?_, ?_, horderly⟩
  · rw [hlog, hstarts, h.starts, hstarted]
  · rw [hlog, hlatest, h.latest, hcurrent]
  · intro n q hq
    rw [hruns] at hq
    split at hq
    · rename_i he
      cases hq
      exact he ▸ htold
    · rename_i hne
      rw [hlog, hnow]
      exact (h.told hq).others fun fact hf => ⟨hother n hne fact hf,
        fun _ => ends?_of_isPlain (hplain fact hf) (hother n hne fact hf)⟩
  · intro n hn entry hm
    rw [hruns] at hn
    split at hn
    · cases hn
    · rename_i hne
      rw [hlog] at hm
      obtain hm | hm := List.mem_append.mp hm
      · obtain ⟨fact, hf, rfl⟩ := List.mem_map.mp hm
        exact hother n hne fact hf
      · exact h.untold hn entry hm
  · rw [hlog]
    exact hnumbered

/-- The run ends by a fact that names it, and that is reported. -/
theorem finished (h : s.Agrees) {fact : Fact} (hr : s.scheduler.run? k = some r) (ho : r.outcome? = none)
    (hfact : fact.isAbout k = true) (hends : fact.ends? k = some outcome)
    (hfollow : fact.CanFollow s.now s.log) (action : α)
    (hlog : s'.log = [.reported k outcome, fact].map (s.now, ·) ++ s.log) (hnow : s'.now = s.now)
    (hvalid : s'.scheduler.Valid) (hstarted : s'.scheduler.started = s.scheduler.started)
    (hcurrent : s'.scheduler.current? = s.scheduler.current?)
    (hruns : ∀ n, s'.scheduler.run? n =
      if n = k then some ({ r with action }.ended outcome) else s.scheduler.run? n) :
    s'.Agrees := by
  have hnames : fact.isPlain = true ∧ ∀ n, n ≠ k → fact.isAbout n = false := by
    cases fact with
    | started m => simp_all [Fact.isAbout, Fact.ends?]
    | stopped => cases hfact
    | _ => simp_all [Fact.isAbout, Fact.isPlain, eq_comm]
  obtain ⟨hplain, hother⟩ := hnames
  have htold : Told s'.log s'.now k ({ r with action }.ended outcome) := by
    rw [hlog, hnow]
    exact (h.told hr).ended ho hends action
  have horderly : Orderly s'.log := by
    rw [hlog]
    exact orderly_cons (orderly_cons h.orderly hfollow) trivial
  refine h.noted [.reported k outcome, fact] hlog hnow ?_ ?_ hvalid hstarted hcurrent hruns htold
    horderly
  · rintro _ (_ | ⟨_, _ | ⟨_, ⟨⟩⟩⟩)
    · rfl
    · exact hplain
  · rintro n hne _ (_ | ⟨_, _ | ⟨_, ⟨⟩⟩⟩)
    · exact decide_eq_false (Ne.symm hne)
    · exact hother n hne

theorem cancel (h : s.Agrees) (k : Nat) : (s.cancel k).Agrees := by
  unfold Schedule.cancel
  cases hr : s.scheduler.run? k with
  | none => exact h
  | some r =>
    have hlog :=
      log_tell_of_reports (s := s) (Scheduler.reports_cancel s.scheduler k) [.cancelled k]
    have hruns := Scheduler.run?_update_some hr fun run => { run with cancelled := true }
    have htold : Told ((s.now, .cancelled k) :: s.log) s.now k { r with cancelled := true } :=
      (h.told hr).cancel
    refine h.noted [.cancelled k] hlog rfl (by simp [Fact.isPlain]) ?_
      (h.valid.update hr rfl rfl) (Scheduler.started_cancel ..) (Scheduler.current?_cancel ..)
      hruns (hlog ▸ htold) (hlog ▸ orderly_cons h.orderly trivial)
    intro n hne
    simpa [Fact.isAbout] using Ne.symm hne

theorem clock (h : s.Agrees) (time : Nat) :
    ({ s with now := max s.now time } : Schedule α).Agrees :=
  { h with told := fun hr => (h.told hr).later (Nat.le_max_left ..) }

theorem still (h : s.Agrees) : (s.tell s.scheduler []).Agrees := by
  rw [tell, Scheduler.reportsSince_eq_nil rfl]
  exact h

theorem carryOn (h : s.Agrees) (k : Nat) (action : α) :
    (s.tell (s.scheduler.carryOn k action) []).Agrees := by
  unfold Scheduler.carryOn
  split
  · rename_i r hw
    obtain ⟨hr, -⟩ := Scheduler.working?_eq_some.mp hw
    have hlog := log_tell_of_reports (s := s)
      (Scheduler.reports_update s.scheduler k fun run => { run with action }) []
    have htold : Told s.log s.now k { r with action } :=
      have hk := h.told hr
      ⟨hk.started, hk.fate, hk.reports, hk.cancelled, hk.inStep, hk.rested, hk.reported⟩
    exact h.noted [] hlog rfl nofun nofun (h.valid.update hr rfl rfl)
      (Scheduler.started_update ..) (Scheduler.current?_update ..)
      (Scheduler.run?_update_some hr _) (hlog ▸ htold) (hlog ▸ h.orderly)
  · exact h.still

/-- A run that is due begins a step. -/
theorem begin (h : s.Agrees) (hr : s.scheduler.run? k = some r) (hd : r.isDue s.now = true)
    (hc : r.cancelled = false) :
    (s.tell (s.scheduler.update k fun run => { run with stage := .working })
      [.begun k]).Agrees := by
  have hlog := log_tell_of_reports (s := s)
    (Scheduler.reports_update s.scheduler k fun run => { run with stage := .working }) [.begun k]
  have htold : Told ((s.now, .begun k) :: s.log) s.now k { r with stage := .working } :=
    (h.told hr).begin hd hc
  have hactive : ({ r with stage := .working } : Run α).isActive = r.isActive := by
    rw [Run.isDue_active hd]
    rfl
  refine h.noted [.begun k] hlog rfl (by simp [Fact.isPlain]) ?_ (h.valid.update hr hactive rfl)
    (Scheduler.started_update ..) (Scheduler.current?_update ..) (Scheduler.run?_update_some hr _)
    (hlog ▸ htold) (hlog ▸ orderly_cons h.orderly (h.mayBegin hr hd hc))
  intro n hne
  simpa [Fact.isAbout] using Ne.symm hne

/-- A run that has not ended is finished by a fact that names it. -/
theorem finish (h : s.Agrees) (fact : Fact) (hr : s.scheduler.run? k = some r)
    (ha : r.isActive = true) (hfact : fact.isAbout k = true) (hends : fact.ends? k = some outcome)
    (hfollow : fact.CanFollow s.now s.log) :
    (s.tell (s.scheduler.finish k outcome) [fact]).Agrees := by
  have ho := (h.told hr).reported.mpr ha
  have hreports := (s.scheduler.reportsSince_finish k outcome).trans
    (Scheduler.reportFor_of_unreported hr ho outcome)
  exact h.finished hr ho hfact hends hfollow r.action (log_tell_of_report hreports [fact]) rfl
    (h.valid.finish k outcome) (Scheduler.started_finish ..) (Scheduler.current?_finish ..)
    (Scheduler.run?_finish_some hr outcome)

/-- A run has its turn: a step begins, or the run is found cancelled and ends, or nothing happens
since the run is not due. -/
theorem turn (h : s.Agrees) (k : Nat) : (s.turn k).Agrees := by
  unfold Schedule.turn Scheduler.begin
  cases hr : s.scheduler.run? k with
  | none => exact h.still
  | some r =>
    cases hd : r.isDue s.now with
    | false => simpa [hd] using h.still
    | true =>
      cases hc : r.cancelled with
      | true =>
        have ha := Run.isDue_active hd
        have hunreported : reportsOf k s.log = [] := by
          rw [(h.told hr).reports, (h.told hr).reported.mpr ha]
          rfl
        simpa [hd, hc] using h.finish (.refused k) hr ha (decide_eq_true rfl) (if_pos rfl)
          ⟨(h.told hr).cancelled.mpr hc, hunreported⟩
      | false => simpa [hd, hc] using h.begin hr hd hc

theorem stepEnds (h : s.Agrees) (k : Nat) (result : StepResult α) :
    (s.stepEnds k result).Agrees := by
  unfold Schedule.stepEnds
  cases hw : s.scheduler.working? k with
  | none => exact h
  | some r =>
    obtain ⟨hr, hstage⟩ := Scheduler.working?_eq_some.mp hw
    have ha : r.isActive = true := by simp [Run.isActive, hstage]
    have hinStep : IsInStep k s.log := (h.told hr).inStep.mpr hstage
    cases result with
    | failed => exact h.finish (.failed k) hr ha (decide_eq_true rfl) (if_pos rfl) hinStep
    | done action next =>
      have ho := (h.told hr).reported.mpr ha
      have hreports := Scheduler.reportsSince_proceed hw ho s.now action next
      have hruns := Scheduler.run?_proceed hw s.now action next
      have hvalid := h.valid.proceed hw s.now action next
      have hstarted := Scheduler.started_proceed hw s.now action next
      have hcurrent := Scheduler.current?_proceed hw s.now action next
      cases next with
      | none =>
        have hlog := log_tell_of_report (s := s) hreports [.stepped k none]
        have hends : (Fact.stepped k none).ends? k = some .completed := if_pos rfl
        exact h.finished hr ho (by simp [Fact.isAbout]) hends hinStep action hlog rfl hvalid
          hstarted hcurrent hruns
      | some next =>
        have hlog : (s.tell (s.scheduler.proceed k s.now action (some next))
            [.stepped k (some next)]).log = (s.now, .stepped k (some next)) :: s.log := by
          rw [tell, hreports]
          rfl
        have htold := (h.told hr).step hstage action next
        refine h.noted [.stepped k (some next)] hlog rfl (by simp [Fact.isPlain]) ?_ hvalid
          hstarted hcurrent hruns (hlog ▸ htold) (hlog ▸ orderly_cons h.orderly hinStep)
        intro n hne
        simpa [Fact.isAbout] using Ne.symm hne

/-- A look-up after which some runs change is a look-up of runs that change. -/
theorem ite_map {β : Type} (p : Prop) [Decidable p] (o : Option β) (f : β → β) :
    (if p then o.map f else o) = o.map fun b => if p then f b else b := by
  split <;> simp

/-- A start or a stop takes off the current run, which is reported unless it has been before. No
other run is active. -/
theorem takenOff (h : s.Agrees) {fact : Fact} (hother : fact.isAbout n = false)
    (hends : fact.ends? n = some outcome) (hr : s.scheduler.run? n = some r)
    (htold : Told log s.now n r) :
    Told ((s.closing outcome).map (s.now, ·) ++ (s.now, fact) :: log) s.now n
      (if s.scheduler.current? = some n then r.ended outcome else r) := by
  split
  · rename_i hcurrent
    have hreplaced := htold.replaced s.now hother hends
    rw [closing, Scheduler.closing, hcurrent, Option.elim_some, Scheduler.reportFor, hr]
    cases ho : r.outcome? <;> simpa [ho] using hreplaced
  · rename_i hcurrent
    have ho : r.outcome? ≠ none := by
      rw [ne_eq, (h.told hr).reported]
      exact fun ha => hcurrent (h.valid.active hr ha)
    refine (htold.other hother fun he => absurd he ho).others fun other hm =>
      ⟨?_, fun he => absurd he ho⟩
    obtain ⟨m, hm', rfl⟩ := mem_closing hm
    exact decide_eq_false fun he => hcurrent (hm'.trans (congrArg some he))

theorem not_isAbout_of_mem_closing (h : s.Agrees) (hn : s.scheduler.run? n = none)
    (hm : fact ∈ s.closing outcome) : fact.isAbout n = false := by
  obtain ⟨m, hcurrent, rfl⟩ := mem_closing hm
  refine decide_eq_false ?_
  rintro rfl
  have hsome := (h.valid.latest hcurrent).2
  rw [hn] at hsome
  cases hsome

theorem run?_next (h : s.Agrees) : s.scheduler.run? (s.scheduler.started + 1) = none := by
  cases hr : s.scheduler.run? (s.scheduler.started + 1) with
  | none => rfl
  | some r =>
    have := h.valid.numbered hr
    omega

theorem stop (h : s.Agrees) : (s.tell s.scheduler.stop [.stopped]).Agrees := by
  have hlog : (s.tell s.scheduler.stop [.stopped]).log =
      (s.closing .cancelled).map (s.now, ·) ++ (s.now, .stopped) :: s.log := by
    simp [tell, closing, Scheduler.reportsSince_stop]
  have hnumbered : Numbered ((s.now, .stopped) :: s.log) := numbered_cons h.numbered nofun
  have horderly : Orderly ((s.now, .stopped) :: s.log) := orderly_cons h.orderly trivial
  obtain ⟨hstarts, hlatest, hnumbered, horderly⟩ :=
    closing_append s .cancelled hnumbered horderly
  refine ⟨h.valid.stop, ?_, ?_, ?_, ?_, hlog ▸ hnumbered, hlog ▸ horderly⟩
  · rw [hlog, hstarts]
    exact h.starts.trans (Scheduler.started_stop _).symm
  · rw [hlog, hlatest]
    exact (Scheduler.current?_stop _).symm
  · intro n r hr
    change s.scheduler.stop.run? n = some r at hr
    rw [Scheduler.run?_stop, ite_map] at hr
    obtain ⟨q, hq, rfl⟩ := Option.map_eq_some_iff.mp hr
    rw [hlog]
    exact h.takenOff rfl rfl hq (h.told hq)
  · intro n hn entry hm
    have hnone : s.scheduler.run? n = none := by
      change s.scheduler.stop.run? n = none at hn
      rw [Scheduler.run?_stop, ite_map] at hn
      exact Option.map_eq_none_iff.mp hn
    rw [hlog] at hm
    obtain hm | hm := List.mem_append.mp hm
    · obtain ⟨fact, hfact, rfl⟩ := List.mem_map.mp hm
      exact h.not_isAbout_of_mem_closing hnone hfact
    · obtain _ | ⟨_, hm⟩ := hm
      · rfl
      · exact h.untold hnone entry hm

/-- What is noted beside a start is plain and about the new run only. -/
theorem plain_of_mem_start (now : Nat) {cancelled : Bool}
    (hm : fact ∈ if cancelled then [Fact.cancelled n] else []) :
    fact.isPlain = true ∧ (∀ log, fact.CanFollow now log) ∧
      ∀ m, m ≠ n → fact.isAbout m = false := by
  cases cancelled
  · cases hm
  · obtain rfl := List.mem_singleton.mp hm
    exact ⟨rfl, fun _ => trivial, fun m hne => decide_eq_false (Ne.symm hne)⟩

theorem log_start (h : s.Agrees) (action : α) (cancelled : Bool) :
    (s.next (.start action cancelled)).log =
      (s.closing .superseded).map (s.now, ·) ++ (s.now, .started (s.scheduler.started + 1)) ::
        ((if cancelled then [Fact.cancelled (s.scheduler.started + 1)] else []).map (s.now, ·) ++
          s.log) := by
  simp only [next, tell, closing,
    Scheduler.reportsSince_start_eq s.scheduler action cancelled h.valid.current_ne]
  cases cancelled <;> simp

/-- A run starts in place of the current one. -/
theorem start (h : s.Agrees) (action : α) (cancelled : Bool) :
    (s.next (.start action cancelled)).Agrees := by
  let n := s.scheduler.started + 1
  let log := (if cancelled then [Fact.cancelled n] else []).map (s.now, ·) ++ s.log
  have hlog : (s.next (.start action cancelled)).log =
      (s.closing .superseded).map (s.now, ·) ++ (s.now, .started n) :: log :=
    h.log_start action cancelled
  have hplain (fact : Fact) (hm : fact ∈ if cancelled then [Fact.cancelled n] else []) :=
    plain_of_mem_start s.now hm
  obtain ⟨hstarts, hlatest, hnumbered⟩ :=
    plain_append h.numbered s.now fun fact hm => (hplain fact hm).1
  have hstarts : Schedule.starts log = s.scheduler.started := hstarts.trans h.starts
  have hnumbered : Numbered ((s.now, .started n) :: log) := by
    refine numbered_cons hnumbered ?_
    rintro m ⟨⟩
    rw [hstarts]
  have horderly : Orderly ((s.now, .started n) :: log) :=
    orderly_cons (orderly_append h.orderly fun fact hm => (hplain fact hm).2.1) trivial
  obtain ⟨hstarts', hlatest', hnumbered, horderly⟩ :=
    closing_append s .superseded hnumbered horderly
  have hruns := fun m => Scheduler.run?_start s.scheduler action cancelled m h.valid.current_ne
  refine ⟨h.valid.start action cancelled, ?_, ?_, ?_, ?_, hlog ▸ hnumbered, hlog ▸ horderly⟩
  · rw [hlog, hstarts']
    exact (congrArg (· + 1) hstarts).trans (Scheduler.started_start ..).symm
  · rw [hlog, hlatest']
    exact (Scheduler.current?_start ..).symm
  · intro m r hr
    change (s.scheduler.start action cancelled).run? m = some r at hr
    rw [hruns] at hr
    rw [hlog]
    split at hr
    · rename_i he
      subst he
      cases hr
      refine (Told.fresh (h.untold h.run?_next) action cancelled).others fun fact hm => ?_
      refine ⟨h.not_isAbout_of_mem_closing h.run?_next hm, fun _ => ?_⟩
      obtain ⟨m, -, rfl⟩ := mem_closing hm
      rfl
    · rename_i hne
      rw [ite_map] at hr
      obtain ⟨q, hq, rfl⟩ := Option.map_eq_some_iff.mp hr
      have htold : Told log s.now m q := (h.told hq).others fun fact hm =>
        have hfact := (hplain fact hm).2.2 m hne
        ⟨hfact, fun _ => ends?_of_isPlain (hplain fact hm).1 hfact⟩
      exact h.takenOff (decide_eq_false (Ne.symm hne)) (if_neg (Ne.symm hne)) hq htold
  · intro m hm entry hentry
    change (s.scheduler.start action cancelled).run? m = none at hm
    rw [hruns] at hm
    split at hm
    · cases hm
    · rename_i hne
      rw [ite_map] at hm
      have hnone : s.scheduler.run? m = none := Option.map_eq_none_iff.mp hm
      rw [hlog] at hentry
      obtain hentry | hentry := List.mem_append.mp hentry
      · obtain ⟨fact, hfact, rfl⟩ := List.mem_map.mp hentry
        exact h.not_isAbout_of_mem_closing hnone hfact
      · obtain _ | ⟨_, hentry⟩ := hentry
        · exact decide_eq_false (Ne.symm hne)
        · obtain hentry | hentry := List.mem_append.mp hentry
          · obtain ⟨fact, hfact, rfl⟩ := List.mem_map.mp hentry
            exact (hplain fact hfact).2.2 m hne
          · exact h.untold hnone entry hentry

theorem next (h : s.Agrees) (e : Event α) : (s.next e).Agrees := by
  cases e with
  | start action cancelled => exact h.start action cancelled
  | stop => exact h.stop
  | cancel k => exact h.cancel k
  | clock time => exact h.clock time
  | turn k => exact h.turn k
  | carryOn k action => exact h.carryOn k action
  | stepEnds k result => exact h.stepEnds k result

theorem foldl (h : s.Agrees) (events : List (Event α)) : (events.foldl Schedule.next s).Agrees := by
  induction events generalizing s with
  | nil => exact h
  | cons e events ih => exact ih (h.next e)

end Agrees

-- ---------------------------------------------------------------------------
-- The protocol
-- ---------------------------------------------------------------------------

/-- A run replaces itself in the middle of a step, and the one that takes its place is cancelled
while it rests. -/
example :
    let s := [.start () false, .turn 1, .start () false, .stepEnds 1 (.done () none), .turn 1,
      .turn 2, .stepEnds 2 (.done () (some (.delay 50))), .clock 20, .cancel 2, .turn 2,
      .stop].foldl next (idle : Schedule Unit)
    reportsOf 1 s.log = [.superseded] ∧ reportsOf 2 s.log = [.cancelled] := by
  decide

end Schedule

end ElmLint

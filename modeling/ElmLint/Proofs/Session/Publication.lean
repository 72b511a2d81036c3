import ElmLint.Proofs.Session.Course
import ElmLint.Proofs.Session.History

/-!
# Who publishes

The history of a session tells at any time which run may publish (`Chronicled`), and no other run
does.
-/

namespace ElmLint

namespace Session

open History (changes changesAtStart? latestRun? HasCancelled StartsOnce MayPublish)

variable {s s' : Session} {uri : FileUri} {n m : Nat} {r r' : Run Walk} {facts : List Fact}

/-- The history agrees with the state on changes and runs. -/
structure Chronicled (s : Session) : Prop where
  sequence : changes s.history = s.sequence
  latest : latestRun? s.history = s.scheduler.current?
  atStart : ∀ {n r}, s.scheduler.run? n = some r →
    changesAtStart? s.history n = some r.action.sequence
  cancelled : ∀ {n r}, s.scheduler.run? n = some r → s.scheduler.current? = some n →
    (HasCancelled s.history n ↔ r.cancelled = true)
  startedBefore : ∀ {n}, (changesAtStart? s.history n).isSome → n ≤ s.scheduler.started
  cancelledBefore : ∀ {n}, HasCancelled s.history n → n ≤ s.scheduler.started
  startsOnce : StartsOnce s.history

theorem chronicled_initial (sourceDirs : List FileUri) (settings : Settings) :
    (initial sourceDirs settings).Chronicled where
  sequence := rfl
  latest := rfl
  atStart h := nomatch h
  cancelled h := nomatch h
  startedBefore h := nomatch h
  cancelledBefore := fun ⟨_, _, h⟩ => nomatch h
  startsOnce := fun _ _ _ _ h => nomatch List.suffix_nil.mp h

namespace Chronicled

/-- The run that is said to be the latest may publish exactly if it is up to date and its token is
not cancelled. -/
theorem mayPublish_iff (h : s.Chronicled) (hr : s.scheduler.run? n = some r) :
    MayPublish s.history n ↔ s.sequence = r.action.sequence ∧ s.scheduler.current? = some n ∧
      r.cancelled = false := by
  constructor
  · rintro ⟨hdate, hlatest, huncancelled⟩
    rw [h.latest] at hlatest
    rw [h.atStart hr, Option.some.injEq, h.sequence] at hdate
    rw [h.cancelled hr hlatest, Bool.not_eq_true] at huncancelled
    exact ⟨hdate.symm, hlatest, huncancelled⟩
  · rintro ⟨hdate, hlatest, huncancelled⟩
    refine ⟨?_, h.latest.trans hlatest, ?_⟩
    · rw [h.atStart hr, h.sequence, hdate]
    · rw [h.cancelled hr hlatest, huncancelled]
      decide

theorem startsOnce_plain {earlier later : History} (h : StartsOnce earlier)
    (hplain : ∀ fact ∈ later, fact.2.isPlain = true) : StartsOnce (later ++ earlier) := by
  induction later with
  | nil => exact h
  | cons entry later ih =>
    obtain ⟨hentry, hlater⟩ := List.forall_mem_cons.mp hplain
    intro time n files rest hsuffix
    obtain he | hsuffix := List.suffix_cons_iff.mp hsuffix
    · rw [← (List.cons.inj he).1] at hentry
      cases hentry
    · exact ih hlater time n files rest hsuffix

theorem hasCancelled_stamped : HasCancelled (s.stamped facts) n ↔ ∃ c, .cancelled n c ∈ facts := by
  simp [HasCancelled, stamped]

/-- Plain facts are recorded, and a run is cancelled if they say so. -/
theorem plain (h : s.Chronicled) (facts : List Fact)
    (hhistory : s'.history = s.stamped facts ++ s.history)
    (hplain : ∀ fact ∈ facts, fact.isPlain = true)
    (hbefore : ∀ n c, .cancelled n c ∈ facts → n ≤ s.scheduler.started)
    (hsequence : s'.sequence = s.sequence)
    (hcurrent : s'.scheduler.current? = s.scheduler.current?)
    (hstarted : s'.scheduler.started = s.scheduler.started)
    (hruns : ∀ n r', s'.scheduler.run? n = some r' → ∃ r, s.scheduler.run? n = some r ∧
      r'.action.sequence = r.action.sequence ∧
      (r'.cancelled = true ↔ (∃ c, .cancelled n c ∈ facts) ∨ r.cancelled = true)) :
    s'.Chronicled := by
  have hplain' : ∀ fact ∈ s.stamped facts, fact.2.isPlain = true := by
    simpa [stamped] using hplain
  refine ⟨?_, ?_, ?_, ?_, ?_, ?_, ?_⟩
  · rw [hhistory, History.changes_plain hplain', h.sequence, hsequence]
  · rw [hhistory, History.latestRun?_plain hplain', h.latest, hcurrent]
  · intro n r' hr'
    obtain ⟨r, hr, hdate, -⟩ := hruns n r' hr'
    rw [hhistory, History.changesAtStart?_plain hplain', h.atStart hr, hdate]
  · intro n r' hr' hcur
    obtain ⟨r, hr, -, hcancelled⟩ := hruns n r' hr'
    rw [hcurrent] at hcur
    rw [hhistory, History.hasCancelled_append, hasCancelled_stamped, h.cancelled hr hcur,
      hcancelled]
  · intro n
    rw [hhistory, History.changesAtStart?_plain hplain', hstarted]
    exact h.startedBefore
  · intro n
    rw [hhistory, History.hasCancelled_append, hasCancelled_stamped, hstarted]
    rintro (⟨c, hc⟩ | hn)
    · exact hbefore n c hc
    · exact h.cancelledBefore hn
  · rw [hhistory]
    exact startsOnce_plain h.startsOnce hplain'

/-- One fact is recorded, and no run changes. -/
theorem recorded (h : s.Chronicled) (fact : Fact) (hplain : fact.isPlain = true)
    (hnone : ∀ n c, .cancelled n c ≠ fact) (hhistory : s'.history = s.stamped [fact] ++ s.history)
    (hscheduler : s'.scheduler = s.scheduler) (hsequence : s'.sequence = s.sequence) :
    s'.Chronicled := by
  refine h.plain [fact] hhistory (by simpa using hplain) ?_ hsequence (by rw [hscheduler])
    (by rw [hscheduler]) fun n r' hr' => ?_
  · intro n c hc
    exact absurd (List.mem_singleton.mp hc) (hnone n c)
  · rw [hscheduler] at hr'
    exact ⟨r', hr', rfl, by simp [hnone]⟩

theorem handled (h : s.Chronicled) (hc : s.Coherent) (hh : Handled s s' n r r' facts)
    (hplain : ∀ fact ∈ facts, fact.isPlain = true)
    (hown : ∀ m c, .cancelled m c ∈ facts → m = n)
    (hcancelled : r'.cancelled = true ↔ (∃ c, .cancelled n c ∈ facts) ∨ r.cancelled = true) :
    s'.Chronicled := by
  refine h.plain facts hh.history hplain ?_ hh.sequence hh.current? hh.started fun m q hq => ?_
  · intro m c hm
    rw [hown m c hm]
    exact hc.valid.numbered hh.was
  · rw [hh.run?] at hq
    split at hq
    · rename_i he
      subst he
      cases hq
      refine ⟨r, hh.was, ?_, hcancelled⟩
      rw [hh.action]
    · rename_i hne
      refine ⟨q, hq, rfl, ?_⟩
      rw [or_iff_right]
      rintro ⟨c, hm⟩
      exact hne (hown m c hm)

/-- A run changes and is not cancelled by that. -/
theorem handled_plain (h : s.Chronicled) (hc : s.Coherent) (hh : Handled s s' n r r' facts)
    (hplain : ∀ fact ∈ facts, fact.isPlain = true) (hnone : ∀ m c, .cancelled m c ∉ facts)
    (hcancelled : r'.cancelled = r.cancelled) : s'.Chronicled := by
  refine h.handled hc hh hplain (fun m c hm => absurd hm (hnone m c)) ?_
  simp [hnone, hcancelled]

theorem handled_cancelled (h : s.Chronicled) (hc : s.Coherent) {canceller : Canceller}
    (hh : Handled s s' n r r' [.cancelled n canceller]) (hcancelled : r'.cancelled = true) :
    s'.Chronicled := by
  refine h.handled hc hh (by simp [Fact.isPlain]) ?_ (by simp [hcancelled])
  intro m c hm
  simp only [List.mem_singleton, Fact.cancelled.injEq] at hm
  exact hm.1

theorem passed (h : s.Chronicled) {fact : Fact} (hp : Passed s s' n r r' uri fact)
    (hplain : fact.isPlain = true) (hnone : ∀ n c, .cancelled n c ≠ fact) : s'.Chronicled := by
  refine h.plain [fact] hp.history (by simpa using hplain) ?_ hp.sequence hp.current? hp.started
    fun m q hq => ?_
  · intro m c hm
    exact absurd (List.mem_singleton.mp hm) (hnone m c)
  · rw [hp.run?] at hq
    split at hq
    · rename_i he
      subst he
      cases hq
      refine ⟨r, hp.was, ?_, by simp [hnone, hp.cancelled]⟩
      rw [hp.action]
      rfl
    · exact ⟨q, hq, rfl, by simp [hnone]⟩

theorem change (h : s.Chronicled) (uri : FileUri) : (s.change uri).Chronicled := by
  unfold Session.change
  split
  · exact h
  · refine ⟨?_, h.latest, h.atStart, ?_, h.startedBefore, ?_, ?_⟩
    · exact congrArg (· + 1) h.sequence
    · intro n r hr hcurrent
      rw [← h.cancelled hr hcurrent]
      simp [Session.mark, Session.record, HasCancelled]
    · intro n hcancelled
      refine h.cancelledBefore ?_
      simpa [Session.mark, Session.record, HasCancelled] using hcancelled
    · intro time n files rest hsuffix
      obtain he | hsuffix := List.suffix_cons_iff.mp hsuffix
      · cases he
      obtain he | hsuffix := List.suffix_cons_iff.mp hsuffix
      · cases he
      exact h.startsOnce time n files rest hsuffix

/-- A new run is told to start, after the one before was cancelled, and it may be cancelled at
once. -/
theorem launched (h : s.Chronicled)
    (hflight : ∀ i, s.inFlight? = some i → i.run ≤ s.scheduler.started)
    {files : List FileUri} {pause : Nat} {isOnDemand : Bool} {canceller? : Option Canceller}
    (hl : Launched s s' files pause isOnDemand canceller?) : s'.Chronicled := by
  obtain ⟨births, hbirths⟩ : ∃ births, births = s.stamped (canceller?.elim []
    fun canceller => [.cancelled (s.scheduler.started + 1) canceller]) := ⟨_, rfl⟩
  obtain ⟨ends, hends⟩ : ∃ ends, ends = s.stamped (s.inFlight?.elim []
    fun i => [.cancelled i.run .successor]) := ⟨_, rfl⟩
  have hhistory : s'.history =
      births ++ (s.now, .started (s.scheduler.started + 1) files) :: (ends ++ s.history) := by
    rw [hl.history, hbirths, hends]
    simp [stamped, launchFacts]
  have hbirthsPlain : ∀ fact ∈ births, fact.2.isPlain = true := by
    rw [hbirths]
    cases canceller? <;> simp [stamped, Fact.isPlain]
  have hendsPlain : ∀ fact ∈ ends, fact.2.isPlain = true := by
    rw [hends]
    cases s.inFlight? <;> simp [stamped, Fact.isPlain]
  have hcancelledBefore : ∀ n, HasCancelled (ends ++ s.history) n → n ≤ s.scheduler.started := by
    intro n hn
    obtain hn | hn := History.hasCancelled_append.mp hn
    · rw [hends, hasCancelled_stamped] at hn
      obtain ⟨c, hc⟩ := hn
      cases hi : s.inFlight? with
      | none => simp [hi] at hc
      | some i =>
        simp only [hi, Option.elim_some, List.mem_singleton, Fact.cancelled.injEq] at hc
        exact hc.1 ▸ hflight i hi
    · exact h.cancelledBefore hn
  have hcancelled : ∀ n, HasCancelled s'.history n ↔
      n = s.scheduler.started + 1 ∧ canceller?.isSome = true ∨
        HasCancelled (ends ++ s.history) n := by
    intro n
    rw [hhistory, History.hasCancelled_append, History.hasCancelled_cons_started, hbirths,
      hasCancelled_stamped]
    cases canceller? <;> simp
  refine ⟨?_, ?_, ?_, ?_, ?_, ?_, ?_⟩
  · rw [hhistory, History.changes_plain hbirthsPlain]
    change changes (ends ++ s.history) = _
    rw [History.changes_plain hendsPlain, h.sequence, hl.sequence]
  · rw [hhistory, History.latestRun?_plain hbirthsPlain, hl.current?]
    rfl
  · intro n q hq
    rw [hhistory, History.changesAtStart?_plain hbirthsPlain, changesAtStart?]
    split
    · rename_i he
      rw [← he, hl.new, Option.some.injEq] at hq
      rw [History.changes_plain hendsPlain, h.sequence, ← hq]
      rfl
    · rename_i hne
      rw [hl.old n (Ne.symm hne)] at hq
      obtain ⟨q', hq', rfl⟩ := Option.map_eq_some_iff.mp hq
      rw [History.changesAtStart?_plain hendsPlain, h.atStart hq', action_retired]
  · intro n q hq hcur
    rw [hl.current?, Option.some.injEq] at hcur
    subst hcur
    rw [hl.new, Option.some.injEq] at hq
    subst hq
    rw [hcancelled, or_iff_left]
    · simp [Run.ofAction]
    · intro hn
      have := hcancelledBefore _ hn
      omega
  · intro n
    rw [hhistory, History.changesAtStart?_plain hbirthsPlain, changesAtStart?, hl.started]
    split
    · rename_i he
      exact fun _ => he ▸ Nat.le_refl _
    · rw [History.changesAtStart?_plain hendsPlain]
      exact fun hn => Nat.le_succ_of_le (h.startedBefore hn)
  · intro n hn
    rw [hl.started]
    obtain ⟨rfl, -⟩ | hn := (hcancelled n).mp hn
    · exact Nat.le_refl _
    · exact Nat.le_succ_of_le (hcancelledBefore n hn)
  · rw [hhistory]
    refine startsOnce_plain (fun time n started earlier hsuffix => ?_) hbirthsPlain
    obtain he | hsuffix := List.suffix_cons_iff.mp hsuffix
    · -- no earlier run had the number
      obtain ⟨hfact, rfl⟩ := List.cons.inj he
      cases hfact
      rw [History.changesAtStart?_plain hendsPlain]
      cases hnone : changesAtStart? s.history (s.scheduler.started + 1) with
      | none => rfl
      | some count =>
        have := h.startedBefore (n := s.scheduler.started + 1) (by simp [hnone])
        omega
    · exact startsOnce_plain h.startsOnce hendsPlain time n started earlier hsuffix

theorem takeMarked (h : s.Chronicled) : s.takeMarked.Chronicled :=
  h.recorded .drained rfl nofun rfl rfl rfl

theorem drain (h : s.Chronicled) (hc : s.Coherent) : s.drain.Chronicled := by
  obtain ⟨-, -, heq⟩ | ⟨-, hl⟩ := hc.drain_cases
  · rw [heq]
    exact h.takeMarked
  · exact h.takeMarked.launched (fun _ => hc.inFlight_le) hl

theorem move (h : s.Chronicled) (hc : s.Coherent) (hm : Move awake s s') : s'.Chronicled := by
  cases hm with
  | tell _ uri list _ => exact h.recorded (.published uri list) rfl nofun rfl rfl rfl
  | askTypes _ uri => exact h.recorded (.typesAsked uri) rfl nofun rfl rfl rfl
  | askBuild _ uri => exact h.recorded (.buildAsked _ uri) rfl nofun rfl rfl rfl
  | mark _ uri => exact h.recorded (.marked uri) rfl nofun rfl rfl rfl
  | @handOver _ n r _ _ _ _ uri kind =>
    exact h.recorded (.handedOver n uri kind) rfl nofun rfl rfl rfl
  | store => exact ⟨h.1, h.2, h.3, h.4, h.5, h.6, h.7⟩
  | change _ uri => exact h.change uri
  | drain => exact h.drain hc
  | request _ hf pause cancelled =>
    exact h.launched (fun _ => hc.inFlight_le) (hc.request_launched hf pause _)
  | cancel hr _ => exact h.handled_cancelled hc (handled_cancelRun hr _) rfl
  | begin _ hr hd _ => exact h.handled_plain hc (handled_begin hr hd) nofun nofun rfl
  | heed _ hr _ _ => exact h.handled_plain hc (handled_finish hr .cancelled) nofun nofun rfl
  | crash _ hw =>
    exact h.handled_plain hc (handled_finish (Scheduler.working?_eq_some.mp hw).1 .failed) nofun
      nofun rfl
  | yield _ hw _ => exact h.handled_plain hc (handled_yield hw) nofun nofun rfl
  | abandon _ hw _ => exact h.handled_cancelled hc (handled_abandon hw) rfl
  | proceedToLint _ hw _ =>
    exact h.handled_plain hc (handled_proceedToLint hw) (by simp [Fact.isPlain]) (by simp) rfl
  | proceedToNext _ hw hf _ _ =>
    obtain ⟨r', hp⟩ := passed_proceedToNext hc.valid hw hf
    exact h.passed hp rfl nofun
  | skip _ hw hf _ =>
    obtain ⟨r', hp⟩ := passed_skip hc.valid hw hf
    exact h.passed hp rfl nofun
  | complete _ hw hf => exact absurd hf (hc.file?_ne_none hw)

theorem shutDown (h : s.Chronicled) : s.shutDown.Chronicled := by
  cases hs : s.isShutDown with
  | true =>
    rw [shutDown_again hs]
    exact h
  | false =>
    refine ⟨?_, ?_, ?_, ?_, ?_, ?_, ?_⟩
    · rw [shutDown_eq hs]
      exact h.sequence
    · rw [shutDown_eq hs]
      exact (Scheduler.current?_stop _).symm
    · intro n r hr
      obtain ⟨r', hr', haction⟩ := run?_shutDown hs hr
      rw [shutDown_eq hs, haction]
      exact h.atStart hr'
    · intro n r hr hcur
      rw [shutDown_eq hs, Scheduler.current?_stop] at hcur
      cases hcur
    · intro n hn
      rw [shutDown_eq hs] at hn ⊢
      rw [Scheduler.started_stop]
      exact h.startedBefore hn
    · rintro n ⟨time, c, hm⟩
      rw [shutDown_eq hs] at hm ⊢
      rw [Scheduler.started_stop]
      cases hm with
      | tail _ hm => exact h.cancelledBefore ⟨time, c, hm⟩
    · intro time n files earlier hsuffix
      rw [shutDown_eq hs] at hsuffix
      obtain he | hsuffix := List.suffix_cons_iff.mp hsuffix
      · cases he
      · exact h.startsOnce time n files earlier hsuffix

theorem affected (h : s.Chronicled) (hc : s.Coherent) (e : Event) : (s.affected e).Chronicled := by
  cases e with
  | deleteDocument uri => exact h.recorded (.deleted uri) rfl nofun rfl rfl rfl
  | beginInterruption =>
    obtain heq | ⟨-, i, r, -, hh⟩ := hc.beginInterruption_cases
    · rw [Session.affected, heq]
      exact h
    · exact h.handled_cancelled hc hh rfl
  | shutDown => exact h.shutDown
  | _ => exact ⟨h.1, h.2, h.3, h.4, h.5, h.6, h.7⟩

end Chronicled

-- ---------------------------------------------------------------------------
-- Every publication of a run is permitted
-- ---------------------------------------------------------------------------

/-- Whenever a run has handed over findings, `P` was so of the history up to then and of the run. -/
def WhenHandedOver (P : History → Nat → Prop) (history : History) : Prop :=
  ∀ time n uri kind earlier, (time, .handedOver n uri kind) :: earlier <:+ history → P earlier n

namespace WhenHandedOver

variable {P : History → Nat → Prop}

theorem append {earlier : History} (h : WhenHandedOver P earlier) (later : History)
    (hlater : ∀ time n uri kind, (time, .handedOver n uri kind) ∉ later) :
    WhenHandedOver P (later ++ earlier) := by
  induction later with
  | nil => exact h
  | cons entry later ih =>
    intro time n uri kind rest hsuffix
    obtain he | hsuffix := List.suffix_cons_iff.mp hsuffix
    · have hfact := (List.cons.inj he).1
      exact absurd (hfact ▸ List.mem_cons_self) (hlater time n uri kind)
    · refine ih (fun time n uri kind hm => ?_) time n uri kind rest hsuffix
      exact hlater time n uri kind (List.mem_cons_of_mem _ hm)

theorem recorded (h : WhenHandedOver P s.history) (facts : List Fact)
    (hhistory : s'.history = s.stamped facts ++ s.history)
    (hfacts : ∀ n uri kind, .handedOver n uri kind ∉ facts) : WhenHandedOver P s'.history := by
  rw [hhistory]
  refine h.append _ fun time n uri kind hm => ?_
  obtain ⟨fact, hfact, he⟩ := List.mem_map.mp hm
  cases he
  exact hfacts n uri kind hfact

theorem handOver (h : WhenHandedOver P s.history) (hP : P s.history n) (uri : FileUri)
    (kind : DiagnosticKind) : WhenHandedOver P (s.record (.handedOver n uri kind)).history := by
  intro time m other kind' earlier hsuffix
  obtain he | hsuffix := List.suffix_cons_iff.mp hsuffix
  · cases he
    exact hP
  · exact h time m other kind' earlier hsuffix

/-- Only a step that is up to date hands over findings, and not after it was cancelled by anyone but
the type checker. -/
theorem move (h : WhenHandedOver P s.history) (hc : s.Coherent) (hm : Move awake s s')
    (hP : ∀ n r, s.scheduler.working? n = some r → s.isStale r.action = false →
      (r.cancelled = false ∨ (s.now, .cancelled n .producer) ∈ s.history) → P s.history n) :
    WhenHandedOver P s'.history := by
  obtain ⟨n, r, uri, kind, hw, hs, hcancelled, rfl⟩ | ⟨facts, hhistory, hnone, -⟩ :=
    hc.notes_move hm
  · exact h.handOver (hP n r hw hs hcancelled) uri kind
  · exact h.recorded facts hhistory hnone

theorem affected (h : WhenHandedOver P s.history) (hc : s.Coherent) (e : Event) :
    WhenHandedOver P (s.affected e).history := by
  cases e with
  | deleteDocument uri => exact h.append [_] (by simp)
  | beginInterruption =>
    obtain heq | ⟨-, i, r, -, hh⟩ := hc.beginInterruption_cases
    · rw [Session.affected, heq]
      exact h
    · exact h.recorded _ hh.history (by simp)
  | shutDown =>
    cases hs : s.isShutDown with
    | true =>
      rw [Session.affected, shutDown_again hs]
      exact h
    | false =>
      rw [Session.affected, shutDown_eq hs]
      exact h.append [_] (by simp)
  | _ => exact h

end WhenHandedOver

/-- A run hands over findings only while it may publish, or after the type checker that it has asked
has cancelled it. -/
def Guarded (history : History) : Prop :=
  ∀ time n uri kind earlier, (time, .handedOver n uri kind) :: earlier <:+ history →
    MayPublish earlier n ∨ ∃ time, (time, .cancelled n .producer) ∈ earlier

/-- Only a run that may publish hands over findings. -/
theorem Guarded.move (h : Guarded s.history) (hchronicled : s.Chronicled) (hc : s.Coherent)
    (hm : Move awake s s') : Guarded s'.history := by
  refine WhenHandedOver.move h hc hm fun n r hw hs hcancelled => ?_
  obtain hfalse | hproducer := hcancelled
  · left
    obtain ⟨hr, hst⟩ := Scheduler.working?_eq_some.mp hw
    have hcurrent := hc.valid.active hr (by simp [Run.isActive, hst])
    have hdate : s.sequence = r.action.sequence := by simpa [isStale] using hs
    exact (hchronicled.mayPublish_iff hr).mpr ⟨hdate, hcurrent, hfalse⟩
  · exact .inr ⟨_, hproducer⟩

theorem Guarded.affected (h : Guarded s.history) (hc : s.Coherent) (e : Event) :
    Guarded (s.affected e).history :=
  WhenHandedOver.affected h hc e

/-- A run hands over findings only while no change was announced since it started. -/
def UpToDate (history : History) : Prop :=
  WhenHandedOver (fun earlier n => changesAtStart? earlier n = some (changes earlier)) history

theorem UpToDate.move (h : UpToDate s.history) (hchronicled : s.Chronicled) (hc : s.Coherent)
    (hm : Move awake s s') : UpToDate s'.history := by
  refine WhenHandedOver.move h hc hm fun n r hw hs _ => ?_
  have hr := (Scheduler.working?_eq_some.mp hw).1
  have hdate : s.sequence = r.action.sequence := by simpa [isStale] using hs
  rw [hchronicled.atStart hr, hchronicled.sequence, hdate]

theorem Chronicled.moves (h : s.Chronicled) (hc : s.Coherent) (hm : Moves awake s s') :
    s'.Chronicled := by
  induction hm with
  | refl => exact h
  | tail hm' hm ih => exact ih.move (hc.moves hm') hm

end Session

namespace Reachable

open History (MayPublish changesAtStart?)
open Session (WhenHandedOver)

variable {sourceDirs : List FileUri} {settings : Settings} {sort : Event → Bool} {m : Moment}

theorem chronicled (h : Reachable sourceDirs settings sort m) : m.session.Chronicled :=
  h.invariant (Session.chronicled_initial sourceDirs settings) (fun e hc hs => hs.affected hc e)
    fun hc hs hm => hs.move hc hm

theorem guarded (h : Reachable sourceDirs settings sort m) :
    Session.Guarded m.session.history := by
  have hinvariant : m.session.Chronicled ∧ Session.Guarded m.session.history := by
    refine h.invariant (P := fun s => s.Chronicled ∧ Session.Guarded s.history) ⟨?_, ?_⟩ ?_ ?_
    · exact Session.chronicled_initial sourceDirs settings
    · exact fun _ _ _ _ _ hsuffix => nomatch List.suffix_nil.mp hsuffix
    · rintro s e hc ⟨hchronicled, hguarded⟩
      exact ⟨hchronicled.affected hc e, hguarded.affected hc e⟩
    · rintro awake s s' hc ⟨hchronicled, hguarded⟩ hm
      exact ⟨hchronicled.move hc hm, hguarded.move hchronicled hc hm⟩
  exact hinvariant.2

theorem upToDate (h : Reachable sourceDirs settings sort m) :
    Session.UpToDate m.session.history := by
  have hinvariant : m.session.Chronicled ∧ Session.UpToDate m.session.history := by
    refine h.invariant (P := fun s => s.Chronicled ∧ Session.UpToDate s.history) ⟨?_, ?_⟩ ?_ ?_
    · exact Session.chronicled_initial sourceDirs settings
    · exact fun _ _ _ _ _ hsuffix => nomatch List.suffix_nil.mp hsuffix
    · rintro s e hc ⟨hchronicled, hdate⟩
      exact ⟨hchronicled.affected hc e, WhenHandedOver.affected hdate hc e⟩
    · rintro awake s s' hc ⟨hchronicled, hdate⟩ hm
      exact ⟨hchronicled.move hc hm, hdate.move hchronicled hc hm⟩
  exact hinvariant.2

/-- A run that its type checker has never cancelled hands over findings only at times when it may
publish: no change was announced since it started, it was neither replaced nor stopped, and nobody
has cancelled it. Once it may not, it never does again. -/
theorem mayPublish_of_handedOver (h : Reachable sourceDirs settings sort m) (run : Nat)
    (hproducer : ∀ time, (time, .cancelled run .producer) ∉ m.session.history) :
    (∀ time uri kind earlier, (time, .handedOver run uri kind) :: earlier <:+ m.session.history →
      MayPublish earlier run) ∧
    (∀ later earlier, m.session.history = later ++ earlier →
      (changesAtStart? earlier run).isSome = true → ¬ MayPublish earlier run →
      ∀ time uri kind, (time, .handedOver run uri kind) ∉ later) ∧
    (∀ r, m.session.scheduler.run? run = some r →
      (MayPublish m.session.history run ↔ m.session.sequence = r.action.sequence ∧
        m.session.scheduler.current? = some run ∧ r.cancelled = false)) := by
  have hpermitted : ∀ time uri kind earlier,
      (time, .handedOver run uri kind) :: earlier <:+ m.session.history →
      MayPublish earlier run := by
    intro time uri kind earlier hsuffix
    obtain hmay | ⟨time', hcancelled⟩ := h.guarded time run uri kind earlier hsuffix
    · exact hmay
    · exact absurd (hsuffix.subset (List.mem_cons_of_mem _ hcancelled)) (hproducer time')
  refine ⟨hpermitted, ?_, fun r hr => h.chronicled.mayPublish_iff hr⟩
  intro later earlier hhistory hstarted hnot time uri kind hmem
  obtain ⟨newer, older, rfl⟩ := List.append_of_mem hmem
  have hsuffix : (time, .handedOver run uri kind) :: (older ++ earlier) <:+ m.session.history :=
    ⟨newer, by rw [hhistory]; simp⟩
  have honce : History.StartsOnce (older ++ earlier) := by
    have honce := h.chronicled.startsOnce
    rw [hhistory, List.append_assoc] at honce
    exact History.StartsOnce.append [_] (honce.append newer)
  exact hnot ((hpermitted time uri kind _ hsuffix).of_append honce hstarted)

theorem mayPublish_of_handedOver_firstAnalysis :
    let m := firstAnalysis.foldl Moment.next (.initial [] .standard)
    ∃ earlier, (200, .handedOver 1 ⟨"file:///Main.elm"⟩ .lint) :: earlier <:+ m.session.history ∧
      MayPublish earlier 1 := by
  intro m
  have hreach : Reachable [] .standard (fun _ => true) m :=
    Reachable.initial.foldl firstAnalysis (by decide +kernel) (by decide +kernel)
  have hproducer : ∀ time, (time, .cancelled 1 .producer) ∉ m.session.history := by
    have hall : m.session.history.all (·.2 ≠ .cancelled 1 .producer) = true := by decide +kernel
    intro time hm
    simpa using List.all_eq_true.mp hall _ hm
  have hdrop : m.session.history.drop 2 =
      (200, .handedOver 1 ⟨"file:///Main.elm"⟩ .lint) :: m.session.history.drop 3 := by
    decide +kernel
  have hsuffix := hdrop ▸ List.drop_suffix 2 m.session.history
  exact ⟨_, hsuffix, (mayPublish_of_handedOver hreach 1 hproducer).1 _ _ _ _ hsuffix⟩

end Reachable

end ElmLint

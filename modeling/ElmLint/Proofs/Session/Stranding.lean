import ElmLint.Proofs.Session.Obligation
import ElmLint.Proofs.Session.Publication

/-!
# Work that nothing drives

An announced file that is not settled is driven by a wait for silence or by a run, with one
exception: a run that has failed, or was cancelled by whoever asked for it or by its type checker,
leaves behind the files that it has not finished, and nobody comes for them.
-/

namespace ElmLint

namespace Session

open History (HasCancelled)

variable {s s' : Session} {uri : FileUri} {n m : Nat} {r r' : Run Walk} {facts : List Fact}
  {i : InFlight} {canceller : Canceller}

/-- The run in flight was cancelled by someone. -/
def IsCancelledBy (s : Session) (i : InFlight) (canceller : Canceller) : Prop :=
  ∃ time, (time, .cancelled i.run canceller) ∈ s.history

/-- A run was cancelled from outside, by whoever asked for it or by its type checker. -/
def IsRevoked (s : Session) (i : InFlight) : Prop :=
  s.IsCancelledBy i .caller ∨ s.IsCancelledBy i .producer

/-- Nothing interrupts the run in flight. -/
def IsUninterrupted (s : Session) : Prop :=
  ∀ i, s.inFlight? = some i → ¬ s.IsCancelledBy i .interruption

/-- Whatever has cancelled the run in flight, and whatever has ended it, is known. Apart from
interruptions, it is followed by a wait for silence, or it came from outside or from a failure. -/
structure Explained (s : Session) : Prop where
  cancelled : ∀ {i canceller}, s.inFlight? = some i → s.IsCancelledBy i canceller →
    s.debounce?.isSome = true ∨ canceller = .interruption ∨ s.IsRevoked i
  ended : ∀ {i r}, s.inFlight? = some i → s.scheduler.run? i.run = some r → r.isActive = false →
    s.debounce?.isSome = true ∨ r.outcome? = some .failed ∨ s.IsRevoked i
  onDemand : ∀ {i r}, s.inFlight? = some i → s.scheduler.run? i.run = some r →
    s.IsCancelledBy i .caller → r.action.isOnDemand = true

theorem explained_initial (sourceDirs : List FileUri) (settings : Settings) :
    (initial sourceDirs settings).Explained where
  cancelled h := nomatch h
  ended h := nomatch h
  onDemand h := nomatch h

theorem IsCancelledBy.append {later : History} (hhistory : s'.history = later ++ s.history)
    (h : s.IsCancelledBy i canceller) : s'.IsCancelledBy i canceller := by
  obtain ⟨time, hm⟩ := h
  exact ⟨time, by rw [hhistory]; exact List.mem_append_right _ hm⟩

theorem IsRevoked.append {later : History} (hhistory : s'.history = later ++ s.history)
    (h : s.IsRevoked i) : s'.IsRevoked i :=
  h.imp (.append hhistory) (.append hhistory)

/-- A cancellation is new or was there before. -/
theorem isCancelledBy_stamped (hhistory : s'.history = s.stamped facts ++ s.history) :
    s'.IsCancelledBy i canceller ↔
      .cancelled i.run canceller ∈ facts ∨ s.IsCancelledBy i canceller := by
  unfold IsCancelledBy
  rw [hhistory]
  simp only [List.mem_append, exists_or, stamped]
  refine or_congr_left ⟨?_, ?_⟩
  · rintro ⟨time, hm⟩
    obtain ⟨fact, hfact, he⟩ := List.mem_map.mp hm
    cases he
    exact hfact
  · exact fun hm => ⟨s.now, List.mem_map.mpr ⟨_, hm, rfl⟩⟩

namespace Explained

/-- Runs and what is in flight are as before, and nobody is cancelled. -/
theorem still (h : s.Explained) (facts : List Fact)
    (hhistory : s'.history = s.stamped facts ++ s.history)
    (hnone : ∀ n c, .cancelled n c ∉ facts) (hscheduler : s'.scheduler = s.scheduler)
    (hinFlight : s'.inFlight? = s.inFlight?)
    (hdebounce : s.debounce?.isSome = true → s'.debounce?.isSome = true) : s'.Explained := by
  refine ⟨?_, ?_, ?_⟩
  · intro i c hi hc
    rw [hinFlight] at hi
    rw [isCancelledBy_stamped hhistory, or_iff_right (hnone i.run c)] at hc
    exact (h.cancelled hi hc).imp hdebounce (.imp_right (.append hhistory))
  · intro i r hi hr ha
    rw [hinFlight] at hi
    rw [hscheduler] at hr
    exact (h.ended hi hr ha).imp hdebounce (.imp_right (.append hhistory))
  · intro i r hi hr hc
    rw [hinFlight] at hi
    rw [hscheduler] at hr
    rw [isCancelledBy_stamped hhistory, or_iff_right (hnone i.run .caller)] at hc
    exact h.onDemand hi hr hc

/-- One run has changed. A new cancellation is explained, and so is a new end. -/
theorem handled (h : s.Explained) (hh : Handled s s' n r r' facts)
    (hfacts : ∀ i c, s.inFlight? = some i → .cancelled i.run c ∈ facts →
      s.debounce?.isSome = true ∨ c = .interruption ∨ s'.IsRevoked i)
    (hended : ∀ i, s.inFlight? = some i → i.run = n → r'.isActive = false →
      s.debounce?.isSome = true ∨ r'.outcome? = some .failed ∨ s'.IsRevoked i)
    (hcaller : ∀ m, .cancelled m .caller ∈ facts → m = n ∧ r.action.isOnDemand = true) :
    s'.Explained := by
  refine ⟨?_, ?_, ?_⟩
  · intro i c hi hc
    rw [hh.inFlight?] at hi
    rw [hh.debounce?]
    rw [isCancelledBy_stamped hh.history] at hc
    obtain hnew | hc := hc
    · exact hfacts i c hi hnew
    · exact (h.cancelled hi hc).imp_right (.imp_right (.append hh.history))
  · intro i q hi hq ha
    rw [hh.inFlight?] at hi
    rw [hh.run?] at hq
    rw [hh.debounce?]
    split at hq
    · rename_i he
      cases hq
      exact hended i hi he ha
    · exact (h.ended hi hq ha).imp_right (.imp_right (.append hh.history))
  · intro i q hi hq hc
    rw [hh.inFlight?] at hi
    rw [hh.run?] at hq
    rw [isCancelledBy_stamped hh.history] at hc
    split at hq
    · rename_i he
      cases hq
      have haction : r'.action.isOnDemand = r.action.isOnDemand := by rw [hh.action]
      rw [haction]
      obtain hnew | hc := hc
      · exact (hcaller i.run hnew).2
      · exact h.onDemand hi (he ▸ hh.was) hc
    · rename_i hne
      obtain hnew | hc := hc
      · exact absurd (hcaller i.run hnew).1 hne
      · exact h.onDemand hi hq hc

/-- A run goes on, or is cancelled, as it was. -/
theorem handled_same (h : s.Explained) (hh : Handled s s' n r r' facts)
    (hactive : r'.isActive = r.isActive) (houtcome : r'.outcome? = r.outcome?)
    (hfacts : ∀ i c, s.inFlight? = some i → .cancelled i.run c ∈ facts →
      s.debounce?.isSome = true ∨ c = .interruption ∨ s'.IsRevoked i)
    (hcaller : ∀ m, .cancelled m .caller ∈ facts → m = n ∧ r.action.isOnDemand = true) :
    s'.Explained := by
  refine h.handled hh hfacts (fun i hi he ha => ?_) hcaller
  rw [hactive] at ha
  rw [houtcome]
  exact (h.ended hi (he ▸ hh.was) ha).imp_right (.imp_right (.append hh.history))

theorem passed (h : s.Explained) (hc : s.Coherent) {fact : Fact}
    (hp : Passed s s' n r r' uri fact) (hnone : ∀ m c, .cancelled m c ≠ fact) : s'.Explained := by
  have hhistory : s'.history = s.stamped [fact] ++ s.history := hp.history
  have hi := hc.inFlight_eq hp.was hp.wasActive
  have hinFlight : ∀ i, s'.inFlight? = some i →
      s.inFlight? = some i ∧ i.run = n ∧ r'.isActive = true := by
    intro i hi'
    rw [hp.inFlight?, hi] at hi'
    split at hi'
    · cases hi'
    · rename_i hmore
      rw [hi]
      refine ⟨hi', by rw [← Option.some.inj hi'], ?_⟩
      rw [hp.isActive]
      simpa using hmore
  refine ⟨?_, ?_, ?_⟩
  · intro i c hi' hcancelled
    rw [isCancelledBy_stamped hhistory, or_iff_right (by simp [hnone])] at hcancelled
    rw [hp.debounce?]
    exact (h.cancelled (hinFlight i hi').1 hcancelled).imp_right (.imp_right (.append hhistory))
  · intro i q hi' hq ha
    obtain ⟨-, he, hactive⟩ := hinFlight i hi'
    rw [hp.run?, if_pos he, Option.some.injEq] at hq
    rw [← hq, hactive] at ha
    cases ha
  · intro i q hi' hq hcancelled
    obtain ⟨hi, he, -⟩ := hinFlight i hi'
    rw [isCancelledBy_stamped hhistory, or_iff_right (by simp [hnone])] at hcancelled
    rw [hp.run?, if_pos he, Option.some.injEq] at hq
    rw [← hq, hp.action]
    exact h.onDemand hi (he ▸ hp.was) hcancelled

end Explained

/-- A run that has just started can be cancelled from the start, and by nobody else yet. -/
theorem Launched.canceller?_eq {files : List FileUri} {pause : Nat} {isOnDemand : Bool}
    {canceller? : Option Canceller} (hl : Launched s s' files pause isOnDemand canceller?)
    (hbefore : ∀ {n}, HasCancelled s.history n → n ≤ s.scheduler.started)
    (hflight : ∀ i, s.inFlight? = some i → i.run ≤ s.scheduler.started)
    (hi : s'.inFlight? = some i) (h : s'.IsCancelledBy i canceller) :
    canceller? = some canceller := by
  rw [hl.inFlight?, Option.some.injEq] at hi
  subst hi
  rw [isCancelledBy_stamped hl.history] at h
  obtain hnew | ⟨time, hold⟩ := h
  · simp only [launchFacts, List.mem_append, List.mem_cons, reduceCtorEq, false_or] at hnew
    obtain hbirth | hend := hnew
    · cases canceller? with
      | none => simp at hbirth
      | some c => simpa [eq_comm] using hbirth
    · cases hflight' : s.inFlight? with
      | none => simp [hflight'] at hend
      | some j =>
        simp only [hflight', Option.elim_some, List.mem_singleton, Fact.cancelled.injEq] at hend
        have := hflight j hflight'
        omega
  · exact absurd (hbefore ⟨time, canceller, hold⟩) (Nat.not_succ_le_self _)

namespace Explained

/-- A new run is active, and can be cancelled at once only by whoever asks for it. -/
theorem of_launched {files : List FileUri} {pause : Nat} {isOnDemand : Bool}
    {canceller? : Option Canceller} (hl : Launched s s' files pause isOnDemand canceller?)
    (hbefore : ∀ {n}, HasCancelled s.history n → n ≤ s.scheduler.started)
    (hflight : ∀ i, s.inFlight? = some i → i.run ≤ s.scheduler.started)
    (hcanceller : ∀ c, canceller? = some c → c = .caller ∧ isOnDemand = true) :
    s'.Explained := by
  refine ⟨?_, ?_, ?_⟩
  · intro i c hi hc
    have hcaller := (hcanceller c (hl.canceller?_eq hbefore hflight hi hc)).1
    subst hcaller
    exact .inr (.inr (.inl hc))
  · intro i r hi hr ha
    rw [hl.inFlight?, Option.some.injEq] at hi
    rw [← hi, hl.new, Option.some.injEq] at hr
    rw [← hr] at ha
    cases ha
  · intro i r hi hr hc
    have hdemand := (hcanceller .caller (hl.canceller?_eq hbefore hflight hi hc)).2
    rw [hl.inFlight?, Option.some.injEq] at hi
    rw [← hi, hl.new, Option.some.injEq] at hr
    rw [← hr, hdemand]
    rfl

theorem drain (hc : s.Coherent) (hchronicled : s.Chronicled)
    (hlive : s.isShutDown = false) : s.drain.Explained := by
  obtain ⟨-, hnone, heq⟩ | ⟨-, hl⟩ := hc.drain_cases
  · rw [heq]
    have hnone' : s.takeMarked.inFlight? = none := hnone
    refine ⟨?_, ?_, ?_⟩
    all_goals
      intro i _ hi
      rw [hnone'] at hi
      cases hi
  · refine of_launched hl hchronicled.takeMarked.cancelledBefore (fun _ => hc.inFlight_le) ?_
    simp [hlive]

theorem request (hc : s.Coherent) (hchronicled : s.Chronicled) {files : List FileUri}
    (hf : files ≠ []) (pause : Nat) (cancelled : Bool) :
    (s.startRun files false pause true (if cancelled then some .caller else none)).Explained := by
  refine of_launched (hc.request_launched hf pause _) hchronicled.cancelledBefore
    (fun _ => hc.inFlight_le) ?_
  cases cancelled <;> simp

theorem mark (h : s.Explained) (uri : FileUri) : (s.mark uri).Explained :=
  h.still [.marked uri] rfl (by simp) rfl rfl fun _ => rfl

theorem change (h : s.Explained) (uri : FileUri) : (s.change uri).Explained := by
  unfold Session.change
  split
  · exact h
  · refine mark (s := { s.record (.changed uri) with sequence := s.sequence + 1 }) ?_ uri
    exact h.still [.changed uri] rfl (by simp) rfl rfl id

/-- A cancelled run ends. What has cancelled it explains that, unless it is an interruption. -/
theorem heed (h : s.Explained) (hc : s.Coherent) (hchronicled : s.Chronicled)
    (hun : s.IsUninterrupted) (hr : s.scheduler.run? n = some r)
    (hcancelled : r.cancelled = true) :
    ({ s with scheduler := s.scheduler.finish n .cancelled } : Session).Explained := by
  refine h.handled (handled_finish hr .cancelled) (by simp) ?_ (by simp)
  intro i hi he _
  subst he
  obtain ⟨time, c, hfact⟩ := (hchronicled.cancelled hr (hc.current?_eq hi)).mpr hcancelled
  obtain hwait | rfl | hrevoked := h.cancelled hi ⟨time, hfact⟩
  · exact .inl hwait
  · exact absurd ⟨time, hfact⟩ (hun i hi)
  · exact .inr (.inr hrevoked)

theorem crash (h : s.Explained) (hc : s.Coherent) (hw : s.scheduler.working? n = some r) :
    ({ s with scheduler := s.scheduler.finish n .failed } : Session).Explained := by
  obtain ⟨hr, hst⟩ := Scheduler.working?_eq_some.mp hw
  refine h.handled (handled_finish hr .failed) (by simp) ?_ (by simp)
  intro i _ _ _
  have hnone := (hc.valid.reported hr).mpr (by simp [Run.isActive, hst])
  exact .inr (.inl (by simp [Run.ended, hnone]))

/-- A run gives up after a change, for which there is a wait. -/
theorem abandon (h : s.Explained) (hc : s.Coherent) (hw : s.scheduler.working? n = some r)
    (hstale : s.isStale r.action = true) : (s.abandon n r.action).Explained := by
  obtain ⟨hr, hst⟩ := Scheduler.working?_eq_some.mp hw
  refine h.handled_same (handled_abandon hw) (by simp [Run.isActive, hst]) rfl ?_ (by simp)
  intro i c hi hfact
  have hrun : i.run = n := by simp_all
  exact .inl (hc.stale hi (hrun ▸ hr) hstale)

/-- Whoever asked for a run cancels it, or its type checker does. -/
theorem cancel (h : s.Explained) (hr : s.scheduler.run? n = some r)
    (hc : canceller = .producer ∨ canceller = .caller ∧ r.action.isOnDemand = true) :
    (s.cancelRun n canceller).Explained := by
  have hh := handled_cancelRun hr canceller
  refine h.handled_same hh rfl rfl ?_ ?_
  · intro i c _ hfact
    have hnew : (s.cancelRun n canceller).IsCancelledBy i c :=
      (isCancelledBy_stamped hh.history).mpr (.inl hfact)
    simp only [List.mem_singleton, Fact.cancelled.injEq] at hfact
    obtain rfl | ⟨rfl, -⟩ := hc
    · exact .inr (.inr (.inr (hfact.2 ▸ hnew)))
    · exact .inr (.inr (.inl (hfact.2 ▸ hnew)))
  · intro m hfact
    simp only [List.mem_singleton, Fact.cancelled.injEq] at hfact
    obtain rfl | ⟨-, hdemand⟩ := hc
    · cases hfact.2
    · exact ⟨hfact.1, hdemand⟩

theorem move (h : s.Explained) (hc : s.Coherent) (hchronicled : s.Chronicled)
    (hlive : s.isShutDown = false) (hun : awake = true → s.IsUninterrupted)
    (hm : Move awake s s') : s'.Explained := by
  cases hm with
  | tell _ uri list _ => exact h.still [.published uri list] rfl (by simp) rfl rfl id
  | askTypes _ uri => exact h.still [.typesAsked uri] rfl (by simp) rfl rfl id
  | askBuild _ uri => exact h.still [.buildAsked _ uri] rfl (by simp) rfl rfl id
  | store => exact h.still [] rfl (by simp) rfl rfl id
  | @handOver _ n r _ _ _ _ uri kind =>
    exact h.still [.handedOver n uri kind] rfl (by simp) rfl rfl id
  | mark _ uri => exact h.mark uri
  | change _ uri => exact h.change uri
  | drain => exact drain hc hchronicled hlive
  | request _ hf pause cancelled => exact request hc hchronicled hf pause cancelled
  | cancel hr hcanceller => exact h.cancel hr hcanceller
  | begin _ hr hd _ =>
    exact h.handled_same (handled_begin hr hd) (Run.isDue_active hd).symm rfl (by simp) (by simp)
  | heed ha hr _ hcancelled => exact h.heed hc hchronicled (hun ha) hr hcancelled
  | crash _ hw => exact h.crash hc hw
  | yield _ hw _ =>
    have hst := (Scheduler.working?_eq_some.mp hw).2
    exact h.handled_same (handled_yield hw) (by simp [Run.isActive, hst]) rfl (by simp) (by simp)
  | abandon _ hw hs => exact h.abandon hc hw hs
  | proceedToLint _ hw _ =>
    have hst := (Scheduler.working?_eq_some.mp hw).2
    exact h.handled_same (handled_proceedToLint hw) (by simp [Run.isActive, hst]) rfl (by simp)
      (by simp)
  | proceedToNext _ hw hf _ _ =>
    obtain ⟨r', hp⟩ := passed_proceedToNext hc.valid hw hf
    exact h.passed hc hp (by simp)
  | skip _ hw hf _ =>
    obtain ⟨r', hp⟩ := passed_skip hc.valid hw hf
    exact h.passed hc hp (by simp)
  | complete _ hw hf => exact absurd hf (hc.file?_ne_none hw)

end Explained

-- ---------------------------------------------------------------------------
-- Interruptions
-- ---------------------------------------------------------------------------

/-- If the run in flight was interrupted, then `p`. -/
def InterruptedOnlyIf (s : Session) (p : Prop) : Prop :=
  ∀ i, s.inFlight? = some i → s.IsCancelledBy i .interruption → p

theorem InterruptedOnlyIf.still {p : Prop} (h : s.InterruptedOnlyIf p) (facts : List Fact)
    (hhistory : s'.history = s.stamped facts ++ s.history)
    (hnone : ∀ n, .cancelled n .interruption ∉ facts)
    (hinFlight : ∀ i, s'.inFlight? = some i → s.inFlight? = some i) : s'.InterruptedOnlyIf p := by
  intro i hi hc
  rw [isCancelledBy_stamped hhistory, or_iff_right (hnone i.run)] at hc
  exact h i (hinFlight i hi) hc

theorem InterruptedOnlyIf.of_launched {p : Prop} {files : List FileUri} {pause : Nat}
    {isOnDemand : Bool} {canceller? : Option Canceller}
    (hl : Launched s s' files pause isOnDemand canceller?)
    (hbefore : ∀ {n}, HasCancelled s.history n → n ≤ s.scheduler.started)
    (hflight : ∀ i, s.inFlight? = some i → i.run ≤ s.scheduler.started)
    (hcanceller : canceller? ≠ some .interruption) : s'.InterruptedOnlyIf p :=
  fun _ hi hc => absurd (hl.canceller?_eq hbefore hflight hi hc) hcanceller

/-- A run that has just started is not interrupted. -/
theorem InterruptedOnlyIf.drain {p : Prop} (hc : s.Coherent) (hchronicled : s.Chronicled) :
    s.drain.InterruptedOnlyIf p := by
  obtain ⟨-, hnone, heq⟩ | ⟨-, hl⟩ := hc.drain_cases
  · intro i hi
    rw [heq] at hi
    change s.inFlight? = some i at hi
    rw [hnone] at hi
    cases hi
  · refine of_launched hl hchronicled.takeMarked.cancelledBefore (fun _ => hc.inFlight_le) ?_
    split <;> simp

/-- No move interrupts a run. -/
theorem InterruptedOnlyIf.move {p : Prop} (h : s.InterruptedOnlyIf p) (hc : s.Coherent)
    (hchronicled : s.Chronicled) (hm : Move awake s s') : s'.InterruptedOnlyIf p := by
  have hhandled : ∀ {n r r' facts}, Handled s s' n r r' facts →
      (∀ n, .cancelled n .interruption ∉ facts) → s'.InterruptedOnlyIf p :=
    fun hh hnone => h.still _ hh.history hnone fun i hi => hh.inFlight? ▸ hi
  have hpassed : ∀ {n r r' uri fact}, Passed s s' n r r' uri fact →
      (∀ n, .cancelled n .interruption ≠ fact) → s'.InterruptedOnlyIf p := by
    intro n r r' uri fact hp hnone
    refine h.still [fact] hp.history (by simpa using hnone) fun i hi => ?_
    rw [hp.inFlight?] at hi
    split at hi
    · cases hi
    · exact hi
  cases hm with
  | tell _ uri list _ => exact h.still [.published uri list] rfl (by simp) fun _ => id
  | askTypes _ uri => exact h.still [.typesAsked uri] rfl (by simp) fun _ => id
  | askBuild _ uri => exact h.still [.buildAsked _ uri] rfl (by simp) fun _ => id
  | store => exact h.still [] rfl (by simp) fun _ => id
  | @handOver _ n r _ _ _ _ uri kind =>
    exact h.still [.handedOver n uri kind] rfl (by simp) fun _ => id
  | mark _ uri => exact h.still [.marked uri] rfl (by simp) fun _ => id
  | change hlive uri =>
    have hfacts : (s.change uri).history = s.stamped [.marked uri, .changed uri] ++ s.history := by
      simp [Session.change, hlive, Session.mark, Session.record, stamped]
    exact h.still _ hfacts (by simp) fun i hi => (undisturbed_change s uri).inFlight? ▸ hi
  | drain => exact drain hc hchronicled
  | request _ hf pause cancelled =>
    refine of_launched (hc.request_launched hf pause _) hchronicled.cancelledBefore
      (fun _ => hc.inFlight_le) ?_
    cases cancelled <;> simp
  | cancel hr hcanceller =>
    refine hhandled (handled_cancelRun hr _) ?_
    obtain rfl | ⟨rfl, -⟩ := hcanceller <;> simp
  | begin _ hr hd _ => exact hhandled (handled_begin hr hd) (by simp)
  | heed _ hr _ _ => exact hhandled (handled_finish hr .cancelled) (by simp)
  | crash _ hw =>
    exact hhandled (handled_finish (Scheduler.working?_eq_some.mp hw).1 .failed) (by simp)
  | yield _ hw _ => exact hhandled (handled_yield hw) (by simp)
  | abandon _ hw _ => exact hhandled (handled_abandon hw) (by simp)
  | proceedToLint _ hw _ => exact hhandled (handled_proceedToLint hw) (by simp)
  | proceedToNext _ hw hf _ _ =>
    obtain ⟨r', hp⟩ := passed_proceedToNext hc.valid hw hf
    exact hpassed hp (by simp)
  | skip _ hw hf _ =>
    obtain ⟨r', hp⟩ := passed_skip hc.valid hw hf
    exact hpassed hp (by simp)
  | complete _ hw hf => exact absurd hf (hc.file?_ne_none hw)

theorem InterruptedOnlyIf.moves {p : Prop} (h : s.InterruptedOnlyIf p) (hc : s.Coherent)
    (hchronicled : s.Chronicled) (hm : Moves awake s s') : s'.InterruptedOnlyIf p := by
  induction hm with
  | refl => exact h
  | tail hm' hm ih => exact ih.move (hc.moves hm') (hchronicled.moves hc hm') hm

theorem Explained.moves (h : s.Explained) (hc : s.Coherent) (hchronicled : s.Chronicled)
    (hlive : s.isShutDown = false) (hun : s.InterruptedOnlyIf (awake = false))
    (hm : Moves awake s s') : s'.Explained := by
  induction hm with
  | refl => exact h
  | tail hm' hm ih =>
    have hlive' := (hc.outsideKept_moves hm').isShutDown.trans hlive
    refine ih.move (hc.moves hm') (hchronicled.moves hc hm') hlive' ?_ hm
    intro hawake i hi hinterrupted
    have := hun.moves hc hchronicled hm' i hi hinterrupted
    rw [hawake] at this
    cases this

theorem Explained.affected (h : s.Explained) (hc : s.Coherent) (e : Event) (hends : e ≠ .shutDown) :
    (s.affected e).Explained := by
  cases e with
  | deleteDocument uri => exact h.still [.deleted uri] rfl (by simp) rfl rfl id
  | beginInterruption =>
    obtain heq | ⟨-, i, r, -, hh⟩ := hc.beginInterruption_cases
    · rw [Session.affected, heq]
      exact h
    · refine h.handled_same hh rfl rfl (fun j c _ hfact => ?_) (by simp)
      simp only [List.mem_singleton, Fact.cancelled.injEq] at hfact
      exact .inr (.inl hfact.2)
  | shutDown => exact absurd rfl hends
  | _ => exact h.still [] rfl (by simp) rfl rfl id

end Session

namespace Reachable

variable {sourceDirs : List FileUri} {settings : Settings} {sort : Event → Bool} {m : Moment}

/-- Where the run in flight was interrupted, an interruption is under way that has cancelled a run,
and that will start another. -/
theorem interrupted (h : Reachable sourceDirs settings sort m) :
    m.session.InterruptedOnlyIf (true ∈ m.interruptions) := by
  induction h with
  | initial => exact fun i hi => nomatch hi
  | @next m e h hallows _ ih =>
    have hmoves : m.interruptionsAfter e = m.interruptions →
        (m.session.affected e).InterruptedOnlyIf (true ∈ m.interruptions) →
        (m.next e).session.InterruptedOnlyIf (true ∈ (m.next e).interruptions) := by
      intro hsame haffected
      rw [Moment.next, hsame]
      exact haffected.moves (h.coherent.affected e) (h.chronicled.affected h.coherent e)
        (m.session.moves_after e)
    cases e with
    | beginInterruption =>
      intro i hi hinterrupted
      obtain heq | ⟨hlive, j, r, hj, -⟩ := h.coherent.beginInterruption_cases
      · change m.session.beginInterruption.inFlight? = some i at hi
        change m.session.beginInterruption.IsCancelledBy i .interruption at hinterrupted
        rw [heq] at hi hinterrupted
        exact List.mem_cons_of_mem _ (ih i hi hinterrupted)
      · have hinterruptible : m.session.isInterruptible = true := by
          simp [Session.isInterruptible, hj, hlive]
        rw [Moment.next, Moment.interruptionsAfter, hinterruptible]
        exact List.mem_cons_self
    | endInterruption hasCancelled =>
      cases hasCancelled with
      | true => exact .drain h.coherent h.chronicled
      | false =>
        intro i hi hinterrupted
        have hmem := ih i hi hinterrupted
        change true ∈ m.interruptions.tail
        cases hinterruptions : m.interruptions with
        | nil => simp [hinterruptions] at hmem
        | cons first rest =>
          have hfirst : first = false := by simpa [Moment.allows, hinterruptions] using hallows
          simpa [hinterruptions, hfirst] using hmem
    | shutDown =>
      refine hmoves rfl fun i hi hinterrupted => ?_
      cases hended : m.session.isShutDown with
      | true =>
        have hsame : m.session.affected .shutDown = m.session := by
          simp [Session.affected, Session.shutDown, hended]
        rw [hsame] at hi hinterrupted
        exact ih i hi hinterrupted
      | false =>
        rw [Session.affected, Session.shutDown_eq hended] at hi
        cases hi
    | deleteDocument uri =>
      exact hmoves rfl (ih.still [.deleted uri] rfl (by simp) fun _ => id)
    | _ => exact hmoves rfl (ih.still [] rfl (by simp) fun _ => id)

theorem explained (h : Reachable sourceDirs settings sort m)
    (hlive : m.session.isShutDown = false) : m.session.Explained := by
  induction h with
  | initial => exact Session.explained_initial sourceDirs settings
  | @next m e h hallows _ ih =>
    obtain ⟨hbefore, hends⟩ := h.live_before hlive
    have haffected : (m.session.affected e).isShutDown = false :=
      ((h.coherent.affected e).outsideKept_moves (m.session.moves_after e)).isShutDown.symm.trans
        hlive
    refine ((ih hbefore).affected h.coherent e hends).moves (h.coherent.affected e)
      (h.chronicled.affected h.coherent e) haffected ?_ (m.session.moves_after e)
    -- tasks act only while nothing interrupts
    intro i hi hinterrupted
    cases htask : e.isTask with
    | false => rfl
    | true =>
      have hquiet : m.interruptions = [] := by
        cases e with
        | silence | turn | heedCancellation | typesAnswered | buildAnswered =>
          simpa [Moment.allows, Event.isTask] using hallows
        | _ => cases htask
      have hsame : m.session.affected e = m.session := by
        cases e with
        | silence | turn | heedCancellation | typesAnswered | buildAnswered => rfl
        | _ => cases htask
      rw [hsame] at hi hinterrupted
      have hmem := h.interrupted i hi hinterrupted
      rw [hquiet] at hmem
      cases hmem

end Reachable

-- ---------------------------------------------------------------------------
-- Who comes for an announced file
-- ---------------------------------------------------------------------------

namespace Session

variable {s : Session} {uri : FileUri}

/-- The file was announced, and since then it was neither deleted nor carried through both
phases. -/
def Owes (s : Session) (uri : FileUri) : Prop :=
  ∃ since, History.sinceMark? s.history uri = some since ∧ ¬ History.HasDeleted since uri ∧
    ¬ History.HasCarriedThrough since uri

/-- Something will come to the file: the wait for silence, or the run in flight, or the wait for
silence when that run has ended. -/
def Drives (s : Session) (uri : FileUri) : Prop :=
  uri ∈ s.pending.map (·.uri) ∧ s.debounce?.isSome = true ∨
  ∃ i r, s.inFlight? = some i ∧ s.scheduler.run? i.run = some r ∧ uri ∈ s.unfinished i ∧
    (r.isActive = true ∨ s.debounce?.isSome = true)

/-- The run in flight has ended before it came to the file, since it failed or was cancelled by its
type checker or by those who had asked for it, and nobody waits for silence. -/
def Strands (s : Session) (uri : FileUri) : Prop :=
  s.debounce? = none ∧
  ∃ i r, s.inFlight? = some i ∧ s.scheduler.run? i.run = some r ∧ uri ∈ s.unfinished i ∧
    r.isActive = false ∧
    (r.outcome? = some .failed ∨ s.IsCancelledBy i .producer ∨
      s.IsCancelledBy i .caller ∧ r.action.isOnDemand = true)

/-- A run has found since its announcement that the file is gone, and it is held no longer. -/
def HasGivenUp (s : Session) (uri : FileUri) : Prop :=
  (∃ since, History.sinceMark? s.history uri = some since ∧ History.HasSkipped since uri) ∧
    ¬ s.Holds uri

theorem Strands.not_drives (h : s.Strands uri) : ¬ s.Drives uri := by
  obtain ⟨hnone, i, r, hi, hr, -, hended, -⟩ := h
  rintro (⟨-, hwait⟩ | ⟨j, q, hj, hq, -, hactive | hwait⟩)
  · rw [hnone] at hwait
    cases hwait
  · rw [hi, Option.some.injEq] at hj
    subst hj
    rw [hr, Option.some.injEq] at hq
    rw [← hq, hended] at hactive
    cases hactive
  · rw [hnone] at hwait
    cases hwait

theorem HasGivenUp.not_drives (h : s.HasGivenUp uri) : ¬ s.Drives uri := by
  rintro (⟨hpending, -⟩ | ⟨i, r, hi, -, hunfinished, -⟩)
  · exact h.2 (.inl hpending)
  · refine h.2 (.inr ?_)
    rw [Session.inFlight, hi]
    exact hunfinished

/-- A file that is held is driven or stranded. -/
theorem Holds.drives_or_strands (h : s.Holds uri) (hc : s.Coherent) (he : s.Explained) :
    s.Drives uri ∨ s.Strands uri := by
  obtain hpending | hflight := h
  · refine .inl (.inl ⟨hpending, hc.pending ?_⟩)
    rintro hnil
    simp [hnil] at hpending
  · cases hi : s.inFlight? with
    | none => simp [Session.inFlight, hi] at hflight
    | some i =>
      rw [Session.inFlight, hi, Option.elim_some] at hflight
      obtain ⟨r, hr, -⟩ := hc.inFlight hi
      cases hactive : r.isActive with
      | true => exact .inl (.inr ⟨i, r, hi, hr, hflight, .inl hactive⟩)
      | false =>
        cases hwait : s.debounce? with
        | some time => exact .inl (.inr ⟨i, r, hi, hr, hflight, .inr (by simp [hwait])⟩)
        | none =>
          refine .inr ⟨hwait, i, r, hi, hr, hflight, hactive, ?_⟩
          obtain harmed | hfailed | hcaller | hproducer := he.ended hi hr hactive
          · simp [hwait] at harmed
          · exact .inl hfailed
          · exact .inr (.inr ⟨hcaller, he.onDemand hi hr hcaller⟩)
          · exact .inr (.inl hproducer)

end Session

namespace Reachable

variable {sourceDirs : List FileUri} {settings : Settings} {sort : Event → Bool} {m : Moment}

/-- Before the session ends, nothing drives a file to which something is owed in exactly these
cases: it is stranded with a run that has failed or that was cancelled by its type checker or by
those who had asked for it, or a run has found the file gone. -/
theorem not_drives_iff (h : Reachable sourceDirs settings sort m)
    (hlive : m.session.isShutDown = false) {uri : FileUri} (howes : m.session.Owes uri) :
    ¬ m.session.Drives uri ↔ m.session.Strands uri ∨ m.session.HasGivenUp uri := by
  constructor
  · intro hnot
    obtain ⟨since, hsince, hdeleted, hcarried⟩ := howes
    by_cases hholds : m.session.Holds uri
    · obtain hdrives | hstrands := hholds.drives_or_strands h.coherent (h.explained hlive)
      · exact absurd hdrives hnot
      · exact .inl hstrands
    · obtain hheld | hsettled := (h.dutiful hlive).held hsince
      · exact absurd hheld hholds
      · obtain hd | hc | hskipped := hsettled
        · exact absurd hd hdeleted
        · exact absurd hc hcarried
        · exact .inr ⟨⟨since, hsince, hskipped⟩, hholds⟩
  · rintro (hstrands | hgivenUp)
    · exact hstrands.not_drives
    · exact hgivenUp.not_drives

/-- A run over an announced file waits for types when someone asks for another file, and then
changes their mind. -/
def abandonedRequest : List Event :=
  [.setFile ⟨"file:///A.elm"⟩ "module A exposing (a)\n" true,
   .setFile ⟨"file:///B.elm"⟩ "module B exposing (b)\n" true,
   .changeDocument ⟨"file:///A.elm"⟩, .clock 200, .silence, .turn 1,
   .request [⟨"file:///B.elm"⟩] 0 false, .cancelRequest 2, .turn 2]

theorem not_drives_iff_abandonedRequest :
    let m := abandonedRequest.foldl Moment.next (.initial [] .standard)
    m.session.Owes ⟨"file:///A.elm"⟩ ∧ m.session.Strands ⟨"file:///A.elm"⟩ ∧
      ¬ m.session.Drives ⟨"file:///A.elm"⟩ := by
  intro m
  have hreach : Reachable [] .standard (fun _ => true) m :=
    Reachable.initial.foldl abandonedRequest (by decide +kernel) (by decide +kernel)
  have howes : m.session.Owes ⟨"file:///A.elm"⟩ := by
    have hsome : (History.sinceMark? m.session.history ⟨"file:///A.elm"⟩).isSome = true := by
      decide +kernel
    have hall : (History.sinceMark? m.session.history ⟨"file:///A.elm"⟩).all (fun since =>
        since.all fun entry => match entry.2 with
          | .deleted _ | .linted .. => false
          | _ => true) = true := by
      decide +kernel
    obtain ⟨since, hsince⟩ := Option.isSome_iff_exists.mp hsome
    rw [hsince, Option.all_some, List.all_eq_true] at hall
    refine ⟨since, hsince, ?_, ?_⟩
    · rintro ⟨time, hm⟩
      cases hall _ hm
    · rintro ⟨run, time, time', hsub⟩
      cases hall _ (hsub.subset List.mem_cons_self)
  have hstrands : m.session.Strands ⟨"file:///A.elm"⟩ := by
    have hended : (m.session.scheduler.run? 2).any (fun r =>
        !r.isActive && r.action.isOnDemand) = true := by
      decide +kernel
    obtain ⟨r, hr, hends⟩ := (Option.any_eq_true _ _).mp hended
    simp only [Bool.and_eq_true, Bool.not_eq_true'] at hends
    refine ⟨by decide +kernel, ⟨2, [⟨"file:///B.elm"⟩, ⟨"file:///A.elm"⟩]⟩, r, by decide +kernel, hr,
      by decide +kernel, hends.1, .inr (.inr ⟨⟨200, by decide +kernel⟩, hends.2⟩)⟩
  exact ⟨howes, hstrands, (hreach.not_drives_iff (by decide +kernel) howes).mpr (.inl hstrands)⟩

end Reachable

end ElmLint

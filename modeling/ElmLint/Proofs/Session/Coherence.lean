import ElmLint.Proofs.Session.Effect

/-!
# Coherence

`Coherent` holds of a session at all times: the run in flight is the latest run and has files left,
whatever waits is waited for, and a run in flight that is out of date will have a successor.
-/

namespace ElmLint

theorem nodup_eraseDups [DecidableEq α] (l : List α) : l.eraseDups.Nodup := by
  induction hn : l.length using Nat.strongRecOn generalizing l with
  | _ n ih =>
    cases l with
    | nil => simp
    | cons a l =>
      rw [List.eraseDups_cons, List.nodup_cons]
      refine ⟨by simp, ih _ ?_ _ rfl⟩
      have := List.length_filter_le (fun b => !b == a) l
      simp only [List.length_cons] at hn
      omega

/-- The place of the walk counts the files that are behind it. -/
structure Walk.Fits (w : Walk) : Prop where
  index : w.index = w.progress
  progress : w.progress ≤ w.files.length
  nodup : w.files.Nodup

namespace Walk

variable {w : Walk} {uri : FileUri}

theorem Fits.ofFiles {files : List FileUri} (h : files.Nodup) (sequence pause : Nat)
    (isOnDemand : Bool) : (Walk.ofFiles files sequence pause isOnDemand).Fits :=
  ⟨rfl, Nat.zero_le _, h⟩

theorem Fits.next (h : w.Fits) (hf : w.file? = some uri) : w.next.Fits where
  index := congrArg (· + 1) h.index
  progress := by
    obtain ⟨hlt, -⟩ := List.getElem?_eq_some_iff.mp hf
    have hindex := h.index
    change w.progress + 1 ≤ w.files.length
    omega
  nodup := h.nodup

theorem Fits.phase (h : w.Fits) (phase : Phase) : { w with phase }.Fits :=
  ⟨h.index, h.progress, h.nodup⟩

/-- The files that are not behind a walk begin with the file that it is at. -/
theorem Fits.drop_eq_cons (h : w.Fits) (hf : w.file? = some uri) :
    w.files.drop w.progress = uri :: w.files.drop (w.progress + 1) := by
  obtain ⟨hlt, he⟩ := List.getElem?_eq_some_iff.mp hf
  have hindex := h.index
  subst he
  rw [hindex] at hlt
  simp only [hindex]
  exact List.drop_eq_getElem_cons hlt

/-- The files that are behind a walk when it leaves the file at which it is. -/
theorem Fits.take_next (h : w.Fits) (hf : w.file? = some uri) :
    w.next.files.take w.next.progress = w.files.take w.progress ++ [uri] := by
  rw [file?, h.index] at hf
  obtain ⟨hlt, he⟩ := List.getElem?_eq_some_iff.mp hf
  change w.files.take (w.progress + 1) = _
  rw [List.take_succ_eq_append_getElem hlt, he]

theorem Fits.drop_eq_nil_iff (h : w.Fits) :
    w.files.drop w.progress = [] ↔ w.hasMore = false := by
  have hindex := h.index
  rw [List.drop_eq_nil_iff, hasMore, decide_eq_false_iff_not]
  omega

end Walk

namespace Session

variable {s s' : Session} {uri : FileUri} {n m : Nat} {r r' : Run Walk} {facts : List Fact}
  {i : InFlight}

/-- What holds of a session at all times. -/
structure Coherent (s : Session) : Prop where
  valid : s.scheduler.Valid
  fits : ∀ {n r}, s.scheduler.run? n = some r → r.action.Fits
  inFlight : ∀ {i}, s.inFlight? = some i → ∃ r, s.scheduler.run? i.run = some r ∧
    s.scheduler.current? = some i.run ∧ r.action.files = i.files ∧ r.action.hasMore = true
  active : ∀ {n r}, s.scheduler.run? n = some r → r.isActive = true →
    ∃ i, s.inFlight? = some i ∧ i.run = n
  pending : s.pending ≠ [] → s.debounce?.isSome = true
  stale : ∀ {i r}, s.inFlight? = some i → s.scheduler.run? i.run = some r →
    s.isStale r.action = true → s.debounce?.isSome = true
  kept : ∀ {r}, s.isShutDown = false → s.scheduler.run? s.scheduler.started = some r →
    r.action.hasMore = true → s.inFlight?.isSome = true

theorem coherent_initial (sourceDirs : List FileUri) (settings : Settings) :
    (initial sourceDirs settings).Coherent where
  valid := Scheduler.idle_valid
  fits h := nomatch h
  inFlight h := nomatch h
  active h := nomatch h
  pending h := absurd rfl h
  stale h := nomatch h
  kept _ h := nomatch h

namespace Coherent

/-- The files that the run in flight has not finished. -/
theorem unfinished_eq (h : s.Coherent) (hi : s.inFlight? = some i)
    (hr : s.scheduler.run? i.run = some r) :
    s.unfinished i = r.action.files.drop r.action.progress := by
  obtain ⟨r', hr', -, hfiles, -⟩ := h.inFlight hi
  rw [hr, Option.some.injEq] at hr'
  subst hr'
  simp [unfinished, progress, hr, hfiles]

theorem unfinished_ne_nil (h : s.Coherent) (hi : s.inFlight? = some i) : s.unfinished i ≠ [] := by
  obtain ⟨r, hr, -, -, hmore⟩ := h.inFlight hi
  rw [h.unfinished_eq hi hr, ne_eq, (h.fits hr).drop_eq_nil_iff, hmore]
  decide

theorem inFlight_le (h : s.Coherent) (hi : s.inFlight? = some i) :
    i.run ≤ s.scheduler.started := by
  obtain ⟨r, hr, -⟩ := h.inFlight hi
  exact h.valid.numbered hr

/-- A run that may act is the run in flight. -/
theorem inFlight_eq (h : s.Coherent) (hr : s.scheduler.run? n = some r)
    (ha : r.isActive = true) : s.inFlight? = some ⟨n, r.action.files⟩ := by
  obtain ⟨i, hi, rfl⟩ := h.active hr ha
  obtain ⟨r', hr', -, hfiles, -⟩ := h.inFlight hi
  rw [hr, Option.some.injEq] at hr'
  subst hr'
  rw [hi, hfiles]

theorem hasMore (h : s.Coherent) (hr : s.scheduler.run? n = some r) (ha : r.isActive = true) :
    r.action.hasMore = true := by
  obtain ⟨r', hr', -, -, hmore⟩ := h.inFlight (h.inFlight_eq hr ha)
  rw [hr, Option.some.injEq] at hr'
  exact hr' ▸ hmore

/-- A run in the middle of a step is at a file. -/
theorem file?_ne_none (h : s.Coherent) (hw : s.scheduler.working? n = some r) :
    r.action.file? ≠ none := by
  obtain ⟨hr, hst⟩ := Scheduler.working?_eq_some.mp hw
  have hmore := h.hasMore hr (by simp [Run.isActive, hst])
  simpa [Walk.file?, Walk.hasMore] using hmore

-- ---------------------------------------------------------------------------
-- Moves keep a session coherent
-- ---------------------------------------------------------------------------

theorem handled (h : s.Coherent) (hh : Handled s s' n r r' facts) : s'.Coherent := by
  obtain ⟨phase, haction⟩ : ∃ phase, r'.action = { r.action with phase } := ⟨_, hh.action⟩
  refine ⟨hh.valid h.valid, ?_, ?_, ?_, ?_, ?_, ?_⟩
  · intro m q hq
    rw [hh.run?] at hq
    split at hq
    · rw [← Option.some.inj hq, haction]
      exact (h.fits hh.was).phase phase
    · exact h.fits hq
  · intro i hi
    rw [hh.inFlight?] at hi
    obtain ⟨q, hq, hcurrent, hfiles, hmore⟩ := h.inFlight hi
    rw [hh.run?, hh.current?]
    split
    · rename_i he
      rw [he, hh.was, Option.some.injEq] at hq
      subst hq
      refine ⟨r', rfl, hcurrent, ?_, ?_⟩
      · rw [haction, ← hfiles]
      · rw [haction, ← hmore]
        rfl
    · exact ⟨q, hq, hcurrent, hfiles, hmore⟩
  · intro m q hq ha
    rw [hh.run?] at hq
    rw [hh.inFlight?]
    split at hq
    · rename_i he
      rw [he]
      exact h.active hh.was (hh.isActive (Option.some.inj hq ▸ ha))
    · exact h.active hq ha
  · rw [hh.pending, hh.debounce?]
    exact h.pending
  · intro i q hi hq hs
    rw [hh.inFlight?] at hi
    rw [hh.run?] at hq
    rw [hh.debounce?]
    rw [isStale, hh.sequence] at hs
    split at hq
    · rename_i he
      rw [← Option.some.inj hq, haction] at hs
      exact h.stale hi (he ▸ hh.was) hs
    · exact h.stale hi hq hs
  · intro q hlive hq hmore
    rw [hh.isShutDown] at hlive
    rw [hh.started, hh.run?] at hq
    rw [hh.inFlight?]
    split at hq
    · rename_i he
      rw [← Option.some.inj hq, haction] at hmore
      exact h.kept hlive (he ▸ hh.was) hmore
    · exact h.kept hlive hq hmore

theorem passed (h : s.Coherent) {fact : Fact} (hp : Passed s s' n r r' uri fact) :
    s'.Coherent := by
  have hi := h.inFlight_eq hp.was hp.wasActive
  have hinFlight : s'.inFlight? =
      if r.action.next.hasMore then some ⟨n, r.action.files⟩ else none := by
    rw [hp.inFlight?, hi]
    cases r.action.next.hasMore <;> simp
  refine ⟨hp.valid, ?_, ?_, ?_, ?_, ?_, ?_⟩
  · intro m q hq
    rw [hp.run?] at hq
    split at hq
    · rw [← Option.some.inj hq, hp.action]
      exact (h.fits hp.was).next hp.file?
    · exact h.fits hq
  · intro j hj
    rw [hinFlight] at hj
    split at hj
    · rename_i hmore
      rw [← Option.some.inj hj, hp.run?, hp.current?, if_pos rfl]
      refine ⟨r', rfl, h.valid.active hp.was hp.wasActive, ?_, ?_⟩
      · rw [hp.action]
        rfl
      · rw [hp.action, hmore]
    · cases hj
  · intro m q hq ha
    rw [hp.run?] at hq
    split at hq
    · rename_i he
      rw [← Option.some.inj hq, hp.isActive] at ha
      rw [hinFlight, if_pos ha]
      exact ⟨_, rfl, he.symm⟩
    · rename_i hne
      exact absurd (h.valid.active_unique hq ha hp.was hp.wasActive) hne
  · rw [hp.pending, hp.debounce?]
    exact h.pending
  · intro j q hj hq hs
    rw [hinFlight] at hj
    split at hj
    · rw [← Option.some.inj hj, hp.run?, if_pos rfl, Option.some.injEq] at hq
      rw [hp.debounce?]
      refine h.stale hi hp.was ?_
      rw [isStale, ← hq, hp.action, hp.sequence] at hs
      exact hs
    · cases hj
  · intro q _ hq hmore
    have hlatest : n = s.scheduler.started :=
      (h.valid.latest (h.valid.active hp.was hp.wasActive)).1
    rw [hp.started, hp.run?, if_pos hlatest.symm, Option.some.injEq] at hq
    rw [← hq, hp.action] at hmore
    rw [hinFlight, if_pos hmore]
    rfl

theorem of_launched {files : List FileUri} {pause : Nat} {isOnDemand : Bool}
    {canceller? : Option Canceller}
    (hfits : ∀ {n r}, s.scheduler.run? n = some r → r.action.Fits)
    (hpending : s.pending ≠ [] → s.debounce?.isSome = true)
    (hfiles : files.Nodup) (hne : files ≠ [])
    (hl : Launched s s' files pause isOnDemand canceller?) : s'.Coherent := by
  refine ⟨hl.valid, ?_, ?_, ?_, ?_, ?_, ?_⟩
  · intro m q hq
    by_cases hm : m = s.scheduler.started + 1
    · rw [hm, hl.new, Option.some.injEq] at hq
      rw [← hq]
      exact .ofFiles hfiles _ _ _
    · rw [hl.old m hm] at hq
      obtain ⟨q', hq', rfl⟩ := Option.map_eq_some_iff.mp hq
      rw [action_retired]
      exact hfits hq'
  · intro i hi
    rw [hl.inFlight?, Option.some.injEq] at hi
    subst hi
    refine ⟨_, hl.new, hl.current?, rfl, ?_⟩
    simpa [Run.ofAction, Walk.hasMore, Walk.ofFiles, List.length_pos_iff] using hne
  · intro m q hq ha
    refine ⟨_, hl.inFlight?, ?_⟩
    have hcurrent := hl.valid.active hq ha
    rw [hl.current?, Option.some.injEq] at hcurrent
    exact hcurrent
  · rw [hl.pending, hl.debounce?]
    exact hpending
  · intro i q hi hq hs
    rw [hl.inFlight?, Option.some.injEq] at hi
    rw [← hi, hl.new, Option.some.injEq] at hq
    rw [isStale, ← hq, hl.sequence] at hs
    simp [Run.ofAction, Walk.ofFiles] at hs
  · intro q _ _ _
    rw [hl.inFlight?]
    rfl

theorem current?_eq (h : s.Coherent) (hi : s.inFlight? = some i) :
    s.scheduler.current? = some i.run := by
  obtain ⟨r, -, hcurrent, -⟩ := h.inFlight hi
  exact hcurrent

theorem eraseDups_ne_nil {l : List FileUri} (h : l ≠ []) : l.eraseDups ≠ [] := by
  cases l with
  | nil => exact absurd rfl h
  | cons a l =>
    rw [List.eraseDups_cons]
    exact List.cons_ne_nil _ _

/-- A request always starts a run. -/
theorem request_launched (h : s.Coherent) {files : List FileUri} (hf : files ≠ []) (pause : Nat)
    (canceller? : Option Canceller) :
    Launched s (s.startRun files false pause true canceller?) (files ++ s.inFlight).eraseDups
      pause true canceller? := by
  obtain ⟨hnil, -⟩ | ⟨-, hl⟩ := startRun_cases h.valid (fun _ => h.current?_eq)
    (fun _ => h.unfinished_ne_nil) files false pause true canceller?
  · simp [hf] at hnil
  · simpa using hl

/-- A session that has not ended hears a request for some files. -/
theorem launched_of_request (h : s.Coherent) (hlive : s.isShutDown = false) {files : List FileUri}
    (hf : files ≠ []) (pause : Nat) (cancelled : Bool) :
    Launched s (s.request files pause cancelled) (files ++ s.inFlight).eraseDups pause true
      (if cancelled then some .caller else none) := by
  have hheard : ¬ (s.isShutDown || files.isEmpty) = true := by simp [hlive, hf]
  rw [Session.request, if_neg hheard]
  exact h.request_launched hf pause _

/-- A drain starts a run, unless there is nothing to do at all. -/
theorem drain_cases (h : s.Coherent) :
    (s.marked ++ s.inFlight ++ s.workspace.openFiles = [] ∧ s.inFlight? = none ∧
      s.drain = s.takeMarked) ∨
    (s.marked ++ s.inFlight ++ s.workspace.openFiles ≠ [] ∧
      Launched s.takeMarked s.drain (s.marked ++ s.inFlight ++ s.workspace.openFiles).eraseDups
        s.settings.interFileDelay false (if s.isShutDown then some .ending else none)) :=
  startRun_cases (s := s.takeMarked) h.valid (fun _ => h.current?_eq)
    (fun _ => h.unfinished_ne_nil) s.marked true s.settings.interFileDelay false _

theorem request (h : s.Coherent) {files : List FileUri} (hf : files ≠ []) (pause : Nat)
    (canceller? : Option Canceller) : (s.startRun files false pause true canceller?).Coherent :=
  of_launched h.fits h.pending (nodup_eraseDups _) (eraseDups_ne_nil (by simp [hf]))
    (h.request_launched hf pause canceller?)

theorem drain (h : s.Coherent) : s.drain.Coherent := by
  obtain ⟨-, hnone, heq⟩ | ⟨hne, hl⟩ := h.drain_cases
  · rw [heq]
    refine ⟨h.valid, h.fits, h.inFlight, h.active, fun hp => absurd rfl hp, ?_, h.kept⟩
    intro i r hi
    rw [show s.takeMarked.inFlight? = s.inFlight? from rfl, hnone] at hi
    cases hi
  · exact of_launched (s := s.takeMarked) h.fits (fun hp => absurd rfl hp) (nodup_eraseDups _)
      (eraseDups_ne_nil hne) hl

theorem mark (h : s.Coherent) (uri : FileUri) : (s.mark uri).Coherent :=
  ⟨h.valid, h.fits, h.inFlight, h.active, fun _ => rfl, fun _ _ _ => rfl, h.kept⟩

theorem change (h : s.Coherent) (uri : FileUri) : (s.change uri).Coherent := by
  unfold Session.change
  split
  · exact h
  · exact ⟨h.valid, h.fits, h.inFlight, h.active, fun _ => rfl, fun _ _ _ => rfl, h.kept⟩

theorem move (h : s.Coherent) (hm : Move awake s s') : s'.Coherent := by
  cases hm with
  | tell | askTypes | askBuild | store | handOver =>
    exact ⟨h.valid, h.fits, h.inFlight, h.active, h.pending, h.stale, h.kept⟩
  | mark _ uri => exact h.mark uri
  | change _ uri => exact h.change uri
  | drain => exact h.drain
  | request _ hf pause cancelled => exact h.request hf pause _
  | cancel hr _ => exact h.handled (handled_cancelRun hr _)
  | begin _ hr hd _ => exact h.handled (handled_begin hr hd)
  | heed _ hr _ _ => exact h.handled (handled_finish hr .cancelled)
  | crash _ hw => exact h.handled (handled_finish (Scheduler.working?_eq_some.mp hw).1 .failed)
  | yield _ hw _ => exact h.handled (handled_yield hw)
  | abandon _ hw _ => exact h.handled (handled_abandon hw)
  | proceedToLint _ hw _ => exact h.handled (handled_proceedToLint hw)
  | proceedToNext _ hw hf _ _ =>
    obtain ⟨r', hp⟩ := passed_proceedToNext h.valid hw hf
    exact h.passed hp
  | skip _ hw hf _ =>
    obtain ⟨r', hp⟩ := passed_skip h.valid hw hf
    exact h.passed hp
  | complete _ hw hf => exact absurd hf (h.file?_ne_none hw)

theorem moves (h : s.Coherent) (hm : Moves awake s s') : s'.Coherent := by
  induction hm with
  | refl => exact h
  | tail _ hm ih => exact ih.move hm

/-- No move touches what lies outside. -/
theorem outsideKept_move (h : s.Coherent) (hm : Move awake s s') : OutsideKept s s' := by
  cases hm with
  | tell | askTypes | askBuild | store | handOver | mark | begin | heed | crash | cancel =>
    exact ⟨rfl, rfl, rfl, rfl⟩
  | change _ uri => exact (undisturbed_change _ uri).toOutsideKept
  | drain =>
    obtain ⟨-, -, heq⟩ | ⟨-, hl⟩ := h.drain_cases
    · rw [heq]
      exact ⟨rfl, rfl, rfl, rfl⟩
    · have hmarked : OutsideKept s s.takeMarked := ⟨rfl, rfl, rfl, rfl⟩
      exact hmarked.trans hl.toOutsideKept
  | request _ hf pause cancelled => exact (h.request_launched hf pause _).toOutsideKept
  | yield _ hw _ => exact (handled_yield hw).toOutsideKept
  | abandon _ hw _ => exact (handled_abandon hw).toOutsideKept
  | proceedToLint _ hw _ => exact (handled_proceedToLint hw).toOutsideKept
  | proceedToNext _ hw hf _ _ =>
    obtain ⟨r', hp⟩ := passed_proceedToNext h.valid hw hf
    exact hp.toOutsideKept
  | skip _ hw hf _ =>
    obtain ⟨r', hp⟩ := passed_skip h.valid hw hf
    exact hp.toOutsideKept
  | complete _ hw hf => exact absurd hf (h.file?_ne_none hw)

theorem outsideKept_moves (h : s.Coherent) (hm : Moves awake s s') : OutsideKept s s' := by
  induction hm with
  | refl => exact .refl s
  | tail hm' hm ih => exact ih.trans ((h.moves hm').outsideKept_move hm)

-- ---------------------------------------------------------------------------
-- What moves record
-- ---------------------------------------------------------------------------

/-- A move hands over findings of a run that may do so, or it only takes notes. -/
theorem notes_move (h : s.Coherent) (hm : Move awake s s') :
    (∃ n r uri kind, s.scheduler.working? n = some r ∧ s.isStale r.action = false ∧
      (r.cancelled = false ∨ (s.now, .cancelled n .producer) ∈ s.history) ∧
      s' = s.record (.handedOver n uri kind)) ∨ s.Notes s' := by
  cases hm with
  | @handOver _ n r _ hw hs hcancelled uri kind =>
    exact .inl ⟨n, r, uri, kind, hw, hs, hcancelled, rfl⟩
  | tell _ uri list _ => exact .inr ⟨[.published uri list], rfl, by simp, by simp⟩
  | askTypes _ uri => exact .inr ⟨[.typesAsked uri], rfl, by simp, by simp⟩
  | askBuild _ uri => exact .inr ⟨[.buildAsked _ uri], rfl, by simp, by simp⟩
  | store => exact .inr ⟨[], rfl, by simp, by simp⟩
  | mark _ uri => exact .inr ⟨[.marked uri], rfl, by simp, by simp⟩
  | change hlive uri =>
    refine .inr ⟨[.marked uri, .changed uri], ?_, by simp, by simp⟩
    simp [Session.change, hlive, Session.mark, Session.record, stamped]
  | drain =>
    right
    obtain ⟨-, -, heq⟩ | ⟨-, hl⟩ := h.drain_cases
    · rw [heq]
      exact ⟨[.drained], rfl, by simp, by simp⟩
    · exact hl.notes [.drained] rfl rfl (by simp) (by simp)
  | request _ hf pause cancelled =>
    exact .inr ((h.request_launched hf pause _).notes [] rfl rfl (by simp) (by simp))
  | cancel hr _ => exact .inr ⟨_, (handled_cancelRun hr _).history, by simp, by simp⟩
  | begin | heed | crash => exact .inr ⟨[], rfl, by simp, by simp⟩
  | yield _ hw _ => exact .inr ⟨_, (handled_yield hw).history, by simp, by simp⟩
  | abandon _ hw _ => exact .inr ⟨_, (handled_abandon hw).history, by simp, by simp⟩
  | proceedToLint _ hw _ => exact .inr ⟨_, (handled_proceedToLint hw).history, by simp, by simp⟩
  | proceedToNext _ hw hf _ _ =>
    obtain ⟨r', hp⟩ := passed_proceedToNext h.valid hw hf
    exact .inr ⟨[_], hp.history, by simp, by simp⟩
  | skip _ hw hf hd =>
    obtain ⟨r', hp⟩ := passed_skip h.valid hw hf
    refine .inr ⟨[_], hp.history, by simp, fun n uri hm => ?_⟩
    cases List.mem_singleton.mp hm
    exact hd
  | complete _ hw hf => exact absurd hf (h.file?_ne_none hw)

-- ---------------------------------------------------------------------------
-- Events keep a session coherent
-- ---------------------------------------------------------------------------

theorem shutDown (h : s.Coherent) : s.shutDown.Coherent := by
  cases hs : s.isShutDown with
  | true =>
    rw [shutDown_again hs]
    exact h
  | false =>
    have hvalid := (h.valid.cancelAll fun walk => !walk.isOnDemand).stop
    refine ⟨?_, ?_, ?_, ?_, ?_, ?_, ?_⟩
    · rw [shutDown_eq hs]
      exact hvalid
    · intro n r hr
      obtain ⟨r', hr', haction⟩ := run?_shutDown hs hr
      rw [haction]
      exact h.fits hr'
    · intro i hi
      rw [shutDown_eq hs] at hi
      cases hi
    · intro n r hr ha
      -- the current run was stopped, and no other was active
      rw [shutDown_eq hs] at hr
      have hcurrent := hvalid.active hr ha
      rw [Scheduler.current?_stop] at hcurrent
      cases hcurrent
    · rw [shutDown_eq hs]
      exact fun hp => absurd rfl hp
    · intro i r hi
      rw [shutDown_eq hs] at hi
      cases hi
    · intro r hlive
      rw [shutDown_eq hs] at hlive
      cases hlive

/-- An interruption cancels the run in flight, and only that. -/
theorem beginInterruption_cases (h : s.Coherent) :
    s.beginInterruption = s ∨ s.isShutDown = false ∧ ∃ i r, s.inFlight? = some i ∧
      Handled s s.beginInterruption i.run r { r with cancelled := true }
        [.cancelled i.run .interruption] := by
  unfold Session.beginInterruption
  split
  · rename_i i hi
    split
    · exact .inl rfl
    · rename_i hlive
      obtain ⟨r, hr, -⟩ := h.inFlight hi
      exact .inr ⟨Bool.eq_false_iff.mpr hlive, i, r, hi, handled_cancelRun hr .interruption⟩
  · exact .inl rfl

theorem beginInterruption (h : s.Coherent) : s.beginInterruption.Coherent := by
  obtain heq | ⟨-, i, r, -, hh⟩ := h.beginInterruption_cases
  · rw [heq]
    exact h
  · exact h.handled hh

theorem affected (h : s.Coherent) (e : Event) : (s.affected e).Coherent := by
  cases e with
  | deleteDocument uri =>
    refine ⟨h.valid, h.fits, h.inFlight, h.active, fun hp => h.pending ?_, h.stale, h.kept⟩
    intro hnil
    exact hp (by simp [Session.affected, forget, hnil])
  | beginInterruption => exact h.beginInterruption
  | shutDown => exact h.shutDown
  | _ => exact ⟨h.valid, h.fits, h.inFlight, h.active, h.pending, h.stale, h.kept⟩

theorem after (h : s.Coherent) (e : Event) : (s.after e).Coherent :=
  (h.affected e).moves (moves_after s e)

/-- Only the end ends a session, and it stays ended. -/
theorem live_of_affected (h : s.Coherent) {e : Event} (hlive : (s.affected e).isShutDown = false) :
    s.isShutDown = false ∧ e ≠ .shutDown := by
  cases e with
  | shutDown =>
    cases hs : s.isShutDown with
    | true => simp [Session.affected, shutDown_again hs, hs] at hlive
    | false => simp [Session.affected, shutDown_eq hs] at hlive
  | beginInterruption =>
    refine ⟨?_, by simp⟩
    obtain heq | ⟨hbefore, -⟩ := h.beginInterruption_cases
    · rw [Session.affected, heq] at hlive
      exact hlive
    · exact hbefore
  | _ => exact ⟨hlive, by simp⟩

end Coherent

-- ---------------------------------------------------------------------------
-- The files in flight
-- ---------------------------------------------------------------------------

theorem Handled.inFlight_eq (hh : Handled s s' n r r' facts) : s'.inFlight = s.inFlight := by
  obtain ⟨phase, haction⟩ : ∃ phase, r'.action = { r.action with phase } := ⟨_, hh.action⟩
  unfold Session.inFlight unfinished progress
  rw [hh.inFlight?]
  cases s.inFlight? with
  | none => rfl
  | some i =>
    simp only [Option.elim_some]
    rw [hh.run?]
    split
    · rename_i he
      rw [he, hh.was, Option.elim_some, Option.elim_some, haction]
    · rfl

theorem Launched.inFlight_eq {files : List FileUri} {pause : Nat} {isOnDemand : Bool}
    {canceller? : Option Canceller} (hl : Launched s s' files pause isOnDemand canceller?) :
    s'.inFlight = files := by
  unfold Session.inFlight unfinished progress
  rw [hl.inFlight?, Option.elim_some, hl.new]
  rfl

/-- A file that is left behind was the first of those in flight. -/
theorem Coherent.inFlight_passed (h : s.Coherent) {fact : Fact}
    (hp : Passed s s' n r r' uri fact) : s.inFlight = uri :: s'.inFlight := by
  have hi := h.inFlight_eq hp.was hp.wasActive
  have hfits := h.fits hp.was
  have hbefore : s.inFlight = r.action.files.drop r.action.progress := by
    rw [Session.inFlight, hi, Option.elim_some, h.unfinished_eq hi hp.was]
  have hafter : s'.inFlight = r.action.files.drop (r.action.progress + 1) := by
    have hnext := (hfits.next hp.file?).drop_eq_nil_iff
    rw [Session.inFlight, hp.inFlight?, hi]
    cases hmore : r.action.next.hasMore with
    | true =>
      simp only [Bool.true_eq_false, false_and, ↓reduceIte, Option.elim_some]
      rw [unfinished, progress, hp.run?, if_pos rfl, Option.elim_some, hp.action]
      rfl
    | false =>
      simp only [Option.any_some, decide_true, and_self, ↓reduceIte, Option.elim_none]
      exact (hnext.mpr hmore).symm
  rw [hbefore, hafter]
  exact hfits.drop_eq_cons hp.file?

end Session

end ElmLint

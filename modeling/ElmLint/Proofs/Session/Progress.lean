import ElmLint.Proofs.Session.Course
import ElmLint.Proofs.Session.History

/-!
# What is behind a run

The progress of a run counts exactly those of its files that it was through with, in the order in
which it was, whatever happens to the run in between.
-/

namespace ElmLint

namespace Session

open History (passed TypesFirst)

variable {s s' : Session} {uri : FileUri} {n m : Nat} {r r' : Run Walk} {facts : List Fact}

/-- Progress and history agree on the files that are behind a run. -/
structure Recounted (s : Session) : Prop where
  behind : ∀ {n r}, s.scheduler.run? n = some r →
    passed s.history n = r.action.files.take r.action.progress
  unused : ∀ {n}, s.scheduler.started < n → passed s.history n = []
  typed : ∀ {n r uri}, s.scheduler.run? n = some r → r.action.phase = .lint →
    r.action.file? = some uri → ∃ time, (time, .typed n uri) ∈ s.history
  typesFirst : TypesFirst s.history

theorem recounted_initial (sourceDirs : List FileUri) (settings : Settings) :
    (initial sourceDirs settings).Recounted where
  behind h := nomatch h
  unused _ := rfl
  typed h := nomatch h
  typesFirst := fun _ _ _ _ h => nomatch List.suffix_nil.mp h

namespace Recounted

/-- Facts are recorded that leave no file behind, and no run leaves its file. -/
theorem recorded (h : s.Recounted) (facts : List Fact)
    (hhistory : s'.history = s.stamped facts ++ s.history)
    (hfacts : ∀ fact ∈ facts, fact.leavesBehind = true)
    (hstarted : s.scheduler.started ≤ s'.scheduler.started)
    (hruns : ∀ n r', s'.scheduler.run? n = some r' →
      (∃ r, s.scheduler.run? n = some r ∧
        r'.action = { r.action with phase := r'.action.phase } ∧
        (r'.action.phase = .lint → r.action.phase = .lint ∨
          ∀ uri, r.action.file? = some uri → .typed n uri ∈ facts)) ∨
      s.scheduler.started < n ∧ r'.action.progress = 0 ∧ r'.action.phase = .types) :
    s'.Recounted := by
  have hstamped : ∀ fact ∈ s.stamped facts, fact.2.leavesBehind = true := by
    simpa [stamped] using hfacts
  refine ⟨?_, ?_, ?_, ?_⟩
  · intro n r' hr'
    rw [hhistory, History.passed_append hstamped]
    obtain ⟨r, hr, haction, -⟩ | ⟨hnew, hprogress, -⟩ := hruns n r' hr'
    · rw [h.behind hr, haction]
    · rw [h.unused hnew, hprogress, List.take_zero]
  · intro n hn
    rw [hhistory, History.passed_append hstamped]
    exact h.unused (Nat.lt_of_le_of_lt hstarted hn)
  · intro n r' uri hr' hphase hfile
    rw [hhistory]
    obtain ⟨r, hr, haction, hlint⟩ | ⟨-, -, htypes⟩ := hruns n r' hr'
    · have hfile' : r.action.file? = some uri := by
        rw [haction] at hfile
        exact hfile
      obtain hbefore | hnew := hlint hphase
      · obtain ⟨time, hm⟩ := h.typed hr hbefore hfile'
        exact ⟨time, List.mem_append_right _ hm⟩
      · exact ⟨s.now, List.mem_append_left _ (List.mem_map.mpr ⟨_, hnew uri hfile', rfl⟩)⟩
    · rw [htypes] at hphase
      cases hphase
  · rw [hhistory]
    exact h.typesFirst.append hstamped

theorem still (h : s.Recounted) (facts : List Fact)
    (hhistory : s'.history = s.stamped facts ++ s.history)
    (hfacts : ∀ fact ∈ facts, fact.leavesBehind = true) (hscheduler : s'.scheduler = s.scheduler) :
    s'.Recounted := by
  refine h.recorded facts hhistory hfacts (Nat.le_of_eq (by rw [hscheduler]))
    fun n r' hr' => .inl ?_
  rw [hscheduler] at hr'
  exact ⟨r', hr', rfl, .inl⟩

theorem handled (h : s.Recounted) (hh : Handled s s' n r r' facts)
    (hfacts : ∀ fact ∈ facts, fact.leavesBehind = true)
    (hphase : r'.action.phase = .lint → r.action.phase = .lint ∨
      ∀ uri, r.action.file? = some uri → .typed n uri ∈ facts) : s'.Recounted := by
  refine h.recorded facts hh.history hfacts (Nat.le_of_eq hh.started.symm) fun m q hq => .inl ?_
  rw [hh.run?] at hq
  split at hq
  · rename_i he
    subst he
    cases hq
    exact ⟨r, hh.was, hh.action, hphase⟩
  · exact ⟨q, hq, rfl, .inl⟩

theorem launched (h : s.Recounted) {t : Session} {files : List FileUri} {pause : Nat}
    {isOnDemand : Bool} {canceller? : Option Canceller}
    (hl : Launched t s' files pause isOnDemand canceller?) (hnow : t.now = s.now)
    (hscheduler : t.scheduler = s.scheduler) (facts : List Fact)
    (hhistory : t.history = s.stamped facts ++ s.history)
    (hfacts : ∀ fact ∈ facts, fact.leavesBehind = true) : s'.Recounted := by
  refine h.recorded _ (hl.history_eq hhistory hnow) ?_ ?_ fun n r' hr' => ?_
  · intro fact hm
    obtain hm | hm := List.mem_append.mp hm
    · obtain rfl | ⟨m, c, rfl⟩ := mem_launchFacts hm <;> rfl
    · exact hfacts fact hm
  · rw [hl.started, hscheduler]
    exact Nat.le_succ _
  · by_cases hn : n = t.scheduler.started + 1
    · rw [hn, hl.new, Option.some.injEq] at hr'
      subst hr'
      refine .inr ⟨?_, rfl, rfl⟩
      rw [hn, hscheduler]
      exact Nat.lt_succ_self _
    · rw [hl.old n hn] at hr'
      obtain ⟨r, hr, rfl⟩ := Option.map_eq_some_iff.mp hr'
      rw [hscheduler] at hr
      refine .inl ⟨r, hr, ?_, ?_⟩ <;> rw [action_retired]
      exact .inl

/-- The file that a run leaves behind is the next of its files. -/
theorem passed (h : s.Recounted) (hc : s.Coherent) {fact : Fact}
    (hp : Passed s s' n r r' uri fact) (hfact : fact = .linted n uri ∧ r.action.phase = .lint ∨
      fact = .skipped n uri) : s'.Recounted := by
  have hfits := hc.fits hp.was
  have hpassed : ∀ m, History.passed s'.history m =
      if n = m then History.passed s.history m ++ [uri] else History.passed s.history m := by
    intro m
    rw [hp.history]
    obtain ⟨rfl, -⟩ | rfl := hfact <;> rfl
  refine ⟨?_, ?_, ?_, ?_⟩
  · intro m q hq
    rw [hp.run?] at hq
    rw [hpassed]
    split at hq
    · rename_i he
      subst he
      cases hq
      rw [if_pos rfl, h.behind hp.was, hp.action]
      exact (hfits.take_next hp.file?).symm
    · rename_i hne
      rw [if_neg (Ne.symm hne)]
      exact h.behind hq
  · intro m hm
    rw [hp.started] at hm
    have hne : n ≠ m := by
      have := hc.valid.numbered hp.was
      omega
    rw [hpassed, if_neg hne]
    exact h.unused hm
  · intro m q other hq hphase hfile
    rw [hp.run?] at hq
    rw [hp.history]
    split at hq
    · cases hq
      rw [hp.action] at hphase
      cases hphase
    · obtain ⟨time, hm⟩ := h.typed hq hphase hfile
      exact ⟨time, List.mem_cons_of_mem _ hm⟩
  · rw [hp.history]
    intro time m other earlier hsuffix
    obtain he | hsuffix := List.suffix_cons_iff.mp hsuffix
    · obtain ⟨rfl, hphase⟩ | rfl := hfact
      · cases he
        exact h.typed hp.was hphase hp.file?
      · cases he
    · exact h.typesFirst time m other earlier hsuffix

theorem drain (h : s.Recounted) (hc : s.Coherent) : s.drain.Recounted := by
  obtain ⟨-, -, heq⟩ | ⟨-, hl⟩ := hc.drain_cases
  · rw [heq]
    exact h.still [.drained] rfl (by simp [Fact.leavesBehind]) rfl
  · exact h.launched hl rfl rfl [.drained] rfl (by simp [Fact.leavesBehind])

theorem move (h : s.Recounted) (hc : s.Coherent) (hm : Move awake s s') : s'.Recounted := by
  cases hm with
  | tell _ uri list _ => exact h.still [.published uri list] rfl (by simp [Fact.leavesBehind]) rfl
  | askTypes _ uri => exact h.still [.typesAsked uri] rfl (by simp [Fact.leavesBehind]) rfl
  | askBuild _ uri => exact h.still [.buildAsked _ uri] rfl (by simp [Fact.leavesBehind]) rfl
  | store => exact h.still [] rfl (by simp) rfl
  | @handOver _ n r _ _ _ _ uri kind =>
    exact h.still [.handedOver n uri kind] rfl (by simp [Fact.leavesBehind]) rfl
  | mark _ uri => exact h.still [.marked uri] rfl (by simp [Fact.leavesBehind]) rfl
  | change hlive uri =>
    refine h.still [.marked uri, .changed uri] ?_ (by simp [Fact.leavesBehind])
      (undisturbed_change s uri).scheduler
    simp [Session.change, hlive, Session.mark, Session.record, stamped]
  | drain => exact h.drain hc
  | request _ hf pause cancelled =>
    exact h.launched (hc.request_launched hf pause _) rfl rfl [] rfl (by simp)
  | cancel hr _ => exact h.handled (handled_cancelRun hr _) (by simp [Fact.leavesBehind]) .inl
  | begin _ hr hd _ => exact h.handled (handled_begin hr hd) (by simp) .inl
  | heed _ hr _ _ => exact h.handled (handled_finish hr .cancelled) (by simp) .inl
  | crash _ hw =>
    exact h.handled (handled_finish (Scheduler.working?_eq_some.mp hw).1 .failed) (by simp) .inl
  | yield _ hw _ => exact h.handled (handled_yield hw) (by simp) .inl
  | abandon _ hw _ => exact h.handled (handled_abandon hw) (by simp [Fact.leavesBehind]) .inl
  | proceedToLint _ hw hf =>
    refine h.handled (handled_proceedToLint hw) (by simp [Fact.leavesBehind])
      fun _ => .inr fun uri huri => ?_
    rw [hf, Option.some.injEq] at huri
    simp [huri]
  | proceedToNext _ hw hf hphase _ =>
    obtain ⟨r', hp⟩ := passed_proceedToNext hc.valid hw hf
    exact h.passed hc hp (.inl ⟨rfl, hphase⟩)
  | skip _ hw hf _ =>
    obtain ⟨r', hp⟩ := passed_skip hc.valid hw hf
    exact h.passed hc hp (.inr rfl)
  | complete _ hw hf => exact absurd hf (hc.file?_ne_none hw)

theorem shutDown (h : s.Recounted) : s.shutDown.Recounted := by
  cases hs : s.isShutDown with
  | true =>
    rw [shutDown_again hs]
    exact h
  | false =>
    refine h.recorded [.ended] ?_ (by simp [Fact.leavesBehind]) ?_ fun n r hr => .inl ?_
    · rw [shutDown_eq hs]
      rfl
    · rw [shutDown_eq hs, Scheduler.started_stop]
      exact Nat.le_refl _
    · obtain ⟨r', hr', haction⟩ := run?_shutDown hs hr
      refine ⟨r', hr', ?_, ?_⟩ <;> rw [haction]
      exact .inl

theorem affected (h : s.Recounted) (hc : s.Coherent) (e : Event) : (s.affected e).Recounted := by
  cases e with
  | deleteDocument uri => exact h.still [.deleted uri] rfl (by simp [Fact.leavesBehind]) rfl
  | beginInterruption =>
    obtain heq | ⟨-, i, r, -, hh⟩ := hc.beginInterruption_cases
    · rw [Session.affected, heq]
      exact h
    · exact h.handled hh (by simp [Fact.leavesBehind]) .inl
  | shutDown => exact h.shutDown
  | _ => exact h.still [] rfl (by simp) rfl

end Recounted

-- ---------------------------------------------------------------------------
-- Files that are found gone
-- ---------------------------------------------------------------------------

/-- A history has grown, and the files that runs have found gone meanwhile are not in `s`. -/
def SkipsGone (s : Session) (history : History) : Prop :=
  ∃ later, history = later ++ s.history ∧
    ∀ time n uri, (time, .skipped n uri) ∈ later → s.workspace.document? uri = none

theorem SkipsGone.of_stamped (facts : List Fact)
    (hhistory : s'.history = s.stamped facts ++ s.history)
    (hgone : ∀ n uri, .skipped n uri ∈ facts → s.workspace.document? uri = none) :
    s.SkipsGone s'.history := by
  refine ⟨s.stamped facts, hhistory, ?_⟩
  intro time n uri hm
  obtain ⟨fact, hfact, he⟩ := List.mem_map.mp hm
  cases he
  exact hgone n uri hfact

theorem SkipsGone.trans {history : History} (h : s.SkipsGone s'.history)
    (hworkspace : s'.workspace = s.workspace) (h' : s'.SkipsGone history) : s.SkipsGone history := by
  obtain ⟨earlier, hearlier, hgone⟩ := h
  obtain ⟨later, hlater, hgone'⟩ := h'
  refine ⟨later ++ earlier, by rw [hlater, hearlier, List.append_assoc], ?_⟩
  intro time n uri hm
  obtain hm | hm := List.mem_append.mp hm
  · rw [← hworkspace]
    exact hgone' time n uri hm
  · exact hgone time n uri hm

namespace Coherent

theorem skipsGone_move (h : s.Coherent) (hm : Move awake s s') : s.SkipsGone s'.history := by
  obtain ⟨n, r, uri, kind, -, -, -, rfl⟩ | ⟨facts, hhistory, -, hgone⟩ := h.notes_move hm
  · exact .of_stamped [.handedOver n uri kind] rfl (by simp)
  · exact .of_stamped facts hhistory hgone

theorem skipsGone_moves (h : s.Coherent) (hm : Moves awake s s') : s.SkipsGone s'.history := by
  induction hm with
  | refl => exact .of_stamped [] rfl (by simp)
  | tail hm' hm ih =>
    exact ih.trans (h.outsideKept_moves hm').workspace ((h.moves hm').skipsGone_move hm)

/-- No event lets a run find a file gone that the project has. -/
theorem skipsGone_after (h : s.Coherent) (e : Event) : s.SkipsGone (s.after e).history := by
  have hmoves := (h.affected e).skipsGone_moves (moves_after s e)
  cases e with
  | setFile | removeFile | showFile | hideFile => exact .of_stamped [] rfl (by simp)
  | deleteDocument uri =>
    have hforget : s.SkipsGone (s.forget uri).history := .of_stamped [.deleted uri] rfl (by simp)
    exact hforget.trans rfl hmoves
  | beginInterruption =>
    obtain heq | ⟨-, i, r, -, hh⟩ := h.beginInterruption_cases
    · exact .of_stamped [] (congrArg Session.history heq) (by simp)
    · exact .of_stamped _ hh.history (by simp)
  | shutDown =>
    change s.SkipsGone s.shutDown.history
    cases hs : s.isShutDown with
    | true =>
      rw [shutDown_again hs]
      exact .of_stamped [] rfl (by simp)
    | false =>
      rw [shutDown_eq hs]
      exact ⟨[(s.now, .ended)], rfl, by simp⟩
  | _ => exact .trans (.of_stamped [] rfl (by simp)) rfl hmoves

end Coherent

end Session

theorem Reachable.recounted {sourceDirs : List FileUri} {settings : Settings} {sort : Event → Bool}
    {m : Moment} (h : Reachable sourceDirs settings sort m) : m.session.Recounted :=
  h.invariant (Session.recounted_initial sourceDirs settings) (fun e hc hs => hs.affected hc e)
    fun hc hs hm => hs.move hc hm

end ElmLint

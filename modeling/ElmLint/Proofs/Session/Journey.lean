import ElmLint.Proofs.Session.Progress
import Mathlib.Data.List.Forall2

/-!
# The way of a run through its files

A run takes its files one after the other. With each it stops at the types, perhaps more than once,
and then leaves it by linting it, or leaves it because it is gone. What the history tells of a run is
the list of these stops (`Journeyed`).
-/

namespace ElmLint

/-- The fact is a stop of a run at one of its files. -/
def Fact.isStopOf (run : Nat) : Fact → Bool
  | .typed run' _ | .linted run' _ | .skipped run' _ => run' = run
  | _ => false

namespace History

/-- The stops of a run, the earliest first. -/
def stops (history : History) (run : Nat) : List Fact :=
  ((history.map (·.2)).filter (Fact.isStopOf run)).reverse

theorem stops_append (later earlier : History) (run : Nat) :
    stops (later ++ earlier) run = stops earlier run ++ stops later run := by
  simp [stops]

end History

namespace Session

open History (stops)

variable {s s' : Session} {uri : FileUri} {n m : Nat} {r r' : Run Walk} {facts : List Fact}

/-- The stops of a run at a file that it has left: it has come through the types and then linted the
file, or it has found the file gone, at first or after the types. -/
def IsVisit (run : Nat) (uri : FileUri) (stops : List Fact) : Prop :=
  ∃ count, stops = List.replicate count (.typed run uri) ++ [.linted run uri] ∧ 0 < count ∨
    stops = List.replicate count (.typed run uri) ++ [.skipped run uri]

/-- The stops of a run at the file at which it is: if it is about to lint the file, then it has come
through the types. -/
def IsStay (run : Nat) (walk : Walk) (stops : List Fact) : Prop :=
  stops = [] ∧ walk.phase = .types ∨
    ∃ uri count, walk.file? = some uri ∧ 0 < count ∧ stops = List.replicate count (.typed run uri)

/-- The stops of a run that is at some place of its files. -/
def IsJourney (run : Nat) (walk : Walk) (stops : List Fact) : Prop :=
  ∃ visits stay, stops = visits.flatten ++ stay ∧
    List.Forall₂ (IsVisit run) (walk.files.take walk.progress) visits ∧ IsStay run walk stay

/-- What the history tells of the runs is how they have come to where they are. -/
structure Journeyed (s : Session) : Prop where
  journey : ∀ {n r}, s.scheduler.run? n = some r → IsJourney n r.action (stops s.history n)
  unused : ∀ {n}, s.scheduler.started < n → stops s.history n = []

theorem journeyed_initial (sourceDirs : List FileUri) (settings : Settings) :
    (initial sourceDirs settings).Journeyed where
  journey h := nomatch h
  unused _ := rfl

theorem stops_stamped (s : Session) (facts : List Fact) (run : Nat) :
    stops (s.stamped facts) run = (facts.filter (Fact.isStopOf run)).reverse := by
  simp [stops, stamped, Function.comp_def]

namespace Journeyed

/-- Facts are recorded, of which those that are stops are stops of one run, and no other run
changes its place. -/
theorem recorded (h : s.Journeyed) (facts : List Fact)
    (hhistory : s'.history = s.stamped facts ++ s.history)
    (hstarted : s.scheduler.started ≤ s'.scheduler.started)
    (hunused : ∀ n, s.scheduler.started < n → facts.filter (Fact.isStopOf n) = [])
    (hruns : ∀ n r', s'.scheduler.run? n = some r' →
      IsJourney n r'.action (stops s.history n ++ (facts.filter (Fact.isStopOf n)).reverse)) :
    s'.Journeyed := by
  constructor
  · intro n r' hr'
    rw [hhistory, History.stops_append, stops_stamped]
    exact hruns n r' hr'
  · intro n hn
    have hn' := Nat.lt_of_le_of_lt hstarted hn
    rw [hhistory, History.stops_append, stops_stamped, h.unused hn', hunused n hn']
    rfl

/-- No stop is recorded, and no run changes its place. -/
theorem kept (h : s.Journeyed) (facts : List Fact)
    (hhistory : s'.history = s.stamped facts ++ s.history)
    (hfacts : ∀ n, facts.filter (Fact.isStopOf n) = [])
    (hstarted : s.scheduler.started ≤ s'.scheduler.started)
    (hruns : ∀ n r', s'.scheduler.run? n = some r' →
      (∃ r, s.scheduler.run? n = some r ∧ r'.action = r.action) ∨
      s.scheduler.started < n ∧ r'.action.progress = 0 ∧ r'.action.phase = .types) :
    s'.Journeyed := by
  refine h.recorded facts hhistory hstarted (fun n _ => hfacts n) fun n r' hr' => ?_
  rw [hfacts, List.reverse_nil, List.append_nil]
  obtain ⟨r, hr, haction⟩ | ⟨hnew, hprogress, hphase⟩ := hruns n r' hr'
  · rw [haction]
    exact h.journey hr
  · rw [h.unused hnew]
    refine ⟨[], [], rfl, ?_, .inl ⟨rfl, hphase⟩⟩
    rw [hprogress]
    exact .nil

theorem still (h : s.Journeyed) (facts : List Fact)
    (hhistory : s'.history = s.stamped facts ++ s.history)
    (hfacts : ∀ n, facts.filter (Fact.isStopOf n) = []) (hscheduler : s'.scheduler = s.scheduler) :
    s'.Journeyed := by
  refine h.kept facts hhistory hfacts (Nat.le_of_eq (by rw [hscheduler])) fun n r hr => .inl ?_
  rw [hscheduler] at hr
  exact ⟨r, hr, rfl⟩

theorem handled (h : s.Journeyed) (hh : Handled s s' n r r' facts)
    (hfacts : ∀ n, facts.filter (Fact.isStopOf n) = []) (haction : r'.action = r.action) :
    s'.Journeyed := by
  refine h.kept facts hh.history hfacts (Nat.le_of_eq hh.started.symm) fun m q hq => .inl ?_
  rw [hh.run?] at hq
  split at hq
  · rename_i he
    subst he
    cases hq
    exact ⟨r, hh.was, haction⟩
  · exact ⟨q, hq, rfl⟩

/-- A run makes a stop at the file at which it is. -/
theorem stopped (h : s.Journeyed) (hc : s.Coherent) {fact : Fact} (hr : s.scheduler.run? n = some r)
    (hhistory : s'.history = s.stamped [fact] ++ s.history)
    (hstarted : s'.scheduler.started = s.scheduler.started)
    (hruns : ∀ m, s'.scheduler.run? m = if m = n then some r' else s.scheduler.run? m)
    (hfact : ∀ m, fact.isStopOf m = decide (n = m))
    (hjourney : ∀ stops, IsJourney n r.action stops → IsJourney n r'.action (stops ++ [fact])) :
    s'.Journeyed := by
  have hother {m : Nat} (hne : m ≠ n) : [fact].filter (Fact.isStopOf m) = [] := by
    simp [hfact, Ne.symm hne]
  refine h.recorded [fact] hhistory (Nat.le_of_eq hstarted.symm) (fun m hm => hother ?_)
    fun m q hq => ?_
  · have := hc.valid.numbered hr
    omega
  · rw [hruns] at hq
    split at hq
    · rename_i he
      subst he
      cases hq
      simpa [hfact] using hjourney _ (h.journey hr)
    · rename_i hne
      rw [hother hne, List.reverse_nil, List.append_nil]
      exact h.journey hq

/-- A run comes through the types of the file at which it is. -/
theorem proceedToLint (h : s.Journeyed) (hc : s.Coherent) (hw : s.scheduler.working? n = some r)
    (hf : r.action.file? = some uri) : (s.proceedToLint n r.action uri).Journeyed := by
  have hh : Handled s (s.proceedToLint n r.action uri) n r _ [.typed n uri] :=
    handled_proceedToLint hw
  refine h.stopped hc hh.was hh.history hh.started hh.run? (fun m => rfl) ?_
  rintro stops ⟨visits, stay, rfl, hvisits, hstay⟩
  refine ⟨visits, stay ++ [.typed n uri], by rw [List.append_assoc], hvisits, .inr ?_⟩
  obtain ⟨rfl, -⟩ | ⟨other, count, hother, -, rfl⟩ := hstay
  · exact ⟨uri, 1, hf, Nat.one_pos, rfl⟩
  · obtain rfl : other = uri := Option.some.inj (hother.symm.trans hf)
    exact ⟨other, count + 1, hf, Nat.succ_pos _, List.replicate_succ'.symm⟩

/-- A run leaves the file at which it is. -/
theorem passed (h : s.Journeyed) (hc : s.Coherent) {fact : Fact}
    (hp : Passed s s' n r r' uri fact) (hfact : fact = .linted n uri ∧ r.action.phase = .lint ∨
      fact = .skipped n uri) : s'.Journeyed := by
  refine h.stopped hc hp.was hp.history hp.started hp.run? ?_ ?_
  · obtain ⟨rfl, -⟩ | rfl := hfact <;> exact fun m => rfl
  rintro stops ⟨visits, stay, rfl, hvisits, hstay⟩
  have hvisit : IsVisit n uri (stay ++ [fact]) := by
    obtain ⟨rfl, hphase⟩ | ⟨other, count, hother, hcount, rfl⟩ := hstay
    · obtain ⟨rfl, hlint⟩ | rfl := hfact
      · rw [hphase] at hlint
        cases hlint
      · exact ⟨0, .inr rfl⟩
    · obtain rfl : other = uri := Option.some.inj (hother.symm.trans hp.file?)
      obtain ⟨rfl, -⟩ | rfl := hfact
      · exact ⟨count, .inl ⟨rfl, hcount⟩⟩
      · exact ⟨count, .inr rfl⟩
  rw [hp.action]
  refine ⟨visits ++ [stay ++ [fact]], [], by simp, ?_, .inl ⟨rfl, rfl⟩⟩
  rw [(hc.fits hp.was).take_next hp.file?]
  exact List.rel_append hvisits (.cons hvisit .nil)

theorem launched (h : s.Journeyed) {t : Session} {files : List FileUri} {pause : Nat}
    {isOnDemand : Bool} {canceller? : Option Canceller}
    (hl : Launched t s' files pause isOnDemand canceller?) (hnow : t.now = s.now)
    (hscheduler : t.scheduler = s.scheduler) (facts : List Fact)
    (hhistory : t.history = s.stamped facts ++ s.history)
    (hfacts : ∀ n, facts.filter (Fact.isStopOf n) = []) : s'.Journeyed := by
  refine h.kept _ (hl.history_eq hhistory hnow) (fun n => ?_) ?_ fun n r' hr' => ?_
  · rw [List.filter_append, hfacts, List.append_nil, List.filter_eq_nil_iff]
    intro fact hm
    obtain rfl | ⟨m, c, rfl⟩ := mem_launchFacts hm <;> exact nofun
  · rw [hl.started, hscheduler]
    exact Nat.le_succ _
  · by_cases hn : n = t.scheduler.started + 1
    · rw [hn, hl.new, Option.some.injEq] at hr'
      subst hr'
      refine .inr ⟨?_, rfl, rfl⟩
      rw [hn, hscheduler]
      exact Nat.lt_succ_self _
    · rw [hl.old n hn] at hr'
      obtain ⟨r, hr, rfl⟩ := Option.map_eq_some_iff.mp hr'
      rw [hscheduler] at hr
      exact .inl ⟨r, hr, action_retired ..⟩

theorem drain (h : s.Journeyed) (hc : s.Coherent) : s.drain.Journeyed := by
  obtain ⟨-, -, heq⟩ | ⟨-, hl⟩ := hc.drain_cases
  · rw [heq]
    exact h.still [.drained] rfl (fun _ => rfl) rfl
  · exact h.launched hl rfl rfl [.drained] rfl fun _ => rfl

theorem move (h : s.Journeyed) (hc : s.Coherent) (hm : Move awake s s') : s'.Journeyed := by
  cases hm with
  | tell _ uri list _ => exact h.still [.published uri list] rfl (fun _ => rfl) rfl
  | askTypes _ uri => exact h.still [.typesAsked uri] rfl (fun _ => rfl) rfl
  | askBuild _ uri => exact h.still [.buildAsked _ uri] rfl (fun _ => rfl) rfl
  | store => exact h.still [] rfl (fun _ => rfl) rfl
  | @handOver _ n r _ _ _ _ uri kind => exact h.still [.handedOver n uri kind] rfl (fun _ => rfl) rfl
  | mark _ uri => exact h.still [.marked uri] rfl (fun _ => rfl) rfl
  | change hlive uri =>
    refine h.still [.marked uri, .changed uri] ?_ (fun _ => rfl) (undisturbed_change s uri).scheduler
    simp [Session.change, hlive, Session.mark, Session.record, stamped]
  | drain => exact h.drain hc
  | request _ hf pause cancelled =>
    exact h.launched (hc.request_launched hf pause _) rfl rfl [] rfl fun _ => rfl
  | cancel hr _ => exact h.handled (handled_cancelRun hr _) (fun _ => rfl) rfl
  | begin _ hr hd _ => exact h.handled (handled_begin hr hd) (fun _ => rfl) rfl
  | heed _ hr _ _ => exact h.handled (handled_finish hr .cancelled) (fun _ => rfl) rfl
  | crash _ hw =>
    exact h.handled (handled_finish (Scheduler.working?_eq_some.mp hw).1 .failed) (fun _ => rfl) rfl
  | yield _ hw _ => exact h.handled (handled_yield hw) (fun _ => rfl) rfl
  | abandon _ hw _ => exact h.handled (handled_abandon hw) (fun _ => rfl) rfl
  | proceedToLint _ hw hf => exact h.proceedToLint hc hw hf
  | proceedToNext _ hw hf hphase _ =>
    obtain ⟨r', hp⟩ := passed_proceedToNext hc.valid hw hf
    exact h.passed hc hp (.inl ⟨rfl, hphase⟩)
  | skip _ hw hf _ =>
    obtain ⟨r', hp⟩ := passed_skip hc.valid hw hf
    exact h.passed hc hp (.inr rfl)
  | complete _ hw hf => exact absurd hf (hc.file?_ne_none hw)

theorem affected (h : s.Journeyed) (hc : s.Coherent) (e : Event) : (s.affected e).Journeyed := by
  cases e with
  | deleteDocument uri => exact h.still [.deleted uri] rfl (fun _ => rfl) rfl
  | beginInterruption =>
    obtain heq | ⟨-, i, r, -, hh⟩ := hc.beginInterruption_cases
    · rw [Session.affected, heq]
      exact h
    · exact h.handled hh (fun _ => rfl) rfl
  | shutDown =>
    cases hs : s.isShutDown with
    | true =>
      rw [Session.affected, shutDown_again hs]
      exact h
    | false =>
      refine h.kept [.ended] ?_ (fun _ => rfl) ?_ fun n r hr => .inl (run?_shutDown hs hr)
      · rw [Session.affected, shutDown_eq hs]
        rfl
      · rw [Session.affected, shutDown_eq hs, Scheduler.started_stop]
        exact Nat.le_refl _
  | _ => exact h.still [] rfl (fun _ => rfl) rfl

end Journeyed

end Session

theorem Reachable.journeyed {sourceDirs : List FileUri} {settings : Settings} {sort : Event → Bool}
    {m : Moment} (h : Reachable sourceDirs settings sort m) : m.session.Journeyed :=
  h.invariant (Session.journeyed_initial sourceDirs settings) (fun e hc hs => hs.affected hc e)
    fun hc hs hm => hs.move hc hm

end ElmLint

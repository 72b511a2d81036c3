import ElmLint.Proofs.Session.Course
import ElmLint.Proofs.Session.History

/-!
# What is owed to an announced file

A file that was announced waits or is in flight until it is settled: until it was deleted, or a run
has carried it through both phases, or a run has found it gone.
-/

namespace ElmLint

namespace Session

open History (sinceMark? HasSettled HasDeleted HasCarriedThrough)

variable {s s' : Session} {uri : FileUri} {n m : Nat} {r r' : Run Walk} {facts : List Fact}

/-- The file waits, or is among those that the run in flight has not finished. -/
def Holds (s : Session) (uri : FileUri) : Prop :=
  uri ∈ s.pending.map (·.uri) ∨ uri ∈ s.inFlight

/-- Files that were announced are held until they are settled. -/
structure Dutiful (s : Session) : Prop where
  held : ∀ {uri since}, sinceMark? s.history uri = some since →
    s.Holds uri ∨ HasSettled since uri
  /-- The run that is about to lint a file was through with its types since the announcement. -/
  typed : ∀ {n r uri since}, s.scheduler.run? n = some r → r.isActive = true →
    r.action.phase = .lint → r.action.file? = some uri → sinceMark? s.history uri = some since →
    uri ∈ s.pending.map (·.uri) ∨ HasDeleted since uri ∨ ∃ time, (time, .typed n uri) ∈ since

/-- The announcement of a file is not undone by what is recorded later. -/
theorem sinceMark?_stamped {history : History} (h : .marked uri ∉ facts) :
    sinceMark? (s.stamped facts ++ history) uri =
      (sinceMark? history uri).map (s.stamped facts ++ ·) := by
  refine History.sinceMark?_append fun time hm => ?_
  obtain ⟨fact, hfact, he⟩ := List.mem_map.mp hm
  cases he
  exact h hfact

namespace Dutiful

/-- Facts other than announcements are recorded. What is held no longer is settled by them, and a run
that has come to the linting of a file has told that it was through with its types. -/
theorem recorded (h : s.Dutiful) (facts : List Fact)
    (hhistory : s'.history = s.stamped facts ++ s.history)
    (hmarked : ∀ uri, .marked uri ∉ facts)
    (hheld : ∀ uri since, sinceMark? s.history uri = some since → s.Holds uri →
      s'.Holds uri ∨ HasSettled (s.stamped facts ++ since) uri)
    (hruns : ∀ n r' uri, s'.scheduler.run? n = some r' → r'.isActive = true →
      r'.action.phase = .lint → r'.action.file? = some uri → .typed n uri ∈ facts ∨
      (∃ r, s.scheduler.run? n = some r ∧ r.isActive = true ∧ r.action.phase = .lint ∧
        r.action.file? = some uri) ∧
      (uri ∈ s.pending.map (·.uri) → uri ∈ s'.pending.map (·.uri) ∨ .deleted uri ∈ facts)) :
    s'.Dutiful := by
  constructor
  · intro uri since hsince
    rw [hhistory, sinceMark?_stamped (hmarked uri)] at hsince
    obtain ⟨since, hbefore, rfl⟩ := Option.map_eq_some_iff.mp hsince
    obtain hholds | hsettled := h.held hbefore
    · exact hheld uri since hbefore hholds
    · exact .inr (hsettled.append _)
  · intro n r' uri since hr' hactive hphase hfile hsince
    rw [hhistory, sinceMark?_stamped (hmarked uri)] at hsince
    obtain ⟨since, hbefore, rfl⟩ := Option.map_eq_some_iff.mp hsince
    obtain htyped | ⟨⟨r, hr, hactive, hphase, hfile⟩, hpending⟩ :=
      hruns n r' uri hr' hactive hphase hfile
    · refine .inr (.inr ⟨s.now, List.mem_append_left _ ?_⟩)
      exact List.mem_map.mpr ⟨_, htyped, rfl⟩
    · obtain hp | ⟨time, hd⟩ | ⟨time, ht⟩ := h.typed hr hactive hphase hfile hbefore
      · obtain hp | hdeleted := hpending hp
        · exact .inl hp
        · refine .inr (.inl ⟨s.now, List.mem_append_left _ ?_⟩)
          exact List.mem_map.mpr ⟨_, hdeleted, rfl⟩
      · exact .inr (.inl ⟨time, List.mem_append_right _ hd⟩)
      · exact .inr (.inr ⟨time, List.mem_append_right _ ht⟩)

/-- Facts are recorded that concern neither waiting files nor runs. -/
theorem still (h : s.Dutiful) (facts : List Fact)
    (hhistory : s'.history = s.stamped facts ++ s.history) (hmarked : ∀ uri, .marked uri ∉ facts)
    (hpending : s'.pending = s.pending) (hinFlight : s'.inFlight = s.inFlight)
    (hscheduler : s'.scheduler = s.scheduler) : s'.Dutiful := by
  refine h.recorded facts hhistory hmarked ?_ ?_
  · intro uri since _ hholds
    left
    unfold Holds
    rw [hpending, hinFlight]
    exact hholds
  · rw [hscheduler, hpending]
    exact fun n r uri hr ha hp hf => .inr ⟨⟨r, hr, ha, hp, hf⟩, .inl⟩

theorem handled (h : s.Dutiful) (hh : Handled s s' n r r' facts)
    (hmarked : ∀ uri, .marked uri ∉ facts)
    (hphase : r'.action.phase = .lint → r.action.phase = .lint ∨
      ∀ uri, r.action.file? = some uri → .typed n uri ∈ facts) : s'.Dutiful := by
  obtain ⟨phase, haction⟩ : ∃ phase, r'.action = { r.action with phase } := ⟨_, hh.action⟩
  refine h.recorded facts hh.history hmarked ?_ ?_
  · intro uri since _ hholds
    left
    unfold Holds
    rw [hh.pending, hh.inFlight_eq]
    exact hholds
  · intro m q uri hq hactive hlint hfile
    rw [hh.run?] at hq
    rw [hh.pending]
    split at hq
    · rename_i he
      subst he
      cases hq
      have hfile' : r.action.file? = some uri := by
        rw [haction] at hfile
        exact hfile
      obtain hbefore | htyped := hphase hlint
      · exact .inr ⟨⟨r, hh.was, hh.isActive hactive, hbefore, hfile'⟩, .inl⟩
      · exact .inl (htyped uri hfile')
    · exact .inr ⟨⟨q, hq, hactive, hlint, hfile⟩, .inl⟩

/-- The file that is left behind is settled, and the next one comes first to its types. -/
theorem passed (h : s.Dutiful) (hc : s.Coherent) {fact : Fact}
    (hp : Passed s s' n r r' uri fact) (hmarked : ∀ uri, .marked uri ≠ fact)
    (hsettled : ∀ since, sinceMark? s.history uri = some since →
      uri ∈ s.pending.map (·.uri) ∨ HasSettled ((s.now, fact) :: since) uri) : s'.Dutiful := by
  refine h.recorded [fact] hp.history (by simpa using hmarked) ?_ ?_
  · intro other since hsince hholds
    unfold Holds at hholds ⊢
    rw [hp.pending]
    rw [hc.inFlight_passed hp] at hholds
    obtain hpending | hflight := hholds
    · exact .inl (.inl hpending)
    · cases hflight with
      | head => exact (hsettled since hsince).imp_left .inl
      | tail _ hflight => exact .inl (.inr hflight)
  · intro m q other hq hactive hlint hfile
    rw [hp.run?] at hq
    split at hq
    · cases hq
      rw [hp.action] at hlint
      cases hlint
    · rw [hp.pending]
      exact .inr ⟨⟨q, hq, hactive, hlint, hfile⟩, .inl⟩

/-- A run that starts over all files that are in flight, and over all that wait no longer. -/
theorem launched (h : s.Dutiful) {t : Session} {files : List FileUri} {pause : Nat}
    {isOnDemand : Bool} {canceller? : Option Canceller}
    (hl : Launched t s' files pause isOnDemand canceller?) (hnow : t.now = s.now)
    (facts : List Fact) (hhistory : t.history = s.stamped facts ++ s.history)
    (hmarked : ∀ uri, .marked uri ∉ facts)
    (hheld : ∀ uri, s.Holds uri → uri ∈ t.pending.map (·.uri) ∨ uri ∈ files) : s'.Dutiful := by
  have hmarked' : ∀ uri, .marked uri ∉ t.launchFacts files canceller? ++ facts := by
    intro uri
    rw [List.mem_append, not_or]
    refine ⟨fun hm => ?_, hmarked uri⟩
    obtain he | ⟨m, c, he⟩ := mem_launchFacts hm <;> cases he
  refine h.recorded _ (hl.history_eq hhistory hnow) hmarked' ?_ ?_
  · intro uri since _ hholds
    left
    unfold Holds
    rw [hl.pending, hl.inFlight_eq]
    exact hheld uri hholds
  · -- only the new run is active, and it comes first to types
    intro m q uri hq hactive hlint _
    have hcurrent := hl.valid.active hq hactive
    rw [hl.current?, Option.some.injEq] at hcurrent
    rw [← hcurrent, hl.new, Option.some.injEq] at hq
    rw [← hq] at hlint
    cases hlint

theorem request (h : s.Dutiful) (hc : s.Coherent) {files : List FileUri} (hf : files ≠ [])
    (pause : Nat) (canceller? : Option Canceller) :
    (s.startRun files false pause true canceller?).Dutiful :=
  h.launched (hc.request_launched hf pause canceller?) rfl [] rfl (by simp) fun uri hholds =>
    hholds.imp_right fun hflight => by simp [hflight]

theorem drain (h : s.Dutiful) (hc : s.Coherent) : s.drain.Dutiful := by
  obtain ⟨hnil, hnone, heq⟩ | ⟨-, hl⟩ := hc.drain_cases
  · rw [heq]
    have hempty : ∀ uri, ¬ s.Holds uri := by
      intro uri hholds
      simp only [List.append_eq_nil_iff] at hnil
      rw [Holds, ← mem_marked, hnil.1.1, hnil.1.2] at hholds
      simp at hholds
    have hhistory : s.takeMarked.history = s.stamped [.drained] ++ s.history := rfl
    refine h.recorded [.drained] hhistory (by simp) ?_ ?_
    · exact fun uri since _ hholds => absurd hholds (hempty uri)
    · refine fun n r uri hr ha hp hf => .inr ⟨⟨r, hr, ha, hp, hf⟩, fun hpending => ?_⟩
      exact absurd (.inl hpending) (hempty uri)
  · refine h.launched hl rfl [.drained] rfl (by simp) fun uri hholds => .inr ?_
    obtain hpending | hflight := hholds
    · rw [← mem_marked] at hpending
      simp [hpending]
    · simp [hflight]

/-- A file waits when it is announced. -/
theorem mark (h : s.Dutiful) (uri : FileUri) : (s.mark uri).Dutiful := by
  have hmem : ∀ other, other ∈ (s.mark uri).pending.map (·.uri) ↔
      other = uri ∨ other ∈ s.pending.map (·.uri) :=
    Mark.mem_insert_uri ⟨uri, s.now⟩ s.pending
  have hsince : ∀ other since, other ≠ uri →
      sinceMark? (s.mark uri).history other = some since →
      ∃ before, sinceMark? s.history other = some before ∧
        since = [(s.now, .marked uri)] ++ before := by
    intro other since hne hother
    change sinceMark? ([(s.now, .marked uri)] ++ s.history) other = some since at hother
    rw [History.sinceMark?_append (by simp [hne])] at hother
    obtain ⟨before, hbefore, he⟩ := Option.map_eq_some_iff.mp hother
    exact ⟨before, hbefore, he.symm⟩
  constructor
  · intro other since hother
    by_cases he : other = uri
    · exact .inl (.inl ((hmem other).mpr (.inl he)))
    · obtain ⟨before, hbefore, rfl⟩ := hsince other since he hother
      obtain hholds | hsettled := h.held hbefore
      · exact .inl (hholds.imp_left fun hp => (hmem other).mpr (.inr hp))
      · exact .inr (hsettled.append _)
  · intro n r other since hr hactive hphase hfile hother
    by_cases he : other = uri
    · exact .inl ((hmem other).mpr (.inl he))
    · obtain ⟨before, hbefore, rfl⟩ := hsince other since he hother
      obtain hp | ⟨time, hd⟩ | ⟨time, ht⟩ := h.typed hr hactive hphase hfile hbefore
      · exact .inl ((hmem other).mpr (.inr hp))
      · exact .inr (.inl ⟨time, List.mem_append_right _ hd⟩)
      · exact .inr (.inr ⟨time, List.mem_append_right _ ht⟩)

theorem change (h : s.Dutiful) (uri : FileUri) : (s.change uri).Dutiful := by
  unfold Session.change
  split
  · exact h
  · refine mark (s := { s.record (.changed uri) with sequence := s.sequence + 1 }) ?_ uri
    exact h.still [.changed uri] rfl (by simp) rfl rfl rfl

theorem forget (h : s.Dutiful) (uri : FileUri) : (s.forget uri).Dutiful := by
  have hkept : ∀ other, other ∈ s.pending.map (·.uri) →
      other ∈ (s.forget uri).pending.map (·.uri) ∨ Fact.deleted other ∈ [Fact.deleted uri] := by
    intro other hp
    by_cases he : other = uri
    · exact .inr (by simp [he])
    · left
      obtain ⟨mark, hmark, rfl⟩ := List.mem_map.mp hp
      exact List.mem_map.mpr ⟨mark, List.mem_filter.mpr ⟨hmark, by simpa using he⟩, rfl⟩
  have hhistory : (s.forget uri).history = s.stamped [.deleted uri] ++ s.history := rfl
  refine h.recorded [.deleted uri] hhistory (by simp) ?_ ?_
  · intro other since _ hholds
    obtain hp | hflight := hholds
    · obtain hp | hdeleted := hkept other hp
      · exact .inl (.inl hp)
      · rw [← Fact.deleted.inj (List.mem_singleton.mp hdeleted)]
        exact .inr (.inl ⟨s.now, List.mem_cons_self⟩)
    · exact .inl (.inr hflight)
  · exact fun n r other hr ha hp hf => .inr ⟨⟨r, hr, ha, hp, hf⟩, hkept other⟩

/-- A linted file was through with its types before, unless it waits again or was deleted. -/
theorem proceedToNext (h : s.Dutiful) (hc : s.Coherent) (hw : s.scheduler.working? n = some r)
    (hf : r.action.file? = some uri) (hphase : r.action.phase = .lint) :
    (s.proceedToNext n r.action uri).Dutiful := by
  obtain ⟨hr, hst⟩ := Scheduler.working?_eq_some.mp hw
  obtain ⟨r', hp⟩ := passed_proceedToNext hc.valid hw hf
  refine h.passed hc hp nofun fun since hsince => ?_
  obtain hpending | ⟨time, hd⟩ | ⟨time, ht⟩ :=
    h.typed hr (by simp [Run.isActive, hst]) hphase hf hsince
  · exact .inl hpending
  · exact .inr (.inl ⟨time, List.mem_cons_of_mem _ hd⟩)
  · refine .inr (.inr (.inl ⟨n, time, s.now, ?_⟩))
    exact (List.singleton_sublist.mpr ht).cons_cons _

theorem skip (h : s.Dutiful) (hc : s.Coherent) (hw : s.scheduler.working? n = some r)
    (hf : r.action.file? = some uri) : (s.skip n r.action uri).Dutiful := by
  obtain ⟨r', hp⟩ := passed_skip hc.valid hw hf
  refine h.passed hc hp nofun fun since _ => .inr (.inr (.inr ?_))
  exact ⟨s.now, n, List.mem_cons_self⟩

theorem move (h : s.Dutiful) (hc : s.Coherent) (hm : Move awake s s') : s'.Dutiful := by
  cases hm with
  | tell _ uri list _ => exact h.still [.published uri list] rfl (by simp) rfl rfl rfl
  | askTypes _ uri => exact h.still [.typesAsked uri] rfl (by simp) rfl rfl rfl
  | askBuild _ uri => exact h.still [.buildAsked _ uri] rfl (by simp) rfl rfl rfl
  | store => exact h.still [] rfl (by simp) rfl rfl rfl
  | @handOver _ n r _ _ _ _ uri kind =>
    exact h.still [.handedOver n uri kind] rfl (by simp) rfl rfl rfl
  | mark _ uri => exact h.mark uri
  | change _ uri => exact h.change uri
  | drain => exact h.drain hc
  | request _ hf pause cancelled => exact h.request hc hf pause _
  | cancel hr _ => exact h.handled (handled_cancelRun hr _) (by simp) .inl
  | begin _ hr hd _ => exact h.handled (handled_begin hr hd) (by simp) .inl
  | heed _ hr _ _ => exact h.handled (handled_finish hr .cancelled) (by simp) .inl
  | crash _ hw =>
    exact h.handled (handled_finish (Scheduler.working?_eq_some.mp hw).1 .failed) (by simp) .inl
  | yield _ hw _ => exact h.handled (handled_yield hw) (by simp) .inl
  | abandon _ hw _ => exact h.handled (handled_abandon hw) (by simp) .inl
  | proceedToLint _ hw hf =>
    refine h.handled (handled_proceedToLint hw) (by simp) fun _ => .inr fun uri huri => ?_
    rw [hf, Option.some.injEq] at huri
    simp [huri]
  | proceedToNext _ hw hf hphase _ => exact h.proceedToNext hc hw hf hphase
  | skip _ hw hf _ => exact h.skip hc hw hf
  | complete _ hw hf => exact absurd hf (hc.file?_ne_none hw)

theorem affected (h : s.Dutiful) (hc : s.Coherent) (e : Event) (hends : e ≠ .shutDown) :
    (s.affected e).Dutiful := by
  cases e with
  | deleteDocument uri => exact h.forget uri
  | beginInterruption =>
    obtain heq | ⟨-, i, r, -, hh⟩ := hc.beginInterruption_cases
    · rw [Session.affected, heq]
      exact h
    · exact h.handled hh (by simp) .inl
  | shutDown => exact absurd rfl hends
  | _ => exact h.still [] rfl (by simp) rfl rfl rfl

end Dutiful

theorem dutiful_initial (sourceDirs : List FileUri) (settings : Settings) :
    (initial sourceDirs settings).Dutiful where
  held h := nomatch h
  typed h := nomatch h

end Session

theorem Reachable.dutiful {sourceDirs : List FileUri} {settings : Settings} {sort : Event → Bool}
    {m : Moment} (h : Reachable sourceDirs settings sort m)
    (hlive : m.session.isShutDown = false) : m.session.Dutiful := by
  refine h.invariant (P := fun s => s.isShutDown = false → s.Dutiful)
    (fun _ => Session.dutiful_initial sourceDirs settings) ?_ ?_ hlive
  · intro s e hc hs hlive
    obtain ⟨hbefore, hends⟩ := hc.live_of_affected hlive
    exact (hs hbefore).affected hc e hends
  · intro awake s s' hc hs hm hlive
    rw [(hc.outsideKept_move hm).isShutDown] at hlive
    exact (hs hlive).move hc hm

end ElmLint

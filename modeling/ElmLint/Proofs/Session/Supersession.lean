import ElmLint.Proofs.Session.Progress

/-!
# What a run takes over

A new run is over the files that wait, oldest announcement first, or over those that are asked for;
then over what the run in flight had not finished; then over the open files. No file is lost and
none is there twice.
-/

namespace ElmLint

open History (latestMark?)

namespace Session

variable {s s' : Session} {uri : FileUri} {n m : Nat} {r r' : Run Walk} {facts : List Fact}

-- ---------------------------------------------------------------------------
-- The files that wait
-- ---------------------------------------------------------------------------

/-- The files that wait are those that the history tells to wait, each with the time of its latest
announcement. -/
structure Queued (s : Session) : Prop where
  nodup : (s.pending.map (·.uri)).Nodup
  mem_iff : ∀ {uri time}, ⟨uri, time⟩ ∈ s.pending ↔ latestMark? s.history uri = some time

namespace Queued

theorem still (h : s.Queued) (facts : List Fact)
    (hhistory : s'.history = s.stamped facts ++ s.history)
    (hfacts : ∀ fact ∈ facts, fact.leavesWaiting = true) (hpending : s'.pending = s.pending) :
    s'.Queued := by
  refine ⟨by rw [hpending]; exact h.nodup, ?_⟩
  intro uri time
  rw [hpending, hhistory, History.latestMark?_append (by simpa [stamped] using hfacts)]
  exact h.mem_iff

theorem empty (hpending : s.pending = []) (hnone : ∀ uri, latestMark? s.history uri = none) :
    s.Queued := by
  constructor
  · simp [hpending]
  · simp [hpending, hnone]

theorem mark (h : s.Queued) (uri : FileUri) : (s.mark uri).Queued := by
  refine ⟨Mark.nodup_insert h.nodup, ?_⟩
  intro other time
  change _ ∈ Mark.insert ⟨uri, s.now⟩ s.pending ↔
    (if uri = other then some s.now else latestMark? s.history other) = some time
  rw [Mark.mem_insert, h.mem_iff]
  by_cases he : uri = other
  · simp [he, eq_comm]
  · simp [he, Ne.symm he]

theorem change (h : s.Queued) (uri : FileUri) : (s.change uri).Queued := by
  unfold Session.change
  split
  · exact h
  · refine mark (s := { s.record (.changed uri) with sequence := s.sequence + 1 }) ?_ uri
    exact h.still [.changed uri] rfl (by simp [Fact.leavesWaiting]) rfl

theorem forget (h : s.Queued) (uri : FileUri) : (s.forget uri).Queued := by
  constructor
  · exact (List.filter_sublist.map _).nodup h.nodup
  · intro other time
    change _ ∈ s.pending.filter _ ↔
      (if uri = other then none else latestMark? s.history other) = some time
    rw [List.mem_filter, h.mem_iff]
    by_cases he : uri = other
    · simp [he]
    · simp [he, Ne.symm he]

theorem launched (h : s.Queued) {files : List FileUri} {pause : Nat} {isOnDemand : Bool}
    {canceller? : Option Canceller} (hl : Launched s s' files pause isOnDemand canceller?) :
    s'.Queued := by
  refine h.still _ hl.history (fun fact hm => ?_) hl.pending
  obtain rfl | ⟨n, c, rfl⟩ := mem_launchFacts hm <;> rfl

theorem drain (hc : s.Coherent) : s.drain.Queued := by
  have hmarked : s.takeMarked.Queued := empty rfl fun _ => rfl
  obtain ⟨-, -, heq⟩ | ⟨-, hl⟩ := hc.drain_cases
  · rw [heq]
    exact hmarked
  · exact hmarked.launched hl

theorem handled (h : s.Queued) (hh : Handled s s' n r r' facts)
    (hfacts : ∀ fact ∈ facts, fact.leavesWaiting = true) : s'.Queued :=
  h.still facts hh.history hfacts hh.pending

theorem move (h : s.Queued) (hc : s.Coherent) (hm : Move awake s s') : s'.Queued := by
  cases hm with
  | tell _ uri list _ => exact h.still [.published uri list] rfl (by simp [Fact.leavesWaiting]) rfl
  | askTypes _ uri => exact h.still [.typesAsked uri] rfl (by simp [Fact.leavesWaiting]) rfl
  | askBuild _ uri => exact h.still [.buildAsked _ uri] rfl (by simp [Fact.leavesWaiting]) rfl
  | store => exact h.still [] rfl (by simp) rfl
  | @handOver _ n r _ _ _ _ uri kind =>
    exact h.still [.handedOver n uri kind] rfl (by simp [Fact.leavesWaiting]) rfl
  | mark _ uri => exact h.mark uri
  | change _ uri => exact h.change uri
  | drain => exact drain hc
  | request _ hf pause cancelled => exact h.launched (hc.request_launched hf pause _)
  | cancel hr _ => exact h.handled (handled_cancelRun hr _) (by simp [Fact.leavesWaiting])
  | begin _ hr hd _ => exact h.handled (handled_begin hr hd) (by simp)
  | heed _ hr _ _ => exact h.handled (handled_finish hr .cancelled) (by simp)
  | crash _ hw =>
    exact h.handled (handled_finish (Scheduler.working?_eq_some.mp hw).1 .failed) (by simp)
  | yield _ hw _ => exact h.handled (handled_yield hw) (by simp)
  | abandon _ hw _ => exact h.handled (handled_abandon hw) (by simp [Fact.leavesWaiting])
  | proceedToLint _ hw _ =>
    exact h.handled (handled_proceedToLint hw) (by simp [Fact.leavesWaiting])
  | proceedToNext _ hw hf _ _ =>
    obtain ⟨r', hp⟩ := passed_proceedToNext hc.valid hw hf
    exact h.still [_] hp.history (by simp [Fact.leavesWaiting]) hp.pending
  | skip _ hw hf _ =>
    obtain ⟨r', hp⟩ := passed_skip hc.valid hw hf
    exact h.still [_] hp.history (by simp [Fact.leavesWaiting]) hp.pending
  | complete _ hw hf => exact absurd hf (hc.file?_ne_none hw)

theorem affected (h : s.Queued) (hc : s.Coherent) (e : Event) : (s.affected e).Queued := by
  cases e with
  | deleteDocument uri => exact h.forget uri
  | beginInterruption =>
    obtain heq | ⟨-, i, r, -, hh⟩ := hc.beginInterruption_cases
    · rw [Session.affected, heq]
      exact h
    · exact h.handled hh (by simp [Fact.leavesWaiting])
  | shutDown =>
    cases hs : s.isShutDown with
    | true =>
      rw [Session.affected, shutDown_again hs]
      exact h
    | false =>
      rw [Session.affected, shutDown_eq hs]
      exact empty rfl fun _ => rfl
  | _ => exact h.still [] rfl (by simp) rfl

end Queued

/-- The files that the history tells to wait, each once, the oldest announcement first. -/
structure IsQueueOf (history : History) (files : List FileUri) : Prop where
  nodup : files.Nodup
  mem_iff : ∀ uri, uri ∈ files ↔ (latestMark? history uri).isSome = true
  sorted : files.Pairwise fun a b =>
    (latestMark? history a).getD 0 ≤ (latestMark? history b).getD 0

theorem Queued.marked (h : s.Queued) : IsQueueOf s.history s.marked := by
  have hperm : (s.pending.mergeSort fun a b => decide (a.time ≤ b.time)).Perm s.pending :=
    List.mergeSort_perm _ _
  constructor
  · exact (hperm.map (·.uri)).nodup_iff.mpr h.nodup
  · intro uri
    rw [mem_marked, List.mem_map]
    constructor
    · rintro ⟨⟨_, time⟩, hm, rfl⟩
      rw [h.mem_iff.mp hm]
      rfl
    · intro hsome
      obtain ⟨time, htime⟩ := Option.isSome_iff_exists.mp hsome
      exact ⟨⟨uri, time⟩, h.mem_iff.mpr htime, rfl⟩
  · have hsorted : (s.pending.mergeSort fun a b => decide (a.time ≤ b.time)).Pairwise
        fun a b => decide (a.time ≤ b.time) = true :=
      List.pairwise_mergeSort (fun a b c => by simpa using Nat.le_trans)
        (fun a b => by simpa using Nat.le_total _ _) s.pending
    refine List.pairwise_map.mpr (hsorted.imp_of_mem fun {a b} ha hb hle => ?_)
    have hlatest : ∀ m ∈ s.pending, latestMark? s.history m.uri = some m.time :=
      fun m hm => h.mem_iff.mp hm
    rw [hlatest a (hperm.mem_iff.mp ha), hlatest b (hperm.mem_iff.mp hb)]
    simpa using hle

-- ---------------------------------------------------------------------------
-- A run that takes the place of another
-- ---------------------------------------------------------------------------

/-- A run over `files`, each once, has taken the place of the run in flight. It has not begun, and
the run that it replaces is cancelled and over. -/
structure Succeeds (s s' : Session) (files : List FileUri) : Prop where
  nodup : files.Nodup
  started : s'.scheduler.started = s.scheduler.started + 1
  inFlight? : s'.inFlight? = some ⟨s'.scheduler.started, files⟩
  new : ∃ r, s'.scheduler.run? s'.scheduler.started = some r ∧ r.action.files = files ∧
    r.action.progress = 0 ∧ r.stage = .ready
  replaced : ∀ i, s.inFlight? = some i → ∃ r, s'.scheduler.run? i.run = some r ∧
    r.cancelled = true ∧ r.isActive = false

theorem Launched.succeeds {files : List FileUri} {pause : Nat} {isOnDemand : Bool}
    {canceller? : Option Canceller} (hl : Launched s s' files pause isOnDemand canceller?)
    (hv : s.scheduler.Valid)
    (hcurrent : ∀ i, s.inFlight? = some i → s.scheduler.current? = some i.run)
    (hfiles : files.Nodup) : Succeeds s s' files where
  nodup := hfiles
  started := hl.started
  inFlight? := by
    rw [hl.started]
    exact hl.inFlight?
  new := by
    rw [hl.started]
    exact ⟨_, hl.new, rfl, rfl, rfl⟩
  replaced i hi := by
    obtain ⟨hlatest, hsome⟩ := hv.latest (hcurrent i hi)
    obtain ⟨r, hr⟩ := Option.isSome_iff_exists.mp hsome
    refine ⟨s.retired i.run r, ?_, ?_, ?_⟩
    · rw [hl.old i.run (by omega), hr]
      rfl
    · simp [hi]
    · simp [retired, hcurrent i hi]

/-- A request starts a run for the files that are asked for and for those in flight. -/
theorem Coherent.succeeds_request (h : s.Coherent) (hlive : s.isShutDown = false)
    {files : List FileUri} (hfiles : files ≠ []) (pause : Nat) (cancelled : Bool) :
    Succeeds s (s.request files pause cancelled) (files ++ s.inFlight).eraseDups :=
  (h.launched_of_request hlive hfiles pause cancelled).succeeds h.valid (fun _ => h.current?_eq)
    (nodup_eraseDups _)

/-- A drain starts a run for the files that wait, for those in flight, and for those that are open,
unless there are none. -/
theorem Coherent.succeeds_drain (h : s.Coherent) :
    let files := (s.marked ++ s.inFlight ++ s.workspace.openFiles).eraseDups
    if files = [] then s.drain.scheduler.started = s.scheduler.started
    else Succeeds s s.drain files := by
  intro files
  obtain ⟨hnil, -, heq⟩ | ⟨hne, hl⟩ := h.drain_cases
  · have hfiles : files = [] := by simp [files, hnil]
    rw [if_pos hfiles, heq]
    rfl
  · have hsucceeds := hl.succeeds h.valid (fun _ => h.current?_eq) (nodup_eraseDups _)
    rw [if_neg (eraseDups_ne_nil hne)]
    exact ⟨hsucceeds.nodup, hsucceeds.started, hsucceeds.inFlight?, hsucceeds.new,
      hsucceeds.replaced⟩

/-- What is in flight, and what of it is finished. -/
structure Orderly (s : Session) : Prop where
  /-- At most one run has steps ahead. -/
  unique : ∀ n n' r r', s.scheduler.run? n = some r → s.scheduler.run? n' = some r' →
    r.isActive = true → r'.isActive = true → n = n'
  /-- The run in flight is the one that started last. -/
  latest : ∀ i, s.inFlight? = some i → i.run = s.scheduler.started ∧
    ∃ r, s.scheduler.run? i.run = some r ∧ r.action.files = i.files
  /-- The run that started last is in flight as long as it has files left, also when it has ended. -/
  kept : s.isShutDown = false → ∀ r, s.scheduler.run? s.scheduler.started = some r →
    r.action.progress < r.action.files.length →
      s.inFlight? = some ⟨s.scheduler.started, r.action.files⟩
  /-- The files that progress counts are those that the run has linted or found gone. -/
  behind : ∀ n r, s.scheduler.run? n = some r → r.action.progress ≤ r.action.files.length ∧
    r.action.files.take r.action.progress = History.passed s.history n
  /-- A run lints a file after it is through with the types of the file. -/
  typesFirst : History.TypesFirst s.history

theorem Coherent.orderly (h : s.Coherent) (hr : s.Recounted) : s.Orderly where
  unique n n' r r' hr hr' ha ha' := h.valid.active_unique hr ha hr' ha'
  latest i hi := by
    obtain ⟨r, hr, hcurrent, hfiles, -⟩ := h.inFlight hi
    exact ⟨(h.valid.latest hcurrent).1, r, hr, hfiles⟩
  kept hlive r hr hleft := by
    have hmore : r.action.hasMore = true := by
      simpa [Walk.hasMore, (h.fits hr).index] using hleft
    obtain ⟨i, hi⟩ := Option.isSome_iff_exists.mp (h.kept hlive hr hmore)
    obtain ⟨r', hr', hcurrent, hfiles, -⟩ := h.inFlight hi
    have hlatest := (h.valid.latest hcurrent).1
    rw [hlatest, hr, Option.some.injEq] at hr'
    rw [hi, hr', ← hlatest, hfiles]
  behind n r hrun := ⟨(h.fits hrun).progress, (hr.behind hrun).symm⟩
  typesFirst := hr.typesFirst

theorem queued_initial (sourceDirs : List FileUri) (settings : Settings) :
    (initial sourceDirs settings).Queued :=
  .empty rfl fun _ => rfl

end Session

namespace Reachable

open Session (IsQueueOf Succeeds)

variable {sourceDirs : List FileUri} {settings : Settings} {sort : Event → Bool} {m : Moment}

theorem queued (h : Reachable sourceDirs settings sort m) : m.session.Queued :=
  h.invariant (Session.queued_initial sourceDirs settings) (fun e hc hs => hs.affected hc e)
    fun hc hs hm => hs.move hc hm

/-- A run that starts is for what is asked for, or for the files that wait, the oldest announcement
first; then for what the run in flight has not finished; and, unless it was asked for, for the open
files. Each file is there once, at its first place. -/
theorem succession (h : Reachable sourceDirs settings sort m) :
    (∀ files pause cancelled, m.session.isShutDown = false → files ≠ [] →
      Succeeds m.session (m.next (.request files pause cancelled)).session
        (files ++ m.session.inFlight).eraseDups) ∧
    (∀ e, e = .silence ∧ m.session.debounce?.any (· ≤ m.session.now) = true ∨
        e = .endInterruption true →
      ∃ waiting, IsQueueOf m.session.history waiting ∧
        let files := (waiting ++ m.session.inFlight ++ m.session.workspace.openFiles).eraseDups
        if files = [] then
          (m.next e).session.scheduler.started = m.session.scheduler.started
        else Succeeds m.session (m.next e).session files) ∧
    m.session.Orderly ∧
    (∀ e, m.session.SkipsGone (m.next e).session.history) := by
  refine ⟨?_, ?_, h.coherent.orderly h.recounted, h.coherent.skipsGone_after⟩
  · intro files pause cancelled hlive hfiles
    exact h.coherent.succeeds_request hlive hfiles pause cancelled
  · intro e he
    have hdrain : (m.next e).session = m.session.drain := by
      obtain ⟨rfl, hdue⟩ | rfl := he
      · exact if_pos hdue
      · rfl
    rw [hdrain]
    exact ⟨m.session.marked, h.queued.marked, h.coherent.succeeds_drain⟩

/-- Someone asks for a file twice, and for the file that a run has yet to come to. -/
theorem succession_firstAnalysis :
    let m := (firstAnalysis.take 4).foldl Moment.next (.initial [] .standard)
    let other : FileUri := ⟨"file:///Other.elm"⟩
    let main : FileUri := ⟨"file:///Main.elm"⟩
    Succeeds m.session (m.next (.request [other, main, other] 0 false)).session [other, main] := by
  intro m other main
  have hreach : Reachable [] .standard (fun _ => true) m :=
    Reachable.initial.foldl (firstAnalysis.take 4) (by decide +kernel) (by decide +kernel)
  have hfiles : ([other, main, other] ++ m.session.inFlight).eraseDups = [other, main] := by
    decide +kernel
  have hsucceeds := (succession hreach).1 [other, main, other] 0 false (by decide +kernel) (by simp)
  rw [hfiles] at hsucceeds
  exact hsucceeds

end Reachable

end ElmLint

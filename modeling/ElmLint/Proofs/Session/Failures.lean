import ElmLint.Proofs.Session.Ending
import ElmLint.Proofs.Session.Frame

/-!
# Failing producers

A run whose type checker fails goes on like one whose type checker has found once more what is
stored: the second records that it hands over findings, and nothing else ever tells the two apart
(`SameBut`). A build that fails changes nothing at all.
-/

namespace ElmLint

namespace History

theorem publications_append (later earlier : History) :
    publications (later ++ earlier) = publications earlier ++ publications later := by
  induction later with
  | nil => simp [publications]
  | cons entry later ih =>
    obtain ⟨time, fact⟩ := entry
    cases fact with
    | published uri list => simp [publications, ih]
    | _ => exact ih

end History

namespace Session

open History (publications)

variable {s t : Session} {uri : FileUri} {n : Nat} {r : Run Walk} {walk : Walk} {fact : Fact}
  {kind : DiagnosticKind}

-- ---------------------------------------------------------------------------
-- One fact more
-- ---------------------------------------------------------------------------

/-- The second session is the first one, or it has recorded one more fact on the way. -/
inductive SameBut (fact : Fact) : Session → Session → Prop where
  | same (s : Session) : SameBut fact s s
  | recorded (s : Session) (time : Nat) (earlier : History) :
      SameBut fact (s.onTop earlier) (s.onTop ((time, fact) :: earlier))

namespace SameBut

theorem eq_history (h : SameBut fact s t) : t = { s with history := t.history } := by
  cases h <;> rfl

theorem publications_eq (h : SameBut (.handedOver n uri kind) s t) :
    publications t.history = publications s.history := by
  cases h with
  | same => rfl
  | recorded s time earlier =>
    rw [onTop_history, onTop_history, History.publications_append, History.publications_append]
    rfl

theorem after (h : SameBut fact s t) (e : Event) : SameBut fact (s.after e) (t.after e) := by
  cases h with
  | same => exact .same _
  | recorded s time earlier =>
    rw [after_onTop, after_onTop]
    exact .recorded ..

end SameBut

-- ---------------------------------------------------------------------------
-- The answer of the type checker
-- ---------------------------------------------------------------------------

theorem replace_unchanged {list : FileUri → List Diagnostic} {uris : List FileUri}
    (h : ∀ uri ∈ uris, (s.known uri).get kind = list uri) : s.replace kind list uris = s := by
  have hnone : ((FileUri.sort uris.eraseDups).filter fun uri =>
      (s.known uri).changes kind (list uri)) = [] := by
    rw [List.filter_eq_nil_iff]
    intro uri hu
    have hmem : uri ∈ uris := by simpa [FileUri.sort] using hu
    simp [FileDiagnostics.changes, h uri hmem]
  unfold replace
  rw [hnone]
  rfl

/-- Publishing what is stored already does nothing. -/
theorem publish_known (kind : DiagnosticKind)
    (hkind : ∀ d ∈ (s.known uri).get kind, d.kind = kind) :
    s.publish uri kind ((s.known uri).get kind) = s := by
  have hsame : attributed kind ((s.known uri).get kind) = (s.known uri).get kind := by
    refine (List.map_congr_left fun d hd => ?_).trans (List.map_id _)
    rw [← hkind d hd]
    rfl
  unfold publish
  split
  · exact replace_unchanged (by simp [hsame])
  · rfl

/-- A type checker that fails leaves the run where it would be had it found what is stored. -/
theorem sameBut_typesHeard (hkind : ∀ d ∈ (s.known uri).typeInference, d.kind = .typeInference)
    {isCancelling : Bool} {error : ProducerError}
    (hfails : error = .cancelled → isCancelling = false) :
    SameBut (.handedOver n uri .typeInference)
      (s.typesHeard n walk uri ⟨isCancelling, .failed error⟩)
      (s.typesHeard n walk uri ⟨isCancelling, .found (s.known uri).typeInference⟩) := by
  have htold : s.handOver n uri .typeInference (s.known uri).typeInference =
      s.record (.handedOver n uri .typeInference) :=
    publish_known (s := s.record _) .typeInference hkind
  unfold typesHeard
  dsimp only
  split
  · exact .same _
  · rename_i hstale
    have hgoesOn : ¬(decide (error = .cancelled) && isCancelling) = true := by
      simpa using hfails
    have hstale' : ¬(s.record (.handedOver n uri .typeInference)).isStale walk = true := hstale
    unfold typesFailed typesFound
    rw [htold, if_neg hgoesOn, if_neg hstale']
    exact .recorded (({ s with history := [] } : Session).proceedToLint n walk uri) s.now s.history

theorem sameBut_typesAnswered (hw : s.scheduler.working? n = some r)
    (hf : r.action.file? = some uri)
    (hkind : ∀ d ∈ (s.known uri).typeInference, d.kind = .typeInference)
    {isCancelling : Bool} {error : ProducerError}
    (hfails : error = .cancelled → isCancelling = false) :
    SameBut (.handedOver n uri .typeInference)
      (s.typesAnswered n ⟨isCancelling, .failed error⟩)
      (s.typesAnswered n ⟨isCancelling, .found (s.known uri).typeInference⟩) := by
  unfold typesAnswered
  simp only [hw, hf]
  split
  · exact .same _
  · cases isCancelling with
    | true => exact sameBut_typesHeard (s := s.cancelRun n .producer) hkind hfails
    | false => exact sameBut_typesHeard hkind hfails

end Session

namespace Moment

variable {m m' : Moment} {fact : Fact}

theorem sameBut_foldl (h : Session.SameBut fact m.session m'.session)
    (hinterruptions : m'.interruptions = m.interruptions)
    (hunannounced : m'.unannounced = m.unannounced) (events : List Event) :
    Session.SameBut fact (events.foldl next m).session (events.foldl next m').session ∧
      (events.foldl next m').interruptions = (events.foldl next m).interruptions ∧
      (events.foldl next m').unannounced = (events.foldl next m).unannounced := by
  induction events generalizing m m' with
  | nil => exact ⟨h, hinterruptions, hunannounced⟩
  | cons e events ih =>
    have hworkspace : m'.session.workspace = m.session.workspace := by rw [h.eq_history]
    have hinterruptible : m'.session.isInterruptible = m.session.isInterruptible := by
      rw [h.eq_history]
      rfl
    refine ih (h.after e) ?_ ?_
    · cases e with
      | beginInterruption =>
        change _ :: _ = _ :: _
        rw [hinterruptible, hinterruptions]
      | endInterruption => exact congrArg List.tail hinterruptions
      | _ => exact hinterruptions
    · cases e with
      | setFile uri => exact congrArg (uri :: ·) hunannounced
      | deleteDocument uri =>
        simp only [next, unannouncedAfter, hworkspace, hunannounced]
      | openDocument uri | changeDocument uri => exact congrArg (List.filter _) hunannounced
      | _ => exact hunannounced

end Moment

namespace Reachable

open History (publications)

variable {sourceDirs : List FileUri} {settings : Settings} {sort : Event → Bool} {m : Moment}

/-- A failing producer changes nothing. When the type checker fails in a run, and not because it saw
the run cancelled that it has cancelled itself, then whatever happens later, the session is the one
in which the type checker has found what was stored, but for the fact that the run has handed that
over; the editor is told the same in the same order, and the same events can come next. A build that
fails leaves the session as it is. -/
theorem sameBut_of_failed (h : Reachable sourceDirs settings sort m) :
    (∀ n r uri, m.session.scheduler.working? n = some r → r.action.file? = some uri →
      ∀ isCancelling error, (error = .cancelled → isCancelling = false) →
      ∀ later : List Event,
      let stored := (m.session.known uri).typeInference
      let failed := later.foldl Moment.next
        (m.next (.typesAnswered n ⟨isCancelling, .failed error⟩))
      let found := later.foldl Moment.next
        (m.next (.typesAnswered n ⟨isCancelling, .found stored⟩))
      Session.SameBut (.handedOver n uri .typeInference) failed.session found.session ∧
      found.session = { failed.session with history := found.session.history } ∧
      publications found.session.history = publications failed.session.history ∧
      ∀ e, found.allows e = failed.allows e) ∧
    ∀ number isCancelling error,
      m.session.after (.buildAnswered number ⟨isCancelling, .error error⟩) = m.session := by
  refine ⟨fun n r uri hw hf isCancelling error hfails later => ?_,
    fun number isCancelling error => ?_⟩
  · intro stored failed found
    have hlive : m.session.isShutDown = false := by
      by_contra hend
      rw [Bool.not_eq_false] at hend
      rw [(h.hasEnded hend).working?_eq_none] at hw
      cases hw
    have hkind := (h.displayed hlive).attributed uri .typeInference
    have hfirst : Session.SameBut (.handedOver n uri .typeInference)
        (m.next (.typesAnswered n ⟨isCancelling, .failed error⟩)).session
        (m.next (.typesAnswered n ⟨isCancelling, .found stored⟩)).session :=
      Session.sameBut_typesAnswered hw hf hkind hfails
    obtain ⟨hsame, hinterruptions, -⟩ := Moment.sameBut_foldl hfirst rfl rfl later
    refine ⟨hsame, hsame.eq_history, hsame.publications_eq, fun e => ?_⟩
    cases e <;> simp only [Moment.allows, failed, found, hinterruptions]
  · change m.session.buildAnswered number ⟨isCancelling, .error error⟩ = m.session
    unfold Session.buildAnswered
    split <;> rfl

/-- A file is analysed and edited, and the types of the edited file are asked for. -/
def secondAnalysis : List Event :=
  [.setFile ⟨"file:///Main.elm"⟩ "module Main exposing (f)\n\nimport List\n\nf =\n    1\n" true,
   .changeDocument ⟨"file:///Main.elm"⟩, .clock 200, .silence, .turn 1,
   .typesAnswered 1 ⟨false, .found
     [.warning "type_mismatch" "not a string" ⟨⟨0, 0⟩, ⟨0, 1⟩⟩]⟩, .turn 1,
   .changeDocument ⟨"file:///Main.elm"⟩, .clock 400, .silence, .turn 2]

/-- The type checker fails on the edited file: the types found before stay, and the file is linted
all the same. -/
theorem sameBut_of_failed_secondAnalysis :
    let uri : FileUri := ⟨"file:///Main.elm"⟩
    let m := secondAnalysis.foldl Moment.next (.initial [] .standard)
    let failed := (m.next (.typesAnswered 2 ⟨false, .failed (.step "killed")⟩)).next (.turn 2)
    let found := (m.next (.typesAnswered 2
      ⟨false, .found (m.session.known uri).typeInference⟩)).next (.turn 2)
    (failed.session.diagnosticsOf uri).map (·.code) = ["type_mismatch", "unused_import"] ∧
    found.session.diagnosticsOf uri = failed.session.diagnosticsOf uri ∧
    publications found.session.history = publications failed.session.history := by
  intro uri m failed found
  have hreach : Reachable [] .standard (fun _ => true) m :=
    Reachable.initial.foldl secondAnalysis (by decide +kernel) (by decide +kernel)
  have hworking : (m.session.scheduler.working? 2).bind (·.action.file?) = some uri := by
    decide +kernel
  obtain ⟨r, hw, hf⟩ := Option.bind_eq_some_iff.mp hworking
  have hfailed := (sameBut_of_failed hreach).1 2 r uri hw hf false (.step "killed") (fun _ => rfl)
    [.turn 2]
  have hsame : found.session = { failed.session with history := found.session.history } :=
    hfailed.2.1
  refine ⟨by decide +kernel, ?_, hfailed.2.2.1⟩
  rw [hsame]
  rfl

end Reachable

end ElmLint

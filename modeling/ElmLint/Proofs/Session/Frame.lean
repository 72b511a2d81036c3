import ElmLint.Session.Event
import Mathlib.Tactic.Simps.Basic

/-!
# Histories are only written

No operation of a session looks at the history, so each does the same with an earlier history below
its own, which stays as it is (`after_onTop`).
-/

namespace ElmLint

namespace Session

/-- The session with an earlier history below its own. -/
@[simps]
def onTop (s : Session) (earlier : History) : Session :=
  { s with history := s.history ++ earlier }

variable {s : Session} {earlier : History} {uri : FileUri} {n : Nat} {walk : Walk}

theorem known_onTop (uri : FileUri) : (s.onTop earlier).known uri = s.known uri := rfl

theorem isStale_onTop : (s.onTop earlier).isStale walk = s.isStale walk := rfl

-- ---------------------------------------------------------------------------
-- Storing and publishing
-- ---------------------------------------------------------------------------

theorem change_onTop : (s.onTop earlier).change uri = (s.change uri).onTop earlier := by
  unfold change
  rw [onTop_isShutDown]
  split <;> rfl

theorem send_onTop : (s.onTop earlier).send uri = (s.send uri).onTop earlier := by
  unfold send
  dsimp only
  rw [onTop_reactions]
  split
  · exact change_onTop (s := { s.record _ with reactions := _ })
  · rfl

theorem foldl_onTop {f : Session → FileUri → Session}
    (h : ∀ s earlier uri, f (onTop s earlier) uri = (f s uri).onTop earlier)
    (uris : List FileUri) :
    uris.foldl f (s.onTop earlier) = (uris.foldl f s).onTop earlier := by
  induction uris generalizing s with
  | nil => rfl
  | cons uri uris ih => rw [List.foldl_cons, List.foldl_cons, h, ih]

theorem replace_onTop (kind : DiagnosticKind) (list : FileUri → List Diagnostic)
    (uris : List FileUri) :
    (s.onTop earlier).replace kind list uris = (s.replace kind list uris).onTop earlier := by
  have hstore : ∀ uris : List FileUri,
      uris.foldl (fun s uri => s.store uri kind (list uri)) (s.onTop earlier) =
        (uris.foldl (fun s uri => s.store uri kind (list uri)) s).onTop earlier :=
    foldl_onTop fun _ _ _ => rfl
  simp only [replace, known_onTop, hstore, foldl_onTop fun _ _ _ => send_onTop]

theorem publish_onTop (kind : DiagnosticKind) (found : List Diagnostic) :
    (s.onTop earlier).publish uri kind found = (s.publish uri kind found).onTop earlier := by
  unfold publish
  rw [onTop_workspace]
  split
  · exact replace_onTop ..
  · rfl

theorem delete_onTop : (s.onTop earlier).delete uri = (s.delete uri).onTop earlier := by
  unfold delete
  rw [known_onTop]
  split
  · rfl
  · exact send_onTop (s := s.forget uri)

theorem relint_onTop : (s.onTop earlier).relint = s.relint.onTop earlier := by
  refine foldl_onTop (fun s earlier uri => ?_) _
  rw [onTop_workspace]
  split
  · exact publish_onTop ..
  · rfl

theorem configure_onTop (settings : Settings) :
    (s.onTop earlier).configure settings = (s.configure settings).onTop earlier := by
  unfold configure
  dsimp only
  rw [onTop_settings]
  split
  · exact replace_onTop (s := { s with settings }) ..
  · split
    · exact relint_onTop (s := { s with settings })
    · rfl

-- ---------------------------------------------------------------------------
-- Runs
-- ---------------------------------------------------------------------------

theorem takeOver_onTop : (s.onTop earlier).takeOver = s.takeOver.onTop earlier := by
  unfold takeOver
  rw [onTop_inFlight?]
  split <;> rfl

theorem launch_onTop (files : List FileUri) (pause : Nat) (isOnDemand : Bool)
    (canceller? : Option Canceller) : (s.onTop earlier).launch files pause isOnDemand canceller? =
      (s.launch files pause isOnDemand canceller?).onTop earlier := by
  cases canceller? <;> rfl

theorem startRun_onTop (files : List FileUri) (withOpenFiles : Bool) (pause : Nat)
    (isOnDemand : Bool) (canceller? : Option Canceller) :
    (s.onTop earlier).startRun files withOpenFiles pause isOnDemand canceller? =
      (s.startRun files withOpenFiles pause isOnDemand canceller?).onTop earlier := by
  have hflight : (s.onTop earlier).inFlight = s.inFlight := rfl
  unfold startRun
  rw [hflight, onTop_workspace, takeOver_onTop]
  split
  · rfl
  · exact launch_onTop ..

theorem drain_onTop : (s.onTop earlier).drain = s.drain.onTop earlier :=
  startRun_onTop (s := s.takeMarked) ..

theorem silence_onTop : (s.onTop earlier).silence = s.silence.onTop earlier := by
  unfold silence
  rw [onTop_debounce?, onTop_now]
  split
  · exact drain_onTop
  · rfl

theorem request_onTop (files : List FileUri) (pause : Nat) (cancelled : Bool) :
    (s.onTop earlier).request files pause cancelled =
      (s.request files pause cancelled).onTop earlier := by
  unfold request
  rw [onTop_isShutDown]
  split
  · rfl
  · exact startRun_onTop ..

theorem handOver_onTop (kind : DiagnosticKind) (found : List Diagnostic) :
    (s.onTop earlier).handOver n uri kind found = (s.handOver n uri kind found).onTop earlier :=
  publish_onTop (s := s.record _) ..

theorem step_onTop : (s.onTop earlier).step n walk = (s.step n walk).onTop earlier := by
  unfold step
  rw [onTop_workspace]
  split
  · rfl
  · split
    · rfl
    · rfl
    · rw [isStale_onTop, handOver_onTop]
      split <;> rfl

theorem turn_onTop : (s.onTop earlier).turn n = (s.turn n).onTop earlier := by
  unfold turn
  rw [onTop_scheduler, onTop_now]
  split
  · exact step_onTop (s := s.adopt _)
  · rfl

theorem heedCancellation_onTop :
    (s.onTop earlier).heedCancellation n = (s.heedCancellation n).onTop earlier := by
  unfold heedCancellation
  rw [onTop_scheduler]
  split
  · split <;> rfl
  · rfl

theorem typesFound_onTop (found : List Diagnostic) :
    (s.onTop earlier).typesFound n walk uri found =
      (s.typesFound n walk uri found).onTop earlier := by
  unfold typesFound
  rw [handOver_onTop]
  generalize s.handOver n uri .typeInference found = told
  dsimp only
  rw [isStale_onTop]
  split <;> rfl

theorem typesHeard_onTop (answer : TypesAnswer) :
    (s.onTop earlier).typesHeard n walk uri answer =
      (s.typesHeard n walk uri answer).onTop earlier := by
  unfold typesHeard typesFailed
  rw [isStale_onTop]
  split
  · rfl
  · split
    · rfl
    · exact typesFound_onTop ..
  · split
    · rfl
    · split <;> rfl

theorem typesAnswered_onTop (answer : TypesAnswer) :
    (s.onTop earlier).typesAnswered n answer = (s.typesAnswered n answer).onTop earlier := by
  unfold typesAnswered
  rw [onTop_scheduler]
  split
  · rfl
  · split
    · exact heedCancellation_onTop
    · split
      · unfold typesCome
        split
        · exact typesHeard_onTop (s := s.cancelRun n .producer) ..
        · exact typesHeard_onTop ..
      · rfl

theorem buildAnswered_onTop (number : Nat) (answer : BuildAnswer) :
    (s.onTop earlier).buildAnswered number answer =
      (s.buildAnswered number answer).onTop earlier := by
  unfold buildAnswered
  rw [onTop_awaitedBuild?]
  split
  · split
    · exact replace_onTop ..
    · rfl
  · rfl

-- ---------------------------------------------------------------------------
-- Events
-- ---------------------------------------------------------------------------

/-- An event does the same whatever has happened before. -/
theorem after_onTop (e : Event) : (s.onTop earlier).after e = (s.after e).onTop earlier := by
  cases e with
  | setFile | removeFile | showFile | hideFile | react | clock => rfl
  | openDocument uri =>
    change (s.onTop earlier).openDocument uri = (s.openDocument uri).onTop earlier
    unfold openDocument
    rw [onTop_isShutDown]
    split <;> rfl
  | saveDocument uri =>
    change (s.onTop earlier).saveDocument uri = (s.saveDocument uri).onTop earlier
    unfold saveDocument
    rw [onTop_isShutDown]
    split <;> rfl
  | changeDocument uri => exact change_onTop
  | deleteDocument uri => exact delete_onTop
  | configure settings => exact configure_onTop settings
  | request files pause cancelled => exact request_onTop files pause cancelled
  | cancelRequest run =>
    change (s.onTop earlier).cancelRequest run = (s.cancelRequest run).onTop earlier
    unfold cancelRequest
    rw [onTop_scheduler]
    split <;> rfl
  | beginInterruption =>
    change (s.onTop earlier).beginInterruption = s.beginInterruption.onTop earlier
    unfold beginInterruption
    rw [onTop_inFlight?, onTop_isShutDown]
    split
    · split <;> rfl
    · rfl
  | endInterruption hasCancelled =>
    cases hasCancelled with
    | true => exact drain_onTop
    | false => rfl
  | shutDown =>
    change (s.onTop earlier).shutDown = s.shutDown.onTop earlier
    unfold shutDown
    rw [onTop_isShutDown]
    split <;> rfl
  | silence => exact silence_onTop
  | turn run => exact turn_onTop
  | heedCancellation run => exact heedCancellation_onTop
  | typesAnswered run answer => exact typesAnswered_onTop answer
  | buildAnswered number answer => exact buildAnswered_onTop number answer

end Session

end ElmLint

import ElmLint.Proofs.Session.Progress

/-!
# The wait for silence

A mark begins a wait and ends the one before, so a session waits once at most. Two things end a wait
for good: the files that wait are taken for a run, or the session is shut down. Whatever else an
event does, all that it does to the wait is to mark files (`Session.after_cases`).
-/

namespace ElmLint

/-- The fact tells nothing of the wait for silence. -/
def Fact.leavesSilence : Fact → Bool
  | .marked _ | .drained | .ended => false
  | _ => true

/-- What a history tells of the wait for silence. -/
def History.ofSilence (history : History) : History := history.filter (!·.2.leavesSilence)

namespace Session

open History (ofSilence)

variable {s t s' : Session} {uri : FileUri}

-- ---------------------------------------------------------------------------
-- What leaves the wait alone
-- ---------------------------------------------------------------------------

/-- The wait is as before, and no file has come to those that wait. -/
structure WaitKept (s s' : Session) : Prop where
  now : s'.now = s.now
  settings : s'.settings = s.settings
  debounce? : s'.debounce? = s.debounce?
  pending : s.pending = [] → s'.pending = []
  history : ofSilence s'.history = ofSilence s.history

namespace WaitKept

theorem refl (s : Session) : WaitKept s s := ⟨rfl, rfl, rfl, id, rfl⟩

theorem trans (h : WaitKept s t) (h' : WaitKept t s') : WaitKept s s' :=
  ⟨h'.now.trans h.now, h'.settings.trans h.settings, h'.debounce?.trans h.debounce?,
    h'.pending ∘ h.pending, h'.history.trans h.history⟩

theorem takeOver (s : Session) : WaitKept s s.takeOver := by
  unfold Session.takeOver
  split <;> exact ⟨rfl, rfl, rfl, id, rfl⟩

theorem launch (s : Session) (files : List FileUri) (pause : Nat) (isOnDemand : Bool)
    (canceller? : Option Canceller) : WaitKept s (s.launch files pause isOnDemand canceller?) := by
  cases canceller? <;> exact ⟨rfl, rfl, rfl, id, rfl⟩

theorem startRun (s : Session) (files : List FileUri) (withOpenFiles : Bool) (pause : Nat)
    (isOnDemand : Bool) (canceller? : Option Canceller) :
    WaitKept s (s.startRun files withOpenFiles pause isOnDemand canceller?) := by
  unfold Session.startRun
  split
  · exact takeOver s
  · exact (takeOver s).trans (launch ..)

theorem forget (s : Session) (uri : FileUri) : WaitKept s (s.forget uri) := by
  refine ⟨rfl, rfl, rfl, fun hnil => ?_, rfl⟩
  simp [Session.forget, hnil]

end WaitKept

/-- The files that wait are taken for a run, and the wait is over. -/
theorem drain_endsWait (s : Session) :
    s.drain.now = s.now ∧ s.drain.debounce? = none ∧ s.drain.pending = [] ∧
      ofSilence s.drain.history = (s.now, .drained) :: ofSilence s.history := by
  have hkept : WaitKept s.takeMarked s.drain := .startRun ..
  exact ⟨hkept.now, hkept.debounce?, hkept.pending rfl, hkept.history⟩

-- ---------------------------------------------------------------------------
-- What begins a wait
-- ---------------------------------------------------------------------------

/-- These files were marked, the latest first. If there is one, the wait begins now. -/
structure Marked (s s' : Session) (uris : List FileUri) : Prop where
  now : s'.now = s.now
  settings : s'.settings = s.settings
  history : ofSilence s'.history = uris.map (fun uri => (s.now, .marked uri)) ++ ofSilence s.history
  debounce? : s'.debounce? =
    if uris = [] then s.debounce? else some (s.now + s.settings.debounce)
  pending : uris = [] → s.pending = [] → s'.pending = []

/-- Files were marked, perhaps none, and nothing else has happened to the wait. -/
def OnlyMarks (s s' : Session) : Prop := ∃ uris, Marked s s' uris

theorem WaitKept.onlyMarks (h : WaitKept s s') : OnlyMarks s s' :=
  ⟨[], h.now, h.settings, h.history, h.debounce?, fun _ => h.pending⟩

namespace OnlyMarks

theorem refl (s : Session) : OnlyMarks s s := (WaitKept.refl s).onlyMarks

theorem trans (h : OnlyMarks s t) (h' : OnlyMarks t s') : OnlyMarks s s' := by
  obtain ⟨first, h⟩ := h
  obtain ⟨second, h'⟩ := h'
  refine ⟨second ++ first, h'.now.trans h.now, h'.settings.trans h.settings, ?_, ?_, ?_⟩
  · rw [h'.history, h.history, h.now, List.map_append, List.append_assoc]
  · rw [h'.debounce?, h.debounce?, h.now, h.settings]
    by_cases hsecond : second = [] <;> simp [hsecond]
  · intro hnil hpending
    obtain ⟨hsecond, hfirst⟩ := List.append_eq_nil_iff.mp hnil
    exact h'.pending hsecond (h.pending hfirst hpending)

theorem mark (s : Session) (uri : FileUri) : OnlyMarks s (s.mark uri) :=
  ⟨[uri], rfl, rfl, rfl, rfl, nofun⟩

theorem change (s : Session) (uri : FileUri) : OnlyMarks s (s.change uri) := by
  unfold Session.change
  split
  · exact refl s
  · have hchanged : WaitKept s { s.record (.changed uri) with sequence := s.sequence + 1 } :=
      ⟨rfl, rfl, rfl, id, rfl⟩
    exact hchanged.onlyMarks.trans (mark _ uri)

theorem send (s : Session) (uri : FileUri) : OnlyMarks s (s.send uri) := by
  unfold Session.send
  split
  · have htold : WaitKept s { s.record (.published uri (s.diagnosticsOf uri)) with
        reactions := s.reactions.erase uri } := ⟨rfl, rfl, rfl, id, rfl⟩
    exact htold.onlyMarks.trans (change _ _)
  · exact WaitKept.onlyMarks ⟨rfl, rfl, rfl, id, rfl⟩

theorem foldl (f : Session → FileUri → Session) (h : ∀ s uri, OnlyMarks s (f s uri))
    (uris : List FileUri) (s : Session) : OnlyMarks s (uris.foldl f s) := by
  induction uris generalizing s with
  | nil => exact refl s
  | cons uri uris ih => exact (h s uri).trans (ih _)

theorem replace (s : Session) (kind : DiagnosticKind) (list : FileUri → List Diagnostic)
    (uris : List FileUri) : OnlyMarks s (s.replace kind list uris) := by
  refine (foldl (fun s uri => s.store uri kind (list uri)) ?_ _ s).trans (foldl _ send _ _)
  exact fun s uri => WaitKept.onlyMarks ⟨rfl, rfl, rfl, id, rfl⟩

theorem publish (s : Session) (uri : FileUri) (kind : DiagnosticKind) (found : List Diagnostic) :
    OnlyMarks s (s.publish uri kind found) := by
  unfold Session.publish
  split
  · exact replace ..
  · exact refl s

theorem delete (s : Session) (uri : FileUri) : OnlyMarks s (s.delete uri) := by
  unfold Session.delete
  split
  · exact (WaitKept.forget s uri).onlyMarks
  · exact (WaitKept.forget s uri).onlyMarks.trans (send _ _)

/-- New settings count at once, also for the marks that follow from them. -/
theorem configure (s : Session) (settings : Settings) :
    OnlyMarks { s with settings } (s.configure settings) := by
  unfold Session.configure
  dsimp only
  split
  · exact replace ..
  · split
    · refine foldl _ (fun s uri => ?_) _ _
      split
      · exact publish ..
      · exact refl s
    · exact refl _

theorem handOver (s : Session) (n : Nat) (uri : FileUri) (kind : DiagnosticKind)
    (found : List Diagnostic) : OnlyMarks s (s.handOver n uri kind found) := by
  have hrecorded : WaitKept s (s.record (.handedOver n uri kind)) := ⟨rfl, rfl, rfl, id, rfl⟩
  exact hrecorded.onlyMarks.trans (publish ..)

theorem step (s : Session) (n : Nat) (walk : Walk) : OnlyMarks s (s.step n walk) := by
  unfold Session.step
  split
  · exact WaitKept.onlyMarks ⟨rfl, rfl, rfl, id, rfl⟩
  · split
    · exact WaitKept.onlyMarks ⟨rfl, rfl, rfl, id, rfl⟩
    · exact WaitKept.onlyMarks ⟨rfl, rfl, rfl, id, rfl⟩
    · split
      · exact WaitKept.onlyMarks ⟨rfl, rfl, rfl, id, rfl⟩
      · exact (handOver ..).trans (WaitKept.onlyMarks ⟨rfl, rfl, rfl, id, rfl⟩)

theorem turn (s : Session) (n : Nat) : OnlyMarks s (s.turn n) := by
  have hadopted (scheduler : Scheduler Walk) : WaitKept s (s.adopt scheduler) :=
    ⟨rfl, rfl, rfl, id, rfl⟩
  unfold Session.turn
  split
  · exact (hadopted _).onlyMarks.trans (step ..)
  · exact (hadopted _).onlyMarks

theorem heedCancellation (s : Session) (n : Nat) : OnlyMarks s (s.heedCancellation n) := by
  unfold Session.heedCancellation
  split
  · split
    · exact WaitKept.onlyMarks ⟨rfl, rfl, rfl, id, rfl⟩
    · exact refl s
  · exact refl s

theorem typesFound (s : Session) (n : Nat) (walk : Walk) (uri : FileUri)
    (found : List Diagnostic) : OnlyMarks s (s.typesFound n walk uri found) := by
  refine (handOver s n uri .typeInference found).trans ?_
  unfold Session.typesFound
  dsimp only
  split <;> exact WaitKept.onlyMarks ⟨rfl, rfl, rfl, id, rfl⟩

theorem typesHeard (s : Session) (n : Nat) (walk : Walk) (uri : FileUri) (answer : TypesAnswer) :
    OnlyMarks s (s.typesHeard n walk uri answer) := by
  have habandoned : WaitKept s (s.abandon n walk) := ⟨rfl, rfl, rfl, id, rfl⟩
  unfold Session.typesHeard
  split
  · exact WaitKept.onlyMarks ⟨rfl, rfl, rfl, id, rfl⟩
  · split
    · exact habandoned.onlyMarks
    · exact typesFound ..
  · split
    · exact habandoned.onlyMarks
    · unfold Session.typesFailed
      split <;> exact WaitKept.onlyMarks ⟨rfl, rfl, rfl, id, rfl⟩

theorem typesAnswered (s : Session) (n : Nat) (answer : TypesAnswer) :
    OnlyMarks s (s.typesAnswered n answer) := by
  unfold Session.typesAnswered
  split
  · exact refl s
  · split
    · exact heedCancellation s n
    · split
      · unfold Session.typesCome
        split
        · have hcancelled : WaitKept s (s.cancelRun n .producer) := ⟨rfl, rfl, rfl, id, rfl⟩
          exact hcancelled.onlyMarks.trans (typesHeard ..)
        · exact typesHeard ..
      · exact refl s

theorem buildAnswered (s : Session) (number : Nat) (answer : BuildAnswer) :
    OnlyMarks s (s.buildAnswered number answer) := by
  unfold Session.buildAnswered
  split
  · split
    · exact replace ..
    · exact refl s
  · exact refl s

end OnlyMarks

end Session

/-- The wait for silence is woken. -/
def Event.isSilence : Event → Bool
  | .silence => true
  | _ => false

namespace Session

/-- What an event does outside of the wait for silence. -/
def beforeMarks (s : Session) : Event → Session
  | .configure settings => { s with settings }
  | .clock time => { s with now := max s.now time }
  | _ => s

/-- An event takes the files that wait, if it is time or an interruption has ended, or it ends the
session, or it only marks files. -/
theorem after_cases (s : Session) (e : Event) :
    s.after e = s.drain ∧
      (e = .silence ∧ s.debounce?.any (· ≤ s.now) = true ∨ e = .endInterruption true) ∨
    e = .shutDown ∨ OnlyMarks (s.beforeMarks e) (s.after e) := by
  have hkept {s s' : Session} (h : WaitKept s s') : OnlyMarks s s' := h.onlyMarks
  cases e with
  | setFile | removeFile | showFile | hideFile | react | clock =>
    exact .inr (.inr (hkept ⟨rfl, rfl, rfl, id, rfl⟩))
  | openDocument uri =>
    right; right
    change OnlyMarks s (s.openDocument uri)
    unfold openDocument
    split
    · exact .refl s
    · exact (hkept (show WaitKept s (s.askBuild uri) from ⟨rfl, rfl, rfl, id, rfl⟩)).trans
        (.mark _ uri)
  | saveDocument uri =>
    right; right
    change OnlyMarks s (s.saveDocument uri)
    unfold saveDocument
    split
    · exact .refl s
    · exact hkept ⟨rfl, rfl, rfl, id, rfl⟩
  | changeDocument uri => exact .inr (.inr (.change s uri))
  | deleteDocument uri => exact .inr (.inr (.delete s uri))
  | configure settings => exact .inr (.inr (.configure s settings))
  | request files pause cancelled =>
    right; right
    change OnlyMarks s (s.request files pause cancelled)
    unfold request
    split
    · exact .refl s
    · exact hkept (.startRun ..)
  | cancelRequest run =>
    right; right
    change OnlyMarks s (s.cancelRequest run)
    unfold cancelRequest
    split
    · exact hkept ⟨rfl, rfl, rfl, id, rfl⟩
    · exact .refl s
  | beginInterruption =>
    right; right
    change OnlyMarks s s.beginInterruption
    unfold beginInterruption
    split
    · split
      · exact .refl s
      · exact hkept ⟨rfl, rfl, rfl, id, rfl⟩
    · exact .refl s
  | endInterruption hasCancelled =>
    cases hasCancelled with
    | true => exact .inl ⟨rfl, .inr rfl⟩
    | false => exact .inr (.inr (.refl s))
  | shutDown => exact .inr (.inl rfl)
  | silence =>
    by_cases hdue : s.debounce?.any (· ≤ s.now) = true
    · exact .inl ⟨if_pos hdue, .inl ⟨rfl, hdue⟩⟩
    · right; right
      rw [show s.after .silence = s from if_neg hdue]
      exact .refl s
  | turn run => exact .inr (.inr (.turn s run))
  | heedCancellation run => exact .inr (.inr (.heedCancellation s run))
  | typesAnswered run answer => exact .inr (.inr (.typesAnswered s run answer))
  | buildAnswered number answer => exact .inr (.inr (.buildAnswered s number answer))

end Session

end ElmLint

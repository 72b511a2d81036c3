import Mathlib.Logic.Relation
import ElmLint.Proofs.Session.Laws

/-!
# Moves

`Move` lists the smallest changes that a session makes, each with what holds when it is made. An
event first affects the session from outside, and all that follows are moves (`moves_after`). What
is to hold at all times is therefore shown of the outside effects and, move by move, of the rest.
-/

namespace ElmLint

namespace Session

/-- A list that may be stored for a file: if it is a list of lint diagnostics, it is what linting
gives. -/
def IsStorable (s : Session) (uri : FileUri) (kind : DiagnosticKind) (list : List Diagnostic) :
    Prop :=
  kind = .lint → ∀ d, s.workspace.document? uri = some d → list = attributed .lint (s.lint d)

/-- The smallest changes of a session. The tasks of runs move only while they are `awake`. -/
inductive Move (awake : Bool) : Session → Session → Prop where
  | tell (s : Session) (uri : FileUri) (list : List Diagnostic)
      (reactions : Table FileUri FileUri) :
      Move awake s { s.record (.published uri list) with reactions }
  | askTypes (s : Session) (uri : FileUri) : Move awake s (s.record (.typesAsked uri))
  | askBuild (s : Session) (uri : FileUri) : Move awake s (s.askBuild uri)
  | store {s : Session} {uri : FileUri} {kind : DiagnosticKind} {list : List Diagnostic}
      (h : s.IsStorable uri kind list) : Move awake s (s.store uri kind list)
  | mark (h : s.isShutDown = false) (uri : FileUri) : Move awake s (s.mark uri)
  | change (h : s.isShutDown = false) (uri : FileUri) : Move awake s (s.change uri)
  | drain (s : Session) : Move awake s s.drain
  | request (h : s.isShutDown = false) (hf : files ≠ []) (pause : Nat) (cancelled : Bool) :
      Move awake s
        (s.startRun files false pause true (if cancelled then some .caller else none))
  | cancel (hr : s.scheduler.run? n = some r)
      (hc : canceller = .producer ∨ canceller = .caller ∧ r.action.isOnDemand = true) :
      Move awake s (s.cancelRun n canceller)
  /-- A step begins. -/
  | begin (ha : awake = true) (hr : s.scheduler.run? n = some r) (hd : r.isDue s.now = true)
      (hc : r.cancelled = false) :
      Move awake s { s with
        scheduler := s.scheduler.update n fun run => { run with stage := .working } }
  /-- A step does not begin, since the run was cancelled. -/
  | heed (ha : awake = true) (hr : s.scheduler.run? n = some r) (hd : r.isDue s.now = true)
      (hc : r.cancelled = true) :
      Move awake s { s with scheduler := s.scheduler.finish n .cancelled }
  | crash (ha : awake = true) (hw : s.scheduler.working? n = some r) :
      Move awake s { s with scheduler := s.scheduler.finish n .failed }
  /-- A step ends early, since the run was cancelled. -/
  | yield (ha : awake = true) (hw : s.scheduler.working? n = some r) (hc : r.cancelled = true) :
      Move awake s (s.proceed n r.action (some .immediate))
  | abandon (ha : awake = true) (hw : s.scheduler.working? n = some r)
      (hs : s.isStale r.action = true) : Move awake s (s.abandon n r.action)
  | handOver {s : Session} {n : Nat} {r : Run Walk} (ha : awake = true)
      (hw : s.scheduler.working? n = some r)
      (hs : s.isStale r.action = false)
      (hc : r.cancelled = false ∨ (s.now, .cancelled n .producer) ∈ s.history)
      (uri : FileUri) (kind : DiagnosticKind) : Move awake s (s.record (.handedOver n uri kind))
  | proceedToLint (ha : awake = true) (hw : s.scheduler.working? n = some r)
      (hf : r.action.file? = some uri) : Move awake s (s.proceedToLint n r.action uri)
  | proceedToNext (ha : awake = true) (hw : s.scheduler.working? n = some r)
      (hf : r.action.file? = some uri) (hp : r.action.phase = .lint)
      (hk : ∀ d, s.workspace.document? uri = some d →
        (s.known uri).lint = attributed .lint (s.lint d)) :
      Move awake s (s.proceedToNext n r.action uri)
  | skip (ha : awake = true) (hw : s.scheduler.working? n = some r)
      (hf : r.action.file? = some uri) (hd : s.workspace.document? uri = none) :
      Move awake s (s.skip n r.action uri)
  | complete (ha : awake = true) (hw : s.scheduler.working? n = some r)
      (hf : r.action.file? = none) : Move awake s (s.proceed n r.action none)

/-- Moves one after the other. -/
abbrev Moves (awake : Bool) : Session → Session → Prop := Relation.ReflTransGen (Move awake)

variable {s s' : Session} {uri : FileUri} {n : Nat} {r : Run Walk} {awake : Bool}

theorem IsStorable.undisturbed {kind : DiagnosticKind} {list : List Diagnostic}
    (h : s.IsStorable uri kind list) (hu : Undisturbed s s') : s'.IsStorable uri kind list := by
  intro hk d hd
  rw [hu.workspace] at hd
  rw [hu.lint]
  exact h hk d hd

theorem Move.moves (h : Move awake s s') : Moves awake s s' := .single h

-- ---------------------------------------------------------------------------
-- Telling the editor
-- ---------------------------------------------------------------------------

theorem moves_change (s : Session) (uri : FileUri) : Moves awake s (s.change uri) := by
  cases h : s.isShutDown with
  | true =>
    rw [show s.change uri = s by simp [change, h]]
  | false => exact (Move.change h uri).moves

theorem moves_send (s : Session) (uri : FileUri) : Moves awake s (s.send uri) := by
  unfold send
  split
  · exact .head (.tell s uri (s.diagnosticsOf uri) (s.reactions.erase uri)) (moves_change _ _)
  · exact (Move.tell s uri (s.diagnosticsOf uri) s.reactions).moves

/-- Moves for each of some files, none of which disturbs the runs. -/
theorem moves_foldl (f : Session → FileUri → Session) (hu : ∀ s uri, Undisturbed s (f s uri))
    (uris : List FileUri) (s : Session)
    (hf : ∀ s', Undisturbed s s' → ∀ uri ∈ uris, Moves awake s' (f s' uri)) :
    Moves awake s (uris.foldl f s) := by
  induction uris generalizing s with
  | nil => exact .refl
  | cons uri uris ih =>
    refine (hf s (.refl s) uri List.mem_cons_self).trans (ih (f s uri) ?_)
    intro s' hs' other hother
    exact hf s' ((hu s uri).trans hs') other (List.mem_cons_of_mem _ hother)

theorem moves_replace {kind : DiagnosticKind} {list : FileUri → List Diagnostic}
    (uris : List FileUri) (h : ∀ uri ∈ uris, s.IsStorable uri kind (list uri)) :
    Moves awake s (s.replace kind list uris) := by
  refine .trans (moves_foldl (fun s uri => s.store uri kind (list uri)) ?_ _ s ?_)
    (moves_foldl send undisturbed_send _ _ ?_)
  · intro s uri
    exact ⟨⟨rfl, rfl, rfl, rfl⟩, rfl, rfl⟩
  · intro s' hs' uri huri
    have hmem : uri ∈ uris := by
      simpa [FileUri.sort] using (List.mem_filter.mp huri).1
    exact (Move.store ((h uri hmem).undisturbed hs')).moves
  · intro s' _ uri _
    exact moves_send s' uri

theorem moves_publish {kind : DiagnosticKind} {found : List Diagnostic}
    (h : s.IsStorable uri kind (attributed kind found)) :
    Moves awake s (s.publish uri kind found) := by
  unfold publish
  split
  · exact moves_replace [uri] (by simpa using h)
  · exact .refl

theorem moves_relint (s : Session) : Moves awake s s.relint := by
  refine moves_foldl _ ?_ _ s ?_
  · intro s uri
    split
    · exact undisturbed_publish ..
    · exact .refl s
  · intro s' _ uri _
    split
    · rename_i d hd
      refine moves_publish fun _ d' hd' => ?_
      rw [hd] at hd'
      rw [Option.some.inj hd']
    · exact .refl

/-- The moves that follow new settings. -/
theorem moves_configure (s : Session) (settings : Settings) :
    Moves awake { s with settings } (s.configure settings) := by
  unfold configure
  simp only
  split
  · rename_i hoff
    refine moves_replace _ fun uri _ _ d _ => ?_
    have : settings.lintEnabled = false := by simp_all
    simp [lint, this, attributed]
  · split
    · exact moves_relint _
    · exact .refl

theorem moves_buildAnswered (s : Session) (number : Nat) (answer : BuildAnswer) :
    Moves awake s (s.buildAnswered number answer) := by
  unfold buildAnswered
  split
  · split
    · exact moves_replace _ fun _ _ hk => nomatch hk
    · exact .refl
  · exact .refl

-- ---------------------------------------------------------------------------
-- The turn of a run
-- ---------------------------------------------------------------------------

theorem moves_handOver (ha : awake = true) (hw : s.scheduler.working? n = some r)
    (hs : s.isStale r.action = false)
    (hc : r.cancelled = false ∨ (s.now, .cancelled n .producer) ∈ s.history)
    {kind : DiagnosticKind} {found : List Diagnostic}
    (h : s.IsStorable uri kind (attributed kind found)) :
    Moves awake s (s.handOver n uri kind found) :=
  .head (.handOver ha hw hs hc uri kind) (moves_publish h)

theorem moves_step (ha : awake = true) (hw : s.scheduler.working? n = some r)
    (hc : r.cancelled = false) : Moves awake s (s.step n r.action) := by
  unfold step
  split
  · rename_i hf
    exact (Move.complete ha hw hf).moves
  · rename_i uri hf
    split
    · rename_i hd
      exact (Move.skip ha hw hf hd).moves
    · exact (Move.askTypes s uri).moves
    · rename_i d hd hp
      split
      · rename_i hs
        exact (Move.abandon ha hw hs).moves
      · rename_i hs
        have hu := undisturbed_handOver s n uri .lint (s.lint d)
        refine .tail (moves_handOver ha hw (by simpa using hs) (.inl hc) ?_)
          (.proceedToNext ha (hu.scheduler ▸ hw) hf hp ?_)
        · intro _ d' hd'
          rw [Option.some.inj (hd.symm.trans hd')]
        · intro d' hd'
          rw [hu.workspace, hd, Option.some.injEq] at hd'
          subst hd'
          have hset : ((s.handOver n uri .lint (s.lint d)).known uri).get .lint =
              attributed .lint (s.lint d) := by
            unfold handOver
            rw [known_publish _ _ _ _ (show (s.record _).workspace.document? uri = some d from hd),
              FileDiagnostics.get_set, if_pos rfl]
          rw [hu.lint]
          exact hset

theorem moves_turn (ha : awake = true) (s : Session) (n : Nat) : Moves awake s (s.turn n) := by
  unfold turn Scheduler.begin
  cases hr : s.scheduler.run? n with
  | none => simpa using .refl
  | some r =>
    by_cases hd : r.isDue s.now = true
    · by_cases hc : r.cancelled = true
      · simp only [hd, hc, ↓reduceIte]
        rw [adopt_finish _ _ (by decide)]
        exact (Move.heed ha hr hd hc).moves
      · have hc : r.cancelled = false := by simpa using hc
        simp only [hd, hc, ↓reduceIte, Bool.false_eq_true, adopt_update]
        refine .head (.begin ha hr hd hc) ?_
        refine moves_step (r := { r with stage := .working }) ha ?_ hc
        simp [Scheduler.working?_eq_some, Scheduler.run?_update, hr]
    · simpa [hd] using .refl

-- ---------------------------------------------------------------------------
-- The answer of the type checker
-- ---------------------------------------------------------------------------

theorem moves_heedCancellation (ha : awake = true) (s : Session) (n : Nat) :
    Moves awake s (s.heedCancellation n) := by
  unfold heedCancellation
  split
  · rename_i r hw
    split
    · rename_i hc
      exact (Move.yield ha hw hc).moves
    · exact .refl
  · exact .refl

theorem moves_typesFound (ha : awake = true) (hw : s.scheduler.working? n = some r)
    (hs : s.isStale r.action = false)
    (hc : r.cancelled = false ∨ (s.now, .cancelled n .producer) ∈ s.history)
    (hf : r.action.file? = some uri) (found : List Diagnostic) :
    Moves awake s (s.typesFound n r.action uri found) := by
  have hu := undisturbed_handOver s n uri .typeInference found
  have hw' := hu.scheduler ▸ hw
  have hstorable : s.IsStorable uri .typeInference (attributed .typeInference found) := nofun
  refine .trans (moves_handOver ha hw hs hc hstorable) ?_
  unfold typesFound
  simp only
  split
  · rename_i hs'
    exact (Move.abandon ha hw' hs').moves
  · exact (Move.proceedToLint ha hw' hf).moves

theorem moves_typesFailed (ha : awake = true) (hw : s.scheduler.working? n = some r)
    (hc : cancelled = true → r.cancelled = true) (hf : r.action.file? = some uri)
    (error : ProducerError) : Moves awake s (s.typesFailed n r.action uri error cancelled) := by
  unfold typesFailed
  split
  · rename_i h
    simp only [Bool.and_eq_true] at h
    exact (Move.yield ha hw (hc h.2)).moves
  · exact (Move.proceedToLint ha hw hf).moves

theorem moves_typesHeard (ha : awake = true) (hw : s.scheduler.working? n = some r)
    (hc : r.cancelled = false ∨ (s.now, .cancelled n .producer) ∈ s.history)
    (hf : r.action.file? = some uri) (answer : TypesAnswer)
    (hcancelling : answer.isCancelling = true → r.cancelled = true) :
    Moves awake s (s.typesHeard n r.action uri answer) := by
  unfold typesHeard
  cases answer.result with
  | crashed =>
    simp only
    rw [adopt_finish _ _ (by decide)]
    exact (Move.crash ha hw).moves
  | found found =>
    simp only
    split
    · rename_i hs
      exact (Move.abandon ha hw hs).moves
    · rename_i hs
      exact moves_typesFound ha hw (by simpa using hs) hc hf found
  | failed error =>
    simp only
    split
    · rename_i hs
      exact (Move.abandon ha hw hs).moves
    · exact moves_typesFailed ha hw hcancelling hf error

theorem moves_typesAnswered (ha : awake = true) (s : Session) (n : Nat) (answer : TypesAnswer) :
    Moves awake s (s.typesAnswered n answer) := by
  unfold typesAnswered
  split
  · exact .refl
  · rename_i r hw
    split
    · exact moves_heedCancellation ha s n
    · rename_i hc
      have hc : r.cancelled = false := by simpa using hc
      split
      · rename_i uri hf
        unfold typesCome
        cases hcancelling : answer.isCancelling with
        | false => exact moves_typesHeard ha hw (.inl hc) hf answer (by simp [hcancelling])
        | true =>
          -- the run is cancelled, and goes on with its step all the same
          obtain ⟨hr, hst⟩ := Scheduler.working?_eq_some.mp hw
          refine .head (.cancel hr (.inl rfl)) ?_
          refine moves_typesHeard (r := { r with cancelled := true }) ha ?_
            (.inr List.mem_cons_self) hf answer fun _ => rfl
          simp [cancelRun, Scheduler.working?_eq_some, Scheduler.run?_cancel, hr, hst]
      · exact .refl

-- ---------------------------------------------------------------------------
-- Events
-- ---------------------------------------------------------------------------

/-- What an event does to the session from outside, before the session moves by itself. -/
def affected (s : Session) : Event → Session
  | .setFile uri text writable => { s with workspace := s.workspace.setFile uri text writable }
  | .removeFile uri => { s with workspace := s.workspace.remove uri }
  | .showFile uri => { s with workspace := s.workspace.open_ uri }
  | .hideFile uri => { s with workspace := s.workspace.close uri }
  | .deleteDocument uri => s.forget uri
  | .react uri changed => { s with reactions := s.reactions.put uri changed }
  | .configure settings => { s with settings }
  | .beginInterruption => s.beginInterruption
  | .shutDown => s.shutDown
  | .clock time => { s with now := max s.now time }
  | _ => s

end Session

/-- The event lets a task act. -/
def Event.isTask : Event → Bool
  | .silence | .turn _ | .heedCancellation _ | .typesAnswered .. | .buildAnswered .. => true
  | _ => false

/-- All that an event does apart from its outside effect is moves. -/
theorem Session.moves_after (s : Session) (e : Event) :
    Moves e.isTask (s.affected e) (s.after e) := by
  cases e with
  | setFile | removeFile | showFile | hideFile | react | beginInterruption | shutDown | clock =>
    exact .refl
  | openDocument uri =>
    change Moves _ s (s.openDocument uri)
    unfold openDocument
    split
    · exact .refl
    · rename_i h
      have hlive : (s.askBuild uri).isShutDown = false := Bool.eq_false_iff.mpr h
      exact .head (.askBuild s uri) (Move.mark hlive uri).moves
  | saveDocument uri =>
    change Moves _ s (s.saveDocument uri)
    unfold saveDocument
    split
    · exact .refl
    · exact (Move.askBuild s uri).moves
  | changeDocument uri => exact moves_change s uri
  | deleteDocument uri =>
    change Moves _ (s.forget uri) (s.delete uri)
    unfold delete
    split
    · exact .refl
    · exact moves_send _ _
  | configure settings => exact moves_configure s settings
  | request files pause cancelled =>
    change Moves _ s (s.request files pause cancelled)
    unfold request
    split
    · exact .refl
    · rename_i h
      simp only [Bool.or_eq_true, not_or, Bool.not_eq_true, List.isEmpty_eq_false_iff] at h
      exact (Move.request h.1 h.2 pause cancelled).moves
  | cancelRequest run =>
    change Moves _ s (s.cancelRequest run)
    unfold cancelRequest
    split
    · rename_i h
      obtain ⟨r, hr, hd⟩ := (Option.any_eq_true _ _).mp h
      exact (Move.cancel hr (.inr ⟨rfl, hd⟩)).moves
    · exact .refl
  | endInterruption hasCancelled =>
    change Moves _ s (s.endInterruption hasCancelled)
    unfold endInterruption
    split
    · exact (Move.drain s).moves
    · exact .refl
  | silence =>
    change Moves _ s s.silence
    unfold silence
    split
    · exact (Move.drain s).moves
    · exact .refl
  | turn run => exact moves_turn rfl s run
  | heedCancellation run => exact moves_heedCancellation rfl s run
  | typesAnswered run answer => exact moves_typesAnswered rfl s run answer
  | buildAnswered number answer => exact moves_buildAnswered s number answer

end ElmLint

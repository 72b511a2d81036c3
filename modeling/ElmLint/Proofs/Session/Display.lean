import ElmLint.Proofs.Session.Course
import ElmLint.Proofs.Session.History
import Mathlib.Data.List.Chain
import Mathlib.Logic.Function.Basic

/-!
# What the editor shows

The editor shows of each file what it was told last. `Restated` describes one change of what is
stored together with what the editor is told of it: exactly the files whose diagnostics differ by
then, each once. Everything that an event does to the diagnostics is such a change or a sequence of
them (`restated_after`), so what the editor shows is what is stored.
-/

namespace ElmLint

namespace FileDiagnostics

variable {f : FileDiagnostics} {kind : DiagnosticKind} {list : List Diagnostic}

/-- A list in one slot shows in the merged list. -/
theorem merged_set_eq_iff : (f.set kind list).merged = f.merged ↔ f.get kind = list := by
  cases kind <;> simp [merged_eq, set, get, eq_comm]

/-- A new list for one slot changes the slot exactly if it changes what the editor sees. -/
theorem changes_iff : f.changes kind list = true ↔ (f.set kind list).merged ≠ f.merged := by
  rw [changes, bne_iff_ne, ne_eq, ne_eq, merged_set_eq_iff]

end FileDiagnostics

namespace History

/-- The lists that the editor was told for a file, the latest first. -/
def told (uri : FileUri) : History → List (List Diagnostic)
  | [] => []
  | (_, .published other list) :: earlier =>
    if other = uri then list :: told uri earlier else told uri earlier
  | _ :: earlier => told uri earlier

end History

namespace Session

open History (told)

variable {s s' s'' : Session} {uri other : FileUri} {kind : DiagnosticKind}
  {list : FileUri → List Diagnostic} {now : FileUri → FileDiagnostics} {w : Workspace}

-- ---------------------------------------------------------------------------
-- Telling nothing
-- ---------------------------------------------------------------------------

/-- What is stored is as before, and the editor has been told of no file. -/
structure Quiet (s s' : Session) : Prop where
  diagnostics : s'.diagnostics = s.diagnostics
  told : ∀ uri, told uri s'.history = told uri s.history

theorem Quiet.refl (s : Session) : Quiet s s := ⟨rfl, fun _ => rfl⟩

theorem Quiet.trans (h : Quiet s s') (h' : Quiet s' s'') : Quiet s s'' :=
  ⟨h'.diagnostics.trans h.diagnostics, fun uri => (h'.told uri).trans (h.told uri)⟩

theorem Quiet.known (h : Quiet s s') : s'.known = s.known := by
  funext uri
  simp only [Session.known, h.diagnostics]

theorem quiet_change (s : Session) (uri : FileUri) : Quiet s (s.change uri) := by
  unfold change
  split
  · exact .refl s
  · exact ⟨rfl, fun _ => rfl⟩

theorem quiet_takeOver (s : Session) : Quiet s s.takeOver := by
  unfold takeOver
  split
  · exact ⟨rfl, fun _ => rfl⟩
  · exact .refl s

theorem quiet_launch (s : Session) (files : List FileUri) (pause : Nat) (isOnDemand : Bool)
    (canceller? : Option Canceller) : Quiet s (s.launch files pause isOnDemand canceller?) := by
  cases canceller? <;> exact ⟨rfl, fun _ => rfl⟩

theorem quiet_startRun (s : Session) (files : List FileUri) (withOpenFiles : Bool) (pause : Nat)
    (isOnDemand : Bool) (canceller? : Option Canceller) :
    Quiet s (s.startRun files withOpenFiles pause isOnDemand canceller?) := by
  unfold startRun
  split
  · exact quiet_takeOver s
  · exact (quiet_takeOver s).trans (quiet_launch _ _ _ _ _)

theorem quiet_drain (s : Session) : Quiet s s.drain :=
  (show Quiet s s.takeMarked from ⟨rfl, fun _ => rfl⟩).trans (quiet_startRun _ _ _ _ _ _)

theorem quiet_typesFailed (s : Session) (n : Nat) (walk : Walk) (uri : FileUri)
    (error : ProducerError) (cancelled : Bool) :
    Quiet s (s.typesFailed n walk uri error cancelled) := by
  unfold typesFailed
  split <;> exact ⟨rfl, fun _ => rfl⟩

theorem quiet_heedCancellation (s : Session) (n : Nat) : Quiet s (s.heedCancellation n) := by
  unfold heedCancellation
  split
  · split
    · exact ⟨rfl, fun _ => rfl⟩
    · exact .refl s
  · exact .refl s

-- ---------------------------------------------------------------------------
-- One change of what is stored
-- ---------------------------------------------------------------------------

/-- No file is kept without diagnostics. -/
def IsTidy (s : Session) : Prop := ∀ entry ∈ s.diagnostics.entries, entry.2.isEmpty = false

/-- What is stored has become `now`, and the editor has been told of exactly those files whose
diagnostics have changed by that, each once. -/
structure Restated (s s' : Session) (now : FileUri → FileDiagnostics) : Prop where
  known : s'.known = now
  told : ∀ uri, told uri s'.history =
    if (now uri).merged = (s.known uri).merged then told uri s.history
    else (now uri).merged :: told uri s.history
  tidy : s.IsTidy → s'.IsTidy

theorem Quiet.restated (h : Quiet s s') : Restated s s' s.known where
  known := h.known
  told uri := by rw [h.told, if_pos rfl]
  tidy ht := by rwa [IsTidy, h.diagnostics]

/-- Two changes one after the other are one, if no file is changed by both. -/
theorem Restated.trans {now' : FileUri → FileDiagnostics} (h : Restated s s' now)
    (h' : Restated s' s'' now') (hapart : ∀ uri, now uri = s.known uri ∨ now' uri = now uri) :
    Restated s s'' now' where
  known := h'.known
  told uri := by
    rw [h'.told, h.told, h.known]
    obtain hsame | hsame := hapart uri
    · simp [hsame]
    · rw [hsame, if_pos rfl]
  tidy ht := h'.tidy (h.tidy ht)

theorem tidy_erase (h : s.IsTidy) (uri : FileUri) :
    ∀ entry ∈ (s.diagnostics.erase uri).entries, entry.2.isEmpty = false :=
  fun entry he => h entry (List.mem_filter.mp he).1

theorem tidy_store (h : s.IsTidy) (uri : FileUri) (kind : DiagnosticKind)
    (list : List Diagnostic) : (s.store uri kind list).IsTidy := by
  unfold IsTidy store
  dsimp only
  split
  · exact tidy_erase h uri
  · rename_i hoccupied
    rintro entry (_ | ⟨_, he⟩)
    · simpa using hoccupied
    · exact tidy_erase h uri entry he

/-- Storing a list for each of some files, one after the other. -/
theorem foldl_store (kind : DiagnosticKind) (list : FileUri → List Diagnostic)
    (uris : List FileUri) (hnodup : uris.Nodup) (s : Session) :
    let stored := uris.foldl (fun s uri => s.store uri kind (list uri)) s
    (∀ other, stored.known other =
      if other ∈ uris then (s.known other).set kind (list other) else s.known other) ∧
    stored.history = s.history ∧ (s.IsTidy → stored.IsTidy) := by
  induction uris generalizing s with
  | nil => exact ⟨fun _ => rfl, rfl, id⟩
  | cons uri uris ih =>
    obtain ⟨hnew, hnodup⟩ := List.nodup_cons.mp hnodup
    obtain ⟨hknown, hhistory, htidy⟩ := ih hnodup (s.store uri kind (list uri))
    refine ⟨fun other => ?_, hhistory, fun ht => htidy (tidy_store ht _ _ _)⟩
    rw [List.foldl_cons, hknown, known_store]
    by_cases he : other = uri
    · simp [he, hnew]
    · simp [he]

theorem told_send (s : Session) (uri other : FileUri) : told other (s.send uri).history =
    if uri = other then s.diagnosticsOf uri :: told other s.history else told other s.history := by
  unfold send
  split
  · rw [(quiet_change _ _).told]
    rfl
  · rfl

theorem tidy_send (h : s.IsTidy) (uri : FileUri) : (s.send uri).IsTidy := by
  rwa [IsTidy, diagnostics_send]

theorem foldl_send (uris : List FileUri) (hnodup : uris.Nodup) (s : Session) :
    (uris.foldl send s).diagnostics = s.diagnostics ∧
    ∀ other, told other (uris.foldl send s).history =
      if other ∈ uris then s.diagnosticsOf other :: told other s.history
      else told other s.history := by
  induction uris generalizing s with
  | nil => exact ⟨rfl, fun _ => rfl⟩
  | cons uri uris ih =>
    obtain ⟨hnew, hnodup⟩ := List.nodup_cons.mp hnodup
    obtain ⟨hdiagnostics, htold⟩ := ih hnodup (s.send uri)
    refine ⟨hdiagnostics.trans (diagnostics_send ..), fun other => ?_⟩
    rw [List.foldl_cons, htold, told_send, diagnosticsOf, known_send]
    by_cases he : uri = other
    · subst he
      simp [hnew, diagnosticsOf]
    · simp [he, Ne.symm he, diagnosticsOf]

/-- Lists that change what is shown are stored and then told of. -/
theorem restated_storeThenSend (s : Session) {changed : List FileUri} (hnodup : changed.Nodup)
    (hchanged : ∀ uri ∈ changed,
      ((s.known uri).set kind (list uri)).merged ≠ (s.known uri).merged) :
    Restated s
      (changed.foldl send (changed.foldl (fun s uri => s.store uri kind (list uri)) s))
      fun uri => if uri ∈ changed then (s.known uri).set kind (list uri) else s.known uri := by
  obtain ⟨hknown, hhistory, htidy⟩ := foldl_store kind list changed hnodup s
  obtain ⟨hdiagnostics, htold⟩ :=
    foldl_send changed hnodup (changed.foldl (fun s uri => s.store uri kind (list uri)) s)
  refine ⟨?_, fun uri => ?_, fun ht => ?_⟩
  · funext uri
    rw [← hknown]
    exact congrArg (fun t => (t.get? uri).getD .empty) hdiagnostics
  · rw [htold, hhistory, diagnosticsOf, hknown]
    by_cases hu : uri ∈ changed
    · simp only [if_pos hu, if_neg (hchanged uri hu)]
    · simp only [if_neg hu, if_true]
  · rw [IsTidy, hdiagnostics]
    exact htidy ht

/-- The files in some list become known by a new list of one kind, and all others stay. -/
theorem restated_replace (s : Session) (kind : DiagnosticKind) (list : FileUri → List Diagnostic)
    (uris : List FileUri) : Restated s (s.replace kind list uris) fun uri =>
      if uri ∈ uris then (s.known uri).set kind (list uri) else s.known uri := by
  let changed := (FileUri.sort uris.eraseDups).filter fun uri =>
    (s.known uri).changes kind (list uri)
  have hnodup : changed.Nodup :=
    ((List.mergeSort_perm _ _).nodup_iff.mpr (nodup_eraseDups uris)).filter _
  have hmem : ∀ uri, uri ∈ changed ↔
      uri ∈ uris ∧ ((s.known uri).set kind (list uri)).merged ≠ (s.known uri).merged := by
    intro uri
    simp [changed, FileUri.sort, FileDiagnostics.changes_iff]
  have hrestated := restated_storeThenSend s hnodup fun uri hu => ((hmem uri).mp hu).2
  -- a file whose list stays the same is known as before
  have hsame : (fun uri => if uri ∈ changed then (s.known uri).set kind (list uri)
      else s.known uri) =
        fun uri => if uri ∈ uris then (s.known uri).set kind (list uri) else s.known uri := by
    funext uri
    by_cases hu : uri ∈ changed
    · rw [if_pos hu, if_pos ((hmem uri).mp hu).1]
    · rw [if_neg hu]
      split
      · rename_i hu'
        by_contra hne
        refine hu ((hmem uri).mpr ⟨hu', fun hmerged => hne ?_⟩)
        exact (FileDiagnostics.set_get (FileDiagnostics.merged_set_eq_iff.mp hmerged)).symm
      · rfl
  rw [← hsame]
  exact hrestated

theorem restated_delete (s : Session) (uri : FileUri) :
    Restated s (s.delete uri) (Function.update s.known uri .empty) := by
  have hknown : (s.forget uri).known = Function.update s.known uri .empty := by
    funext other
    simp only [Session.known, forget, Table.get?_erase, Function.update_apply]
    split <;> rfl
  have htidy : s.IsTidy → (s.forget uri).IsTidy := fun ht => tidy_erase ht uri
  have hother : ∀ other, other ≠ uri →
      (Function.update s.known uri .empty other).merged = (s.known other).merged := by
    intro other hne
    rw [Function.update_of_ne hne]
  unfold delete
  split
  · rename_i he
    have hempty : s.known uri = .empty := FileDiagnostics.eq_empty_of_isEmpty he
    have hsame : Function.update s.known uri .empty = s.known := by
      rw [← hempty, Function.update_eq_self]
    refine ⟨hknown, fun other => ?_, htidy⟩
    rw [hsame, if_pos (by rfl)]
    rfl
  · rename_i he
    refine ⟨?_, fun other => ?_, fun ht => tidy_send (htidy ht) uri⟩
    · rw [← hknown]
      funext other
      exact known_send ..
    · rw [told_send, diagnosticsOf, hknown]
      by_cases ho : uri = other
      · subst ho
        rw [if_pos rfl, Function.update_self, if_neg]
        · rfl
        · intro hmerged
          rw [FileDiagnostics.isEmpty, ← hmerged] at he
          exact he rfl
      · rw [if_neg ho, if_pos (hother other (Ne.symm ho))]
        rfl

-- ---------------------------------------------------------------------------
-- The changes that there are
-- ---------------------------------------------------------------------------

/-- A change of what is stored and shown that runs and settings make, in a project `w`. -/
inductive Restates (w : Workspace) (s s' : Session) : Prop where
  | nothing (h : Quiet s s')
  /-- A run or new settings give a list for one file of the project. -/
  | published {uri : FileUri} {d : Document} (hd : w.document? uri = some d)
      (kind : DiagnosticKind) (found : List Diagnostic) (h : Restated s s'
        (Function.update s.known uri ((s.known uri).set kind (attributed kind found))))
  /-- Linting is turned off. -/
  | unlinted (h : Restated s s' fun uri => (s.known uri).set .lint [])

/-- Changes of what is stored and shown, one after the other. -/
abbrev Restatements (w : Workspace) : Session → Session → Prop :=
  Relation.ReflTransGen (Restates w)

theorem Quiet.restatements (h : Quiet s s') : Restatements w s s' := .single (.nothing h)

/-- A file without an entry has no diagnostics of any kind. -/
theorem known_of_not_mem_keys (h : uri ∉ s.diagnostics.keys) : s.known uri = .empty := by
  rw [known, Table.get?_of_notMem_keys h]
  rfl

/-- A list for every file that may have diagnostics of that kind is a list for every file. -/
theorem Restated.of_all {uris : List FileUri}
    (h : Restated s s' fun uri => if uri ∈ uris then (s.known uri).set kind (list uri)
      else s.known uri)
    (hall : ∀ uri, uri ∉ uris → s.known uri = .empty ∧ list uri = []) :
    Restated s s' fun uri => (s.known uri).set kind (list uri) := by
  have hsame : (fun uri => if uri ∈ uris then (s.known uri).set kind (list uri)
      else s.known uri) = fun uri => (s.known uri).set kind (list uri) := by
    funext uri
    by_cases hu : uri ∈ uris
    · rw [if_pos hu]
    · obtain ⟨hempty, hnone⟩ := hall uri hu
      rw [if_neg hu, hempty, hnone]
      cases kind <;> rfl
  exact hsame ▸ h

theorem restated_publish {d : Document} (hd : s.workspace.document? uri = some d)
    (kind : DiagnosticKind) (found : List Diagnostic) : Restated s (s.publish uri kind found)
      (Function.update s.known uri ((s.known uri).set kind (attributed kind found))) := by
  unfold publish
  rw [hd]
  convert restated_replace s kind (fun _ => attributed kind found) [uri] using 1
  funext other
  by_cases ho : other = uri
  · subst ho
    simp
  · simp [ho]

theorem restates_publish (hw : s.workspace = w) (uri : FileUri) (kind : DiagnosticKind)
    (found : List Diagnostic) : Restates w s (s.publish uri kind found) := by
  cases hd : s.workspace.document? uri with
  | some d => exact .published (hw ▸ hd) kind found (restated_publish hd kind found)
  | none =>
    refine .nothing ?_
    rw [publish, hd]
    exact .refl s

/-- A build replaces the build diagnostics of all files. -/
theorem restated_applyBuild (s : Session) (found : Table FileUri (List Diagnostic)) :
    Restated s (s.applyBuild found) fun uri =>
      (s.known uri).set .build (attributed .build ((found.get? uri).getD [])) := by
  refine (restated_replace ..).of_all fun uri hu => ?_
  simp only [List.mem_append, not_or] at hu
  refine ⟨known_of_not_mem_keys hu.2, ?_⟩
  rw [Table.get?_of_notMem_keys hu.1]
  rfl

theorem restatements_relint (hw : s.workspace = w) : Restatements w s s.relint := by
  unfold relint
  generalize s.workspace.writableFiles = uris
  induction uris generalizing s with
  | nil => exact .refl
  | cons uri uris ih =>
    rw [List.foldl_cons]
    split
    · refine .head (restates_publish hw uri .lint _) (ih ?_)
      rw [(undisturbed_publish ..).workspace, hw]
    · exact ih hw

theorem restatements_configure (hw : s.workspace = w) (settings : Settings) :
    Restatements w s (s.configure settings) := by
  have hquiet : Quiet s { s with settings } := ⟨rfl, fun _ => rfl⟩
  unfold configure
  simp only
  split
  · refine hquiet.restatements.tail (.unlinted ((restated_replace ..).of_all fun uri hu => ?_))
    exact ⟨known_of_not_mem_keys hu, rfl⟩
  · split
    · exact hquiet.restatements.trans (restatements_relint hw)
    · exact hquiet.restatements

/-- A run that hands over its findings tells nothing else. -/
theorem restatements_handOver (hw : s.workspace = w) (n : Nat) (uri : FileUri)
    (kind : DiagnosticKind) (found : List Diagnostic)
    (h : Quiet (s.handOver n uri kind found) s') : Restatements w s s' := by
  have hquiet : Quiet s (s.record (.handedOver n uri kind)) := ⟨rfl, fun _ => rfl⟩
  exact hquiet.restatements.trans
    (.head (restates_publish (s := s.record _) hw uri kind found) h.restatements)

theorem restatements_step (hw : s.workspace = w) (n : Nat) (walk : Walk) :
    Restatements w s (s.step n walk) := by
  unfold step
  split
  · exact (show Quiet s (s.proceed n walk none) from ⟨rfl, fun _ => rfl⟩).restatements
  · rename_i uri _
    split
    · exact (show Quiet s (s.skip n walk uri) from ⟨rfl, fun _ => rfl⟩).restatements
    · exact (show Quiet s (s.record _) from ⟨rfl, fun _ => rfl⟩).restatements
    · split
      · exact (show Quiet s (s.abandon n walk) from ⟨rfl, fun _ => rfl⟩).restatements
      · exact restatements_handOver hw n uri .lint _ ⟨rfl, fun _ => rfl⟩

theorem restatements_turn (hw : s.workspace = w) (n : Nat) : Restatements w s (s.turn n) := by
  have hquiet : ∀ scheduler, Quiet s (s.adopt scheduler) := fun _ => ⟨rfl, fun _ => rfl⟩
  unfold turn
  split
  · exact (hquiet _).restatements.trans (restatements_step (s := s.adopt _) hw n _)
  · exact (hquiet _).restatements

theorem restatements_typesHeard (hw : s.workspace = w) (n : Nat) (walk : Walk) (uri : FileUri)
    (answer : TypesAnswer) : Restatements w s (s.typesHeard n walk uri answer) := by
  have habandon : ∀ s : Session, Quiet s (s.abandon n walk) := fun _ => ⟨rfl, fun _ => rfl⟩
  unfold typesHeard
  split
  · exact (show Quiet s (s.adopt _) from ⟨rfl, fun _ => rfl⟩).restatements
  · split
    · exact (habandon s).restatements
    · rename_i found _ _
      refine restatements_handOver hw n uri .typeInference found ?_
      unfold typesFound
      dsimp only
      split
      · exact habandon _
      · exact ⟨rfl, fun _ => rfl⟩
  · split
    · exact (habandon s).restatements
    · exact (quiet_typesFailed ..).restatements

theorem restatements_typesAnswered (hw : s.workspace = w) (n : Nat) (answer : TypesAnswer) :
    Restatements w s (s.typesAnswered n answer) := by
  unfold typesAnswered
  split
  · exact .refl
  · split
    · exact (quiet_heedCancellation s n).restatements
    · split
      · unfold typesCome
        split
        · have hquiet : Quiet s (s.cancelRun n .producer) := ⟨rfl, fun _ => rfl⟩
          exact hquiet.restatements.trans
            (restatements_typesHeard (s := s.cancelRun n .producer) hw n _ _ answer)
        · exact restatements_typesHeard hw n _ _ answer
      · exact .refl

/-- What the build has found whose answer the event is, if it counts. -/
def countedBuild? (s : Session) : Event → Option (Table FileUri (List Diagnostic))
  | .buildAnswered number answer =>
    if s.awaitedBuild? = some number && !answer.isCancelling then answer.result.toOption else none
  | _ => none

theorem buildAnswered_eq (s : Session) (number : Nat) (answer : BuildAnswer) :
    s.buildAnswered number answer =
      (s.countedBuild? (.buildAnswered number answer)).elim s s.applyBuild := by
  unfold buildAnswered
  simp only [countedBuild?]
  split
  · cases answer.result <;> rfl
  · rfl

/-- Runs and settings change what is shown of files of the project only, and no other event does,
apart from the builds that count, the deletions and the end. -/
theorem restatements_after (s : Session) {e : Event} (hbuild : s.countedBuild? e = none)
    (hdelete : ∀ uri, e ≠ .deleteDocument uri) (hlive : e ≠ .shutDown) :
    Restatements (s.affected e).workspace s (s.after e) := by
  have hstill : ∀ {s' : Session}, Quiet s s' → Restatements (s.affected e).workspace s s' :=
    Quiet.restatements
  cases e with
  | setFile | removeFile | showFile | hideFile | react | clock => exact hstill ⟨rfl, fun _ => rfl⟩
  | openDocument uri =>
    refine hstill (show Quiet s (s.openDocument uri) from ?_)
    unfold openDocument
    split
    · exact .refl s
    · exact ⟨rfl, fun _ => rfl⟩
  | saveDocument uri =>
    refine hstill (show Quiet s (s.saveDocument uri) from ?_)
    unfold saveDocument
    split
    · exact .refl s
    · exact ⟨rfl, fun _ => rfl⟩
  | changeDocument uri => exact hstill (quiet_change s uri)
  | deleteDocument uri => exact absurd rfl (hdelete uri)
  | configure settings => exact restatements_configure (s := s) rfl settings
  | request files pause cancelled =>
    refine hstill (show Quiet s (s.request files pause cancelled) from ?_)
    unfold request
    split
    · exact .refl s
    · exact quiet_startRun ..
  | cancelRequest run =>
    refine hstill (show Quiet s (s.cancelRequest run) from ?_)
    unfold cancelRequest
    split
    · exact ⟨rfl, fun _ => rfl⟩
    · exact .refl s
  | beginInterruption =>
    refine hstill (show Quiet s (s.beginInterruption) from ?_)
    unfold beginInterruption
    split
    · split
      · exact .refl s
      · exact ⟨rfl, fun _ => rfl⟩
    · exact .refl s
  | endInterruption hasCancelled =>
    refine hstill (show Quiet s (s.endInterruption hasCancelled) from ?_)
    unfold endInterruption
    split
    · exact quiet_drain s
    · exact .refl s
  | shutDown => exact absurd rfl hlive
  | silence =>
    refine hstill (show Quiet s (s.silence) from ?_)
    unfold silence
    split
    · exact quiet_drain s
    · exact .refl s
  | turn n => exact restatements_turn rfl n
  | heedCancellation n => exact hstill (quiet_heedCancellation s n)
  | typesAnswered n answer => exact restatements_typesAnswered rfl n answer
  | buildAnswered number answer =>
    refine hstill (show Quiet s (s.buildAnswered number answer) from ?_)
    rw [buildAnswered_eq, hbuild]
    exact .refl s

/-- All that an event changes of what is stored and shown, as long as the session goes on: a build
that counts replaces the build diagnostics of all files, a deletion clears the file, and else only
files of the project get new lists, or linting is turned off. -/
theorem restated_after (s : Session) {e : Event} (hlive : e ≠ .shutDown) :
    (∃ found, s.countedBuild? e = some found ∧ Restated s (s.after e) fun uri =>
      (s.known uri).set .build (attributed .build ((found.get? uri).getD []))) ∨
    (∃ uri, e = .deleteDocument uri ∧
      Restated s (s.after e) (Function.update s.known uri .empty)) ∨
    s.countedBuild? e = none ∧ (∀ uri, e ≠ .deleteDocument uri) ∧
      Restatements (s.affected e).workspace s (s.after e) := by
  cases hbuild : s.countedBuild? e with
  | some found =>
    refine .inl ⟨found, rfl, ?_⟩
    cases e with
    | buildAnswered number answer =>
      change Restated s (s.buildAnswered number answer) _
      rw [buildAnswered_eq, hbuild]
      exact restated_applyBuild s found
    | _ => cases hbuild
  | none =>
    by_cases hdelete : ∃ uri, e = .deleteDocument uri
    · obtain ⟨uri, rfl⟩ := hdelete
      exact .inr (.inl ⟨uri, rfl, restated_delete s uri⟩)
    · have hdelete : ∀ uri, e ≠ .deleteDocument uri := fun uri he => hdelete ⟨uri, he⟩
      exact .inr (.inr ⟨rfl, hdelete, restatements_after s hbuild hdelete hlive⟩)

-- ---------------------------------------------------------------------------
-- What is shown is what is stored
-- ---------------------------------------------------------------------------

/-- The editor was told last of each file what is stored of it, it was told each time of something
new, and what is stored is attributed to its producer. At first the editor shows nothing. -/
structure Displayed (s : Session) : Prop where
  shown : ∀ uri, (told uri s.history).headD [] = s.diagnosticsOf uri
  news : ∀ uri, (told uri s.history ++ [[]]).IsChain (· ≠ ·)
  tidy : s.IsTidy
  attributed : ∀ uri kind, ∀ d ∈ (s.known uri).get kind, d.kind = kind

theorem displayed_initial (sourceDirs : List FileUri) (settings : Settings) :
    (Session.initial sourceDirs settings).Displayed where
  shown _ := rfl
  news _ := .singleton []
  tidy := nofun
  attributed _ kind := by cases kind <;> exact nofun

namespace Displayed

theorem restated (h : s.Displayed) (hr : Restated s s' now)
    (hnow : ∀ uri kind, ∀ d ∈ (now uri).get kind, d.kind = kind) : s'.Displayed where
  shown uri := by
    rw [hr.told, diagnosticsOf, hr.known]
    split
    · rename_i hsame
      rw [h.shown, diagnosticsOf, hsame]
    · rfl
  news uri := by
    rw [hr.told]
    split
    · exact h.news uri
    · rename_i hchanged
      have hhead : (now uri).merged ≠ (told uri s.history).headD [] := by
        rwa [h.shown]
      have hnews := h.news uri
      cases htold : told uri s.history with
      | nil =>
        rw [htold] at hhead
        exact .cons_cons hhead (.singleton [])
      | cons list lists =>
        rw [htold] at hhead hnews
        exact .cons_cons hhead hnews
  tidy := hr.tidy h.tidy
  attributed uri := by
    rw [hr.known]
    exact hnow uri

/-- A list in one slot leaves the others as they are attributed. -/
theorem attributed_set (h : s.Displayed) (uri : FileUri) {list : List Diagnostic}
    (hlist : ∀ d ∈ list, d.kind = kind) (kind' : DiagnosticKind) :
    ∀ d ∈ ((s.known uri).set kind list).get kind', d.kind = kind' := by
  rw [FileDiagnostics.get_set]
  split
  · rename_i he
    exact he ▸ hlist
  · exact h.attributed uri kind'

theorem kind_of_mem_attributed {found : List Diagnostic} :
    ∀ d ∈ Session.attributed kind found, d.kind = kind := by
  intro d hd
  obtain ⟨d, -, rfl⟩ := List.mem_map.mp hd
  rfl

theorem restates (h : s.Displayed) (hr : Restates w s s') : s'.Displayed := by
  cases hr with
  | nothing hq => exact h.restated hq.restated h.attributed
  | @published uri d hd kind found hr =>
    refine h.restated hr fun other => ?_
    by_cases ho : other = uri
    · subst ho
      rw [Function.update_self]
      exact h.attributed_set other kind_of_mem_attributed
    · rw [Function.update_of_ne ho]
      exact h.attributed other
  | unlinted hr => exact h.restated hr fun uri => h.attributed_set uri nofun

theorem restatements (h : s.Displayed) (hr : Restatements w s s') : s'.Displayed := by
  induction hr with
  | refl => exact h
  | tail _ hr ih => exact ih.restates hr

theorem after (h : s.Displayed) {e : Event} (hlive : e ≠ .shutDown) : (s.after e).Displayed := by
  obtain ⟨found, -, hr⟩ | ⟨uri, -, hr⟩ | ⟨-, -, hr⟩ := s.restated_after hlive
  · exact h.restated hr fun uri => h.attributed_set uri kind_of_mem_attributed
  · refine h.restated hr fun other => ?_
    by_cases ho : other = uri
    · subst ho
      rw [Function.update_self]
      intro kind
      cases kind <;> exact nofun
    · rw [Function.update_of_ne ho]
      exact h.attributed other
  · exact h.restatements hr

end Displayed

end Session

namespace Reachable

open History (told)

variable {sourceDirs : List FileUri} {settings : Settings} {sort : Event → Bool} {m : Moment}

theorem displayed (h : Reachable sourceDirs settings sort m)
    (hlive : m.session.isShutDown = false) : m.session.Displayed := by
  induction h with
  | initial => exact Session.displayed_initial sourceDirs settings
  | @next m e h _ _ ih =>
    obtain ⟨hlive, hne⟩ := h.live_before hlive
    exact (ih hlive).after hne

/-- As long as the session goes on, the editor shows of each file what is stored of it, producer by
producer: it was told that last, it was never told the same twice in a row, and at first of
something. No file is kept without diagnostics, each list that is stored is of its producer, and
storing a list replaces that list and no other. The list that a producer replaces has changed
exactly if what the editor sees has. -/
theorem shown_eq_stored (h : Reachable sourceDirs settings sort m)
    (hlive : m.session.isShutDown = false) :
    (∀ uri, (told uri m.session.history).headD [] = m.session.diagnosticsOf uri ∧
      m.session.diagnosticsOf uri = (m.session.known uri).build ++
        (m.session.known uri).typeInference ++ (m.session.known uri).lint ∧
      (told uri m.session.history ++ [[]]).IsChain (· ≠ ·)) ∧
    (∀ entry ∈ m.session.diagnostics.entries, entry.2.isEmpty = false) ∧
    (∀ uri kind, ∀ d ∈ (m.session.known uri).get kind, d.kind = kind) ∧
    (∀ uri kind list other kind', ((m.session.store uri kind list).known other).get kind' =
      if other = uri ∧ kind' = kind then list else (m.session.known other).get kind') ∧
    (∀ (f : FileDiagnostics) kind list,
      f.changes kind list = true ↔ (f.set kind list).merged ≠ f.merged) := by
  have hd := h.displayed hlive
  refine ⟨fun uri => ⟨hd.shown uri, FileDiagnostics.merged_eq _, hd.news uri⟩, hd.tidy,
    hd.attributed, fun uri kind list other kind' => ?_, fun f kind list => f.changes_iff⟩
  rw [Session.known_store]
  by_cases ho : other = uri
  · subst ho
    simp [FileDiagnostics.get_set]
  · simp [ho]

/-- A file is analysed, built with a complaint, no longer linted, and deleted. -/
def riseAndFall : List Event :=
  firstAnalysis ++
  [.saveDocument ⟨"file:///Main.elm"⟩,
   .buildAnswered 1 ⟨false, .ok ⟨[(⟨"file:///Main.elm"⟩,
      [.warning "naming_error" "unknown name" ⟨⟨0, 0⟩, ⟨0, 1⟩⟩])]⟩⟩,
   .configure { Settings.standard with lintEnabled := false },
   .deleteDocument ⟨"file:///Main.elm"⟩]

theorem shown_eq_stored_riseAndFall :
    let m := riseAndFall.foldl Moment.next (.initial [] .standard)
    (told ⟨"file:///Main.elm"⟩ m.session.history).length = 4 ∧
    (told ⟨"file:///Main.elm"⟩ m.session.history).headD [] = [] ∧
    (told ⟨"file:///Main.elm"⟩ m.session.history ++ [[]]).IsChain (· ≠ ·) := by
  intro m
  have hreach : Reachable [] .standard (fun _ => true) m :=
    Reachable.initial.foldl riseAndFall (by decide +kernel) (by decide +kernel)
  have hshown := (shown_eq_stored hreach (by decide +kernel)).1 ⟨"file:///Main.elm"⟩
  refine ⟨by decide +kernel, ?_, hshown.2.2⟩
  rw [hshown.1]
  decide +kernel

end Reachable

end ElmLint

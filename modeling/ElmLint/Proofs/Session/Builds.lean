import ElmLint.Proofs.Session.Display
import Mathlib.Data.String.Basic

/-!
# Builds

Of the builds that were asked for, the one asked for last counts, and after the end of the session
none does. The answer of a build that counts replaces the build diagnostics of all files at once
(`Rebuilt`); any other answer changes nothing.
-/

namespace ElmLint

/-- The editor opens or saves a file. -/
def Event.asksBuild : Event → Bool
  | .openDocument _ | .saveDocument _ => true
  | _ => false

/-- Addresses in the order of their texts, none twice. -/
def FileUri.Ascending (uris : List FileUri) : Prop := uris.Pairwise fun a b => a.text < b.text

theorem FileUri.ascending_sort {uris : List FileUri} (h : uris.Nodup) :
    FileUri.Ascending (FileUri.sort uris) := by
  have hle : (FileUri.sort uris).Pairwise fun a b => FileUri.le a b = true := by
    refine List.pairwise_mergeSort ?_ ?_ uris
    · intro a b c hab hbc
      exact decide_eq_true (String.le_trans (of_decide_eq_true hab) (of_decide_eq_true hbc))
    · intro a b
      simpa [FileUri.le] using String.le_total a.text b.text
  have hne : (FileUri.sort uris).Nodup := (List.mergeSort_perm _ _).nodup_iff.mpr h
  refine (hle.and hne).imp fun {a b} hab => lt_of_le_of_ne (of_decide_eq_true hab.1) ?_
  intro htext
  exact hab.2 (congrArg FileUri.mk htext)

namespace History

/-- What the editor was told, file by file, the oldest first. -/
def publications : History → List (FileUri × List Diagnostic)
  | [] => []
  | (_, .published uri list) :: earlier => publications earlier ++ [(uri, list)]
  | _ :: earlier => publications earlier

end History

namespace Session

open History (publications)

variable {s t s' : Session} {number : Nat}

-- ---------------------------------------------------------------------------
-- What asks for no build
-- ---------------------------------------------------------------------------

/-- No build was asked for, the same build counts as before, and the session has not ended. -/
structure BuildsKept (s s' : Session) : Prop where
  builds : s'.builds = s.builds
  awaitedBuild? : s'.awaitedBuild? = s.awaitedBuild?
  isShutDown : s'.isShutDown = s.isShutDown

namespace BuildsKept

theorem refl (s : Session) : BuildsKept s s := ⟨rfl, rfl, rfl⟩

theorem trans (h : BuildsKept s t) (h' : BuildsKept t s') : BuildsKept s s' :=
  ⟨h'.builds.trans h.builds, h'.awaitedBuild?.trans h.awaitedBuild?,
    h'.isShutDown.trans h.isShutDown⟩

theorem change (s : Session) (uri : FileUri) : BuildsKept s (s.change uri) := by
  unfold Session.change
  split <;> exact ⟨rfl, rfl, rfl⟩

theorem send (s : Session) (uri : FileUri) : BuildsKept s (s.send uri) := by
  unfold Session.send
  split
  · exact trans (t := { s.record _ with reactions := _ }) ⟨rfl, rfl, rfl⟩ (change _ _)
  · exact ⟨rfl, rfl, rfl⟩

theorem foldl (f : Session → FileUri → Session) (h : ∀ s uri, BuildsKept s (f s uri))
    (uris : List FileUri) (s : Session) : BuildsKept s (uris.foldl f s) := by
  induction uris generalizing s with
  | nil => exact refl s
  | cons uri uris ih => exact (h s uri).trans (ih _)

theorem replace (s : Session) (kind : DiagnosticKind) (list : FileUri → List Diagnostic)
    (uris : List FileUri) : BuildsKept s (s.replace kind list uris) :=
  (foldl (fun s uri => s.store uri kind (list uri)) (fun _ _ => ⟨rfl, rfl, rfl⟩) _ s).trans
    (foldl Session.send send _ _)

theorem publish (s : Session) (uri : FileUri) (kind : DiagnosticKind) (found : List Diagnostic) :
    BuildsKept s (s.publish uri kind found) := by
  unfold Session.publish
  split
  · exact replace ..
  · exact refl s

theorem delete (s : Session) (uri : FileUri) : BuildsKept s (s.delete uri) := by
  unfold Session.delete
  split
  · exact ⟨rfl, rfl, rfl⟩
  · exact trans (t := s.forget uri) ⟨rfl, rfl, rfl⟩ (send _ _)

theorem configure (s : Session) (settings : Settings) : BuildsKept s (s.configure settings) := by
  have hset : BuildsKept s { s with settings } := ⟨rfl, rfl, rfl⟩
  unfold Session.configure
  dsimp only
  split
  · exact hset.trans (replace ..)
  · split
    · refine hset.trans (foldl _ (fun s uri => ?_) _ _)
      split
      · exact publish ..
      · exact refl s
    · exact hset

theorem takeOver (s : Session) : BuildsKept s s.takeOver := by
  unfold Session.takeOver
  split <;> exact ⟨rfl, rfl, rfl⟩

theorem launch (s : Session) (files : List FileUri) (pause : Nat) (isOnDemand : Bool)
    (canceller? : Option Canceller) : BuildsKept s (s.launch files pause isOnDemand canceller?) := by
  cases canceller? <;> exact ⟨rfl, rfl, rfl⟩

theorem startRun (s : Session) (files : List FileUri) (withOpenFiles : Bool) (pause : Nat)
    (isOnDemand : Bool) (canceller? : Option Canceller) :
    BuildsKept s (s.startRun files withOpenFiles pause isOnDemand canceller?) := by
  unfold Session.startRun
  split
  · exact takeOver s
  · exact (takeOver s).trans (launch ..)

theorem drain (s : Session) : BuildsKept s s.drain :=
  trans (t := s.takeMarked) ⟨rfl, rfl, rfl⟩ (startRun ..)

theorem request (s : Session) (files : List FileUri) (pause : Nat) (cancelled : Bool) :
    BuildsKept s (s.request files pause cancelled) := by
  unfold Session.request
  split
  · exact refl s
  · exact startRun ..

theorem handOver (s : Session) (n : Nat) (uri : FileUri) (kind : DiagnosticKind)
    (found : List Diagnostic) : BuildsKept s (s.handOver n uri kind found) :=
  trans (t := s.record _) ⟨rfl, rfl, rfl⟩ (publish ..)

theorem step (s : Session) (n : Nat) (walk : Walk) : BuildsKept s (s.step n walk) := by
  unfold Session.step
  split
  · exact ⟨rfl, rfl, rfl⟩
  · split
    · exact ⟨rfl, rfl, rfl⟩
    · exact ⟨rfl, rfl, rfl⟩
    · split
      · exact ⟨rfl, rfl, rfl⟩
      · exact (handOver ..).trans ⟨rfl, rfl, rfl⟩

theorem turn (s : Session) (n : Nat) : BuildsKept s (s.turn n) := by
  unfold Session.turn
  split
  · exact trans (t := s.adopt _) ⟨rfl, rfl, rfl⟩ (step ..)
  · exact ⟨rfl, rfl, rfl⟩

theorem heedCancellation (s : Session) (n : Nat) : BuildsKept s (s.heedCancellation n) := by
  unfold Session.heedCancellation
  split
  · split <;> exact ⟨rfl, rfl, rfl⟩
  · exact refl s

theorem typesHeard (s : Session) (n : Nat) (walk : Walk) (uri : FileUri) (answer : TypesAnswer) :
    BuildsKept s (s.typesHeard n walk uri answer) := by
  unfold Session.typesHeard
  split
  · exact ⟨rfl, rfl, rfl⟩
  · split
    · exact ⟨rfl, rfl, rfl⟩
    · rename_i found _ _
      refine (handOver s n uri .typeInference found).trans ?_
      unfold Session.typesFound
      dsimp only
      split <;> exact ⟨rfl, rfl, rfl⟩
  · split
    · exact ⟨rfl, rfl, rfl⟩
    · unfold typesFailed
      split <;> exact ⟨rfl, rfl, rfl⟩

theorem typesAnswered (s : Session) (n : Nat) (answer : TypesAnswer) :
    BuildsKept s (s.typesAnswered n answer) := by
  unfold Session.typesAnswered
  split
  · exact refl s
  · split
    · exact heedCancellation s n
    · split
      · unfold typesCome
        split
        · exact trans (t := s.cancelRun n .producer) ⟨rfl, rfl, rfl⟩ (typesHeard ..)
        · exact typesHeard ..
      · exact refl s

theorem buildAnswered (s : Session) (number : Nat) (answer : BuildAnswer) :
    BuildsKept s (s.buildAnswered number answer) := by
  rw [buildAnswered_eq]
  cases s.countedBuild? (.buildAnswered number answer) with
  | none => exact refl s
  | some found => exact replace ..

theorem after (s : Session) {e : Event} (hasks : e.asksBuild = false) (hlive : e ≠ .shutDown) :
    BuildsKept s (s.after e) := by
  cases e with
  | setFile | removeFile | showFile | hideFile | react | clock => exact ⟨rfl, rfl, rfl⟩
  | openDocument | saveDocument => cases hasks
  | changeDocument uri => exact change s uri
  | deleteDocument uri => exact delete s uri
  | configure settings => exact configure s settings
  | request files pause cancelled => exact request s files pause cancelled
  | cancelRequest run =>
    change BuildsKept s (s.cancelRequest run)
    unfold cancelRequest
    split <;> exact ⟨rfl, rfl, rfl⟩
  | beginInterruption =>
    change BuildsKept s s.beginInterruption
    unfold beginInterruption
    split
    · split <;> exact ⟨rfl, rfl, rfl⟩
    · exact refl s
  | endInterruption hasCancelled =>
    change BuildsKept s (s.endInterruption hasCancelled)
    unfold endInterruption
    split
    · exact drain s
    · exact refl s
  | shutDown => exact absurd rfl hlive
  | silence =>
    change BuildsKept s s.silence
    unfold silence
    split
    · exact drain s
    · exact refl s
  | turn run => exact turn s run
  | heedCancellation run => exact heedCancellation s run
  | typesAnswered run answer => exact typesAnswered s run answer
  | buildAnswered number answer => exact buildAnswered s number answer

end BuildsKept

-- ---------------------------------------------------------------------------
-- Which build counts
-- ---------------------------------------------------------------------------

/-- The build was asked for, and its result does not count. -/
structure IsOutdated (s : Session) (number : Nat) : Prop where
  asked : number ≤ s.builds
  discounted : s.awaitedBuild? ≠ some number

theorem BuildsKept.isOutdated (h : BuildsKept s s') (ho : s.IsOutdated number) :
    s'.IsOutdated number :=
  ⟨h.builds ▸ ho.asked, h.awaitedBuild? ▸ ho.discounted⟩

/-- Opening or saving a file asks for another build, unless the session has ended. -/
theorem after_asksBuild {e : Event} (hasks : e.asksBuild = true) (hlive : s.isShutDown = false) :
    (s.after e).builds = s.builds + 1 ∧ (s.after e).awaitedBuild? = some (s.builds + 1) ∧
    (s.after e).isShutDown = false ∧
    ∃ uri, (e = .openDocument uri ∨ e = .saveDocument uri) ∧
      (s.now, .buildAsked (s.builds + 1) uri) ∈ (s.after e).history := by
  cases e with
  | openDocument uri =>
    have he : s.after (.openDocument uri) = (s.askBuild uri).mark uri := by
      simp [Session.after, openDocument, hlive]
    rw [he]
    exact ⟨rfl, rfl, hlive, uri, .inl rfl, .tail _ (.head _)⟩
  | saveDocument uri =>
    have he : s.after (.saveDocument uri) = s.askBuild uri := by
      simp [Session.after, saveDocument, hlive]
    rw [he]
    exact ⟨rfl, rfl, hlive, uri, .inr rfl, .head _⟩
  | _ => cases hasks

theorem after_asksBuild_of_isShutDown {e : Event} (hasks : e.asksBuild = true)
    (hended : s.isShutDown = true) : s.after e = s := by
  cases e with
  | openDocument | saveDocument => exact if_pos hended
  | _ => cases hasks

/-- A build whose result counts no longer, never counts again. -/
theorem IsOutdated.after (h : s.IsOutdated number) (e : Event) :
    (s.after e).IsOutdated number := by
  by_cases hend : e = .shutDown
  · subst hend
    change s.shutDown.IsOutdated number
    cases hs : s.isShutDown with
    | true => rwa [shutDown_again hs]
    | false =>
      rw [shutDown_eq hs]
      exact ⟨h.asked, nofun⟩
  · cases hasks : e.asksBuild with
    | false => exact (BuildsKept.after s hasks hend).isOutdated h
    | true =>
      cases hs : s.isShutDown with
      | true => rwa [after_asksBuild_of_isShutDown hasks hs]
      | false =>
        obtain ⟨hbuilds, hawaited, -⟩ := after_asksBuild hasks hs
        refine ⟨hbuilds ▸ Nat.le_succ_of_le h.asked, ?_⟩
        rw [hawaited, ne_eq, Option.some.injEq]
        exact Nat.ne_of_gt (Nat.lt_succ_of_le h.asked)

theorem IsOutdated.foldl (h : s.IsOutdated number) (events : List Event) :
    (events.foldl Session.after s).IsOutdated number := by
  induction events generalizing s with
  | nil => exact h
  | cons e events ih => exact ih (h.after e)

/-- The result of the latest build stops counting when another is asked for or the session
ends. -/
theorem isOutdated_after (hlive : s.isShutDown = false) (hasked : number ≤ s.builds) {e : Event}
    (h : e.asksBuild = true ∨ e = .shutDown) : (s.after e).IsOutdated number := by
  obtain hasks | rfl := h
  · obtain ⟨hbuilds, hawaited, -⟩ := after_asksBuild hasks hlive
    refine ⟨hbuilds ▸ Nat.le_succ_of_le hasked, ?_⟩
    rw [hawaited, ne_eq, Option.some.injEq]
    exact Nat.ne_of_gt (Nat.lt_succ_of_le hasked)
  · change s.shutDown.IsOutdated number
    rw [shutDown_eq hlive]
    exact ⟨hasked, nofun⟩

/-- A build that counts goes on to count exactly as long as no other is asked for and the session
goes on. -/
theorem awaitedBuild?_foldl (hlive : s.isShutDown = false) (hasked : number ≤ s.builds)
    (hcounts : s.awaitedBuild? = some number) (later : List Event) :
    (later.foldl Session.after s).awaitedBuild? = some number ↔
      ∀ e ∈ later, e.asksBuild = false ∧ e ≠ .shutDown := by
  induction later generalizing s with
  | nil => simp [hcounts]
  | cons e later ih =>
    rw [List.forall_mem_cons, List.foldl_cons]
    by_cases he : e.asksBuild = false ∧ e ≠ .shutDown
    · have hkept := BuildsKept.after s he.1 he.2
      rw [ih (hkept.isShutDown.trans hlive) (hkept.builds ▸ hasked)
        (hkept.awaitedBuild?.trans hcounts)]
      exact (and_iff_right he).symm
    · have hends : e.asksBuild = true ∨ e = .shutDown := by
        rwa [not_and_or, Bool.not_eq_false, not_not] at he
      have houtdated := (isOutdated_after hlive hasked hends).foldl later
      exact ⟨fun h => absurd h houtdated.discounted, fun h => absurd h.1 he⟩

-- ---------------------------------------------------------------------------
-- What a build replaces
-- ---------------------------------------------------------------------------

/-- What a build has found has replaced the build diagnostics of all files. The editor was told of
the files whose diagnostics have changed by that and of no others, one after the other in
ascending order. -/
structure Rebuilt (s s' : Session) (found : Table FileUri (List Diagnostic)) : Prop where
  build : ∀ uri, (s'.known uri).build = attributed .build ((found.get? uri).getD [])
  typeInference : ∀ uri, (s'.known uri).typeInference = (s.known uri).typeInference
  lint : ∀ uri, (s'.known uri).lint = (s.known uri).lint
  told : ∃ uris, FileUri.Ascending uris ∧
    (∀ uri, uri ∈ uris ↔ s'.diagnosticsOf uri ≠ s.diagnosticsOf uri) ∧
    publications s'.history =
      publications s.history ++ uris.map fun uri => (uri, s'.diagnosticsOf uri)

theorem publications_change (s : Session) (uri : FileUri) :
    publications (s.change uri).history = publications s.history := by
  unfold change
  split <;> rfl

theorem publications_send (s : Session) (uri : FileUri) :
    publications (s.send uri).history =
      publications s.history ++ [(uri, s.diagnosticsOf uri)] := by
  unfold send
  split
  · rw [publications_change]
    rfl
  · rfl

theorem publications_foldl_send (uris : List FileUri) (s : Session) :
    publications (uris.foldl send s).history =
      publications s.history ++ uris.map fun uri => (uri, s.diagnosticsOf uri) := by
  induction uris generalizing s with
  | nil => simp
  | cons uri uris ih =>
    have hsame : ∀ other, (s.send uri).diagnosticsOf other = s.diagnosticsOf other :=
      fun other => congrArg FileDiagnostics.merged (known_send ..)
    rw [List.foldl_cons, ih, publications_send]
    simp [hsame]

/-- The files whose list changes are told of in ascending order. -/
theorem publications_replace (s : Session) (kind : DiagnosticKind)
    (list : FileUri → List Diagnostic) (uris : List FileUri) :
    ∃ changed, FileUri.Ascending changed ∧
      (∀ uri, uri ∈ changed ↔ uri ∈ uris ∧ (s.known uri).changes kind (list uri) = true) ∧
      publications (s.replace kind list uris).history = publications s.history ++
        changed.map fun uri => (uri, (s.replace kind list uris).diagnosticsOf uri) := by
  let changed := (FileUri.sort uris.eraseDups).filter fun uri =>
    (s.known uri).changes kind (list uri)
  have hascending : FileUri.Ascending changed :=
    (FileUri.ascending_sort (nodup_eraseDups uris)).sublist List.filter_sublist
  have hnodup : changed.Nodup := by
    refine List.Pairwise.imp ?_ hascending
    rintro a _ hab rfl
    exact lt_irrefl a.text hab
  let stored := changed.foldl (fun s uri => s.store uri kind (list uri)) s
  have hhistory : stored.history = s.history := (foldl_store kind list changed hnodup s).2.1
  have hdiagnostics : (changed.foldl send stored).diagnostics = stored.diagnostics :=
    (foldl_send changed hnodup stored).1
  refine ⟨changed, hascending, ?_, ?_⟩
  · intro uri
    simp [changed, FileUri.sort]
  · change publications (changed.foldl send stored).history = _ ++
      changed.map fun uri => (uri, (changed.foldl send stored).diagnosticsOf uri)
    simp only [publications_foldl_send, hhistory, diagnosticsOf, known, hdiagnostics]

/-- What a build has found becomes the build diagnostics of every file, named or not. -/
theorem rebuilt_applyBuild (s : Session) (found : Table FileUri (List Diagnostic)) :
    Rebuilt s (s.applyBuild found) found := by
  have hr := restated_applyBuild s found
  have hknown := fun uri => congrFun hr.known uri
  obtain ⟨changed, hascending, hchanged, hpublications⟩ := publications_replace s .build
    (fun uri => attributed .build ((found.get? uri).getD [])) (found.keys ++ s.diagnostics.keys)
  refine ⟨fun uri => by rw [hknown]; rfl, fun uri => by rw [hknown]; rfl,
    fun uri => by rw [hknown]; rfl, changed, hascending, fun uri => ?_, hpublications⟩
  rw [hchanged, FileDiagnostics.changes_iff, diagnosticsOf, hknown, diagnosticsOf,
    and_iff_right_iff_imp]
  intro hne
  by_contra hout
  -- neither the build nor what is stored names the file, so nothing changes for it
  simp only [List.mem_append, not_or] at hout
  rw [known_of_not_mem_keys hout.2, Table.get?_of_notMem_keys hout.1] at hne
  exact hne rfl

/-- A build that opening or saving a file has asked for replaces the build diagnostics of all files
when it answers, if no file was opened or saved since, the session goes on, and the build neither
fails nor cancels itself. In all other cases its answer changes nothing. -/
theorem rebuilt_of_latest (s : Session) (hlive : s.isShutDown = false) (e : Event)
    (hasks : e.asksBuild = true) (later : List Event) (answer : BuildAnswer) :
    let number := s.builds + 1
    let before := later.foldl Session.after (s.after e)
    let now := before.after (.buildAnswered number answer)
    (∃ uri, (e = .openDocument uri ∨ e = .saveDocument uri) ∧
      (s.now, .buildAsked number uri) ∈ (s.after e).history) ∧
    (∀ found, answer = ⟨false, .ok found⟩ →
      (∀ e' ∈ later, e'.asksBuild = false ∧ e' ≠ .shutDown) → Rebuilt before now found) ∧
    ((∃ e' ∈ later, e'.asksBuild = true ∨ e' = .shutDown) ∨ answer.isCancelling = true ∨
      (∃ error, answer.result = .error error) → now = before) := by
  intro number before now
  obtain ⟨hbuilds, hawaited, hlive', hasked⟩ := after_asksBuild hasks hlive
  have hcounts : before.awaitedBuild? = some number ↔
      ∀ e' ∈ later, e'.asksBuild = false ∧ e' ≠ .shutDown :=
    awaitedBuild?_foldl hlive' (Nat.le_of_eq hbuilds.symm) hawaited later
  have hnow : now = (before.countedBuild? (.buildAnswered number answer)).elim before
      before.applyBuild := buildAnswered_eq ..
  refine ⟨hasked, ?_, ?_⟩
  · rintro found rfl hlatest
    have hfound : before.countedBuild? (.buildAnswered number ⟨false, .ok found⟩) = some found := by
      simp [countedBuild?, hcounts.mpr hlatest, Except.toOption]
    rw [hnow, hfound]
    exact rebuilt_applyBuild before found
  · intro hvoid
    have hnone : before.countedBuild? (.buildAnswered number answer) = none := by
      obtain ⟨e', he', hends⟩ | hcancelling | ⟨error, herror⟩ := hvoid
      · have houtdated : before.awaitedBuild? ≠ some number := by
          rw [ne_eq, hcounts]
          intro hlatest
          obtain ⟨hasks', hlive'⟩ := hlatest e' he'
          obtain hasks | rfl := hends
          · rw [hasks'] at hasks
            cases hasks
          · exact hlive' rfl
        simp [countedBuild?, houtdated]
      · simp [countedBuild?, hcancelling]
      · simp [countedBuild?, herror, Except.toOption]
    rw [hnow, hnone]
    rfl

/-- A build complains of one file, and the build that is asked for next of another. Meanwhile the
first answers once more, in vain, and a file is deleted. -/
theorem rebuilt_of_latest_overtaken :
    let complaint := Diagnostic.warning "naming_error" "unknown name" ⟨⟨0, 0⟩, ⟨0, 1⟩⟩
    let s := [.saveDocument ⟨"file:///A.elm"⟩,
      .buildAnswered 1 ⟨false, .ok ⟨[(⟨"file:///B.elm"⟩, [complaint])]⟩⟩].foldl Session.after
        (.initial [] .standard)
    let before := [.openDocument ⟨"file:///A.elm"⟩, .buildAnswered 1 ⟨false, .ok .empty⟩,
      .deleteDocument ⟨"file:///C.elm"⟩].foldl Session.after s
    let now := before.after (.buildAnswered 2 ⟨false, .ok ⟨[(⟨"file:///A.elm"⟩, [complaint])]⟩⟩)
    before.diagnosticsOf ⟨"file:///B.elm"⟩ = [{ complaint with kind := .build }] ∧
    Rebuilt before now ⟨[(⟨"file:///A.elm"⟩, [complaint])]⟩ ∧
    (now.known ⟨"file:///B.elm"⟩).build = [] ∧
    (now.known ⟨"file:///A.elm"⟩).build = [{ complaint with kind := .build }] := by
  intro complaint s before now
  have hnumber : s.builds = 1 := by decide +kernel
  have hlater : ∀ e ∈ [Event.buildAnswered 1 ⟨false, .ok .empty⟩,
      .deleteDocument ⟨"file:///C.elm"⟩], e.asksBuild = false ∧ e ≠ .shutDown := by
    simp [Event.asksBuild]
  have h := (rebuilt_of_latest s (by decide +kernel) (.openDocument ⟨"file:///A.elm"⟩) rfl _
    ⟨false, .ok ⟨[(⟨"file:///A.elm"⟩, [complaint])]⟩⟩).2.1 _ rfl hlater
  rw [hnumber] at h
  have hrebuilt : Rebuilt before now ⟨[(⟨"file:///A.elm"⟩, [complaint])]⟩ := h
  refine ⟨by decide +kernel, hrebuilt, ?_, ?_⟩
  · rw [hrebuilt.build]
    rfl
  · rw [hrebuilt.build]
    rfl

end Session

end ElmLint

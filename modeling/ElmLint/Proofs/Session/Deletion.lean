import ElmLint.Proofs.Session.Display
import ElmLint.Proofs.Session.Freshness

/-!
# Files that were deleted

Runs and settings say nothing of a file that has left the project, but a build is not asked whether
the files that it names are there. So what is stored of a file from its deletion on is what the
builds that count have left of it, and nothing else.
-/

namespace ElmLint

theorem Workspace.document?_remove_self (w : Workspace) (uri : FileUri) :
    (w.remove uri).document? uri = none := by
  unfold remove
  split
  · rw [document?, resolveAll, Table.get?_mapValues, Table.get?_erase, if_pos rfl]
    rfl
  · rename_i h
    simpa [Table.has, document?] using h

namespace Session

open History (told)

variable {s s' : Session} {uri : FileUri} {left : List Diagnostic} {w : Workspace}

/-- What is left of the build's complaints on a file after an event. -/
def buildLeft (s : Session) (uri : FileUri) (left : List Diagnostic) : Event → List Diagnostic
  | .deleteDocument other => if other = uri then [] else left
  | .shutDown => if s.isShutDown then left else []
  | e => (s.countedBuild? e).elim left fun found => (found.get? uri).getD []

/-- The file has left the project, and builds have left these complaints on it. -/
structure IsGone (s : Session) (uri : FileUri) (left : List Diagnostic) : Prop where
  missing : s.workspace.document? uri = none
  known : s.known uri = ⟨attributed .build left, [], []⟩

/-- What is stored and shown of a file is as before. -/
structure FileKept (uri : FileUri) (s s' : Session) : Prop where
  known : s'.known uri = s.known uri
  told : told uri s'.history = told uri s.history

theorem Restated.fileKept {now : FileUri → FileDiagnostics} (h : Restated s s' now)
    (hnow : now uri = s.known uri) : FileKept uri s s' where
  known := by rw [h.known, hnow]
  told := by rw [h.told, hnow, if_pos rfl]

namespace IsGone

/-- Runs and settings pass over a file that is gone. -/
theorem fileKept (hw : w.document? uri = none)
    (hknown : s.known uri = ⟨attributed .build left, [], []⟩) (hr : Restates w s s') :
    FileKept uri s s' := by
  cases hr with
  | nothing h => exact h.restated.fileKept rfl
  | @published other d hd _ _ h =>
    refine h.fileKept (Function.update_of_ne ?_ ..)
    rintro rfl
    rw [hw] at hd
    cases hd
  | unlinted h =>
    refine h.fileKept ?_
    rw [hknown]
    rfl

theorem fileKept_restatements (hw : w.document? uri = none)
    (hknown : s.known uri = ⟨attributed .build left, [], []⟩) (hr : Restatements w s s') :
    FileKept uri s s' := by
  induction hr with
  | refl => exact ⟨rfl, rfl⟩
  | tail _ hr ih =>
    have hkept := fileKept hw (ih.known.trans hknown) hr
    exact ⟨hkept.known.trans ih.known, hkept.told.trans ih.told⟩

/-- A file that is gone comes back only with a text. -/
theorem missing_affected (hmissing : s.workspace.document? uri = none) {e : Event}
    (hset : ∀ text writable, e ≠ .setFile uri text writable) :
    (s.affected e).workspace.document? uri = none := by
  have hnone : ∀ {d? : Option Document}, (∀ d, d? = some d → False) → d? = none := by
    intro d? h
    cases d? with
    | none => rfl
    | some d => exact (h d rfl).elim
  cases e with
  | setFile other text writable =>
    refine hnone fun d hd => ?_
    have hne : uri ≠ other := by
      rintro rfl
      exact hset text writable rfl
    obtain ⟨d', hd', -⟩ := Workspace.document?_setFile hd hne
    rw [hmissing] at hd'
    cases hd'
  | removeFile other =>
    refine hnone fun d hd => ?_
    obtain ⟨d', hd', -⟩ := Workspace.document?_remove hd
    rw [hmissing] at hd'
    cases hd'
  | showFile other => exact (Workspace.document?_open_ ..).trans hmissing
  | beginInterruption =>
    change s.beginInterruption.workspace.document? uri = none
    unfold beginInterruption
    split
    · split <;> exact hmissing
    · exact hmissing
  | shutDown =>
    change s.shutDown.workspace.document? uri = none
    unfold shutDown
    split <;> exact hmissing
  | _ => exact hmissing

theorem missing_after (hc : s.Coherent) (hmissing : s.workspace.document? uri = none) {e : Event}
    (hset : ∀ text writable, e ≠ .setFile uri text writable) :
    (s.after e).workspace.document? uri = none := by
  rw [((hc.affected e).outsideKept_moves (s.moves_after e)).workspace]
  exact missing_affected hmissing hset

/-- The end of a session clears every file and tells nothing. -/
theorem shutDown (h : s.IsGone uri left) :
    s.shutDown.known uri = ⟨attributed .build (s.buildLeft uri left .shutDown), [], []⟩ ∧
      told uri s.shutDown.history = told uri s.history := by
  unfold Session.shutDown buildLeft
  split
  · exact ⟨h.known, rfl⟩
  · exact ⟨rfl, rfl⟩

/-- Of a file that is gone, an event shows what builds leave of it or nothing. -/
theorem after (h : s.IsGone uri left) (hc : s.Coherent) {e : Event}
    (hset : ∀ text writable, e ≠ .setFile uri text writable) :
    (s.after e).IsGone uri (s.buildLeft uri left e) ∧
      (told uri (s.after e).history = told uri s.history ∨
        told uri (s.after e).history =
          attributed .build (s.buildLeft uri left e) :: told uri s.history) := by
  suffices hview : (s.after e).known uri = ⟨attributed .build (s.buildLeft uri left e), [], []⟩ ∧
      (told uri (s.after e).history = told uri s.history ∨
        told uri (s.after e).history =
          attributed .build (s.buildLeft uri left e) :: told uri s.history) from
    ⟨⟨missing_after hc h.missing hset, hview.1⟩, hview.2⟩
  have hrestated : ∀ {now left'}, Restated s (s.after e) now →
      now uri = ⟨attributed .build left', [], []⟩ →
      (s.after e).known uri = ⟨attributed .build left', [], []⟩ ∧
        (told uri (s.after e).history = told uri s.history ∨
          told uri (s.after e).history = attributed .build left' :: told uri s.history) := by
    intro now left' hr hnow
    refine ⟨by rw [hr.known, hnow], ?_⟩
    rw [hr.told, hnow]
    split
    · exact .inl rfl
    · exact .inr (by simp [FileDiagnostics.merged_eq])
  by_cases hend : e = .shutDown
  · subst hend
    exact ⟨h.shutDown.1, .inl h.shutDown.2⟩
  obtain ⟨found, hcounted, hr⟩ | ⟨other, rfl, hr⟩ | ⟨hnone, hdelete, hr⟩ := s.restated_after hend
  · have hleft : s.buildLeft uri left e = (found.get? uri).getD [] := by
      cases e with
      | buildAnswered => simp [buildLeft, hcounted]
      | _ => cases hcounted
    rw [hleft]
    refine hrestated hr ?_
    rw [h.known]
    rfl
  · refine hrestated hr ?_
    by_cases ho : other = uri
    · subst ho
      simp [buildLeft, attributed, FileDiagnostics.empty]
    · rw [Function.update_of_ne (Ne.symm ho), h.known, buildLeft, if_neg ho]
  · have hleft : s.buildLeft uri left e = left := by
      cases e with
      | deleteDocument other => exact absurd rfl (hdelete other)
      | shutDown => exact absurd rfl hend
      | buildAnswered => simp [buildLeft, hnone]
      | _ => rfl
    have hkept := fileKept_restatements (missing_affected h.missing hset) h.known hr
    rw [hleft]
    exact ⟨hkept.known.trans h.known, .inl hkept.told⟩

end IsGone

end Session

namespace Moment

open History (told)

/-- What is left of the build's complaints on a file after some events. -/
def buildLeft (m : Moment) (uri : FileUri) (left : List Diagnostic) : List Event → List Diagnostic
  | [] => left
  | e :: events => (m.next e).buildLeft uri (m.session.buildLeft uri left e) events

/-- The file has left the project, and the editor has announced that. -/
def afterDeletion (m : Moment) (uri : FileUri) : Moment :=
  (m.next (.removeFile uri)).next (.deleteDocument uri)

variable {m : Moment} {uri : FileUri} {left : List Diagnostic}

theorem isGone_afterDeletion (m : Moment) (uri : FileUri) :
    (m.afterDeletion uri).session.IsGone uri [] := by
  have hr := Session.restated_delete (m.next (.removeFile uri)).session uri
  refine ⟨?_, ?_⟩
  · change (Session.delete _ uri).workspace.document? uri = none
    unfold Session.delete
    split
    · exact m.session.workspace.document?_remove_self uri
    · rw [(Session.undisturbed_send _ _).workspace]
      exact m.session.workspace.document?_remove_self uri
  · change (Session.delete _ uri).known uri = _
    rw [hr.known, Function.update_self]
    rfl

/-- Builds that find nothing in a file leave nothing of it. -/
theorem buildLeft_eq_nil (events : List Event)
    (h : ∀ before e, before ++ [e] <+: events → ∀ found,
      (before.foldl next m).session.countedBuild? e = some found → (found.get? uri).getD [] = []) :
    m.buildLeft uri [] events = [] := by
  induction events generalizing m with
  | nil => rfl
  | cons e events ih =>
    have hleft : m.session.buildLeft uri [] e = [] := by
      cases e with
      | buildAnswered number answer =>
        cases hcounted : m.session.countedBuild? (.buildAnswered number answer) with
        | none => simp [Session.buildLeft, hcounted]
        | some found =>
          have hnone := h [] _ (List.cons_prefix_cons.mpr ⟨rfl, List.nil_prefix⟩) found hcounted
          simp [Session.buildLeft, hcounted, hnone]
      | _ => simp [Session.buildLeft, Session.countedBuild?]
    rw [buildLeft, hleft]
    refine ih fun before e' hbefore => ?_
    exact h (e :: before) e' (List.cons_prefix_cons.mpr ⟨rfl, hbefore⟩)

theorem isGone_foldl (hc : m.session.Coherent) (h : m.session.IsGone uri left)
    (events : List Event) (hset : ∀ text writable, .setFile uri text writable ∉ events) :
    (events.foldl next m).session.IsGone uri (m.buildLeft uri left events) ∧
    ∃ news, told uri (events.foldl next m).session.history = news ++ told uri m.session.history ∧
      ∀ list ∈ news, ∃ before, before <+: events ∧
        list = Session.attributed .build (m.buildLeft uri left before) := by
  induction events generalizing m left with
  | nil => exact ⟨h, [], rfl, nofun⟩
  | cons e events ih =>
    obtain ⟨hnext, htold⟩ := h.after hc fun text writable he =>
      hset text writable (he ▸ List.mem_cons_self)
    obtain ⟨hlater, news, hnews, hlists⟩ := ih (m := m.next e) (hc.after e) hnext
      fun text writable he => hset text writable (List.mem_cons_of_mem _ he)
    have hearlier : ∀ list ∈ news, ∃ before, before <+: e :: events ∧
        list = Session.attributed .build (m.buildLeft uri left before) := by
      intro list hl
      obtain ⟨before, hbefore, rfl⟩ := hlists list hl
      exact ⟨e :: before, List.cons_prefix_cons.mpr ⟨rfl, hbefore⟩, rfl⟩
    refine ⟨hlater, ?_⟩
    obtain htold | htold := htold
    · exact ⟨news, by rw [List.foldl_cons, hnews]; exact congrArg _ htold, hearlier⟩
    · refine ⟨news ++ [Session.attributed .build (m.session.buildLeft uri left e)], ?_, ?_⟩
      · rw [List.foldl_cons, hnews, List.append_assoc]
        exact congrArg _ htold
      · intro list hl
        obtain hl | hl := List.mem_append.mp hl
        · exact hearlier list hl
        · rw [List.mem_singleton.mp hl]
          exact ⟨[e], List.cons_prefix_cons.mpr ⟨rfl, List.nil_prefix⟩, rfl⟩

end Moment

namespace Reachable

open History (told)

variable {sourceDirs : List FileUri} {settings : Settings} {sort : Event → Bool} {m : Moment}

/-- From its deletion on, and until it comes back into the project, there is nothing of a file but
what builds that count find in it: they alone decide what is stored and shown, whatever was under
way when it was deleted, and a file that no such build names stays clear. -/
theorem stored_of_afterDeletion (h : Reachable sourceDirs settings sort m) (uri : FileUri)
    (events : List Event) (hset : ∀ text writable, .setFile uri text writable ∉ events) :
    let gone := m.afterDeletion uri
    let later := (events.foldl Moment.next gone).session
    later.workspace.document? uri = none ∧
    later.diagnosticsOf uri = Session.attributed .build (gone.buildLeft uri [] events) ∧
    (later.known uri).typeInference = [] ∧ (later.known uri).lint = [] ∧
    (∃ news, told uri later.history = news ++ told uri gone.session.history ∧
      ∀ list ∈ news, ∃ before, before <+: events ∧
        list = Session.attributed .build (gone.buildLeft uri [] before)) ∧
    ((∀ before e, before ++ [e] <+: events → ∀ found,
        (before.foldl Moment.next gone).session.countedBuild? e = some found →
        (found.get? uri).getD [] = []) →
      later.diagnosticsOf uri = [] ∧ ∃ news,
        told uri later.history = news ++ told uri gone.session.history ∧
          ∀ list ∈ news, list = []) := by
  intro gone later
  have hc : gone.session.Coherent :=
    (h.coherent.after (.removeFile uri)).after (.deleteDocument uri)
  obtain ⟨hgone, news, hnews, hlists⟩ :=
    Moment.isGone_foldl hc (Moment.isGone_afterDeletion m uri) events hset
  have hshown : later.diagnosticsOf uri =
      Session.attributed .build (gone.buildLeft uri [] events) := by
    simp [Session.diagnosticsOf, hgone.known, FileDiagnostics.merged_eq, later, gone]
  refine ⟨hgone.missing, hshown, by rw [hgone.known], by rw [hgone.known],
    ⟨news, hnews, hlists⟩, fun hnone => ?_⟩
  have hclear : ∀ before, before <+: events → gone.buildLeft uri [] before = [] := by
    intro before hbefore
    exact Moment.buildLeft_eq_nil before fun earlier e he => hnone earlier e (he.trans hbefore)
  refine ⟨by rw [hshown, hclear events (List.prefix_refl _)]; rfl, news, hnews, ?_⟩
  intro list hl
  obtain ⟨before, hbefore, rfl⟩ := hlists list hl
  rw [hclear before hbefore]
  rfl

/-- A build is asked for when a file is opened, and answers after the file was deleted. -/
theorem stored_of_afterDeletion_lateBuild :
    let uri : FileUri := ⟨"file:///Main.elm"⟩
    let complaint := Diagnostic.warning "naming_error" "unknown name" ⟨⟨0, 0⟩, ⟨0, 1⟩⟩
    let m := [Event.setFile uri "module Main exposing (f)\n\nf =\n    1\n" true,
      .openDocument uri].foldl Moment.next (.initial [] .standard)
    let later := (m.afterDeletion uri).next (.buildAnswered 1 ⟨false, .ok ⟨[(uri, [complaint])]⟩⟩)
    later.session.workspace.document? uri = none ∧
      later.session.diagnosticsOf uri = [{ complaint with kind := .build }] := by
  intro uri complaint m later
  have hreach : Reachable [] .standard (fun _ => true) m :=
    Reachable.initial.foldl _ (by decide +kernel) (by decide +kernel)
  have hstored := stored_of_afterDeletion hreach uri
    [.buildAnswered 1 ⟨false, .ok ⟨[(uri, [complaint])]⟩⟩] (by simp)
  refine ⟨hstored.1, hstored.2.1.trans ?_⟩
  decide +kernel

end Reachable

end ElmLint

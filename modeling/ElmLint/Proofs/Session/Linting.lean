import Mathlib.Data.List.Infix
import ElmLint.Proofs.Session.Display
import ElmLint.Proofs.Session.Freshness

/-!
# Lint diagnostics follow the settings

New settings are seen at once: `known_configure` says what they make of every file. Any other event
leaves the lint diagnostics of a file alone, clears them, or replaces them by what linting gives
under the settings in force (`lint_after`). So nothing is stored that the settings forbid, except
perhaps for files that cannot be edited, which new settings do not look at.
-/

namespace ElmLint

/-- No check that is turned off reports anything. -/
theorem code_ne_of_mem_lint {w : Workspace} {d : Document} {disabled : List LintCode}
    {issue : Diagnostic} (h : issue ∈ w.lint d disabled) {code : LintCode} (hc : code ∈ disabled) :
    issue.code ≠ code.name := by
  obtain ⟨finding, hfinding, hissue⟩ := List.mem_filterMap.mp h
  obtain ⟨-, hon⟩ := List.mem_filter.mp hfinding
  rw [(Lint.toDiagnostic?_eq_some hissue).1]
  intro hname
  rw [LintCode.name_injective hname] at hon
  simp [hc] at hon

/-- The file belongs to the project, and it can be edited. -/
def Workspace.isWritable (w : Workspace) (uri : FileUri) : Bool :=
  (w.document? uri).any (·.writable)

theorem Workspace.mem_writableFiles {w : Workspace} {uri : FileUri}
    (h : w.isWritable uri = true) : uri ∈ w.writableFiles := by
  obtain ⟨d, hd, hwritable⟩ := (Option.any_eq_true _ _).mp h
  obtain ⟨entry, hentry, rfl⟩ := Option.map_eq_some_iff.mp hd
  have huri : entry.1 = uri := by simpa using List.find?_some hentry
  rw [writableFiles, FileUri.sort, List.mem_mergeSort, List.mem_map]
  exact ⟨entry, List.mem_filter.mpr ⟨List.mem_of_find?_eq_some hentry, hwritable⟩, huri⟩

/-- The settings lint, and not in the same way as the old ones. -/
def Settings.relintsAfter (new old : Settings) : Bool :=
  new.lintEnabled && (!old.lintEnabled || old.disabledLints != new.disabledLints)

namespace Session

variable {s s' t : Session} {uri other : FileUri} {d : Document} {w : Workspace}

-- ---------------------------------------------------------------------------
-- New settings
-- ---------------------------------------------------------------------------

/-- The lint diagnostics that new settings leave of a file that had those in `left`. -/
def lintUnder (s : Session) (new : Settings) (uri : FileUri) (left : List Diagnostic) :
    List Diagnostic :=
  if s.settings.lintEnabled && !new.lintEnabled then []
  else if new.relintsAfter s.settings && s.workspace.writableFiles.contains uri then
    (s.workspace.document? uri).elim left { s with settings := new }.lint
  else left

theorem restated_relint (s : Session) : Restated s s.relint fun uri =>
    if s.workspace.writableFiles.contains uri then
      { s.known uri with lint := (s.workspace.document? uri).elim (s.known uri).lint s.lint }
    else s.known uri := by
  unfold relint
  generalize s.workspace.writableFiles = uris
  induction uris generalizing s with
  | nil => exact (Quiet.refl s).restated
  | cons first uris ih =>
    rw [List.foldl_cons]
    cases hfirst : s.workspace.document? first with
    | none =>
      convert ih s using 2 with uri
      by_cases he : uri = first
      · subst he
        simp [hfirst]
      · simp [he]
    | some d =>
      have hu := undisturbed_publish s first .lint (s.lint d)
      have hlint : (s.publish first .lint (s.lint d)).lint = s.lint := funext hu.lint
      have hpublished := restated_publish hfirst .lint (s.lint d)
      have hrest := ih (s.publish first .lint (s.lint d))
      simp only [hu.workspace, hlint, hpublished.known] at hrest
      have hset : (s.known first).set .lint (attributed .lint (s.lint d)) =
          { s.known first with lint := s.lint d } := by
        rw [attributed_lint]
        rfl
      rw [hset] at hpublished hrest
      convert hpublished.trans hrest ?_ using 2 with uri
      · by_cases he : uri = first
        · subst he
          simp [hfirst]
        · simp [he]
      · intro uri
        by_cases he : uri = first
        · -- linting the file once more makes no difference
          subst he
          simp [hfirst]
        · exact .inl (Function.update_of_ne he ..)

/-- New settings leave build and types alone, and set the lint diagnostics of every file at once. -/
theorem restated_configure (s : Session) (new : Settings) :
    Restated s (s.configure new) fun uri =>
      { s.known uri with lint := s.lintUnder new uri (s.known uri).lint } := by
  have hset : Quiet s { s with settings := new } := ⟨rfl, fun _ => rfl⟩
  unfold configure lintUnder Settings.relintsAfter
  dsimp only
  by_cases hoff : (s.settings.lintEnabled && !new.lintEnabled) = true
  · simp only [if_pos hoff]
    refine hset.restated.trans ((restated_replace ..).of_all fun uri hu => ?_) fun _ => .inl rfl
    exact ⟨known_of_not_mem_keys hu, rfl⟩
  · simp only [if_neg hoff]
    split
    · rename_i hre
      simp only [hre, Bool.true_and]
      convert hset.restated.trans (restated_relint _) fun _ => .inl rfl using 2 with uri
      dsimp only [known]
      split <;> rfl
    · rename_i hre
      rw [Bool.not_eq_true] at hre
      simpa [hre] using hset.restated

theorem known_configure (s : Session) (new : Settings) (uri : FileUri) :
    (s.configure new).known uri =
      { s.known uri with lint := s.lintUnder new uri (s.known uri).lint } :=
  congrFun (s.restated_configure new).known uri

-- ---------------------------------------------------------------------------
-- All other events
-- ---------------------------------------------------------------------------

/-- The only move that changes what is stored is to store a list. -/
theorem diagnostics_move (hm : Move awake s s') : s'.diagnostics = s.diagnostics ∨
    ∃ uri kind list, s.IsStorable uri kind list ∧ s' = s.store uri kind list := by
  cases hm with
  | store h => exact .inr ⟨_, _, _, h, rfl⟩
  | change _ uri => exact .inl (diagnostics_change s uri)
  | drain => exact .inl (quiet_drain s).diagnostics
  | request => exact .inl (quiet_startRun ..).diagnostics
  | _ => exact .inl rfl

theorem lint_moves (hc : s.Coherent) (hd : s.workspace.document? uri = some d)
    (hm : Moves awake s t) :
    (t.known uri).lint = (s.known uri).lint ∨ (t.known uri).lint = t.lint d := by
  induction hm with
  | refl => exact .inl rfl
  | @tail u t hm' hm ih =>
    have hkept := hc.outsideKept_moves hm'
    have hlint := ((hc.moves hm').outsideKept_move hm).lint d
    obtain hsame | ⟨uri', kind, list, hstorable, rfl⟩ := diagnostics_move hm
    · rw [hlint, show t.known uri = u.known uri by rw [known, hsame]; rfl]
      exact ih
    · rw [known_store, hlint]
      split
      · rename_i huri
        subst huri
        cases kind with
        | lint =>
          right
          change list = _
          rw [hstorable rfl d (hkept.workspace ▸ hd), attributed_lint]
        | build | typeInference => exact ih
      · exact ih

theorem lint_affected (s : Session) (e : Event) (uri : FileUri) :
    ((s.affected e).known uri).lint = (s.known uri).lint ∨
      ((s.affected e).known uri).lint = [] := by
  cases e with
  | deleteDocument other =>
    change ((s.forget other).known uri).lint = _ ∨ ((s.forget other).known uri).lint = _
    rw [known, forget, Table.get?_erase]
    split
    · exact .inr rfl
    · exact .inl rfl
  | beginInterruption =>
    left
    change (s.beginInterruption.known uri).lint = _
    unfold beginInterruption
    split
    · split <;> rfl
    · rfl
  | shutDown =>
    change (s.shutDown.known uri).lint = _ ∨ (s.shutDown.known uri).lint = _
    unfold shutDown
    split
    · exact .inl rfl
    · exact .inr rfl
  | _ => exact .inl rfl

/-- A file that is not in the project is not linted. -/
theorem lint_restatements (hw : w.document? uri = none) (hr : Restatements w s t) :
    (t.known uri).lint = (s.known uri).lint ∨ (t.known uri).lint = [] := by
  induction hr with
  | refl => exact .inl rfl
  | @tail u t _ hr ih =>
    cases hr with
    | nothing h =>
      rw [h.known]
      exact ih
    | @published other d hd kind found h =>
      have hne : uri ≠ other := by
        rintro rfl
        rw [hw] at hd
        cases hd
      rw [h.known, Function.update_of_ne hne]
      exact ih
    | unlinted h =>
      rw [h.known]
      exact .inr rfl

/-- An event leaves the lint diagnostics of a file alone, clears them, or sets them to what linting
gives under the settings. -/
theorem lint_after (hc : s.Coherent) (e : Event) (uri : FileUri) :
    ((s.after e).known uri).lint = (s.known uri).lint ∨ ((s.after e).known uri).lint = [] ∨
      ∃ d, ((s.after e).known uri).lint = (s.after e).lint d := by
  cases hd : (s.affected e).workspace.document? uri with
  | some d =>
    obtain hsame | hlinted := lint_moves (hc.affected e) hd (s.moves_after e)
    · rw [hsame]
      exact (lint_affected s e uri).imp_right .inl
    · exact .inr (.inr ⟨d, hlinted⟩)
  | none =>
    by_cases hend : e = .shutDown
    · subst hend
      exact (lint_affected s .shutDown uri).imp_right .inl
    obtain ⟨found, -, hr⟩ | ⟨other, -, hr⟩ | ⟨-, -, hr⟩ := s.restated_after hend
    · rw [hr.known]
      exact .inl rfl
    · rw [hr.known, Function.update_apply]
      split
      · exact .inr (.inl rfl)
      · exact .inl rfl
    · exact (lint_restatements hd hr).imp_right .inl

theorem settings_after (hc : s.Coherent) (e : Event) :
    (s.after e).settings = (s.affected e).settings :=
  ((hc.affected e).outsideKept_moves (s.moves_after e)).settings

theorem settings_affected (s : Session) {e : Event} (hkeeps : e.keepsSettings = true) :
    (s.affected e).settings = s.settings := by
  cases e with
  | configure => cases hkeeps
  | beginInterruption =>
    change s.beginInterruption.settings = _
    unfold beginInterruption
    split
    · split <;> rfl
    · rfl
  | shutDown =>
    change s.shutDown.settings = _
    unfold shutDown
    split <;> rfl
  | _ => rfl

-- ---------------------------------------------------------------------------
-- What the settings forbid
-- ---------------------------------------------------------------------------

/-- As long as linting is turned off, nothing is stored of it. -/
def UnlintedWhenOff (s : Session) : Prop :=
  s.settings.lintEnabled = false → ∀ uri, (s.known uri).lint = []

/-- No check that is turned off has a diagnostic stored for the file. -/
def Obeys (s : Session) (uri : FileUri) : Prop :=
  ∀ issue ∈ (s.known uri).lint, ∀ code ∈ s.settings.disabledLints, issue.code ≠ code.name

theorem obeys_of_lint_eq_nil (h : (s.known uri).lint = []) : s.Obeys uri := by
  intro issue hissue
  rw [h] at hissue
  cases hissue

theorem obeys_of_lint_eq (h : (s.known uri).lint = s.lint d) : s.Obeys uri := by
  intro issue hissue code hcode
  rw [h, lint] at hissue
  split at hissue
  · exact code_ne_of_mem_lint hissue hcode
  · cases hissue

theorem UnlintedWhenOff.after (h : s.UnlintedWhenOff) (hc : s.Coherent) (e : Event) :
    (s.after e).UnlintedWhenOff := by
  intro hoff uri
  rw [settings_after hc] at hoff
  by_cases hkeeps : e.keepsSettings = true
  · obtain hsame | hnone | ⟨d, hlint⟩ := lint_after hc e uri
    · rw [settings_affected s hkeeps] at hoff
      rw [hsame]
      exact h hoff uri
    · exact hnone
    · rw [hlint, lint, settings_after hc, hoff]
      rfl
  · cases e with
    | configure new =>
      change new.lintEnabled = false at hoff
      change ((s.configure new).known uri).lint = []
      rw [known_configure]
      cases hold : s.settings.lintEnabled with
      | true => simp [lintUnder, hoff, hold]
      | false => simpa [lintUnder, Settings.relintsAfter, hoff, hold] using h hold uri
    | _ => exact absurd rfl hkeeps

/-- New settings are obeyed at once where the file can be edited. -/
theorem Obeys.configure (h : s.Obeys uri) (hoff : s.UnlintedWhenOff) (new : Settings)
    (hwritable : ((s.configure new).known uri).lint ≠ [] → s.workspace.isWritable uri = true)
    (hkept : OutsideKept { s with settings := new } (s.configure new)) :
    (s.configure new).Obeys uri := by
  by_cases hnone : ((s.configure new).known uri).lint = []
  · exact obeys_of_lint_eq_nil hnone
  have hin := Workspace.mem_writableFiles (hwritable hnone)
  obtain ⟨d, hd, -⟩ := (Option.any_eq_true _ _).mp (hwritable hnone)
  have hlint : ((s.configure new).known uri).lint =
      s.lintUnder new uri (s.known uri).lint := by
    rw [known_configure]
  unfold lintUnder at hlint
  split at hlint
  · exact absurd hlint hnone
  · rename_i hturnedOff
    split at hlint
    · -- the file is linted again
      rw [hd, Option.elim_some, ← hkept.lint] at hlint
      exact obeys_of_lint_eq hlint
    · -- the file was linted in the same way before, or not at all
      rename_i hrelints
      have hsame : s.settings.lintEnabled = true → s.settings.disabledLints = new.disabledLints := by
        intro hon
        have hnew : new.lintEnabled = true := by simpa [hon] using hturnedOff
        simpa [Settings.relintsAfter, hin, hon, hnew] using hrelints
      cases hon : s.settings.lintEnabled with
      | true =>
        intro issue hissue code hcode
        rw [hlint] at hissue
        rw [hkept.settings] at hcode
        exact h issue hissue code (hsame hon ▸ hcode)
      | false => exact absurd (hlint.trans (hoff hon uri)) hnone

theorem Obeys.after (h : s.Obeys uri) (hoff : s.UnlintedWhenOff) (hc : s.Coherent) (e : Event)
    (hwritable : ((s.after e).known uri).lint ≠ [] →
      (s.after e).workspace.isWritable uri = true) : (s.after e).Obeys uri := by
  have hkept := (hc.affected e).outsideKept_moves (s.moves_after e)
  by_cases hkeeps : e.keepsSettings = true
  · obtain hsame | hnone | ⟨d, hlint⟩ := lint_after hc e uri
    · intro issue hissue code hcode
      rw [hsame] at hissue
      rw [settings_after hc, settings_affected s hkeeps] at hcode
      exact h issue hissue code hcode
    · exact obeys_of_lint_eq_nil hnone
    · exact obeys_of_lint_eq hlint
  · cases e with
    | configure new =>
      rw [hkept.workspace] at hwritable
      exact h.configure hoff new hwritable hkept
    | _ => exact absurd rfl hkeeps

end Session

namespace Moment

variable {m : Moment} {uri : FileUri}

theorem unlintedWhenOff_foldl (hc : m.session.Coherent) (h : m.session.UnlintedWhenOff)
    (events : List Event) : (events.foldl next m).session.UnlintedWhenOff := by
  induction events generalizing m with
  | nil => exact h
  | cons e events ih => exact ih (hc.after e) (h.after hc e)

theorem obeys_foldl (hc : m.session.Coherent) (hoff : m.session.UnlintedWhenOff)
    (h : m.session.Obeys uri) (events : List Event)
    (hwritable : ∀ before, before <+: events →
      ((before.foldl next m).session.known uri).lint ≠ [] →
        (before.foldl next m).session.workspace.isWritable uri = true) :
    (events.foldl next m).session.Obeys uri := by
  induction events generalizing m with
  | nil => exact h
  | cons e events ih =>
    have hfirst := hwritable [e] (List.cons_prefix_cons.mpr ⟨rfl, List.nil_prefix⟩)
    refine ih (hc.after e) (hoff.after hc e) (h.after hoff hc e hfirst) fun before hbefore => ?_
    exact hwritable (e :: before) (List.cons_prefix_cons.mpr ⟨rfl, hbefore⟩)

/-- In every state that a session comes to, by any order of events: while linting is turned off,
no file has lint diagnostics; a file that could be edited whenever lint diagnostics were stored for
it, as one can that stays in the project and can be edited from its first linting on, has none of a
check that is turned off; and new settings change neither build nor type diagnostics. -/
theorem settings_respected (sourceDirs : List FileUri) (settings : Settings)
    (events : List Event) :
    let m := events.foldl next (.initial sourceDirs settings)
    (m.session.settings.lintEnabled = false → ∀ uri, (m.session.known uri).lint = []) ∧
    (∀ uri,
      (∀ before, before <+: events →
        let earlier := (before.foldl next (.initial sourceDirs settings)).session
        (earlier.known uri).lint ≠ [] → earlier.workspace.isWritable uri = true) →
      ∀ issue ∈ (m.session.known uri).lint, ∀ code ∈ m.session.settings.disabledLints,
        issue.code ≠ code.name) ∧
    (∀ new uri,
      ((m.session.configure new).known uri).build = (m.session.known uri).build ∧
      ((m.session.configure new).known uri).typeInference =
        (m.session.known uri).typeInference) := by
  intro m
  have hc : (initial sourceDirs settings).session.Coherent :=
    Session.coherent_initial sourceDirs settings
  have hoff : (initial sourceDirs settings).session.UnlintedWhenOff := fun _ _ => rfl
  refine ⟨unlintedWhenOff_foldl hc hoff events, fun uri hwritable => ?_, fun new uri => ?_⟩
  · exact obeys_foldl hc hoff (Session.obeys_of_lint_eq_nil rfl) events hwritable
  · rw [Session.known_configure]
    exact ⟨rfl, rfl⟩

/-- A file with two complaints is linted, and then the check behind one of them is turned off. -/
def checkTurnedOff : List Event :=
  [.setFile ⟨"file:///Main.elm"⟩
      "module Main exposing (f)\n\nimport List as L\n\nf =\n    1\n" true,
   .changeDocument ⟨"file:///Main.elm"⟩, .clock 200, .silence, .turn 1,
   .typesAnswered 1 ⟨false, .found []⟩, .turn 1,
   .configure { Settings.standard with disabledLints := [.unusedImport] }]

theorem settings_respected_checkTurnedOff :
    let m := checkTurnedOff.foldl next (.initial [] .standard)
    ((m.session.known ⟨"file:///Main.elm"⟩).lint.map (·.code)) = ["unused_alias"] ∧
    ∀ issue ∈ (m.session.known ⟨"file:///Main.elm"⟩).lint, issue.code ≠ "unused_import" := by
  intro m
  have hwritable : ∀ before ∈ checkTurnedOff.inits,
      (before.foldl next (.initial [] .standard)).session.workspace.isWritable
        ⟨"file:///Main.elm"⟩ = true ∨
      ((before.foldl next (.initial [] .standard)).session.known ⟨"file:///Main.elm"⟩).lint = [] := by
    decide +kernel
  have hrespected := (settings_respected [] .standard checkTurnedOff).2.1 ⟨"file:///Main.elm"⟩
    fun before hbefore hlint =>
      (hwritable before (List.mem_inits _ _ |>.mpr hbefore)).resolve_right hlint
  refine ⟨by decide +kernel, fun issue hissue => ?_⟩
  exact hrespected issue hissue .unusedImport (by decide +kernel)

end Moment

end ElmLint

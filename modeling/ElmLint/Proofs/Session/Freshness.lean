import ElmLint.Proofs.Lint.OwnText
import ElmLint.Proofs.Session.Course

/-!
# What is stored is fresh

A file that neither waits nor is in flight, and of which the editor has nothing left to tell, has
stored the lint diagnostics of its present text.
-/

namespace ElmLint

namespace Workspace

variable {w : Workspace} {uri other : FileUri} {d : Document}

theorem document?_resolveAll (h : w.resolveAll.document? uri = some d) :
    ∃ d', w.document? uri = some d' ∧ d.text = d'.text ∧ d.parse = d'.parse := by
  unfold document? resolveAll at h
  rw [Table.get?_mapValues] at h
  obtain ⟨d', hd', rfl⟩ := Option.map_eq_some_iff.mp h
  exact ⟨d', hd', rfl, rfl⟩

/-- A text for one file leaves the texts of all other files alone. -/
theorem document?_setFile {text : String} {writable : Bool}
    (h : (w.setFile uri text writable).document? other = some d) (hne : other ≠ uri) :
    ∃ d', w.document? other = some d' ∧ d.text = d'.text ∧ d.parse = d'.parse := by
  have hadded : ∀ d, ({ w with files := w.files.put uri (w.incoming uri text writable) } :
      Workspace).document? other = some d → w.document? other = some d := by
    intro d hd
    rwa [document?, Table.get?_put, if_neg hne] at hd
  unfold setFile at h
  split at h
  · exact ⟨d, hadded d h, rfl, rfl⟩
  · obtain ⟨d', hd', hsame⟩ := document?_resolveAll h
    exact ⟨d', hadded d' hd', hsame⟩

/-- The files that are left when one is removed have their texts still. -/
theorem document?_remove (h : (w.remove uri).document? other = some d) :
    ∃ d', w.document? other = some d' ∧ d.text = d'.text ∧ d.parse = d'.parse := by
  unfold remove at h
  split at h
  · obtain ⟨d', hd', hsame⟩ := document?_resolveAll h
    refine ⟨d', ?_, hsame⟩
    rw [document?, Table.get?_erase] at hd'
    split at hd'
    · cases hd'
    · exact hd'
  · exact ⟨d, h, rfl, rfl⟩

theorem document?_open_ (w : Workspace) (uri other : FileUri) :
    (w.open_ uri).document? other = w.document? other := by
  unfold open_
  split <;> rfl

end Workspace

namespace Session

variable {s s' : Session} {uri : FileUri} {n : Nat} {r r' : Run Walk} {facts : List Fact}
  {unannounced unannounced' : List FileUri}

/-- The lint diagnostics that are stored for the file are those of its present text. -/
def IsFresh (s : Session) (uri : FileUri) : Prop :=
  ∀ d, s.workspace.document? uri = some d →
    ofOwnText (s.known uri).lint = ofOwnText (s.lint d)

/-- Every file is taken care of: it waits, or it is in flight, or the editor has yet to tell of it,
or what is stored is fresh. -/
def Accounted (s : Session) (unannounced : List FileUri) : Prop :=
  s.isShutDown = false → ∀ uri, uri ∈ s.pending.map (·.uri) ∨ uri ∈ s.inFlight ∨
    uri ∈ unannounced ∨ s.IsFresh uri

theorem attributed_lint (s : Session) (d : Document) : attributed .lint (s.lint d) = s.lint d := by
  unfold attributed lint
  split
  · refine (List.map_congr_left fun issue hissue => ?_).trans (List.map_id _)
    obtain ⟨code, message, severity, source, span, tags, kind⟩ := issue
    cases kind_of_mem_lint hissue
    rfl
  · rfl

theorem isFresh_of_document?_eq_none (h : s.workspace.document? uri = none) : s.IsFresh uri := by
  intro d hd
  rw [h] at hd
  cases hd

theorem OnlyRuns.isFresh (ho : OnlyRuns s s') (h : s.IsFresh uri) : s'.IsFresh uri := by
  intro d hd
  rw [ho.workspace] at hd
  rw [ho.lint, known, ho.diagnostics]
  exact h d hd

/-- What is stored for one file is fresh, and nothing changes for the others. -/
theorem isFresh_store {kind : DiagnosticKind} {list : List Diagnostic} {other : FileUri}
    (hs : s.IsStorable uri kind list) (h : s.IsFresh other) :
    (s.store uri kind list).IsFresh other := by
  intro d hd
  rw [known_store]
  split
  · rename_i he
    subst he
    have hlint := (s.known other).get_set kind .lint list
    change ((s.known other).set kind list).lint = _ at hlint
    rw [hlint]
    split
    · rename_i hkind
      rw [hs hkind.symm d hd, attributed_lint]
      rfl
    · exact h d hd
  · exact h d hd

namespace Accounted

theorem handled (h : s.Accounted unannounced) (hh : Handled s s' n r r' facts) :
    s'.Accounted unannounced := by
  intro hlive uri
  rw [hh.isShutDown] at hlive
  rw [hh.pending, hh.inFlight_eq]
  exact (h hlive uri).imp_right (.imp_right (.imp_right hh.isFresh))

theorem passed (h : s.Accounted unannounced) (hc : s.Coherent) {fact : Fact}
    (hp : Passed s s' n r r' uri fact) (hfresh : s.IsFresh uri) : s'.Accounted unannounced := by
  intro hlive other
  rw [hp.isShutDown] at hlive
  rw [hp.pending]
  obtain hpending | hflight | hu | hother := h hlive other
  · exact .inl hpending
  · rw [hc.inFlight_passed hp] at hflight
    cases hflight with
    | head => exact .inr (.inr (.inr (hp.isFresh hfresh)))
    | tail _ hflight => exact .inr (.inl hflight)
  · exact .inr (.inr (.inl hu))
  · exact .inr (.inr (.inr (hp.isFresh hother)))

theorem mark (h : s.Accounted unannounced) (uri : FileUri) : (s.mark uri).Accounted unannounced := by
  intro hlive other
  obtain hp | hf | hu | hfresh := h hlive other
  · exact .inl ((Mark.mem_insert_uri ⟨uri, s.now⟩ s.pending other).mpr (.inr hp))
  · exact .inr (.inl hf)
  · exact .inr (.inr (.inl hu))
  · exact .inr (.inr (.inr hfresh))

theorem request (h : s.Accounted unannounced) (hc : s.Coherent) {files : List FileUri}
    (hf : files ≠ []) (pause : Nat) (canceller? : Option Canceller) :
    (s.startRun files false pause true canceller?).Accounted unannounced := by
  have hl := hc.request_launched hf pause canceller?
  intro hlive uri
  rw [hl.isShutDown] at hlive
  rw [hl.pending, hl.inFlight_eq]
  obtain hp | hflight | hu | hfresh := h hlive uri
  · exact .inl hp
  · exact .inr (.inl (List.mem_eraseDups.mpr (List.mem_append_right _ hflight)))
  · exact .inr (.inr (.inl hu))
  · exact .inr (.inr (.inr (hl.isFresh hfresh)))

theorem drain (h : s.Accounted unannounced) (hc : s.Coherent) : s.drain.Accounted unannounced := by
  obtain ⟨hnil, -, heq⟩ | ⟨-, hl⟩ := hc.drain_cases
  · rw [heq]
    intro hlive uri
    simp only [List.append_eq_nil_iff] at hnil
    obtain hp | hflight | hu | hfresh := h hlive uri
    · rw [← mem_marked, hnil.1.1] at hp
      cases hp
    · exact .inr (.inl hflight)
    · exact .inr (.inr (.inl hu))
    · exact .inr (.inr (.inr hfresh))
  · -- what has waited and what was in flight is in flight now
    intro hlive uri
    rw [hl.isShutDown] at hlive
    rw [hl.inFlight_eq]
    obtain hp | hflight | hu | hfresh := h hlive uri
    · rw [← mem_marked] at hp
      exact .inr (.inl (by simp [hp]))
    · exact .inr (.inl (by simp [hflight]))
    · exact .inr (.inr (.inl hu))
    · exact .inr (.inr (.inr (hl.isFresh hfresh)))

theorem move (h : s.Accounted unannounced) (hc : s.Coherent) (hm : Move awake s s') :
    s'.Accounted unannounced := by
  cases hm with
  | tell | askTypes | askBuild | handOver => exact h
  | store hs =>
    intro hlive uri
    exact (h hlive uri).imp_right (.imp_right (.imp_right (isFresh_store hs)))
  | mark _ uri => exact h.mark uri
  | change hlive uri =>
    unfold Session.change
    rw [if_neg (by simp [hlive])]
    exact mark (s := { s.record (.changed uri) with sequence := s.sequence + 1 }) h uri
  | drain => exact h.drain hc
  | request _ hf pause cancelled => exact h.request hc hf pause _
  | cancel hr _ => exact h.handled (handled_cancelRun hr _)
  | begin _ hr hd _ => exact h.handled (handled_begin hr hd)
  | heed _ hr _ _ => exact h.handled (handled_finish hr .cancelled)
  | crash _ hw => exact h.handled (handled_finish (Scheduler.working?_eq_some.mp hw).1 .failed)
  | yield _ hw _ => exact h.handled (handled_yield hw)
  | abandon _ hw _ => exact h.handled (handled_abandon hw)
  | proceedToLint _ hw _ => exact h.handled (handled_proceedToLint hw)
  | proceedToNext _ hw hf _ hk =>
    obtain ⟨r', hp⟩ := passed_proceedToNext hc.valid hw hf
    refine h.passed hc hp fun d hd => ?_
    rw [hk d hd, attributed_lint]
  | skip _ hw hf hd =>
    obtain ⟨r', hp⟩ := passed_skip hc.valid hw hf
    exact h.passed hc hp (isFresh_of_document?_eq_none hd)
  | complete _ hw hf => exact absurd hf (hc.file?_ne_none hw)

theorem moves (h : s.Accounted unannounced) (hc : s.Coherent) (hm : Moves awake s s') :
    s'.Accounted unannounced := by
  induction hm with
  | refl => exact h
  | tail hm' hm ih => exact ih.move (hc.moves hm') hm

theorem announced (h : s.Accounted unannounced)
    (hp : s.isShutDown = false → uri ∈ s.pending.map (·.uri)) :
    s.Accounted (unannounced.filter (· ≠ uri)) := by
  intro hlive other
  by_cases he : other = uri
  · rw [he]
    exact .inl (hp hlive)
  · obtain hpending | hflight | hu | hfresh := h hlive other
    · exact .inl hpending
    · exact .inr (.inl hflight)
    · exact .inr (.inr (.inl (List.mem_filter.mpr ⟨hu, by simpa using he⟩)))
    · exact .inr (.inr (.inr hfresh))

/-- Other texts in the project, as far as nothing is unannounced that was announced. -/
theorem withWorkspace (h : s.Accounted unannounced) (hsub : unannounced ⊆ unannounced')
    {workspace : Workspace} (hdocument : ∀ uri ∉ unannounced', ∀ d,
      workspace.document? uri = some d → ∃ d', s.workspace.document? uri = some d' ∧
        d.text = d'.text ∧ d.parse = d'.parse) :
    { s with workspace }.Accounted unannounced' := by
  intro hlive uri
  by_cases hmem : uri ∈ unannounced'
  · exact .inr (.inr (.inl hmem))
  obtain hp | hf | hu | hfresh := h hlive uri
  · exact .inl hp
  · exact .inr (.inl hf)
  · exact absurd (hsub hu) hmem
  · refine .inr (.inr (.inr fun d hd => ?_))
    obtain ⟨d', hd', htext, hparse⟩ := hdocument uri hmem d hd
    rw [show ({ s with workspace } : Session).known uri = s.known uri from rfl, hfresh d' hd']
    unfold lint
    split
    · exact ofOwnText_lint htext.symm hparse.symm _
    · rfl

theorem forget (h : s.Accounted unannounced) (uri : FileUri) : (s.forget uri).Accounted
    (if (s.workspace.document? uri).isSome then uri :: unannounced else unannounced) := by
  intro hlive other
  by_cases he : other = uri
  · subst he
    cases hd : s.workspace.document? other with
    | none => exact .inr (.inr (.inr (isFresh_of_document?_eq_none hd)))
    | some d => exact .inr (.inr (.inl (by simp)))
  · obtain hp | hf | hu | hfresh := h hlive other
    · left
      obtain ⟨mark, hmark, rfl⟩ := List.mem_map.mp hp
      exact List.mem_map.mpr ⟨mark, List.mem_filter.mpr ⟨hmark, by simpa using he⟩, rfl⟩
    · exact .inr (.inl hf)
    · refine .inr (.inr (.inl ?_))
      split
      · exact List.mem_cons_of_mem _ hu
      · exact hu
    · refine .inr (.inr (.inr fun d hd => ?_))
      have hknown : (s.forget uri).known other = s.known other := by
        rw [known, known, Session.forget, Table.get?_erase, if_neg he]
      rw [hknown]
      exact hfresh d hd

end Accounted

theorem mem_pending_mark (s : Session) (uri : FileUri) :
    uri ∈ (s.mark uri).pending.map (·.uri) :=
  (Mark.mem_insert_uri ⟨uri, s.now⟩ s.pending uri).mpr (.inl rfl)

theorem mem_pending_change (h : s.isShutDown = false) (uri : FileUri) :
    uri ∈ (s.change uri).pending.map (·.uri) := by
  unfold change
  rw [if_neg (by simp [h])]
  exact mem_pending_mark _ uri

theorem mem_pending_openDocument (h : s.isShutDown = false) (uri : FileUri) :
    uri ∈ (s.openDocument uri).pending.map (·.uri) := by
  unfold openDocument
  rw [if_neg (by simp [h])]
  exact mem_pending_mark _ uri

end Session

/-- The event leaves the settings as they are. -/
def Event.keepsSettings : Event → Bool
  | .configure _ => false
  | _ => true

namespace Reachable

variable {sourceDirs : List FileUri} {settings : Settings} {m : Moment}

theorem settings_eq (h : Reachable sourceDirs settings Event.keepsSettings m) :
    m.session.settings = settings := by
  induction h with
  | initial => rfl
  | @next m e h _ hkeeps ih =>
    have hmoves := (h.coherent.affected e).outsideKept_moves (m.session.moves_after e)
    rw [Moment.next, hmoves.settings, ← ih]
    cases e with
    | configure => cases hkeeps
    | beginInterruption =>
      obtain heq | ⟨-, i, r, -, hh⟩ := h.coherent.beginInterruption_cases
      · exact congrArg Session.settings heq
      · exact hh.settings
    | shutDown =>
      cases hlive : m.session.isShutDown with
      | true => simp [Session.affected, Session.shutDown, hlive]
      | false => simp [Session.affected, Session.shutDown_eq hlive]
    | _ => rfl

end Reachable

theorem Moment.accounted_next {m : Moment} {e : Event} (hc : m.session.Coherent)
    (h : m.session.Accounted m.unannounced) (hkeeps : e.keepsSettings = true) :
    (m.next e).session.Accounted (m.next e).unannounced := by
  have haffected : (m.session.affected e).Accounted m.unannounced →
      (m.next e).session.Accounted m.unannounced :=
    fun ha => ha.moves (hc.affected e) (m.session.moves_after e)
  cases e with
  | setFile uri text writable =>
    refine h.withWorkspace (List.subset_cons_self _ _) fun other hother d hd => ?_
    exact Workspace.document?_setFile hd fun he => hother (he ▸ List.mem_cons_self)
  | removeFile uri =>
    exact h.withWorkspace (List.Subset.refl _) fun other _ d hd => Workspace.document?_remove hd
  | showFile uri =>
    refine h.withWorkspace (List.Subset.refl _) fun other _ d hd => ⟨d, ?_, rfl, rfl⟩
    rwa [Workspace.document?_open_] at hd
  | hideFile uri =>
    exact h.withWorkspace (List.Subset.refl _) fun other _ d hd => ⟨d, hd, rfl, rfl⟩
  | deleteDocument uri =>
    exact (h.forget uri).moves (hc.affected (.deleteDocument uri))
      (m.session.moves_after (.deleteDocument uri))
  | openDocument uri =>
    refine (haffected h).announced fun hlive => ?_
    exact Session.mem_pending_openDocument
      ((hc.outsideKept_moves (m.session.moves_after (.openDocument uri))).isShutDown ▸ hlive) uri
  | changeDocument uri =>
    refine (haffected h).announced fun hlive => ?_
    exact Session.mem_pending_change
      ((hc.outsideKept_moves (m.session.moves_after (.changeDocument uri))).isShutDown ▸ hlive) uri
  | configure => cases hkeeps
  | beginInterruption =>
    refine haffected ?_
    obtain heq | ⟨-, i, r, -, hh⟩ := hc.beginInterruption_cases
    · rw [Session.affected, heq]
      exact h
    · exact h.handled hh
  | shutDown =>
    refine haffected fun hlive => ?_
    cases hbefore : m.session.isShutDown with
    | true => simp [Session.affected, Session.shutDown, hbefore] at hlive
    | false => simp [Session.affected, Session.shutDown_eq hbefore] at hlive
  | _ => exact haffected h

namespace Reachable

variable {sourceDirs : List FileUri} {settings : Settings} {m : Moment}

theorem accounted (h : Reachable sourceDirs settings Event.keepsSettings m) :
    m.session.Accounted m.unannounced := by
  induction h with
  | initial =>
    intro _ uri
    exact .inr (.inr (.inr (Session.isFresh_of_document?_eq_none rfl)))
  | next h _ hkeeps ih => exact Moment.accounted_next h.coherent ih hkeeps

/-- While the settings stay as they are and lint, every file of the project that neither waits nor
is in flight has stored exactly the lint diagnostics of its present text, as far as they depend on
no other file. Only a file whose text the editor has set or whose diagnostics it has deleted, and
which it has not announced since, is left out. -/
theorem storedLint_eq (hlint : settings.lintEnabled = true)
    (h : Reachable sourceDirs settings Event.keepsSettings m)
    (hlive : m.session.isShutDown = false) {uri : FileUri}
    (hannounced : uri ∉ m.unannounced)
    (hpending : uri ∉ m.session.pending.map (·.uri))
    (hflight : uri ∉ m.session.inFlight)
    {d : Document} (hd : m.session.workspace.document? uri = some d) :
    ofOwnText (m.session.known uri).lint =
      ofOwnText (m.session.workspace.lint d settings.disabledLints) := by
  have hfresh : m.session.IsFresh uri := by
    obtain hp | hf | hu | hfresh := h.accounted hlive uri
    · exact absurd hp hpending
    · exact absurd hf hflight
    · exact absurd hu hannounced
    · exact hfresh
  rw [hfresh d hd, Session.lint, h.settings_eq, if_pos hlint]

theorem storedLint_eq_firstAnalysis :
    let m := firstAnalysis.foldl Moment.next (.initial [] .standard)
    ∃ d, m.session.workspace.document? ⟨"file:///Main.elm"⟩ = some d ∧
      ofOwnText (m.session.known ⟨"file:///Main.elm"⟩).lint =
        ofOwnText (m.session.workspace.lint d []) ∧
      ((m.session.known ⟨"file:///Main.elm"⟩).lint.map (·.code)) = ["unused_import"] := by
  intro m
  have hreach : Reachable [] .standard Event.keepsSettings m :=
    Reachable.initial.foldl firstAnalysis (by decide +kernel) (by decide +kernel)
  have hin : (m.session.workspace.document? ⟨"file:///Main.elm"⟩).isSome = true := by
    decide +kernel
  obtain ⟨d, hd⟩ := Option.isSome_iff_exists.mp hin
  refine ⟨d, hd, ?_, by decide +kernel⟩
  exact storedLint_eq rfl hreach (by decide +kernel) (by decide +kernel) (by decide +kernel)
    (by decide +kernel) hd

end Reachable

end ElmLint

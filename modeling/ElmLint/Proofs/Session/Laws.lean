import ElmLint.Proofs.Schedule.RunLaws
import ElmLint.Session.Event

/-!
# What the operations of a session do

`Undisturbed` says that runs, project and settings are as before: so it is after telling the editor
of diagnostics, whatever the editor does in return. What is stored is described by `known`, and
what is in flight by the reports of the scheduler.
-/

namespace ElmLint

namespace FileDiagnostics

variable {f : FileDiagnostics} {kind : DiagnosticKind} {list : List Diagnostic}

theorem eq_empty_of_isEmpty (h : f.isEmpty = true) : f = .empty := by
  rw [isEmpty, merged_eq, List.isEmpty_iff, List.append_eq_nil_iff, List.append_eq_nil_iff] at h
  obtain ⟨⟨hb, ht⟩, hl⟩ := h
  obtain ⟨build, types, lint⟩ := f
  simp_all [empty]

theorem set_get (h : f.get kind = list) : f.set kind list = f := by
  subst h
  cases kind <;> rfl

end FileDiagnostics

namespace Mark

variable {mark other : Mark} {pending : List Mark}

/-- A file keeps its place among those that wait. -/
theorem uris_insert (mark : Mark) (pending : List Mark) :
    (mark.insert pending).map (·.uri) = if mark.uri ∈ pending.map (·.uri) then
      pending.map (·.uri) else pending.map (·.uri) ++ [mark.uri] := by
  have hany : pending.any (·.uri == mark.uri) = true ↔ mark.uri ∈ pending.map (·.uri) := by
    simp [List.mem_map]
  unfold insert
  split
  · rename_i h
    rw [if_pos (hany.mp h), List.map_map]
    refine List.map_congr_left fun m _ => ?_
    by_cases he : m.uri = mark.uri <;> simp [he]
  · rename_i h
    rw [if_neg (mt hany.mpr h), List.map_append, List.map_singleton]

theorem mem_insert_uri (mark : Mark) (pending : List Mark) (uri : FileUri) :
    uri ∈ (mark.insert pending).map (·.uri) ↔ uri = mark.uri ∨ uri ∈ pending.map (·.uri) := by
  rw [uris_insert]
  split
  · rename_i h
    exact ⟨.inr, fun hu => hu.elim (· ▸ h) id⟩
  · rw [List.mem_append, List.mem_singleton, or_comm]

theorem nodup_insert (h : (pending.map (·.uri)).Nodup) :
    ((mark.insert pending).map (·.uri)).Nodup := by
  rw [uris_insert]
  split
  · exact h
  · rename_i hnew
    rw [List.nodup_append]
    refine ⟨h, by simp, ?_⟩
    rintro _ hu _ hnew' rfl
    exact hnew (List.mem_singleton.mp hnew' ▸ hu)

/-- A mark waits after an insertion if it is the new one, or has waited before for another file. -/
theorem mem_insert :
    other ∈ mark.insert pending ↔ other = mark ∨ other ∈ pending ∧ other.uri ≠ mark.uri := by
  unfold insert
  split
  · rename_i hany
    obtain ⟨old, hold, huri⟩ := List.any_eq_true.mp hany
    rw [List.mem_map]
    constructor
    · rintro ⟨m, hm, rfl⟩
      split
      · exact .inl rfl
      · rename_i hne
        exact .inr ⟨hm, hne⟩
    · rintro (rfl | ⟨hm, hne⟩)
      · exact ⟨old, hold, if_pos (by simpa using huri)⟩
      · exact ⟨other, hm, if_neg hne⟩
  · rename_i hnone
    simp only [List.any_eq_true, beq_iff_eq, not_exists, not_and] at hnone
    rw [List.mem_append, List.mem_singleton, or_comm]
    exact or_congr_right ⟨fun hm => ⟨hm, hnone other hm⟩, And.left⟩

end Mark

namespace Session

variable {s s' : Session} {uri : FileUri} {n : Nat} {r : Run Walk}

-- ---------------------------------------------------------------------------
-- What leaves the runs alone
-- ---------------------------------------------------------------------------

/-- Project, settings and clock are as before, and so is whether the session has ended. -/
structure OutsideKept (s s' : Session) : Prop where
  workspace : s'.workspace = s.workspace
  settings : s'.settings = s.settings
  now : s'.now = s.now
  isShutDown : s'.isShutDown = s.isShutDown

theorem OutsideKept.refl (s : Session) : OutsideKept s s := ⟨rfl, rfl, rfl, rfl⟩

theorem OutsideKept.trans (h : OutsideKept s s') (h' : OutsideKept s' s'') : OutsideKept s s'' :=
  ⟨h'.workspace.trans h.workspace, h'.settings.trans h.settings, h'.now.trans h.now,
    h'.isShutDown.trans h.isShutDown⟩

/-- What linting gives depends on project and settings alone. -/
theorem OutsideKept.lint (h : OutsideKept s s') (d : Document) : s'.lint d = s.lint d := by
  simp [Session.lint, h.workspace, h.settings]

/-- The runs are as before, too. -/
structure Undisturbed (s s' : Session) : Prop extends OutsideKept s s' where
  scheduler : s'.scheduler = s.scheduler
  inFlight? : s'.inFlight? = s.inFlight?

theorem Undisturbed.refl (s : Session) : Undisturbed s s := ⟨.refl s, rfl, rfl⟩

theorem Undisturbed.trans (h : Undisturbed s s') (h' : Undisturbed s' s'') : Undisturbed s s'' :=
  ⟨h.toOutsideKept.trans h'.toOutsideKept, h'.scheduler.trans h.scheduler,
    h'.inFlight?.trans h.inFlight?⟩

theorem undisturbed_change (s : Session) (uri : FileUri) : Undisturbed s (s.change uri) := by
  unfold change
  split
  · exact .refl s
  · exact ⟨⟨rfl, rfl, rfl, rfl⟩, rfl, rfl⟩

theorem undisturbed_send (s : Session) (uri : FileUri) : Undisturbed s (s.send uri) := by
  unfold send
  split
  · exact (show Undisturbed s { s.record _ with reactions := _ } from
      ⟨⟨rfl, rfl, rfl, rfl⟩, rfl, rfl⟩).trans (undisturbed_change _ _)
  · exact ⟨⟨rfl, rfl, rfl, rfl⟩, rfl, rfl⟩

theorem undisturbed_foldl (f : Session → FileUri → Session) (h : ∀ s uri, Undisturbed s (f s uri))
    (uris : List FileUri) (s : Session) : Undisturbed s (uris.foldl f s) := by
  induction uris generalizing s with
  | nil => exact .refl s
  | cons uri uris ih => exact (h s uri).trans (ih _)

theorem undisturbed_replace (s : Session) (kind : DiagnosticKind)
    (list : FileUri → List Diagnostic) (uris : List FileUri) :
    Undisturbed s (s.replace kind list uris) := by
  refine .trans (undisturbed_foldl (fun s uri => s.store uri kind (list uri)) ?_ _ s)
    (undisturbed_foldl send undisturbed_send _ _)
  intro s uri
  exact ⟨⟨rfl, rfl, rfl, rfl⟩, rfl, rfl⟩

theorem undisturbed_publish (s : Session) (uri : FileUri) (kind : DiagnosticKind)
    (found : List Diagnostic) : Undisturbed s (s.publish uri kind found) := by
  unfold publish
  split
  · exact undisturbed_replace ..
  · exact .refl s

theorem undisturbed_handOver (s : Session) (n : Nat) (uri : FileUri) (kind : DiagnosticKind)
    (found : List Diagnostic) : Undisturbed s (s.handOver n uri kind found) :=
  (show Undisturbed s (s.record _) from ⟨⟨rfl, rfl, rfl, rfl⟩, rfl, rfl⟩).trans
    (undisturbed_publish _ _ _ _)

-- ---------------------------------------------------------------------------
-- What is known of a file
-- ---------------------------------------------------------------------------

theorem known_store (s : Session) (uri other : FileUri) (kind : DiagnosticKind)
    (list : List Diagnostic) : (s.store uri kind list).known other =
      if other = uri then (s.known uri).set kind list else s.known other := by
  have hget : (s.store uri kind list).diagnostics.get? other = if other = uri then
      (if ((s.known uri).set kind list).isEmpty then none else some ((s.known uri).set kind list))
      else s.diagnostics.get? other := by
    simp only [store]
    split
    · rw [Table.get?_erase]
    · rw [Table.get?_put]
  rw [known, hget]
  split
  · split
    · rename_i h; exact (FileDiagnostics.eq_empty_of_isEmpty h).symm
    · rfl
  · rfl

theorem diagnostics_change (s : Session) (uri : FileUri) :
    (s.change uri).diagnostics = s.diagnostics := by
  unfold change; split <;> rfl

theorem diagnostics_send (s : Session) (uri : FileUri) :
    (s.send uri).diagnostics = s.diagnostics := by
  unfold send
  split
  · exact diagnostics_change ..
  · rfl

@[simp] theorem known_send (s : Session) (uri other : FileUri) :
    (s.send uri).known other = s.known other := by
  simp only [known, diagnostics_send]

/-- Publishing for a file of the project replaces the list that is stored. -/
theorem known_publish (s : Session) (uri : FileUri) (kind : DiagnosticKind)
    (found : List Diagnostic) (h : s.workspace.document? uri = some d) :
    (s.publish uri kind found).known uri = (s.known uri).set kind (attributed kind found) := by
  simp only [publish, h, replace, List.eraseDups_cons, List.filter_nil, List.eraseDups_nil,
    FileUri.sort, List.mergeSort_singleton, List.filter_cons, List.filter_nil]
  split
  · simp [known_store]
  · rename_i hsame
    simp only [FileDiagnostics.changes, bne_iff_ne, ne_eq, Decidable.not_not] at hsame
    exact (FileDiagnostics.set_get hsame).symm

-- ---------------------------------------------------------------------------
-- What waits
-- ---------------------------------------------------------------------------

theorem mem_marked (s : Session) (uri : FileUri) : uri ∈ s.marked ↔ uri ∈ s.pending.map (·.uri) := by
  simp [marked]

-- ---------------------------------------------------------------------------
-- What is in flight
-- ---------------------------------------------------------------------------

theorem hear_eq_self {inFlight? : Option InFlight} {report : Report Walk}
    (h : report.outcome ≠ .completed) : hear inFlight? report = inFlight? := by
  simp [hear, h]

theorem foldl_hear {reports : List (Report Walk)} (inFlight? : Option InFlight)
    (h : ∀ report ∈ reports, report.outcome ≠ .completed) :
    reports.foldl hear inFlight? = inFlight? := by
  induction reports with
  | nil => rfl
  | cons report reports ih =>
    rw [List.foldl_cons, hear_eq_self (h report List.mem_cons_self)]
    exact ih fun report hm => h report (List.mem_cons_of_mem _ hm)

/-- As long as no run completes, taking over a state of the scheduler changes nothing else. -/
theorem adopt_eq {scheduler : Scheduler Walk}
    (h : ∀ report ∈ scheduler.reportsSince s.scheduler, report.outcome ≠ .completed) :
    s.adopt scheduler = { s with scheduler } := by
  simp only [adopt, foldl_hear s.inFlight? h]

@[simp] theorem adopt_self (s : Session) : s.adopt s.scheduler = s :=
  adopt_eq (by simp [Scheduler.reportsSince_eq_nil rfl])

@[simp] theorem adopt_update (s : Session) (n : Nat) (change : Run Walk → Run Walk) :
    s.adopt (s.scheduler.update n change) = { s with scheduler := s.scheduler.update n change } :=
  adopt_eq (by simp [Scheduler.reportsSince_eq_nil (Scheduler.reports_update ..)])

theorem adopt_finish (s : Session) (n : Nat) {outcome : Outcome} (h : outcome ≠ .completed) :
    s.adopt (s.scheduler.finish n outcome) =
      { s with scheduler := s.scheduler.finish n outcome } := by
  refine adopt_eq fun report hm => ?_
  simp only [Scheduler.reportsSince, Scheduler.reports_finish] at hm
  split at hm
  · split at hm
    · simp only [List.length_cons, Nat.add_sub_cancel_left, List.take_succ_cons, List.take_zero,
        List.reverse_cons, List.reverse_nil, List.nil_append, List.mem_singleton] at hm
      rw [hm]; exact h
    · simp at hm
  · simp at hm

theorem inFlight?_proceed (hw : s.scheduler.working? n = some r) (ho : r.outcome? = none)
    (walk : Walk) (next : Option Continuation) :
    (s.proceed n walk next).inFlight? = match next with
      | none => hear s.inFlight? ⟨n, walk, .completed⟩
      | some _ => s.inFlight? := by
  change (Scheduler.reportsSince (s.scheduler.proceed n s.now walk next) s.scheduler).foldl hear
    s.inFlight? = _
  rw [Scheduler.reportsSince_proceed hw ho]
  cases next <;> rfl

end Session

end ElmLint

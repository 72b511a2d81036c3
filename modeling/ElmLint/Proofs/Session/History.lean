import ElmLint.Session.Basic

/-!
# Reading a history

What a history tells of the changes and the runs of its session. The newest fact comes first, so
what was known at a time is read off the rest of the history from there on.
-/

namespace ElmLint

/-- The fact neither announces a change nor starts or ends runs. -/
def Fact.isPlain : Fact → Bool
  | .changed _ | .started .. | .ended => false
  | _ => true

/-- The fact tells nothing of the files that wait. -/
def Fact.leavesWaiting : Fact → Bool
  | .marked _ | .deleted _ | .drained | .ended => false
  | _ => true

/-- The fact tells of no run that it was through with a file. -/
def Fact.leavesBehind : Fact → Bool
  | .linted .. | .skipped .. => false
  | _ => true

namespace History

/-- The number of changes that were announced. -/
def changes : History → Nat
  | [] => 0
  | (_, .changed _) :: earlier => changes earlier + 1
  | _ :: earlier => changes earlier

/-- The number of changes that had been announced when the run started. -/
def changesAtStart? : History → Nat → Option Nat
  | [], _ => none
  | (_, .started run' _) :: earlier, run =>
    if run' = run then some (changes earlier) else changesAtStart? earlier run
  | _ :: earlier, run => changesAtStart? earlier run

/-- The run that started last, unless the session has ended since. -/
def latestRun? : History → Option Nat
  | [] => none
  | (_, .started run _) :: _ => some run
  | (_, .ended) :: _ => none
  | _ :: earlier => latestRun? earlier

/-- Someone has cancelled the run. -/
def HasCancelled (history : History) (run : Nat) : Prop :=
  ∃ time canceller, (time, Fact.cancelled run canceller) ∈ history

/-- No change was announced since the run started, no other run has taken its place, it was not
stopped, and nobody has cancelled it. -/
structure MayPublish (history : History) (run : Nat) : Prop where
  upToDate : changesAtStart? history run = some (changes history)
  latest : latestRun? history = some run
  uncancelled : ¬ HasCancelled history run

variable {history earlier later : History} {facts : List Fact} {run run' time count : Nat}

-- ---------------------------------------------------------------------------
-- Plain facts
-- ---------------------------------------------------------------------------

theorem changes_plain (h : ∀ fact ∈ later, fact.2.isPlain = true) :
    changes (later ++ earlier) = changes earlier := by
  induction later with
  | nil => rfl
  | cons entry later ih =>
    obtain ⟨hentry, hlater⟩ := List.forall_mem_cons.mp h
    obtain ⟨time, fact⟩ := entry
    cases fact with
    | changed | started | ended => cases hentry
    | _ => exact ih hlater

theorem changesAtStart?_plain (h : ∀ fact ∈ later, fact.2.isPlain = true) :
    changesAtStart? (later ++ earlier) run = changesAtStart? earlier run := by
  induction later with
  | nil => rfl
  | cons entry later ih =>
    obtain ⟨hentry, hlater⟩ := List.forall_mem_cons.mp h
    obtain ⟨time, fact⟩ := entry
    cases fact with
    | changed | started | ended => cases hentry
    | _ => exact ih hlater

theorem latestRun?_plain (h : ∀ fact ∈ later, fact.2.isPlain = true) :
    latestRun? (later ++ earlier) = latestRun? earlier := by
  induction later with
  | nil => rfl
  | cons entry later ih =>
    obtain ⟨hentry, hlater⟩ := List.forall_mem_cons.mp h
    obtain ⟨time, fact⟩ := entry
    cases fact with
    | changed | started | ended => cases hentry
    | _ => exact ih hlater

theorem hasCancelled_append :
    HasCancelled (later ++ earlier) run ↔ HasCancelled later run ∨ HasCancelled earlier run := by
  simp [HasCancelled, exists_or]

theorem hasCancelled_cons_started {files : List FileUri} :
    HasCancelled ((time, .started run' files) :: earlier) run ↔ HasCancelled earlier run := by
  simp [HasCancelled]

-- ---------------------------------------------------------------------------
-- What cannot be regained
-- ---------------------------------------------------------------------------

theorem changes_le_append (later earlier : History) : changes earlier ≤ changes (later ++ earlier) := by
  induction later with
  | nil => exact Nat.le_refl _
  | cons entry later ih =>
    obtain ⟨time, fact⟩ := entry
    cases fact with
    | changed => exact Nat.le_succ_of_le ih
    | _ => exact ih

theorem changesAtStart?_le (h : changesAtStart? history run = some count) :
    count ≤ changes history := by
  induction history with
  | nil => cases h
  | cons entry earlier ih =>
    obtain ⟨time, fact⟩ := entry
    cases fact with
    | changed => exact Nat.le_succ_of_le (ih h)
    | started other files =>
      simp only [changesAtStart?] at h
      split at h
      · exact Nat.le_of_eq (Option.some.inj h).symm
      · exact ih h
    | _ => exact ih h

/-- A run starts once at most. -/
def StartsOnce (history : History) : Prop :=
  ∀ time run files earlier, (time, .started run files) :: earlier <:+ history →
    changesAtStart? earlier run = none

theorem StartsOnce.append (later : History) (h : StartsOnce (later ++ earlier)) :
    StartsOnce earlier :=
  fun time run files rest hsuffix =>
    h time run files rest (hsuffix.trans (List.suffix_append later earlier))

theorem changesAtStart?_append (honce : StartsOnce (later ++ earlier))
    (h : changesAtStart? earlier run = some count) :
    changesAtStart? (later ++ earlier) run = some count := by
  induction later with
  | nil => exact h
  | cons entry later ih =>
    have hlater := ih (StartsOnce.append [entry] honce)
    obtain ⟨time, fact⟩ := entry
    cases fact with
    | started other files =>
      have hnone := honce _ _ _ _ List.suffix_rfl
      simp only [List.cons_append, changesAtStart?]
      split
      · rename_i he
        change changesAtStart? (later ++ earlier) other = none at hnone
        rw [he, hlater] at hnone
        cases hnone
      · exact hlater
    | _ => exact hlater

theorem latestRun?_append (honce : StartsOnce (later ++ earlier))
    (hstarted : changesAtStart? earlier run = some count)
    (h : latestRun? (later ++ earlier) = some run) : latestRun? earlier = some run := by
  induction later with
  | nil => exact h
  | cons entry later ih =>
    have honce' := StartsOnce.append [entry] honce
    obtain ⟨time, fact⟩ := entry
    cases fact with
    | started other files =>
      -- then the run has started twice
      have hnone : changesAtStart? (later ++ earlier) other = none :=
        honce _ _ _ _ List.suffix_rfl
      have hother : other = run := Option.some.inj h
      rw [hother, changesAtStart?_append honce' hstarted] at hnone
      cases hnone
    | ended => cases h
    | _ => exact ih honce' h

/-- A run that may publish could have published at any time since its start. -/
theorem MayPublish.of_append (honce : StartsOnce (later ++ earlier))
    (hstarted : (changesAtStart? earlier run).isSome) (h : MayPublish (later ++ earlier) run) :
    MayPublish earlier run := by
  obtain ⟨count, hcount⟩ := Option.isSome_iff_exists.mp hstarted
  have hle := changesAtStart?_le hcount
  refine ⟨?_, latestRun?_append honce hcount h.latest, ?_⟩
  · have hdate := h.upToDate
    rw [changesAtStart?_append honce hcount, Option.some.injEq] at hdate
    have := changes_le_append later earlier
    rw [hcount]
    congr 1
    omega
  · intro hcancelled
    exact h.uncancelled (hasCancelled_append.mpr (.inr hcancelled))

-- ---------------------------------------------------------------------------
-- What has become of an announced file
-- ---------------------------------------------------------------------------

/-- What has happened since the file was last announced, if it ever was. -/
def sinceMark? : History → FileUri → Option History
  | [], _ => none
  | entry :: earlier, uri =>
    if entry.2 = .marked uri then some [] else (sinceMark? earlier uri).map (entry :: ·)

/-- The file was deleted. -/
def HasDeleted (history : History) (uri : FileUri) : Prop :=
  ∃ time, (time, Fact.deleted uri) ∈ history

/-- A run was through with the types of the file and then with its linting. -/
def HasCarriedThrough (history : History) (uri : FileUri) : Prop :=
  ∃ run time time', [(time', Fact.linted run uri), (time, .typed run uri)].Sublist history

/-- A run has found that the file is gone. -/
def HasSkipped (history : History) (uri : FileUri) : Prop :=
  ∃ time run, (time, Fact.skipped run uri) ∈ history

/-- Nothing more is owed to the file: it was deleted, or carried through both phases, or found
gone. -/
def HasSettled (history : History) (uri : FileUri) : Prop :=
  HasDeleted history uri ∨ HasCarriedThrough history uri ∨ HasSkipped history uri

variable {uri : FileUri} {since : History}

theorem sinceMark?_append (h : ∀ time, (time, .marked uri) ∉ later) :
    sinceMark? (later ++ earlier) uri = (sinceMark? earlier uri).map (later ++ ·) := by
  induction later with
  | nil => simp
  | cons entry later ih =>
    obtain ⟨time, fact⟩ := entry
    have hne : fact ≠ .marked uri := fun he => h time (he ▸ List.mem_cons_self)
    have hlater := ih fun time hm => h time (List.mem_cons_of_mem _ hm)
    rw [List.cons_append, sinceMark?, if_neg hne, hlater, Option.map_map]
    rfl

theorem HasSettled.append (later : History) (h : HasSettled since uri) :
    HasSettled (later ++ since) uri := by
  obtain ⟨time, hm⟩ | ⟨run, time, time', hsub⟩ | ⟨time, run, hm⟩ := h
  · exact .inl ⟨time, List.mem_append_right _ hm⟩
  · exact .inr (.inl ⟨run, time, time', hsub.trans (List.sublist_append_right _ _)⟩)
  · exact .inr (.inr ⟨time, run, List.mem_append_right _ hm⟩)

-- ---------------------------------------------------------------------------
-- Which files wait, and which are behind a run
-- ---------------------------------------------------------------------------

/-- The time of the latest announcement of a file that waits: one that was neither taken for a run
nor deleted since. -/
def latestMark? : History → FileUri → Option Nat
  | [], _ => none
  | (time, .marked other) :: earlier, uri =>
    if other = uri then some time else latestMark? earlier uri
  | (_, .deleted other) :: earlier, uri => if other = uri then none else latestMark? earlier uri
  | (_, .drained) :: _, _ | (_, .ended) :: _, _ => none
  | _ :: earlier, uri => latestMark? earlier uri

/-- The files that the run has linted or found gone, in the order in which it did. -/
def passed : History → Nat → List FileUri
  | [], _ => []
  | (_, .linted run' uri) :: earlier, run | (_, .skipped run' uri) :: earlier, run =>
    if run' = run then passed earlier run ++ [uri] else passed earlier run
  | _ :: earlier, run => passed earlier run

theorem latestMark?_append (h : ∀ fact ∈ later, fact.2.leavesWaiting = true) :
    latestMark? (later ++ earlier) uri = latestMark? earlier uri := by
  induction later with
  | nil => rfl
  | cons entry later ih =>
    obtain ⟨hentry, hlater⟩ := List.forall_mem_cons.mp h
    obtain ⟨time, fact⟩ := entry
    cases fact with
    | marked | deleted | drained | ended => cases hentry
    | _ => exact ih hlater

theorem passed_append (h : ∀ fact ∈ later, fact.2.leavesBehind = true) :
    passed (later ++ earlier) run = passed earlier run := by
  induction later with
  | nil => rfl
  | cons entry later ih =>
    obtain ⟨hentry, hlater⟩ := List.forall_mem_cons.mp h
    obtain ⟨time, fact⟩ := entry
    cases fact with
    | linted | skipped => cases hentry
    | _ => exact ih hlater

theorem mem_passed_of_skipped (h : (time, .skipped run uri) ∈ history) :
    uri ∈ passed history run := by
  induction history with
  | nil => cases h
  | cons entry earlier ih =>
    obtain rfl | h := List.mem_cons.mp h
    · simp [passed]
    · have hearlier := ih h
      obtain ⟨time', fact⟩ := entry
      cases fact with
      | linted | skipped =>
        rw [passed]
        split
        · exact List.mem_append_left _ hearlier
        · exact hearlier
      | _ => exact hearlier

/-- A run tells that it was through with the types of a file before it tells the same of the
linting. -/
def TypesFirst (history : History) : Prop :=
  ∀ time run uri earlier, (time, .linted run uri) :: earlier <:+ history →
    ∃ time, (time, Fact.typed run uri) ∈ earlier

theorem TypesFirst.append (h : TypesFirst earlier)
    (hlater : ∀ fact ∈ later, fact.2.leavesBehind = true) : TypesFirst (later ++ earlier) := by
  induction later with
  | nil => exact h
  | cons entry later ih =>
    obtain ⟨hentry, hlater⟩ := List.forall_mem_cons.mp hlater
    intro time run uri rest hsuffix
    obtain he | hsuffix := List.suffix_cons_iff.mp hsuffix
    · rw [← (List.cons.inj he).1] at hentry
      cases hentry
    · exact ih hlater time run uri rest hsuffix

end History

end ElmLint

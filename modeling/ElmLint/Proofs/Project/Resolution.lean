import ElmLint.Project.Workspace
import Mathlib.Logic.Function.Basic

/-!
# Imports are up to date

A workspace resolves the imports of one file after an edit, and those of all files only when a file
comes or goes. What it holds is at all times what resolving every file against all files from
scratch gives (`UpToDate`), since resolving asks which files there are and never what they say.
-/

namespace ElmLint

/-- Resolving depends on the text alone, not on what was resolved before. -/
@[simp] theorem Document.resolve_resolve (d : Document) (sourceDirs sourceDirs' : List FileUri)
    (has has' : FileUri → Bool) :
    (d.resolve sourceDirs has).resolve sourceDirs' has' = d.resolve sourceDirs' has' := rfl

namespace Workspace

/-- What can be done to a project. -/
inductive Change where
  | setFile (uri : FileUri) (text : String) (writable : Bool)
  | remove (uri : FileUri)
  | open_ (uri : FileUri)
  | close (uri : FileUri)
  deriving DecidableEq, Repr

def after (w : Workspace) : Change → Workspace
  | .setFile uri text writable => w.setFile uri text writable
  | .remove uri => w.remove uri
  | .open_ uri => w.open_ uri
  | .close uri => w.close uri

/-- What a file was set to last. -/
structure Source where
  text : String
  writable : Bool
  deriving DecidableEq, Repr

/-- The files of a project as they were set last, without anything derived from them. -/
abbrev Sources : Type := FileUri → Option Source

namespace Sources

def empty : Sources := fun _ => none

def after (sources : Sources) : Change → Sources
  | .setFile uri text writable => Function.update sources uri (some ⟨text, writable⟩)
  | .remove uri => Function.update sources uri none
  | .open_ _ | .close _ => sources

/-- The project has the file. -/
def has (sources : Sources) (uri : FileUri) : Bool := (sources uri).isSome

/-- The document of a file, made from scratch. -/
def document? (sources : Sources) (sourceDirs : List FileUri) (uri : FileUri) : Option Document :=
  (sources uri).map fun source =>
    (Document.ofText uri source.text source.writable).resolve sourceDirs sources.has

end Sources

/-- Each file of the workspace is as making it from scratch would have it. -/
def UpToDate (w : Workspace) (sources : Sources) : Prop :=
  ∀ uri, w.document? uri = sources.document? w.sourceDirs uri

variable {w : Workspace} {sources : Sources} {uri : FileUri} {text : String} {writable : Bool}

theorem upToDate_empty (sourceDirs : List FileUri) : (empty sourceDirs).UpToDate .empty :=
  fun _ => rfl

theorem sourceDirs_after (w : Workspace) (c : Change) : (w.after c).sourceDirs = w.sourceDirs := by
  cases c with
  | setFile uri text writable =>
    change (w.setFile uri text writable).sourceDirs = _
    unfold setFile
    dsimp only
    split <;> rfl
  | remove uri =>
    change (w.remove uri).sourceDirs = _
    unfold remove
    dsimp only
    split <;> rfl
  | open_ uri =>
    change (w.open_ uri).sourceDirs = _
    unfold open_
    split <;> rfl
  | close uri => rfl

namespace UpToDate

theorem has_eq (h : w.UpToDate sources) : w.files.has = sources.has := by
  funext uri
  have hdocument := h uri
  rw [Sources.document?] at hdocument
  change (w.document? uri).isSome = (sources uri).isSome
  rw [hdocument, Option.isSome_map]

/-- If resolving the documents again brings them up to date, resolving all of them does. -/
theorem resolveAll (h : ∀ uri, (w.document? uri).map (·.resolve w.sourceDirs sources.has) =
    sources.document? w.sourceDirs uri) : w.resolveAll.UpToDate sources := by
  have hhas : w.files.has = sources.has := by
    funext uri
    have hsome := congrArg Option.isSome (h uri)
    rwa [Sources.document?, Option.isSome_map, Option.isSome_map] at hsome
  intro uri
  change (w.files.mapValues _).get? uri = _
  rw [Table.get?_mapValues, hhas]
  exact h uri

/-- Resolving a document that is up to date against other files is making it from scratch. -/
theorem map_resolve (h : w.UpToDate sources) (uri : FileUri) (has : FileUri → Bool) :
    (w.document? uri).map (·.resolve w.sourceDirs has) = (sources uri).map fun source =>
      (Document.ofText uri source.text source.writable).resolve w.sourceDirs has := by
  rw [h uri, Sources.document?, Option.map_map]
  simp only [Function.comp_def, Document.resolve_resolve]

/-- The document that is handed out for a file that is set is up to date with the new text. -/
theorem incoming (h : w.UpToDate sources) (uri : FileUri) (text : String) (writable : Bool) :
    w.incoming uri text writable = (Document.ofText uri text writable).resolve w.sourceDirs
      (sources.after (.setFile uri text writable)).has := by
  unfold Workspace.incoming
  congr 1
  funext candidate
  rw [h.has_eq]
  by_cases hc : candidate = uri
  · simp [Sources.has, Sources.after, hc]
  · simp [Sources.has, Sources.after, hc]

theorem setFile (h : w.UpToDate sources) (uri : FileUri) (text : String) (writable : Bool) :
    (w.setFile uri text writable).UpToDate (sources.after (.setFile uri text writable)) := by
  have hincoming := h.incoming uri text writable
  have hput : ∀ other, ({ w with files := w.files.put uri (w.incoming uri text writable) } :
      Workspace).document? other =
        if other = uri then some (w.incoming uri text writable) else w.document? other :=
    fun other => Table.get?_put ..
  unfold Workspace.setFile
  dsimp only
  split
  · -- the file was there before, so that the other files see the same files as before
    rename_i hknown
    have hhas : (sources.after (.setFile uri text writable)).has = sources.has := by
      rw [h.has_eq] at hknown
      funext other
      by_cases ho : other = uri
      · simp [Sources.has, Sources.after, ho, show (sources uri).isSome = true from hknown]
      · simp [Sources.has, Sources.after, ho]
    intro other
    rw [hput]
    by_cases ho : other = uri
    · rw [if_pos ho, hincoming, ho]
      simp [Sources.document?, Sources.after]
    · rw [if_neg ho, h other, Sources.document?, Sources.document?, hhas]
      simp [Sources.after, ho]
  · refine resolveAll fun other => ?_
    rw [hput]
    by_cases ho : other = uri
    · rw [if_pos ho, ho]
      simp [Sources.document?, Sources.after, Workspace.incoming]
    · rw [if_neg ho, h.map_resolve]
      simp [Sources.document?, Sources.after, ho]

theorem remove (h : w.UpToDate sources) (uri : FileUri) :
    (w.remove uri).UpToDate (sources.after (.remove uri)) := by
  unfold Workspace.remove
  dsimp only
  split
  · have herase : ∀ other, (w.files.erase uri).get? other =
        if other = uri then none else w.document? other := fun other => Table.get?_erase ..
    refine resolveAll fun other => ?_
    change Option.map _ ((w.files.erase uri).get? other) = _
    rw [herase]
    by_cases ho : other = uri
    · simp [Sources.document?, Sources.after, ho]
    · rw [if_neg ho]
      refine (h.map_resolve other _).trans ?_
      simp [Sources.document?, Sources.after, ho]
  · -- the file was not there, and nothing changes for the others
    rename_i hmissing
    rw [h.has_eq] at hmissing
    have hnone : sources uri = none := by simpa [Sources.has] using hmissing
    have hsame : sources.after (.remove uri) = sources := by
      rw [Sources.after, ← hnone, Function.update_eq_self]
    rw [hsame]
    exact h

theorem after (h : w.UpToDate sources) (c : Change) : (w.after c).UpToDate (sources.after c) := by
  cases c with
  | setFile uri text writable => exact h.setFile uri text writable
  | remove uri => exact h.remove uri
  | open_ uri =>
    change (w.open_ uri).UpToDate sources
    unfold open_
    split <;> exact h
  | close uri => exact h

theorem foldl (h : w.UpToDate sources) (changes : List Change) :
    (changes.foldl Workspace.after w).UpToDate (changes.foldl Sources.after sources) := by
  induction changes generalizing w sources with
  | nil => exact h
  | cons c changes ih => exact ih (h.after c)

end UpToDate

theorem sourceDirs_foldl (w : Workspace) (changes : List Change) :
    (changes.foldl after w).sourceDirs = w.sourceDirs := by
  induction changes generalizing w with
  | nil => rfl
  | cons c changes ih => exact (ih (w.after c)).trans (sourceDirs_after w c)

/-- Whatever was done to a project, it has exactly the files that were set and not removed since,
and what each of them sees is what resolving the imports of its latest text from scratch gives,
against the source directories and all files that are there now. The document that is handed out
when a file is set is the one that the project then holds. -/
theorem resolved_fromScratch (sourceDirs : List FileUri) (changes : List Change) :
    let w := changes.foldl after (.empty sourceDirs)
    let sources := changes.foldl Sources.after .empty
    (∀ uri, w.files.has uri = (sources uri).isSome) ∧
    (∀ uri, (w.document? uri).map (fun d => (d.text, d.writable, d.resolved)) =
      (sources uri).map fun source => (source.text, source.writable,
        resolveImports sourceDirs w.files.has
          (Syntax.SourceFile.ofTree (Syntax.parse source.text).tree).imports)) ∧
    ∀ uri text writable,
      (w.setFile uri text writable).document? uri = some (w.incoming uri text writable) := by
  intro w sources
  have h : w.UpToDate sources := (upToDate_empty sourceDirs).foldl changes
  have hdirs : w.sourceDirs = sourceDirs := sourceDirs_foldl _ changes
  refine ⟨fun uri => congrFun h.has_eq uri, fun uri => ?_, fun uri text writable => ?_⟩
  · rw [h uri, Sources.document?, Option.map_map, hdirs, h.has_eq]
    refine congrArg (Option.map · _) (funext fun source => ?_)
    dsimp only [Function.comp_apply, Document.resolve, Document.ofText, Document.file]
  · rw [h.setFile uri text writable uri, h.incoming uri text writable]
    have hsame := sourceDirs_after w (.setFile uri text writable)
    rw [show (w.setFile uri text writable).sourceDirs = w.sourceDirs from hsame]
    simp [Sources.document?, Sources.after]

end Workspace

end ElmLint

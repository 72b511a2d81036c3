import Mathlib.Data.List.Basic
import ElmLint.Project.Lint

/-!
# Diagnostics that follow from the text of their file

`singleFieldRecord` is the only check that asks what an alias of another file stands for. All other
lint diagnostics of a document depend on its tree and its lines alone.
-/

namespace ElmLint

namespace LintCode

theorem name_injective : Function.Injective name := by
  intro code other h
  rw [← Option.some.injEq, ← ofName?_name code, h, ofName?_name]

end LintCode

/-- The diagnostics that depend on no other file. -/
def ofOwnText (list : List Diagnostic) : List Diagnostic :=
  list.filter (·.code ≠ LintCode.singleFieldRecord.name)

namespace Lint

variable {s s' : Subject} {index : LineIndex} {disabled : List LintCode}

/-- The diagnostics of some findings, as far as their checks are not turned off. -/
def diagnosticsOf (index : LineIndex) (disabled : List LintCode) (findings : List Finding) :
    List Diagnostic :=
  (findings.filter (!disabled.contains ·.code)).filterMap (·.toDiagnostic? index)

theorem diagnosticsOf_flatMap (found : List (Subject → List Finding)) :
    diagnosticsOf index disabled (found.flatMap (· s)) =
      found.flatMap fun check => diagnosticsOf index disabled (check s) := by
  induction found with
  | nil => rfl
  | cons check found ih =>
    simp only [diagnosticsOf, List.flatMap_cons, List.filter_append, List.filterMap_append] at ih ⊢
    rw [ih]

theorem toDiagnostic?_eq_some {f : Finding} {d : Diagnostic}
    (h : f.toDiagnostic? index = some d) :
    d.code = f.code.name ∧ d.kind = .lint := by
  obtain ⟨span, -, rfl⟩ := Option.map_eq_some_iff.mp h
  simp only
  split
  · unfold Diagnostic.withTag
    split <;> exact ⟨rfl, rfl⟩
  · exact ⟨rfl, rfl⟩

theorem mem_diagnosticsOf {findings : List Finding} {d : Diagnostic}
    (h : d ∈ diagnosticsOf index disabled findings) :
    ∃ f ∈ findings, d.code = f.code.name ∧ d.kind = .lint := by
  obtain ⟨f, hf, hd⟩ := List.mem_filterMap.mp h
  exact ⟨f, (List.mem_filter.mp hf).1, toDiagnostic?_eq_some hd⟩

theorem code_of_mem_singleFieldRecord {f : Finding} (h : f ∈ singleFieldRecord s) :
    f.code = .singleFieldRecord := by
  obtain ⟨m, -, hm⟩ := List.mem_filterMap.mp h
  split at hm
  · cases hm
  · split at hm
    · cases hm
    · rw [← Option.some.inj hm]
      rfl

theorem ofOwnText_singleFieldRecord :
    ofOwnText (diagnosticsOf index disabled (singleFieldRecord s)) = [] := by
  refine List.filter_eq_nil_iff.mpr fun d hd => ?_
  obtain ⟨f, hf, hcode, -⟩ := mem_diagnosticsOf hd
  rw [hcode, code_of_mem_singleFieldRecord hf]
  simp

/-- Every check but one looks at nothing but the file and what it refers to. -/
theorem check_congr (hfile : s.file = s'.file) (hrefs : s.refs = s'.refs) :
    ∀ check ∈ checks, check s = check s' ∨ check = singleFieldRecord := by
  obtain ⟨file, refs, fields⟩ := s
  obtain ⟨file', refs', fields'⟩ := s'
  subst hfile hrefs
  simp only [checks, List.forall_mem_cons]
  exact ⟨.inl rfl, .inl rfl, .inl rfl, .inl rfl, .inl rfl, .inl rfl, .inl rfl, .inl rfl, .inl rfl,
    .inr trivial, .inl rfl, .inl rfl, .inl rfl, .inl rfl, .inl rfl, List.forall_mem_nil _⟩

theorem ofOwnText_findings (hfile : s.file = s'.file) (hrefs : s.refs = s'.refs) :
    ofOwnText (diagnosticsOf index disabled (findings s)) =
      ofOwnText (diagnosticsOf index disabled (findings s')) := by
  unfold findings
  rw [diagnosticsOf_flatMap, diagnosticsOf_flatMap, ofOwnText, ofOwnText, List.filter_flatMap,
    List.filter_flatMap]
  refine List.flatMap_congr fun check hcheck => ?_
  obtain h | rfl := check_congr hfile hrefs check hcheck
  · rw [h]
  · exact ofOwnText_singleFieldRecord.trans ofOwnText_singleFieldRecord.symm

end Lint

variable {w w' : Workspace} {d d' : Document}

/-- Apart from one check, linting gives the same for the same text in any project. -/
theorem ofOwnText_lint (htext : d.text = d'.text) (hparse : d.parse = d'.parse)
    (disabled : List LintCode) : ofOwnText (w.lint d disabled) = ofOwnText (w'.lint d' disabled) := by
  unfold Workspace.lint Document.lint Document.lineIndex
  rw [htext, hparse]
  exact Lint.ofOwnText_findings rfl rfl

theorem kind_of_mem_lint {disabled : List LintCode} {issue : Diagnostic}
    (h : issue ∈ w.lint d disabled) : issue.kind = .lint := by
  obtain ⟨-, -, -, hkind⟩ := Lint.mem_diagnosticsOf h
  exact hkind

end ElmLint

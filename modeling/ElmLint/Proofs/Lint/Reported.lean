import ElmLint.Proofs.Lint.Output

/-!
# What is reported on a range

A code is reported on a range of the text when a diagnostic of that code spans it. With no check
turned off this is so exactly when the check of the code has a finding there.
-/

namespace ElmLint.Lint

open Syntax

variable {tree : Tree} {text : String} {fields : String → Option (List String)} {f : Finding}
  {code : LintCode} {disabled : List LintCode} {range : ByteRange} {check : Subject → List Finding} {number : Nat}

/-- With no check turned off, a diagnostic of the code spans the range. -/
def Reported (text : String) (fields : String → Option (List String)) (code : LintCode)
    (range : ByteRange) : Prop :=
  ∃ d ∈ lintTree (parse text).tree (.ofText text) fields [], d.code = code.name ∧
    (LineIndex.ofText text).range? d.span = some range

theorem reported_iff : Reported text fields code range ↔
    ∃ f ∈ findings (.ofTree (parse text).tree fields), f.code = code ∧ f.range = range := by
  constructor
  · rintro ⟨d, hd, hcode, hrange⟩
    obtain ⟨f, hf, hstands⟩ := exists_finding_of_mem_lintTree hd
    exact ⟨f, hf, LintCode.name_injective (hstands.code_eq.symm.trans hcode),
      Option.some.inj (hstands.range?_eq.symm.trans hrange)⟩
  · rintro ⟨f, hf, rfl, rfl⟩
    obtain ⟨d, hd, hstands⟩ := exists_diagnostic_of_mem_findings hf List.not_mem_nil
    exact ⟨d, hd, hstands.code_eq, hstands.range?_eq⟩

/-- The findings with the numbers of a check are those of the check. -/
theorem mem_findings_iff (h : tree.IsParsed) (hcheck : (check, number) ∈ checks.zipIdx) :
    f ∈ check (.ofTree tree fields) ↔
      f ∈ findings (.ofTree tree fields) ∧ f.code.checkNumber = number := by
  rw [findings_eq, List.mem_flatMap]
  constructor
  · exact fun hf => ⟨⟨_, hcheck, hf⟩, (isReport_checks h _ hcheck).number f hf⟩
  · rintro ⟨⟨⟨other, index⟩, hother, hf⟩, hnumber⟩
    obtain rfl := ((isReport_checks h _ hother).number f hf).symm.trans hnumber
    obtain ⟨-, -, hthis⟩ := List.mem_zipIdx hcheck
    obtain ⟨-, -, hthat⟩ := List.mem_zipIdx hother
    rw [hthis]
    rwa [hthat] at hf

theorem flatMap_eq_of_mem {α β : Type} {entries : List α} {entry : α} {g : α → List β}
    (hnodup : entries.Nodup) (hentry : entry ∈ entries)
    (hnone : ∀ other ∈ entries, other ≠ entry → g other = []) : entries.flatMap g = g entry := by
  obtain ⟨before, after, rfl⟩ := List.append_of_mem hentry
  obtain ⟨-, hafter, hbefore⟩ := List.nodup_append.mp hnodup
  have hfront : before.flatMap g = [] := List.flatMap_eq_nil_iff.mpr fun other hother =>
    hnone other (List.mem_append_left _ hother) (hbefore other hother entry List.mem_cons_self)
  have hback : after.flatMap g = [] := List.flatMap_eq_nil_iff.mpr fun other hother =>
    hnone other (by simp [hother]) fun heq => (List.nodup_cons.mp hafter).1 (heq ▸ hother)
  rw [List.flatMap_append, List.flatMap_cons, hfront, hback, List.nil_append, List.append_nil]

/-- The findings of a code that has a check of its own are those of the check, in its order. -/
theorem filter_findings (h : tree.IsParsed) (hcheck : (check, code.checkNumber) ∈ checks.zipIdx)
    (hown : ∀ other : LintCode, other.checkNumber = code.checkNumber → other = code) :
    (findings (.ofTree tree fields)).filter (·.code = code) = check (.ofTree tree fields) := by
  have hnodup : checks.zipIdx.Nodup := by
    refine pairwise_checks.imp fun {entry other} hlt heq => ?_
    rw [heq] at hlt
    exact Nat.lt_irrefl _ hlt
  rw [findings_eq, List.filter_flatMap, flatMap_eq_of_mem hnodup hcheck]
  · refine List.filter_eq_self.mpr fun f hf => ?_
    simpa using hown _ ((isReport_checks h _ hcheck).number f hf)
  · rintro ⟨other, index⟩ hother hne
    refine List.filter_eq_nil_iff.mpr fun f hf hcode => hne ?_
    obtain rfl : code.checkNumber = index := by
      rw [← of_decide_eq_true hcode]
      exact (isReport_checks h _ hother).number f hf
    obtain ⟨-, -, hthis⟩ := List.mem_zipIdx hcheck
    obtain ⟨-, -, hthat⟩ := List.mem_zipIdx hother
    rw [hthis, hthat]

theorem forall₂_filterMap {α β : Type} {R : β → α → Prop} {g : α → Option β} {items : List α}
    (h : ∀ item ∈ items, ∃ image, g item = some image ∧ R image item) :
    List.Forall₂ R (items.filterMap g) items := by
  induction items with
  | nil => exact .nil
  | cons item items ih =>
    obtain ⟨hitem, hitems⟩ := List.forall_mem_cons.mp h
    obtain ⟨image, himage, hrelated⟩ := hitem
    rw [List.filterMap_cons_some himage]
    exact .cons hrelated (ih hitems)

/-- The diagnostics of a code that has a check of its own are those of the check, unless the check
is turned off. -/
theorem filter_lintTree (hcheck : (check, code.checkNumber) ∈ checks.zipIdx)
    (hown : ∀ other : LintCode, other.checkNumber = code.checkNumber → other = code) :
    (lintTree (parse text).tree (.ofText text) fields disabled).filter (·.code = code.name) =
      if code ∈ disabled then []
      else (check (.ofTree (parse text).tree fields)).filterMap (·.toDiagnostic? (.ofText text)) := by
  have hkept : (lintTree (parse text).tree (.ofText text) fields disabled).filter
      (·.code = code.name) =
      (check (.ofTree (parse text).tree fields)).filterMap fun f =>
        if code ∈ disabled then none else f.toDiagnostic? (.ofText text) := by
    rw [← filter_findings (isParsed_parse text) hcheck hown, lintTree, List.filter_filterMap,
      List.filterMap_filter, List.filterMap_filter]
    refine List.filterMap_congr fun f _ => ?_
    cases hd : f.toDiagnostic? (.ofText text) with
    | none => simp
    | some d =>
      have hname : d.code = code.name ↔ f.code = code := by
        rw [(toDiagnostic?_eq_some hd).1]
        exact LintCode.name_injective.eq_iff
      by_cases heq : f.code = code
      · by_cases hcode : code ∈ disabled <;> simp [Option.filter, hname, heq, hcode]
      · simp [Option.filter, hname, heq]
  rw [hkept]
  split <;> simp

/-- A code is reported where its own check has a finding. -/
theorem reported_iff_mem_check (hcheck : (check, code.checkNumber) ∈ checks.zipIdx) :
    Reported text fields code range ↔
      ∃ f ∈ check (.ofTree (parse text).tree fields), f.code = code ∧ f.range = range := by
  rw [reported_iff]
  refine exists_congr fun f => ?_
  rw [mem_findings_iff (isParsed_parse text) hcheck]
  constructor
  · rintro ⟨hf, rfl, hrange⟩
    exact ⟨⟨hf, rfl⟩, rfl, hrange⟩
  · rintro ⟨⟨hf, -⟩, hcode, hrange⟩
    exact ⟨hf, hcode, hrange⟩

end ElmLint.Lint

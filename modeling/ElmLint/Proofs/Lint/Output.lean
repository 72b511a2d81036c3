import ElmLint.Proofs.Lint.Chains
import ElmLint.Proofs.Lint.Names
import ElmLint.Proofs.Lint.OwnText
import ElmLint.Proofs.Text.LineIndex

/-!
# The diagnostics of a file

The checks report one after another, and the order of their reports is that of the diagnostics. No
finding is lost when its range becomes a span, and the span gives the range back.
-/

namespace ElmLint

namespace Lint

open Syntax

variable {tree : Tree} {f g : Finding} {d e : Diagnostic} {index : LineIndex} {text : String}
  {fields : String → Option (List String)} {disabled : List LintCode} {range : ByteRange}

-- ---------------------------------------------------------------------------
-- All checks
-- ---------------------------------------------------------------------------

theorem isReport_checks (h : tree.IsParsed) :
    ∀ check ∈ checks.zipIdx, IsReport (.root tree) check.2 (check.1 (.ofTree tree fields)) := by
  simp only [checks, List.zipIdx_cons, List.zipIdx_nil, List.forall_mem_cons]
  exact ⟨isReport_unusedImports h, isReport_unusedImportedValues h, isReport_unusedAliases h,
    isReport_unusedBindings h, isReport_mapNothingToNothing h, isReport_booleanCaseExpr h,
    isReport_dropConcatOfLists h, isReport_dropConsOfItemAndList h, isReport_useConsOverConcat h,
    isReport_singleFieldRecord h, isReport_unnecessaryListConcat h,
    isReport_unnecessaryPortModule h, isReport_noUncurriedPrefix h, isReport_unusedTypeAliases h,
    isReport_unusedValueConstructors h, fun _ h => absurd h List.not_mem_nil⟩

theorem findings_eq (s : Subject) : findings s = checks.zipIdx.flatMap (·.1 s) := by
  have h := List.flatMap_map Prod.fst (fun check => check s) checks.zipIdx
  rwa [List.zipIdx_map_fst] at h

theorem marks_of_mem_findings (h : tree.IsParsed) (hf : f ∈ findings (.ofTree tree fields)) :
    (Site.root tree).Marks f.range := by
  rw [findings_eq] at hf
  obtain ⟨check, hcheck, hf⟩ := List.mem_flatMap.mp hf
  exact (isReport_checks h check hcheck).marks f hf

/-- A finding of an earlier check, or one that the same check may report first. -/
def Follows (root : Site) (f g : Finding) : Prop :=
  f.code.checkNumber < g.code.checkNumber ∨
    f.code.checkNumber = g.code.checkNumber ∧ Precedes root f g

theorem pairwise_checks : checks.zipIdx.Pairwise (·.2 < ·.2) := by
  rw [← List.pairwise_map, List.zipIdx_map_snd]
  exact List.pairwise_lt_range'

theorem pairwise_findings (h : tree.IsParsed) :
    (findings (.ofTree tree fields)).Pairwise (Follows (.root tree)) := by
  rw [findings_eq, List.pairwise_flatMap]
  refine ⟨fun check hcheck => ?_, pairwise_checks.imp_of_mem fun hcheck hcheck' hlt f hf g hg => ?_⟩
  · have hreport : IsReport (.root tree) check.2 (check.1 (.ofTree tree fields)) :=
      isReport_checks h check hcheck
    refine hreport.pairwise.imp_of_mem fun hf hg hprecedes => .inr ⟨?_, hprecedes⟩
    rw [hreport.number _ hf, hreport.number _ hg]
  · refine .inl ?_
    rwa [(isReport_checks h _ hcheck).number f hf, (isReport_checks h _ hcheck').number g hg]

-- ---------------------------------------------------------------------------
-- Words of the text
-- ---------------------------------------------------------------------------

/-- The range goes from the start of a significant token to the end of one. -/
structure IsOnWords (text : String) (range : ByteRange) : Prop where
  first : ∃ t ∈ tokenize text, t.kind.isTrivia = false ∧ t.start = range.start
  last : ∃ t ∈ tokenize text, t.kind.isTrivia = false ∧ t.stop = range.stop
  nonempty : range.start < range.stop
  boundaries : String.Pos.Raw.IsValid text ⟨range.start⟩ ∧ String.Pos.Raw.IsValid text ⟨range.stop⟩

/-- The words of the tree are significant tokens of the text. -/
theorem mem_tokenize_of_mem_words {word : Site} (h : word ∈ (Site.root (parse text).tree).words) :
    word.toToken ∈ tokenize text ∧ word.kind.isTrivia = false ∧ word.toToken.stop = word.stop := by
  obtain ⟨-, htoken, hkind⟩ := Site.mem_words h
  refine ⟨?_, hkind, ?_⟩
  · rw [← map_toToken_parse]
    exact List.mem_map_of_mem (List.mem_filter.mp h).1
  · cases htree : word.tree with
    | node => simp [htree, Tree.isNode] at htoken
    | token kind text =>
      rw [Token.stop, Token.length, Site.stop, Site.toToken, Site.text_token htree, htree,
        Tree.length]

theorem isBoundary_of_mem_tokenize {t : Token} (h : t ∈ tokenize text) :
    (LineIndex.ofText text).IsBoundary t.start ∧ (LineIndex.ofText text).IsBoundary t.stop := by
  obtain ⟨before, after, htext, hstart⟩ := exists_place_of_mem_tokenize h
  refine ⟨⟨before, t.text.toList ++ after, htext, hstart⟩,
    before ++ t.text.toList, after, ?_, ?_⟩
  · rw [List.append_assoc]
    exact htext
  · rw [utf8Length_append, Token.stop, hstart, Token.length]

theorem isBoundary_of_marks (h : (Site.root (parse text).tree).Marks range) :
    (LineIndex.ofText text).IsBoundary range.start ∧
      (LineIndex.ofText text).IsBoundary range.stop := by
  obtain ⟨first, hfirst, last, hlast, -, rfl⟩ := h
  obtain ⟨hfirst, -, -⟩ := mem_tokenize_of_mem_words hfirst
  obtain ⟨hlast, -, hstop⟩ := mem_tokenize_of_mem_words hlast
  exact ⟨(isBoundary_of_mem_tokenize hfirst).1, hstop ▸ (isBoundary_of_mem_tokenize hlast).2⟩

theorem isOnWords_of_marks (h : (Site.root (parse text).tree).Marks range) :
    IsOnWords text range := by
  have hbounds := h.bounds (isParsed_parse text).spelled
  have hboundary := isBoundary_of_marks h
  obtain ⟨first, hfirst, last, hlast, -, rfl⟩ := h
  obtain ⟨hfirst, hkind, -⟩ := mem_tokenize_of_mem_words hfirst
  obtain ⟨hlast, hkind', hstop⟩ := mem_tokenize_of_mem_words hlast
  exact {
    first := ⟨_, hfirst, hkind, rfl⟩
    last := ⟨_, hlast, hkind', hstop⟩
    nonempty := by omega
    boundaries := ⟨LineIndex.isBoundary_iff_isValid.mp hboundary.1,
      LineIndex.isBoundary_iff_isValid.mp hboundary.2⟩ }

-- ---------------------------------------------------------------------------
-- Diagnostics
-- ---------------------------------------------------------------------------


theorem span?_of_toDiagnostic? (h : f.toDiagnostic? index = some d) :
    index.span? f.range = some d.span := by
  obtain ⟨span, hspan, rfl⟩ := Option.map_eq_some_iff.mp h
  rw [hspan]
  simp only
  split
  · unfold Diagnostic.withTag
    split <;> rfl
  · rfl

/-- The diagnostic stands for the finding, and its span for the bytes that were found. -/
structure StandsFor (text : String) (d : Diagnostic) (f : Finding) : Prop where
  code_eq : d.code = f.code.name
  span?_eq : (LineIndex.ofText text).span? f.range = some d.span
  range?_eq : (LineIndex.ofText text).range? d.span = some f.range

theorem StandsFor.position?_start (h : StandsFor text d f) :
    (LineIndex.ofText text).position? f.range.start = some d.span.start := by
  have hspan := h.span?_eq
  rw [LineIndex.span?] at hspan
  split at hspan
  · rename_i start stop hstart hstop
    split at hspan
    · rw [hstart, ← Option.some.inj hspan]
    · cases hspan
  · cases hspan

theorem standsFor_of_toDiagnostic? (hf : f ∈ findings (.ofTree (parse text).tree fields))
    (hd : f.toDiagnostic? (.ofText text) = some d) : StandsFor text d f := by
  have hmarks := marks_of_mem_findings (isParsed_parse text) hf
  have hspan := span?_of_toDiagnostic? hd
  have hboundary := isBoundary_of_marks hmarks
  have hbounds := hmarks.bounds (isParsed_parse text).spelled
  obtain ⟨span, hspan', hrange⟩ :=
    LineIndex.range?_of_isBoundary hboundary.1 hboundary.2 (Nat.le_of_lt hbounds.2.1)
  obtain rfl := Option.some.inj (hspan.symm.trans hspan')
  exact ⟨(toDiagnostic?_eq_some hd).1, hspan, hrange⟩

theorem exists_finding_of_mem_lintTree
    (h : d ∈ lintTree (parse text).tree (.ofText text) fields disabled) :
    ∃ f ∈ findings (.ofTree (parse text).tree fields), StandsFor text d f := by
  obtain ⟨f, hf, hd⟩ := List.mem_filterMap.mp h
  have hf := (List.mem_filter.mp hf).1
  exact ⟨f, hf, standsFor_of_toDiagnostic? hf hd⟩

/-- What holds of findings in their order holds of the diagnostics in theirs. -/
theorem pairwise_lintTree {R : Diagnostic → Diagnostic → Prop}
    (h : ∀ f g d e, f ∈ findings (.ofTree (parse text).tree fields) →
      g ∈ findings (.ofTree (parse text).tree fields) → Follows (.root (parse text).tree) f g →
      StandsFor text d f → StandsFor text e g → R d e) :
    (lintTree (parse text).tree (.ofText text) fields disabled).Pairwise R := by
  rw [lintTree, List.pairwise_filterMap]
  have hfollows : (findings (.ofTree (parse text).tree fields)).Pairwise
      (Follows (.root (parse text).tree)) := pairwise_findings (isParsed_parse text)
  have hkept := hfollows.filter (!disabled.contains ·.code)
  refine hkept.imp_of_mem fun {f g} hf hg hfollows d hd e he => ?_
  have hf := (List.mem_filter.mp hf).1
  have hg := (List.mem_filter.mp hg).1
  exact h f g d e hf hg hfollows (standsFor_of_toDiagnostic? hf hd)
    (standsFor_of_toDiagnostic? hg he)

theorem exists_toDiagnostic? (hf : f ∈ findings (.ofTree (parse text).tree fields)) :
    ∃ d, f.toDiagnostic? (.ofText text) = some d ∧ StandsFor text d f := by
  have hmarks := marks_of_mem_findings (isParsed_parse text) hf
  have hboundary := isBoundary_of_marks hmarks
  have hbounds := hmarks.bounds (isParsed_parse text).spelled
  obtain ⟨span, hspan, -⟩ :=
    LineIndex.range?_of_isBoundary hboundary.1 hboundary.2 (Nat.le_of_lt hbounds.2.1)
  obtain ⟨d, hd⟩ : ∃ d, f.toDiagnostic? (.ofText text) = some d := by
    rw [Finding.toDiagnostic?, hspan]
    exact ⟨_, rfl⟩
  exact ⟨d, hd, standsFor_of_toDiagnostic? hf hd⟩

/-- No finding is lost. -/
theorem exists_diagnostic_of_mem_findings (hf : f ∈ findings (.ofTree (parse text).tree fields))
    (hcode : f.code ∉ disabled) :
    ∃ d ∈ lintTree (parse text).tree (.ofText text) fields disabled, StandsFor text d f := by
  obtain ⟨d, hd, hstands⟩ := exists_toDiagnostic? hf
  refine ⟨d, List.mem_filterMap.mpr ⟨f, List.mem_filter.mpr ⟨hf, ?_⟩, hd⟩, hstands⟩
  simpa using hcode

-- ---------------------------------------------------------------------------
-- Order
-- ---------------------------------------------------------------------------

theorem start_lt_of_liesInEarlierOperand {range inner : ByteRange} (h : tree.IsParsed)
    (hinner : (Site.root tree).Marks inner)
    (hlies : LiesInEarlierOperand (.root tree) range inner) : inner.start < range.start := by
  obtain ⟨chain, hchain, hkind, operand, hoperand, first, hfirst, hstop, hcontains, hstart⟩ := hlies
  have hdescendant := (List.mem_filter.mp hchain).1
  have hbounds {part : Site} (hpart : part ∈ chain.children) :=
    (Site.marks_significantRange (words_of_isPlain h hdescendant (by rw [hkind]; rfl) hpart)).bounds
      ((h.spelled.descendants hdescendant).descendants (descendants_of_mem_children hpart))
  have hin := hbounds hoperand
  have hout := hbounds hfirst
  have hnonempty := (hinner.bounds h.spelled).2.1
  simp only [ByteRange.contains, Bool.and_eq_true, decide_eq_true_eq] at hcontains
  omega

/-- The order of two diagnostics in the list. Those of earlier checks come first. Of two by one
check the one that starts first comes first, unless the other one is in an earlier operand of the
chain that the check has looked at. -/
structure ComesBefore (text : String) (d e : Diagnostic) : Prop where
  isCode : ∃ code code' : LintCode, d.code = code.name ∧ e.code = code'.name
  checks : ∀ code code' : LintCode, d.code = code.name → e.code = code'.name →
    code.checkNumber ≤ code'.checkNumber
  starts : ∀ code code' : LintCode, d.code = code.name → e.code = code'.name →
    code.checkNumber = code'.checkNumber →
    ∃ range range', (LineIndex.ofText text).range? d.span = some range ∧
      (LineIndex.ofText text).range? e.span = some range' ∧
      (¬ d.span.start ≤ e.span.start ↔
        code.isOnChains ∧ LiesInEarlierOperand (.root (parse text).tree) range range')

theorem comesBefore_of_follows (hf : f ∈ findings (.ofTree (parse text).tree fields))
    (hg : g ∈ findings (.ofTree (parse text).tree fields))
    (h : Follows (.root (parse text).tree) f g) (hd : StandsFor text d f)
    (he : StandsFor text e g) : ComesBefore text d e := by
  have hcode {x : Diagnostic} {k : Finding} {code : LintCode} (hx : StandsFor text x k)
      (hname : x.code = code.name) : code = k.code :=
    LintCode.name_injective (hname.symm.trans hx.code_eq)
  refine ⟨⟨f.code, g.code, hd.code_eq, he.code_eq⟩, fun code code' hc hc' => ?_,
    fun code code' hc hc' hnumber => ⟨f.range, g.range, hd.range?_eq, he.range?_eq, ?_⟩⟩
  · obtain rfl := hcode hd hc
    obtain rfl := hcode he hc'
    obtain hlt | ⟨heq, -⟩ := h
    · exact Nat.le_of_lt hlt
    · exact Nat.le_of_eq heq
  · obtain rfl := hcode hd hc
    obtain rfl := hcode he hc'
    have hprecedes : Precedes (.root (parse text).tree) f g := by
      obtain hlt | ⟨-, hprecedes⟩ := h
      · exact absurd hnumber (Nat.ne_of_lt hlt)
      · exact hprecedes
    have hmarks := marks_of_mem_findings (isParsed_parse text) hf
    have hmarks' := marks_of_mem_findings (isParsed_parse text) hg
    rw [LineIndex.position?_le_iff hd.position?_start he.position?_start
      (isBoundary_of_marks hmarks).1 (isBoundary_of_marks hmarks').1]
    constructor
    · exact fun hlt => hprecedes.order.resolve_left hlt
    · rintro ⟨-, hlies⟩
      have := start_lt_of_liesInEarlierOperand (isParsed_parse text) hmarks' hlies
      omega

-- ---------------------------------------------------------------------------
-- Results
-- ---------------------------------------------------------------------------

/-- Every diagnostic is about words of the text, and none is reported twice. -/
theorem lintTree_onWords (text : String) (recordFields? : String → Option (List String))
    (disabled : List LintCode) :
    (∀ d ∈ lintTree (parse text).tree (.ofText text) recordFields? disabled,
      ∃ range, (LineIndex.ofText text).range? d.span = some range ∧ IsOnWords text range) ∧
      ((lintTree (parse text).tree (.ofText text) recordFields? disabled).map
        fun d => (d.code, d.span)).Nodup := by
  constructor
  · intro d hd
    obtain ⟨f, hf, hstands⟩ := exists_finding_of_mem_lintTree hd
    have hmarks := marks_of_mem_findings (isParsed_parse text) hf
    exact ⟨f.range, hstands.range?_eq, isOnWords_of_marks hmarks⟩
  · refine List.pairwise_map.mpr (pairwise_lintTree fun f g d e _ _ hfollows hd he hequal => ?_)
    obtain ⟨hcode, hspan⟩ := Prod.mk.inj hequal
    have hcode : f.code = g.code := by
      apply LintCode.name_injective
      rw [← hd.code_eq, ← he.code_eq, hcode]
    have hrange : f.range = g.range := by
      apply Option.some.inj
      rw [← hd.range?_eq, ← he.range?_eq, hspan]
    obtain hlt | ⟨-, hprecedes⟩ := hfollows
    · rw [hcode] at hlt
      exact Nat.lt_irrefl _ hlt
    · exact hprecedes.differs hcode hrange

theorem lintTree_comesBefore (text : String)
    (recordFields? : String → Option (List String)) (disabled : List LintCode) :
    (lintTree (parse text).tree (.ofText text) recordFields? disabled).Pairwise
      (ComesBefore text) :=
  pairwise_lintTree fun _ _ _ _ => comesBefore_of_follows

end Lint

end ElmLint

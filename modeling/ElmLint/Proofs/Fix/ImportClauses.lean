import ElmLint.Proofs.Fix.ListItems
import ElmLint.Proofs.Lint.Imports
import ElmLint.Proofs.Syntax.ImportParts

/-!
# Taking a clause out of an import

An alias leaves its import as it stands, and the only item of a list leaves with the whole list and
the keyword in front of it. White space in front of the clause goes, too, and so does the end of the
line there: behind a comment up to the end of its line, what comes after the clause becomes part of
that comment. Unless this happens, what is left parses, and has lost only the tokens of the clause.
-/

namespace ElmLint.QuickFix

open Syntax Lint

variable {text : String} {kinds : List Kind} {hasAlias : Bool} {range : ByteRange}
  {imp list item keyword last site : Site} {before after kept gap rest more : List Site}
  {diagnostic : Diagnostic} {gone : List Token} {change : ByteRange} {code : LintCode}
  {title : String}

-- ---------------------------------------------------------------------------
-- The range of a clause
-- ---------------------------------------------------------------------------

/-- What stands behind the range comes to stand behind a comment that ends with its line, where more
than the end of a line comes. -/
def JoinsComment (text : String) (range : ByteRange) : Prop :=
  ∃ front comment gone next back, tokenize text = front ++ comment :: (gone ++ next :: back) ∧
    comment.kind = .lineComment ∧ comment.stop = range.start ∧ next.start = range.stop ∧
    endsLine ((next :: back).map Token.piece) = false

theorem blankStart_of_parts (h : list.parts = (before ++ gap) ++ item :: after)
    (hgap : ∀ place ∈ gap, place.kind = .whitespace)
    (hbefore : ∀ place ∈ before.getLast?, place.kind ≠ .whitespace) :
    ∃ first, (gap ++ [item]).head? = some first ∧ blankStart item = first.start := by
  have hnone : before.reverse.takeWhile (·.kind == .whitespace) = [] := by
    cases hlast : before.reverse with
    | nil => rfl
    | cons place more =>
      rw [List.takeWhile_cons_of_neg]
      have hplace : place ∈ before.getLast? := by
        rw [← List.head?_reverse, hlast]
        rfl
      simpa using hbefore place hplace
  rw [blankStart, Site.partsBefore_of_parts h, List.reverse_append,
    List.takeWhile_append_of_pos fun place hplace => by
      simpa using hgap place (List.mem_reverse.mp hplace), hnone, List.append_nil,
    List.getLast?_reverse]
  cases gap with
  | nil => exact ⟨item, rfl, rfl⟩
  | cons first gap => exact ⟨first, rfl, rfl⟩

/-- Deleting the range leaves a text that parses, without these tokens and no others that are seen,
unless the range joins a comment with what is behind it. -/
structure CutsOut (text : String) (range : ByteRange) (gone : List Token) : Prop where
  isBoundary_start : (LineIndex.ofText text).IsBoundary range.start
  isBoundary_stop : (LineIndex.ofText text).IsBoundary range.stop
  start_le_stop : range.start ≤ range.stop
  edited : ∃ edited, replaceBytes? text range "" = some edited ∧
    (JoinsComment text range ∨ (parse edited).ok = true ∧ TakesOut text range gone)

/-- A comment in front of what is deleted, with more than the end of a line behind it. -/
theorem joinsComment_of_tokens {comment : Site} {middle back : List Site}
    (h : (Site.root (parse text).tree).tokens = (before ++ [comment]) ++ (middle ++ back))
    (hcomment : comment.kind = .lineComment)
    (hline : endsLine (back.map Site.piece) = false) :
    JoinsComment text ⟨utf8Length (joined ((before ++ [comment]).map Site.piece)),
      utf8Length (joined ((before ++ [comment] ++ middle).map Site.piece))⟩ := by
  have htoken {place : Site} (hplace : place ∈ (Site.root (parse text).tree).tokens) :
      place.tokens = [place] :=
    Site.tokens_token (by simpa using (List.mem_filter.mp hplace).2)
  have hcommentTokens : comment.tokens = [comment] := htoken (by simp [h])
  have hstop : comment.toToken.stop =
      utf8Length (joined ((before ++ [comment]).map Site.piece)) := by
    have hplace : (Site.root (parse text).tree).tokens =
        before ++ (comment.tokens ++ (middle ++ back)) := by simp [h, hcommentTokens]
    rw [← hcommentTokens, ← stop_of_tokens hplace (by simp [hcommentTokens]), Site.stop_eq,
      hcommentTokens]
    simp [Token.stop, Token.length, Site.toToken, joined, Site.piece]
  cases back with
  | nil => cases hline
  | cons next back =>
    have hnextTokens : next.tokens = [next] := htoken (by simp [h])
    have hplace : (Site.root (parse text).tree).tokens =
        (before ++ [comment] ++ middle) ++ (next.tokens ++ back) := by simp [h, hnextTokens]
    have hstart := start_of_tokens hplace (by simp [hnextTokens])
    refine ⟨before.map Site.toToken, comment.toToken, middle.map Site.toToken, next.toToken,
      back.map Site.toToken, ?_, hcomment, hstop, hstart, ?_⟩
    · rw [← map_toToken_parse, h]
      simp
    · rw [← hline, ← List.map_cons, List.map_map]
      rfl

theorem cutsOut_of_clauseParts (h : ClauseParts imp hasAlias kept gap (keyword :: rest) more)
    (hlast : (keyword :: rest).getLast? = some last) (hok : (parse text).ok = true)
    (himp : imp ∈ (Site.root (parse text).tree).children) :
    CutsOut text ⟨blankStart keyword, last.stop⟩
      (((keyword :: rest).flatMap Site.words).map Site.toToken) := by
  have hnode : imp ∈ (Site.root (parse text).tree).nodes := Site.children_subset_nodes himp
  obtain ⟨comments, spaces, rfl, hspaces, hcomments⟩ := exists_trailing_spaces gap
  obtain ⟨items, others, hroot⟩ := List.append_of_mem (List.mem_filter.mp himp).1
  have hparts : imp.parts = (kept ++ comments) ++ ((spaces ++ keyword :: rest) ++ more) := by
    simp [h.parts_eq]
  have hkept : ∀ place ∈ (kept ++ comments).getLast?, place.kind ≠ .whitespace := by
    intro place hplace
    rw [List.getLast?_append] at hplace
    obtain hplace | ⟨-, hplace⟩ := Option.or_eq_some_iff.mp hplace
    · exact hcomments place hplace
    · exact h.kept_last hok hnode place hplace
  have hrow : imp.parts = (kept ++ comments ++ spaces) ++ keyword :: (rest ++ more) := by
    simp [h.parts_eq]
  obtain ⟨first, hfirst, hblank⟩ := blankStart_of_parts hrow hspaces hkept
  have hfirst' : (spaces ++ keyword :: rest).head? = some first := by
    rw [← hfirst]
    cases spaces <;> rfl
  have hlast' : (spaces ++ keyword :: rest).getLast? = some last := by
    rw [List.getLast?_append, hlast, Option.some_or]
  have htokens : (Site.root (parse text).tree).tokens =
      (items.flatMap Site.tokens ++ (kept ++ comments).flatMap Site.tokens) ++
        ((spaces ++ keyword :: rest).flatMap Site.tokens ++
          (more.flatMap Site.tokens ++ others.flatMap Site.tokens)) := by
    have hrootNode : (Site.root (parse text).tree).tree.isNode = true := by
      obtain ⟨trees, htree, -⟩ := parse_eq text
      exact congrArg Tree.isNode htree
    rw [Site.tokens_node hrootNode, hroot, List.flatMap_append, List.flatMap_cons,
      Site.tokens_node (List.mem_filter.mp hnode).2, hparts]
    simp
  have hgone : (spaces ++ keyword :: rest).flatMap Site.words =
      (keyword :: rest).flatMap Site.words := by
    rw [List.flatMap_append, flatMap_words_gap hok hnode (by simp +contextual [hparts])
      fun place hplace => h.gap_trivia place (List.mem_append_right _ hplace), List.nil_append]
  rw [hblank, range_of_parts hok hnode hparts hfirst' hlast' htokens]
  have hsafe (hjoins : ¬ JoinsComment text ⟨utf8Length (joined ((items.flatMap Site.tokens ++
        (kept ++ comments).flatMap Site.tokens).map Site.piece)), utf8Length (joined ((
        items.flatMap Site.tokens ++ (kept ++ comments).flatMap Site.tokens ++
          (spaces ++ keyword :: rest).flatMap Site.tokens).map Site.piece))⟩) :
      (∀ place ∈ comments.getLast?, place.kind ≠ .lineComment) ∨
        endsLine ((more.flatMap Site.tokens ++ others.flatMap Site.tokens).map Site.piece) =
          true := by
    by_contra hunsafe
    obtain ⟨hcomment, hline⟩ := not_or.mp hunsafe
    push Not at hcomment
    obtain ⟨comment, hlast, hkind⟩ := hcomment
    obtain ⟨inside, rfl⟩ := List.getLast?_eq_some_iff.mp (Option.mem_def.mp hlast)
    have hcommentTokens : comment.tokens = [comment] :=
      tokens_of_part hok hnode (by simp [hparts]) (by rw [hkind]; rfl)
    have hsplit : items.flatMap Site.tokens ++ (kept ++ (inside ++ [comment])).flatMap Site.tokens =
        (items.flatMap Site.tokens ++ (kept ++ inside).flatMap Site.tokens) ++ [comment] := by
      simp [hcommentTokens]
    rw [hsplit] at htokens hjoins
    exact hjoins (joinsComment_of_tokens htokens hkind (by simpa using hline))
  generalize hfront : items.flatMap Site.tokens ++ (kept ++ comments).flatMap Site.tokens = front
    at htokens hsafe ⊢
  generalize hback : more.flatMap Site.tokens ++ others.flatMap Site.tokens = back
    at htokens hsafe
  refine ⟨isBoundary_of_tokens htokens, isBoundary_of_tokens (htokens.trans
    (List.append_assoc ..).symm), ?_, _, replaceBytes?_tokens htokens "", ?_⟩
  · rw [List.map_append, joined_append, utf8Length_append]
    exact Nat.le_add_right _ _
  · refine or_iff_not_imp_left.mpr fun hjoins => ?_
    obtain ⟨hedited, hkeeps⟩ :=
      h.ok_and_keeps hok hnode hroot hspaces hcomments hfront.symm hback.symm (hsafe hjoins)
    refine ⟨by simpa using hedited, ?_⟩
    rw [← hgone]
    have htakes := takesOut_of_keeps htokens hkeeps
    rwa [List.filter_flatMap] at htakes

-- ---------------------------------------------------------------------------
-- Finding the clause
-- ---------------------------------------------------------------------------

theorem nodeAt?_eq (hkinds : AreApart kinds) (hsite : site ∈ (Site.root (parse text).tree).nodes)
    (hkind : site.kind ∈ kinds)
    (hrange : site.significantRange.start < site.significantRange.stop) :
    nodeAt? (.root (parse text).tree) site.significantRange kinds = some site := by
  rw [nodeAt?, if_pos hrange]
  have hmem : site ∈ (Site.root (parse text).tree).nodes.filter fun s =>
      kinds.contains s.kind && s.significantRange == site.significantRange :=
    List.mem_filter.mpr ⟨hsite, by simp [hkind]⟩
  obtain ⟨others, last, hall⟩ :=
    (List.eq_nil_or_concat' _).resolve_left (List.ne_nil_of_mem hmem)
  have hlast := List.getLast?_eq_some_iff.mpr ⟨others, hall⟩
  rw [hlast]
  obtain ⟨hnode, hsame⟩ := List.mem_filter.mp (List.mem_of_getLast? hlast)
  simp only [Bool.and_eq_true, List.contains_iff_mem, beq_iff_eq] at hsame
  rw [eq_of_significantRange (isParsed_parse text) (isFile_parse text) hkinds hnode hsame.1 hsite
    hkind hsame.2]

/-- The fix of the diagnostic deletes one range. What is left parses and has lost these tokens, and
no others that are seen, unless the range joins a comment with what is behind it. -/
def FixDeletes (d : Document) (diagnostic : Diagnostic) (gone : List Token) : Prop :=
  ∃ fix edit range edited, find d diagnostic = .offer fix ∧ fix.edits = [edit] ∧
    d.lineIndex.range? edit.span = some range ∧ TextEdit.apply? edit d.text = some edited ∧
    (JoinsComment d.text range ∨ (parse edited).ok = true ∧
      ∃ front back, seenTokens d.text = front ++ (gone ++ back) ∧
        (seenTokens edited).map Token.piece = (front ++ back).map Token.piece)

section Found

variable {uri : FileUri} {writable : Bool} {made : Change} {edited : String}

/-- The change becomes an edit unless it is inverted. -/
theorem find_of_change (hcode : diagnostic.code = code.name)
    (hrange : (LineIndex.ofText text).range? diagnostic.span = some range)
    (hchange : change? (.root (parse text).tree) code range = some (title, made)) :
    find (.ofText uri text writable) diagnostic =
      match (LineIndex.ofText text).span? made.range with
      | some span => .offer ⟨title, uri, [⟨span, made.newText⟩], diagnostic⟩
      | none => .inverted := by
  have hindex : (Document.ofText uri text writable).lineIndex = .ofText text := rfl
  have hroot : (Document.ofText uri text writable).file.root = .root (parse text).tree := rfl
  rw [find, hindex, hroot, hcode, LintCode.ofName?_name, hrange]
  simp only [Option.bind_eq_bind, Option.bind_some, hchange]
  rfl

/-- A change between characters of the text is offered, and its edit applies. -/
theorem exists_offer (hcode : diagnostic.code = code.name)
    (hrange : (LineIndex.ofText text).range? diagnostic.span = some range)
    (hchange : change? (.root (parse text).tree) code range = some (title, made))
    (hstart : (LineIndex.ofText text).IsBoundary made.range.start)
    (hstop : (LineIndex.ofText text).IsBoundary made.range.stop)
    (hle : made.range.start ≤ made.range.stop)
    (hedited : replaceBytes? text made.range made.newText = some edited) :
    ∃ fix edit, find (.ofText uri text writable) diagnostic = .offer fix ∧ fix.edits = [edit] ∧
      edit.newText = made.newText ∧
      (LineIndex.ofText text).range? edit.span = some made.range ∧
      TextEdit.apply? edit text = some edited := by
  obtain ⟨span, hspan, hback⟩ := LineIndex.range?_of_isBoundary hstart hstop hle
  refine ⟨⟨title, uri, [⟨span, made.newText⟩], diagnostic⟩, ⟨span, made.newText⟩, ?_, rfl, rfl,
    hback, ?_⟩
  · rw [find_of_change hcode hrange hchange, hspan]
  · rw [ TextEdit.apply?]
    exact (congrArg (Option.bind · _) hback).trans hedited

theorem fixDeletes_of_cutsOut (hcode : diagnostic.code = code.name)
    (hrange : (LineIndex.ofText text).range? diagnostic.span = some range)
    (hchange : change? (.root (parse text).tree) code range = some (title, ⟨change, ""⟩))
    (hcut : CutsOut text change gone) :
    FixDeletes (.ofText uri text writable) diagnostic gone := by
  obtain ⟨hstart, hstop, hle, edited, hedited, hleft⟩ := hcut
  obtain ⟨fix, edit, hfix, hedits, -, hback, happly⟩ :=
    exists_offer hcode hrange hchange hstart hstop hle hedited
  refine ⟨fix, edit, change, edited, hfix, hedits, hback, happly,
    hleft.imp_right fun ⟨hok, htakes⟩ => ⟨hok, ?_⟩⟩
  obtain ⟨edited', front, back, hedited', hseen, hkept⟩ := htakes
  obtain rfl := Option.some.inj (hedited'.symm.trans hedited)
  exact ⟨front, back, hseen, hkept⟩

end Found

section Reported

variable {fields : String → Option (List String)} {uri : FileUri} {writable : Bool}
  {disabled : List LintCode}

/-- The finding that a diagnostic of the code stands for. -/
theorem exists_finding_of_code {check : Subject → List Finding}
    (hcheck : (check, code.checkNumber) ∈ checks.zipIdx) (hcode : diagnostic.code = code.name)
    (h : diagnostic ∈ (Document.ofText uri text writable).lint fields disabled) :
    ∃ f ∈ check (.ofTree (parse text).tree fields), f.code = code ∧
      Lint.StandsFor text diagnostic f ∧ f.range.start < f.range.stop := by
  obtain ⟨f, hf, hstands⟩ := exists_finding_of_mem_lintTree h
  have hcode' : f.code = code := LintCode.name_injective (hstands.code_eq.symm.trans hcode)
  have hbounds := (marks_of_mem_findings (isParsed_parse text) hf).bounds
    (isParsed_parse text).spelled
  exact ⟨f, (mem_findings_iff (isParsed_parse text) hcheck).mpr ⟨hf, by rw [hcode']⟩, hcode',
    hstands, hbounds.2.1⟩

variable (hok : (parse text).ok = true)
  (h : diagnostic ∈ (Document.ofText uri text writable).lint fields disabled)
include hok h

/-- The fix of an unused alias takes out the alias. -/
theorem fixDeletes_alias (hcode : diagnostic.code = LintCode.unusedAlias.name) :
    ∃ imp ∈ (Site.root (parse text).tree).childrenOf .importClause,
      ∃ clause ∈ imp.childrenOf .asClause,
        (LineIndex.ofText text).range? diagnostic.span = some clause.significantRange ∧
        FixDeletes (.ofText uri text writable) diagnostic (clause.words.map Site.toToken) := by
  have hcheck : (unusedAliases, LintCode.unusedAlias.checkNumber) ∈ checks.zipIdx := by
    simp [checks, LintCode.checkNumber]
  obtain ⟨f, hf, -, hstands, hbounds⟩ := exists_finding_of_code hcheck hcode h
  obtain ⟨i, hi, hf⟩ := List.mem_filterMap.mp hf
  obtain ⟨clause, hclause, -, hrange⟩ := unusedAlias?_eq_some hf
  obtain ⟨hchild, hnode, hkind⟩ := mem_nodes_of_aliasClause hi hclause
  obtain ⟨imp, himp, rfl⟩ := exists_import_site hi
  obtain ⟨hitem, himpKind⟩ := mem_childrenOf himp
  have hclauseKind := List.mem_singleton.mp hkind
  obtain ⟨kept, gap, more, hparts⟩ := exists_aliasParts hok (Site.children_subset_nodes hitem)
    himpKind (List.mem_filter.mp hchild).1 hclauseKind
  rw [hrange] at hbounds
  have hfound := nodeAt?_eq areApart_asClause hnode hkind hbounds
  have hchange : change? (.root (parse text).tree) .unusedAlias clause.significantRange =
      some ("Remove unused alias", ⟨⟨blankStart clause, clause.stop⟩, ""⟩) := by
    rw [change?, removeAlias?, hfound]
    rfl
  have hspan := hrange ▸ hstands.range?_eq
  refine ⟨imp, himp, clause, List.mem_filter.mpr ⟨hchild, by simp [hclauseKind]⟩, hspan,
    fixDeletes_of_cutsOut hcode hspan hchange ?_⟩
  have hcut := cutsOut_of_clauseParts hparts rfl hok hitem
  rwa [List.flatMap_singleton] at hcut

/-- The fix of an unused item that is the only one of its list takes out the list and the keyword in
front of it. -/
theorem fixDeletes_onlyItem (hcode : diagnostic.code = LintCode.unusedImportedValue.name) :
    ∃ imp ∈ (Site.root (parse text).tree).childrenOf .importClause,
      ∃ list ∈ imp.childrenOf .exposingList, ∃ item ∈ list.children,
        (LineIndex.ofText text).range? diagnostic.span = some item.significantRange ∧
        (list.children = [item] → ∃ keyword ∈ imp.parts, keyword.kind = .exposingKw ∧
          FixDeletes (.ofText uri text writable) diagnostic
            ((keyword :: list.words).map Site.toToken)) := by
  have hcheck : (unusedImportedValues, LintCode.unusedImportedValue.checkNumber) ∈
      checks.zipIdx := by
    simp [checks, LintCode.checkNumber]
  obtain ⟨f, hf, hfCode, hstands, hbounds⟩ := exists_finding_of_code hcheck hcode h
  obtain ⟨i, hi, -, item, hentry, -, hrange⟩ :=
    (exists_mem_unusedImportedValues (isFile_parse text)).mp ⟨f, hf, hfCode, rfl⟩
  obtain ⟨-, ⟨list, hlist, hitem⟩, hnode, hkind⟩ := mem_nodes_of_mem_entries hi hentry
  obtain ⟨imp, himp, rfl⟩ := exists_import_site hi
  obtain ⟨himpItem, himpKind⟩ := mem_childrenOf himp
  have himpNode : imp ∈ (Site.root (parse text).tree).nodes := Site.children_subset_nodes himpItem
  replace hlist : list ∈ imp.children := hlist
  have hlistKind : list.kind = .exposingList := by
    have hparts : ∀ kind ∈ Kind.parts .importClause,
        ∀ item ∈ [Kind.exposedValue, .exposedType, .exposedOperator], item ∈ kind.parts →
          kind = .exposingList := by decide
    have hfile := isFile_parse text
    refine hparts _ ?_ _ hkind (hfile.kind_mem_parts
      (Site.mem_nodes_of_mem_children himpNode hlist) hitem)
    exact himpKind ▸ hfile.kind_mem_parts himpNode hlist
  have hspan := hrange ▸ hstands.range?_eq
  refine ⟨imp, himp, list, List.mem_filter.mpr ⟨hlist, by simp [hlistKind]⟩, item.site, hitem,
    hspan, fun honly => ?_⟩
  obtain ⟨hasAlias, kept, gap, keyword, gap', hparts, hkeyword, hgap'⟩ :=
    exists_listParts hok himpNode himpKind (List.mem_filter.mp hlist).1 hlistKind
  have hkeywordKind : keyword.kind = .exposingKw := by simpa using List.find?_some hkeyword
  have hkeywordMem := List.mem_of_find?_eq_some hkeyword
  have hchange : change? (.root (parse text).tree) .unusedImportedValue item.site.significantRange =
      some ("Remove unused exposed value", ⟨⟨blankStart keyword, list.stop⟩, ""⟩) := by
    have hfound := nodeAt?_eq areApart_exposedItem hnode hkind (hrange ▸ hbounds)
    have hparent : item.site.parentOf? [.exposingList] = some list := by
      rw [Site.parentOf?, Site.parent?_of_mem_children hitem,
        Option.filter_some_pos (by simp [hlistKind])]
    have hparent' : list.parentOf? [.importClause] = some imp := by
      rw [Site.parentOf?, Site.parent?_of_mem_children hlist,
        Option.filter_some_pos (by simp [himpKind])]
    have hfew : ¬ 1 < (list.children.filter (·.kind.isExposedItem)).length := by
      have hlength := List.length_filter_le (·.kind.isExposedItem) list.children
      rw [honly, List.length_singleton] at hlength
      rw [honly]
      omega
    rw [change?, removeExposed?, hfound]
    simp only [Option.bind_eq_bind, Option.bind_some, hparent, hparent', if_neg hfew, hkeyword]
    rfl
  refine ⟨keyword, hkeywordMem, hkeywordKind, fixDeletes_of_cutsOut hcode hspan hchange ?_⟩
  have hlast : (keyword :: (gap' ++ [list])).getLast? = some list := by
    rw [← List.cons_append, List.getLast?_concat]
  have hcut := cutsOut_of_clauseParts hparts hlast hok himpItem
  have hkeywordWords : keyword.words = [keyword] := by
    rw [Site.words, tokens_of_part hok himpNode hkeywordMem (by rw [hkeywordKind]; rfl)]
    exact List.filter_cons_of_pos (by rw [hkeywordKind]; rfl)
  have hwords : (keyword :: (gap' ++ [list])).flatMap Site.words = keyword :: list.words := by
    have hgapParts : ∀ place ∈ gap', place ∈ imp.parts := fun place hplace => by
      simp [hparts.parts_eq, hplace]
    rw [List.flatMap_cons, hkeywordWords, List.flatMap_append,
      flatMap_words_gap hok himpNode hgapParts hgap', List.nil_append, List.flatMap_singleton,
      List.singleton_append]
  rwa [hwords] at hcut

/-- For the alias of an import that is unused, and for an unused item that is the only one of its
list, there is a fix, and it takes the alias, or the list with its keyword, out of the text. What is
left parses, and of the tokens that are seen only those are gone, unless the range joins a comment
with what is behind it. -/
theorem importFix_deletes :
    (diagnostic.code = LintCode.unusedAlias.name →
      ∃ imp ∈ (Site.root (parse text).tree).childrenOf .importClause,
        ∃ clause ∈ imp.childrenOf .asClause,
          (LineIndex.ofText text).range? diagnostic.span = some clause.significantRange ∧
          FixDeletes (.ofText uri text writable) diagnostic (clause.words.map Site.toToken)) ∧
    (diagnostic.code = LintCode.unusedImportedValue.name →
      ∃ imp ∈ (Site.root (parse text).tree).childrenOf .importClause,
        ∃ list ∈ imp.childrenOf .exposingList, ∃ item ∈ list.children,
          (LineIndex.ofText text).range? diagnostic.span = some item.significantRange ∧
          (list.children = [item] → ∃ keyword ∈ imp.parts, keyword.kind = .exposingKw ∧
            FixDeletes (.ofText uri text writable) diagnostic
              ((keyword :: list.words).map Site.toToken))) :=
  ⟨fixDeletes_alias hok h, fixDeletes_onlyItem hok h⟩

end Reported

theorem importFix_deletes_behindComment :
    ∃ diagnostic ∈ (Document.ofText default "import A -- c\n  as B\n\nx = 1\n" true).lint
        (fun _ => none) [],
      diagnostic.code = LintCode.unusedAlias.name ∧
      ∃ imp ∈
          (Site.root (parse "import A -- c\n  as B\n\nx = 1\n").tree).childrenOf .importClause,
        ∃ clause ∈ imp.childrenOf .asClause,
          (LineIndex.ofText "import A -- c\n  as B\n\nx = 1\n").range? diagnostic.span =
            some clause.significantRange ∧
          FixDeletes (.ofText default "import A -- c\n  as B\n\nx = 1\n" true) diagnostic
            (clause.words.map Site.toToken) := by
  have hsome : (((Document.ofText default "import A -- c\n  as B\n\nx = 1\n" true).lint
      (fun _ => none) []).find? (·.code == LintCode.unusedAlias.name)).isSome = true := by
    decide +kernel
  obtain ⟨diagnostic, hfind⟩ := Option.isSome_iff_exists.mp hsome
  have hmem := List.mem_of_find?_eq_some hfind
  have hcode : diagnostic.code = LintCode.unusedAlias.name := by simpa using List.find?_some hfind
  exact ⟨diagnostic, hmem, hcode, (importFix_deletes (by decide +kernel) hmem).1 hcode⟩

-- The list of exposed items is put behind the comment.
example :
    let text := "import A -- c\n  as B exposing (y)\n\nx = y\n"
    let d := Document.ofText default text true
    ((offers d (d.lint (fun _ => none) [])).flatMap (·.edits)).map ( TextEdit.apply? · text) =
      [some "import A -- c exposing (y)\n\nx = y\n"] := by
  decide +kernel

end ElmLint.QuickFix

import ElmLint.Proofs.Syntax.AcceptedExpressions
import ElmLint.Proofs.Syntax.Written

/-!
# Sentences parse

Every sentence of the grammar of expressions, written on one line, is the right side of a
declaration that parses without errors and takes all of the text up.
-/

namespace ElmLint.Syntax

open Cursor Grammar

variable {c : Cursor} {signs : List Sign} {written spaces : List Char} {words : List Seen}
  {name equals : Seen} {text : String}

-- ---------------------------------------------------------------------------
-- The declaration
-- ---------------------------------------------------------------------------

/-- The words of `x = ` and an expression. -/
def declared (signs : List Sign) : List Sign :=
  ⟨.lowerIdent, "x", true⟩ :: ⟨.eq, "=", false⟩ :: signs

theorem isToken_name (isAttached : Bool) :
    Sign.IsToken ⟨.lowerIdent, "x", isAttached⟩ .lowerIdent where
  kind_eq := rfl
  tokenize_eq := show tokenize "x" = [⟨.lowerIdent, "x", 0⟩] by decide
  oneLine := show '\n' ∉ "x".toList by decide

theorem isToken_equals : Sign.IsToken ⟨.eq, "=", false⟩ .eq where
  kind_eq := rfl
  tokenize_eq := by decide
  oneLine := by decide

theorem isSentence_declared (h : Derives (Form.rule .expression) signs) :
    IsSentence (declared signs) := by
  have hsentence := isSentence_of_derives h
  obtain ⟨sign, more, rfl, -, hspaced⟩ := h.begins (beginsWith_rule .expression)
  have hjoins : Joins ⟨.eq, "=", false⟩ sign := by
    intro hattached
    rw [hspaced] at hattached
    cases hattached
  refine ⟨⟨List.forall_mem_cons.mpr ⟨⟨rfl, isToken_name true⟩,
    List.forall_mem_cons.mpr ⟨⟨rfl, isToken_equals⟩, hsentence.tokens⟩⟩, ?_⟩, hsentence.ends⟩
  exact .cons_cons nofun (.cons_cons hjoins hsentence.chain)

theorem isWritten_declared (h : IsWritten signs written) :
    IsWritten (declared signs) ('x' :: ' ' :: '=' :: written) := by
  have hspace : ∀ c ∈ [' '], isSpace c = true ∧ c ≠ '\n' :=
    List.forall_mem_singleton.mpr (by decide)
  exact .attached rfl (.spaced rfl (List.cons_ne_nil _ _) hspace h)

/-- The words of the text, in their columns. -/
theorem exists_seen_declared (h : Derives (Form.rule .expression) signs)
    (hwritten : IsWritten signs written) (hspaces : ∀ c ∈ spaces, isSpace c = true)
    (htext : text.toList = 'x' :: ' ' :: '=' :: (written ++ spaces)) :
    ∃ name equals words, (beforeItems text).signs = name :: equals :: words ∧
      name.toSign = ⟨.lowerIdent, "x", true⟩ ∧ equals.toSign = ⟨.eq, "=", false⟩ ∧
      name.column = 0 ∧ Spelt (Form.rule .expression) words ∧ IsLine 0 (equals :: words) := by
  obtain ⟨all, hview, hsigns, hstands⟩ :=
    exists_seen (isWritten_declared hwritten) (isSentence_declared h) hspaces 0
  obtain ⟨name, all, rfl, hname, hmore⟩ := List.map_eq_cons_iff.mp hsigns
  obtain ⟨equals, words, rfl, hequals, hwords⟩ := List.map_eq_cons_iff.mp hmore
  have hcolumn : name.column = 0 := hstands.attached name rfl (by rw [hname])
  refine ⟨name, equals, words, ?_, hname, hequals, hcolumn, ?_, ?_⟩
  · rw [← hview]
    have hsigns := signs_beforeItems text
    rw [htext] at hsigns
    exact hsigns
  · rw [Spelt, hwords]
    exact h
  · have hline := hstands.increasing
    rw [List.map_cons, hcolumn] at hline
    exact hline

theorem takes_declaration (hname : name.toSign = ⟨.lowerIdent, "x", false⟩)
    (hequals : equals.toSign = ⟨.eq, "=", false⟩) (hwords : Spelt (Form.rule .expression) words)
    (hline : IsLine 0 (equals :: words)) :
    Takes (valueDeclaration 0 (expr 0)) (name :: equals :: words) [] := by
  have hleft : Spelt Form.declarationLeft [name] := by
    rw [Spelt, List.map_singleton, hname]
    exact .left (.append (.word (isToken_name false) rfl) (.starNil _))
  have hkind : equals.kind = .eq := congrArg Sign.kind hequals
  have hspaced : equals.isAttached = false := congrArg Sign.isAttached hequals
  rw [← List.append_nil words] at hline
  have hbody : GoesOn (expr 0) words [] :=
    (takes_expr hwords (hline.sublist (List.sublist_cons_self equals _)) (.nil _)).goesOn
      (hwords.begins _ (beginsWith_rule _)).isSpaced
  exact takes_valueDeclaration hleft hkind hspaced hbody hline

theorem atEnd_of_phrase_nil (hc : c.phrase = []) : c.atEnd = true := by
  have h := c.next?_map
  rw [hc] at h
  rw [atEnd, Option.isNone_iff_eq_none]
  exact Option.map_eq_none_iff.mp h

/-- The file is read as the one declaration. -/
theorem behindItems_of_sentence (h : Derives (Form.rule .expression) signs)
    (hwritten : IsWritten signs written) (hspaces : ∀ c ∈ spaces, isSpace c = true)
    (htext : text.toList = 'x' :: ' ' :: '=' :: (written ++ spaces)) :
    behindItems text = (valueDeclaration 0 (expr 0) (beforeItems text)).skipTrivia ∧
      (valueDeclaration 0 (expr 0) (beforeItems text)).errors = [] ∧
      atPattern (beforeItems text) = true := by
  obtain ⟨name, equals, words, hc, hname, hequals, hcolumn, hwords, hline⟩ :=
    exists_seen_declared h hwritten hspaces htext
  rw [behindItems]
  have herrors : (beforeItems text).errors = [] := rfl
  generalize beforeItems text = c at hc herrors ⊢
  have hphrase : c.phrase = { name with isAttached := false } :: equals :: words :=
    congrArg detach hc
  have hnameKind : name.kind = .lowerIdent := congrArg Sign.kind hname
  have hequalsKind : equals.kind = .eq := congrArg Sign.kind hequals
  have hname' : ({ name with isAttached := false } : Seen).toSign = ⟨.lowerIdent, "x", false⟩ := by
    show Sign.mk name.kind name.text false = _
    rw [hname]
  obtain ⟨hsigns, herrors'⟩ := takes_declaration hname' hequals hwords hline c
    (hphrase.trans (List.append_nil _).symm)
  have hend : (valueDeclaration 0 (expr 0) c).atEnd = true :=
    atEnd_of_phrase_nil (phrase_of_signs hsigns nofun)
  have hitem : fileItem c = valueDeclaration 0 (expr 0) c := by
    have htopLevel : topLevelItem c = valueDeclaration 0 (expr 0) c := by
      simp only [topLevelItem, kind?_of_phrase hphrase, secondKind?_of_phrase hphrase, hnameKind,
        List.head?_cons, Option.map_some, hequalsKind]
    rw [fileItem, column?_of_phrase hphrase, hcolumn]
    simp only [beq_self_eq_true, if_true, htopLevel, hend, Bool.not_true, Bool.and_false,
      Bool.false_eq_true, if_false]
  have hstart : c.atEnd = false := by
    have h := c.next?_map
    rw [hphrase] at h
    obtain ⟨t, ht, -⟩ := Option.map_eq_some_iff.mp h
    rw [atEnd, ht]
    rfl
  have hle := c.length_phrase_le
  rw [hphrase] at hle
  obtain ⟨rounds, hrounds⟩ := Nat.exists_eq_succ_of_ne_zero
    (Nat.ne_zero_of_lt (Nat.lt_of_lt_of_le (Nat.succ_pos _) hle))
  refine ⟨?_, herrors'.trans herrors, ?_⟩
  · rw [repeatWhile, hrounds, repeatWhile.go, hstart, repeatWhile.go, hitem, hend]
    rfl
  · rw [atPattern, seesAny_of_phrase hphrase, hnameKind]
    rfl

-- ---------------------------------------------------------------------------
-- Around the declaration
-- ---------------------------------------------------------------------------

theorem PlacedToken.filter_isNode_leaf (tokens : List PlacedToken) :
    (tokens.map leaf).filter (·.isNode) = [] := by
  simp [leaf, Tree.isNode]

theorem filter_leavesOf_trivia (c : Cursor) :
    (Tree.leavesOf (c.trivia.map PlacedToken.leaf)).filter (!·.1.isTrivia) = [] := by
  rw [PlacedToken.leavesOf_leaf, List.filter_eq_nil_iff]
  intro leaf hleaf
  obtain ⟨t, ht, rfl⟩ := List.mem_map.mp hleaf
  have htrivia : t.kind.isTrivia = true := by simpa using List.mem_takeWhile_imp ht
  simp [htrivia]

/-- A file with one node between white space and comments: all significant tokens of the text are
in the node. -/
theorem filter_leaves_node {kind : Kind} {children : List Tree} {front behind : Cursor}
    (htree : (parse text).tree = .node .file (front.trivia.map PlacedToken.leaf ++
      [.node kind children] ++ behind.trivia.map PlacedToken.leaf)) :
    (parse text).tree.children.filter (·.isNode) = [.node kind children] ∧
      (Tree.node kind children).leaves.filter (!·.1.isTrivia) =
        ((tokenize text).filter (!·.kind.isTrivia)).map fun t => (t.kind, t.text) := by
  constructor
  · rw [htree, Tree.children, List.filter_append, List.filter_append,
      PlacedToken.filter_isNode_leaf, PlacedToken.filter_isNode_leaf]
    rfl
  · obtain ⟨items, hitems, -, -, -, hleaves, -⟩ := parse_eq text
    rw [htree] at hitems
    obtain rfl := (Tree.node.inj hitems).2
    have hfilter := congrArg (List.filter (!·.1.isTrivia)) hleaves
    rw [Tree.leavesOf_append, Tree.leavesOf_append, List.filter_append, List.filter_append,
      filter_leavesOf_trivia, filter_leavesOf_trivia, Emits.leavesOf_node, List.nil_append,
      List.append_nil, List.filter_map] at hfilter
    exact hfilter

-- ---------------------------------------------------------------------------
-- Results
-- ---------------------------------------------------------------------------

/-- The parser accepts its grammar: an expression on one line behind `x =` is parsed without errors,
and the only node of the file is a declaration that has all significant tokens of the text. -/
theorem parse_sentence (h : Derives (Form.rule .expression) signs)
    (hwritten : IsWritten signs written) (hspaces : ∀ c ∈ spaces, isSpace c = true)
    (htext : text.toList = 'x' :: ' ' :: '=' :: (written ++ spaces)) :
    (parse text).errors = [] ∧
      ∃ declaration, (parse text).tree.children.filter (·.isNode) = [declaration] ∧
        declaration.kind = .valueDeclaration ∧
        declaration.leaves.filter (!·.1.isTrivia) =
          ((tokenize text).filter (!·.kind.isTrivia)).map fun t => (t.kind, t.text) := by
  obtain ⟨hbehind, herrors, hpattern⟩ := behindItems_of_sentence h hwritten hspaces htext
  have hexpr : ParsesBelow (beforeItems text).rest.length (expr 0) Production.expression :=
    fun c _ => parses_expr 0 c
  obtain ⟨children, hemits, -⟩ := makes_valueDeclaration hexpr 0 (Nat.le_refl _) hpattern
  have hall := hemits.trans (.skipTrivia _)
  rw [← hbehind] at hall
  obtain ⟨hnodes, hleaves⟩ := filter_leaves_node (tree_parse hall)
  refine ⟨?_, _, hnodes, rfl, hleaves⟩
  have hend : (atEndOf text).errors = [] := by
    rw [atEndOf_eq, hbehind, skipTrivia_eq]
    exact herrors
  rw [parse, hend]
  rfl

/-- The sentence `\ a -> - a.b`. -/
def negatedField : List Sign :=
  [⟨.backslash, "\\", false⟩, ⟨.lowerIdent, "a", false⟩, ⟨.arrow, "->", false⟩,
    ⟨.operatorIdent, "-", false⟩, ⟨.lowerIdent, "a", false⟩, ⟨.dot, ".", true⟩,
    ⟨.lowerIdent, "b", true⟩]

theorem derives_negatedField : Derives (Form.rule .expression) negatedField := by
  have hname : Derives (Form.word .lowerIdent) [⟨.lowerIdent, "a", false⟩] :=
    .word ⟨rfl, by decide, by decide⟩ rfl
  have hdot : Derives (Form.attached .dot) [⟨.dot, ".", true⟩] :=
    .attached ⟨rfl, by decide, by decide⟩ rfl
  have hfield : Derives (Form.attached .lowerIdent) [⟨.lowerIdent, "b", true⟩] :=
    .attached ⟨rfl, by decide, by decide⟩ rfl
  have hminus : Derives (Form.operator "-") [⟨.operatorIdent, "-", false⟩] :=
    @Derives.operator ⟨.operatorIdent, "-", false⟩ ⟨rfl, by decide, by decide⟩ rfl
  have hatom : Derives Nonterminal.atom.form _ :=
    .left (.left (.left (.left (.left (.left (.left (.left hname)))))))
  have haccess : Derives Nonterminal.access.form _ :=
    .append (.rule hatom) (.starCons (.append hdot hfield) (.starNil _))
  have hnegation : Derives Nonterminal.negation.form _ := .append hminus (.rule haccess)
  have hbody : Derives Nonterminal.expression.form _ :=
    .append (.rule (.left (.right (.rule hnegation)))) (.starNil _)
  have hparameter : Derives Nonterminal.atomicPattern.form _ :=
    .left (.left (.left (.left (.left (.left (.left (.left (.left hname))))))))
  have hbackslash : Derives (Form.word .backslash) [⟨.backslash, "\\", false⟩] :=
    .word ⟨rfl, by decide, by decide⟩ rfl
  have harrow : Derives (Form.word .arrow) [⟨.arrow, "->", false⟩] :=
    .word ⟨rfl, by decide, by decide⟩ rfl
  have hlambda : Derives Nonterminal.lambda.form _ :=
    .append (.append (.append hbackslash (.append (.rule hparameter) (.starNil _))) harrow)
      (.rule hbody)
  have hoperand : Derives Nonterminal.operand.form _ :=
    .left (.left (.left (.left (.left (.rule hlambda)))))
  have hwhole : Derives Nonterminal.expression.form _ := .append (.rule hoperand) (.starNil _)
  exact .rule hwhole

theorem isWritten_negatedField : IsWritten negatedField " \\ a -> - a.b".toList := by
  have hspace : ∀ c ∈ [' '], isSpace c = true ∧ c ≠ '\n' :=
    List.forall_mem_singleton.mpr (by decide)
  have hne : [' '] ≠ [] := List.cons_ne_nil _ _
  exact .spaced rfl hne hspace (.spaced rfl hne hspace (.spaced rfl hne hspace (.spaced rfl hne
    hspace (.spaced rfl hne hspace (.attached rfl (.attached rfl .nil))))))

theorem parse_negatedField :
    (parse "x = \\ a -> - a.b\n").errors = [] ∧
      ∃ declaration, (parse "x = \\ a -> - a.b\n").tree.children.filter (·.isNode) =
          [declaration] ∧
        declaration.kind = .valueDeclaration ∧
        declaration.leaves.filter (!·.1.isTrivia) =
          ((tokenize "x = \\ a -> - a.b\n").filter (!·.kind.isTrivia)).map
            fun t => (t.kind, t.text) := by
  have hspaces : ∀ c ∈ ['\n'], isSpace c = true := List.forall_mem_singleton.mpr rfl
  exact parse_sentence derives_negatedField isWritten_negatedField hspaces (by decide)

end ElmLint.Syntax

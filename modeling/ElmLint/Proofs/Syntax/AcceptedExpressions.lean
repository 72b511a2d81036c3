import ElmLint.Proofs.Syntax.AcceptedAtoms
import ElmLint.Proofs.Syntax.AcceptedPatterns
import ElmLint.Proofs.Syntax.AcceptedTypes

/-!
# Expressions are accepted

An operand that starts with a keyword or a backslash ends with an expression, so it takes the rest
of a chain along. The chain is read as if it were derived that way.
-/

namespace ElmLint.Syntax

open Cursor Grammar

variable {c : Cursor} {s : Seen} {words more behind v : List Seen} {parts : List (List Seen)}
  {floor bound : Nat} {expr : Nat → Rule}

-- ---------------------------------------------------------------------------
-- First words
-- ---------------------------------------------------------------------------

/-- The words look like an operand to a rule that is about to read them. -/
def LooksLikeOperand (words : List Seen) : Prop :=
  ∀ (c : Cursor) (behind : List Seen), c.phrase = words ++ behind → atOperand c = true

theorem Begins.looksLikeOperand (h : Begins [.backslash, .ifKw, .caseKw, .letKw] words) :
    LooksLikeOperand words := by
  intro c behind hc
  rw [atOperand, h.seesAny hc, Bool.or_true, Bool.true_or]

theorem Spelt.looksLikeOperand (h : Spelt (Form.rule .operand) words) : LooksLikeOperand words := by
  obtain (hnegation | happlication) | hlambda | hif | hcase | hlet := h.operand
  · obtain ⟨minus, w, rfl, hkind, htext, -⟩ := hnegation.negation
    intro c behind hc
    rw [atOperand, seesOperator_of_phrase hc, hkind, htext]
    simp
  · obtain ⟨w, w', rfl, haccess, -⟩ := happlication.rule.mul
    intro c behind hc
    rw [List.append_assoc] at hc
    rw [atOperand, haccess.looksLikeAtom c _ hc, Bool.true_or, Bool.true_or]
  · exact ((hlambda.begins _ (beginsWith_rule _)).mono (by decide)).looksLikeOperand
  · exact ((hif.begins _ (beginsWith_rule _)).mono (by decide)).looksLikeOperand
  · exact ((hcase.begins _ (beginsWith_rule _)).mono (by decide)).looksLikeOperand
  · exact ((hlet.begins _ (beginsWith_rule _)).mono (by decide)).looksLikeOperand

-- ---------------------------------------------------------------------------
-- Chains
-- ---------------------------------------------------------------------------

theorem Spelt.of_parts {form : RegularExpression Symbol} (h : ∀ part ∈ parts, Spelt form part) :
    Spelt (.star form) parts.flatten := by
  induction parts with
  | nil => exact .starNil form
  | cons part parts ih =>
    obtain ⟨hpart, hparts⟩ := List.forall_mem_cons.mp h
    rw [List.flatten_cons, Spelt, List.map_append]
    exact .starCons hpart (ih hparts)

/-- A rule that ends with an expression can take more operators with operands. -/
theorem Spelt.extend {n : Nonterminal} {front : RegularExpression Symbol}
    (hform : n.form = front * Form.rule .expression) (h : Spelt (Form.rule n) words)
    (hparts : ∀ part ∈ parts, Spelt (Form.word .operatorIdent * Form.rule .operand) part) :
    Spelt (Form.rule n) (words ++ parts.flatten) := by
  have hwords := h.rule
  rw [hform] at hwords
  obtain ⟨w, w', rfl, hfront, hexpression⟩ := hwords.mul
  obtain ⟨first, w'', rfl, hfirst, hmore⟩ := hexpression.rule.mul
  obtain ⟨parts', rfl, hparts'⟩ := hmore.star
  have hall : Spelt (.star (Form.word .operatorIdent * Form.rule .operand))
      (parts' ++ parts).flatten :=
    .of_parts fun part hpart => (List.mem_append.mp hpart).elim (hparts' part) (hparts part)
  have heq : w ++ (first ++ parts'.flatten) ++ parts.flatten =
      w ++ (first ++ (parts' ++ parts).flatten) := by simp
  rw [heq, Spelt, List.map_append, List.map_append]
  refine .rule ?_
  rw [hform]
  exact .append hfront (.rule (.append hfirst hall))

/-- The operand ends with an expression. -/
def IsOpen (words : List Seen) : Prop :=
  Spelt (Form.rule .lambda) words ∨ Spelt (Form.rule .ifElse) words ∨
    Spelt (Form.rule .caseOf) words ∨ Spelt (Form.rule .letIn) words

theorem IsOpen.extend (h : IsOpen words)
    (hparts : ∀ part ∈ parts, Spelt (Form.word .operatorIdent * Form.rule .operand) part) :
    IsOpen (words ++ parts.flatten) := by
  obtain h | h | h | h := h
  · exact .inl (h.extend rfl hparts)
  · exact .inr (.inl (h.extend rfl hparts))
  · exact .inr (.inr (.inl (h.extend rfl hparts)))
  · exact .inr (.inr (.inr (h.extend rfl hparts)))

theorem not_atOperator_of_closes (hc : c.phrase = v) (hv : Closes Kind.exprClosers v) :
    atOperator floor c = false := by
  rw [atOperator, sees_of_closes hc hv (by decide), Bool.false_and]

-- ---------------------------------------------------------------------------
-- Declarations
-- ---------------------------------------------------------------------------

/-- What stands left of the equals sign. -/
theorem takes_declarationLeft
    (h : Spelt Form.declarationLeft words)
    (hline : IsLine floor (words ++ behind).tail) (hclose : Closes [.eq] behind) :
    Takes (fun c =>
        if c.sees .lowerIdent then
          Cursor.node .functionDeclarationLeft
            (fun c => repeatWhile (atPatternArgument floor) (parameter floor) c.bump) c
        else Grammar.pattern floor c)
      words behind := by
  obtain hfunction | hpattern := h.add
  · obtain ⟨w, w', rfl, hname, hparameters⟩ := hfunction.mul
    obtain ⟨name, rfl, hkind, -⟩ := hname.word
    obtain ⟨parts, rfl, hparts⟩ := hparameters.star
    have hbegins (part : List Seen) (hpart : part ∈ parts) : Begins Kind.argumentFirsts part :=
      (hparts part hpart).begins _ (beginsWith_rule _)
    have hparameters : GoesOn (repeatWhile (atPatternArgument floor) (parameter floor))
        parts.flatten behind := by
      refine goesOn_arguments hbegins hclose.isSpaced hline (fun c part v hpart hc hline => ?_)
        (fun c hc => ?_) fun part v hpart hline hspaced => ?_
      · rw [atPatternArgument, (hparts part hpart).looksLikePattern_atomic c v hc,
          (hbegins part hpart).not_atLayoutEnd hc hline]
        rfl
      · rw [atPatternArgument, not_atPattern_of_closes hc hclose (by decide), Bool.false_and]
      · exact takes_parameter (hparts part hpart) (hline.sublist (List.tail_sublist _)) hspaced
    refine Takes.ite_pos (.node (.bumped hparameters)) fun c hc => ?_
    rw [sees_of_phrase hc, hkind]
    rfl
  · obtain ⟨hpattern, hapart⟩ := hpattern.ruleApart
    refine (takes_pattern hpattern hline (hclose.mono (by decide))).ite_neg fun c hc => ?_
    obtain ⟨s, more, rfl, -⟩ := hpattern.begins _ (beginsWith_rule _)
    rw [sees_of_phrase hc]
    exact beq_eq_false_iff_ne.mpr (hapart s rfl)

theorem looksLikePattern_declarationLeft
    (h : Spelt Form.declarationLeft words) : LooksLikePattern words := by
  obtain hfunction | hpattern := h.add
  · obtain ⟨w, w', rfl, hname, -⟩ := hfunction.mul
    exact ((hname.begins_word (List.mem_singleton.mpr rfl)).looksLikePattern (by decide)).append w'
  · exact hpattern.ruleApart.1.looksLikePattern

/-- It does not look like an annotation. -/
theorem not_seesBoth_of_declarationLeft
    (h : Spelt Form.declarationLeft words)
    (hc : c.phrase = words ++ v) (hv : Closes [.eq] v) : c.seesBoth .lowerIdent .colon = false := by
  obtain hfunction | hpattern := h.add
  · obtain ⟨w, w', rfl, hname, hparameters⟩ := hfunction.mul
    obtain ⟨name, rfl, -⟩ := hname.word
    obtain ⟨parts, rfl, hparts⟩ := hparameters.star
    have hmore : Closes (.eq :: Kind.argumentFirsts) (parts.flatten ++ v) := by
      refine closes_flatten (fun part hpart => ?_) (hv.mono (by decide))
      exact ((hparts part hpart).begins _ (beginsWith_rule _)).mono (List.subset_cons_self _ _)
    rw [seesBoth, secondKind?_of_phrase hc, Bool.and_eq_false_iff]
    refine .inr (beq_eq_false_iff_ne.mpr fun hsecond => ?_)
    obtain ⟨s, hs, hkind⟩ := Option.map_eq_some_iff.mp hsecond
    have hmem := (hmore s hs).1
    rw [hkind] at hmem
    exact absurd hmem (by decide)
  · obtain ⟨hpattern, hapart⟩ := hpattern.ruleApart
    obtain ⟨s, more, rfl, -⟩ := hpattern.begins _ (beginsWith_rule _)
    rw [seesBoth_of_phrase hc, beq_eq_false_iff_ne.mpr (hapart s rfl), Bool.false_and]

theorem takes_valueDeclaration {expr : Rule}
    (h : Spelt Form.declarationLeft words)
    (hkind : s.kind = .eq) (hspaced : s.isAttached = false) (hbody : GoesOn expr more behind)
    (hline : IsLine floor (words ++ s :: (more ++ behind)).tail) :
    Takes (valueDeclaration floor expr) (words ++ s :: more) behind := by
  have hleft : Takes _ words (s :: more ++ behind) :=
    takes_declarationLeft h hline (closes_cons (by simp [hkind]) hspaced)
  exact .node (hleft.trans (goesOn_expectThen hkind hbody))

-- ---------------------------------------------------------------------------
-- Operands
-- ---------------------------------------------------------------------------

section

variable
  (hexpr : ∀ floor, TakesAll (Form.rule .expression) Kind.exprClosers floor bound (expr floor))
include hexpr

theorem takes_negation (h : Spelt (Form.rule .negation) words) (hlength : words.length ≤ bound + 1)
    (hline : IsLine floor (words ++ behind)) (hspaced : IsSpaced behind) :
    Takes (negation (expr floor)) words behind := by
  obtain ⟨minus, w, rfl, -, -, haccess⟩ := h.negation
  have htake : Takes (access (expr floor)) w behind :=
    takes_access (hexpr floor) haccess (Nat.le_of_succ_le hlength)
      (hline.sublist (List.sublist_cons_self minus _)) hspaced
  have hsees : GoesOn (fun c =>
      if atAtom c then access (expr floor) c else c.error .expectedExpressionAfterMinus) w behind :=
    (htake.ite_pos fun c hc => haccess.looksLikeAtom c behind hc).goesOn
      (haccess.begins _ (beginsWith_rule _)).isSpaced
  exact .node (.bumped hsees)

theorem takes_closedOperand
    (h : Spelt (Form.rule .negation) words ∨ Spelt (Form.rule .application) words)
    (hlength : words.length ≤ bound + 1) (hline : IsLine floor (words ++ behind))
    (hclose : Closes Kind.operandClosers behind) : Takes (operand floor expr) words behind := by
  intro c hc
  unfold operand
  obtain hnegation | happlication := h
  · have htake := takes_negation hexpr hnegation hlength hline hclose.isSpaced c hc
    obtain ⟨minus, w, rfl, hkind, htext, -⟩ := hnegation.negation
    simp only [kind?_of_phrase hc, seesOperator_of_phrase hc, hkind, htext, beq_self_eq_true,
      Bool.and_self, if_true]
    exact htake
  · have htake := takes_application (hexpr floor) happlication hlength hline hclose c hc
    have hbegin := happlication.begins _ (beginsWith_rule _)
    have hminus : c.seesOperator "-" = false :=
      seesOperator_of_closes hc hbegin.closes (by decide) "-"
    obtain ⟨s, more, rfl, hkind, -⟩ := hbegin
    rw [kind?_of_phrase hc]
    split
    case h_5 =>
      rw [hminus]
      exact htake
    all_goals
      rename_i heq
      rw [Option.some.inj heq] at hkind
      exact absurd hkind (by decide)

theorem goesOn_inner (h : Spelt (Form.rule .expression) words) (hlength : words.length ≤ bound)
    (hline : IsLine floor (words ++ behind)) (hclose : Closes Kind.exprClosers behind) :
    GoesOn (expr floor) words behind :=
  (hexpr floor words behind h hlength hline hclose).goesOn (h.begins _ (beginsWith_rule _)).isSpaced

theorem takes_lambda (h : Spelt (Form.rule .lambda) words) (hlength : words.length ≤ bound + 1)
    (hline : IsLine floor (words ++ behind)) (hclose : Closes Kind.exprClosers behind) :
    Takes (lambda floor (expr floor)) words behind := by
  obtain ⟨w, body, rfl, hfront, hbody⟩ := h.rule.mul
  obtain ⟨w, w', rfl, hhead, harrow⟩ := hfront.mul
  obtain ⟨w, w'', rfl, hbackslash, hparameters⟩ := hhead.mul
  obtain ⟨backslash, rfl, -⟩ := hbackslash.word
  obtain ⟨arrow, rfl, hkind, hspaced⟩ := harrow.word
  obtain ⟨first, w, rfl, hfirst, hmore⟩ := hparameters.mul
  obtain ⟨parts, rfl, hparts⟩ := hmore.star
  have hpatterns : ∀ part ∈ first :: parts, Spelt (Form.rule .atomicPattern) part :=
    List.forall_mem_cons.mpr ⟨hfirst, hparts⟩
  have hbegins (part : List Seen) (hpart : part ∈ first :: parts) :
      Begins Kind.argumentFirsts part :=
    (hpatterns part hpart).begins _ (beginsWith_rule _)
  have hwords : [backslash] ++ (first ++ parts.flatten) ++ [arrow] ++ body =
      backslash :: ((first :: parts).flatten ++ (arrow :: body)) := by simp
  rw [hwords] at hlength hline ⊢
  have hline' : IsLine floor ((first :: parts).flatten ++ (arrow :: (body ++ behind))) :=
    hline.sublist (List.IsSuffix.sublist ⟨[backslash], by simp⟩)
  have hclose' : Closes [.arrow] (arrow :: (body ++ behind)) :=
    closes_cons (by simp [hkind]) hspaced
  have hparameters : GoesOn (repeatWhile atPattern (parameter floor)) (first :: parts).flatten
      (arrow :: (body ++ behind)) :=
    goesOn_arguments hbegins hclose'.isSpaced hline'
      (fun c part v hpart hc _ => (hpatterns part hpart).looksLikePattern_atomic c v hc)
      (fun c hc => not_atPattern_of_closes hc hclose' (by decide))
      fun part v hpart hline hspaced =>
        takes_parameter (hpatterns part hpart) (hline.sublist (List.tail_sublist _)) hspaced
  have hbodyLine : IsLine floor (body ++ behind) :=
    hline'.sublist (List.IsSuffix.sublist ⟨(first :: parts).flatten ++ [arrow], by simp⟩)
  have hrest : GoesOn (expectThen .arrow (expr floor)) (arrow :: body) behind :=
    goesOn_expectThen hkind
      (goesOn_inner hexpr hbody (by simp at hlength; omega) hbodyLine hclose)
  have hsees : GoesOn (fun c => if atPattern c then c else c.error .expectedLambdaParameter) []
      ((first :: parts).flatten ++ (arrow :: body) ++ behind) := by
    refine (GoesOn.stay _).ite_pos fun c hc => ?_
    have hphrase := phrase_of_signs hc ?_
    · refine hfirst.looksLikePattern_atomic c (parts.flatten ++ (arrow :: (body ++ behind))) ?_
      simpa using hphrase
    · simpa using (hbegins first List.mem_cons_self).isSpaced
  exact .node (.bumped (hsees.trans (hparameters.trans hrest)))

theorem takes_ifElse (h : Spelt (Form.rule .ifElse) words) (hlength : words.length ≤ bound + 1)
    (hline : IsLine floor (words ++ behind)) (hclose : Closes Kind.exprClosers behind) :
    Takes (ifElse (expr floor)) words behind := by
  obtain ⟨w, last, rfl, hfront, hlast⟩ := h.rule.mul
  obtain ⟨w, w₁, rfl, hfront₁, helse⟩ := hfront.mul
  obtain ⟨w, middle, rfl, hfront₂, hmiddle⟩ := hfront₁.mul
  obtain ⟨w, w₂, rfl, hfront₃, hthen⟩ := hfront₂.mul
  obtain ⟨w, first, rfl, hif, hfirst⟩ := hfront₃.mul
  obtain ⟨ifWord, rfl, -⟩ := hif.word
  obtain ⟨thenWord, rfl, hthenKind, hthenSpaced⟩ := hthen.word
  obtain ⟨elseWord, rfl, helseKind, helseSpaced⟩ := helse.word
  have hwords : [ifWord] ++ first ++ [thenWord] ++ middle ++ [elseWord] ++ last =
      ifWord :: (first ++ (thenWord :: middle) ++ (elseWord :: last)) := by simp
  rw [hwords] at hlength hline ⊢
  have hlength' : first.length + middle.length + last.length ≤ bound := by
    simp at hlength
    omega
  have hfirst' : GoesOn (expr floor) first (thenWord :: middle ++ (elseWord :: last ++ behind)) :=
    goesOn_inner hexpr hfirst (by omega)
      (hline.sublist (List.IsSuffix.sublist ⟨[ifWord], by simp⟩))
      (closes_cons (by rw [hthenKind]; decide) hthenSpaced)
  have hmiddle' : GoesOn (expr floor) middle (elseWord :: last ++ behind) :=
    goesOn_inner hexpr hmiddle (by omega)
      (hline.sublist (List.IsSuffix.sublist ⟨[ifWord] ++ first ++ [thenWord], by simp⟩))
      (closes_cons (by rw [helseKind]; decide) helseSpaced)
  have hlast' : GoesOn (expr floor) last behind :=
    goesOn_inner hexpr hlast (by omega)
      (hline.sublist (List.IsSuffix.sublist
        ⟨[ifWord] ++ first ++ [thenWord] ++ middle ++ [elseWord], by simp⟩)) hclose
  exact .node (.bumped ((hfirst'.trans (goesOn_expectThen hthenKind hmiddle')).trans
    (goesOn_expectThen helseKind hlast')))

/-- One branch, which stands in a block of its own. -/
theorem goesOn_caseBranches (hpattern : Spelt (Form.rule .pattern) words) (hkind : s.kind = .arrow)
    (hspaced : s.isAttached = false) (hbody : Spelt (Form.rule .expression) more)
    (hlength : more.length ≤ bound) (hline : IsLine floor (words ++ s :: (more ++ behind)))
    (hclose : Closes Kind.exprClosers behind) :
    GoesOn (caseBranches floor expr) (words ++ s :: more) behind := by
  intro c hc
  obtain ⟨first, words, rfl, -, hfirstSpaced⟩ := hpattern.begins _ (beginsWith_rule _)
  have hphrase : c.phrase = first :: words ++ (s :: (more ++ behind)) := by
    simpa using phrase_of_signs hc (isSpaced_cons hfirstSpaced)
  have hinside : IsLine first.column (words ++ s :: (more ++ behind)) := hline.tail
  have htake : Takes (Grammar.pattern first.column) (first :: words) (s :: more ++ behind) :=
    takes_pattern hpattern hinside (closes_cons (by rw [hkind]; decide) hspaced)
  have hrest : GoesOn (expectThen .arrow (expr first.column)) (s :: more) behind :=
    goesOn_expectThen hkind (goesOn_inner hexpr hbody hlength
      (hinside.sublist (List.IsSuffix.sublist ⟨words ++ [s], by simp⟩)) hclose)
  have hbranch : Takes (caseBranch first.column (expr first.column)) (first :: words ++ s :: more)
      behind := .node (htake.trans hrest)
  have hpatternAhead : atPattern c = true := hpattern.looksLikePattern c _ hphrase
  have hbranches : GoesOn
      (repeatWhile (fun c => c.column? == some first.column && atPattern c)
        (caseBranch first.column (expr first.column)))
      [first :: words ++ s :: more].flatten behind := by
    refine goesOn_repeatWhile (by simp) (fun part rest hrest c hc => ?_) fun c hc => ?_
    · obtain heq | hnone := List.suffix_cons_iff.mp hrest
      · obtain ⟨rfl, rfl⟩ := List.cons.inj heq
        have hphrase : c.phrase = first :: words ++ s :: more ++ behind :=
          phrase_of_signs hc (isSpaced_cons hfirstSpaced)
        have hpatternAhead : atPattern c = true :=
          hpattern.looksLikePattern c (s :: more ++ behind) (by simpa using hphrase)
        rw [column?_of_phrase hphrase, hpatternAhead, beq_self_eq_true]
        exact ⟨rfl, hbranch c hphrase⟩
      · cases List.suffix_nil.mp hnone
    · rw [not_atPattern_of_closes (phrase_of_signs hc hclose.isSpaced) hclose (by decide),
        Bool.and_false]
  unfold caseBranches
  simp only [column?_of_phrase hphrase, hpatternAhead, hline.head, decide_true, Bool.and_self,
    if_true]
  exact hbranches c (by simpa using hc)

theorem takes_caseOf (h : Spelt (Form.rule .caseOf) words) (hlength : words.length ≤ bound + 1)
    (hline : IsLine floor (words ++ behind)) (hclose : Closes Kind.exprClosers behind) :
    Takes (caseOf floor expr) words behind := by
  obtain ⟨w, body, rfl, hfront, hbody⟩ := h.rule.mul
  obtain ⟨w, w₁, rfl, hfront₁, harrow⟩ := hfront.mul
  obtain ⟨w, pattern, rfl, hfront₂, hpattern⟩ := hfront₁.mul
  obtain ⟨w, w₂, rfl, hfront₃, hof⟩ := hfront₂.mul
  obtain ⟨w, subject, rfl, hcase, hsubject⟩ := hfront₃.mul
  obtain ⟨caseWord, rfl, -⟩ := hcase.word
  obtain ⟨ofWord, rfl, hofKind, hofSpaced⟩ := hof.word
  obtain ⟨arrow, rfl, harrowKind, harrowSpaced⟩ := harrow.word
  have hwords : [caseWord] ++ subject ++ [ofWord] ++ pattern ++ [arrow] ++ body =
      caseWord :: (subject ++ (ofWord :: (pattern ++ arrow :: body))) := by simp
  rw [hwords] at hlength hline ⊢
  have hlength' : subject.length + body.length ≤ bound := by
    simp at hlength
    omega
  have hsubject' : GoesOn (expr floor) subject (ofWord :: (pattern ++ arrow :: body) ++ behind) :=
    goesOn_inner hexpr hsubject (by omega)
      (hline.sublist (List.IsSuffix.sublist ⟨[caseWord], by simp⟩))
      (closes_cons (by rw [hofKind]; decide) hofSpaced)
  have hbranches : GoesOn (caseBranches floor expr) (pattern ++ arrow :: body) behind :=
    goesOn_caseBranches hexpr hpattern harrowKind harrowSpaced hbody (by omega)
      (hline.sublist (List.IsSuffix.sublist ⟨[caseWord] ++ subject ++ [ofWord], by simp⟩)) hclose
  exact .node (.bumped (hsubject'.trans (goesOn_expectThen hofKind hbranches)))

/-- One declaration, which stands in a block of its own. -/
theorem takes_letDeclaration (h : Spelt (Form.rule .declaration) (s :: words))
    (hlength : (s :: words).length ≤ bound) (hline : IsLine s.column (words ++ behind))
    (hclose : Closes [.inKw] behind) :
    Takes (letDeclaration s.column (expr s.column)) (s :: words) behind := by
  obtain hannotation | hvalue := h.rule.add
  · obtain ⟨w, type, heq, hfront, htype⟩ := hannotation.mul
    obtain ⟨w, w', rfl, hname, hcolon⟩ := hfront.mul
    obtain ⟨name, rfl, hkind, -⟩ := hname.word
    obtain ⟨colon, rfl, hcolonKind, -⟩ := hcolon.word
    obtain ⟨rfl, rfl⟩ := List.cons.inj heq
    have htake : Takes (Grammar.type s.column) type behind :=
      takes_type htype (hline.sublist (List.sublist_cons_self colon _)) (hclose.mono (by decide))
    have hrest := (goesOn_expect hcolonKind (type ++ behind)).trans
      (htake.goesOn (htype.begins _ (beginsWith_rule _)).isSpaced)
    refine Takes.ite_pos (.node (.bumped hrest)) fun c hc => ?_
    rw [seesBoth_of_phrase hc, hkind]
    simp [hcolonKind]
  · obtain ⟨w, body, heq, hfront, hbody⟩ := hvalue.mul
    obtain ⟨left, w', rfl, hleft, hequals⟩ := hfront.mul
    obtain ⟨equals, rfl, hkind, hspaced⟩ := hequals.word
    obtain ⟨first, left, rfl, -⟩ := hleft.begins Kind.argumentFirsts (by decide)
    rw [List.append_assoc] at heq
    obtain ⟨rfl, rfl⟩ := List.cons.inj heq
    have hline' : IsLine s.column (left ++ equals :: (body ++ behind)) := by simpa using hline
    have hbody' : GoesOn (expr s.column) body behind :=
      goesOn_inner hexpr hbody (by simp at hlength; omega)
        (hline'.sublist (List.IsSuffix.sublist ⟨left ++ [equals], by simp⟩))
        (hclose.mono (by decide))
    have htake : Takes (valueDeclaration s.column (expr s.column)) (s :: left ++ equals :: body)
        behind :=
      takes_valueDeclaration hleft hkind hspaced hbody' hline'
    have hequals : Closes [.eq] (equals :: body ++ behind) := closes_cons (by simp [hkind]) hspaced
    refine (htake.ite_pos fun c hc => ?_).ite_neg fun c hc => ?_ <;> rw [List.append_assoc] at hc
    · exact looksLikePattern_declarationLeft hleft c _ hc
    · exact not_seesBoth_of_declarationLeft hleft hc hequals

/-- The block of one declaration. -/
theorem goesOn_letBlock (h : Spelt (Form.rule .declaration) words) (hlength : words.length ≤ bound)
    (hline : IsLine floor (words ++ behind)) (hclose : Closes [.inKw] behind) (hne : behind ≠ []) :
    GoesOn (letBlock floor expr) words behind := by
  intro c hc
  have hbegin := h.begins _ (beginsWith_rule _)
  have hnotIn {c : Cursor} (hc : c.phrase = words ++ behind) : c.sees .inKw = false :=
    sees_of_closes hc hbegin.closes (by decide)
  obtain ⟨s, words, rfl, -, hspaced⟩ := hbegin
  have hphrase := phrase_of_signs hc (isSpaced_cons hspaced)
  obtain ⟨hsigns, herrors⟩ := takes_letDeclaration hexpr h hlength hline.tail hclose c hphrase
  have hin : (letDeclaration s.column (expr s.column) c).sees .inKw = true := by
    obtain ⟨word, more, rfl⟩ := List.exists_cons_of_ne_nil hne
    rw [sees_of_signs hsigns]
    exact beq_iff_eq.mpr (List.mem_singleton.mp (hclose word rfl).1)
  have hle := c.length_phrase_le
  rw [hphrase] at hle
  obtain ⟨rounds, hrounds⟩ := Nat.exists_eq_succ_of_ne_zero
    (Nat.ne_zero_of_lt (Nat.lt_of_lt_of_le (Nat.succ_pos _) hle))
  unfold letBlock
  simp only [column?_of_phrase hphrase, hnotIn hphrase, hline.head, decide_true, Bool.not_false,
    Bool.and_self, if_true, hrounds]
  rw [letDeclarations, column?_of_phrase hphrase, hnotIn hphrase, beq_self_eq_true]
  simp only [Bool.not_false, Bool.and_self, if_true, letDeclarations, hin, Bool.not_true,
    Bool.and_false, Bool.false_eq_true, if_false, ite_self]
  exact ⟨hsigns, herrors⟩

theorem takes_letIn (h : Spelt (Form.rule .letIn) words) (hlength : words.length ≤ bound + 1)
    (hline : IsLine floor (words ++ behind)) (hclose : Closes Kind.exprClosers behind) :
    Takes (letIn floor expr) words behind := by
  obtain ⟨w, body, rfl, hfront, hbody⟩ := h.rule.mul
  obtain ⟨w, w₁, rfl, hfront₁, hin⟩ := hfront.mul
  obtain ⟨w, declaration, rfl, hlet, hdeclaration⟩ := hfront₁.mul
  obtain ⟨letWord, rfl, -⟩ := hlet.word
  obtain ⟨inWord, rfl, hkind, hspaced⟩ := hin.word
  have hwords : [letWord] ++ declaration ++ [inWord] ++ body =
      letWord :: (declaration ++ (inWord :: body)) := by simp
  rw [hwords] at hlength hline ⊢
  have hlength' : declaration.length + body.length ≤ bound := by
    simp at hlength
    omega
  have hblock : GoesOn (letBlock floor expr) declaration (inWord :: body ++ behind) :=
    goesOn_letBlock hexpr hdeclaration (by omega)
      (hline.sublist (List.IsSuffix.sublist ⟨[letWord], by simp⟩))
      (closes_cons (by simp [hkind]) hspaced) (List.cons_ne_nil _ _)
  have hbody' : GoesOn (expr floor) body behind :=
    goesOn_inner hexpr hbody (by omega)
      (hline.sublist (List.IsSuffix.sublist ⟨[letWord] ++ declaration ++ [inWord], by simp⟩)) hclose
  exact .node (.bumped (hblock.trans (goesOn_expectThen hkind hbody')))

theorem takes_openOperand (h : IsOpen words) (hlength : words.length ≤ bound + 1)
    (hline : IsLine floor (words ++ behind)) (hclose : Closes Kind.exprClosers behind) :
    Takes (operand floor expr) words behind := by
  intro c hc
  unfold operand
  obtain hlambda | hif | hcase | hlet := h
  · obtain ⟨s, more, rfl, hkind, -⟩ := hlambda.begins [.backslash] rfl
    simp only [kind?_of_phrase hc, List.mem_singleton.mp hkind]
    exact takes_lambda hexpr hlambda hlength hline hclose c hc
  · obtain ⟨s, more, rfl, hkind, -⟩ := hif.begins [.ifKw] rfl
    simp only [kind?_of_phrase hc, List.mem_singleton.mp hkind]
    exact takes_ifElse hexpr hif hlength hline hclose c hc
  · obtain ⟨s, more, rfl, hkind, -⟩ := hcase.begins [.caseKw] rfl
    simp only [kind?_of_phrase hc, List.mem_singleton.mp hkind]
    exact takes_caseOf hexpr hcase hlength hline hclose c hc
  · obtain ⟨s, more, rfl, hkind, -⟩ := hlet.begins [.letKw] rfl
    simp only [kind?_of_phrase hc, List.mem_singleton.mp hkind]
    exact takes_letIn hexpr hlet hlength hline hclose c hc

-- ---------------------------------------------------------------------------
-- Whole expressions
-- ---------------------------------------------------------------------------

/-- An operand takes itself off the front of a chain, or all of the chain. -/
theorem exists_takes_operand (h : Spelt (Form.rule .operand) words)
    (hparts : ∀ part ∈ parts, Spelt (Form.word .operatorIdent * Form.rule .operand) part)
    (hlength : (words ++ parts.flatten).length ≤ bound + 1)
    (hline : IsLine floor (words ++ (parts.flatten ++ behind)))
    (hclose : Closes Kind.exprClosers behind) :
    ∃ (w : List Seen) (parts' : List (List Seen)), words ++ parts.flatten = w ++ parts'.flatten ∧
      parts' <:+ parts ∧ Takes (operand floor expr) w (parts'.flatten ++ behind) := by
  obtain hclosed | hopen := h.operand
  · refine ⟨words, parts, rfl, List.suffix_rfl, takes_closedOperand hexpr hclosed ?_ hline ?_⟩
    · rw [List.length_append] at hlength
      omega
    · refine closes_flatten (fun part hpart => ?_) (hclose.mono (List.subset_cons_self _ _))
      have hbegin : Begins [.operatorIdent] part := (hparts part hpart).begins _ rfl
      exact hbegin.mono (by decide)
  · have hopen : IsOpen words := hopen
    rw [← List.append_assoc] at hline
    exact ⟨words ++ parts.flatten, [], by simp, List.nil_suffix,
      takes_openOperand hexpr (hopen.extend hparts) hlength hline hclose⟩

theorem goesOn_operators
    (hparts : ∀ part ∈ parts, Spelt (Form.word .operatorIdent * Form.rule .operand) part)
    (hlength : parts.flatten.length ≤ bound) (hline : IsLine floor (parts.flatten ++ behind))
    (hclose : Closes Kind.exprClosers behind) {rounds : Nat} (hrounds : parts.length < rounds) :
    GoesOn (operators floor expr rounds) parts.flatten behind := by
  induction rounds generalizing parts with
  | zero => exact (Nat.not_lt_zero _ hrounds).elim
  | succ rounds ih =>
    intro c hc
    cases parts with
    | nil =>
      have hstop : atOperator floor c = false :=
        not_atOperator_of_closes (phrase_of_signs hc hclose.isSpaced) hclose
      rw [operators, if_neg (by simp [hstop])]
      exact ⟨hc, rfl⟩
    | cons part parts =>
      obtain ⟨hpart, hmore⟩ := List.forall_mem_cons.mp hparts
      obtain ⟨w, w', rfl, hoperator, hoperand⟩ := hpart.mul
      obtain ⟨s, rfl, hkind, hspaced⟩ := hoperator.word
      have hline' : IsLine floor (s :: (w' ++ (parts.flatten ++ behind))) := by simpa using hline
      have hphrase : c.phrase = [s] ++ (w' ++ (parts.flatten ++ behind)) := by
        simpa using phrase_of_signs hc (isSpaced_cons hspaced)
      obtain ⟨operand, parts', heq, hsuffix, htake⟩ := exists_takes_operand hexpr hoperand hmore
        (by simp at hlength ⊢; omega) (hline'.sublist (List.sublist_cons_self s _)) hclose
      obtain ⟨hsigns, herrors⟩ := takes_tokenNode .operator s _ c hphrase
      have hspaced' : IsSpaced (w' ++ (parts.flatten ++ behind)) :=
        (hoperand.begins _ (beginsWith_rule _)).isSpaced
      have hnext := phrase_of_signs hsigns hspaced'
      have hat : atOperator floor c = true := by
        rw [atOperator, sees_of_phrase hphrase, hkind, not_atLayoutEnd_of_isLine hphrase hline']
        rfl
      have hatOperand : (atOperand (tokenNode .operator c) &&
          !(tokenNode .operator c).atLayoutEnd floor) = true := by
        rw [hoperand.looksLikeOperand _ _ hnext,
          (hoperand.begins _ (beginsWith_rule _)).not_atLayoutEnd hnext
            (hline'.sublist (List.sublist_cons_self s _))]
        rfl
      rw [operators, if_pos hat]
      simp only [hatOperand, if_true]
      have hnext' : (tokenNode .operator c).phrase = operand ++ (parts'.flatten ++ behind) := by
        rw [hnext, ← List.append_assoc, heq, List.append_assoc]
      obtain ⟨hsigns', herrors'⟩ := htake _ hnext'
      have hle := hsuffix.flatten.length_le
      have hle' := hsuffix.length_le
      rw [List.flatten_cons, List.length_append] at hlength
      rw [List.length_cons] at hrounds
      have hrestLine : IsLine floor (parts'.flatten ++ behind) :=
        hline.sublist (((hsuffix.trans (List.suffix_cons _ _)).flatten.sublist).append_right _)
      obtain ⟨hsigns'', herrors''⟩ := ih (fun part hpart => hmore part (hsuffix.mem hpart))
        (by omega) hrestLine (by omega) _ hsigns'
      exact ⟨hsigns'', herrors''.trans (herrors'.trans herrors)⟩

end

theorem takesAll_exprOver
    (hexpr : ∀ floor, TakesAll (Form.rule .expression) Kind.exprClosers floor bound (expr floor)) :
    TakesAll (Form.rule .expression) Kind.exprClosers floor (bound + 1) (exprOver floor expr) := by
  intro words behind h hlength hline hclose
  obtain ⟨first, w, rfl, hfirst, hmore⟩ := h.rule.mul
  obtain ⟨parts, rfl, hparts⟩ := hmore.star
  rw [List.append_assoc] at hline
  obtain ⟨operand, parts', heq, hsuffix, htake⟩ :=
    exists_takes_operand hexpr hfirst hparts hlength hline hclose
  have hparts' (part : List Seen) (hpart : part ∈ parts') :
      Spelt (Form.word .operatorIdent * Form.rule .operand) part := hparts part (hsuffix.mem hpart)
  have hbegins (part : List Seen) (hpart : part ∈ parts') : Begins [.operatorIdent] part :=
    (hparts' part hpart).begins _ rfl
  have hline' : IsLine floor (parts'.flatten ++ behind) :=
    hline.sublist ((hsuffix.flatten.sublist.append_right _).trans (List.sublist_append_right _ _))
  have hoperators : GoesOn (fun c => operators floor expr (c.rest.length + 1) c) parts'.flatten
      behind := by
    intro c hc
    have hle := hsuffix.flatten.length_le
    have hpos := List.length_pos_iff.mpr (hfirst.begins _ (beginsWith_rule _)).ne_nil
    rw [List.length_append] at hlength
    have hrounds := length_le_length_rest (fun part hpart => (hbegins part hpart).ne_nil) hc
    exact goesOn_operators hexpr hparts' (by omega) hline' hclose (Nat.lt_succ_of_le hrounds) c hc
  refine Takes.ite_pos (.fromHere fun start => ?_) fun c hc => ?_
  · rw [heq]
    refine htake.trans (hoperators.wrapMore (fun part rest hrest c hc => ?_) (fun c hc => ?_) start
      .binOpExpr)
    · subst hrest
      have hbegin := hbegins part List.mem_cons_self
      have hphrase := phrase_of_signs hc hbegin.isSpaced
      rw [atOperator, hbegin.sees hphrase, hbegin.not_atLayoutEnd hphrase
        (hline'.part List.suffix_rfl)]
      rfl
    · exact not_atOperator_of_closes (phrase_of_signs hc hclose.isSpaced) hclose
  · rw [List.append_assoc] at hc
    rw [hfirst.looksLikeOperand c _ hc,
      (hfirst.begins _ (beginsWith_rule _)).not_atLayoutEnd hc hline]
    rfl

theorem takesAll_exprWithin (depth floor : Nat) :
    TakesAll (Form.rule .expression) Kind.exprClosers floor depth (exprWithin depth floor) := by
  induction depth generalizing floor with
  | zero =>
    intro words behind h hlength
    have hpos := List.length_pos_iff.mpr (h.begins _ (beginsWith_rule _)).ne_nil
    omega
  | succ depth ih => exact takesAll_exprOver ih

theorem takes_expr (h : Spelt (Form.rule .expression) words)
    (hline : IsLine floor (words ++ behind)) (hclose : Closes Kind.exprClosers behind) : Takes (Grammar.expr floor) words behind :=
  TakesAll.whole (fun depth => takesAll_exprWithin depth floor) h hline hclose

end ElmLint.Syntax

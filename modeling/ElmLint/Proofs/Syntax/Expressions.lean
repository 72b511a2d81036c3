import ElmLint.Proofs.Syntax.Patterns
import ElmLint.Syntax.Grammar.Expression

/-!
# Expressions follow their productions

An expression inside an expression comes behind a bracket, a separator or a keyword. Expressions
inside one may have another floor, so what is assumed of them is assumed for every floor.
-/

namespace ElmLint.Syntax

open Grammar
open RegularExpression (star)
open Production (one oneOf atLeastOne atomKinds accessKinds operandKinds expressionKinds
  patternKinds)
open scoped Computability

variable {c c' : Cursor} {bound floor : Nat} {expr : Rule}

theorem atAtom_congr (h : c'.ahead = c.ahead) : atAtom c' = atAtom c := by
  simp only [atAtom, Cursor.seesAny, Cursor.seesBoth, Cursor.sees_congr h, Cursor.kind?_congr h,
    Cursor.secondKind?_congr h]

/-- The tokens that an atom may start with. -/
def atomStarts : List Kind :=
  [.lowerIdent, .upperIdent, .number, .string, .char, .lParen, .lBracket, .lBrace, .dot]

theorem atOperand_congr (h : c'.ahead = c.ahead) : atOperand c' = atOperand c := by
  simp only [atOperand, atAtom_congr h, Cursor.seesAny, Cursor.seesOperator, Cursor.kind?_congr h,
    Cursor.next?, h]

theorem kind?_of_atAtom (h : atAtom c = true) : ∃ kind ∈ atomStarts, c.kind? = some kind := by
  rw [atAtom, Bool.or_eq_true] at h
  obtain h | h := h
  · obtain ⟨kind, hmem, hkind⟩ := Cursor.kind?_of_seesAny h
    exact ⟨kind, List.mem_append_left [Kind.dot] hmem, hkind⟩
  · exact ⟨.dot, by decide, (Cursor.kind?_of_seesBoth h).1⟩

theorem atLayoutEnd_congr (h : c'.ahead = c.ahead) :
    c'.atLayoutEnd floor = c.atLayoutEnd floor := by
  simp only [Cursor.atLayoutEnd, Cursor.column?, Cursor.next?, h]

/-! ## Atoms -/

theorem parses_valueSegments (rounds : Nat) (hrounds : c.rest.length < rounds) :
    Parses 0 c 1 (valueSegments rounds c) := by
  induction rounds generalizing c with
  | zero => omega
  | succ rounds ih =>
    rw [valueSegments]
    split
    · rename_i hupper
      have hsegment := (Parses.refl c).segment hupper rfl (by decide)
      have hlt := hsegment.length_le
      exact (hsegment.trans_one (ih (by omega))).weaken (Nat.zero_le _)
    split
    · rename_i hlower
      exact ((Parses.refl c).segment hlower rfl (by decide)).weaken (Nat.zero_le _)
    · exact .refl c

theorem parses_qualifiedValue (hkind : c.kind? = some .upperIdent) :
    Parses 1 c (one .valueExpr) (qualifiedValue c) := by
  unfold qualifiedValue
  split
  · refine .node rfl fun c₀ hahead _ => ?_
    have hqid : Parses 1 c₀ (one .valueQid) _ := .node rfl fun c₁ hahead' _ => by
      have hfirst : Parses 1 c₁ 1 c₁.bump :=
        (Parses.refl c₁).bump ((Cursor.kind?_congr (hahead'.trans hahead)).trans hkind) (by decide)
      exact hfirst.one_trans (parses_valueSegments c₁.rest.length hfirst.length_le)
    exact hqid.mem_oneOf (by decide)
  · refine .node rfl fun c₀ hahead _ => ?_
    exact (parses_upperCaseName ((Cursor.kind?_congr hahead).trans hkind)).mem_oneOf (by decide)

theorem makes_typeSignature (floor : Nat) (hkind : c.kind? = some .lowerIdent) :
    Makes 1 c .typeSignature (typeSignature floor c) := by
  refine makes_node rfl fun c₀ hahead _ => ?_
  have hname : Parses 1 c₀ 1 c₀.bump := .first hahead hkind (by decide)
  exact (hname.expect (by decide)).one_trans (parses_type floor _)

section Nested

variable (hexpr : ParsesBelow bound expr Production.expression)
include hexpr

theorem parses_parenthesizedExpr (hbound : c.rest.length ≤ bound) (hkind : c.kind? = some .lParen) :
    Parses 1 c (oneOf atomKinds) (parenthesizedExpr expr c) := by
  refine .fromHere fun c₀ hahead htoken hle => ?_
  have hopen : Parses 1 c₀ 1 c₀.bump := .first hahead hkind (by decide)
  have hbound₀ : c₀.rest.length ≤ bound := Nat.le_trans hle hbound
  dsimp only
  split
  · rename_i hclose
    exact (hopen.unit htoken (.first hahead hkind) hclose (by decide)).parses
  split
  · rename_i hoperator
    have hboth (c' : Cursor) (hrest : c'.rest = c₀.bump.rest) : Parses 2 c' 1 c'.bump.bump := by
      obtain ⟨hfirst, hsecond⟩ := Cursor.kind?_of_seesBoth hoperator
      have hahead' := Cursor.ahead_congr hrest
      rw [Cursor.kind?_bump, ← Cursor.secondKind?_congr hahead', ← Cursor.kind?_bump] at hsecond
      exact (Parses.first hahead' hfirst (by decide)).bump
        hsecond (by decide)
    exact ((hopen.wrap htoken hboth (one_mul _).le (Nat.succ_pos _) rfl).mem_oneOf
      (by decide)).weaken (by decide)
  · refine ((hopen.one_trans (hopen.nested hexpr hbound₀)).tupleOrGroup htoken hexpr hbound₀ rfl
      le_rfl (by decide) ⟨rfl, rfl⟩ ?_).parses
    exact ⟨fun _ => .of_free rfl, .of_free rfl⟩

theorem parses_listExpr (hbound : c.rest.length ≤ bound) (hkind : c.kind? = some .lBracket) :
    Parses 1 c (one .listExpr) (listExpr expr c) := by
  refine .node rfl fun c₀ hahead hle => ?_
  have hopen : Parses 1 c₀ 1 c₀.bump := .first hahead hkind (by decide)
  exact (hopen.items hexpr (Nat.le_trans hle hbound) (by decide)).mono (one_mul _).le

theorem parsesBelow_field : ParsesBelow bound (field expr) (one .field) :=
  .labelled hexpr rfl (by decide) rfl

theorem parses_recordExpr (hbound : c.rest.length ≤ bound) (hkind : c.kind? = some .lBrace) :
    Parses 1 c (one .recordExpr) (recordExpr expr c) := by
  refine .node rfl fun c₀ hahead hle => ?_
  have hopen : Parses 1 c₀ 1 c₀.bump := .first hahead hkind (by decide)
  have hbase := hopen.one_trans (parses_recordBase c₀.bump)
  exact hbase.items (parsesBelow_field hexpr) (Nat.le_trans hle hbound) (by decide)

theorem parses_atom (hbound : c.rest.length ≤ bound) :
    Parses (atAtom c).toNat c (oneOf atomKinds) (atom expr c) := by
  have hbound' : c.skipTrivia.rest.length ≤ bound :=
    Nat.le_trans (Emits.skipTrivia c).length_le hbound
  refine .skipTrivia ?_
  rw [← atAtom_congr c.ahead_skipTrivia]
  unfold atom
  dsimp only
  split
  case h_1 hkind =>
    refine ((Parses.node rfl fun c₀ hahead _ => ?_).mem_oneOf (by decide)).weaken (Bool.toNat_le _)
    have hname := (Cursor.kind?_congr hahead).trans hkind
    exact (Parses.tokenNode hname (by decide) rfl rfl).mem_oneOf (by decide)
  case h_2 hkind =>
    exact ((parses_qualifiedValue hkind).mem_oneOf (by decide)).weaken (Bool.toNat_le _)
  case h_3 hkind | h_4 hkind | h_5 hkind =>
    exact ((Parses.tokenNode hkind (by decide) rfl rfl).mem_oneOf (by decide)).weaken
      (Bool.toNat_le _)
  case h_6 hkind =>
    refine ((Parses.node rfl fun c₀ hahead _ => ?_).mem_oneOf (by decide)).weaken (Bool.toNat_le _)
    have hdot := (Cursor.kind?_congr hahead).trans hkind
    exact ((Parses.refl c₀).bump hdot (by decide)).expect (by decide)
  case h_7 hkind =>
    exact (parses_parenthesizedExpr hexpr hbound' hkind).weaken (Bool.toNat_le _)
  case h_8 hkind =>
    exact ((parses_listExpr hexpr hbound' hkind).mem_oneOf (by decide)).weaken (Bool.toNat_le _)
  case h_9 hkind =>
    exact ((parses_recordExpr hexpr hbound' hkind).mem_oneOf (by decide)).weaken (Bool.toNat_le _)
  case h_10 =>
    have hnot : atAtom c.skipTrivia = false := by
      rw [Bool.eq_false_iff]
      intro hat
      obtain ⟨kind, hmem, hkind⟩ := kind?_of_atAtom hat
      simp only [atomStarts, List.mem_cons, List.not_mem_nil, or_false] at hmem
      obtain rfl | rfl | rfl | rfl | rfl | rfl | rfl | rfl | rfl := hmem <;> contradiction
    rw [hnot]
    exact (Parses.refl c.skipTrivia).error _

/-! ## Applications -/

/-- Every field that is read makes one node of all there is so far. -/
theorem parses_access (hbound : c.rest.length ≤ bound) :
    Parses (atAtom c).toNat c Production.access (access expr c) := by
  refine .fromHere fun c₀ hahead htoken hle => ?_
  rw [← atAtom_congr hahead]
  -- the invariant is about the whole way from the checkpoint on, which every round wraps
  refine (Cursor.repeatWhile_induction
    (P := (Parses (atAtom c₀).toNat c₀ Production.access ·)) ?_ _ ?_).1
  · intro c' h hmore
    have hsegment (c₁ : Cursor) (hrest : c₁.rest = c'.rest) : Parses 2 c₁ 1 c₁.bump.bump := by
      have htouches : c₁.touches .dot .lowerIdent = true := by
        rwa [Cursor.touches, hrest]
      exact (Parses.refl c₁).segment htouches rfl (by decide)
    refine ⟨((h.wrap htoken hsegment (mul_one _).le (Nat.succ_pos _) rfl).mem_oneOf
      (by decide)).weaken (by omega), ?_⟩
    have hlength := (hsegment (c'.startNodeAt c₀.builder.checkpoint .fieldAccessExpr) rfl).length_le
    exact Nat.lt_of_succ_le (Nat.le_trans (Nat.le_succ _) hlength)
  · exact (parses_atom hexpr (Nat.le_trans hle hbound)).subset (by decide)

theorem parses_argument (hbound : c.rest.length ≤ bound) (hat : atAtom c = true) :
    Parses 1 c Production.access (access expr c) := by
  have hparses := parses_access hexpr hbound
  rwa [hat] at hparses

theorem parses_application (floor : Nat) (hbound : c.rest.length ≤ bound) :
    Parses 0 c Production.operand (application floor expr c) := by
  refine .fromHere fun c₀ hahead htoken hle => ?_
  have hfirst : Parses 0 c₀ Production.access (access expr c₀) :=
    (parses_access hexpr (Nat.le_trans hle hbound)).weaken (Nat.zero_le _)
  have hlength := hfirst.length_le
  dsimp only
  split
  · rename_i hmore
    have harguments (c' : Cursor) (hrest : c'.rest = (access expr c₀).rest) :
        Parses 1 c' (atLeastOne Production.access)
          (c'.repeatWhile (atArgument floor) (access expr)) := by
      have hahead' := Cursor.ahead_congr hrest
      rw [atArgument, ← atAtom_congr hahead', ← atLayoutEnd_congr hahead'] at hmore
      refine .repeatWhile_atLeastOne hmore fun c₁ hle₁ hmore₁ => ?_
      exact parses_argument hexpr (by rw [hrest] at hle₁; omega) (Bool.and_eq_true_iff.mp hmore₁).1
    exact ((hfirst.wrap htoken harguments le_rfl (Nat.succ_pos _) rfl).mem_oneOf (by decide)).weaken
      (Nat.zero_le _)
  · exact hfirst.subset (by decide)

/-! ## Operands with keywords -/

theorem parses_negation (hbound : c.rest.length ≤ bound) (hminus : c.seesOperator "-" = true) :
    Parses 1 c (one .negateExpr) (negation expr c) := by
  refine .node rfl fun c₀ hahead hle => ?_
  have hbump : Parses 1 c₀ 1 c₀.bump :=
    .first hahead (Cursor.kind?_of_seesOperator hminus) (by decide)
  have hlength := hbump.length_le
  dsimp only
  split
  · rename_i hat
    exact (hbump.one_trans (parses_argument hexpr (by omega) hat)).weaken (Nat.le_succ _)
  · exact hbump.error _

theorem parses_lambda (floor : Nat) (hbound : c.rest.length ≤ bound)
    (hkind : c.kind? = some .backslash) :
    Parses 1 c (one .anonymousFunctionExpr) (lambda floor expr c) := by
  refine .node rfl fun c₀ hahead hle => ?_
  have hbump : Parses 1 c₀ 1 c₀.bump := .first hahead hkind (by decide)
  have hparameters : Parses 1 c₀ (atLeastOne Production.atomicPattern)
      (Cursor.repeatWhile atPattern (parameter floor)
        (if atPattern c₀.bump then c₀.bump else c₀.bump.error .expectedLambdaParameter)) := by
    split
    · rename_i hat
      have hfurther : Parses 1 c₀.bump (atLeastOne Production.atomicPattern) _ :=
        .repeatWhile_atLeastOne hat fun _ _ hmore => parses_parameter floor hmore
      exact (hbump.one_trans hfurther).weaken (Nat.le_succ _)
    · have hmissing : Parses 1 c₀ (atLeastOne Production.atomicPattern) _ :=
        hbump.error .expectedLambdaParameter
      refine (hmissing.trans (.repeatWhile_star fun _ _ hmore => parses_parameter floor hmore)).mono
        ?_
      simp only [atLeastOne, RegularExpression.matches'_mul, RegularExpression.matches'_star,
        mul_assoc, kstar_mul_kstar, le_refl]
  exact hparameters.expectThen (by decide) fun harrow =>
    harrow.nested hexpr (Nat.le_trans hle hbound)

theorem parses_ifElse (hbound : c.rest.length ≤ bound) (hkind : c.kind? = some .ifKw) :
    Parses 1 c (one .ifElseExpr) (ifElse expr c) := by
  refine .node rfl fun c₀ hahead hle => ?_
  have hbound₀ : c₀.rest.length ≤ bound := Nat.le_trans hle hbound
  have hbump : Parses 1 c₀ 1 c₀.bump := .first hahead hkind (by decide)
  have hcondition := hbump.one_trans (hbump.nested hexpr hbound₀)
  have hthen : Parses 1 c₀ (Production.expression * Production.expression)
      ((expr c₀.bump).expectThen .thenKw expr) :=
    hcondition.expectThen (by decide) fun h => h.nested hexpr hbound₀
  exact hthen.expectThen (by decide) fun h => h.nested hexpr hbound₀

theorem parses_caseBranch (floor : Nat) (hbound : c.rest.length ≤ bound)
    (hat : atPattern c = true) :
    Parses 1 c (one .caseOfBranch) (caseBranch floor expr c) := by
  refine (makes_spelt fun c₀ hahead hle => ?_).parses
  have hpattern := makesOne_pattern floor c₀
  rw [atPattern_congr hahead, hat] at hpattern
  have hbody (c' : Cursor) (h : Parses 2 c₀ Production.pattern c') :
      Parses 0 c' Production.expression (expr c') := h.nested hexpr (Nat.le_trans hle hbound)
  exact ⟨hpattern.parses.expectThen (by decide) (hbody _),
    .of_writes rfl (hpattern.parses.writes_expectThen hpattern.writes (by decide) (hbody _))⟩

/-! ## Declarations -/

theorem makes_valueDeclaration (floor : Nat) (hbound : c.rest.length ≤ bound)
    (hat : atPattern c = true) :
    Makes 1 c .valueDeclaration (valueDeclaration floor expr c) := by
  refine makes_spelt fun c₀ hahead hle => ?_
  have hleft : MakesOne 1 c₀ (.functionDeclarationLeft :: patternKinds)
      (if c₀.sees .lowerIdent then
        Cursor.node .functionDeclarationLeft
          (fun c => c.bump.repeatWhile (atPatternArgument floor) (parameter floor)) c₀
      else pattern floor c₀) := by
    split
    · rename_i hname
      refine (makes_node rfl fun c₁ hahead' _ => ?_).one (by decide) rfl (Nat.le_refl 1)
      have hbump : Parses 1 c₁ 1 c₁.bump := .first hahead' (Cursor.sees_iff.mp hname) (by decide)
      exact hbump.one_trans (.repeatWhile_star fun _ _ hmore =>
        parses_parameter floor (Bool.and_eq_true_iff.mp hmore).1)
    · have hpattern := makesOne_pattern floor c₀
      rw [atPattern_congr hahead, hat] at hpattern
      exact hpattern.subset (List.subset_cons_self _ _)
  have hbody (c' : Cursor) (h : Parses 2 c₀ (oneOf (.functionDeclarationLeft :: patternKinds)) c') :
      Parses 0 c' Production.expression (expr c') := h.nested hexpr (Nat.le_trans hle hbound)
  exact ⟨hleft.parses.expectThen (by decide) (hbody _),
    .of_writes rfl (hleft.parses.writes_expectThen hleft.writes (by decide) (hbody _))⟩

theorem parses_letDeclaration (floor : Nat) (hbound : c.rest.length ≤ bound) :
    Parses 0 c (oneOf [.typeSignature, .valueDeclaration]) (letDeclaration floor expr c) := by
  unfold letDeclaration
  split
  · rename_i hboth
    have hsignature := makes_typeSignature floor (Cursor.kind?_of_seesBoth hboth).1
    exact (hsignature.parses.mem_oneOf (by decide)).weaken (Nat.zero_le _)
  split
  · rename_i hat
    have hdeclaration := makes_valueDeclaration hexpr floor hbound hat
    exact (hdeclaration.parses.mem_oneOf (by decide)).weaken (Nat.zero_le _)
  · exact (Parses.refl c).error _

/-- At least one declaration comes when one can start at all. -/
theorem parses_letDeclarations (column rounds : Nat) (hrounds : c.rest.length < rounds)
    (hbound : c.rest.length ≤ bound) :
    Parses 0 c (star (oneOf [.typeSignature, .valueDeclaration]))
        (letDeclarations column expr rounds c) ∧
      ((c.column? == some column && !c.sees .inKw) = true →
        Parses 0 c (atLeastOne (oneOf [.typeSignature, .valueDeclaration]))
          (letDeclarations column expr rounds c)) := by
  induction rounds generalizing c with
  | zero => omega
  | succ rounds ih =>
    rw [letDeclarations]
    have hfirst := parses_letDeclaration hexpr column hbound
    have hlength := hfirst.length_le
    split
    · have hsome : Parses 0 c (atLeastOne (oneOf [.typeSignature, .valueDeclaration]))
          (if (letDeclaration column expr c).rest.length = c.rest.length then
            letDeclaration column expr c
          else letDeclarations column expr rounds (letDeclaration column expr c)) := by
        split
        · exact hfirst.mono (le_mul_of_one_le_right' one_le_kstar)
        · rename_i hmoved
          exact hfirst.trans (ih (by omega) (by omega)).1
      exact ⟨hsome.mono mul_kstar_le_kstar, fun _ => hsome⟩
    · rename_i hnot
      exact ⟨(Parses.refl c).mono one_le_kstar, fun h => absurd h hnot⟩

end Nested

section NestedAtFloor

variable {expr : Nat → Rule} (hexpr : ∀ floor, ParsesBelow bound (expr floor) Production.expression)
include hexpr

/-! ## Blocks -/

theorem parses_caseBranches (floor : Nat) (hbound : c.rest.length ≤ bound) :
    Parses 0 c (atLeastOne (one .caseOfBranch)) (caseBranches floor expr c) := by
  unfold caseBranches
  split
  · rename_i column hcolumn
    split
    · rename_i hat
      rw [Bool.and_eq_true] at hat
      refine (Parses.repeatWhile_atLeastOne (by simp [hcolumn, hat.2]) ?_).weaken (Nat.zero_le 1)
      intro c' hle hmore
      exact parses_caseBranch (hexpr column) column (Nat.le_trans hle hbound)
        (Bool.and_eq_true_iff.mp hmore).2
    · exact (Parses.refl c).error _
  · exact (Parses.refl c).error _

theorem parses_caseOf (floor : Nat) (hbound : c.rest.length ≤ bound)
    (hkind : c.kind? = some .caseKw) : Parses 1 c (one .caseOfExpr) (caseOf floor expr c) := by
  refine .node rfl fun c₀ hahead hle => ?_
  have hbump : Parses 1 c₀ 1 c₀.bump := .first hahead hkind (by decide)
  have hsubject := hbump.one_trans (hbump.nested (hexpr floor) (Nat.le_trans hle hbound))
  exact hsubject.expectThen (by decide) fun h =>
    parses_caseBranches hexpr floor (by have := h.length_le; omega)

theorem parses_letBlock (floor : Nat) (hbound : c.rest.length ≤ bound) :
    Parses 0 c (atLeastOne (oneOf [.typeSignature, .valueDeclaration]))
      (letBlock floor expr c) := by
  unfold letBlock
  split
  · rename_i column hcolumn
    split
    · rename_i hat
      rw [Bool.and_eq_true] at hat
      exact (parses_letDeclarations (hexpr column) column _ (Nat.lt_succ_self _) hbound).2
        (by simp [hcolumn, hat.2])
    · exact (Parses.refl c).error _
  · exact (Parses.refl c).error _

theorem parses_letIn (floor : Nat) (hbound : c.rest.length ≤ bound)
    (hkind : c.kind? = some .letKw) : Parses 1 c (one .letInExpr) (letIn floor expr c) := by
  refine .node rfl fun c₀ hahead hle => ?_
  have hbump : Parses 1 c₀ 1 c₀.bump := .first hahead hkind (by decide)
  have hlength := hbump.length_le
  have hblock := hbump.one_trans (parses_letBlock hexpr floor (c := c₀.bump) (by omega))
  exact hblock.expectThen (by decide) fun h => h.nested (hexpr floor) (Nat.le_trans hle hbound)

/-! ## Operands and operators -/

theorem parses_operand (floor : Nat) (hbound : c.rest.length ≤ bound) :
    Parses 0 c Production.operand (operand floor expr c) := by
  unfold operand
  split
  case h_1 hkind =>
    exact ((parses_lambda (hexpr floor) floor hbound hkind).mem_oneOf (by decide)).weaken
      (Nat.zero_le _)
  case h_2 hkind =>
    exact ((parses_ifElse (hexpr floor) hbound hkind).mem_oneOf (by decide)).weaken (Nat.zero_le _)
  case h_3 hkind =>
    exact ((parses_caseOf hexpr floor hbound hkind).mem_oneOf (by decide)).weaken (Nat.zero_le _)
  case h_4 hkind =>
    exact ((parses_letIn hexpr floor hbound hkind).mem_oneOf (by decide)).weaken (Nat.zero_le _)
  case h_5 =>
    split
    · rename_i hminus
      exact ((parses_negation (hexpr floor) hbound hminus).mem_oneOf (by decide)).weaken
        (Nat.zero_le _)
    · exact parses_application (hexpr floor) floor hbound

/-- At least one operator comes when one can start at all. -/
theorem parses_operators (floor rounds : Nat) (hrounds : c.rest.length < rounds)
    (hbound : c.rest.length ≤ bound) :
    Parses 0 c (star (one .operator * Production.operand)) (operators floor expr rounds c) ∧
      (atOperator floor c = true →
        Parses 1 c (atLeastOne (one .operator * Production.operand))
          (operators floor expr rounds c)) := by
  induction rounds generalizing c with
  | zero => omega
  | succ rounds ih =>
    rw [operators]
    split
    · rename_i hat
      have hkind := Cursor.sees_iff.mp (Bool.and_eq_true_iff.mp hat).1
      have hoperator : Parses 1 c (one .operator) (Cursor.tokenNode .operator c) :=
        .tokenNode hkind (by decide) rfl rfl
      have hlength := hoperator.length_le
      have hsome : Parses 1 c (atLeastOne (one .operator * Production.operand))
          (if (atOperand (Cursor.tokenNode .operator c) &&
              !(Cursor.tokenNode .operator c).atLayoutEnd floor) = true then
            operators floor expr rounds (operand floor expr (Cursor.tokenNode .operator c))
          else (Cursor.tokenNode .operator c).error .expectedExpressionAfterOperator) := by
        split
        · have hpair := hoperator.trans (parses_operand hexpr floor (by omega))
          have hlength' := hpair.length_le
          exact hpair.trans (ih (by omega) (by omega)).1
        · exact hoperator.error _
      exact ⟨(hsome.weaken (Nat.zero_le 1)).mono mul_kstar_le_kstar, fun _ => hsome⟩
    · rename_i hnot
      exact ⟨(Parses.refl c).mono one_le_kstar, fun h => absurd h hnot⟩

theorem parses_exprOver (floor : Nat) (hbound : c.rest.length ≤ bound) :
    Parses 0 c Production.expression (exprOver floor expr c) := by
  unfold exprOver
  split
  · refine .fromHere fun c₀ hahead htoken hle => ?_
    have hfirst := parses_operand hexpr floor (Nat.le_trans hle hbound)
    have hlength := hfirst.length_le
    dsimp only
    split
    · rename_i hmore
      have hchain (c' : Cursor) (hrest : c'.rest = (operand floor expr c₀).rest) :
          Parses 1 c' (atLeastOne (one .operator * Production.operand))
            (operators floor expr (c'.rest.length + 1) c') := by
        have hahead' := Cursor.ahead_congr hrest
        rw [atOperator, ← Cursor.sees_congr hahead', ← atLayoutEnd_congr hahead'] at hmore
        exact (parses_operators hexpr floor _ (Nat.lt_succ_self _) (by rw [hrest]; omega)).2 hmore
      exact ((hfirst.wrap htoken hchain le_rfl (Nat.succ_pos _) rfl).mem_oneOf (by decide)).weaken
        (Nat.zero_le 1)
    · exact hfirst.subset (by decide)
  · exact (Parses.refl c).error _

end NestedAtFloor

/-! ## Whole expressions -/

theorem parsesBelow_exprWithin (floor depth : Nat) :
    ParsesBelow depth (exprWithin depth floor) Production.expression := by
  induction depth generalizing floor with
  | zero => exact parsesBelow_zero _ _
  | succ depth ih => exact fun c hc => parses_exprOver ih floor (Nat.le_of_lt_succ hc)

theorem parses_expr (floor : Nat) (c : Cursor) :
    Parses 0 c Production.expression (Grammar.expr floor c) :=
  parsesBelow_exprWithin floor _ c (Nat.lt_succ_self _)

end ElmLint.Syntax

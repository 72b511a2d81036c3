import ElmLint.Proofs.Syntax.Lockstep

/-!
# Comments do not influence parsing

Every rule of the grammar does the same from cursors of the same view, and blanking the comments of
a text leaves its view as it is. So the trees of both texts are the same but for white space and
comments, and the same errors are recorded.
-/

namespace ElmLint.Syntax

open Grammar

variable {type type' pattern pattern' cons cons' expr expr' : Rule}

/-! ## Names -/

theorem agree_upperCaseName : Agree upperCaseName upperCaseName := by
  refine .of_view fun c d h => ?_
  unfold upperCaseName
  rw [Cursor.sees_of_view h]
  split
  · refine agree_node (fun c d => (agree_bump c d).on (agree_repeatWhile ?_ agree_bumpTwice)) c d
    exact fun h => Cursor.touches_of_view h rfl rfl
  · exact agree_error _ c d

/-! ## Types -/

theorem atTypeArgument_of_view {c d : Cursor} (h : c.view = d.view) :
    atTypeArgument c = atTypeArgument d := Cursor.seesAny_of_view h _

theorem atArrow_of_view {c d : Cursor} (h : c.view = d.view) (floor : Nat) :
    atArrow floor c = atArrow floor d := by
  rw [atArrow, atArrow, Cursor.sees_of_view h, Cursor.atLayoutEnd_of_view h]

section Types

variable (htype : Agree type type')
include htype

theorem agree_parenthesizedType : Agree (parenthesizedType type) (parenthesizedType type') := by
  refine agree_fromHere fun c d h => ?_
  dsimp only
  rw [Cursor.sees_of_view (Cursor.view_bump h)]
  split
  · exact (agree_bump c d).wrap agree_bump
  · exact ((agree_bump c d).on htype).tupleOrGroup htype

theorem agree_fieldType : Agree (fieldType type) (fieldType type') := by
  refine .of_view fun c d h => ?_
  unfold fieldType
  rw [Cursor.sees_of_view h]
  split
  · exact agree_node (fun c d => (agree_bump c d).on (agree_expectThen htype)) c d
  · exact agree_error _ c d

omit htype in
theorem agree_recordBase : Agree recordBase recordBase := by
  refine .of_view fun c d h => ?_
  unfold recordBase
  rw [Cursor.seesBoth_of_view h]
  split
  · exact (agree_tokenNode _ c d).on agree_bump
  · exact .refl c d

theorem agree_recordType : Agree (recordType type) (recordType type') :=
  agree_node fun c d => ((agree_bump c d).on agree_recordBase).items (agree_fieldType htype)

theorem agree_typeArgument : Agree (typeArgument type) (typeArgument type') := by
  refine .of_view fun c d h => ?_
  have hskip := agree_skipTrivia c d
  unfold typeArgument
  dsimp only
  rw [Cursor.kind?_of_view (Cursor.view_skipTrivia h)]
  split
  · exact hskip.on (agree_tokenNode _)
  · exact hskip.on (agree_node agree_upperCaseName)
  · exact hskip.on (agree_parenthesizedType htype)
  · exact hskip.on (agree_recordType htype)
  · exact hskip.on (agree_error _)

theorem agree_typeApplication (floor : Nat) :
    Agree (typeApplication floor type) (typeApplication floor type') := by
  refine .of_view fun c d h => ?_
  unfold typeApplication
  rw [Cursor.sees_of_view h]
  split
  · refine agree_node (fun c d => ?_) c d
    refine (agree_upperCaseName c d).on (agree_repeatWhile ?_ (agree_typeArgument htype))
    exact fun h => by rw [atTypeArgument_of_view h, Cursor.atLayoutEnd_of_view h]
  · exact agree_typeArgument htype c d

theorem agree_arrows (floor n m : Nat) :
    Agree (arrows floor type n) (arrows floor type' m) := by
  refine agree_rounds (fun _ => rfl) (fun _ => rfl) (fun n m ih => .of_view fun c d h => ?_) n m
  rw [arrows, arrows, atArrow_of_view h]
  split
  · dsimp only
    rw [atTypeArgument_of_view (Cursor.view_bump h)]
    split
    · exact ((agree_bump c d).on (agree_typeApplication htype floor)).on ih
    · exact (agree_bump c d).on (agree_error _)
  · exact .refl c d

theorem agree_typeOver (floor : Nat) : Agree (typeOver floor type) (typeOver floor type') := by
  refine .of_view fun c d h => ?_
  unfold typeOver
  rw [atTypeArgument_of_view h]
  split
  · refine agree_fromHere (fun c d _ => ?_) c d
    refine (agree_typeApplication htype floor c d).wrapIf ?_ fun c d => ?_
    · exact fun halike => by rw [atArrow_of_view halike.view]
    · exact agree_arrows htype floor _ _ c d
  · exact agree_error _ c d

end Types

theorem agree_type (floor : Nat) : Agree (Grammar.type floor) (Grammar.type floor) := by
  have hwithin (n m : Nat) : Agree (typeWithin floor n) (typeWithin floor m) :=
    agree_rounds (fun _ => rfl) (fun _ => rfl) (fun _ _ ih => agree_typeOver ih floor) n m
  exact fun c d => hwithin _ _ c d

/-! ## Patterns -/

theorem atPattern_of_view {c d : Cursor} (h : c.view = d.view) : atPattern c = atPattern d := by
  rw [atPattern, atPattern, Cursor.seesAny_of_view h, Cursor.seesOperator_of_view h,
    Cursor.secondKind?_of_view h]

theorem atPatternArgument_of_view {c d : Cursor} (h : c.view = d.view) (floor : Nat) :
    atPatternArgument floor c = atPatternArgument floor d := by
  rw [atPatternArgument, atPatternArgument, atPattern_of_view h, Cursor.atLayoutEnd_of_view h]

theorem agree_patternFields (n m : Nat) : Agree (patternFields n) (patternFields m) := by
  refine agree_rounds (fun _ => rfl) (fun _ => rfl) (fun n m ih => .of_view fun c d h => ?_) n m
  rw [patternFields, patternFields, Cursor.sees_of_view h]
  split
  · refine (agree_tokenNode .lowerPattern c d).ite ?_ ((agree_bump _ _).on ih) (.refl _ _)
    exact fun halike => by rw [Cursor.sees_of_view halike.view]
  · exact agree_error _ c d

theorem agree_recordPattern : Agree recordPattern recordPattern :=
  agree_node fun c d =>
    ((agree_bump c d).trans (agree_patternFields _ _ _ _)).on (agree_expect .rBrace)

section Patterns

variable (hpattern : Agree pattern pattern')
include hpattern

theorem agree_parenthesizedPattern :
    Agree (parenthesizedPattern pattern) (parenthesizedPattern pattern') := by
  refine agree_fromHere fun c d h => ?_
  dsimp only
  rw [Cursor.sees_of_view (Cursor.view_bump h)]
  split
  · exact (agree_bump c d).wrap agree_bump
  · exact ((agree_bump c d).on hpattern).tupleOrGroup hpattern

theorem agree_listPattern : Agree (listPattern pattern) (listPattern pattern') :=
  agree_node fun c d => (agree_bump c d).items hpattern

theorem agree_atomicPattern : Agree (atomicPattern pattern) (atomicPattern pattern') := by
  refine .of_view fun c d h => ?_
  have hskip := agree_skipTrivia c d
  have hview := Cursor.view_skipTrivia h
  unfold atomicPattern
  dsimp only
  rw [Cursor.kind?_of_view hview, Cursor.seesOperator_of_view hview]
  split
  · exact hskip.on (agree_tokenNode _)
  · exact hskip.on (agree_tokenNode _)
  · exact hskip.on (agree_node agree_upperCaseName)
  · exact hskip.on (agree_tokenNode _)
  · exact hskip.on (agree_tokenNode _)
  · exact hskip.on (agree_tokenNode _)
  · exact hskip.on (agree_parenthesizedPattern hpattern)
  · exact hskip.on (agree_listPattern hpattern)
  · exact hskip.on agree_recordPattern
  · split
    · exact hskip.on (agree_node fun c d => (agree_bump c d).on (agree_expect .number))
    · exact hskip.on (agree_error _)

theorem agree_constructorPattern (floor : Nat) :
    Agree (constructorPattern floor pattern) (constructorPattern floor pattern') := by
  refine .of_view fun c d h => ?_
  unfold constructorPattern
  rw [Cursor.sees_of_view h]
  split
  · refine agree_node (fun c d => ?_) c d
    exact (agree_upperCaseName c d).on
      (agree_repeatWhile (atPatternArgument_of_view · floor) (agree_atomicPattern hpattern))
  · exact agree_atomicPattern hpattern c d

variable (hcons : Agree cons cons')
include hcons

theorem agree_consOver (floor : Nat) :
    Agree (consOver floor pattern cons) (consOver floor pattern' cons') := by
  refine agree_fromHere fun c d _ => ?_
  refine (agree_constructorPattern hpattern floor c d).wrapIf ?_ (.of_view fun c d h => ?_)
  · exact fun halike => by
      rw [Cursor.seesOperator_of_view halike.view, Cursor.atLayoutEnd_of_view halike.view]
  · dsimp only
    rw [atPattern_of_view (Cursor.view_bump h)]
    split
    · exact (agree_bump c d).on hcons
    · exact (agree_bump c d).on (agree_error _)

theorem agree_patternOver (floor : Nat) :
    Agree (patternOver floor pattern cons) (patternOver floor pattern' cons') := by
  refine agree_fromHere fun c d _ => ?_
  refine (agree_consOver hpattern hcons floor c d).wrapIf ?_ (.of_view fun c d h => ?_)
  · exact fun halike => by rw [Cursor.sees_of_view halike.view]
  · dsimp only
    rw [Cursor.sees_of_view (Cursor.view_bump h)]
    split
    · exact (agree_bump c d).on (agree_tokenNode _)
    · exact (agree_bump c d).on (agree_error _)

end Patterns

theorem agree_pattern (floor : Nat) : Agree (Grammar.pattern floor) (Grammar.pattern floor) := by
  -- Whole patterns and tails are nested in each other, so both come from one induction.
  let within (whole : Bool) (depth : Nat) : Rule :=
    if whole then patternWithin floor depth else consWithin floor depth
  have hcut (whole : Bool) (c : Cursor) : within whole 0 c = c.cutOff := by cases whole <;> rfl
  have hwithin (n m : Nat) (whole : Bool) : Agree (within whole n) (within whole m) := by
    refine agree_bounded hcut hcut (fun n m ih whole => ?_) n m whole
    cases whole
    · exact agree_consOver (ih true) (ih false) floor
    · exact agree_patternOver (ih true) (ih false) floor
  exact fun c d => hwithin _ _ true c d

theorem agree_parameter (floor : Nat) : Agree (parameter floor) (parameter floor) :=
  agree_atomicPattern (agree_pattern floor)

/-! ## Expressions -/

theorem atAtom_of_view {c d : Cursor} (h : c.view = d.view) : atAtom c = atAtom d := by
  rw [atAtom, atAtom, Cursor.seesAny_of_view h, Cursor.seesBoth_of_view h]

theorem atOperand_of_view {c d : Cursor} (h : c.view = d.view) : atOperand c = atOperand d := by
  rw [atOperand, atOperand, atAtom_of_view h, Cursor.seesAny_of_view h,
    Cursor.seesOperator_of_view h]

theorem atOperator_of_view {c d : Cursor} (h : c.view = d.view) (floor : Nat) :
    atOperator floor c = atOperator floor d := by
  rw [atOperator, atOperator, Cursor.sees_of_view h, Cursor.atLayoutEnd_of_view h]

theorem atArgument_of_view {c d : Cursor} (h : c.view = d.view) (floor : Nat) :
    atArgument floor c = atArgument floor d := by
  rw [atArgument, atArgument, atAtom_of_view h, Cursor.atLayoutEnd_of_view h]

theorem agree_valueSegments (n m : Nat) : Agree (valueSegments n) (valueSegments m) := by
  refine agree_rounds (fun _ => rfl) (fun _ => rfl) (fun n m ih => .of_view fun c d h => ?_) n m
  rw [valueSegments, valueSegments, Cursor.touches_of_view h rfl rfl,
    Cursor.touches_of_view h rfl rfl]
  split
  · exact (agree_bumpTwice c d).on ih
  split
  · exact agree_bumpTwice c d
  · exact .refl c d

theorem agree_qualifiedValue : Agree qualifiedValue qualifiedValue := by
  refine .of_view fun c d h => ?_
  unfold qualifiedValue
  rw [Cursor.namesValue_of_view h]
  split
  · refine agree_node (agree_node fun c d => ?_) c d
    exact (agree_bump c d).trans (agree_valueSegments _ _ _ _)
  · exact agree_node agree_upperCaseName c d

section Brackets

variable (hexpr : Agree expr expr')
include hexpr

theorem agree_parenthesizedExpr : Agree (parenthesizedExpr expr) (parenthesizedExpr expr') := by
  refine agree_fromHere fun c d h => ?_
  have hbump := Cursor.view_bump h
  dsimp only
  rw [Cursor.sees_of_view hbump, Cursor.seesBoth_of_view hbump]
  split
  · exact (agree_bump c d).wrap agree_bump
  split
  · exact (agree_bump c d).wrap agree_bumpTwice
  · exact ((agree_bump c d).on hexpr).tupleOrGroup hexpr

theorem agree_listExpr : Agree (listExpr expr) (listExpr expr') :=
  agree_node fun c d => (agree_bump c d).items hexpr

theorem agree_field : Agree (field expr) (field expr') := by
  refine .of_view fun c d h => ?_
  unfold field
  rw [Cursor.sees_of_view h]
  split
  · exact agree_node (fun c d => (agree_bump c d).on (agree_expectThen hexpr)) c d
  · exact agree_error _ c d

theorem agree_recordExpr : Agree (recordExpr expr) (recordExpr expr') :=
  agree_node fun c d => ((agree_bump c d).on agree_recordBase).items (agree_field hexpr)

theorem agree_atom : Agree (atom expr) (atom expr') := by
  refine .of_view fun c d h => ?_
  have hskip := agree_skipTrivia c d
  unfold atom
  dsimp only
  rw [Cursor.kind?_of_view (Cursor.view_skipTrivia h)]
  split
  · exact hskip.on (agree_node (agree_tokenNode _))
  · exact hskip.on agree_qualifiedValue
  · exact hskip.on (agree_tokenNode _)
  · exact hskip.on (agree_tokenNode _)
  · exact hskip.on (agree_tokenNode _)
  · exact hskip.on (agree_node fun c d => (agree_bump c d).on (agree_expect .lowerIdent))
  · exact hskip.on (agree_parenthesizedExpr hexpr)
  · exact hskip.on (agree_listExpr hexpr)
  · exact hskip.on (agree_recordExpr hexpr)
  · exact hskip.on (agree_error _)

theorem agree_access : Agree (access expr) (access expr') := by
  refine agree_fromHere fun c d _ => ?_
  refine Tied.repeatWhile (fun h => Cursor.touches_of_view h rfl rfl)
    (fun h => h.wrap agree_bumpTwice) (fun x => ?_) (fun y => ?_) (agree_atom hexpr c d)
  · exact (agree_bumpTwice (x.startNodeAt c.builder.checkpoint .fieldAccessExpr) c).left
  · exact (agree_bumpTwice d (y.startNodeAt d.builder.checkpoint .fieldAccessExpr)).right

theorem agree_application (floor : Nat) :
    Agree (application floor expr) (application floor expr') := by
  refine agree_fromHere fun c d _ => ?_
  refine (agree_access hexpr c d).wrapIf ?_ ?_
  · exact fun halike => by rw [atArgument_of_view halike.view]
  · exact agree_repeatWhile (atArgument_of_view · floor) (agree_access hexpr)

/-! ### Operands with keywords -/

theorem agree_negation : Agree (negation expr) (negation expr') := by
  refine agree_node (.of_view fun c d h => ?_)
  dsimp only
  rw [atAtom_of_view (Cursor.view_bump h)]
  split
  · exact (agree_bump c d).on (agree_access hexpr)
  · exact (agree_bump c d).on (agree_error _)

theorem agree_lambda (floor : Nat) : Agree (lambda floor expr) (lambda floor expr') := by
  have hfirst : Agree (fun c => if atPattern c then c else c.error .expectedLambdaParameter) _ :=
    .ite atPattern_of_view agree_refl (agree_error _)
  have hparameters := agree_repeatWhile atPattern_of_view (agree_parameter floor)
  exact agree_node fun c d =>
    (((agree_bump c d).on hfirst).on hparameters).on (agree_expectThen hexpr)

theorem agree_ifElse : Agree (ifElse expr) (ifElse expr') :=
  agree_node fun c d =>
    (((agree_bump c d).on hexpr).on (agree_expectThen hexpr)).on (agree_expectThen hexpr)

theorem agree_caseBranch (floor : Nat) :
    Agree (caseBranch floor expr) (caseBranch floor expr') :=
  agree_node fun c d => (agree_pattern floor c d).on (agree_expectThen hexpr)

omit hexpr in
theorem agree_typeSignature (floor : Nat) : Agree (typeSignature floor) (typeSignature floor) :=
  agree_node fun c d => ((agree_bump c d).on (agree_expect .colon)).on (agree_type floor)

theorem agree_valueDeclaration (floor : Nat) :
    Agree (valueDeclaration floor expr) (valueDeclaration floor expr') := by
  refine agree_node (.of_view fun c d h => ?_)
  dsimp only
  rw [Cursor.sees_of_view h]
  split
  · refine (agree_node (fun c d => ?_) c d).on (agree_expectThen hexpr)
    exact (agree_bump c d).on
      (agree_repeatWhile (atPatternArgument_of_view · floor) (agree_parameter floor))
  · exact (agree_pattern floor c d).on (agree_expectThen hexpr)

theorem agree_letDeclaration (floor : Nat) :
    Agree (letDeclaration floor expr) (letDeclaration floor expr') := by
  refine .of_view fun c d h => ?_
  unfold letDeclaration
  rw [Cursor.seesBoth_of_view h, atPattern_of_view h]
  split
  · exact agree_typeSignature floor c d
  split
  · exact agree_valueDeclaration hexpr floor c d
  · exact agree_error _ c d

theorem agree_letDeclarations (column n m : Nat) :
    Agree (letDeclarations column expr n) (letDeclarations column expr' m) := by
  refine agree_rounds (fun _ => rfl) (fun _ => rfl) (fun n m ih => .of_view fun c d h => ?_) n m
  rw [letDeclarations, letDeclarations, Cursor.column?_of_view h, Cursor.sees_of_view h]
  split
  · exact (agree_letDeclaration hexpr column c d).ite (·.still) (.refl _ _) (ih _ _)
  · exact .refl c d

end Brackets

/-! ### Blocks and whole expressions -/

section Blocks

variable {expr expr' : Nat → Rule} (hexpr : ∀ floor, Agree (expr floor) (expr' floor))
include hexpr

theorem agree_caseBranches (floor : Nat) :
    Agree (caseBranches floor expr) (caseBranches floor expr') := by
  refine .of_view fun c d h => ?_
  unfold caseBranches
  rw [Cursor.column?_of_view h, atPattern_of_view h]
  split
  · split
    · refine agree_repeatWhile (fun h => ?_) (agree_caseBranch (hexpr _) _) c d
      rw [Cursor.column?_of_view h, atPattern_of_view h]
    · exact agree_error _ c d
  · exact agree_error _ c d

theorem agree_caseOf (floor : Nat) : Agree (caseOf floor expr) (caseOf floor expr') :=
  agree_node fun c d =>
    ((agree_bump c d).on (hexpr floor)).on (agree_expectThen (agree_caseBranches hexpr floor))

theorem agree_letBlock (floor : Nat) : Agree (letBlock floor expr) (letBlock floor expr') := by
  refine .of_view fun c d h => ?_
  unfold letBlock
  rw [Cursor.column?_of_view h, Cursor.sees_of_view h]
  split
  · split
    · exact agree_letDeclarations (hexpr _) _ _ _ c d
    · exact agree_error _ c d
  · exact agree_error _ c d

theorem agree_letIn (floor : Nat) : Agree (letIn floor expr) (letIn floor expr') :=
  agree_node fun c d =>
    ((agree_bump c d).on (agree_letBlock hexpr floor)).on (agree_expectThen (hexpr floor))

theorem agree_operand (floor : Nat) : Agree (operand floor expr) (operand floor expr') := by
  refine .of_view fun c d h => ?_
  unfold operand
  rw [Cursor.kind?_of_view h, Cursor.seesOperator_of_view h]
  split
  · exact agree_lambda (hexpr floor) floor c d
  · exact agree_ifElse (hexpr floor) c d
  · exact agree_caseOf hexpr floor c d
  · exact agree_letIn hexpr floor c d
  · split
    · exact agree_negation (hexpr floor) c d
    · exact agree_application (hexpr floor) floor c d

theorem agree_operators (floor n m : Nat) :
    Agree (operators floor expr n) (operators floor expr' m) := by
  refine agree_rounds (fun _ => rfl) (fun _ => rfl) (fun n m ih => .of_view fun c d h => ?_) n m
  rw [operators, operators, atOperator_of_view h]
  split
  · refine (agree_tokenNode .operator c d).ite ?_ ((agree_operand hexpr floor _ _).on ih)
      (agree_error _ _ _)
    intro halike
    rw [atOperand_of_view halike.view, Cursor.atLayoutEnd_of_view halike.view]
  · exact .refl c d

theorem agree_exprOver (floor : Nat) : Agree (exprOver floor expr) (exprOver floor expr') := by
  refine .of_view fun c d h => ?_
  unfold exprOver
  rw [atOperand_of_view h, Cursor.atLayoutEnd_of_view h]
  split
  · refine agree_fromHere (fun c d _ => ?_) c d
    refine (agree_operand hexpr floor c d).wrapIf ?_ fun c d => ?_
    · exact fun halike => by rw [atOperator_of_view halike.view]
    · exact agree_operators hexpr floor _ _ c d
  · exact agree_error _ c d

end Blocks

theorem agree_expr (floor : Nat) : Agree (Grammar.expr floor) (Grammar.expr floor) := by
  have hwithin (n m floor : Nat) : Agree (exprWithin n floor) (exprWithin m floor) :=
    @agree_bounded Nat (fun floor n => exprWithin n floor) (fun floor n => exprWithin n floor)
      (fun _ _ => rfl) (fun _ _ => rfl) (fun _ _ ih floor => agree_exprOver ih floor) n m floor
  exact fun c d => hwithin _ _ floor c d

/-! ## Header and imports -/

theorem agree_recover (cause : SyntaxError.Cause) : Agree (recover cause) (recover cause) := by
  intro c d
  refine (agree_error cause c d).on (agree_node fun c d => ?_)
  refine (agree_bump c d).on (agree_repeatWhile (fun h => ?_) agree_bump)
  rw [Cursor.column?_of_view h]

theorem agree_exposedItem : Agree exposedItem exposedItem := by
  refine .of_view fun c d h => ?_
  have hskip := agree_skipTrivia c d
  have hdots : Agree (fun c => c.bump.bump.expect .rParen) (fun c => c.bump.bump.expect .rParen) :=
    fun c d => (agree_bumpTwice c d).on (agree_expect .rParen)
  unfold exposedItem
  dsimp only
  rw [Cursor.kind?_of_view (Cursor.view_skipTrivia h)]
  split
  · exact hskip.on (agree_tokenNode _)
  · refine hskip.on (agree_node fun c d => ?_)
    refine (agree_bump c d).ite ?_ (agree_node hdots _ _) (.refl _ _)
    exact fun halike => by rw [Cursor.seesBoth_of_view halike.view]
  · refine hskip.on (agree_node fun c d => ?_)
    exact ((agree_bump c d).on (agree_expect _)).on (agree_expect _)
  · exact hskip.on (agree_error _)

theorem agree_exposedItems (n m : Nat) : Agree (exposedItems n) (exposedItems m) := by
  refine agree_rounds (fun _ => rfl) (fun _ => rfl) (fun n m ih => fun c d => ?_) n m
  refine (agree_exposedItem c d).ite (fun halike => ?_) (.refl _ _) ((agree_bump _ _).on ih)
  rw [Cursor.sees_of_view halike.view, Bool.or_eq_true, Bool.or_eq_true, decide_eq_true_iff,
    decide_eq_true_iff, halike.still]

theorem agree_exposingList : Agree exposingList exposingList := by
  refine agree_node (agree_expectThen (.of_view fun c d h => ?_))
  dsimp only
  rw [Cursor.sees_of_view h]
  split
  · exact (agree_bump c d).on (agree_expect _)
  · exact Tied.on (agree_exposedItems _ _ c d) (agree_expect _)

theorem agree_moduleDeclaration : Agree moduleDeclaration moduleDeclaration :=
  agree_node fun c d =>
    (((agree_accept _ c d).on (agree_expect _)).on agree_upperCaseName).on
      (agree_expectThen agree_exposingList)

theorem agree_asClause : Agree asClause asClause :=
  agree_node fun c d => (agree_bump c d).on (agree_expect _)

theorem agree_importClause : Agree importClause importClause := by
  have has : Agree (fun c => if c.sees .asKw then asClause c else c) _ :=
    .ite (fun h => Cursor.sees_of_view h _) agree_asClause agree_refl
  have hexposing : Agree (fun c => if c.sees .exposingKw then exposingList c.bump else c)
      (fun c => if c.sees .exposingKw then exposingList c.bump else c) :=
    .ite (fun h => Cursor.sees_of_view h _) (fun c d => (agree_bump c d).on agree_exposingList)
      agree_refl
  exact agree_node fun c d =>
    (((agree_expect _ c d).on agree_upperCaseName).on has).on hexposing

/-! ## Types and ports -/

theorem agree_portSignature (floor : Nat) : Agree (portSignature floor) (portSignature floor) :=
  agree_node fun c d =>
    (((agree_bump c d).on (agree_expect _)).on (agree_expect _)).on (agree_type floor)

theorem agree_typeHead : Agree typeHead typeHead := fun c d =>
  (agree_expect _ c d).on (agree_repeatWhile (fun h => Cursor.sees_of_view h _) agree_bump)

theorem agree_unionVariant (floor : Nat) : Agree (unionVariant floor) (unionVariant floor) := by
  refine .of_view fun c d h => ?_
  unfold unionVariant
  rw [Cursor.sees_of_view h]
  split
  · refine agree_node (fun c d => (agree_bump c d).on (agree_repeatWhile (fun h => ?_) ?_)) c d
    · rw [atTypeArgument_of_view h, Cursor.atLayoutEnd_of_view h]
    · exact agree_typeArgument (agree_type floor)
  · exact agree_error _ c d

theorem agree_unionVariants (floor : Nat) : Agree (unionVariants floor) (unionVariants floor) := by
  intro c d
  refine (agree_unionVariant floor c d).on (agree_repeatWhile (fun h => ?_) fun c d => ?_)
  · rw [Cursor.sees_of_view h, Cursor.atLayoutEnd_of_view h]
  · exact (agree_bump c d).on (agree_unionVariant floor)

theorem agree_typeDeclaration (floor : Nat) :
    Agree (typeDeclaration floor) (typeDeclaration floor) :=
  agree_node fun c d =>
    ((agree_bump c d).on agree_typeHead).on (agree_expectThen (agree_unionVariants floor))

theorem agree_typeAliasDeclaration (floor : Nat) :
    Agree (typeAliasDeclaration floor) (typeAliasDeclaration floor) :=
  agree_node fun c d =>
    ((agree_bumpTwice c d).on agree_typeHead).on (agree_expectThen (agree_type floor))

/-! ## The file -/

theorem agree_topLevelItem : Agree topLevelItem topLevelItem := by
  refine .of_view fun c d h => ?_
  unfold topLevelItem
  rw [Cursor.kind?_of_view h, Cursor.secondKind?_of_view h]
  split
  · exact agree_moduleDeclaration c d
  · exact agree_moduleDeclaration c d
  · exact agree_portSignature 0 c d
  · exact agree_importClause c d
  · exact agree_typeAliasDeclaration 0 c d
  · exact agree_typeDeclaration 0 c d
  · exact agree_typeSignature 0 c d
  · exact agree_valueDeclaration (agree_expr 0) 0 c d
  · exact agree_recover _ c d

theorem agree_fileItem : Agree fileItem fileItem := by
  have hstuck : Agree (fun c => recover (.stuckOnToken c.kind?) c)
      (fun c => recover (.stuckOnToken c.kind?) c) := by
    refine .of_view fun c d h => ?_
    rw [Cursor.kind?_of_view h]
    exact agree_recover _ c d
  refine .of_view fun c d h => ?_
  unfold fileItem
  rw [Cursor.column?_of_view h]
  split
  · refine (agree_topLevelItem c d).ite (fun halike => ?_) (hstuck _ _) (.refl _ _)
    rw [Cursor.atEnd_of_view halike.view, Bool.and_eq_true, Bool.and_eq_true, decide_eq_true_iff,
      decide_eq_true_iff, halike.still]
  · exact agree_recover _ c d

/-! ## Whole texts -/

theorem view_beforeItems (text : String) :
    (Cursor.beforeItems text).view = viewOf (placeTokens 0 (tokenize text)) := rfl

theorem tied_items (text text' : String) :
    Tied (.beforeItems text) (.beforeItems text') (.behindItems text) (.behindItems text') := by
  have hmore {c d : Cursor} (h : c.view = d.view) : (!c.atEnd) = !d.atEnd := by
    rw [Cursor.atEnd_of_view h]
  exact (agree_repeatWhile hmore agree_fileItem _ _).on agree_skipTrivia

theorem messages_parse (text : String) :
    (parse text).errors.map (·.message) =
      (Cursor.behindItems text).causes.reverse.map (·.message) := by
  have herrors : (parse text).errors = (Cursor.behindItems text).errors.reverse := rfl
  rw [herrors, Cursor.causes, ← List.map_reverse, List.map_map]
  rfl

/-- Comments do not influence parsing: with the comments of a text blanked, its tree is the same but
for white space and comments, and the same errors are met in the same order. -/
theorem parse_blankComments (text : String) :
    (parse (blankComments text)).tree.withoutTrivia = (parse text).tree.withoutTrivia ∧
      (parse (blankComments text)).errors.map (·.message) =
        (parse text).errors.map (·.message) := by
  have hview :
      (Cursor.beforeItems text).view = (Cursor.beforeItems (blankComments text)).view := by
    rw [view_beforeItems, view_beforeItems, viewOf_blankComments]
  have halike := (tied_items text (blankComments text)).alike hview (isCutOff_behindItems text)
    (isCutOff_behindItems (blankComments text))
  obtain ⟨trees, trees', hemits, hemits', htrees⟩ := halike.trees
  obtain ⟨causes, hcauses, hcauses'⟩ := halike.causes
  constructor
  · rw [tree_parse hemits, tree_parse hemits', Tree.withoutTrivia, Tree.withoutTrivia, htrees]
  · have hnone (text : String) : (Cursor.beforeItems text).causes = [] := rfl
    rw [messages_parse, messages_parse, hcauses, hcauses', hnone, hnone]

end ElmLint.Syntax

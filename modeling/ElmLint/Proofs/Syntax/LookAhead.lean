import ElmLint.Proofs.Syntax.Forks

/-!
# Rules look ahead two words

Rule by rule: what is read in front of two words is the same whatever comes behind them.
-/

namespace ElmLint.Syntax.Fork

open Grammar

variable {F : Fork} {c d : Cursor} {type type' pattern pattern' cons cons' expr expr' : Rule}

-- ---------------------------------------------------------------------------
-- Names and types
-- ---------------------------------------------------------------------------

theorem paced_upperCaseName : F.Paced upperCaseName upperCaseName where
  left := isWalk_upperCaseName
  right := isWalk_upperCaseName
  pace h := by
    have hsegments : F.Paced (fun c => c.bump.repeatWhile (·.touches .dot .upperIdent) fun c =>
        c.bump.bump) _ := .andThen .bump (.repeatWhile (fun h => h.touches_eq _ _) .bumpTwice)
    unfold upperCaseName
    rw [h.sees_eq]
    split
    · exact h.node hsegments.pace
    · exact (h.error _).pace

theorem paced_recordBase : F.Paced recordBase recordBase :=
  .ite (fun h => h.seesBoth_eq _ _) (.andThen (.tokenNode .recordBaseIdentifier rfl) .bump) .refl

theorem Abreast.atTypeArgument_eq (h : F.Abreast c d) :
    atTypeArgument c = atTypeArgument d := h.seesAny_eq _

theorem Abreast.atArrow_eq (h : F.Abreast c d) (floor : Nat) :
    atArrow floor c = atArrow floor d := by
  rw [atArrow, atArrow, h.sees_eq, h.atLayoutEnd_eq]

section Types

variable (htype : F.Paced type type')
include htype

theorem paced_parenthesizedType : F.Paced (parenthesizedType type) (parenthesizedType type') :=
  .fromHere fun n => (Paced.bump.andThen <| .ite (fun h => h.sees_eq .rParen)
    (.wrap .unitExpr rfl n .bump)
    (htype.andThen (.tupleOrGroup .tupleType .typeExpression rfl rfl htype n)) :)

theorem paced_fieldType : F.Paced (fieldType type) (fieldType type') :=
  .ite (fun h => h.sees_eq _) (.node rfl (Paced.bump.andThen (.expectThen htype) :)) (.error _)

theorem paced_recordType : F.Paced (recordType type) (recordType type') :=
  .node rfl ((Paced.bump.andThen paced_recordBase).andThen (.items (paced_fieldType htype)) :)

theorem paced_typeArgument : F.Paced (typeArgument type) (typeArgument type') where
  left := isWalk_typeArgument htype.left
  right := isWalk_typeArgument htype.right
  pace h := by
    have hskip := h.skipTrivia
    unfold typeArgument
    dsimp only
    rw [hskip.kind?_eq]
    split
    · exact (Paced.tokenNode _ rfl).pace hskip
    · exact hskip.node paced_upperCaseName.pace
    · exact (paced_parenthesizedType htype).pace hskip
    · exact (paced_recordType htype).pace hskip
    · exact (hskip.error _).pace

theorem paced_typeApplication (floor : Nat) :
    F.Paced (typeApplication floor type) (typeApplication floor type') := by
  have hargument := paced_typeArgument htype
  refine .ite (fun h => h.sees_eq _) (.node rfl (paced_upperCaseName.andThen ?_ :)) hargument
  exact .repeatWhile (fun h => by rw [h.atTypeArgument_eq, h.atLayoutEnd_eq]) hargument

theorem paced_arrows (floor n m : Nat) : F.Paced (arrows floor type n) (arrows floor type' m) := by
  refine .rounds _ _ (fun _ => rfl) (fun _ => rfl) (fun n m ih => ?_) n m
  have hnext : F.Paced (fun c => if atTypeArgument c then
      arrows floor type n (typeApplication floor type c) else c.error .expectedTypeAfterArrow) _ :=
    .ite Abreast.atTypeArgument_eq ((paced_typeApplication htype floor).andThen ih) (.error _)
  exact .ite (fun h => h.atArrow_eq floor) (Paced.bump.andThen hnext :) .refl

theorem paced_typeOver (floor : Nat) : F.Paced (typeOver floor type) (typeOver floor type') := by
  refine .ite Abreast.atTypeArgument_eq (.fromHere fun n => ?_) (.error _)
  exact ((paced_typeApplication htype floor).andThen (.ite (fun h => h.atArrow_eq floor)
    (.wrap .typeExpression rfl n (.unbounded (paced_arrows htype floor))) .refl) :)

end Types

theorem paced_type (floor : Nat) : F.Paced (Grammar.type floor) (Grammar.type floor) :=
  (Paced.unbounded (.rounds (typeWithin floor) (typeWithin floor) (fun _ => rfl) (fun _ => rfl)
    fun _ _ ih => paced_typeOver ih floor) :)

-- ---------------------------------------------------------------------------
-- Patterns
-- ---------------------------------------------------------------------------

theorem Abreast.atPattern_eq (h : F.Abreast c d) : atPattern c = atPattern d := by
  rw [atPattern, atPattern, h.seesAny_eq, h.seesOperator_eq, h.secondKind?_eq]

theorem Abreast.atPatternArgument_eq (h : F.Abreast c d) (floor : Nat) :
    atPatternArgument floor c = atPatternArgument floor d := by
  rw [atPatternArgument, atPatternArgument, h.atPattern_eq, h.atLayoutEnd_eq]

theorem paced_patternFields (n m : Nat) : F.Paced (patternFields n) (patternFields m) := by
  refine .rounds _ _ (fun _ => rfl) (fun _ => rfl) (fun n m ih => ?_) n m
  have hnext : F.Paced (fun c => if c.sees .comma then patternFields n c.bump else c) _ :=
    .ite (fun h => h.sees_eq _) (Paced.bump.andThen ih) .refl
  exact .ite (fun h => h.sees_eq _) ((Paced.tokenNode .lowerPattern rfl).andThen hnext :) (.error _)

theorem paced_recordPattern : F.Paced recordPattern recordPattern :=
  .node rfl ((Paced.bump.andThen (.unbounded paced_patternFields)).andThen (.expect .rBrace) :)

section Patterns

variable (hpattern : F.Paced pattern pattern')
include hpattern

theorem paced_parenthesizedPattern :
    F.Paced (parenthesizedPattern pattern) (parenthesizedPattern pattern') :=
  .fromHere fun n => (Paced.bump.andThen <| .ite (fun h => h.sees_eq .rParen)
    (.wrap .unitExpr rfl n .bump)
    (hpattern.andThen (.tupleOrGroup .tuplePattern .parenthesizedPattern rfl rfl hpattern n)) :)

theorem paced_listPattern : F.Paced (listPattern pattern) (listPattern pattern') :=
  .node rfl (Paced.bump.andThen (.items hpattern) :)

theorem paced_atomicPattern : F.Paced (atomicPattern pattern) (atomicPattern pattern') where
  left := isWalk_atomicPattern hpattern.left
  right := isWalk_atomicPattern hpattern.right
  pace h := by
    have hskip := h.skipTrivia
    unfold atomicPattern
    dsimp only
    rw [hskip.kind?_eq, hskip.seesOperator_eq]
    split
    · exact (Paced.tokenNode _ rfl).pace hskip
    · exact (Paced.tokenNode _ rfl).pace hskip
    · exact hskip.node paced_upperCaseName.pace
    · exact (Paced.tokenNode _ rfl).pace hskip
    · exact (Paced.tokenNode _ rfl).pace hskip
    · exact (Paced.tokenNode _ rfl).pace hskip
    · exact (paced_parenthesizedPattern hpattern).pace hskip
    · exact (paced_listPattern hpattern).pace hskip
    · exact paced_recordPattern.pace hskip
    · split
      · exact hskip.node (Paced.bump.andThen (.expect _)).pace
      · exact (hskip.error _).pace

theorem paced_constructorPattern (floor : Nat) :
    F.Paced (constructorPattern floor pattern) (constructorPattern floor pattern') := by
  have hatomic := paced_atomicPattern hpattern
  refine .ite (fun h => h.sees_eq _) (.node rfl (paced_upperCaseName.andThen ?_ :)) hatomic
  exact .repeatWhile (fun h => h.atPatternArgument_eq floor) hatomic

variable (hcons : F.Paced cons cons')
include hcons

theorem paced_consOver (floor : Nat) :
    F.Paced (consOver floor pattern cons) (consOver floor pattern' cons') := by
  have htail :
      F.Paced (fun c => if atPattern c then cons c else c.error .expectedPatternAfterCons) _ :=
    .ite Abreast.atPattern_eq hcons (.error _)
  have hmore {c d : Cursor} (h : F.Abreast c d) : (c.seesOperator "::" && !c.atLayoutEnd floor) =
      (d.seesOperator "::" && !d.atLayoutEnd floor) := by rw [h.seesOperator_eq, h.atLayoutEnd_eq]
  exact .fromHere fun n => ((paced_constructorPattern hpattern floor).andThen
    (.ite hmore (.wrap .consPattern rfl n (Paced.bump.andThen htail)) .refl) :)

theorem paced_patternOver (floor : Nat) :
    F.Paced (patternOver floor pattern cons) (patternOver floor pattern' cons') := by
  have hname : F.Paced (fun c =>
      if c.sees .lowerIdent then c.tokenNode .lowerPattern else c.error .expectedNameAfterAs) _ :=
    .ite (fun h => h.sees_eq _) (.tokenNode _ rfl) (.error _)
  exact .fromHere fun n => ((paced_consOver hpattern hcons floor).andThen
    (.ite (fun h => h.sees_eq _) (.wrap .asPattern rfl n (Paced.bump.andThen hname)) .refl) :)

end Patterns

theorem paced_pattern (floor : Nat) : F.Paced (Grammar.pattern floor) (Grammar.pattern floor) := by
  -- Whole patterns and tails are nested in each other, so both come from one induction.
  let within (whole : Bool) (depth : Nat) : Rule :=
    if whole then patternWithin floor depth else consWithin floor depth
  have hcut (whole : Bool) (c : Cursor) : within whole 0 c = c.cutOff := by cases whole <;> rfl
  have hwithin (n m : Nat) (whole : Bool) : F.Paced (within whole n) (within whole m) := by
    refine .bounded within within hcut hcut (fun n m ih whole => ?_) n m whole
    cases whole
    · exact paced_consOver (ih true) (ih false) floor
    · exact paced_patternOver (ih true) (ih false) floor
  exact (Paced.unbounded fun n m => hwithin n m true :)

theorem paced_parameter (floor : Nat) : F.Paced (parameter floor) (parameter floor) :=
  paced_atomicPattern (paced_pattern floor)

-- ---------------------------------------------------------------------------
-- Expressions
-- ---------------------------------------------------------------------------

namespace Abreast

theorem atAtom_eq (h : F.Abreast c d) : atAtom c = atAtom d := by
  rw [atAtom, atAtom, h.seesAny_eq, h.seesBoth_eq]

theorem atOperand_eq (h : F.Abreast c d) : atOperand c = atOperand d := by
  rw [atOperand, atOperand, h.atAtom_eq, h.seesAny_eq, h.seesOperator_eq]

theorem atOperator_eq (h : F.Abreast c d) (floor : Nat) :
    atOperator floor c = atOperator floor d := by
  rw [atOperator, atOperator, h.sees_eq, h.atLayoutEnd_eq]

theorem atArgument_eq (h : F.Abreast c d) (floor : Nat) :
    atArgument floor c = atArgument floor d := by
  rw [atArgument, atArgument, h.atAtom_eq, h.atLayoutEnd_eq]

end Abreast

theorem paced_valueSegments (n m : Nat) : F.Paced (valueSegments n) (valueSegments m) := by
  refine .rounds _ _ (fun _ => rfl) (fun _ => rfl) (fun n m ih => ?_) n m
  exact .ite (fun h => h.touches_eq _ _) (Paced.bumpTwice.andThen ih :)
    (.ite (fun h => h.touches_eq _ _) .bumpTwice .refl)

theorem Abreast.qualifiedValue (h : F.Abreast c d) :
    F.Pace (Grammar.qualifiedValue c) (Grammar.qualifiedValue d) := by
  unfold Grammar.qualifiedValue
  rw [h.namesValue_eq]
  split
  · refine h.node fun h => h.node fun {c d} h => ?_
    exact (Paced.bump.andThen (paced_valueSegments c.rest.length d.rest.length)).pace h
  · exact h.node paced_upperCaseName.pace

section Brackets

variable (hexpr : F.Paced expr expr')
include hexpr

theorem paced_parenthesizedExpr : F.Paced (parenthesizedExpr expr) (parenthesizedExpr expr') :=
  .fromHere fun n => (Paced.bump.andThen <| .ite (fun h => h.sees_eq .rParen)
    (.wrap .unitExpr rfl n .bump) <| .ite (fun h => h.seesBoth_eq .operatorIdent .rParen)
    (.wrap .operatorAsFunctionExpr rfl n .bumpTwice)
    (hexpr.andThen (.tupleOrGroup .tupleExpr .parenthesizedExpr rfl rfl hexpr n)) :)

theorem paced_listExpr : F.Paced (listExpr expr) (listExpr expr') :=
  .node rfl (Paced.bump.andThen (.items hexpr) :)

theorem paced_field : F.Paced (field expr) (field expr') :=
  .ite (fun h => h.sees_eq _) (.node rfl (Paced.bump.andThen (.expectThen hexpr) :)) (.error _)

theorem paced_recordExpr : F.Paced (recordExpr expr) (recordExpr expr') :=
  .node rfl ((Paced.bump.andThen paced_recordBase).andThen (.items (paced_field hexpr)) :)

theorem paced_atom : F.Paced (atom expr) (atom expr') where
  left := isWalk_atom hexpr.left
  right := isWalk_atom hexpr.right
  pace h := by
    have hskip := h.skipTrivia
    unfold atom
    dsimp only
    rw [← hskip.kind?_eq]
    split
    · exact hskip.node fun h => h.node Paced.bump.pace
    · exact hskip.qualifiedValue
    · exact (Paced.tokenNode _ rfl).pace hskip
    · exact (Paced.tokenNode _ rfl).pace hskip
    · exact (Paced.tokenNode _ rfl).pace hskip
    · exact hskip.node (Paced.bump.andThen (.expect _)).pace
    · exact (paced_parenthesizedExpr hexpr).pace hskip
    · exact (paced_listExpr hexpr).pace hskip
    · exact (paced_recordExpr hexpr).pace hskip
    · exact (hskip.error _).pace

theorem paced_access : F.Paced (access expr) (access expr') :=
  .fromHere fun n => ((paced_atom hexpr).andThen (.repeatWhile (fun h => h.touches_eq _ _)
    (.wrap .fieldAccessExpr rfl n .bumpTwice)) :)

theorem paced_application (floor : Nat) :
    F.Paced (application floor expr) (application floor expr') := by
  have haccess := paced_access hexpr
  have harguments : F.Paced (Cursor.repeatWhile (atArgument floor) (access expr)) _ :=
    .repeatWhile (fun h => h.atArgument_eq floor) haccess
  exact .fromHere fun n => (haccess.andThen (.ite (fun h => h.atArgument_eq floor)
    (.wrap .functionCallExpr rfl n harguments) .refl) :)

/-! ### Operands with keywords -/

theorem paced_negation : F.Paced (negation expr) (negation expr') :=
  .node rfl (Paced.bump.andThen (.ite Abreast.atAtom_eq (paced_access hexpr) (.error _)) :)

theorem paced_lambda (floor : Nat) : F.Paced (lambda floor expr) (lambda floor expr') := by
  have hfirst : F.Paced (fun c => if atPattern c then c else c.error .expectedLambdaParameter) _ :=
    .ite Abreast.atPattern_eq .refl (.error _)
  have hparameters : F.Paced (Cursor.repeatWhile atPattern (parameter floor)) _ :=
    .repeatWhile Abreast.atPattern_eq (paced_parameter floor)
  exact .node rfl (((Paced.bump.andThen hfirst).andThen hparameters).andThen (.expectThen hexpr) :)

theorem paced_ifElse : F.Paced (ifElse expr) (ifElse expr') :=
  .node rfl (((Paced.bump.andThen hexpr).andThen (.expectThen hexpr)).andThen (.expectThen hexpr) :)

theorem paced_caseBranch (floor : Nat) : F.Paced (caseBranch floor expr) (caseBranch floor expr') :=
  .node rfl ((paced_pattern floor).andThen (.expectThen hexpr) :)

omit hexpr in
theorem paced_typeSignature (floor : Nat) : F.Paced (typeSignature floor) (typeSignature floor) :=
  .node rfl ((Paced.bump.andThen (.expect .colon)).andThen (paced_type floor) :)

theorem paced_valueDeclaration (floor : Nat) :
    F.Paced (valueDeclaration floor expr) (valueDeclaration floor expr') := by
  have hparameters : F.Paced (Cursor.repeatWhile (atPatternArgument floor) (parameter floor)) _ :=
    .repeatWhile (fun h => h.atPatternArgument_eq floor) (paced_parameter floor)
  have hleft : F.Paced (Cursor.node .functionDeclarationLeft fun c =>
      c.bump.repeatWhile (atPatternArgument floor) (parameter floor)) _ :=
    .node rfl (Paced.bump.andThen hparameters :)
  exact .node rfl ((Paced.ite (fun h => h.sees_eq .lowerIdent) hleft (paced_pattern floor)).andThen
    (.expectThen hexpr) :)

theorem paced_letDeclaration (floor : Nat) :
    F.Paced (letDeclaration floor expr) (letDeclaration floor expr') :=
  .ite (fun h => h.seesBoth_eq _ _) (paced_typeSignature floor)
    (.ite Abreast.atPattern_eq (paced_valueDeclaration hexpr floor) (.error _))

theorem paced_letDeclarations (column n m : Nat) :
    F.Paced (letDeclarations column expr n) (letDeclarations column expr' m) := by
  refine .rounds _ _ (fun _ => rfl) (fun _ => rfl) (fun n m ih => ?_) n m
  have hmore {c d : Cursor} (h : F.Abreast c d) : (c.column? == some column && !c.sees .inKw) =
      (d.column? == some column && !d.sees .inKw) := by rw [h.column?_eq, h.sees_eq]
  exact .ite hmore
    (.thenEither Abreast.still_iff (paced_letDeclaration hexpr column) .refl ih) .refl

end Brackets

/-! ### Blocks and whole expressions -/

section Blocks

variable {expr expr' : Nat → Rule} (hexpr : ∀ floor, F.Paced (expr floor) (expr' floor))
include hexpr

theorem paced_caseBranches (floor : Nat) :
    F.Paced (caseBranches floor expr) (caseBranches floor expr') where
  left := isWalk_caseBranches (fun floor => (hexpr floor).left) floor
  right := isWalk_caseBranches (fun floor => (hexpr floor).right) floor
  pace h := by
    unfold caseBranches
    rw [h.column?_eq]
    split
    · rename_i column _
      have hmore {c d : Cursor} (h : F.Abreast c d) :
          (c.column? == some column && atPattern c) =
            (d.column? == some column && atPattern d) := by rw [h.column?_eq, h.atPattern_eq]
      rw [h.atPattern_eq]
      split
      · exact (Paced.repeatWhile hmore (paced_caseBranch (hexpr column) column)).pace h
      · exact (h.error _).pace
    · exact (h.error _).pace

theorem paced_caseOf (floor : Nat) : F.Paced (caseOf floor expr) (caseOf floor expr') :=
  .node rfl ((Paced.bump.andThen (hexpr floor)).andThen
    (.expectThen (paced_caseBranches hexpr floor)) :)

theorem paced_letBlock (floor : Nat) : F.Paced (letBlock floor expr) (letBlock floor expr') where
  left := isWalk_letBlock (fun floor => (hexpr floor).left) floor
  right := isWalk_letBlock (fun floor => (hexpr floor).right) floor
  pace h := by
    unfold letBlock
    rw [h.column?_eq]
    split
    · rw [h.sees_eq]
      split
      · exact (paced_letDeclarations (hexpr _) _ _ _).pace h
      · exact (h.error _).pace
    · exact (h.error _).pace

theorem paced_letIn (floor : Nat) : F.Paced (letIn floor expr) (letIn floor expr') :=
  .node rfl
    ((Paced.bump.andThen (paced_letBlock hexpr floor)).andThen (.expectThen (hexpr floor)) :)

theorem paced_operand (floor : Nat) : F.Paced (operand floor expr) (operand floor expr') where
  left := isWalk_operand (fun floor => (hexpr floor).left) floor
  right := isWalk_operand (fun floor => (hexpr floor).right) floor
  pace h := by
    unfold operand
    rw [h.kind?_eq, h.seesOperator_eq]
    split
    · exact (paced_lambda (hexpr floor) floor).pace h
    · exact (paced_ifElse (hexpr floor)).pace h
    · exact (paced_caseOf hexpr floor).pace h
    · exact (paced_letIn hexpr floor).pace h
    · split
      · exact (paced_negation (hexpr floor)).pace h
      · exact (paced_application (hexpr floor) floor).pace h

theorem paced_operators (floor n m : Nat) :
    F.Paced (operators floor expr n) (operators floor expr' m) := by
  refine .rounds _ _ (fun _ => rfl) (fun _ => rfl) (fun n m ih => ?_) n m
  have hright {c d : Cursor} (h : F.Abreast c d) : (atOperand c && !c.atLayoutEnd floor) =
      (atOperand d && !d.atLayoutEnd floor) := by rw [h.atOperand_eq, h.atLayoutEnd_eq]
  exact .ite (fun h => h.atOperator_eq floor) ((Paced.tokenNode .operator rfl).andThen
    (.ite hright ((paced_operand hexpr floor).andThen ih) (.error _)) :) .refl

theorem paced_exprOver (floor : Nat) : F.Paced (exprOver floor expr) (exprOver floor expr') := by
  have hstart {c d : Cursor} (h : F.Abreast c d) : (atOperand c && !c.atLayoutEnd floor) =
      (atOperand d && !d.atLayoutEnd floor) := by rw [h.atOperand_eq, h.atLayoutEnd_eq]
  refine .ite hstart (.fromHere fun n => ?_) (.error _)
  exact ((paced_operand hexpr floor).andThen (.ite (fun h => h.atOperator_eq floor)
    (.wrap .binOpExpr rfl n (.unbounded (paced_operators hexpr floor))) .refl) :)

end Blocks

theorem paced_expr (floor : Nat) : F.Paced (Grammar.expr floor) (Grammar.expr floor) := by
  have hwithin (n m : Nat) : F.Paced (exprWithin n floor) (exprWithin m floor) :=
    .bounded (fun floor n => exprWithin n floor) (fun floor n => exprWithin n floor)
      (fun _ _ => rfl) (fun _ _ => rfl) (fun _ _ ih floor => paced_exprOver ih floor) n m floor
  exact (Paced.unbounded hwithin :)

-- ---------------------------------------------------------------------------
-- The file
-- ---------------------------------------------------------------------------

theorem paced_recover (cause : SyntaxError.Cause) : F.Paced (recover cause) (recover cause) := by
  have hmore {c d : Cursor} (h : F.Abreast c d) :
      c.column?.any (0 < ·) = d.column?.any (0 < ·) := by rw [h.column?_eq]
  have hnode : F.Paced (Cursor.node .error fun c =>
      c.bump.repeatWhile (fun c => c.column?.any (0 < ·)) Cursor.bump) _ :=
    .node rfl (Paced.bump.andThen (.repeatWhile hmore .bump) :)
  exact ((Paced.error cause).andThen hnode :)

theorem paced_exposedItem : F.Paced exposedItem exposedItem where
  left := isWalk_exposedItem
  right := isWalk_exposedItem
  pace h := by
    have hskip := h.skipTrivia
    have hconstructors : F.Paced (fun c => if c.seesBoth .lParen .dotDot then
        c.node .exposedUnionConstructors fun c => c.bump.bump.expect .rParen else c) _ :=
      .ite (fun h => h.seesBoth_eq _ _) (.node rfl (Paced.bumpTwice.andThen (.expect _) :)) .refl
    unfold exposedItem
    dsimp only
    rw [hskip.kind?_eq]
    split
    · exact (Paced.tokenNode _ rfl).pace hskip
    · exact hskip.node (Paced.bump.andThen hconstructors).pace
    · exact hskip.node ((Paced.bump.andThen (.expect _)).andThen (.expect _)).pace
    · exact (hskip.error _).pace

theorem paced_exposedItems (n m : Nat) : F.Paced (exposedItems n) (exposedItems m) := by
  refine .rounds _ _ (fun _ => rfl) (fun _ => rfl) (fun n m ih => ?_) n m
  have hstop {c d x y : Cursor} (h : F.Abreast c d) (h' : F.Abreast x y) :
      (x.rest.length = c.rest.length || !x.sees .comma) = true ↔
        (y.rest.length = d.rest.length || !y.sees .comma) = true := by
    rw [h'.sees_eq, h.still_eq h']
  exact .thenEither hstop paced_exposedItem .refl (Paced.bump.andThen ih :)

theorem paced_exposingList : F.Paced exposingList exposingList := by
  have hitems : F.Paced (fun c =>
      if c.sees .dotDot then c.bump else exposedItems (c.rest.length + 1) c) _ :=
    .ite (fun h => h.sees_eq _) .bump (.unbounded paced_exposedItems)
  exact .node rfl (.expectThen (hitems.andThen (.expect .rParen)))

theorem paced_moduleDeclaration : F.Paced moduleDeclaration moduleDeclaration :=
  .node rfl ((((Paced.accept .portKw).andThen (.expect .moduleKw)).andThen
    paced_upperCaseName).andThen (.expectThen paced_exposingList) :)

theorem paced_asClause : F.Paced asClause asClause := .node rfl (Paced.bump.andThen (.expect _) :)

theorem paced_importClause : F.Paced importClause importClause := by
  have has : F.Paced (fun c => if c.sees .asKw then asClause c else c) _ :=
    .ite (fun h => h.sees_eq _) paced_asClause .refl
  have hexposing : F.Paced (fun c => if c.sees .exposingKw then exposingList c.bump else c) _ :=
    .ite (fun h => h.sees_eq _) (Paced.bump.andThen paced_exposingList :) .refl
  exact .node rfl ((((Paced.expect .importKw).andThen paced_upperCaseName).andThen has).andThen
    hexposing :)

theorem paced_portSignature (floor : Nat) : F.Paced (portSignature floor) (portSignature floor) :=
  .node rfl (((Paced.bump.andThen (.expect _)).andThen (.expect _)).andThen (paced_type floor) :)

theorem paced_typeHead : F.Paced typeHead typeHead :=
  ((Paced.expect .upperIdent).andThen (.repeatWhile (fun h => h.sees_eq .lowerIdent) .bump) :)

theorem paced_unionVariant (floor : Nat) : F.Paced (unionVariant floor) (unionVariant floor) := by
  have hmore {c d : Cursor} (h : F.Abreast c d) : (atTypeArgument c && !c.atLayoutEnd floor) =
      (atTypeArgument d && !d.atLayoutEnd floor) := by rw [h.atTypeArgument_eq, h.atLayoutEnd_eq]
  exact .ite (fun h => h.sees_eq _) (.node rfl
    (Paced.bump.andThen (.repeatWhile hmore (paced_typeArgument (paced_type floor))) :)) (.error _)

theorem paced_unionVariants (floor : Nat) :
    F.Paced (unionVariants floor) (unionVariants floor) := by
  have hmore {c d : Cursor} (h : F.Abreast c d) : (c.sees .pipe && !c.atLayoutEnd floor) =
      (d.sees .pipe && !d.atLayoutEnd floor) := by rw [h.sees_eq, h.atLayoutEnd_eq]
  exact ((paced_unionVariant floor).andThen
    (.repeatWhile hmore (Paced.bump.andThen (paced_unionVariant floor))) :)

theorem paced_typeDeclaration (floor : Nat) :
    F.Paced (typeDeclaration floor) (typeDeclaration floor) :=
  .node rfl ((Paced.bump.andThen paced_typeHead).andThen
    (.expectThen (paced_unionVariants floor)) :)

theorem paced_typeAliasDeclaration (floor : Nat) :
    F.Paced (typeAliasDeclaration floor) (typeAliasDeclaration floor) :=
  .node rfl ((Paced.bumpTwice.andThen paced_typeHead).andThen (.expectThen (paced_type floor)) :)

theorem paced_topLevelItem : F.Paced topLevelItem topLevelItem where
  left := isWalk_topLevelItem
  right := isWalk_topLevelItem
  pace h := by
    unfold topLevelItem
    rw [h.kind?_eq, h.secondKind?_eq]
    split
    · exact paced_moduleDeclaration.pace h
    · exact paced_moduleDeclaration.pace h
    · exact (paced_portSignature 0).pace h
    · exact paced_importClause.pace h
    · exact (paced_typeAliasDeclaration 0).pace h
    · exact (paced_typeDeclaration 0).pace h
    · exact (paced_typeSignature 0).pace h
    · exact (paced_valueDeclaration (paced_expr 0) 0).pace h
    · exact (paced_recover _).pace h

theorem paced_fileItem : F.Paced fileItem fileItem := by
  have hstuck : F.Paced (fun c => recover (.stuckOnToken c.kind?) c)
      (fun c => recover (.stuckOnToken c.kind?) c) :=
    ⟨fun c => isWalk_recover _ c, fun c => isWalk_recover _ c, fun h => by
      rw [h.kind?_eq]
      exact (paced_recover _).pace h⟩
  have hstill {c d x y : Cursor} (h : F.Abreast c d) (h' : F.Abreast x y) :
      (x.rest.length = c.rest.length && !x.atEnd) = true ↔
        (y.rest.length = d.rest.length && !y.atEnd) = true := by
    rw [h'.atEnd_eq, h.still_eq h']
  exact .ite (fun h => by rw [h.column?_eq])
    (.thenEither hstill paced_topLevelItem hstuck .refl) (paced_recover _)

end ElmLint.Syntax.Fork

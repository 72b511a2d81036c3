import ElmLint.Proofs.Syntax.QualifiedNames
import ElmLint.Syntax.Parse
import Mathlib.Logic.Relation

/-!
# Moves of a cursor

Whatever a rule of the grammar does, it does by a few moves: the cursor steps over white space or
over a token, it records an error, it starts or finishes a node, and it reads a whole qualified
name. What every move keeps is therefore kept on the way over a text. The lemmas follow how rules
are put together, and then go through the grammar rule by rule.
-/

namespace ElmLint.Syntax

open Grammar

variable {c c' c'' : Cursor} {kind : Kind} {f : Rule} {more : Cursor → Bool}

/-- One move. Nodes are started and finished apart from each other, but for qualified names, which
are read as a whole. -/
inductive Move : Cursor → Cursor → Prop
  | skipTrivia (c : Cursor) : Move c c.skipTrivia
  | bump (c : Cursor) : Move c c.bump
  | error (cause : SyntaxError.Cause) (c : Cursor) : Move c (c.error cause)
  | cutOff (c : Cursor) : Move c c.cutOff
  | startNode {kind : Kind} (hkind : kind.isName = false) (c : Cursor) : Move c (c.startNode kind)
  | startNodeAt {kind : Kind} (hkind : kind.isName = false) (checkpoint : Nat) (c : Cursor) :
    Move c (c.startNodeAt checkpoint kind)
  | finishNode (c : Cursor) : Move c c.finishNode
  | name {kind : Kind} {c c' : Cursor} (hkind : kind.isName = true) (h : GivesName kind c c') :
    Move c c'

/-- Any number of moves. -/
def Moves : Cursor → Cursor → Prop := Relation.ReflTransGen Move

/-- Wherever it starts, the rule is made of moves. -/
def IsWalk (rule : Rule) : Prop := ∀ c, Moves c (rule c)

/-- What is kept by every move is kept by all of them. -/
theorem Moves.keeps {P : Cursor → Prop} (hmove : ∀ {c c' : Cursor}, Move c c' → P c → P c')
    (h : Moves c c') (hc : P c) : P c' := by
  induction h with
  | refl => exact hc
  | tail _ hlast ih => exact hmove hlast ih

/-- A move goes on in the text, and records an error or none. A rule that was cut off stays so. -/
theorem Move.goesOn (h : Move c c') :
    c'.rest <:+ c.rest ∧ c'.textEnd = c.textEnd ∧ (c'.isCutOff = false → c.isCutOff = false) ∧
      (c'.errors = c.errors ∨ ∃ cause, c' = c.error cause) := by
  have hskip : c.skipTrivia.rest <:+ c.rest := by
    rw [Cursor.rest_skipTrivia]
    exact List.dropWhile_suffix _
  cases h with
  | skipTrivia =>
    refine ⟨hskip, ?_⟩
    rw [Cursor.skipTrivia_eq]
    exact ⟨rfl, id, .inl rfl⟩
  | bump =>
    refine ⟨?_, ?_⟩
    · rw [Cursor.rest_bump]
      exact (List.tail_suffix _).trans (List.dropWhile_suffix _)
    · cases hahead : c.ahead with
      | nil =>
        rw [Cursor.bump_of_ahead_nil hahead, Cursor.skipTrivia_eq]
        exact ⟨rfl, id, .inl rfl⟩
      | cons t tokens =>
        rw [Cursor.bump_of_ahead hahead]
        exact ⟨rfl, id, .inl rfl⟩
  | error cause => exact ⟨List.suffix_rfl, rfl, id, .inr ⟨cause, rfl⟩⟩
  | cutOff => exact ⟨List.suffix_rfl, rfl, fun hcut => absurd hcut Bool.noConfusion, .inl rfl⟩
  | startNode | startNodeAt | finishNode => exact ⟨List.suffix_rfl, rfl, id, .inl rfl⟩
  | name _ hname =>
    obtain ⟨parts, -, hgives⟩ := hname
    obtain ⟨consumed, hrest, -⟩ := hgives.leaves
    exact ⟨⟨consumed, hrest.symm⟩, hgives.textEnd, hgives.isCutOff.symm.trans,
      .inl hgives.errors_eq⟩

-- ---------------------------------------------------------------------------
-- Ways that are made of moves
-- ---------------------------------------------------------------------------

namespace Moves

/-- Tokens are only consumed. -/
theorem rest_suffix (h : Moves c c') : c'.rest <:+ c.rest := by
  induction h with
  | refl => exact List.suffix_rfl
  | tail _ hlast ih => exact hlast.goesOn.1.trans ih

theorem uncut (h : Moves c c') (hcut : c'.isCutOff = false) : c.isCutOff = false := by
  induction h with
  | refl => exact hcut
  | tail _ hlast ih => exact ih (hlast.goesOn.2.2.1 hcut)

theorem refl (c : Cursor) : Moves c c := Relation.ReflTransGen.refl

theorem move (h : Moves c c') (hmove : Move c' c'') : Moves c c'' :=
  Relation.ReflTransGen.tail h hmove

theorem on (h : Moves c c') (hf : IsWalk f) : Moves c (f c') :=
  Relation.ReflTransGen.trans h (hf c')

theorem name (hkind : kind.isName = true) (h : GivesName kind c c') : Moves c c' :=
  (refl c).move (.name hkind h)

theorem bump (h : Moves c c') : Moves c c'.bump := h.move (.bump c')

theorem error (h : Moves c c') (cause : SyntaxError.Cause) : Moves c (c'.error cause) :=
  h.move (.error cause c')

theorem ite {p : Prop} [Decidable p] (h : Moves c c') (h' : Moves c c'') :
    Moves c (if p then c' else c'') := by
  split
  · exact h
  · exact h'

theorem accept (h : Moves c c') (kind : Kind) : Moves c (c'.accept kind) := .ite h.bump h

theorem expect (h : Moves c c') (kind : Kind) : Moves c (c'.expect kind) :=
  .ite h.bump (h.error _)

theorem expectThen (h : Moves c c') (hf : IsWalk f) : Moves c (c'.expectThen kind f) :=
  .ite (h.bump.on hf) (h.error _)

theorem wrap (h : Moves c c') (hkind : kind.isName = false) (checkpoint : Nat) (hf : IsWalk f) :
    Moves c (c'.wrap checkpoint kind f) :=
  ((h.move (.startNodeAt hkind checkpoint c')).on hf).move (.finishNode _)

theorem repeatWhile (h : Moves c c') (hf : IsWalk f) : Moves c (c'.repeatWhile more f) :=
  Cursor.repeatWhile_keeps (fun _ hcut => hcut.move (.cutOff _)) (fun _ hround _ => hround.on hf) h

theorem commaSeparated (h : Moves c c') (hf : IsWalk f) : Moves c (c'.commaSeparated f) :=
  (h.on hf).repeatWhile fun c₀ => (refl c₀).bump.on hf

/-- Items up to a closing bracket, where there may be none. -/
theorem items {closing : Kind} (h : Moves c c') (hf : IsWalk f) :
    Moves c ((if c'.sees closing then c' else c'.commaSeparated f).expect closing) :=
  (Moves.ite h (h.commaSeparated hf)).expect closing

/-- Behind the first item in parentheses: more of them after commas, or the closing one. -/
theorem tupleOrGroup {tuple group : Kind} (h : Moves c c') (htuple : tuple.isName = false)
    (hgroup : group.isName = false) (hf : IsWalk f) (checkpoint : Nat) :
    Moves c
      (if c'.sees .comma then
        c'.wrap checkpoint tuple fun c =>
          (c.repeatWhile (·.sees .comma) fun c => f c.bump).expect .rParen
      else c'.wrap checkpoint group (·.expect .rParen)) := by
  refine .ite (h.wrap htuple _ fun c₀ => ?_) (h.wrap hgroup _ fun c₀ => (refl c₀).expect _)
  exact ((refl c₀).repeatWhile fun c₁ => (refl c₁).bump.on hf).expect _

end Moves

namespace IsWalk

theorem skipTrivia : IsWalk Cursor.skipTrivia := fun c => (Moves.refl c).move (.skipTrivia c)

theorem bump : IsWalk Cursor.bump := fun c => (Moves.refl c).bump

theorem bumpTwice : IsWalk fun c => c.bump.bump := fun c => (Moves.refl c).bump.bump

theorem error (cause : SyntaxError.Cause) : IsWalk (Cursor.error cause) :=
  fun c => (Moves.refl c).error cause

/-- A node around a rule that may rely on what is ahead. -/
theorem nodeAt (hkind : kind.isName = false)
    (h : ∀ c₀ : Cursor, c₀.ahead = c.ahead → Moves c₀ (f c₀)) : Moves c (c.node kind f) := by
  have hstart : Moves c (c.skipTrivia.startNode kind) := (skipTrivia c).move (.startNode hkind _)
  exact Moves.move (Relation.ReflTransGen.trans hstart (h _ c.ahead_skipTrivia)) (.finishNode _)

theorem node (hkind : kind.isName = false) (hf : IsWalk f) : IsWalk (Cursor.node kind f) :=
  fun _ => nodeAt hkind fun c₀ _ => hf c₀

theorem tokenNode (hkind : kind.isName = false) : IsWalk (Cursor.tokenNode kind) :=
  node hkind bump

theorem fromHere {rule : Nat → Rule} (h : ∀ checkpoint, IsWalk (rule checkpoint)) :
    IsWalk (Cursor.fromHere rule) := fun c => (skipTrivia c).on (h _)

/-- Rules with a bound, at which they are cut off. -/
theorem bounded {ι : Type} (rule : ι → Nat → Rule) (hcut : ∀ i c, rule i 0 c = c.cutOff)
    (hstep : ∀ n, (∀ i, IsWalk (rule i n)) → ∀ i, IsWalk (rule i (n + 1))) (n : Nat) :
    ∀ i, IsWalk (rule i n) := by
  induction n with
  | zero =>
    intro i c
    rw [hcut]
    exact (Moves.refl c).move (.cutOff c)
  | succ n ih => exact hstep n ih

/-- The same for one rule. -/
theorem rounds (rule : Nat → Rule) (hcut : ∀ c, rule 0 c = c.cutOff)
    (hstep : ∀ n, IsWalk (rule n) → IsWalk (rule (n + 1))) (n : Nat) : IsWalk (rule n) :=
  bounded (fun (_ : Unit) => rule) (fun _ => hcut) (fun n h _ => hstep n (h ())) n ()

end IsWalk

open IsWalk (tokenNode)

-- ---------------------------------------------------------------------------
-- Names and types
-- ---------------------------------------------------------------------------

theorem isWalk_upperCaseName : IsWalk upperCaseName := by
  intro c
  by_cases h : c.sees .upperIdent = true
  · exact .name rfl (givesName_upperCaseName (Cursor.sees_iff.mp h))
  · rw [upperCaseName, if_neg h]
    exact (Moves.refl c).error _

theorem isWalk_recordBase : IsWalk recordBase := fun c => .ite (tokenNode rfl c).bump (.refl c)

section Types

variable {type : Rule} (htype : IsWalk type)
include htype

theorem isWalk_parenthesizedType : IsWalk (parenthesizedType type) :=
  .fromHere fun start c => .ite ((Moves.refl c).bump.wrap rfl start .bump)
    (((Moves.refl c).bump.on htype).tupleOrGroup rfl rfl htype start)

theorem isWalk_fieldType : IsWalk (fieldType type) := fun c =>
  .ite (IsWalk.node rfl (fun c₀ => (Moves.refl c₀).bump.expectThen htype) c)
    ((Moves.refl c).error _)

theorem isWalk_recordType : IsWalk (recordType type) :=
  .node rfl fun c => ((Moves.refl c).bump.on isWalk_recordBase).items (isWalk_fieldType htype)

theorem isWalk_typeArgument : IsWalk (typeArgument type) := by
  intro c
  have hskip := IsWalk.skipTrivia c
  unfold typeArgument
  dsimp only
  split
  · exact hskip.on (tokenNode rfl)
  · exact hskip.on (.node rfl isWalk_upperCaseName)
  · exact hskip.on (isWalk_parenthesizedType htype)
  · exact hskip.on (isWalk_recordType htype)
  · exact hskip.error _

theorem isWalk_typeApplication (floor : Nat) : IsWalk (typeApplication floor type) := fun c =>
  .ite (IsWalk.node rfl
      (fun c₀ => (isWalk_upperCaseName c₀).repeatWhile (isWalk_typeArgument htype)) c)
    (isWalk_typeArgument htype c)

theorem isWalk_arrows (floor n : Nat) : IsWalk (arrows floor type n) := by
  refine .rounds _ (fun _ => rfl) (fun n ih c => .ite ?_ (.refl c)) n
  have hbump := (Moves.refl c).bump
  exact .ite ((hbump.on (isWalk_typeApplication htype floor)).on ih) (hbump.error _)

theorem isWalk_typeOver (floor : Nat) : IsWalk (typeOver floor type) := by
  refine fun c => .ite (IsWalk.fromHere (fun start c => ?_) c) ((Moves.refl c).error _)
  have hfirst := isWalk_typeApplication htype floor c
  exact .ite (hfirst.wrap rfl start fun c => isWalk_arrows htype floor _ c) hfirst

end Types

theorem isWalk_type (floor : Nat) : IsWalk (Grammar.type floor) := fun c =>
  IsWalk.rounds (typeWithin floor) (fun _ => rfl)
    (fun _ ih => isWalk_typeOver ih floor) _ c

-- ---------------------------------------------------------------------------
-- Patterns
-- ---------------------------------------------------------------------------

theorem isWalk_patternFields (n : Nat) : IsWalk (patternFields n) := by
  refine .rounds _ (fun _ => rfl) (fun n ih c => .ite ?_ ((Moves.refl c).error _)) n
  have hfield : Moves c (c.tokenNode .lowerPattern) := tokenNode rfl c
  exact .ite (hfield.bump.on ih) hfield

theorem isWalk_recordPattern : IsWalk recordPattern :=
  .node rfl fun c => ((Moves.refl c).bump.on (isWalk_patternFields _)).expect _

section Patterns

variable {pattern cons : Rule} (hpattern : IsWalk pattern)
include hpattern

theorem isWalk_parenthesizedPattern : IsWalk (parenthesizedPattern pattern) :=
  .fromHere fun start c => .ite ((Moves.refl c).bump.wrap rfl start .bump)
    (((Moves.refl c).bump.on hpattern).tupleOrGroup rfl rfl hpattern start)

theorem isWalk_listPattern : IsWalk (listPattern pattern) :=
  .node rfl fun c => (Moves.refl c).bump.items hpattern

theorem isWalk_atomicPattern : IsWalk (atomicPattern pattern) := by
  intro c
  have hskip := IsWalk.skipTrivia c
  unfold atomicPattern
  dsimp only
  split
  · exact hskip.on (tokenNode rfl)
  · exact hskip.on (tokenNode rfl)
  · exact hskip.on (.node rfl isWalk_upperCaseName)
  · exact hskip.on (tokenNode rfl)
  · exact hskip.on (tokenNode rfl)
  · exact hskip.on (tokenNode rfl)
  · exact hskip.on (isWalk_parenthesizedPattern hpattern)
  · exact hskip.on (isWalk_listPattern hpattern)
  · exact hskip.on isWalk_recordPattern
  · exact .ite (hskip.on (.node rfl fun c => (Moves.refl c).bump.expect _)) (hskip.error _)

theorem isWalk_constructorPattern (floor : Nat) : IsWalk (constructorPattern floor pattern) :=
  fun c => .ite (IsWalk.node rfl
      (fun c₀ => (isWalk_upperCaseName c₀).repeatWhile (isWalk_atomicPattern hpattern)) c)
    (isWalk_atomicPattern hpattern c)

variable (hcons : IsWalk cons)
include hcons

theorem isWalk_consOver (floor : Nat) : IsWalk (consOver floor pattern cons) := by
  refine .fromHere fun start c => ?_
  have hfirst := isWalk_constructorPattern hpattern floor c
  refine .ite (hfirst.wrap rfl start fun c₀ => ?_) hfirst
  exact .ite ((Moves.refl c₀).bump.on hcons) ((Moves.refl c₀).bump.error _)

theorem isWalk_patternOver (floor : Nat) : IsWalk (patternOver floor pattern cons) := by
  refine .fromHere fun start c => ?_
  have hfirst := isWalk_consOver hpattern hcons floor c
  refine .ite (hfirst.wrap rfl start fun c₀ => ?_) hfirst
  exact .ite ((Moves.refl c₀).bump.on (tokenNode rfl)) ((Moves.refl c₀).bump.error _)

end Patterns

theorem isWalk_pattern (floor : Nat) : IsWalk (Grammar.pattern floor) := by
  -- Whole patterns and tails are nested in each other, so both come from one induction.
  let within (whole : Bool) (depth : Nat) : Rule :=
    if whole then patternWithin floor depth else consWithin floor depth
  have hcut (whole : Bool) (c : Cursor) : within whole 0 c = c.cutOff := by cases whole <;> rfl
  have hwithin (n : Nat) (whole : Bool) : IsWalk (within whole n) := by
    refine .bounded within hcut (fun n ih whole => ?_) n whole
    cases whole
    · exact isWalk_consOver (ih true) (ih false) floor
    · exact isWalk_patternOver (ih true) (ih false) floor
  exact fun c => hwithin _ true c

theorem isWalk_parameter (floor : Nat) : IsWalk (parameter floor) :=
  isWalk_atomicPattern (isWalk_pattern floor)

-- ---------------------------------------------------------------------------
-- Expressions
-- ---------------------------------------------------------------------------

theorem moves_qualifiedValue (h : c.kind? = some .upperIdent) : Moves c (qualifiedValue c) := by
  unfold qualifiedValue
  split
  · rename_i hvalue
    refine IsWalk.nodeAt rfl fun c₀ hahead => .name rfl (givesName_valueSegments ?_ ?_)
    · exact (Cursor.kind?_congr hahead).trans h
    · rwa [namesValue, hahead]
  · exact IsWalk.node rfl isWalk_upperCaseName c

section Brackets

variable {expr : Rule} (hexpr : IsWalk expr)
include hexpr

theorem isWalk_parenthesizedExpr : IsWalk (parenthesizedExpr expr) := by
  refine .fromHere fun start c => ?_
  have hopen := (Moves.refl c).bump
  exact .ite (hopen.wrap rfl start .bump) <| .ite (hopen.wrap rfl start .bumpTwice)
    ((hopen.on hexpr).tupleOrGroup rfl rfl hexpr start)

theorem isWalk_listExpr : IsWalk (listExpr expr) :=
  .node rfl fun c => (Moves.refl c).bump.items hexpr

theorem isWalk_field : IsWalk (field expr) := fun c =>
  .ite (IsWalk.node rfl (fun c₀ => (Moves.refl c₀).bump.expectThen hexpr) c)
    ((Moves.refl c).error _)

theorem isWalk_recordExpr : IsWalk (recordExpr expr) :=
  .node rfl fun c => ((Moves.refl c).bump.on isWalk_recordBase).items (isWalk_field hexpr)

theorem isWalk_atom : IsWalk (atom expr) := by
  intro c
  have hskip := IsWalk.skipTrivia c
  unfold atom
  dsimp only
  split
  · rename_i hkind
    refine Relation.ReflTransGen.trans hskip (IsWalk.nodeAt rfl fun c₀ hahead => ?_)
    exact .name rfl (givesName_tokenNode ((Cursor.kind?_congr hahead).trans hkind))
  · rename_i hkind
    exact Relation.ReflTransGen.trans hskip (moves_qualifiedValue hkind)
  · exact hskip.on (tokenNode rfl)
  · exact hskip.on (tokenNode rfl)
  · exact hskip.on (tokenNode rfl)
  · exact hskip.on (.node rfl fun c => (Moves.refl c).bump.expect _)
  · exact hskip.on (isWalk_parenthesizedExpr hexpr)
  · exact hskip.on (isWalk_listExpr hexpr)
  · exact hskip.on (isWalk_recordExpr hexpr)
  · exact hskip.error _

theorem isWalk_access : IsWalk (access expr) :=
  .fromHere fun start c => (isWalk_atom hexpr c).repeatWhile fun c₀ =>
    (Moves.refl c₀).wrap rfl start .bumpTwice

theorem isWalk_application (floor : Nat) : IsWalk (application floor expr) := by
  refine .fromHere fun start c => ?_
  have hfirst := isWalk_access hexpr c
  refine .ite (hfirst.wrap rfl start fun c₀ => ?_) hfirst
  exact (Moves.refl c₀).repeatWhile (isWalk_access hexpr)

/-! ### Operands with keywords -/

theorem isWalk_negation : IsWalk (negation expr) := .node rfl fun c =>
  .ite ((Moves.refl c).bump.on (isWalk_access hexpr)) ((Moves.refl c).bump.error _)

theorem isWalk_lambda (floor : Nat) : IsWalk (lambda floor expr) := by
  refine .node rfl fun c => ?_
  have hfirst : Moves c (if atPattern c.bump then c.bump else
      c.bump.error .expectedLambdaParameter) :=
    .ite (Moves.refl c).bump ((Moves.refl c).bump.error _)
  exact (hfirst.repeatWhile (isWalk_parameter floor)).expectThen hexpr

theorem isWalk_ifElse : IsWalk (ifElse expr) := .node rfl fun c =>
  (((Moves.refl c).bump.on hexpr).expectThen hexpr).expectThen hexpr

theorem isWalk_caseBranch (floor : Nat) : IsWalk (caseBranch floor expr) :=
  .node rfl fun c => (isWalk_pattern floor c).expectThen hexpr

omit hexpr in
theorem isWalk_typeSignature (floor : Nat) : IsWalk (typeSignature floor) :=
  .node rfl fun c => ((Moves.refl c).bump.expect _).on (isWalk_type floor)

theorem isWalk_valueDeclaration (floor : Nat) : IsWalk (valueDeclaration floor expr) := by
  refine .node rfl fun c => ?_
  have hleft : IsWalk fun c => c.bump.repeatWhile (atPatternArgument floor) (parameter floor) :=
    fun c₀ => (Moves.refl c₀).bump.repeatWhile (isWalk_parameter floor)
  exact (Moves.ite (IsWalk.node rfl hleft c) (isWalk_pattern floor c)).expectThen hexpr

theorem isWalk_letDeclaration (floor : Nat) : IsWalk (letDeclaration floor expr) := fun c =>
  .ite (isWalk_typeSignature floor c)
    (.ite (isWalk_valueDeclaration hexpr floor c) ((Moves.refl c).error _))

theorem isWalk_letDeclarations (column n : Nat) : IsWalk (letDeclarations column expr n) := by
  refine .rounds _ (fun _ => rfl) (fun n ih c => .ite ?_ (.refl c)) n
  have hfirst := isWalk_letDeclaration hexpr column c
  exact .ite hfirst (hfirst.on ih)

end Brackets

/-! ### Blocks and whole expressions -/

section Blocks

variable {expr : Nat → Rule} (hexpr : ∀ floor, IsWalk (expr floor))
include hexpr

theorem isWalk_caseBranches (floor : Nat) : IsWalk (caseBranches floor expr) := by
  intro c
  unfold caseBranches
  split
  · exact .ite ((Moves.refl c).repeatWhile (isWalk_caseBranch (hexpr _) _))
      ((Moves.refl c).error _)
  · exact (Moves.refl c).error _

theorem isWalk_caseOf (floor : Nat) : IsWalk (caseOf floor expr) := .node rfl fun c =>
  ((Moves.refl c).bump.on (hexpr floor)).expectThen (isWalk_caseBranches hexpr floor)

theorem isWalk_letBlock (floor : Nat) : IsWalk (letBlock floor expr) := by
  intro c
  unfold letBlock
  split
  · exact .ite (isWalk_letDeclarations (hexpr _) _ _ c) ((Moves.refl c).error _)
  · exact (Moves.refl c).error _

theorem isWalk_letIn (floor : Nat) : IsWalk (letIn floor expr) := .node rfl fun c =>
  ((Moves.refl c).bump.on (isWalk_letBlock hexpr floor)).expectThen (hexpr floor)

theorem isWalk_operand (floor : Nat) : IsWalk (operand floor expr) := by
  intro c
  unfold operand
  split
  · exact isWalk_lambda (hexpr floor) floor c
  · exact isWalk_ifElse (hexpr floor) c
  · exact isWalk_caseOf hexpr floor c
  · exact isWalk_letIn hexpr floor c
  · exact .ite (isWalk_negation (hexpr floor) c) (isWalk_application (hexpr floor) floor c)

theorem isWalk_operators (floor n : Nat) : IsWalk (operators floor expr n) := by
  refine .rounds _ (fun _ => rfl) (fun n ih c => .ite ?_ (.refl c)) n
  have hoperator : Moves c (c.tokenNode .operator) := tokenNode rfl c
  exact .ite ((hoperator.on (isWalk_operand hexpr floor)).on ih) (hoperator.error _)

theorem isWalk_exprOver (floor : Nat) : IsWalk (exprOver floor expr) := by
  refine fun c => .ite (IsWalk.fromHere (fun start c => ?_) c) ((Moves.refl c).error _)
  have hfirst := isWalk_operand hexpr floor c
  exact .ite (hfirst.wrap rfl start fun c => isWalk_operators hexpr floor _ c) hfirst

end Blocks

theorem isWalk_expr (floor : Nat) : IsWalk (Grammar.expr floor) := fun c =>
  IsWalk.bounded (fun floor n => exprWithin n floor) (fun _ _ => rfl)
    (fun _ ih floor => isWalk_exprOver ih floor) _ floor c

-- ---------------------------------------------------------------------------
-- The file
-- ---------------------------------------------------------------------------

theorem isWalk_recover (cause : SyntaxError.Cause) : IsWalk (recover cause) := fun c =>
  ((Moves.refl c).error cause).on (.node rfl fun c₀ => (Moves.refl c₀).bump.repeatWhile .bump)

theorem isWalk_exposedItem : IsWalk exposedItem := by
  intro c
  have hskip := IsWalk.skipTrivia c
  unfold exposedItem
  dsimp only
  split
  · exact hskip.on (tokenNode rfl)
  · refine hskip.on (.node rfl fun c₀ => .ite ((Moves.refl c₀).bump.on ?_) (Moves.refl c₀).bump)
    exact .node rfl fun c => (Moves.refl c).bump.bump.expect _
  · exact hskip.on (.node rfl fun c₀ => ((Moves.refl c₀).bump.expect _).expect _)
  · exact hskip.error _

theorem isWalk_exposedItems (n : Nat) : IsWalk (exposedItems n) :=
  .rounds _ (fun _ => rfl)
    (fun _ ih c => .ite (isWalk_exposedItem c) ((isWalk_exposedItem c).bump.on ih)) n

theorem isWalk_exposingList : IsWalk exposingList := by
  refine .node rfl fun c => (Moves.refl c).expectThen fun c₀ => ?_
  exact (Moves.ite (Moves.refl c₀).bump (isWalk_exposedItems _ c₀)).expect _

theorem isWalk_moduleDeclaration : IsWalk moduleDeclaration := .node rfl fun c =>
  ((((Moves.refl c).accept _).expect _).on isWalk_upperCaseName).expectThen isWalk_exposingList

theorem isWalk_asClause : IsWalk asClause := .node rfl fun c => (Moves.refl c).bump.expect _

theorem isWalk_importClause : IsWalk importClause := by
  have has : IsWalk fun c => if c.sees .asKw then asClause c else c := fun c =>
    .ite (isWalk_asClause c) (.refl c)
  have hexposing : IsWalk fun c => if c.sees .exposingKw then exposingList c.bump else c := fun c =>
    .ite ((Moves.refl c).bump.on isWalk_exposingList) (.refl c)
  exact .node rfl fun c =>
    ((((Moves.refl c).expect .importKw).on isWalk_upperCaseName).on has).on hexposing

theorem isWalk_portSignature (floor : Nat) : IsWalk (portSignature floor) := .node rfl fun c =>
  (((Moves.refl c).bump.expect _).expect _).on (isWalk_type floor)

theorem isWalk_typeHead : IsWalk typeHead := fun c => ((Moves.refl c).expect _).repeatWhile .bump

theorem isWalk_unionVariant (floor : Nat) : IsWalk (unionVariant floor) := by
  refine fun c => .ite (IsWalk.node rfl (fun c₀ => ?_) c) ((Moves.refl c).error _)
  exact (Moves.refl c₀).bump.repeatWhile (isWalk_typeArgument (isWalk_type floor))

theorem isWalk_unionVariants (floor : Nat) : IsWalk (unionVariants floor) := fun c =>
  (isWalk_unionVariant floor c).repeatWhile fun c₀ =>
    (Moves.refl c₀).bump.on (isWalk_unionVariant floor)

theorem isWalk_typeDeclaration (floor : Nat) : IsWalk (typeDeclaration floor) :=
  .node rfl fun c =>
    ((Moves.refl c).bump.on isWalk_typeHead).expectThen (isWalk_unionVariants floor)

theorem isWalk_typeAliasDeclaration (floor : Nat) : IsWalk (typeAliasDeclaration floor) :=
  .node rfl fun c => ((Moves.refl c).bump.bump.on isWalk_typeHead).expectThen (isWalk_type floor)

theorem isWalk_topLevelItem : IsWalk topLevelItem := by
  intro c
  unfold topLevelItem
  split
  · exact isWalk_moduleDeclaration c
  · exact isWalk_moduleDeclaration c
  · exact isWalk_portSignature 0 c
  · exact isWalk_importClause c
  · exact isWalk_typeAliasDeclaration 0 c
  · exact isWalk_typeDeclaration 0 c
  · exact isWalk_typeSignature 0 c
  · exact isWalk_valueDeclaration (isWalk_expr 0) 0 c
  · exact isWalk_recover _ c

theorem isWalk_fileItem : IsWalk fileItem := by
  refine fun c => .ite ?_ (isWalk_recover _ c)
  have hitem := isWalk_topLevelItem c
  exact .ite (hitem.on (isWalk_recover _)) hitem

theorem isWalk_file : IsWalk file := by
  intro c
  have hstart : Moves c (c.startNode .file) := (Moves.refl c).move (.startNode rfl c)
  have hitems : Moves c ((c.startNode .file).repeatWhile (!·.atEnd) fileItem) :=
    hstart.repeatWhile isWalk_fileItem
  exact (hitems.on .skipTrivia).move (.finishNode _)

/-- The cursor is on the way over the text. -/
def Cursor.IsOnWay (text : String) (c : Cursor) : Prop := Moves (.start (tokenize text)) c

theorem isOnWay_atEndOf (text : String) : (Cursor.atEndOf text).IsOnWay text := isWalk_file _

end ElmLint.Syntax

import ElmLint.Proofs.Syntax.Columns

/-!
# What nodes are made of

A text with errors may lack any part of a node, and no node then follows its production. But
whatever the errors, a node has no child that its production does not name, save that an `error`
node may stand among the items of the file. A variable and the left side of a function keep their
name, a declaration has no second left side, and a chain has operands and operators by turns.
-/

namespace ElmLint.Syntax

open Grammar
open Production (topLevelKinds exposedKinds typeKinds atomicPatternKinds consPatternKinds
  patternKinds atomKinds accessKinds operandKinds expressionKinds)

variable {c c' : Cursor} {kind : Kind} {kinds kinds' : List Kind} {rule : Rule} {sure sure' : Bool}

-- ---------------------------------------------------------------------------
-- Composed trees
-- ---------------------------------------------------------------------------

/-- The kinds that the expression names. -/
def Production.letters : RegularExpression Kind → List Kind
  | .zero | .epsilon => []
  | .char kind => [kind]
  | .plus first second | .comp first second => letters first ++ letters second
  | .star repeated => letters repeated

/-- The kinds of the nodes that a node may have as its children, be there errors or not. -/
def Kind.parts : Kind → List Kind
  | .file => .error :: topLevelKinds
  | kind => Production.letters (production kind)

/-- In spite of errors, nothing is certain to stay in a node of such a kind. -/
def Kind.isLax (kind : Kind) : Bool :=
  !([.lowerPattern, .functionDeclarationLeft, .valueDeclaration, .binOpExpr] : List Kind).contains
    kind

/-- Operators and operands by turns, where the last operator may lack its operand. -/
inductive OperatorRow : List Kind → Prop
  | nil : OperatorRow []
  | dangling : OperatorRow [.operator]
  | pair {operand : Kind} {row : List Kind} (hoperand : operand ∈ operandKinds)
    (hrow : OperatorRow row) : OperatorRow (.operator :: operand :: row)

/-- An operand, and operators with operands behind it. -/
def IsChain (kinds : List Kind) : Prop :=
  ∃ operand ∈ operandKinds, ∃ row, OperatorRow row ∧ kinds = operand :: row

namespace Tree

/-- What a node of `kind` keeps of its children in spite of errors. -/
def Keeps : Kind → List Tree → Prop
  | .lowerPattern, children | .functionDeclarationLeft, children =>
    ∃ name, .token .lowerIdent name ∈ children
  | .valueDeclaration, children => .functionDeclarationLeft ∉ (nodeKinds children).tail
  | .binOpExpr, children => IsChain (nodeKinds children)
  | _, _ => True

theorem keeps_of_isLax {kind : Kind} (h : kind.isLax = true) (children : List Tree) :
    Keeps kind children := by
  unfold Keeps
  split
  case h_5 => trivial
  all_goals cases h

inductive Composed : Tree → Prop
  | token (kind : Kind) (text : String) : Composed (.token kind text)
  | node {kind : Kind} {children : List Tree}
    (hparts : ∀ child ∈ children, child.isNode = true → child.kind ∈ kind.parts)
    (hkeeps : Keeps kind children) (hchildren : ∀ child ∈ children, child.Composed) :
    Composed (.node kind children)

/-- A token, or a composed node of one of the kinds. -/
def Among (kinds : List Kind) (_ : Nat) (tree : Tree) : Prop :=
  tree.Composed ∧ (tree.isNode = true → tree.kind ∈ kinds)

instance : AllowsTokens (Among kinds) := ⟨fun _ kind text => ⟨.token kind text, nofun⟩⟩

theorem among_of_each {column : Nat} {trees : List Tree} (h : Each (Among kinds) column trees) :
    ∀ tree ∈ trees, tree.Composed ∧ (tree.isNode = true → tree.kind ∈ kinds) := by
  intro tree htree
  obtain ⟨_, hamong⟩ := h.of_mem htree
  exact hamong

theorem composed_node {column : Nat} {trees : List Tree}
    (h : Each (Among kind.parts) column trees) (hkeeps : Keeps kind trees) :
    (Tree.node kind trees).Composed :=
  .node (fun tree htree => (among_of_each h tree htree).2) hkeeps
    fun tree htree => (among_of_each h tree htree).1

theorem nodeKinds_of_each {column : Nat} {trees : List Tree} (h : Each (Among kinds) column trees) :
    nodeKinds trees ⊆ kinds := by
  intro kind hkind
  obtain ⟨tree, htree, rfl⟩ := List.mem_map.mp hkind
  obtain ⟨hmem, hnode⟩ := List.mem_filter.mp htree
  exact (among_of_each h tree hmem).2 hnode

theorem Each.among {column : Nat} {trees : List Tree} (h : Each (Among kinds) column trees)
    (hsubset : kinds ⊆ kinds') : Each (Among kinds') column trees :=
  h.mono fun _ _ htree => ⟨htree.1, fun hnode => hsubset (htree.2 hnode)⟩

/-- Composed trees, and a single node among them if that is sure. -/
def Single (sure : Bool) (kinds : List Kind) (column : Nat) (trees : List Tree) : Prop :=
  Each (Among kinds) column trees ∧ (sure = true → ∃ kind ∈ kinds, nodeKinds trees = [kind])

theorem Single.chain {column : Nat} {first second : List Tree}
    (hfirst : Single true operandKinds column first)
    (hsecond : Each (Among (Kind.parts .binOpExpr)) (columnAfter column (textOf first)) second)
    (hrow : OperatorRow (nodeKinds second)) :
    Each (Among (Kind.parts .binOpExpr)) column (first ++ second) ∧
      IsChain (nodeKinds (first ++ second)) := by
  obtain ⟨operand, hoperand, hnodes⟩ := hfirst.2 rfl
  refine ⟨(each_append first second).mpr ⟨hfirst.1.among (by decide), hsecond⟩, operand, hoperand,
    _, hrow, ?_⟩
  rw [nodeKinds_append, hnodes]
  rfl

end Tree

open Tree (Among Keeps Each Single nodeKinds)

-- ---------------------------------------------------------------------------
-- Ways
-- ---------------------------------------------------------------------------

namespace Yields

theorem among (h : Yields (Among kinds) c c') (hsubset : kinds ⊆ kinds') :
    Yields (Among kinds') c c' := Brings.mono h fun _ _ htrees => htrees.among hsubset

/-- One node and no other. -/
theorem single (hrule : ∀ c₀ : Cursor, c₀.ahead = c.ahead → c₀.ahead = c₀.rest →
      Brings (fun column trees => Among kinds column (.node kind trees)) c₀ (rule c₀)) :
    Brings (fun column trees => Each (Among kinds) column trees ∧ nodeKinds trees = [kind]) c
      (c.node kind rule) := by
  intro huncut
  obtain ⟨trees, hemits, htrees⟩ := Yields.node hrule huncut
  obtain ⟨children, hchildren, -⟩ := hrule (c.skipTrivia.startNode kind) c.ahead_skipTrivia
    (c.ahead_skipTrivia.trans c.rest_skipTrivia.symm) huncut
  have hnodes : nodeKinds trees = [kind] := by
    rw [hemits.trees_eq (.node hchildren), Tree.nodeKinds_append, PlacedToken.nodeKinds_leaf]
    rfl
  exact ⟨trees, hemits, fun column hstands => ⟨htrees column hstands, hnodes⟩⟩

theorem wrapSingle {good good' : Nat → List Tree → Prop} (hmem : kind ∈ kinds)
    (h : Brings good c c') (hrule : ∀ c₀ : Cursor, c₀.rest = c'.rest → Brings good' c₀ (rule c₀))
    (hle : ∀ column first second, good column first →
      good' (columnAfter column (Tree.textOf first)) second →
        (Tree.node kind (first ++ second)).Composed) :
    Brings (Single sure kinds) c (c'.wrap c.builder.checkpoint kind rule) := by
  intro huncut
  have hyields : Yields (Among kinds) c (c'.wrap c.builder.checkpoint kind rule) :=
    Yields.wrap h hrule fun column first second hfirst hsecond =>
      ⟨hle column first second hfirst hsecond, fun _ => hmem⟩
  obtain ⟨trees, hemits, htrees⟩ := hyields huncut
  obtain ⟨second, hsecond, -⟩ := hrule (c'.startNodeAt c.builder.checkpoint kind) rfl huncut
  obtain ⟨first, hfirst, -⟩ := h (hsecond.isCutOff.symm.trans huncut)
  obtain rfl := hemits.trees_eq (hfirst.wrap hsecond)
  exact ⟨_, hemits, fun column hstands => ⟨htrees column hstands, fun _ => ⟨kind, hmem, rfl⟩⟩⟩

/-- A node of a kind that has to keep nothing. -/
theorem singleNode (hmem : kind ∈ kinds) (hlax : kind.isLax = true)
    (hrule : ∀ c₀ : Cursor, c₀.ahead = c.ahead → Yields (Among kind.parts) c₀ (rule c₀)) :
    Brings (Single sure kinds) c (c.node kind rule) := by
  have hsingle : Brings (fun column trees => Each (Among kinds) column trees ∧
      nodeKinds trees = [kind]) c (c.node kind rule) :=
    single fun c₀ hahead _ => Brings.mono (hrule c₀ hahead) fun _ trees htrees =>
      ⟨Tree.composed_node htrees (Tree.keeps_of_isLax hlax trees), fun _ => hmem⟩
  exact Brings.mono hsingle fun _ _ htrees => ⟨htrees.1, fun _ => ⟨kind, hmem, htrees.2⟩⟩

theorem singleToken (hmem : kind ∈ kinds) (hlax : kind.isLax = true) (c : Cursor) :
    Brings (Single sure kinds) c (Cursor.tokenNode kind c) :=
  singleNode hmem hlax fun c₀ _ => .bump c₀

theorem singleWrap (hmem : kind ∈ kinds) (hlax : kind.isLax = true)
    (h : Yields (Among kind.parts) c c')
    (hrule : ∀ c₀ : Cursor, Yields (Among kind.parts) c₀ (rule c₀)) :
    Brings (Single sure kinds) c (c'.wrap c.builder.checkpoint kind rule) :=
  wrapSingle hmem h (fun c₀ _ => hrule c₀) fun _ first second hfirst hsecond =>
    Tree.composed_node ((Tree.each_append first second).mpr ⟨hfirst, hsecond⟩)
      (Tree.keeps_of_isLax hlax _)

theorem of_single (sure : Bool) (h : Brings (Single sure kinds) c c') : Yields (Among kinds) c c' :=
  Brings.mono h fun _ _ => And.left

theorem composedNode (hmem : kind ∈ kinds) (hlax : kind.isLax = true)
    (hrule : ∀ c₀ : Cursor, c₀.ahead = c.ahead → Yields (Among kind.parts) c₀ (rule c₀)) :
    Yields (Among kinds) c (c.node kind rule) := of_single true (singleNode hmem hlax hrule)

theorem composedToken (hmem : kind ∈ kinds) (hlax : kind.isLax = true) (c : Cursor) :
    Yields (Among kinds) c (Cursor.tokenNode kind c) := composedNode hmem hlax fun c₀ _ => .bump c₀

theorem composedWrap (hmem : kind ∈ kinds) (hlax : kind.isLax = true)
    (h : Yields (Among kind.parts) c c')
    (hrule : ∀ c₀ : Cursor, Yields (Among kind.parts) c₀ (rule c₀)) :
    Yields (Among kinds) c (c'.wrap c.builder.checkpoint kind rule) :=
  of_single true (singleWrap hmem hlax h hrule)

/-- The children of a node that begins with its name. -/
theorem namedChildren
    (hkeeps : ∀ children, (∃ name, Tree.token .lowerIdent name ∈ children) → Keeps kind children)
    (hname : c.kind? = some .lowerIdent) (h : Yields (Among kind.parts) c.bump c') :
    Brings (fun column trees => Among [kind] column (.node kind trees)) c c' := by
  obtain ⟨t, tokens, ht, hkind⟩ := Cursor.ahead_of_kind? hname
  have hbump : Brings (fun column trees => Each (Among kind.parts) column trees ∧
      ∃ name, Tree.token .lowerIdent name ∈ trees) c c.bump := by
    refine fun _ => ⟨_, .bump ht, fun column _ => ⟨?_, t.text, ?_⟩⟩
    · exact (Tree.each_append _ _).mpr
        ⟨each_trivia column c, Tree.each_singleton.mpr (AllowsTokens.token _ _ _)⟩
    · exact List.mem_append_right _ (by simp [PlacedToken.leaf, hkind])
  refine Brings.trans hbump h ?_
  rintro column first second ⟨hfirst, name, hname⟩ hsecond
  have htrees := (Tree.each_append first second).mpr ⟨hfirst, hsecond⟩
  exact ⟨Tree.composed_node htrees (hkeeps _ ⟨name, List.mem_append_left _ hname⟩),
    fun _ => List.mem_singleton_self kind⟩

/-- What is in parentheses: nothing, one part, or several. -/
theorem singleParentheses {inner : Rule} {tuple group : Kind}
    (hinner : ∀ c, Yields (Among kinds') c (inner c))
    (htuple : tuple ∈ kinds ∧ kinds' ⊆ tuple.parts) (htupleLax : tuple.isLax = true)
    (hgroup : group ∈ kinds ∧ kinds' ⊆ group.parts) (hgroupLax : group.isLax = true) (c : Cursor) :
    Brings (Single sure kinds) c
      (if (inner c.bump).sees .comma then
        (inner c.bump).wrap c.builder.checkpoint tuple fun c =>
          (c.repeatWhile (·.sees .comma) fun c => inner c.bump).expect .rParen
      else (inner c.bump).wrap c.builder.checkpoint group (·.expect .rParen)) := by
  have hfirst : Yields (Among kinds') c (inner c.bump) := .trans (.bump c) (hinner c.bump)
  split
  · refine singleWrap htuple.1 htupleLax (hfirst.among htuple.2) fun c₀ => ?_
    refine .trans (.repeatWhile fun c' _ => ?_) (.expect _ _)
    exact .trans (.bump c') ((hinner c'.bump).among htuple.2)
  · exact singleWrap hgroup.1 hgroupLax (hfirst.among hgroup.2) fun c₀ => .expect _ c₀

theorem composedParentheses {inner : Rule} {tuple group : Kind}
    (hinner : ∀ c, Yields (Among kinds') c (inner c))
    (htuple : tuple ∈ kinds ∧ kinds' ⊆ tuple.parts) (htupleLax : tuple.isLax = true)
    (hgroup : group ∈ kinds ∧ kinds' ⊆ group.parts) (hgroupLax : group.isLax = true) (c : Cursor) :
    Yields (Among kinds) c
      (if (inner c.bump).sees .comma then
        (inner c.bump).wrap c.builder.checkpoint tuple fun c =>
          (c.repeatWhile (·.sees .comma) fun c => inner c.bump).expect .rParen
      else (inner c.bump).wrap c.builder.checkpoint group (·.expect .rParen)) :=
  of_single true (singleParentheses hinner htuple htupleLax hgroup hgroupLax c)

end Yields

namespace Brings

theorem among (h : Brings (Single sure kinds) c c') (hsubset : kinds ⊆ kinds') :
    Brings (Single sure kinds') c c' := by
  refine mono h fun _ _ htrees => ⟨htrees.1.among hsubset, fun hsure => ?_⟩
  obtain ⟨kind, hkind, hnodes⟩ := htrees.2 hsure
  exact ⟨kind, hsubset hkind, hnodes⟩

theorem surely (h : Brings (Single sure kinds) c c') (hle : sure' = true → sure = true) :
    Brings (Single sure' kinds) c c' := mono h fun _ _ htrees => ⟨htrees.1, htrees.2 ∘ hle⟩

theorem skipTrivia (h : Brings (Single sure kinds) c.skipTrivia c') :
    Brings (Single sure kinds) c c' := by
  have htrivia : Brings (fun column trees => Each (Among kinds) column trees ∧ nodeKinds trees = [])
      c c.skipTrivia := fun _ => ⟨_, .skipTrivia c, fun column _ =>
    ⟨Yields.each_trivia column c, PlacedToken.nodeKinds_leaf _⟩⟩
  refine trans htrivia h ?_
  rintro column first second ⟨hfirst, hnone⟩ ⟨hsecond, hnodes⟩
  refine ⟨(Tree.each_append first second).mpr ⟨hfirst, hsecond⟩, fun hsure => ?_⟩
  rw [Tree.nodeKinds_append, hnone]
  exact hnodes hsure

theorem fromHere {rule : Nat → Rule}
    (hrule : ∀ c₀ : Cursor, c₀.ahead = c.ahead → Brings (Single sure kinds) c₀
      (rule c₀.builder.checkpoint c₀)) : Brings (Single sure kinds) c (c.fromHere rule) :=
  skipTrivia (hrule c.skipTrivia c.ahead_skipTrivia)

end Brings

open Yields (singleNode singleToken singleWrap singleParentheses composedNode composedToken
  composedWrap composedParentheses)

-- ---------------------------------------------------------------------------
-- Names and types
-- ---------------------------------------------------------------------------

theorem among_upperCaseName (c : Cursor) : Yields (Among [.upperCaseQid]) c (upperCaseName c) := by
  unfold upperCaseName
  split
  · exact composedNode (by decide) rfl fun c₀ _ =>
      .trans (.bump c₀) (.repeatWhile fun c' _ => .trans (.bump c') (.bump _))
  · exact .error _ (.refl _ c)

theorem among_valueSegments (rounds : Nat) (c : Cursor) :
    Yields (Among []) c (valueSegments rounds c) := by
  induction rounds generalizing c with
  | zero => exact .cutOff _ c
  | succ rounds ih =>
    have hsegment : Yields (Among []) c c.bump.bump := .trans (.bump c) (.bump _)
    rw [valueSegments]
    split
    · exact hsegment.trans (ih _)
    split
    · exact hsegment
    · exact .refl _ c

theorem among_recordBase (c : Cursor) :
    Yields (Among [.recordBaseIdentifier]) c (recordBase c) := by
  unfold recordBase
  split
  · exact (composedToken (by decide) rfl c).trans (.bump _)
  · exact .refl _ c

section Types

variable {type : Rule} (htype : ∀ c, Yields (Among typeKinds) c (type c))
include htype

theorem among_parenthesizedType (c : Cursor) :
    Yields (Among typeKinds) c (parenthesizedType type c) := by
  refine .fromHere fun c₀ _ _ => ?_
  dsimp only
  split
  · exact composedWrap (by decide) rfl (.bump c₀) fun c₁ => .bump c₁
  · exact composedParentheses htype (by decide) rfl (by decide) rfl c₀

theorem among_fieldType (c : Cursor) : Yields (Among [.fieldType]) c (fieldType type c) := by
  unfold fieldType
  split
  · exact composedNode (by decide) rfl fun c₀ _ =>
      .trans (.bump c₀) (.expectThen ((htype _).among (by decide)))
  · exact .error _ (.refl _ c)

theorem among_recordType (c : Cursor) : Yields (Among typeKinds) c (recordType type c) := by
  refine composedNode (by decide) rfl fun c₀ _ => ?_
  exact ((Yields.bump c₀).trans ((among_recordBase _).among (by decide))).trans
    (.items (fun c' => (among_fieldType htype c').among (by decide)) _)

theorem among_typeArgument (c : Cursor) : Yields (Among typeKinds) c (typeArgument type c) := by
  refine .skipTrivia ?_
  unfold typeArgument
  dsimp only
  split
  case h_1 => exact composedToken (by decide) rfl _
  case h_2 =>
    exact composedNode (by decide) rfl fun c₀ _ => (among_upperCaseName c₀).among (by decide)
  case h_3 => exact among_parenthesizedType htype _
  case h_4 => exact among_recordType htype _
  case h_5 => exact .error _ (.refl _ _)

theorem among_typeApplication (floor : Nat) (c : Cursor) :
    Yields (Among typeKinds) c (typeApplication floor type c) := by
  unfold typeApplication
  split
  · exact composedNode (by decide) rfl fun c₀ _ =>
      ((among_upperCaseName c₀).among (by decide)).trans
        (.repeatWhile fun c' _ => (among_typeArgument htype c').among (by decide))
  · exact among_typeArgument htype c

theorem among_arrows (floor rounds : Nat) (c : Cursor) :
    Yields (Among typeKinds) c (arrows floor type rounds c) := by
  induction rounds generalizing c with
  | zero => exact .cutOff _ c
  | succ rounds ih =>
    rw [arrows]
    split
    · refine .trans (.bump c) ?_
      dsimp only
      split
      · exact (among_typeApplication htype floor _).trans (ih _)
      · exact .error _ (.refl _ _)
    · exact .refl _ c

theorem among_typeOver (floor : Nat) (c : Cursor) :
    Yields (Among typeKinds) c (typeOver floor type c) := by
  unfold typeOver
  split
  · refine .fromHere fun c₀ _ _ => ?_
    dsimp only
    split
    · exact composedWrap (by decide) rfl
        ((among_typeApplication htype floor c₀).among (by decide))
        fun c₁ => (among_arrows htype floor _ c₁).among (by decide)
    · exact among_typeApplication htype floor c₀
  · exact .error _ (.refl _ c)

end Types

theorem among_type (floor : Nat) (c : Cursor) :
    Yields (Among typeKinds) c (Grammar.type floor c) := by
  have hwithin (depth : Nat) (c : Cursor) :
      Yields (Among typeKinds) c (typeWithin floor depth c) := by
    induction depth generalizing c with
    | zero => exact .cutOff _ c
    | succ depth ih => exact among_typeOver ih floor c
  exact hwithin _ c

-- ---------------------------------------------------------------------------
-- Patterns
-- ---------------------------------------------------------------------------

theorem among_lowerPattern (h : c.kind? = some .lowerIdent) :
    Yields (Among [.lowerPattern]) c (Cursor.tokenNode .lowerPattern c) :=
  .node fun _ hahead _ => Yields.namedChildren (fun _ hname => hname)
    ((Cursor.kind?_congr hahead).trans h) (.refl _ _)

theorem among_patternFields (rounds : Nat) (c : Cursor) :
    Yields (Among [.lowerPattern]) c (patternFields rounds c) := by
  induction rounds generalizing c with
  | zero => exact .cutOff _ c
  | succ rounds ih =>
    rw [patternFields]
    split
    · rename_i hname
      have hfield := among_lowerPattern (Cursor.sees_iff.mp hname)
      dsimp only
      split
      · exact (hfield.trans (.bump _)).trans (ih _)
      · exact hfield
    · exact .error _ (.refl _ c)

section Patterns

variable {pattern cons : Rule} (hpattern : ∀ c, Yields (Among patternKinds) c (pattern c))
include hpattern

theorem among_parenthesizedPattern (c : Cursor) :
    Yields (Among atomicPatternKinds) c (parenthesizedPattern pattern c) := by
  refine .fromHere fun c₀ _ _ => ?_
  dsimp only
  split
  · exact composedWrap (by decide) rfl (.bump c₀) fun c₁ => .bump c₁
  · exact composedParentheses hpattern (by decide) rfl (by decide) rfl c₀

theorem among_atomicPattern (c : Cursor) :
    Yields (Among atomicPatternKinds) c (atomicPattern pattern c) := by
  refine .skipTrivia ?_
  unfold atomicPattern
  dsimp only
  split
  case h_1 hname => exact (among_lowerPattern hname).among (by decide)
  case h_2 | h_4 | h_5 | h_6 => exact composedToken (by decide) rfl _
  case h_3 =>
    exact composedNode (by decide) rfl fun c₀ _ => (among_upperCaseName c₀).among (by decide)
  case h_7 => exact among_parenthesizedPattern hpattern _
  case h_8 =>
    exact composedNode (by decide) rfl fun c₀ _ =>
      .trans (.bump c₀) (.items (fun c' => (hpattern c').among (by decide)) _)
  case h_9 =>
    refine composedNode (by decide) rfl fun c₀ _ => ?_
    exact .trans (.trans (.bump c₀) ((among_patternFields _ _).among (by decide))) (.expect _ _)
  case h_10 =>
    split
    · exact composedNode (by decide) rfl fun c₀ _ => .trans (.bump c₀) (.expect _ _)
    · exact .error _ (.refl _ _)

theorem among_constructorPattern (floor : Nat) (c : Cursor) :
    Yields (Among atomicPatternKinds) c (constructorPattern floor pattern c) := by
  unfold constructorPattern
  split
  · exact composedNode (by decide) rfl fun c₀ _ =>
      ((among_upperCaseName c₀).among (by decide)).trans
        (.repeatWhile fun c' _ => (among_atomicPattern hpattern c').among (by decide))
  · exact among_atomicPattern hpattern c

variable (hcons : ∀ c, Yields (Among consPatternKinds) c (cons c))
include hcons

theorem among_consOver (floor : Nat) (c : Cursor) :
    Yields (Among consPatternKinds) c (consOver floor pattern cons c) := by
  refine .fromHere fun c₀ _ _ => ?_
  have hfirst := among_constructorPattern hpattern floor c₀
  dsimp only
  split
  · refine composedWrap (by decide) rfl (hfirst.among (by decide)) fun c₁ => ?_
    refine .trans (.bump c₁) ?_
    split
    · exact (hcons _).among (by decide)
    · exact .error _ (.refl _ _)
  · exact hfirst.among (List.subset_cons_self _ _)

theorem among_patternOver (floor : Nat) (c : Cursor) :
    Yields (Among patternKinds) c (patternOver floor pattern cons c) := by
  refine .fromHere fun c₀ _ _ => ?_
  have hfirst := among_consOver hpattern hcons floor c₀
  dsimp only
  split
  · refine composedWrap (by decide) rfl (hfirst.among (by decide)) fun c₁ => ?_
    refine .trans (.bump c₁) ?_
    split
    · rename_i hname
      exact (among_lowerPattern (Cursor.sees_iff.mp hname)).among (by decide)
    · exact .error _ (.refl _ _)
  · exact hfirst.among (List.subset_cons_self _ _)

end Patterns

theorem among_pattern (floor : Nat) (c : Cursor) :
    Yields (Among patternKinds) c (Grammar.pattern floor c) := by
  have hwithin (depth : Nat) :
      (∀ c, Yields (Among patternKinds) c (patternWithin floor depth c)) ∧
        ∀ c, Yields (Among consPatternKinds) c (consWithin floor depth c) := by
    induction depth with
    | zero => exact ⟨fun c => .cutOff _ c, fun c => .cutOff _ c⟩
    | succ depth ih =>
      exact ⟨among_patternOver ih.1 ih.2 floor, among_consOver ih.1 ih.2 floor⟩
  exact (hwithin _).1 c

theorem among_parameter (floor : Nat) (c : Cursor) :
    Yields (Among atomicPatternKinds) c (parameter floor c) :=
  among_atomicPattern (among_pattern floor) c

-- ---------------------------------------------------------------------------
-- Expressions
-- ---------------------------------------------------------------------------

theorem single_qualifiedValue (c : Cursor) :
    Brings (Single sure atomKinds) c (qualifiedValue c) := by
  unfold qualifiedValue
  split
  · refine singleNode (by decide) rfl fun c₀ _ => ?_
    exact composedNode (by decide) rfl fun c₁ _ => .trans (.bump c₁) (among_valueSegments _ _)
  · exact singleNode (by decide) rfl fun c₀ _ => (among_upperCaseName c₀).among (by decide)

theorem among_typeSignature (floor : Nat) (c : Cursor) :
    Yields (Among [.typeSignature]) c (typeSignature floor c) :=
  composedNode (by decide) rfl fun c₀ _ =>
    .trans (.trans (.bump c₀) (.expect _ _)) ((among_type floor _).among (by decide))

/-- The left side of a function, which begins with the name. -/
theorem brings_functionLeft (floor : Nat) (hname : c.kind? = some .lowerIdent) :
    Brings (fun column trees => Each (Among [.functionDeclarationLeft]) column trees ∧
      nodeKinds trees = [.functionDeclarationLeft]) c
      (c.node .functionDeclarationLeft fun c =>
        c.bump.repeatWhile (atPatternArgument floor) (parameter floor)) := by
  refine Yields.single fun c₀ hahead _ => ?_
  refine Yields.namedChildren (fun _ hname => hname)
    ((Cursor.kind?_congr hahead).trans hname) ?_
  exact .repeatWhile fun c' _ => (among_parameter floor c').among (by decide)

section Expressions

variable {expr : Rule} (hexpr : ∀ c, Yields (Among expressionKinds) c (expr c))
include hexpr

theorem single_parenthesizedExpr (c : Cursor) :
    Brings (Single sure atomKinds) c (parenthesizedExpr expr c) := by
  refine .fromHere fun c₀ _ => ?_
  dsimp only
  split
  · exact singleWrap (by decide) rfl (.bump c₀) fun c₁ => .bump c₁
  split
  · exact singleWrap (by decide) rfl (.bump c₀) fun c₁ => .trans (.bump c₁) (.bump _)
  · exact singleParentheses hexpr (by decide) rfl (by decide) rfl c₀

theorem among_field (c : Cursor) : Yields (Among [.field]) c (field expr c) := by
  unfold field
  split
  · exact composedNode (by decide) rfl fun c₀ _ =>
      .trans (.bump c₀) (.expectThen ((hexpr _).among (by decide)))
  · exact .error _ (.refl _ c)

theorem single_atom (c : Cursor) : Brings (Single (atAtom c) atomKinds) c (atom expr c) := by
  refine .skipTrivia ?_
  rw [← atAtom_congr c.ahead_skipTrivia]
  unfold atom
  dsimp only
  split
  case h_1 => exact singleNode (by decide) rfl fun c₀ _ => composedToken (by decide) rfl c₀
  case h_2 => exact single_qualifiedValue _
  case h_3 | h_4 | h_5 => exact singleToken (by decide) rfl _
  case h_6 => exact singleNode (by decide) rfl fun c₀ _ => .trans (.bump c₀) (.expect _ _)
  case h_7 => exact single_parenthesizedExpr hexpr _
  case h_8 =>
    exact singleNode (by decide) rfl fun c₀ _ =>
      .trans (.bump c₀) (.items (fun c' => (hexpr c').among (by decide)) _)
  case h_9 =>
    refine singleNode (by decide) rfl fun c₀ _ => ?_
    exact .trans (.trans (.bump c₀) ((among_recordBase _).among (by decide)))
      (.items (fun c' => (among_field hexpr c').among (by decide)) _)
  case h_10 =>
    refine .error _ (Brings.mono (Yields.refl _ _) fun _ _ htrees => ⟨htrees, fun hat => ?_⟩)
    obtain ⟨kind, hmem, hkind⟩ := kind?_of_atAtom hat
    simp only [atomStarts, List.mem_cons, List.not_mem_nil, or_false] at hmem
    obtain rfl | rfl | rfl | rfl | rfl | rfl | rfl | rfl | rfl := hmem <;> contradiction

theorem single_access (c : Cursor) :
    Brings (Single (atAtom c) accessKinds) c (access expr c) := by
  refine .fromHere fun c₀ hahead => ?_
  rw [← atAtom_congr hahead]
  refine Cursor.repeatWhile_keeps (fun _ _ => .cutOff _ c₀) (fun c' h _ => ?_)
    ((single_atom hexpr c₀).among (List.subset_cons_self _ _))
  exact singleWrap (by decide) rfl ((Yields.of_single _ h).among (by decide))
    fun c₁ => .trans (.bump c₁) (.bump _)

theorem among_access (c : Cursor) : Yields (Among accessKinds) c (access expr c) :=
  .of_single _ (single_access hexpr c)

theorem single_application (floor : Nat) (c : Cursor) :
    Brings (Single (atAtom c) operandKinds) c (application floor expr c) := by
  refine .fromHere fun c₀ hahead => ?_
  rw [← atAtom_congr hahead]
  dsimp only
  split
  · exact singleWrap (by decide) rfl ((among_access hexpr c₀).among (by decide))
      fun c₁ => .repeatWhile fun c' _ => (among_access hexpr c').among (by decide)
  · exact (single_access hexpr c₀).among (by decide)

theorem single_negation (c : Cursor) : Brings (Single sure operandKinds) c (negation expr c) := by
  refine singleNode (by decide) rfl fun c₀ _ => .trans (.bump c₀) ?_
  dsimp only
  split
  · exact (among_access hexpr _).among (by decide)
  · exact .error _ (.refl _ _)

theorem single_lambda (floor : Nat) (c : Cursor) :
    Brings (Single sure operandKinds) c (lambda floor expr c) := by
  refine singleNode (by decide) rfl fun c₀ _ => .trans (.bump c₀) ?_
  have hparameters (c' : Cursor) : Yields (Among (Kind.parts .anonymousFunctionExpr)) c'
      (c'.repeatWhile atPattern (parameter floor)) :=
    .repeatWhile fun c'' _ => (among_parameter floor c'').among (by decide)
  refine .trans ?_ (.expectThen ((hexpr _).among (by decide)))
  split
  · exact hparameters _
  · exact .trans (.error _ (.refl _ _)) (hparameters _)

theorem single_ifElse (c : Cursor) : Brings (Single sure operandKinds) c (ifElse expr c) := by
  refine singleNode (by decide) rfl fun c₀ _ => .trans (.bump c₀) ?_
  have hpart (c' : Cursor) : Yields (Among (Kind.parts .ifElseExpr)) c' (expr c') :=
    (hexpr c').among (by decide)
  exact .trans (.trans (hpart _) (.expectThen (hpart _))) (.expectThen (hpart _))

theorem among_caseBranch (floor : Nat) (c : Cursor) :
    Yields (Among [.caseOfBranch]) c (caseBranch floor expr c) :=
  composedNode (by decide) rfl fun c₀ _ =>
    .trans ((among_pattern floor c₀).among (by decide)) (.expectThen ((hexpr _).among (by decide)))

/-- The left side of a function comes first, if there is one, and no further one comes behind the
equals sign. -/
theorem among_valueDeclaration (floor : Nat) (c : Cursor) :
    Yields (Among [.valueDeclaration]) c (valueDeclaration floor expr c) := by
  refine .node fun c₀ _ _ => ?_
  have hfront : Brings (fun column trees =>
      Each (Among (Kind.parts .valueDeclaration)) column trees ∧
        .functionDeclarationLeft ∉ (nodeKinds trees).tail) c₀
      (if c₀.sees .lowerIdent then c₀.node .functionDeclarationLeft fun c =>
        c.bump.repeatWhile (atPatternArgument floor) (parameter floor)
      else Grammar.pattern floor c₀) := by
    split
    · rename_i hname
      refine Brings.mono (brings_functionLeft floor (Cursor.sees_iff.mp hname)) ?_
      rintro column trees ⟨htrees, hnodes⟩
      exact ⟨htrees.among (by decide), by simp [hnodes]⟩
    · refine Brings.mono (among_pattern floor c₀) fun column trees htrees => ?_
      refine ⟨htrees.among (by decide), fun hleft => ?_⟩
      exact absurd (Tree.nodeKinds_of_each htrees (List.mem_of_mem_tail hleft)) (by decide)
  have hback (c' : Cursor) : Yields (Among expressionKinds) c' (c'.expectThen .eq expr) :=
    .expectThen (hexpr _)
  refine Brings.trans hfront (hback _) ?_
  rintro column first second ⟨hfirst, hleft⟩ hsecond
  have htrees := (Tree.each_append first second).mpr ⟨hfirst, hsecond.among (by decide)⟩
  refine ⟨Tree.composed_node htrees fun hmem => ?_, fun _ => List.mem_singleton_self _⟩
  rw [Tree.nodeKinds_append] at hmem
  have hbehind : .functionDeclarationLeft ∉ nodeKinds second := fun hmem =>
    absurd (Tree.nodeKinds_of_each hsecond hmem) (by decide)
  cases hnodes : nodeKinds first with
  | nil => exact hbehind (List.mem_of_mem_tail (by simpa [hnodes] using hmem))
  | cons kind kinds =>
    rw [hnodes, List.tail_cons] at hleft
    simp [hnodes, hleft, hbehind] at hmem

theorem among_letDeclaration (floor : Nat) (c : Cursor) :
    Yields (Among [.typeSignature, .valueDeclaration]) c (letDeclaration floor expr c) := by
  unfold letDeclaration
  split
  · exact (among_typeSignature floor c).among (by decide)
  split
  · exact (among_valueDeclaration hexpr floor c).among (by decide)
  · exact .error _ (.refl _ c)

theorem among_letDeclarations (floor rounds : Nat) (c : Cursor) :
    Yields (Among [.typeSignature, .valueDeclaration]) c
      (letDeclarations floor expr rounds c) := by
  induction rounds generalizing c with
  | zero => exact .cutOff _ c
  | succ rounds ih =>
    have hfirst := among_letDeclaration hexpr floor c
    rw [letDeclarations]
    split
    · dsimp only
      split
      · exact hfirst
      · exact hfirst.trans (ih _)
    · exact .refl _ c

end Expressions

section Blocks

variable {expr : Nat → Rule} (hexpr : ∀ floor c, Yields (Among expressionKinds) c (expr floor c))
include hexpr

theorem among_caseBranches (floor : Nat) (c : Cursor) :
    Yields (Among [.caseOfBranch]) c (caseBranches floor expr c) := by
  unfold caseBranches
  split
  · split
    · exact .repeatWhile fun c' _ => among_caseBranch (hexpr _) _ c'
    · exact .error _ (.refl _ c)
  · exact .error _ (.refl _ c)

theorem single_caseOf (floor : Nat) (c : Cursor) :
    Brings (Single sure operandKinds) c (caseOf floor expr c) :=
  singleNode (by decide) rfl fun c₀ _ =>
    .trans (.trans (.bump c₀) ((hexpr floor _).among (by decide)))
      (.expectThen ((among_caseBranches hexpr floor _).among (by decide)))

theorem among_letBlock (floor : Nat) (c : Cursor) :
    Yields (Among [.typeSignature, .valueDeclaration]) c (letBlock floor expr c) := by
  unfold letBlock
  split
  · split
    · exact among_letDeclarations (hexpr _) _ _ c
    · exact .error _ (.refl _ c)
  · exact .error _ (.refl _ c)

theorem single_letIn (floor : Nat) (c : Cursor) :
    Brings (Single sure operandKinds) c (letIn floor expr c) :=
  singleNode (by decide) rfl fun c₀ _ =>
    .trans (.trans (.bump c₀) ((among_letBlock hexpr floor _).among (by decide)))
      (.expectThen ((hexpr floor _).among (by decide)))

theorem single_operand (floor : Nat) (c : Cursor) :
    Brings (Single (atOperand c) operandKinds) c (operand floor expr c) := by
  unfold operand
  split
  case h_1 => exact single_lambda (hexpr floor) floor c
  case h_2 => exact single_ifElse (hexpr floor) c
  case h_3 => exact single_caseOf hexpr floor c
  case h_4 => exact single_letIn hexpr floor c
  case h_5 =>
    split
    · exact single_negation (hexpr floor) c
    · rename_i hminus
      refine (single_application (hexpr floor) floor c).surely fun hat => ?_
      simp only [atOperand, hminus, Bool.or_false, Bool.or_eq_true] at hat
      refine hat.resolve_right fun hkeyword => ?_
      obtain ⟨kind, hmem, hkind⟩ := Cursor.kind?_of_seesAny hkeyword
      simp only [List.mem_cons, List.not_mem_nil, or_false] at hmem
      obtain rfl | rfl | rfl | rfl := hmem <;> contradiction

theorem brings_operators (floor rounds : Nat) (c : Cursor) :
    Brings (fun column trees => Each (Among (Kind.parts .binOpExpr)) column trees ∧
      OperatorRow (nodeKinds trees)) c (operators floor expr rounds c) := by
  induction rounds generalizing c with
  | zero => exact .cutOff _ c
  | succ rounds ih =>
    have hoperatorKind : Kind.operator ∈ Kind.parts .binOpExpr := by decide
    have hoperator : Brings (fun column trees =>
        Each (Among (Kind.parts .binOpExpr)) column trees ∧ nodeKinds trees = [.operator]) c
        (Cursor.tokenNode .operator c) :=
      Yields.single fun c₀ _ _ => Brings.mono (Yields.bump c₀) fun _ trees htrees =>
        ⟨Tree.composed_node htrees (Tree.keeps_of_isLax rfl trees), fun _ => hoperatorKind⟩
    rw [operators]
    dsimp only
    split
    case isFalse => exact fun _ => ⟨[], .refl c, fun column _ => ⟨Tree.each_nil _ column, .nil⟩⟩
    split
    case isFalse =>
      refine .error _ (Brings.mono hoperator ?_)
      rintro column trees ⟨htrees, hnodes⟩
      exact ⟨htrees, hnodes ▸ .dangling⟩
    case isTrue hat =>
      have hoperand := single_operand hexpr floor (Cursor.tokenNode .operator c)
      rw [(Bool.and_eq_true_iff.mp hat).1] at hoperand
      have hchain : Brings (fun column trees =>
          Each (Among (Kind.parts .binOpExpr)) column trees ∧ IsChain (nodeKinds trees))
          (Cursor.tokenNode .operator c) _ :=
        Brings.trans hoperand (ih _) fun _ _ _ hfirst hrest => hfirst.chain hrest.1 hrest.2
      refine Brings.trans hoperator hchain ?_
      rintro column first second ⟨hfirst, hnodes⟩ ⟨hsecond, operand, hkind, row, hrow, hword⟩
      refine ⟨(Tree.each_append first second).mpr ⟨hfirst, hsecond⟩, ?_⟩
      rw [Tree.nodeKinds_append, hnodes, hword]
      exact .pair hkind hrow

theorem among_exprOver (floor : Nat) (c : Cursor) :
    Yields (Among expressionKinds) c (exprOver floor expr c) := by
  unfold exprOver
  split
  case isFalse => exact .error _ (.refl _ c)
  case isTrue hat =>
    refine .fromHere fun c₀ hahead _ => ?_
    have hfirst := single_operand hexpr floor c₀
    rw [atOperand_congr hahead, (Bool.and_eq_true_iff.mp hat).1] at hfirst
    dsimp only
    split
    · refine .wrap hfirst (fun c₁ _ => brings_operators hexpr floor _ c₁) ?_
      rintro column first second hfirst ⟨hsecond, hrow⟩
      have hchain := hfirst.chain hsecond hrow
      exact ⟨Tree.composed_node hchain.1 hchain.2, fun _ => List.mem_cons_self⟩
    · exact (Yields.of_single _ hfirst).among (List.subset_cons_self _ _)

end Blocks

theorem among_expr (floor : Nat) (c : Cursor) :
    Yields (Among expressionKinds) c (Grammar.expr floor c) := by
  have hwithin (depth floor : Nat) (c : Cursor) :
      Yields (Among expressionKinds) c (exprWithin depth floor c) := by
    induction depth generalizing floor c with
    | zero => exact .cutOff _ c
    | succ depth ih => exact among_exprOver ih floor c
  exact hwithin _ floor c

-- ---------------------------------------------------------------------------
-- Header, imports and type declarations
-- ---------------------------------------------------------------------------

theorem among_exposedItem (c : Cursor) : Yields (Among exposedKinds) c (exposedItem c) := by
  refine .skipTrivia ?_
  unfold exposedItem
  dsimp only
  split
  · exact composedToken (by decide) rfl _
  · refine composedNode (by decide) rfl fun c₀ _ => .trans (.bump c₀) ?_
    split
    · exact composedNode (by decide) rfl fun c₁ _ =>
        .trans (.trans (.bump c₁) (.bump _)) (.expect _ _)
    · exact .refl _ _
  · exact composedNode (by decide) rfl fun c₀ _ =>
      .trans (.trans (.bump c₀) (.expect _ _)) (.expect _ _)
  · exact .error _ (.refl _ _)

theorem among_exposedItems (rounds : Nat) (c : Cursor) :
    Yields (Among exposedKinds) c (exposedItems rounds c) := by
  induction rounds generalizing c with
  | zero => exact .cutOff _ c
  | succ rounds ih =>
    have hitem := among_exposedItem c
    rw [exposedItems]
    split
    · exact hitem
    · exact (hitem.trans (.bump _)).trans (ih _)

theorem among_exposingList (c : Cursor) : Yields (Among [.exposingList]) c (exposingList c) := by
  refine composedNode (by decide) rfl fun c₀ _ => .expectThen (.trans ?_ (.expect _ _))
  split
  · exact .bump _
  · exact (among_exposedItems _ _).among (by decide)

theorem among_moduleDeclaration (c : Cursor) :
    Yields (Among topLevelKinds) c (moduleDeclaration c) := by
  refine composedNode (by decide) rfl fun c₀ _ => ?_
  have hkeywords : Yields (Among (Kind.parts .moduleDeclaration)) c₀
      ((c₀.accept .portKw).expect .moduleKw) := .trans (.accept _ c₀) (.expect _ _)
  exact (hkeywords.trans ((among_upperCaseName _).among (by decide))).trans
    (.expectThen ((among_exposingList _).among (by decide)))

theorem among_importClause (c : Cursor) : Yields (Among topLevelKinds) c (importClause c) := by
  refine composedNode (by decide) rfl fun c₀ _ => ?_
  have hclause (c₁ : Cursor) : Yields (Among (Kind.parts .importClause)) c₁
      (if c₁.sees .asKw then asClause c₁ else c₁) := by
    split
    · exact composedNode (by decide) rfl fun c₂ _ => .trans (.bump c₂) (.expect _ _)
    · exact .refl _ c₁
  have hexposing (c₁ : Cursor) : Yields (Among (Kind.parts .importClause)) c₁
      (if c₁.sees .exposingKw then exposingList c₁.bump else c₁) := by
    split
    · exact .trans (.bump c₁) ((among_exposingList _).among (by decide))
    · exact .refl _ c₁
  have hname : Yields (Among (Kind.parts .importClause)) c₀
      (upperCaseName (c₀.expect .importKw)) :=
    .trans (.expect _ c₀) ((among_upperCaseName _).among (by decide))
  exact (hname.trans (hclause _)).trans (hexposing _)

theorem among_portSignature (floor : Nat) (c : Cursor) :
    Yields (Among topLevelKinds) c (portSignature floor c) :=
  composedNode (by decide) rfl fun c₀ _ =>
    .trans (.trans (.trans (.bump c₀) (.expect _ _)) (.expect _ _))
      ((among_type floor _).among (by decide))

theorem among_typeHead (c : Cursor) : Yields (Among kinds) c (typeHead c) :=
  .trans (.expect _ c) (.repeatWhile fun c' _ => .bump c')

theorem among_unionVariant (floor : Nat) (c : Cursor) :
    Yields (Among [.unionVariant]) c (unionVariant floor c) := by
  unfold unionVariant
  split
  · exact composedNode (by decide) rfl fun c₀ _ => .trans (.bump c₀)
      (.repeatWhile fun c' _ => (among_typeArgument (among_type floor) c').among (by decide))
  · exact .error _ (.refl _ c)

theorem among_unionVariants (floor : Nat) (c : Cursor) :
    Yields (Among [.unionVariant]) c (unionVariants floor c) :=
  (among_unionVariant floor c).trans
    (.repeatWhile fun c' _ => .trans (.bump c') (among_unionVariant floor _))

theorem among_typeDeclaration (floor : Nat) (c : Cursor) :
    Yields (Among topLevelKinds) c (typeDeclaration floor c) :=
  composedNode (by decide) rfl fun c₀ _ => .trans (.trans (.bump c₀) (among_typeHead _))
    (.expectThen ((among_unionVariants floor _).among (by decide)))

theorem among_typeAliasDeclaration (floor : Nat) (c : Cursor) :
    Yields (Among topLevelKinds) c (typeAliasDeclaration floor c) :=
  composedNode (by decide) rfl fun c₀ _ =>
    .trans (.trans (.trans (.bump c₀) (.bump _)) (among_typeHead _))
      (.expectThen ((among_type floor _).among (by decide)))

-- ---------------------------------------------------------------------------
-- The file
-- ---------------------------------------------------------------------------

/-- What is passed over is in one node, as it stands. -/
theorem among_recover (cause : SyntaxError.Cause) (c : Cursor) :
    Yields (Among (Kind.parts .file)) c (recover cause c) := by
  have hnode : Yields (Among (Kind.parts .file)) (c.error cause) (recover cause c) :=
    composedNode (by decide) rfl fun c₀ _ => .trans (.bump c₀) (.repeatWhile fun c' _ => .bump c')
  exact hnode.behindError

theorem among_topLevelItem (c : Cursor) :
    Yields (Among (Kind.parts .file)) c (topLevelItem c) := by
  have hitem {c' : Cursor} (h : Yields (Among topLevelKinds) c c') :
      Yields (Among (Kind.parts .file)) c c' := h.among (List.subset_cons_self _ _)
  unfold topLevelItem
  split
  case h_1 | h_2 => exact hitem (among_moduleDeclaration c)
  case h_3 => exact hitem (among_portSignature 0 c)
  case h_4 => exact hitem (among_importClause c)
  case h_5 => exact hitem (among_typeAliasDeclaration 0 c)
  case h_6 => exact hitem (among_typeDeclaration 0 c)
  case h_7 => exact (among_typeSignature 0 c).among (by decide)
  case h_8 => exact (among_valueDeclaration (among_expr 0) 0 c).among (by decide)
  case h_9 => exact among_recover _ c

/-- Whatever the text, its tree is composed. -/
theorem composed_parse (text : String) : (parse text).tree.Composed := by
  obtain ⟨trees, hemits, htrees⟩ := Yields.fileItems (fun c _ => among_topLevelItem c)
    among_recover (.beforeItems text) (isCutOff_behindItems text)
  rw [tree_parse hemits]
  exact Tree.composed_node (htrees 0 ((stands_start text).of_rest rfl)) (Tree.keeps_of_isLax rfl _)

end ElmLint.Syntax

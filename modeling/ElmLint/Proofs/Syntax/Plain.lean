import ElmLint.Proofs.Syntax.Layout

/-!
# Plain nodes

In a plain node there is nothing to lay out. Names, types and patterns are plain, and so are all
items of a file but the declarations of values.
-/

namespace ElmLint.Syntax

open Grammar

variable {c c' : Cursor} {kind : Kind} {rule : Rule}

/-- Nothing opens such a node, and it may be a part of any node. -/
def Kind.isPlain (kind : Kind) : Bool := kind.isUnled && !kind.isDependent

namespace Tree

inductive IsPlain : Tree → Prop
  | token (kind : Kind) (text : String) : IsPlain (.token kind text)
  | node {kind : Kind} {children : List Tree} (hkind : kind.isPlain = true)
    (hchildren : ∀ child ∈ children, child.IsPlain) : IsPlain (.node kind children)

/-- A plain tree, wherever it stands. -/
def Plain (_ : Nat) (tree : Tree) : Prop := tree.IsPlain

/-- A plain node, white space, or a comment. -/
def PlainPart (_ : Nat) (tree : Tree) : Prop :=
  tree.IsPlain ∧ (tree.isNode = false → tree.kind.isTrivia = true)

instance : AllowsTokens Plain := ⟨fun _ kind text => .token kind text⟩

instance : AllowsTrivia PlainPart := ⟨fun _ kind text h => ⟨.token kind text, fun _ => h⟩⟩

theorem IsPlain.laidAs {tree : Tree} (h : tree.IsPlain) (floor? : Option Nat) (column : Nat) :
    tree.LaidAs floor? Free column := by
  induction h generalizing column with
  | token kind text => exact ⟨.token _ _ _ _, fun hnode => Bool.noConfusion hnode⟩
  | @node kind children hkind _ ih =>
    rw [Kind.isPlain, Bool.and_eq_true, Bool.not_eq_true'] at hkind
    exact ⟨laid_of_isUnled hkind.1 fun item hitem => ih _ (mem_of_mem_columnsFrom hitem) _,
      fun _ => hkind.2⟩

theorem isPlain_of_each {column : Nat} {trees : List Tree} (h : Each Plain column trees) :
    ∀ tree ∈ trees, tree.IsPlain := by
  intro tree htree
  obtain ⟨_, hplain⟩ := h.of_mem htree
  exact hplain

end Tree

open Tree (Plain PlainPart)

-- ---------------------------------------------------------------------------
-- Plain ways
-- ---------------------------------------------------------------------------

namespace Yields

theorem plain (h : Yields PlainPart c c') : Yields Plain c c' := h.mono fun _ _ htree => htree.1

theorem plainNode (hkind : kind.isPlain = true)
    (hrule : ∀ c₀ : Cursor, c₀.ahead = c.ahead → Yields Plain c₀ (rule c₀)) :
    Yields PlainPart c (c.node kind rule) :=
  .node fun c₀ hahead _ => Brings.mono (hrule c₀ hahead) fun _ _ htrees =>
    ⟨.node hkind (Tree.isPlain_of_each htrees), fun hnode => Bool.noConfusion hnode⟩

theorem plainToken (hkind : kind.isPlain = true) (c : Cursor) :
    Yields PlainPart c (Cursor.tokenNode kind c) := plainNode hkind fun c₀ _ => .bump c₀

theorem plainWrap (hkind : kind.isPlain = true) (h : Yields Plain c c')
    (hrule : ∀ c₀ : Cursor, Yields Plain c₀ (rule c₀)) :
    Yields PlainPart c (c'.wrap c.builder.checkpoint kind rule) := by
  refine .wrap h (fun c₀ _ => hrule c₀) fun column first second hfirst hsecond => ?_
  refine ⟨.node hkind ?_, fun hnode => Bool.noConfusion hnode⟩
  exact Tree.isPlain_of_each ((Tree.each_append first second).mpr ⟨hfirst, hsecond⟩)

/-- What is in parentheses: nothing, one part, or several. -/
theorem plainParentheses {inner : Rule} {tuple group : Kind}
    (hinner : ∀ c, Yields PlainPart c (inner c)) (htuple : tuple.isPlain = true)
    (hgroup : group.isPlain = true) (c : Cursor) :
    Yields PlainPart c
      (if (inner c.bump).sees .comma then
        (inner c.bump).wrap c.builder.checkpoint tuple fun c =>
          (c.repeatWhile (·.sees .comma) fun c => inner c.bump).expect .rParen
      else (inner c.bump).wrap c.builder.checkpoint group (·.expect .rParen)) := by
  have hfirst : Yields Plain c (inner c.bump) := .trans (.bump c) (hinner c.bump).plain
  split
  · refine plainWrap htuple hfirst fun c₀ => .trans (.repeatWhile fun c' _ => ?_) (.expect _ _)
    exact .trans (.bump c') (hinner c'.bump).plain
  · exact plainWrap hgroup hfirst fun c₀ => .expect _ c₀

end Yields

open Yields (plainNode plainToken plainWrap plainParentheses)

/-! ## Names -/

theorem plain_upperCaseName (c : Cursor) : Yields PlainPart c (upperCaseName c) := by
  unfold upperCaseName
  split
  · exact plainNode rfl fun c₀ _ =>
      .trans (.bump c₀) (.repeatWhile fun c' _ => .trans (.bump c') (.bump _))
  · exact .error _ (.refl _ c)

theorem plain_valueSegments (rounds : Nat) (c : Cursor) :
    Yields Plain c (valueSegments rounds c) := by
  induction rounds generalizing c with
  | zero => exact .cutOff _ c
  | succ rounds ih =>
    have hsegment : Yields Plain c c.bump.bump := .trans (.bump c) (.bump _)
    rw [valueSegments]
    split
    · exact hsegment.trans (ih _)
    split
    · exact hsegment
    · exact .refl _ c

/-! ## Types -/

theorem plain_recordBase (c : Cursor) : Yields Plain c (recordBase c) := by
  unfold recordBase
  split
  · exact (plainToken rfl c).plain.trans (.bump _)
  · exact .refl _ c

section Nested

variable {type : Rule} (htype : ∀ c, Yields PlainPart c (type c))
include htype

theorem plain_parenthesizedType (c : Cursor) : Yields PlainPart c (parenthesizedType type c) := by
  refine .fromHere fun c₀ _ _ => ?_
  dsimp only
  split
  · exact plainWrap rfl (.bump c₀) fun c₁ => .bump c₁
  · exact plainParentheses htype rfl rfl c₀

theorem plain_fieldType (c : Cursor) : Yields PlainPart c (fieldType type c) := by
  unfold fieldType
  split
  · exact plainNode rfl fun c₀ _ => .trans (.bump c₀) (.expectThen (htype _).plain)
  · exact .error _ (.refl _ c)

theorem plain_recordType (c : Cursor) : Yields PlainPart c (recordType type c) := by
  refine plainNode rfl fun c₀ _ => ?_
  exact ((Yields.bump c₀).trans (plain_recordBase _)).trans
    (.items (fun c' => (plain_fieldType htype c').plain) _)

theorem plain_typeArgument (c : Cursor) : Yields PlainPart c (typeArgument type c) := by
  refine .skipTrivia ?_
  unfold typeArgument
  dsimp only
  split
  case h_1 => exact plainToken rfl _
  case h_2 => exact plainNode rfl fun c₀ _ => (plain_upperCaseName c₀).plain
  case h_3 => exact plain_parenthesizedType htype _
  case h_4 => exact plain_recordType htype _
  case h_5 => exact .error _ (.refl _ _)

theorem plain_typeApplication (floor : Nat) (c : Cursor) :
    Yields PlainPart c (typeApplication floor type c) := by
  unfold typeApplication
  split
  · exact plainNode rfl fun c₀ _ => (plain_upperCaseName c₀).plain.trans
      (.repeatWhile fun c' _ => (plain_typeArgument htype c').plain)
  · exact plain_typeArgument htype c

theorem plain_arrows (floor rounds : Nat) (c : Cursor) :
    Yields Plain c (arrows floor type rounds c) := by
  induction rounds generalizing c with
  | zero => exact .cutOff _ c
  | succ rounds ih =>
    rw [arrows]
    split
    · refine .trans (.bump c) ?_
      dsimp only
      split
      · exact (plain_typeApplication htype floor _).plain.trans (ih _)
      · exact .error _ (.refl _ _)
    · exact .refl _ c

theorem plain_typeOver (floor : Nat) (c : Cursor) : Yields PlainPart c (typeOver floor type c) := by
  unfold typeOver
  split
  · refine .fromHere fun c₀ _ _ => ?_
    dsimp only
    split
    · exact plainWrap rfl (plain_typeApplication htype floor c₀).plain
        fun c₁ => plain_arrows htype floor _ c₁
    · exact plain_typeApplication htype floor c₀
  · exact .error _ (.refl _ c)

end Nested

theorem plain_type (floor : Nat) (c : Cursor) : Yields PlainPart c (Grammar.type floor c) := by
  have hwithin (depth : Nat) (c : Cursor) : Yields PlainPart c (typeWithin floor depth c) := by
    induction depth generalizing c with
    | zero => exact .cutOff _ c
    | succ depth ih => exact plain_typeOver ih floor c
  exact hwithin _ c

/-! ## Patterns -/

theorem plain_patternFields (rounds : Nat) (c : Cursor) :
    Yields Plain c (patternFields rounds c) := by
  induction rounds generalizing c with
  | zero => exact .cutOff _ c
  | succ rounds ih =>
    have hfield : Yields Plain c (Cursor.tokenNode .lowerPattern c) := (plainToken rfl c).plain
    rw [patternFields]
    split
    · dsimp only
      split
      · exact (hfield.trans (.bump _)).trans (ih _)
      · exact hfield
    · exact .error _ (.refl _ c)

section Nested

variable {pattern cons : Rule} (hpattern : ∀ c, Yields PlainPart c (pattern c))
include hpattern

theorem plain_parenthesizedPattern (c : Cursor) :
    Yields PlainPart c (parenthesizedPattern pattern c) := by
  refine .fromHere fun c₀ _ _ => ?_
  dsimp only
  split
  · exact plainWrap rfl (.bump c₀) fun c₁ => .bump c₁
  · exact plainParentheses hpattern rfl rfl c₀

theorem plain_atomicPattern (c : Cursor) : Yields PlainPart c (atomicPattern pattern c) := by
  refine .skipTrivia ?_
  unfold atomicPattern
  dsimp only
  split
  case h_1 | h_2 | h_4 | h_5 | h_6 => exact plainToken rfl _
  case h_3 => exact plainNode rfl fun c₀ _ => (plain_upperCaseName c₀).plain
  case h_7 => exact plain_parenthesizedPattern hpattern _
  case h_8 =>
    exact plainNode rfl fun c₀ _ => .trans (.bump c₀) (.items (fun c' => (hpattern c').plain) _)
  case h_9 =>
    refine plainNode rfl fun c₀ _ => ?_
    exact .trans (.trans (.bump c₀) (plain_patternFields _ _)) (.expect _ _)
  case h_10 =>
    split
    · exact plainNode rfl fun c₀ _ => .trans (.bump c₀) (.expect _ _)
    · exact .error _ (.refl _ _)

theorem plain_constructorPattern (floor : Nat) (c : Cursor) :
    Yields PlainPart c (constructorPattern floor pattern c) := by
  unfold constructorPattern
  split
  · exact plainNode rfl fun c₀ _ => (plain_upperCaseName c₀).plain.trans
      (.repeatWhile fun c' _ => (plain_atomicPattern hpattern c').plain)
  · exact plain_atomicPattern hpattern c

theorem plain_consOver (hcons : ∀ c, Yields PlainPart c (cons c)) (floor : Nat) (c : Cursor) :
    Yields PlainPart c (consOver floor pattern cons c) := by
  refine .fromHere fun c₀ _ _ => ?_
  dsimp only
  split
  · refine plainWrap rfl (plain_constructorPattern hpattern floor c₀).plain fun c₁ => ?_
    refine .trans (.bump c₁) ?_
    split
    · exact (hcons _).plain
    · exact .error _ (.refl _ _)
  · exact plain_constructorPattern hpattern floor c₀

theorem plain_patternOver (hcons : ∀ c, Yields PlainPart c (cons c)) (floor : Nat) (c : Cursor) :
    Yields PlainPart c (patternOver floor pattern cons c) := by
  refine .fromHere fun c₀ _ _ => ?_
  dsimp only
  split
  · refine plainWrap rfl (plain_consOver hpattern hcons floor c₀).plain fun c₁ => ?_
    refine .trans (.bump c₁) ?_
    split
    · exact (plainToken rfl _).plain
    · exact .error _ (.refl _ _)
  · exact plain_consOver hpattern hcons floor c₀

end Nested

theorem plain_pattern (floor : Nat) (c : Cursor) :
    Yields PlainPart c (Grammar.pattern floor c) := by
  have hwithin (depth : Nat) : (∀ c, Yields PlainPart c (patternWithin floor depth c)) ∧
      ∀ c, Yields PlainPart c (consWithin floor depth c) := by
    induction depth with
    | zero => exact ⟨fun c => .cutOff _ c, fun c => .cutOff _ c⟩
    | succ depth ih =>
      exact ⟨plain_patternOver ih.1 ih.2 floor, plain_consOver ih.1 ih.2 floor⟩
  exact (hwithin _).1 c

theorem plain_parameter (floor : Nat) (c : Cursor) : Yields PlainPart c (parameter floor c) :=
  plain_atomicPattern (plain_pattern floor) c

/-! ## Header and imports -/

theorem plain_exposedItem (c : Cursor) : Yields PlainPart c (exposedItem c) := by
  refine .skipTrivia ?_
  unfold exposedItem
  dsimp only
  split
  · exact plainToken rfl _
  · refine plainNode rfl fun c₀ _ => .trans (.bump c₀) ?_
    split
    · exact (plainNode rfl fun c₁ _ =>
        .trans (.trans (.bump c₁) (.bump _)) (.expect _ _)).plain
    · exact .refl _ _
  · exact plainNode rfl fun c₀ _ => .trans (.trans (.bump c₀) (.expect _ _)) (.expect _ _)
  · exact .error _ (.refl _ _)

theorem plain_exposedItems (rounds : Nat) (c : Cursor) :
    Yields Plain c (exposedItems rounds c) := by
  induction rounds generalizing c with
  | zero => exact .cutOff _ c
  | succ rounds ih =>
    have hitem := (plain_exposedItem c).plain
    rw [exposedItems]
    split
    · exact hitem
    · exact (hitem.trans (.bump _)).trans (ih _)

theorem plain_exposingList (c : Cursor) : Yields PlainPart c (exposingList c) := by
  refine plainNode rfl fun c₀ _ => .expectThen (.trans ?_ (.expect _ _))
  split
  · exact .bump _
  · exact plain_exposedItems _ _

theorem plain_moduleDeclaration (c : Cursor) : Yields PlainPart c (moduleDeclaration c) := by
  refine plainNode rfl fun c₀ _ => ?_
  have hkeywords : Yields Plain c₀ ((c₀.accept .portKw).expect .moduleKw) :=
    .trans (.accept _ c₀) (.expect _ _)
  exact (hkeywords.trans (plain_upperCaseName _).plain).trans
    (.expectThen (plain_exposingList _).plain)

theorem plain_importClause (c : Cursor) : Yields PlainPart c (importClause c) := by
  refine plainNode rfl fun c₀ _ => ?_
  have has (c₁ : Cursor) : Yields Plain c₁ (if c₁.sees .asKw then asClause c₁ else c₁) := by
    split
    · exact (plainNode rfl fun c₂ _ => .trans (.bump c₂) (.expect _ _)).plain
    · exact .refl _ c₁
  have hexposing (c₁ : Cursor) :
      Yields Plain c₁ (if c₁.sees .exposingKw then exposingList c₁.bump else c₁) := by
    split
    · exact .trans (.bump c₁) (plain_exposingList _).plain
    · exact .refl _ c₁
  exact ((Yields.trans (.expect _ c₀) (plain_upperCaseName _).plain).trans (has _)).trans
    (hexposing _)

/-! ## Type declarations and ports -/

theorem plain_portSignature (floor : Nat) (c : Cursor) :
    Yields PlainPart c (portSignature floor c) :=
  plainNode rfl fun c₀ _ =>
    .trans (.trans (.trans (.bump c₀) (.expect _ _)) (.expect _ _)) (plain_type floor _).plain

theorem plain_typeHead (c : Cursor) : Yields Plain c (typeHead c) :=
  .trans (.expect _ c) (.repeatWhile fun c' _ => .bump c')

theorem plain_unionVariant (floor : Nat) (c : Cursor) :
    Yields PlainPart c (unionVariant floor c) := by
  unfold unionVariant
  split
  · exact plainNode rfl fun c₀ _ => .trans (.bump c₀)
      (.repeatWhile fun c' _ => (plain_typeArgument (plain_type floor) c').plain)
  · exact .error _ (.refl _ c)

theorem plain_unionVariants (floor : Nat) (c : Cursor) :
    Yields Plain c (unionVariants floor c) :=
  (plain_unionVariant floor c).plain.trans
    (.repeatWhile fun c' _ => .trans (.bump c') (plain_unionVariant floor _).plain)

theorem plain_typeDeclaration (floor : Nat) (c : Cursor) :
    Yields PlainPart c (typeDeclaration floor c) :=
  plainNode rfl fun c₀ _ => .trans (.trans (.bump c₀) (plain_typeHead _))
    (.expectThen (plain_unionVariants floor _))

theorem plain_typeAliasDeclaration (floor : Nat) (c : Cursor) :
    Yields PlainPart c (typeAliasDeclaration floor c) :=
  plainNode rfl fun c₀ _ => .trans (.trans (.trans (.bump c₀) (.bump _)) (plain_typeHead _))
    (.expectThen (plain_type floor _).plain)

/-- What is passed over where no item can be read. -/
theorem plain_recover (cause : SyntaxError.Cause) (c : Cursor) :
    Yields PlainPart c (recover cause c) := by
  have hnode : Yields PlainPart (c.error cause) (recover cause c) :=
    plainNode rfl fun c₀ _ => .trans (.bump c₀) (.repeatWhile fun c' _ => .bump c')
  exact hnode.behindError

end ElmLint.Syntax

import ElmLint.Proofs.Syntax.Plain

/-!
# The layout of a parsed file

The lemmas go through the grammar rule by rule. An expression that is read at a floor gives free
nodes right of it (`Inside`); the rules for its operands are only called at a token right of the
floor, and what they give starts in the column of this token (`Starts`).
-/

namespace ElmLint.Syntax

open Grammar
open Tree (LaidAs Free Front Led Parted RightOf Fits Plain PlainPart)

variable {c c' c'' : Cursor} {kind token : Kind} {floor? : Option Nat} {floor column : Nat}
  {P P' : Kind → Nat → Prop} {rule : Rule}

instance : AllowsTokens (Tree.Laid floor?) := ⟨fun column kind text => .token _ column kind text⟩

instance : AllowsTokens (LaidAs floor? P) :=
  ⟨fun column kind text => ⟨.token _ column kind text, fun hnode => Bool.noConfusion hnode⟩⟩

instance : AllowsTrivia (Front kind floor) :=
  ⟨fun column token text h => ⟨AllowsTokens.token column token text,
    Tree.opens_of_isTrivia h text kind⟩⟩

-- ---------------------------------------------------------------------------
-- Where nodes stand
-- ---------------------------------------------------------------------------

/-- A part of any node, right of the floor. -/
def Inside (floor : Nat) (kind : Kind) (column : Nat) : Prop :=
  kind.isDependent = false ∧ floor < column

/-- A part of any node, in the column of the token `next?`. -/
def Starts (next? : Option Nat) (kind : Kind) (column : Nat) : Prop :=
  kind.isDependent = false ∧ ∀ next ∈ next?, next = column

theorem Cursor.column?_congr (h : c'.ahead = c.ahead) : c'.column? = c.column? := by
  rw [column?, next?, h, column?, next?]

theorem lt_of_not_atLayoutEnd (hright : c.atLayoutEnd floor = false)
    (hcolumn : ∀ next ∈ c.column?, next = column) : floor < column := by
  cases hnext : c.column? with
  | none => simp [Cursor.atLayoutEnd, hnext] at hright
  | some next =>
    rw [← hcolumn next hnext]
    simpa [Cursor.atLayoutEnd, hnext] using hright

namespace Yields

theorem as (h : Yields (LaidAs floor? P) c c')
    (hle : ∀ kind column, P kind column → P' kind column) : Yields (LaidAs floor? P') c c' :=
  h.mono fun _ _ htree => ⟨htree.1, fun hnode => hle _ _ (htree.2 hnode)⟩

theorem free (h : Yields (LaidAs floor? (Starts column?)) c c') :
    Yields (LaidAs floor? Free) c c' := h.as fun _ _ hstarts => hstarts.1

theorem right (h : Yields (LaidAs floor? (Inside floor)) c c') :
    Yields (LaidAs floor? (RightOf floor)) c c' := h.as fun _ _ hinside => hinside.2

theorem fits {block : Nat} (h : Yields (LaidAs floor? (Inside floor)) c c') :
    Yields (LaidAs floor? (Fits kind floor block)) c c' :=
  h.as fun _ _ hinside => ⟨hinside.2, fun hitem => absurd
    (hinside.1.symm.trans (Kind.isDependent_of_mem_blockItems hitem)) Bool.false_ne_true⟩

theorem inside (h : Yields (LaidAs floor? (Starts c.column?)) c c')
    (hright : c.atLayoutEnd floor = false) : Yields (LaidAs floor? (Inside floor)) c c' :=
  h.as fun _ _ hstarts => ⟨hstarts.1, lt_of_not_atLayoutEnd hright hstarts.2⟩

theorem laid (h : Yields Plain c c') : Yields (LaidAs floor? Free) c c' :=
  h.mono fun column _ htree => htree.laidAs floor? column

/-- Plain nodes, white space and comments open nothing in a node that a token opens. -/
theorem front (h : Yields PlainPart c c') (hcall : kind ≠ .functionCallExpr)
    (hbinOp : kind ≠ .binOpExpr) : Yields (Front kind floor) c c' := by
  refine h.mono fun column tree htree => ⟨htree.1.laidAs _ column, ?_⟩
  cases tree with
  | token token text => exact Tree.opens_of_isTrivia (htree.2 rfl) text kind
  | node => simp [Tree.opens, Tree.isNode, hcall, hbinOp]

theorem frontToken (hkind : c.kind? = some token) (hleads : token ∉ kind.leads) :
    Yields (Front kind floor) c c.bump := by
  refine .bumpOk fun t ht column => ⟨AllowsTokens.token _ _ _, ?_⟩
  have htoken : t.kind = token := by simpa [Cursor.kind?, Option.mem_def.mp ht] using hkind
  simpa [Tree.opens, PlacedToken.leaf, Tree.isNode, Tree.kind, htoken] using hleads

end Yields

-- ---------------------------------------------------------------------------
-- The parts of a node
-- ---------------------------------------------------------------------------

/-- A way over the parts of a node of `kind`. -/
def Parts (kind : Kind) (floor : Nat) (P : Kind → Nat → Prop) : Cursor → Cursor → Prop :=
  Brings (Parted kind floor P)

namespace Parts

/-- All nodes are `P`. -/
theorem only (h : Yields (LaidAs (some floor) P) c c') : Parts kind floor P c c' :=
  Brings.mono h fun column trees htrees =>
    ⟨[], trees, rfl, ⟨fun _ hpart => absurd hpart List.not_mem_nil, Tree.each_nil _ column⟩, htrees⟩

/-- A token, and what stands behind it. -/
theorem behind (hfront : Yields (Front kind floor) c c')
    (h : Yields (LaidAs (some floor) P) c'.bump c'') : Parts kind floor P c c'' := by
  have htoken : Brings (Led kind floor) c' c'.bump := by
    cases hahead : c'.ahead with
    | nil =>
      -- no token is left, only white space and comments
      rw [Cursor.bump_of_ahead_nil hahead]
      exact Brings.mono (Yields.trivia c') fun _ _ => Led.of_front
    | cons t more =>
      refine fun _ => ⟨_, .bump hahead, fun column _ => .append (Yields.each_trivia column c') ?_⟩
      exact ⟨fun _ hpart => absurd hpart List.not_mem_nil,
        Tree.each_singleton.mpr (AllowsTokens.token _ _ _)⟩
  have hled : Brings (Led kind floor) c c'.bump :=
    Brings.trans hfront htoken fun _ _ _ hfirst hsecond => .append hfirst hsecond
  exact hled.trans h fun _ first second hfirst hsecond => ⟨first, second, rfl, hfirst, hsecond⟩

theorem trans (h : Parts kind floor P c c') (h' : Yields (LaidAs (some floor) P) c' c'') :
    Parts kind floor P c c'' := Brings.trans h h' fun _ _ _ hfirst hsecond => hfirst.append hsecond

/-- What leads to the body, and the body. -/
theorem expectThen (hfront : Yields (Front kind floor) c c')
    (h : Yields (LaidAs (some floor) P) c'.bump (rule c'.bump)) :
    Parts kind floor P c (c'.expectThen token rule) := by
  unfold Cursor.expectThen
  split
  · exact behind hfront h
  · refine Brings.error _ (Brings.mono hfront fun column trees htrees => ?_)
    exact ⟨trees, [], (List.append_nil trees).symm, .of_front htrees, Tree.each_nil _ _⟩

end Parts

-- ---------------------------------------------------------------------------
-- Nodes
-- ---------------------------------------------------------------------------

namespace Yields

/-- A node, in the column of the next token. -/
theorem laidNode
    (hrule : ∀ c₀ : Cursor, c₀.ahead = c.ahead →
      Brings (fun column trees => (Tree.node kind trees).Laid floor? column) c₀ (rule c₀)) :
    Yields (LaidAs floor? fun part column => part = kind ∧ ∀ next ∈ c.column?, next = column) c
      (c.node kind rule) := by
  refine .node fun c₀ hahead htoken => ?_
  refine ((hrule c₀ hahead).atNext htoken).mono fun column trees htrees => ⟨htrees.1, fun _ => ?_⟩
  rw [← Cursor.column?_congr hahead]
  exact ⟨rfl, htrees.2⟩

theorem startsNode (hfree : kind.isDependent = false)
    (hrule : ∀ c₀ : Cursor, c₀.ahead = c.ahead →
      Brings (fun column trees => (Tree.node kind trees).Laid floor? column) c₀ (rule c₀)) :
    Yields (LaidAs floor? (Starts c.column?)) c (c.node kind rule) :=
  (laidNode hrule).as fun _ _ hnode => ⟨hnode.1 ▸ hfree, hnode.2⟩

theorem startsPlain (hplain : kind.isPlain = true)
    (hrule : ∀ c₀ : Cursor, c₀.ahead = c.ahead → Yields (LaidAs floor? Free) c₀ (rule c₀)) :
    Yields (LaidAs floor? (Starts c.column?)) c (c.node kind rule) := by
  rw [Kind.isPlain, Bool.and_eq_true, Bool.not_eq_true'] at hplain
  exact startsNode hplain.2 fun c₀ hahead =>
    Brings.mono (hrule c₀ hahead) fun _ _ => Tree.laid_of_isUnled hplain.1

/-- A node with a block, the items of which stand in one column right of the floor. -/
theorem startsBlock (hfree : kind.isDependent = false)
    (hrule : ∀ c₀ : Cursor, c₀.ahead = c.ahead →
      ∃ block, floor < block ∧ Parts kind floor (Fits kind floor block) c₀ (rule c₀)) :
    Yields (LaidAs (some floor) (Starts c.column?)) c (c.node kind rule) := by
  refine startsNode hfree fun c₀ hahead => ?_
  obtain ⟨block, hlt, hparts⟩ := hrule c₀ hahead
  refine Brings.mono hparts fun column trees htrees => ?_
  exact htrees.laid (Kind.floorInside_of_free hfree _ _) ⟨block, by simpa, fun _ _ h => h⟩

/-- A node without a block. -/
theorem startsOpened (hfree : kind.isDependent = false) (hblock : kind.blockItems = [])
    (hrule : ∀ c₀ : Cursor, c₀.ahead = c.ahead → Parts kind floor (RightOf floor) c₀ (rule c₀)) :
    Yields (LaidAs (some floor) (Starts c.column?)) c (c.node kind rule) := by
  refine startsNode hfree fun c₀ hahead => Brings.mono (hrule c₀ hahead) fun column _ htrees => ?_
  exact htrees.laid_of_right (Kind.floorInside_of_free hfree _ _) hblock

/-- A plain node around a way from where its checkpoint was taken, at a token. -/
theorem startsWrapPlain (hplain : kind.isPlain = true) (htoken : c.ahead = c.rest)
    (h : Yields (LaidAs floor? Free) c c')
    (hrule : ∀ c₀ : Cursor, c₀.rest = c'.rest → Yields (LaidAs floor? Free) c₀ (rule c₀)) :
    Yields (LaidAs floor? (Starts c.column?)) c (c'.wrap c.builder.checkpoint kind rule) := by
  rw [Kind.isPlain, Bool.and_eq_true, Bool.not_eq_true'] at hplain
  refine .wrap (Brings.atNext h htoken) hrule fun column first second hfirst hsecond => ?_
  refine ⟨Tree.laid_of_isUnled hplain.1 ?_, fun _ => ⟨hplain.2, hfirst.2⟩⟩
  exact (Tree.each_append first second).mpr ⟨hfirst.1, hsecond⟩

/-- A node without a block, around a way from where its checkpoint was taken, at a token. -/
theorem startsWrapOpened (hfree : kind.isDependent = false) (hblock : kind.blockItems = [])
    (htoken : c.ahead = c.rest) (h : Parts kind floor (RightOf floor) c c')
    (hrule : ∀ c₀ : Cursor, c₀.rest = c'.rest →
      Yields (LaidAs (some floor) (RightOf floor)) c₀ (rule c₀)) :
    Yields (LaidAs (some floor) (Starts c.column?)) c (c'.wrap c.builder.checkpoint kind rule) := by
  refine .wrap (Brings.atNext h htoken) hrule fun column first second hfirst hsecond => ?_
  have hfloor := Kind.floorInside_of_free hfree (some floor) column
  exact ⟨(hfirst.1.append hsecond).laid_of_right hfloor hblock, fun _ => ⟨hfree, hfirst.2⟩⟩

theorem startsFromHere {rule : Nat → Rule}
    (hrule : ∀ c₀ : Cursor, c₀.ahead = c.ahead → c₀.ahead = c₀.rest →
      Yields (LaidAs floor? (Starts c₀.column?)) c₀ (rule c₀.builder.checkpoint c₀)) :
    Yields (LaidAs floor? (Starts c.column?)) c (c.fromHere rule) := by
  refine .fromHere fun c₀ hahead htoken => ?_
  rw [← Cursor.column?_congr hahead]
  exact hrule c₀ hahead htoken

/-- An item of a block, in its column. -/
theorem laidItem (hitem : kind.isLayoutItem = true) (hblock : kind.blockItems = [])
    (hcolumn : c.column? = some column)
    (hrule : ∀ c₀ : Cursor, c₀.ahead = c.ahead → Parts kind column (RightOf column) c₀ (rule c₀)) :
    Yields (LaidAs floor? fun part column' => part = kind ∧ column' = column) c
      (c.node kind rule) := by
  refine .node fun c₀ hahead htoken => ?_
  refine (Brings.atNext (hrule c₀ hahead) htoken).mono fun column' trees htrees => ?_
  obtain rfl : column = column' := htrees.2 column (by
    rw [Cursor.column?_congr hahead]
    exact hcolumn)
  exact ⟨htrees.1.laid_of_right (by simp [Kind.floorInside, hitem]) hblock, fun _ => ⟨rfl, rfl⟩⟩

end Yields

open Yields (startsPlain startsBlock startsOpened startsFromHere startsWrapPlain startsWrapOpened)

-- ---------------------------------------------------------------------------
-- Expressions
-- ---------------------------------------------------------------------------

theorem starts_qualifiedValue (floor? : Option Nat) (c : Cursor) :
    Yields (LaidAs floor? (Starts c.column?)) c (qualifiedValue c) := by
  unfold qualifiedValue
  split
  · refine startsPlain rfl fun c₀ _ => Yields.laid (Yields.plain (.plainNode rfl fun c₁ _ => ?_))
    exact .trans (.bump c₁) (plain_valueSegments _ _)
  · exact startsPlain rfl fun c₀ _ => (plain_upperCaseName c₀).plain.laid

theorem laid_operator (floor : Nat) (c : Cursor) :
    Yields (LaidAs (some floor) fun part column =>
      part = .operator ∧ ∀ next ∈ c.column?, next = column) c (Cursor.tokenNode .operator c) :=
  .laidNode fun c₀ _ => Brings.mono (Yields.laid (.bump c₀)) fun _ _ => Tree.laid_of_isUnled rfl

theorem laid_typeSignature (floor : Nat) (c : Cursor) :
    Yields (LaidAs floor? fun part column =>
      part = .typeSignature ∧ ∀ next ∈ c.column?, next = column) c (typeSignature floor c) := by
  have htype (c₀ : Cursor) : Yields Plain c₀ (Grammar.type floor (c₀.bump.expect .colon)) :=
    .trans (.trans (.bump c₀) (.expect _ _)) (plain_type floor _).plain
  exact .laidNode fun c₀ _ => Brings.mono (htype c₀).laid fun _ _ => Tree.laid_of_isUnled rfl

section Nested

variable {expr : Rule} (hexpr : ∀ c, Yields (LaidAs (some floor) (Inside floor)) c (expr c))
include hexpr

theorem starts_parenthesizedExpr (c : Cursor) :
    Yields (LaidAs (some floor) (Starts c.column?)) c (parenthesizedExpr expr c) := by
  refine startsFromHere fun c₀ _ htoken => ?_
  dsimp only
  split
  · exact startsWrapPlain rfl htoken (.bump c₀) fun c₁ _ => .bump c₁
  split
  · exact startsWrapPlain rfl htoken (.bump c₀) fun c₁ _ => .trans (.bump c₁) (.bump _)
  have hfirst (kind : Kind) : Parts kind floor (RightOf floor) c₀ (expr c₀.bump) :=
    .behind (.refl _ c₀) (hexpr c₀.bump).right
  split
  · refine startsWrapOpened rfl rfl htoken (hfirst _) fun c₁ _ => ?_
    refine .trans (.repeatWhile fun c' _ => ?_) (.expect _ _)
    exact .trans (.bump c') (hexpr c'.bump).right
  · exact startsWrapOpened rfl rfl htoken (hfirst _) fun c₁ _ => .expect _ c₁

theorem starts_listExpr (c : Cursor) :
    Yields (LaidAs (some floor) (Starts c.column?)) c (listExpr expr c) :=
  startsOpened rfl rfl fun c₀ _ => .behind (.refl _ c₀) (.items (fun c' => (hexpr c').right) _)

theorem free_field (c : Cursor) : Yields (LaidAs (some floor) Free) c (field expr c) := by
  unfold field
  split
  · rename_i hname
    refine (startsOpened rfl rfl fun c₀ hahead => ?_).free
    have hkind := (Cursor.kind?_congr hahead).trans (Cursor.sees_iff.mp hname)
    exact .expectThen (.frontToken hkind (by decide)) (hexpr _).right
  · exact .error _ (.refl _ c)

theorem starts_recordExpr (c : Cursor) :
    Yields (LaidAs (some floor) (Starts c.column?)) c (recordExpr expr c) := by
  refine startsPlain rfl fun c₀ _ => ?_
  exact .trans (.trans (.bump c₀) (plain_recordBase _).laid) (.items (free_field hexpr) _)

theorem starts_atom (c : Cursor) :
    Yields (LaidAs (some floor) (Starts c.column?)) c (atom expr c) := by
  rw [← Cursor.column?_congr c.ahead_skipTrivia]
  refine .skipTrivia ?_
  unfold atom
  dsimp only
  split
  case h_1 =>
    exact startsPlain rfl fun c₀ _ => (Yields.plainToken rfl c₀).plain.laid
  case h_2 => exact starts_qualifiedValue _ _
  case h_3 | h_4 | h_5 => exact startsPlain rfl fun c₀ _ => .bump c₀
  case h_6 => exact startsPlain rfl fun c₀ _ => .trans (.bump c₀) (.expect _ _)
  case h_7 => exact starts_parenthesizedExpr hexpr _
  case h_8 => exact starts_listExpr hexpr _
  case h_9 => exact starts_recordExpr hexpr _
  case h_10 => exact .error _ (.refl _ _)

theorem starts_access (c : Cursor) :
    Yields (LaidAs (some floor) (Starts c.column?)) c (access expr c) := by
  refine startsFromHere fun c₀ _ htoken => ?_
  -- every round makes a node of all that came before, so it starts where the first token does
  refine Cursor.repeatWhile_keeps (fun _ _ => .cutOff _ c₀) (fun c' h _ => ?_)
    (starts_atom hexpr c₀)
  exact startsWrapPlain rfl htoken h.free fun c₁ _ => .trans (.bump c₁) (.bump _)

theorem starts_application (hright : c.atLayoutEnd floor = false) :
    Yields (LaidAs (some floor) (Starts c.column?)) c (application floor expr c) := by
  refine startsFromHere fun c₀ hahead htoken => ?_
  have haccess := starts_access hexpr c₀
  dsimp only
  split
  · -- what is called stands right of the floor as well, like all other parts
    have hright₀ := (atLayoutEnd_congr hahead).trans hright
    refine startsWrapOpened rfl rfl htoken (.only (haccess.inside hright₀).right) fun c₁ _ => ?_
    refine .repeatWhile fun c' hmore => ?_
    simp only [atArgument, Bool.and_eq_true, Bool.not_eq_true'] at hmore
    exact ((starts_access hexpr c').inside hmore.2).right
  · exact haccess

theorem starts_negation (c : Cursor) :
    Yields (LaidAs (some floor) (Starts c.column?)) c (negation expr c) := by
  refine startsPlain rfl fun c₀ _ => .trans (.bump c₀) ?_
  dsimp only
  split
  · exact (starts_access hexpr _).free
  · exact .error _ (.refl _ _)

theorem starts_lambda (hkind : c.kind? = some .backslash) :
    Yields (LaidAs (some floor) (Starts c.column?)) c (lambda floor expr c) := by
  refine startsOpened rfl rfl fun c₀ hahead => .expectThen ?_ (hexpr _).right
  have hparameters (c' : Cursor) :
      Yields (Front .anonymousFunctionExpr floor) c' (c'.repeatWhile atPattern (parameter floor)) :=
    .repeatWhile fun c'' _ => (plain_parameter floor c'').front (by decide) (by decide)
  refine .trans (.frontToken ((Cursor.kind?_congr hahead).trans hkind) (by decide)) ?_
  split
  · exact hparameters _
  · exact .trans (.error _ (.refl _ _)) (hparameters _)

theorem starts_ifElse (c : Cursor) :
    Yields (LaidAs (some floor) (Starts c.column?)) c (ifElse expr c) := by
  refine startsOpened rfl rfl fun c₀ _ => .behind (.refl _ c₀) ?_
  exact .trans (.trans (hexpr _).right (.expectThen (hexpr _).right)) (.expectThen (hexpr _).right)

theorem items_caseBranch (hcolumn : c.column? = some floor) :
    Yields (LaidAs floor? fun part column => part = .caseOfBranch ∧ column = floor) c
      (caseBranch floor expr c) :=
  .laidItem rfl rfl hcolumn fun c₀ _ =>
    .expectThen ((plain_pattern floor c₀).front (by decide) (by decide)) (hexpr _).right

theorem items_valueDeclaration (hcolumn : c.column? = some floor) :
    Yields (LaidAs floor? fun part column => part = .valueDeclaration ∧ column = floor) c
      (valueDeclaration floor expr c) := by
  refine .laidItem rfl rfl hcolumn fun c₀ _ => .expectThen ?_ (hexpr _).right
  split
  · refine Yields.front (.plainNode rfl fun c₁ _ => ?_) (by decide) (by decide)
    exact .trans (.bump c₁) (.repeatWhile fun c' _ => (plain_parameter floor c').plain)
  · exact (plain_pattern floor c₀).front (by decide) (by decide)

theorem items_letDeclaration (hcolumn : c.column? = some floor) :
    Yields (LaidAs floor? fun part column => part ∈ Kind.blockItems .letInExpr ∧ column = floor) c
      (letDeclaration floor expr c) := by
  unfold letDeclaration
  split
  · refine (laid_typeSignature floor c).as fun part column hnode => ?_
    rw [hnode.1, hnode.2 floor hcolumn]
    exact ⟨by decide, rfl⟩
  split
  · refine (items_valueDeclaration hexpr hcolumn).as fun part column hnode => ?_
    rw [hnode.1, hnode.2]
    exact ⟨by decide, rfl⟩
  · exact .error _ (.refl _ c)

theorem items_letDeclarations (rounds : Nat) (c : Cursor) :
    Yields (LaidAs floor? fun part column => part ∈ Kind.blockItems .letInExpr ∧ column = floor) c
      (letDeclarations floor expr rounds c) := by
  induction rounds generalizing c with
  | zero => exact .cutOff _ c
  | succ rounds ih =>
    rw [letDeclarations]
    split
    · rename_i hmore
      simp only [Bool.and_eq_true, beq_iff_eq] at hmore
      dsimp only
      split
      · exact items_letDeclaration hexpr hmore.1
      · exact .trans (items_letDeclaration hexpr hmore.1) (ih _)
    · exact .refl _ c

end Nested

section Blocks

variable {expr : Nat → Rule}
  (hexpr : ∀ floor c, Yields (LaidAs (some floor) (Inside floor)) c (expr floor c))
include hexpr

/-- The branches stand in one column, right of the floor. -/
theorem items_caseBranches (floor : Nat) (c : Cursor) :
    ∃ block, floor < block ∧
      Yields (LaidAs (some floor) fun part column => part = .caseOfBranch ∧ column = block) c
        (caseBranches floor expr c) := by
  unfold caseBranches
  split
  · rename_i column hcolumn
    split
    · rename_i hright
      simp only [Bool.and_eq_true, decide_eq_true_eq] at hright
      refine ⟨column, hright.1, .repeatWhile fun c' hmore => ?_⟩
      simp only [Bool.and_eq_true, beq_iff_eq] at hmore
      exact items_caseBranch (hexpr column) hmore.1
    -- without a branch, any column right of the floor will do
    · exact ⟨floor + 1, floor.lt_succ_self, .error _ (.refl _ c)⟩
  · exact ⟨floor + 1, floor.lt_succ_self, .error _ (.refl _ c)⟩

theorem starts_caseOf (floor : Nat) (c : Cursor) :
    Yields (LaidAs (some floor) (Starts c.column?)) c (caseOf floor expr c) := by
  refine startsBlock rfl fun c₀ _ => ?_
  obtain ⟨block, hlt, hitems⟩ := items_caseBranches hexpr floor (expr floor c₀.bump).bump
  refine ⟨block, hlt, .trans (.behind (.refl _ c₀) ?_) (.expectThen ?_)⟩
  · exact (hexpr floor c₀.bump).fits
  · refine hitems.as fun part column hnode => ?_
    rw [hnode.2]
    exact ⟨hlt, fun _ => rfl⟩

/-- The declarations stand in one column, right of the floor. -/
theorem items_letBlock (floor : Nat) (c : Cursor) :
    ∃ block, floor < block ∧
      Yields (LaidAs (some floor) fun part column =>
        part ∈ Kind.blockItems .letInExpr ∧ column = block) c (letBlock floor expr c) := by
  unfold letBlock
  split
  · rename_i column hcolumn
    split
    · rename_i hright
      simp only [Bool.and_eq_true, decide_eq_true_eq] at hright
      exact ⟨column, hright.1, items_letDeclarations (hexpr column) _ c⟩
    · exact ⟨floor + 1, floor.lt_succ_self, .error _ (.refl _ c)⟩
  · exact ⟨floor + 1, floor.lt_succ_self, .error _ (.refl _ c)⟩

theorem starts_letIn (floor : Nat) (c : Cursor) :
    Yields (LaidAs (some floor) (Starts c.column?)) c (letIn floor expr c) := by
  refine startsBlock rfl fun c₀ _ => ?_
  obtain ⟨block, hlt, hitems⟩ := items_letBlock hexpr floor c₀.bump
  refine ⟨block, hlt, .trans (.behind (.refl _ c₀) ?_) (.expectThen (hexpr floor _).fits)⟩
  refine hitems.as fun part column hnode => ?_
  rw [hnode.2]
  exact ⟨hlt, fun _ => rfl⟩

theorem starts_operand (hright : c.atLayoutEnd floor = false) :
    Yields (LaidAs (some floor) (Starts c.column?)) c (operand floor expr c) := by
  unfold operand
  split
  case h_1 hkind => exact starts_lambda (hexpr floor) hkind
  case h_2 => exact starts_ifElse (hexpr floor) c
  case h_3 => exact starts_caseOf hexpr floor c
  case h_4 => exact starts_letIn hexpr floor c
  case h_5 =>
    split
    · exact starts_negation (hexpr floor) c
    · exact starts_application (hexpr floor) hright

theorem right_operators (floor rounds : Nat) (c : Cursor) :
    Yields (LaidAs (some floor) (RightOf floor)) c (operators floor expr rounds c) := by
  induction rounds generalizing c with
  | zero => exact .cutOff _ c
  | succ rounds ih =>
    rw [operators]
    split
    · rename_i hoperator
      simp only [atOperator, Bool.and_eq_true, Bool.not_eq_true'] at hoperator
      have hfirst : Yields (LaidAs (some floor) (RightOf floor)) c (Cursor.tokenNode .operator c) :=
        (laid_operator floor c).as fun _ _ hnode => lt_of_not_atLayoutEnd hoperator.2 hnode.2
      dsimp only
      split
      · rename_i hoperand
        simp only [Bool.and_eq_true, Bool.not_eq_true'] at hoperand
        have hsecond := ((starts_operand hexpr hoperand.2).inside hoperand.2).right
        exact (hfirst.trans hsecond).trans (ih _)
      · exact hfirst.error _
    · exact .refl _ c

theorem inside_exprOver (floor : Nat) (c : Cursor) :
    Yields (LaidAs (some floor) (Inside floor)) c (exprOver floor expr c) := by
  unfold exprOver
  split
  · rename_i hoperand
    simp only [Bool.and_eq_true, Bool.not_eq_true'] at hoperand
    refine Yields.inside (startsFromHere fun c₀ hahead htoken => ?_) hoperand.2
    have hright := (atLayoutEnd_congr hahead).trans hoperand.2
    have hfirst := starts_operand hexpr hright
    dsimp only
    split
    · exact startsWrapOpened rfl rfl htoken (.only (hfirst.inside hright).right)
        fun c₁ _ => right_operators hexpr floor _ c₁
    · exact hfirst
  · exact .error _ (.refl _ c)

end Blocks

theorem inside_expr (floor : Nat) (c : Cursor) :
    Yields (LaidAs (some floor) (Inside floor)) c (Grammar.expr floor c) := by
  have hwithin (depth floor : Nat) (c : Cursor) :
      Yields (LaidAs (some floor) (Inside floor)) c (exprWithin depth floor c) := by
    induction depth generalizing floor c with
    | zero => exact .cutOff _ c
    | succ depth ih => exact inside_exprOver ih floor c
  exact hwithin _ floor c

-- ---------------------------------------------------------------------------
-- The file
-- ---------------------------------------------------------------------------

/-- An item of the file, in the first column. -/
theorem laid_topLevelItem (hcolumn : c.column? = some 0) :
    Yields (Tree.Laid none) c (topLevelItem c) := by
  have hplain {c' : Cursor} (h : Yields PlainPart c c') : Yields (Tree.Laid none) c c' :=
    h.mono fun column _ htree => (htree.1.laidAs none column).1
  unfold topLevelItem
  split
  case h_1 | h_2 => exact hplain (plain_moduleDeclaration c)
  case h_3 => exact hplain (plain_portSignature 0 c)
  case h_4 => exact hplain (plain_importClause c)
  case h_5 => exact hplain (plain_typeAliasDeclaration 0 c)
  case h_6 => exact hplain (plain_typeDeclaration 0 c)
  case h_7 => exact (laid_typeSignature 0 c).mono fun _ _ htree => htree.1
  case h_8 => exact (items_valueDeclaration (inside_expr 0) hcolumn).mono fun _ _ htree => htree.1
  case h_9 => exact hplain (plain_recover _ c)

/-- The items of the file are in no other. -/
theorem laid_file {trees : List Tree} (h : Tree.Each (Tree.Laid none) 0 trees) :
    (Tree.node .file trees).Laid none 0 := by
  have hnone : Kind.floorInside .file none 0 = none := rfl
  refine @Tree.Laid.node none 0 .file [] trees (fun _ hpart => absurd hpart List.not_mem_nil)
    (fun _ hpart => absurd hpart List.not_mem_nil) (fun _ _ _ _ hfloor => ?_)
    ⟨0, fun _ hfloor => ?_, fun _ _ _ hitem => absurd hitem List.not_mem_nil⟩ h
  · rw [hnone] at hfloor
    cases hfloor
  · cases hfloor

/-- The layout of a parsed file, whatever the text. -/
theorem parse_keepsLayout (text : String) : (parse text).tree.KeepsLayout := by
  have hrecover (cause : SyntaxError.Cause) (c : Cursor) :
      Yields (Tree.Laid none) c (recover cause c) :=
    (plain_recover cause c).mono fun column _ htree => (htree.1.laidAs none column).1
  obtain ⟨trees, hemits, hlaid⟩ := Yields.fileItems (fun _ => laid_topLevelItem) hrecover
    (.beforeItems text) (isCutOff_behindItems text)
  rw [tree_parse hemits]
  exact Site.keepsLayout_of_laid (laid_file (hlaid 0 ((stands_start text).of_rest rfl)))

-- What is left of the first branch is no branch: an `error` node takes it.
example : ((Site.root (parse "f =\n  case x of\n    A -> 1\n   B -> 2\n").tree).nodes.filter
    (·.kind == .caseOfBranch)).map (fun site => (site.column, site.layoutItem?.map Site.column)) =
    [(4, some 0)] := by decide +kernel

end ElmLint.Syntax

import ElmLint.Proofs.Syntax.Tokens
import ElmLint.Proofs.Syntax.TopLevel

/-!
# Parsing is total and lossless, and what parses without errors conforms

Parsing always gets to the end of the text, and the tree is one `file` node over exactly the tokens
of the text. When no error was recorded, every node follows its production and the items of the file
start in the first column.
-/

namespace ElmLint.Syntax

open Grammar
open Production (oneOf topLevelKinds)

variable {c c' c'' : Cursor} {least column : Nat}

/-! ## Columns -/

namespace Tree

def textOf (trees : List Tree) : List Char := (leavesOf trees).flatMap (·.2.toList)

/-- The trees with the columns they start in, where the first starts in `column`. -/
def columnsFrom (column : Nat) : List Tree → List (Tree × Nat)
  | [] => []
  | tree :: trees => (tree, column) :: columnsFrom (columnAfter column tree.text.toList) trees

theorem toList_text (tree : Tree) : tree.text.toList = textOf [tree] := by
  simp [text, textOf, leavesOf, String.toList_join, List.flatMap, Function.comp_def]

theorem textOf_append (first second : List Tree) :
    textOf (first ++ second) = textOf first ++ textOf second := by
  simp [textOf, leavesOf_append]

theorem columnAfter_append (column : Nat) (first second : List Char) :
    columnAfter column (first ++ second) = columnAfter (columnAfter column first) second :=
  List.foldl_append

theorem columnsFrom_append (column : Nat) (first second : List Tree) :
    columnsFrom column (first ++ second) =
      columnsFrom column first ++ columnsFrom (columnAfter column (textOf first)) second := by
  induction first generalizing column with
  | nil => rfl
  | cons tree first ih =>
    have htext : textOf (tree :: first) = tree.text.toList ++ textOf first := by
      rw [toList_text, ← textOf_append, List.singleton_append]
    rw [List.cons_append, columnsFrom, columnsFrom, ih, List.cons_append, htext, columnAfter_append]

theorem map_fst_columnsFrom (column : Nat) (trees : List Tree) :
    (columnsFrom column trees).map (·.1) = trees := by
  induction trees generalizing column with
  | nil => rfl
  | cons tree trees ih => rw [columnsFrom, List.map_cons, ih]

end Tree

/-- A placed token stands where the text in front of it ends. -/
theorem column_of_placeTokens {tokens : List Token} {consumed more : List PlacedToken}
    {t : PlacedToken} (h : placeTokens column tokens = consumed ++ t :: more) :
    t.column = columnAfter column (consumed.flatMap (·.text.toList)) := by
  induction consumed generalizing column tokens with
  | nil =>
    cases tokens with
    | nil => cases h
    | cons token tokens =>
      rw [placeTokens, List.nil_append, List.cons.injEq] at h
      rw [← h.1]
      rfl
  | cons t' consumed ih =>
    cases tokens with
    | nil => cases h
    | cons token tokens =>
      rw [placeTokens, List.cons_append, List.cons.injEq] at h
      obtain ⟨rfl, h⟩ := h
      rw [ih h, List.flatMap_cons, Tree.columnAfter_append]

theorem map_placeTokens (column : Nat) (tokens : List Token) :
    (placeTokens column tokens).map (fun t => (t.kind, t.text)) =
      tokens.map fun t => (t.kind, t.text) := by
  induction tokens generalizing column with
  | nil => rfl
  | cons token tokens ih => simp [placeTokens, ih]

theorem Tree.textOf_of_leaves {trees : List Tree} {tokens : List PlacedToken}
    (h : leavesOf trees = tokens.map fun t => (t.kind, t.text)) :
    textOf trees = tokens.flatMap (·.text.toList) := by
  rw [textOf, h, List.flatMap_map]

/-- From the start of the text, the next token stands where what was emitted ends. -/
theorem Emits.column? {tokens : List Token} {trees : List Tree}
    (hstart : c.rest = placeTokens 0 tokens) (h : Emits c trees c')
    (hcolumn : c'.column? = some column) :
    columnAfter 0 (Tree.textOf (trees ++ c'.trivia.map PlacedToken.leaf)) = column := by
  obtain ⟨consumed, hrest, hleaves⟩ := (h.trans (.skipTrivia c')).leaves
  cases hahead : c'.ahead with
  | nil => simp [Cursor.column?, Cursor.next?, hahead] at hcolumn
  | cons t more =>
    rw [hstart, Cursor.rest_skipTrivia, hahead] at hrest
    rw [Tree.textOf_of_leaves hleaves, ← column_of_placeTokens hrest]
    simpa [Cursor.column?, Cursor.next?, hahead] using hcolumn

/-! ## The items of a file -/

/-- Trees that stand at the start of a text, conform and are closed, with the nodes among them
top-level items in the first column. -/
structure AreItems (trees : List Tree) : Prop where
  conform : ∀ tree ∈ trees, tree.Conforms
  closed : ∀ tree ∈ trees, tree.Closed
  aligned : ∀ item ∈ Tree.columnsFrom 0 trees, item.1.isNode = true →
    item.1.kind ∈ topLevelKinds ∧ item.2 = 0

namespace AreItems

variable {trees : List Tree}

theorem trivia (h : AreItems trees) (c : Cursor) :
    AreItems (trees ++ c.trivia.map PlacedToken.leaf) where
  conform := List.forall_mem_append.mpr ⟨h.conform, PlacedToken.conforms_trivia c⟩
  closed := List.forall_mem_append.mpr ⟨h.closed, AreClosed.closed_leaves _⟩
  aligned := by
    have hleaves (tokens : List PlacedToken) (column : Nat) :
        ∀ item ∈ Tree.columnsFrom column (tokens.map PlacedToken.leaf), item.1.isNode = false := by
      induction tokens generalizing column with
      | nil => exact nofun
      | cons t tokens ih => exact List.forall_mem_cons.mpr ⟨rfl, ih _⟩
    rw [Tree.columnsFrom_append]
    refine List.forall_mem_append.mpr ⟨h.aligned, fun item hitem hnode => ?_⟩
    rw [hleaves _ _ item hitem] at hnode
    cases hnode

theorem item {item : Tree} (h : AreItems trees) (hitem : item.Conforms) (hclosed : item.Closed)
    (hkind : item.kind ∈ topLevelKinds) (hcolumn : columnAfter 0 (Tree.textOf trees) = 0) :
    AreItems (trees ++ [item]) where
  conform := List.forall_mem_append.mpr ⟨h.conform, by simpa using hitem⟩
  closed := List.forall_mem_append.mpr ⟨h.closed, by simpa using hclosed⟩
  aligned := by
    rw [Tree.columnsFrom_append, hcolumn]
    refine List.forall_mem_append.mpr ⟨h.aligned, ?_⟩
    simpa [Tree.columnsFrom] using fun _ => hkind

theorem conforms_file (h : AreItems trees) : (Tree.node .file trees).Conforms := by
  refine .node ?_ h.conform
  have hkinds : ∀ kind ∈ Tree.nodeKinds trees, kind ∈ topLevelKinds := by
    intro kind hkind
    obtain ⟨tree, htree, rfl⟩ := List.mem_map.mp hkind
    obtain ⟨hmem, hnode⟩ := List.mem_filter.mp htree
    rw [← Tree.map_fst_columnsFrom 0 trees] at hmem
    obtain ⟨item, hitem, rfl⟩ := List.mem_map.mp hmem
    exact (h.aligned item hitem hnode).1
  refine Language.mem_kstar.mpr ⟨(Tree.nodeKinds trees).map ([·]), ?_, ?_⟩
  · simp [← List.flatMap_def]
  · intro word hword
    obtain ⟨kind, hkind, rfl⟩ := List.mem_map.mp hword
    exact Production.mem_oneOf (hkinds kind hkind)

end AreItems

/-- The way from `c` to `c'` reads items, unless it records an error. -/
def ReadsItems (c c' : Cursor) : Prop :=
  ∃ trees, Emits c trees c' ∧ Fills 0 trees ∧ (c'.errors = c.errors → AreItems trees)

namespace ReadsItems

theorem refl (c : Cursor) : ReadsItems c c := ⟨[], .refl c, .nil, fun _ => ⟨nofun, nofun, nofun⟩⟩

/-- White space and comments behind the items. -/
theorem skipTrivia (h : ReadsItems c c') : ReadsItems c c'.skipTrivia := by
  obtain ⟨trees, hemits, hfills, hitems⟩ := h
  refine ⟨_, hemits.trans (.skipTrivia c'), hfills.append (.leaves _), fun hsame => ?_⟩
  exact (hitems (hemits.errors_eq (.skipTrivia c') hsame).1).trivia c'

/-- One more item, where `c` is at the start of the text. -/
theorem item {tokens : List Token} (hstart : c.rest = placeTokens 0 tokens) (h : ReadsItems c c')
    (hitem : ReadsItem least c' c'') (hcolumn : c''.errors = c'.errors → c'.column? = some 0) :
    ReadsItems c c'' := by
  obtain ⟨trees, hemits, hfills, hitems⟩ := h
  obtain ⟨further, hfurther, hfills'⟩ := hitem.emits
  refine ⟨_, hemits.trans hfurther, hfills.append hfills', fun hsame => ?_⟩
  obtain ⟨hfirst, hsecond⟩ := hemits.errors_eq hfurther hsame
  obtain ⟨kind, hkind, children, hnode, -, -, hconforms⟩ | ⟨_, _, _, _, herrors⟩ := hitem
  · obtain rfl := hfurther.trees_eq hnode
    rw [← List.append_assoc]
    obtain ⟨hconforms, hclosed⟩ := hconforms hsecond
    exact ((hitems hfirst).trivia c').item hconforms (hclosed.closed _ List.mem_cons_self) hkind
      (hemits.column? hstart (hcolumn hsecond))
  · rw [hsecond] at herrors
    exact absurd herrors (Nat.lt_irrefl _)

theorem length_lt (hitem : ReadsItem 1 c c') : c'.rest.length < c.rest.length := by
  obtain ⟨_, _, _, _, hlength, _⟩ | ⟨_, _, _, hlt, _⟩ := hitem
  · exact hlength
  · exact hlt

end ReadsItems

theorem readsItems_file {tokens : List Token} (hstart : c.rest = placeTokens 0 tokens) :
    let c' := (c.repeatWhile (!·.atEnd) fileItem).skipTrivia
    ReadsItems c c' ∧ c'.rest = [] := by
  have hround (c' : Cursor) (h : ReadsItems c c') (hmore : (!c'.atEnd) = true) :
      ReadsItems c (fileItem c') ∧ (fileItem c').rest.length < c'.rest.length := by
    have hnext : c'.atEnd = false := by simpa using hmore
    obtain ⟨hitem, hcolumn⟩ := readsItem_fileItem hnext
    exact ⟨h.item hstart hitem hcolumn, ReadsItems.length_lt hitem⟩
  obtain ⟨hitems, hend⟩ := Cursor.repeatWhile_induction hround c (.refl c)
  refine ⟨hitems.skipTrivia, ?_⟩
  simp only [Bool.not_eq_false'] at hend
  rw [Cursor.rest_skipTrivia]
  simpa [Cursor.atEnd, Cursor.next?] using hend

/-- The whole way over a text adds one node, over all of its tokens. -/
theorem parse_eq (text : String) :
    ∃ items, (parse text).tree = .node .file items ∧
      (Cursor.atEndOf text).builder = Builder.empty.push [.node .file items] ∧
      (Cursor.atEndOf text).rest = [] ∧ (Cursor.atEndOf text).isCutOff = false ∧
      Tree.leavesOf items = (tokenize text).map (fun t => (t.kind, t.text)) ∧
      ((Cursor.atEndOf text).errors = [] → AreItems items) := by
  have hstart : ((Cursor.start (tokenize text)).startNode .file).rest =
    placeTokens 0 (tokenize text) := rfl
  obtain ⟨⟨items, hemits, -, hitems⟩, hend⟩ := readsItems_file hstart
  have hbuilder : (Cursor.atEndOf text).builder = Builder.empty.push [.node .file items] :=
    (congrArg Builder.finishNode hemits.builder).trans
      (Builder.finishNode_startNode .file items .empty)
  refine ⟨items, ?_, hbuilder, hend, hemits.isCutOff, ?_, hitems⟩
  · simp [parse, hbuilder, Builder.root?, Builder.empty]
  · obtain ⟨consumed, hrest, hleaves⟩ := hemits.leaves
    rw [hend, List.append_nil, hstart] at hrest
    rw [hleaves, ← hrest, map_placeTokens]

/-- The cursor at the start of a text, inside the node of the file. -/
def Cursor.beforeItems (text : String) : Cursor := (Cursor.start (tokenize text)).startNode .file

/-- The cursor behind all items of a text, before the node of the file is finished. -/
def Cursor.behindItems (text : String) : Cursor :=
  ((Cursor.beforeItems text).repeatWhile (!·.atEnd) fileItem).skipTrivia

theorem atEndOf_eq (text : String) :
    Cursor.atEndOf text = (Cursor.behindItems text).finishNode := rfl

theorem isCutOff_behindItems (text : String) : (Cursor.behindItems text).isCutOff = false := by
  obtain ⟨-, -, -, -, huncut, -⟩ := parse_eq text
  rwa [atEndOf_eq] at huncut

/-- What is emitted between the items' start and end are the children of the file. -/
theorem tree_parse {text : String} {trees : List Tree}
    (h : Emits (.beforeItems text) trees (.behindItems text)) :
    (parse text).tree = .node .file trees := by
  obtain ⟨items, htree, hbuilder, -⟩ := parse_eq text
  have hbuilder' : (Cursor.atEndOf text).builder = Builder.empty.push [.node .file trees] := by
    rw [atEndOf_eq]
    exact (congrArg Builder.finishNode h.builder).trans
      (Builder.finishNode_startNode .file trees .empty)
  have hparts := congrArg Builder.parts (hbuilder'.symm.trans hbuilder)
  obtain rfl : trees = items := by simpa using hparts
  exact htree

theorem filled_of_mem_items {text : String} {item : Tree}
    (h : item ∈ (parse text).tree.children) : item.Filled := by
  have hstart : (Cursor.beforeItems text).rest = placeTokens 0 (tokenize text) := rfl
  obtain ⟨⟨items, hemits, hfills, -⟩, -⟩ := readsItems_file hstart
  rw [tree_parse hemits] at h
  exact hfills.filled item h

/-! ## Results -/

/-- Whatever the text, parsing comes to its end: no rule is cut off and no token is left. Every node
that was started is finished, and no call to the builder came when it must not. What is built is one
`file` node, whose leaves are the tokens of the text and whose text is the text. -/
theorem parse_total_lossless (text : String) :
    ((Cursor.atEndOf text).isCutOff = false ∧ (Cursor.atEndOf text).rest = []) ∧
      ((Cursor.atEndOf text).builder.isMisused = false ∧
        (Cursor.atEndOf text).builder.opened = []) ∧
      (Cursor.atEndOf text).builder.parts = [(parse text).tree] ∧
      ((parse text).tree.isNode = true ∧ (parse text).tree.kind = .file) ∧
      (parse text).tree.leaves = (tokenize text).map (fun t => (t.kind, t.text)) ∧
      (parse text).tree.text = text := by
  obtain ⟨items, htree, hbuilder, hrest, hcutOff, hleaves, -⟩ := parse_eq text
  have htext : (parse text).tree.text.toList = text.toList := by
    rw [htree, Tree.toList_text, Tree.textOf, Emits.leavesOf_node, hleaves, List.flatMap_map]
    exact text_tokenize text
  refine ⟨⟨hcutOff, hrest⟩, ?_, ?_, ?_, ?_, String.toList_inj.mp htext⟩
  · rw [hbuilder]
    exact ⟨rfl, rfl⟩
  · rw [hbuilder, htree]
    rfl
  · rw [htree]
    exact ⟨rfl, rfl⟩
  · rw [htree]
    exact hleaves

/-- What the grammar promises of a tree: no error in it, children after the production of their
node, and top-level items that start in the first column. -/
structure Tree.FollowsGrammar (tree : Tree) : Prop where
  kind_ne_error : ∀ part, Within part tree → part.kind ≠ .error
  children : ∀ part, Within part tree → part.isNode = true →
    nodeKinds part.children ∈ (production part.kind).matches'
  items : ∀ item ∈ columnsFrom 0 tree.children, item.1.isNode = true →
    item.1.kind ∈ topLevelKinds ∧ item.2 = 0

theorem parse_followsGrammar {text : String} (hok : (parse text).ok = true) :
    (parse text).tree.FollowsGrammar := by
  obtain ⟨items, htree, -, -, -, -, hitems⟩ := parse_eq text
  have herrors : (Cursor.atEndOf text).errors = [] := by
    simpa [Parse.ok, parse] using hok
  have hareItems := hitems herrors
  rw [htree]
  exact ⟨fun _ hpart => (hareItems.conforms_file.within hpart).kind_ne_error,
    fun _ hpart => (hareItems.conforms_file.within hpart).children, hareItems.aligned⟩

theorem parse_followsGrammar_caseOf :
    (parse "f x =\n    case x of\n        [] ->\n            -x.y\n").ok = true ∧
      (parse "f x =\n    case x of\n        [] ->\n            -x.y\n").tree.FollowsGrammar :=
  ⟨by decide +kernel, parse_followsGrammar (by decide +kernel)⟩

end ElmLint.Syntax

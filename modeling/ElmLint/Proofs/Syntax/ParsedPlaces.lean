import ElmLint.Proofs.Syntax.Places
import ElmLint.Proofs.Syntax.Tiling
import ElmLint.Proofs.Syntax.WholeFile

/-!
# Places in a parsed text

The tokens in the tree of a text stand where the tokens of the text start, and every node has a
word, but for the file and for a list of exposed items that is missing.
-/

namespace ElmLint.Syntax

variable {site part : Site} {text : String}

-- ---------------------------------------------------------------------------
-- Tokens
-- ---------------------------------------------------------------------------

/-- The tokens with these kinds and texts, where the first starts at `start`. -/
def tokensOfLeaves (start : Nat) : List (Kind × String) → List Token
  | [] => []
  | (kind, text) :: leaves =>
    ⟨kind, text, start⟩ :: tokensOfLeaves (start + utf8Length text.toList) leaves

namespace Tree

mutual

theorem length_eq (tree : Tree) :
    tree.length = (tree.leaves.map (utf8Length ·.2.toList)).sum := by
  cases tree with
  | token kind text => exact (Nat.add_zero _).symm
  | node kind children => exact lengthOf_eq children

theorem lengthOf_eq (trees : List Tree) :
    lengthOf trees = ((leavesOf trees).map (utf8Length ·.2.toList)).sum := by
  cases trees with
  | nil => rfl
  | cons tree trees =>
    rw [lengthOf, leavesOf, List.map_append, List.sum_append, length_eq tree, lengthOf_eq trees]

end

end Tree

theorem tokensOfLeaves_append (start : Nat) (first second : List (Kind × String)) :
    tokensOfLeaves start (first ++ second) =
      tokensOfLeaves start first ++
        tokensOfLeaves (start + (first.map (utf8Length ·.2.toList)).sum) second := by
  induction first generalizing start with
  | nil => rfl
  | cons leaf first ih =>
    rw [List.cons_append, tokensOfLeaves, tokensOfLeaves, ih, List.map_cons, List.sum_cons,
      Nat.add_assoc]
    rfl

theorem Site.text_token {kind : Kind} {text : String} (h : site.tree = .token kind text) :
    site.text = text := by
  simp [Site.text, h, Tree.text, Tree.leaves]

/-- The token at a place. -/
def Site.toToken (site : Site) : Token := ⟨site.kind, site.text, site.start⟩

theorem map_toToken_tokens (site : Site) :
    site.tokens.map Site.toToken = tokensOfLeaves site.start site.tree.leaves := by
  induction site using Site.parts_induction with
  | h site ih =>
    cases htree : site.tree with
    | token kind text =>
      have htokens : site.tokens = [site] := by
        rw [Site.tokens, Site.descendants, htree, Site.preorder]
        simp [htree, Tree.isNode]
      rw [htokens, List.map_singleton, Site.toToken, Site.kind, Site.text_token htree, htree]
      rfl
    | node kind children =>
      have hparts : site.parts = Site.partsFrom site 0 site.start children := by
        rw [Site.parts, htree]
        rfl
      have htokens : site.tokens = site.parts.flatMap Site.tokens := by
        rw [Site.tokens, Site.descendants_eq, Site.inner,
          List.filter_cons_of_neg (by simp [htree, Tree.isNode]), List.filter_flatMap]
        rfl
      rw [htokens, hparts, Tree.leaves]
      rw [hparts] at ih
      generalize site.start = start at ih ⊢
      generalize 0 = index at ih ⊢
      clear htree hparts htokens
      induction children generalizing index start with
      | nil => rfl
      | cons tree trees ihtrees =>
        obtain ⟨hfirst, hrest⟩ := List.forall_mem_cons.mp ih
        rw [Site.partsFrom, List.flatMap_cons, List.map_append, hfirst, ihtrees _ _ hrest,
          Tree.leavesOf, tokensOfLeaves_append, ← Tree.length_eq]
        rfl

theorem tokensOfLeaves_tokensFrom (fuel offset : Nat) (cs : List Char) :
    tokensOfLeaves offset ((tokensFrom fuel offset cs).map fun t => (t.kind, t.text)) =
      tokensFrom fuel offset cs := by
  fun_induction tokensFrom fuel offset cs with
  | case1 | case2 => rfl
  | case3 fuel offset c cs l ih =>
    rw [List.map_cons, tokensOfLeaves, String.toList_ofList, ih]

/-- The tokens in the tree of a text are the tokens of the text. -/
theorem map_toToken_parse (text : String) :
    (Site.root (parse text).tree).tokens.map Site.toToken = tokenize text := by
  obtain ⟨items, htree, -, -, -, hleaves, -⟩ := parse_eq text
  rw [map_toToken_tokens]
  show tokensOfLeaves 0 (parse text).tree.leaves = _
  rw [htree, Tree.leaves, hleaves]
  exact tokensOfLeaves_tokensFrom _ _ _

-- ---------------------------------------------------------------------------
-- Words
-- ---------------------------------------------------------------------------

theorem map_kind_tokens (site : Site) :
    site.tokens.map (fun t => (t.kind, t.text)) = site.tree.leaves := by
  have hleaves (start : Nat) (leaves : List (Kind × String)) :
      (tokensOfLeaves start leaves).map (fun t => (t.kind, t.text)) = leaves := by
    induction leaves generalizing start with
    | nil => rfl
    | cons leaf leaves ih => rw [tokensOfLeaves, List.map_cons, ih]
  have h := congrArg (List.map fun t : Token => (t.kind, t.text)) (map_toToken_tokens site)
  rwa [hleaves, List.map_map] at h

/-- A place with a significant leaf has a word. -/
theorem words_ne_nil {trees : List Tree} (h : Tree.IsSignificant trees)
    (hleaves : Tree.leavesOf trees = site.tree.leaves) : site.words ≠ [] := by
  obtain ⟨leaf, hleaf, hkind⟩ := h
  rw [hleaves, ← map_kind_tokens] at hleaf
  obtain ⟨word, hword, rfl⟩ := List.mem_map.mp hleaf
  exact List.ne_nil_of_mem (List.mem_filter.mpr ⟨hword, by simpa using hkind⟩)

/-- The place is a node with a word, as are all nodes inside, missing lists aside. -/
theorem words_ne_nil_of_filled (h : site.tree.Filled) (hnode : site.tree.isNode = true) :
    site.words ≠ [] := by
  cases htree : site.tree with
  | token => simp [htree, Tree.isNode] at hnode
  | node kind children =>
    rw [htree] at h
    exact words_ne_nil h.significant (by rw [htree, Tree.leaves])

theorem Tree.Filled.child {tree child : Tree} (h : tree.Filled) (hmem : child ∈ tree.children) :
    child.Filled ∨ tree.kind ∈ [.moduleDeclaration, .importClause] ∧ child = noItems := by
  cases h with
  | token => cases hmem
  | node _ hchildren => exact .inl (hchildren _ hmem)
  | header hkind _ hchildren =>
    obtain hmem | hmem := List.mem_append.mp hmem
    · exact .inl (hchildren _ hmem)
    · exact .inr ⟨hkind, List.mem_singleton.mp hmem⟩

theorem filled_of_mem_parts (h : site.tree.Filled) (hpart : part ∈ site.parts) :
    part.tree.Filled ∨
      site.kind ∈ [.moduleDeclaration, .importClause] ∧ part.tree = Tree.noItems :=
  h.child (Site.tree_mem_children hpart)

/-- What holds of a tree and passes on to children holds at all places in it. -/
theorem Site.tree_of_mem_descendants {P : Tree → Prop}
    (hchildren : ∀ tree, P tree → ∀ child ∈ tree.children, P child) (h : P site.tree) :
    ∀ place ∈ site.descendants, P place.tree := by
  induction site using Site.parts_induction with
  | h site ih =>
    rw [Site.descendants_eq]
    refine List.forall_mem_cons.mpr ⟨h, fun place hplace => ?_⟩
    obtain ⟨inner, hinner, hplace⟩ := List.mem_flatMap.mp hplace
    exact ih inner hinner (hchildren _ h _ (Site.tree_mem_children hinner)) place hplace

/-- What the lint checks take for granted of a tree. -/
structure Tree.IsParsed (tree : Tree) : Prop where
  kind_eq : tree.kind = .file
  filled : ∀ item ∈ tree.children, item.Filled
  spelled : (Site.root tree).IsSpelled

/-- Every node in a parsed file is filled or a missing list, but for the file. -/
theorem Tree.IsParsed.filled_or_noItems {tree : Tree} (h : tree.IsParsed)
    (hsite : site ∈ (Site.root tree).descendants) (hkind : site.kind ≠ .file) :
    site.tree.Filled ∨ site.tree = noItems := by
  rw [Site.descendants_eq, List.mem_cons] at hsite
  obtain rfl | hsite := hsite
  · exact absurd h.kind_eq hkind
  obtain ⟨item, hitem, hsite⟩ := List.mem_flatMap.mp hsite
  refine Site.tree_of_mem_descendants (P := fun tree => tree.Filled ∨ tree = noItems) ?_
    (.inl (h.filled _ (Site.tree_mem_children hitem))) site hsite
  rintro tree (hfilled | rfl) child hchild
  · exact (hfilled.child hchild).imp_right (·.2)
  · exact absurd hchild List.not_mem_nil

theorem isParsed_parse (text : String) : (parse text).tree.IsParsed where
  kind_eq := by
    obtain ⟨items, htree, -⟩ := parse_eq text
    rw [htree]
    rfl
  filled _ := filled_of_mem_items
  spelled word hword := by
    have hmem : word.toToken ∈ tokenize text := by
      rw [← map_toToken_parse]
      exact List.mem_map_of_mem (List.mem_filter.mp hword).1
    have hne : word.text ≠ "" := text_ne_empty_of_mem_tokenize hmem
    have htoken := (Site.mem_words hword).2.1
    rw [Site.stop]
    cases htree : word.tree with
    | node => simp [htree, Tree.isNode] at htoken
    | token kind text =>
      rw [Site.text_token htree] at hne
      obtain ⟨c, cs, hcs⟩ := List.exists_cons_of_ne_nil (String.toList_eq_nil_iff.not.mpr hne)
      have := c.utf8Size_pos
      rw [Tree.length, hcs, utf8Length_cons]
      omega

end ElmLint.Syntax

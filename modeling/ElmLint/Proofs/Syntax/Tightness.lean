import ElmLint.Proofs.Syntax.ParsedPlaces

/-!
# Nodes are tight

White space and comments stand between nodes, not at their ends: no node but the file begins with
them, and none ends with them unless the text has an error. So what is significant of a node is all
of it.
-/

namespace ElmLint.Syntax

variable {site : Site} {text : String}

-- ---------------------------------------------------------------------------
-- Places that begin and end with a word
-- ---------------------------------------------------------------------------

theorem Tree.Closed.child {tree child : Tree} (h : tree.Closed) (hmem : child ∈ tree.children) :
    child.Closed := by
  cases h with
  | token => cases hmem
  | node _ _ hchildren => exact hchildren _ hmem

namespace Site

/-- A place that begins with a word is a place where a word starts. -/
theorem exists_first_word {leaf : Kind × String} (hleaf : site.tree.leaves.head? = some leaf)
    (hkind : leaf.1.isTrivia = false) :
    ∃ word, site.words.head? = some word ∧ word.start = site.start := by
  obtain ⟨leaves, hleaves⟩ := List.head?_eq_some_iff.mp hleaf
  have htokens := map_toToken_tokens site
  rw [hleaves, tokensOfLeaves] at htokens
  obtain ⟨word, words, hwords, hword, -⟩ := List.map_eq_cons_iff.mp htokens
  have hwordKind : word.kind = leaf.1 := congrArg Token.kind hword
  refine ⟨word, ?_, congrArg Token.start hword⟩
  rw [Site.words, hwords, List.filter_cons_of_pos (by simp [hwordKind, hkind])]
  rfl

theorem stop_eq_of_mem_tokens {token : Site} (h : token ∈ site.tokens) :
    token.stop = token.start + utf8Length token.text.toList := by
  have htoken := (List.mem_filter.mp h).2
  cases htree : token.tree with
  | node => simp [htree, Tree.isNode] at htoken
  | token kind text =>
    rw [stop, text_token htree, htree]
    rfl

/-- A place that ends with a word is a place where a word stops. -/
theorem exists_last_word {leaf : Kind × String} (hleaf : site.tree.leaves.getLast? = some leaf)
    (hkind : leaf.1.isTrivia = false) :
    ∃ word, site.words.getLast? = some word ∧ word.stop = site.stop := by
  obtain ⟨leaves, hleaves⟩ := List.getLast?_eq_some_iff.mp hleaf
  have htokens := map_toToken_tokens site
  rw [hleaves, tokensOfLeaves_append] at htokens
  obtain ⟨words, last, hwords, -, hlast⟩ := List.map_eq_append_iff.mp htokens
  obtain ⟨word, rest, rfl, hword, hrest⟩ := List.map_eq_cons_iff.mp hlast
  obtain rfl : rest = [] := List.map_eq_nil_iff.mp hrest
  have hwordKind : word.kind = leaf.1 := congrArg Token.kind hword
  have hwordText : word.text = leaf.2 := congrArg Token.text hword
  have hwordStart : word.start = site.start + (leaves.map (utf8Length ·.2.toList)).sum :=
    congrArg Token.start hword
  refine ⟨word, ?_, ?_⟩
  · rw [Site.words, hwords, List.filter_append,
      List.filter_cons_of_pos (by simp [hwordKind, hkind])]
    simp
  · rw [stop_eq_of_mem_tokens (hwords ▸ List.mem_append_right _ List.mem_cons_self), hwordStart,
      hwordText, stop, Tree.length_eq, hleaves, List.map_append, List.sum_append, Nat.add_assoc]
    simp

/-- What is significant of a place that begins and ends with a word is all of it. -/
theorem significant_eq {first last : Kind × String}
    (hfirst : site.tree.leaves.head? = some first) (hfirstKind : first.1.isTrivia = false)
    (hlast : site.tree.leaves.getLast? = some last) (hlastKind : last.1.isTrivia = false) :
    site.significantRange = site.range ∧ site.significantText = site.text := by
  constructor
  · obtain ⟨word, hword, hstart⟩ := exists_first_word hfirst hfirstKind
    obtain ⟨word', hword', hstop⟩ := exists_last_word hlast hlastKind
    rw [significantRange, significant?_eq, hword, hword', range, ← hstart, ← hstop]
    rfl
  · have hkeep {leaves : List (Kind × String)} {leaf : Kind × String}
        (hleaf : leaves.head? = some leaf) (hkind : leaf.1.isTrivia = false) :
        Tree.dropTrivia leaves = leaves := by
      obtain ⟨leaves, rfl⟩ := List.head?_eq_some_iff.mp hleaf
      exact List.dropWhile_cons_of_neg (by simp [hkind])
    have hback : site.tree.leaves.reverse.head? = some last := by
      rwa [List.head?_reverse]
    rw [significantText, Tree.significantText, hkeep hfirst hfirstKind, hkeep hback hlastKind,
      List.reverse_reverse]
    rfl

end Site

-- ---------------------------------------------------------------------------
-- Nodes of a parsed text
-- ---------------------------------------------------------------------------

theorem begins_of_mem_nodes (hsite : site ∈ (Site.root (parse text).tree).nodes)
    (hkind : site.kind ≠ .file) {leaf : Kind × String} (hleaf : leaf ∈ site.tree.leaves.head?) :
    leaf.1.isTrivia = false := by
  obtain ⟨hsite, hnode⟩ := List.mem_filter.mp hsite
  have hfilled := (isParsed_parse text).filled_or_noItems hsite hkind
  cases htree : site.tree with
  | token => simp [htree, Tree.isNode] at hnode
  | node kind children =>
    rw [htree] at hfilled hleaf
    obtain hfilled | hnone := hfilled
    · obtain ⟨first, hfirst, hfirstKind⟩ := hfilled.begins
      rw [Tree.leaves, hfirst] at hleaf
      cases hleaf
      exact hfirstKind
    · cases hnone
      cases hleaf

theorem closed_of_mem_nodes (hok : (parse text).ok = true)
    (hsite : site ∈ (Site.root (parse text).tree).nodes) (hkind : site.kind ≠ .file) :
    site.tree.Closed := by
  obtain ⟨hsite, hnode⟩ := List.mem_filter.mp hsite
  obtain ⟨items, htree, -, -, -, -, hitems⟩ := parse_eq text
  have herrors : (Cursor.atEndOf text).errors = [] := by simpa [Parse.ok, parse] using hok
  rw [Site.descendants_eq, List.mem_cons] at hsite
  obtain rfl | hsite := hsite
  · rw [htree] at hkind
    exact absurd rfl hkind
  obtain ⟨item, hitem, hsite⟩ := List.mem_flatMap.mp hsite
  have hclosedItem : item.tree.Closed := by
    refine (hitems herrors).closed _ ?_
    have hmem := Site.tree_mem_children hitem
    rwa [Site.tree, htree] at hmem
  exact Site.tree_of_mem_descendants (fun _ h _ => h.child) hclosedItem site hsite

theorem ends_of_mem_nodes (hok : (parse text).ok = true)
    (hsite : site ∈ (Site.root (parse text).tree).nodes) (hkind : site.kind ≠ .file) :
    ∃ leaf, site.tree.leaves.getLast? = some leaf ∧ leaf.1.isTrivia = false := by
  have hclosed := closed_of_mem_nodes hok hsite hkind
  have hnode := (List.mem_filter.mp hsite).2
  generalize site.tree = tree at hclosed hnode ⊢
  cases hclosed with
  | token => cases hnode
  | node hends => exact hends

/-- Where a text parses without errors, its nodes are spelled as they should be. -/
theorem spelt_of_mem_nodes (hok : (parse text).ok = true)
    (hsite : site ∈ (Site.root (parse text).tree).nodes) {form : RegularExpression Kind}
    (hform : site.kind.spelling? = some form) :
    Tree.partKinds site.tree.children ∈ form.matches' := by
  have hclosed := closed_of_mem_nodes hok hsite (by rintro hkind; rw [hkind] at hform; cases hform)
  have hnode := (List.mem_filter.mp hsite).2
  rw [Site.kind] at hform
  generalize site.tree = tree at hclosed hnode hform ⊢
  cases hclosed with
  | token => cases hnode
  | node _ hspelt => exact hspelt form hform

/-- No node but the file begins with white space or a comment. Where a text parses without errors,
none is empty or ends with them, so what is significant of a node is its range and its text. -/
theorem parse_nodesAreTight (text : String) :
    (∀ site ∈ (Site.root (parse text).tree).nodes, site.kind ≠ .file →
      ∀ leaf ∈ site.tree.leaves.head?, leaf.1.isTrivia = false) ∧
    ((parse text).ok = true → ∀ site ∈ (Site.root (parse text).tree).nodes, site.kind ≠ .file →
      site.start < site.stop ∧
      (∃ leaf, site.tree.leaves.getLast? = some leaf ∧ leaf.1.isTrivia = false) ∧
      site.significantRange = site.range ∧ site.significantText = site.text) := by
  refine ⟨fun site hsite hkind leaf hleaf => begins_of_mem_nodes hsite hkind hleaf,
    fun hok site hsite hkind => ?_⟩
  obtain ⟨last, hlast, hlastKind⟩ := ends_of_mem_nodes hok hsite hkind
  obtain ⟨first, hfirst⟩ : ∃ first, site.tree.leaves.head? = some first := by
    refine Option.isSome_iff_exists.mp (List.isSome_head?.mpr fun hnone => ?_)
    rw [hnone] at hlast
    cases hlast
  have hfirstKind := begins_of_mem_nodes hsite hkind hfirst
  refine ⟨?_, ⟨last, hlast, hlastKind⟩,
    Site.significant_eq hfirst hfirstKind hlast hlastKind⟩
  obtain ⟨word, hword, hstart⟩ := Site.exists_first_word hfirst hfirstKind
  have hmem : word ∈ site.words := List.mem_of_mem_head? hword
  have hspelled := (isParsed_parse text).spelled.descendants (List.mem_filter.mp hsite).1
  have hstop := (Site.bounds_of_mem_descendants (Site.mem_words hmem).1).2
  exact hstart ▸ Nat.lt_of_lt_of_le (hspelled word hmem) hstop

end ElmLint.Syntax

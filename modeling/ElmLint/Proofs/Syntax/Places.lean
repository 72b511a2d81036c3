import ElmLint.Proofs.Syntax.Filling
import ElmLint.Syntax.Site

/-!
# Places in text order

The places in a tree come in text order: of two of them, the second lies inside the first or behind
it. What is significant of a place reaches from the first to the last of its words, which are the
tokens in it that are neither white space nor comments.
-/

namespace ElmLint.Syntax.Site

variable {site part part' place place' : Site} {range range' : ByteRange}

-- ---------------------------------------------------------------------------
-- Parts
-- ---------------------------------------------------------------------------

theorem stop_part (parent : Site) (index start : Nat) (tree : Tree) :
    (Site.part parent index start tree).stop = start + tree.length := rfl

theorem bounds_of_mem_partsFrom {parent : Site} {index start : Nat} {trees : List Tree}
    (h : part ∈ partsFrom parent index start trees) :
    start ≤ part.start ∧ part.stop ≤ start + Tree.lengthOf trees := by
  induction trees generalizing index start with
  | nil => cases h
  | cons tree trees ih =>
    rw [partsFrom, List.mem_cons] at h
    rw [Tree.lengthOf]
    obtain rfl | h := h
    · exact ⟨Nat.le_refl _, by rw [stop_part]; omega⟩
    · have := ih h
      omega

theorem pairwise_partsFrom (parent : Site) (index start : Nat) (trees : List Tree) :
    (partsFrom parent index start trees).Pairwise (·.stop ≤ ·.start) := by
  induction trees generalizing index start with
  | nil => exact .nil
  | cons tree trees ih => exact .cons (fun part h => (bounds_of_mem_partsFrom h).1) (ih _ _)

theorem map_tree_partsFrom (parent : Site) (index start : Nat) (trees : List Tree) :
    (partsFrom parent index start trees).map tree = trees := by
  induction trees generalizing index start with
  | nil => rfl
  | cons first trees ih => rw [partsFrom, List.map_cons, ih]; rfl

theorem map_tree_parts (site : Site) : site.parts.map tree = site.tree.children :=
  map_tree_partsFrom ..

theorem tree_mem_children (h : part ∈ site.parts) : part.tree ∈ site.tree.children :=
  map_tree_parts site ▸ List.mem_map_of_mem h

theorem pairwise_parts (site : Site) : site.parts.Pairwise (·.stop ≤ ·.start) :=
  pairwise_partsFrom ..

theorem lengthOf_children (tree : Tree) : Tree.lengthOf tree.children ≤ tree.length := by
  cases tree with
  | token => exact Nat.zero_le _
  | node => exact Nat.le_refl _

theorem bounds_of_mem_parts (h : part ∈ site.parts) :
    site.start ≤ part.start ∧ part.stop ≤ site.stop := by
  obtain ⟨hstart, hstop⟩ := bounds_of_mem_partsFrom h
  exact ⟨hstart, Nat.le_trans hstop (Nat.add_le_add_left (lengthOf_children _) _)⟩

theorem eq_part_of_parts {before after : List Site} (h : site.parts = before ++ part :: after) :
    ∃ start tree, part = .part site before.length start tree := by
  have hindex {index start : Nat} {trees : List Tree}
      (h : partsFrom site index start trees = before ++ part :: after) :
      ∃ start' tree, part = .part site (index + before.length) start' tree := by
    clear * - h
    induction before generalizing index start trees with
    | nil =>
      cases trees with
      | nil => cases h
      | cons tree trees =>
        rw [partsFrom, List.nil_append, List.cons.injEq] at h
        exact ⟨start, tree, h.1.symm⟩
    | cons first before ih =>
      cases trees with
      | nil => cases h
      | cons tree trees =>
        rw [partsFrom, List.cons_append, List.cons.injEq] at h
        obtain ⟨start', tree', rfl⟩ := ih h.2
        exact ⟨start', tree', by rw [List.length_cons, Nat.add_right_comm, Nat.add_assoc]⟩
  obtain ⟨start, tree, hpart⟩ := hindex h
  exact ⟨start, tree, by rw [hpart, Nat.zero_add]⟩

/-- A part starts where the one in front of it stops. -/
theorem start_of_next {next : Site} {before after : List Site}
    (h : site.parts = before ++ part :: next :: after) : next.start = part.stop := by
  have hnext {index start : Nat} {trees : List Tree}
      (h : partsFrom site index start trees = before ++ part :: next :: after) :
      next.start = part.stop := by
    clear * - h
    induction before generalizing index start trees with
    | nil =>
      obtain _ | ⟨tree, _ | ⟨tree', trees⟩⟩ := trees
      · cases h
      · cases h
      · simp only [partsFrom, List.nil_append, List.cons.injEq] at h
        rw [← h.1, ← h.2.1]
        rfl
    | cons first before ih =>
      cases trees with
      | nil => cases h
      | cons tree trees =>
        rw [partsFrom, List.cons_append, List.cons.injEq] at h
        exact ih h.2
  exact hnext h

/-- The parts in front of one, the nearest first. -/
theorem partsBefore_of_parts {before after : List Site} (h : site.parts = before ++ part :: after) :
    part.partsBefore = before.reverse := by
  obtain ⟨start, tree, hpart⟩ := eq_part_of_parts h
  rw [hpart, partsBefore, h, List.take_left]

/-- The parts behind one, the nearest first. -/
theorem partsAfter_of_parts {before after : List Site} (h : site.parts = before ++ part :: after) :
    part.partsAfter = after := by
  obtain ⟨start, tree, hpart⟩ := eq_part_of_parts h
  rw [hpart, partsAfter, h]
  simp

/-- What holds of a place when it holds of its parts, holds of every place. -/
theorem parts_induction {P : Site → Prop} (h : ∀ site, (∀ part ∈ site.parts, P part) → P site)
    (site : Site) : P site :=
  h site fun part hpart =>
    have : sizeOf part.tree < sizeOf site.tree := by
      have hmem := tree_mem_children hpart
      cases htree : site.tree with
      | token => simp [htree, Tree.children] at hmem
      | node kind children =>
        rw [htree] at hmem
        have := List.sizeOf_lt_of_mem hmem
        simp only [Tree.children] at this
        simp only [Tree.node.sizeOf_spec]
        omega
    parts_induction h part
termination_by sizeOf site.tree

-- ---------------------------------------------------------------------------
-- Descendants
-- ---------------------------------------------------------------------------

/-- All places in a place but itself. -/
def inner (site : Site) : List Site := site.parts.flatMap descendants

theorem preorderParts_eq (parent : Site) (index start : Nat) (trees : List Tree) :
    preorderParts parent index start trees =
      (partsFrom parent index start trees).flatMap descendants := by
  induction trees generalizing index start with
  | nil => rfl
  | cons tree trees ih =>
    rw [preorderParts, ih, partsFrom, List.flatMap_cons]
    rfl

theorem descendants_eq (site : Site) : site.descendants = site :: site.inner := by
  rw [descendants, inner, parts]
  cases htree : site.tree with
  | token => rfl
  | node kind children => rw [preorder, preorderParts_eq]; rfl

theorem mem_descendants_self (site : Site) : site ∈ site.descendants := by
  rw [descendants_eq]
  exact List.mem_cons_self

theorem mem_inner_of_mem_parts (hpart : part ∈ site.parts) (h : place ∈ part.descendants) :
    place ∈ site.inner := List.mem_flatMap.mpr ⟨part, hpart, h⟩

theorem mem_descendants_of_mem_inner (h : place ∈ site.inner) : place ∈ site.descendants := by
  rw [descendants_eq]
  exact List.mem_cons_of_mem _ h

theorem mem_descendants_of_mem_parts (hpart : part ∈ site.parts) : part ∈ site.descendants :=
  mem_descendants_of_mem_inner (mem_inner_of_mem_parts hpart (mem_descendants_self part))

theorem mem_descendants_trans (h : part ∈ site.descendants) (h' : place ∈ part.descendants) :
    place ∈ site.descendants := by
  induction site using parts_induction with
  | h site ih =>
    rw [descendants_eq, List.mem_cons] at h
    obtain rfl | h := h
    · exact h'
    · obtain ⟨first, hfirst, h⟩ := List.mem_flatMap.mp h
      exact mem_descendants_of_mem_inner (mem_inner_of_mem_parts hfirst (ih first hfirst h))

/-- A place inside another is a part of the other or of a place inside it. -/
theorem exists_parent_of_mem_inner (h : place ∈ site.inner) :
    ∃ parent ∈ site.descendants, place ∈ parent.parts := by
  induction site using parts_induction with
  | h site ih =>
    obtain ⟨part, hpart, h⟩ := List.mem_flatMap.mp h
    rw [descendants_eq, List.mem_cons] at h
    obtain rfl | h := h
    · exact ⟨site, mem_descendants_self site, hpart⟩
    · obtain ⟨parent, hparent, h⟩ := ih part hpart h
      exact ⟨parent, mem_descendants_trans (mem_descendants_of_mem_parts hpart) hparent, h⟩

/-- Only nodes have other places inside. -/
theorem isNode_of_mem_descendants (hpart : part ∈ site.parts) (h : place ∈ part.descendants)
    (hplace : place.tree.isNode = true) : part ∈ site.children := by
  refine List.mem_filter.mpr ⟨hpart, ?_⟩
  rw [descendants_eq, List.mem_cons] at h
  obtain rfl | h := h
  · exact hplace
  · obtain ⟨first, hfirst, -⟩ := List.mem_flatMap.mp h
    have hmem := tree_mem_children hfirst
    cases htree : part.tree with
    | token => simp [htree, Tree.children] at hmem
    | node => rfl

theorem bounds_of_mem_descendants (h : place ∈ site.descendants) :
    site.start ≤ place.start ∧ place.stop ≤ site.stop := by
  induction site using parts_induction with
  | h site ih =>
    rw [descendants_eq, List.mem_cons] at h
    obtain rfl | h := h
    · exact ⟨Nat.le_refl _, Nat.le_refl _⟩
    · obtain ⟨part, hpart, h⟩ := List.mem_flatMap.mp h
      have hbounds := bounds_of_mem_parts hpart
      have := ih part hpart h
      omega

/-- Of two places, the second lies inside the first or behind it. -/
theorem pairwise_descendants (site : Site) :
    site.descendants.Pairwise fun a b => b ∈ a.inner ∨ a.stop ≤ b.start := by
  induction site using parts_induction with
  | h site ih =>
    rw [descendants_eq, List.pairwise_cons]
    refine ⟨fun place h => .inl h, List.pairwise_flatMap.mpr ⟨ih, ?_⟩⟩
    refine (pairwise_parts site).imp fun hstop a ha b hb => .inr ?_
    have := bounds_of_mem_descendants ha
    have := bounds_of_mem_descendants hb
    omega

theorem pairwise_nodes (site : Site) :
    site.nodes.Pairwise fun a b => b ∈ a.inner ∨ a.stop ≤ b.start :=
  (pairwise_descendants site).filter _

-- ---------------------------------------------------------------------------
-- Words
-- ---------------------------------------------------------------------------

/-- The tokens in a place that are neither white space nor comments, in text order. -/
def words (site : Site) : List Site := site.tokens.filter (!·.kind.isTrivia)

theorem words_sublist (h : place ∈ site.descendants) : place.words.Sublist site.words := by
  have hsublist : place.descendants.Sublist site.descendants := by
    induction site using parts_induction with
    | h site ih =>
      rw [descendants_eq site, List.mem_cons] at h
      obtain rfl | h := h
      · exact .refl _
      · obtain ⟨part, hpart, h⟩ := List.mem_flatMap.mp h
        obtain ⟨before, after, hparts⟩ := List.append_of_mem hpart
        rw [descendants_eq site, inner, hparts, List.flatMap_append, List.flatMap_cons]
        have hmiddle := (ih part hpart h).trans
          (List.sublist_append_left _ (after.flatMap descendants))
        exact .cons _ (hmiddle.trans (List.sublist_append_right _ _))
  exact (hsublist.filter _).filter _

theorem mem_words (h : place ∈ site.words) :
    place ∈ site.descendants ∧ place.tree.isNode = false ∧ place.kind.isTrivia = false := by
  obtain ⟨h, hkind⟩ := List.mem_filter.mp h
  obtain ⟨h, htoken⟩ := List.mem_filter.mp h
  exact ⟨h, by simpa using htoken, by simpa using hkind⟩

/-- Every word ends before the next starts. -/
theorem pairwise_words (site : Site) : site.words.Pairwise (·.stop ≤ ·.start) := by
  have h := ((pairwise_descendants site).filter (!·.tree.isNode)).filter (!·.kind.isTrivia)
  refine h.imp_of_mem fun {a b} ha _ hab => hab.resolve_left fun hinner => ?_
  obtain ⟨part, hpart, -⟩ := List.mem_flatMap.mp hinner
  have hmem := tree_mem_children hpart
  have htoken := (mem_words ha).2.1
  cases htree : a.tree with
  | token => simp [htree, Tree.children] at hmem
  | node => simp [htree, Tree.isNode] at htoken

theorem words_token (htoken : site.tree.isNode = false) :
    site.words = if site.kind.isTrivia then [] else [site] := by
  have hdescendants : site.descendants = [site] := by
    rw [descendants]
    cases htree : site.tree with
    | token => rfl
    | node => simp [htree, Tree.isNode] at htoken
  rw [words, tokens, hdescendants]
  cases hkind : site.kind.isTrivia <;> simp [htoken, hkind]

theorem words_node (hnode : site.tree.isNode = true) : site.words = site.parts.flatMap words := by
  rw [words, tokens, descendants_eq, inner, List.filter_cons_of_neg (by simp [hnode]),
    List.filter_flatMap, List.filter_flatMap]
  rfl

/-- What is significant of a place reaches from its first to its last word. -/
theorem significant?_eq (site : Site) :
    site.tree.significant? site.start =
      site.words.head?.bind fun first => site.words.getLast?.map fun last =>
        ⟨first.start, last.stop⟩ := by
  induction site using parts_induction with
  | h site ih =>
    cases htree : site.tree with
    | token kind text =>
      have hkind : site.kind = kind := by rw [Site.kind, htree]; rfl
      rw [words_token (by rw [htree]; rfl), Tree.significant?, hkind]
      split
      · rfl
      · rw [← show site.tree.length = utf8Length text.toList by rw [htree]; rfl]
        rfl
    | node kind children =>
      have hparts : site.parts = partsFrom site 0 site.start children := by rw [parts, htree]; rfl
      rw [words_node (by rw [htree]; rfl), Tree.significant?, hparts]
      rw [hparts] at ih
      generalize site.start = start at ih ⊢
      generalize 0 = index at ih ⊢
      clear htree hparts
      induction children generalizing index start with
      | nil => rfl
      | cons tree trees ihtrees =>
        obtain ⟨hfirst, hrest⟩ := List.forall_mem_cons.mp ih
        have htree : tree.significant? start = _ := hfirst
        rw [Tree.significantOf?, htree, ihtrees _ _ hrest, partsFrom, List.flatMap_cons]
        generalize (partsFrom site (index + 1) (start + tree.length) trees).flatMap words = others
        cases hwords : (part site index start tree).words with
        | nil => simp
        | cons first words =>
          cases others with
          | nil => simp [List.getLast?_cons]
          | cons next others => simp [List.getLast?_append, List.getLast?_cons]

-- ---------------------------------------------------------------------------
-- Ranges between words
-- ---------------------------------------------------------------------------

/-- Every word in the place has a text. -/
def IsSpelled (site : Site) : Prop := ∀ word ∈ site.words, word.start < word.stop

/-- The range goes from the start of a word in the place to the end of one, perhaps the same. -/
def Marks (site : Site) (range : ByteRange) : Prop :=
  ∃ first ∈ site.words, ∃ last ∈ site.words,
    first.start ≤ last.start ∧ range = ⟨first.start, last.stop⟩

theorem start_le_stop (site : Site) : site.start ≤ site.stop := Nat.le_add_right _ _

theorem IsSpelled.descendants (h : site.IsSpelled) (hplace : place ∈ site.descendants) :
    place.IsSpelled := fun word hword => h word ((words_sublist hplace).mem hword)

theorem Marks.descendants (h : place.Marks range) (hplace : place ∈ site.descendants) :
    site.Marks range := by
  obtain ⟨first, hfirst, last, hlast, hrange⟩ := h
  have hwords := words_sublist hplace
  exact ⟨first, hwords.mem hfirst, last, hwords.mem hlast, hrange⟩

theorem Marks.bounds (h : site.Marks range) (hspelled : site.IsSpelled) :
    site.start ≤ range.start ∧ range.start < range.stop ∧ range.stop ≤ site.stop := by
  obtain ⟨first, hfirst, last, hlast, hle, rfl⟩ := h
  have hfront := (bounds_of_mem_descendants (mem_words hfirst).1).1
  have hback := (bounds_of_mem_descendants (mem_words hlast).1).2
  exact ⟨hfront, Nat.lt_of_le_of_lt hle (hspelled last hlast), hback⟩

/-- What is marked in a place lies in what is significant of it, which is marked itself. -/
theorem Marks.significantRange (h : site.Marks range) :
    site.Marks site.significantRange ∧ site.significantRange.start ≤ range.start ∧
      range.stop ≤ site.significantRange.stop := by
  obtain ⟨first, hfirst, last, hlast, -, rfl⟩ := h
  have hsorted := pairwise_words site
  obtain ⟨start, hstart⟩ := Option.isSome_iff_exists.mp
    (List.isSome_head?.mpr (List.ne_nil_of_mem hfirst))
  obtain ⟨stop, hstop⟩ : ∃ stop, site.words.getLast? = some stop :=
    ⟨_, List.getLast?_eq_some_getLast (List.ne_nil_of_mem hfirst)⟩
  have hrange : site.significantRange = ⟨start.start, stop.stop⟩ := by
    rw [Site.significantRange, significant?_eq, hstart, hstop]
    rfl
  have hfront (word : Site) (hword : word ∈ site.words) : start.start ≤ word.start := by
    obtain ⟨words, hwords⟩ := List.head?_eq_some_iff.mp hstart
    rw [hwords] at hword hsorted
    obtain rfl | hword := List.mem_cons.mp hword
    · exact Nat.le_refl _
    · exact Nat.le_trans start.start_le_stop ((List.pairwise_cons.mp hsorted).1 word hword)
  have hback (word : Site) (hword : word ∈ site.words) : word.stop ≤ stop.stop := by
    obtain ⟨words, hwords⟩ := List.getLast?_eq_some_iff.mp hstop
    rw [hwords] at hword hsorted
    obtain hword | hword := List.mem_append.mp hword
    · have := (List.pairwise_append.mp hsorted).2.2 word hword stop List.mem_cons_self
      exact Nat.le_trans this stop.start_le_stop
    · rw [List.mem_singleton.mp hword]
  rw [hrange]
  refine ⟨⟨start, List.mem_of_mem_head? hstart, stop, List.mem_of_getLast? hstop, ?_, rfl⟩,
    hfront first hfirst, hback last hlast⟩
  exact hfront stop (List.mem_of_getLast? hstop)

theorem marks_significantRange (h : site.words ≠ []) : site.Marks site.significantRange := by
  obtain ⟨word, hword⟩ := List.exists_mem_of_ne_nil _ h
  exact (Marks.significantRange ⟨word, hword, word, hword, Nat.le_refl _, rfl⟩).1

theorem marks_word (h : place ∈ site.words) : site.Marks place.range :=
  ⟨place, h, place, h, Nat.le_refl _, rfl⟩

/-- A range from one place to a later one. -/
theorem cover_eq (hspelled : part.IsSpelled) (hspelled' : part'.IsSpelled) (h : part.words ≠ [])
    (h' : part'.words ≠ []) (horder : part = part' ∨ part.stop ≤ part'.start) :
    part.significantRange.cover part'.significantRange =
      ⟨part.significantRange.start, part'.significantRange.stop⟩ := by
  have hbounds := (marks_significantRange h).bounds hspelled
  have hbounds' := (marks_significantRange h').bounds hspelled'
  rw [ByteRange.cover]
  obtain rfl | hstop := horder
  · rw [Nat.min_self, Nat.max_self]
  · rw [Nat.min_eq_left (by omega), Nat.max_eq_right (by omega)]

theorem marks_cover (hspelled : site.IsSpelled) (hpart : part ∈ site.descendants)
    (hpart' : part' ∈ site.descendants) (h : part.words ≠ []) (h' : part'.words ≠ [])
    (horder : part = part' ∨ part.stop ≤ part'.start) :
    site.Marks (part.significantRange.cover part'.significantRange) := by
  have hspelled₁ := hspelled.descendants hpart
  have hspelled₂ := hspelled.descendants hpart'
  rw [cover_eq hspelled₁ hspelled₂ h h' horder]
  have hfirst := marks_significantRange h
  have hlast := marks_significantRange h'
  obtain rfl | hstop := horder
  · exact hfirst.descendants hpart
  have hbounds := hfirst.bounds hspelled₁
  have hbounds' := hlast.bounds hspelled₂
  obtain ⟨first, hmem, _, _, -, hrange⟩ := hfirst.descendants hpart
  obtain ⟨first', _, last, hmem', hle, hrange'⟩ := hlast.descendants hpart'
  refine ⟨first, hmem, last, hmem', ?_, ?_⟩
  · rw [hrange] at hbounds
    rw [hrange'] at hbounds'
    exact Nat.le_trans (by simp only at hbounds hbounds' ⊢; omega) hle
  · rw [hrange, hrange']

-- ---------------------------------------------------------------------------
-- Ranges that differ
-- ---------------------------------------------------------------------------

theorem apart_of_ne (h : part ∈ site.parts) (h' : part' ∈ site.parts) (hne : part ≠ part') :
    part.stop ≤ part'.start ∨ part'.stop ≤ part.start := by
  have hsorted := pairwise_parts site
  obtain ⟨before, after, hparts⟩ := List.append_of_mem h
  rw [hparts] at h' hsorted
  obtain ⟨-, hafter, hbefore⟩ := List.pairwise_append.mp hsorted
  obtain h' | h' := List.mem_append.mp h'
  · exact .inr (hbefore part' h' part List.mem_cons_self)
  obtain heq | h' := List.mem_cons.mp h'
  · exact absurd heq.symm hne
  · exact .inl ((List.pairwise_cons.mp hafter).1 part' h')

/-- A range over more than one part of a place is no range in a place inside. -/
theorem ne_of_straddles (hspelled : site.IsSpelled) (hpart : part ∈ site.parts)
    (hpart' : part' ∈ site.parts) (hwords : part.words ≠ []) (hwords' : part'.words ≠ [])
    (horder : part.stop ≤ part'.start) (hstart : range.start ≤ part.significantRange.start)
    (hstop : part'.significantRange.stop ≤ range.stop) (hplace : place ∈ site.inner)
    (h : place.Marks range') : range ≠ range' := by
  have hspelled' (part : Site) (hpart : part ∈ site.parts) : part.IsSpelled :=
    hspelled.descendants (mem_descendants_of_mem_parts hpart)
  have hbounds := (marks_significantRange hwords).bounds (hspelled' part hpart)
  have hbounds' := (marks_significantRange hwords').bounds (hspelled' part' hpart')
  obtain ⟨around, haround, hplace⟩ := List.mem_flatMap.mp hplace
  have hinside := (h.descendants hplace).bounds (hspelled' around haround)
  rintro rfl
  by_cases hne : around = part
  · subst hne
    omega
  · have := apart_of_ne haround hpart hne
    omega

/-- A range over a token of a node is no range in a node inside. -/
theorem ne_of_token (hspelled : site.IsSpelled) (hpart : part ∈ site.parts)
    (htoken : part.tree.isNode = false) (hkind : part.kind.isTrivia = false)
    (hstart : range.start ≤ part.start) (hstop : part.stop ≤ range.stop)
    (hplace : place ∈ site.inner) (hnode : place.tree.isNode = true) (h : place.Marks range') :
    range ≠ range' := by
  have hspelled' (part : Site) (hpart : part ∈ site.parts) : part.IsSpelled :=
    hspelled.descendants (mem_descendants_of_mem_parts hpart)
  have hword : part.start < part.stop := by
    refine hspelled' part hpart part ?_
    rw [words_token htoken, hkind]
    exact List.mem_cons_self
  obtain ⟨around, haround, hplace⟩ := List.mem_flatMap.mp hplace
  have hinside := (h.descendants hplace).bounds (hspelled' around haround)
  have hne : around ≠ part := by
    rintro rfl
    have hnode' := (List.mem_filter.mp (isNode_of_mem_descendants haround hplace hnode)).2
    rw [htoken] at hnode'
    cases hnode'
  have := apart_of_ne haround hpart hne
  rintro rfl
  omega

end ElmLint.Syntax.Site

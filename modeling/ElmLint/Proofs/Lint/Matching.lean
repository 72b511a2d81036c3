import ElmLint.Proofs.Lint.Shapes
import ElmLint.Proofs.Syntax.Ancestry

/-!
# Matches are exactly what satisfies a shape

What it means that a place satisfies a shape is said without any search: the rule for the node
holds, and the children hold the row that the shape asks for, or all of them are as it asks.
Matching finds every row that does, in order, and names nodes only after the shapes that they
satisfy.
-/

namespace ElmLint.Lint

open Syntax

variable {site node : Site} {shape s : Shape} {shapes : List Shape} {sites : List Site}
  {rule : NodeRule} {anchor : Anchor} {captures : Captures} {name text : String} {tree : Tree}
  {start width count : Nat}

-- ---------------------------------------------------------------------------
-- Satisfying a shape
-- ---------------------------------------------------------------------------

/-- The text of the tree without white space and comments at its ends. -/
def IsTrimmed (tree : Tree) (text : String) : Prop :=
  ∃ front middle back, tree.leaves = front ++ (middle ++ back) ∧
    (∀ leaf ∈ front ++ back, leaf.1.isTrivia = true) ∧
    (∀ leaf ∈ middle.head?, leaf.1.isTrivia = false) ∧
    (∀ leaf ∈ middle.getLast?, leaf.1.isTrivia = false) ∧ text = String.join (middle.map (·.2))

structure NodeRule.Admits (rule : NodeRule) (site : Site) : Prop where
  kind : ∀ kind ∈ rule.kind?, site.kind = kind
  excluded : ∀ kind ∈ rule.excluded?, site.kind ≠ kind
  text : ∀ texts ∈ rule.texts?, ∃ text ∈ texts, IsTrimmed site.tree text

/-- A row may stand between these children. -/
def Anchor.Allows : Anchor → List Site → List Site → Prop
  | .anywhere, _, _ => True
  | .start, before, _ => before = []
  | .exact, before, after => before = [] ∧ after = []

mutual

def Shape.Fits : Shape → Site → Prop
  | .mk rule children, site => rule.Admits site ∧ children.Fits site

def ChildRule.Fits : ChildRule → Site → Prop
  | .any, _ => True
  | .each shape, site => site.children ≠ [] ∧ ∀ child ∈ site.children, shape.Fits child
  | .row anchor shapes, site => ∃ before window after,
    site.children = before ++ (window ++ after) ∧ anchor.Allows before after ∧
      RowFits shapes window

/-- The places satisfy the shapes, one by one. -/
def RowFits : List Shape → List Site → Prop
  | [], sites => sites = []
  | shape :: shapes, sites => ∃ site rest, sites = site :: rest ∧ shape.Fits site ∧
    RowFits shapes rest

end

/-- The place satisfies the rule for its children with the row that starts at this number. Where
no row is asked for, the number is zero. -/
def ChildRule.FitsFrom (children : ChildRule) (site : Site) (start : Nat) : Prop :=
  match children with
  | .row anchor shapes => ∃ before window after, site.children = before ++ (window ++ after) ∧
    before.length = start ∧ anchor.Allows before after ∧ RowFits shapes window
  | children => start = 0 ∧ children.Fits site

def Shape.FitsFrom (s : Shape) (site : Site) (start : Nat) : Prop :=
  s.rule.Admits site ∧ s.childRule.FitsFrom site start

/-- The shapes that are asked of children, with the children that they are asked of. -/
def ChildRule.partners : ChildRule → Site → Nat → List (Shape × Site)
  | .any, _, _ => []
  | .each shape, site, _ => site.children.map (shape, ·)
  | .row _ shapes, site, start => shapes.zip (site.children.drop start)

/-- The names that the first match of every pair gives. -/
def firstCaptures (pairs : List (Shape × Site)) : Captures :=
  pairs.flatMap fun pair => (pair.1.matches pair.2).head?.getD []

/-- The names given by a match whose row starts at this number: the node's own, and those that the
first match of every child gives. -/
def Shape.capturesFrom (s : Shape) (site : Site) (start : Nat) : Captures :=
  s.rule.captures site ++ firstCaptures (s.childRule.partners site start)

/-- The shape is the other one or is asked of children in it. -/
inductive Shape.PartOf : Shape → Shape → Prop
  | self (s : Shape) : PartOf s s
  | each {part shape : Shape} {rule : NodeRule} (h : PartOf part shape) :
    PartOf part (.mk rule (.each shape))
  | row {part shape : Shape} {shapes : List Shape} {rule : NodeRule} {anchor : Anchor}
    (hmem : shape ∈ shapes) (h : PartOf part shape) : PartOf part (.mk rule (.row anchor shapes))

theorem rowFits_iff : RowFits shapes sites ↔ List.Forall₂ Shape.Fits shapes sites := by
  induction shapes generalizing sites with
  | nil => rw [RowFits, List.forall₂_nil_left_iff]
  | cons shape shapes ih =>
    rw [RowFits, List.forall₂_cons_left_iff]
    simp only [ih]
    constructor
    · rintro ⟨site, rest, rfl, hfirst, hrest⟩
      exact ⟨site, rest, hfirst, hrest, rfl⟩
    · rintro ⟨site, rest, hfirst, hrest, rfl⟩
      exact ⟨site, rest, rfl, hfirst, hrest⟩

/-- A place that satisfies a shape does so from some child on. -/
theorem fits_iff_exists : s.Fits site ↔ ∃ start, s.FitsFrom site start := by
  obtain ⟨rule, children⟩ := s
  rw [Shape.Fits]
  cases children with
  | any | each => simp [Shape.FitsFrom, Shape.rule, Shape.childRule, ChildRule.FitsFrom]
  | row anchor shapes =>
    simp only [Shape.FitsFrom, Shape.rule, Shape.childRule, ChildRule.FitsFrom, ChildRule.Fits]
    constructor
    · rintro ⟨hadmits, before, window, after, hchildren, hallows, hfits⟩
      exact ⟨before.length, hadmits, before, window, after, hchildren, rfl, hallows, hfits⟩
    · rintro ⟨_, hadmits, before, window, after, hchildren, -, hallows, hfits⟩
      exact ⟨hadmits, before, window, after, hchildren, hallows, hfits⟩

-- ---------------------------------------------------------------------------
-- The rule for the node
-- ---------------------------------------------------------------------------

theorem dropTrivia_append {front rest : List (Kind × String)}
    (hfront : ∀ leaf ∈ front, leaf.1.isTrivia = true)
    (hrest : ∀ leaf ∈ rest.head?, leaf.1.isTrivia = false) :
    Tree.dropTrivia (front ++ rest) = rest := by
  rw [Tree.dropTrivia, List.dropWhile_append_of_pos hfront]
  cases rest with
  | nil => rfl
  | cons leaf rest => rw [List.dropWhile_cons_of_neg (by simp [hrest leaf rfl])]

theorem head?_dropTrivia (leaves : List (Kind × String)) :
    ∀ leaf ∈ (Tree.dropTrivia leaves).head?, leaf.1.isTrivia = false := by
  intro leaf hleaf
  have hhead := List.head?_dropWhile_not (·.1.isTrivia) leaves
  rw [show List.dropWhile _ leaves = Tree.dropTrivia leaves from rfl, hleaf] at hhead
  simpa using hhead

theorem exists_front (leaves : List (Kind × String)) :
    ∃ front, (∀ leaf ∈ front, leaf.1.isTrivia = true) ∧ leaves = front ++ Tree.dropTrivia leaves :=
  ⟨leaves.takeWhile (·.1.isTrivia), fun _ hleaf =>
    List.mem_takeWhile_imp (p := fun leaf : Kind × String => leaf.1.isTrivia) hleaf,
    List.takeWhile_append_dropWhile.symm⟩

/-- Taking white space and comments off both ends leaves what is between them. -/
theorem significantText_of_leaves {front middle back : List (Kind × String)}
    (hleaves : tree.leaves = front ++ (middle ++ back))
    (htrivia : ∀ leaf ∈ front ++ back, leaf.1.isTrivia = true)
    (hhead : ∀ leaf ∈ middle.head?, leaf.1.isTrivia = false)
    (hlast : ∀ leaf ∈ middle.getLast?, leaf.1.isTrivia = false) :
    tree.significantText = String.join (middle.map (·.2)) := by
  have hback : Tree.dropTrivia (Tree.dropTrivia tree.leaves).reverse = middle.reverse := by
    rw [hleaves]
    cases middle with
    | nil =>
      have hall : Tree.dropTrivia (front ++ back ++ []) = [] := dropTrivia_append htrivia nofun
      rw [List.append_nil] at hall
      rw [List.nil_append, hall]
      rfl
    | cons leaf middle =>
      have hfront : Tree.dropTrivia (front ++ (leaf :: middle ++ back)) = leaf :: middle ++ back :=
        dropTrivia_append (fun leaf hleaf => htrivia leaf (List.mem_append_left _ hleaf)) hhead
      rw [hfront, List.reverse_append]
      refine dropTrivia_append (fun leaf hleaf => htrivia leaf ?_) (by rwa [List.head?_reverse])
      exact List.mem_append_right _ (List.mem_reverse.mp hleaf)
  rw [Tree.significantText, hback, List.reverse_reverse]

theorem isTrimmed_significantText (tree : Tree) : IsTrimmed tree tree.significantText := by
  obtain ⟨front, hfront, hleaves⟩ := exists_front tree.leaves
  obtain ⟨back, hback, hrest⟩ := exists_front (Tree.dropTrivia tree.leaves).reverse
  have hkept : Tree.dropTrivia tree.leaves =
      (Tree.dropTrivia (Tree.dropTrivia tree.leaves).reverse).reverse ++ back.reverse := by
    rw [← List.reverse_append, ← hrest, List.reverse_reverse]
  refine ⟨front, _, back.reverse, by rw [← hkept]; exact hleaves, ?_, ?_, ?_, rfl⟩
  · intro leaf hleaf
    obtain hleaf | hleaf := List.mem_append.mp hleaf
    · exact hfront leaf hleaf
    · exact hback leaf (List.mem_reverse.mp hleaf)
  · intro leaf hleaf
    refine head?_dropTrivia tree.leaves leaf ?_
    rw [hkept, List.head?_append, hleaf]
    rfl
  · rw [List.getLast?_reverse]
    exact head?_dropTrivia _

theorem isTrimmed_iff : IsTrimmed tree text ↔ text = tree.significantText := by
  constructor
  · rintro ⟨front, middle, back, hleaves, htrivia, hhead, hlast, rfl⟩
    exact (significantText_of_leaves hleaves htrivia hhead hlast).symm
  · rintro rfl
    exact isTrimmed_significantText tree

theorem accepts_iff : rule.accepts site = true ↔ rule.Admits site := by
  rw [NodeRule.accepts, Bool.and_eq_true, Bool.and_eq_true, Option.all_eq_true, Option.all_eq_true,
    Option.all_eq_true]
  have htexts (texts : List String) : texts.contains site.significantText = true ↔
      ∃ text ∈ texts, IsTrimmed site.tree text := by
    simp [isTrimmed_iff, Site.significantText]
  simp only [beq_iff_eq, bne_iff_ne, htexts]
  constructor
  · rintro ⟨⟨hkind, hexcluded⟩, htext⟩
    exact ⟨hkind, hexcluded, htext⟩
  · rintro ⟨hkind, hexcluded, htext⟩
    exact ⟨⟨hkind, hexcluded⟩, htext⟩

-- ---------------------------------------------------------------------------
-- Rows
-- ---------------------------------------------------------------------------

theorem mem_starts_iff : start ∈ anchor.starts width count ↔
    start + width ≤ count ∧
      (anchor = .start → start = 0) ∧ (anchor = .exact → start = 0 ∧ width = count) := by
  cases anchor <;> simp only [Anchor.starts] <;> split <;> simp <;> omega

theorem pairwise_starts (anchor : Anchor) (width count : Nat) :
    (anchor.starts width count).Pairwise (· < ·) := by
  cases anchor <;> simp only [Anchor.starts] <;> split <;> simp [List.pairwise_lt_range]

theorem length_of_rowFits (h : RowFits shapes sites) : sites.length = shapes.length :=
  (rowFits_iff.mp h).length_eq.symm

/-- The rows that may stand among the children are cut out of them at the numbers where they may
begin. -/
theorem mem_starts_and_fits_iff :
    start ∈ anchor.starts shapes.length sites.length ∧
        RowFits shapes ((sites.drop start).take shapes.length) ↔
      ∃ before window after, sites = before ++ (window ++ after) ∧ before.length = start ∧
        anchor.Allows before after ∧ RowFits shapes window := by
  rw [mem_starts_iff]
  constructor
  · rintro ⟨⟨hle, hstart, hexact⟩, hfits⟩
    refine ⟨sites.take start, _, (sites.drop start).drop shapes.length, ?_, ?_, ?_, hfits⟩
    · rw [List.take_append_drop, List.take_append_drop]
    · rw [List.length_take]
      omega
    · cases anchor with
      | anywhere => trivial
      | start => simp [Anchor.Allows, hstart rfl]
      | exact =>
        obtain ⟨rfl, hwidth⟩ := hexact rfl
        simp [Anchor.Allows, hwidth]
  · rintro ⟨before, window, after, rfl, rfl, hallows, hfits⟩
    have hwidth := length_of_rowFits hfits
    refine ⟨⟨?_, ?_, ?_⟩, ?_⟩
    · simp only [List.length_append]
      omega
    · rintro rfl
      exact List.length_eq_zero_iff.mpr hallows
    · rintro rfl
      obtain ⟨rfl, rfl⟩ := hallows
      simp [hwidth]
    · rwa [List.drop_left, ← hwidth, List.take_left]

-- ---------------------------------------------------------------------------
-- Matches
-- ---------------------------------------------------------------------------

theorem filterMap_eq_map {f : Nat → Option Captures} {g : Nat → Captures} {starts : List Nat}
    (h : ∀ start captures, f start = some captures → captures = g start) :
    starts.filterMap f = (starts.filter fun start => (f start).isSome).map g := by
  induction starts with
  | nil => rfl
  | cons start starts ih =>
    rw [List.filterMap_cons, List.filter_cons, ih]
    cases hstart : f start with
    | none => rfl
    | some captures => rw [h start captures hstart]; rfl

theorem rowMatch?_eq_some (h : rowMatch? shapes sites = some captures) :
    captures = firstCaptures (shapes.zip sites) := by
  induction shapes generalizing sites captures with
  | nil => exact (Option.some.inj h).symm
  | cons shape shapes ih =>
    obtain ⟨site, rest, first, others, rfl, hfirst, hothers, rfl⟩ := rowMatch?_cons h
    rw [List.zip_cons_cons, firstCaptures, List.flatMap_cons, ← firstCaptures, hfirst, ih hothers]
    rfl

/-- The shapes that have a match on the place are those that it satisfies. -/
def MatchesAsFits (site : Site) : Prop :=
  ∀ s : Shape, (s.matches site).head?.isSome = true ↔ s.Fits site

section Children

variable (hchildren : ∀ child ∈ sites, MatchesAsFits child)
include hchildren

theorem rowMatch?_isSome_iff : (rowMatch? shapes sites).isSome = true ↔
    RowFits shapes (sites.take shapes.length) := by
  induction shapes generalizing sites with
  | nil => simp [rowMatch?, RowFits]
  | cons shape shapes ih =>
    cases sites with
    | nil => simp [rowMatch?, RowFits]
    | cons site sites =>
      obtain ⟨hsite, hsites⟩ := List.forall_mem_cons.mp hchildren
      have hmatch : (rowMatch? (shape :: shapes) (site :: sites)).isSome = true ↔
          (shape.matches site).head?.isSome = true ∧ (rowMatch? shapes sites).isSome = true := by
        rw [rowMatch?]
        cases (shape.matches site).head? <;> cases rowMatch? shapes sites <;> simp
      rw [hmatch, hsite shape, ih hsites, List.length_cons, List.take_succ_cons, RowFits]
      simp

theorem mapM_eq_some_iff {found : List Captures} :
    (sites.mapM fun child => (shape.matches child).head?) = some found ↔
      (∀ child ∈ sites, shape.Fits child) ∧
        found = sites.map fun child => (shape.matches child).head?.getD [] := by
  induction sites generalizing found with
  | nil => simp [eq_comm]
  | cons site sites ih =>
    obtain ⟨hsite, hsites⟩ := List.forall_mem_cons.mp hchildren
    rw [List.forall_mem_cons, ← hsite shape, List.map_cons, List.mapM_cons]
    cases hfirst : (shape.matches site).head? with
    | none => simp
    | some first =>
      simp only [Option.bind_eq_bind, Option.bind_some, Option.pure_def, Option.bind_eq_some_iff,
        ih hsites, Option.some.injEq, Option.isSome_some, true_and, Option.getD_some]
      constructor
      · rintro ⟨others, ⟨hfits, rfl⟩, rfl⟩
        exact ⟨hfits, rfl⟩
      · rintro ⟨hfits, rfl⟩
        exact ⟨_, ⟨hfits, rfl⟩, rfl⟩

end Children

theorem firstCaptures_map (shape : Shape) (sites : List Site) :
    firstCaptures (sites.map (shape, ·)) =
      (sites.map fun child => (shape.matches child).head?.getD []).flatten := by
  rw [firstCaptures, List.flatMap_map, List.flatMap_def]

/-- A rule for the children matches once for every number from which they satisfy it. -/
theorem ChildRule.exists_starts (hchildren : ∀ child ∈ site.children, MatchesAsFits child)
    (children : ChildRule) :
    ∃ starts : List Nat, starts.Pairwise (· < ·) ∧
      (∀ start, start ∈ starts ↔ children.FitsFrom site start) ∧
      children.matches site = starts.map fun start =>
        firstCaptures (children.partners site start) := by
  cases children with
  | any => exact ⟨[0], List.pairwise_singleton _ _, by simp [FitsFrom, Fits], rfl⟩
  | each shape =>
    by_cases hfits : (ChildRule.each shape).Fits site
    · refine ⟨[0], List.pairwise_singleton _ _, by simp [FitsFrom, hfits], ?_⟩
      obtain ⟨hne, hall⟩ := hfits
      rw [ChildRule.matches, if_neg (by simpa using hne),
        (mapM_eq_some_iff hchildren).mpr ⟨hall, rfl⟩, List.map_singleton, partners,
        firstCaptures_map]
      rfl
    · refine ⟨[], .nil, by simp [FitsFrom, hfits], ?_⟩
      rw [ChildRule.matches]
      split
      · rfl
      rename_i hne
      cases hfound : site.children.mapM fun child => (shape.matches child).head? with
      | none => rfl
      | some found =>
        have hall := ((mapM_eq_some_iff hchildren).mp hfound).1
        exact absurd ⟨by simpa using hne, hall⟩ hfits
  | row anchor shapes =>
    refine ⟨(anchor.starts shapes.length site.children.length).filter fun start =>
      (rowMatch? shapes (site.children.drop start)).isSome, (pairwise_starts ..).filter _,
      fun start => ?_, ?_⟩
    · rw [List.mem_filter, rowMatch?_isSome_iff fun child hchild =>
        hchildren child (List.mem_of_mem_drop hchild)]
      exact mem_starts_and_fits_iff
    · rw [ChildRule.matches]
      exact filterMap_eq_map fun start captures h => rowMatch?_eq_some h

theorem Shape.exists_starts_of_children (hchildren : ∀ child ∈ site.children, MatchesAsFits child)
    (s : Shape) :
    ∃ starts : List Nat, starts.Pairwise (· < ·) ∧
      (∀ start, start ∈ starts ↔ s.FitsFrom site start) ∧
      s.matches site = starts.map (s.capturesFrom site) := by
  obtain ⟨rule, children⟩ := s
  obtain ⟨starts, hordered, hmem, hmatches⟩ := ChildRule.exists_starts hchildren children
  rw [matches_mk]
  by_cases hadmits : rule.Admits site
  · rw [if_pos (accepts_iff.mpr hadmits), hmatches, List.map_map]
    exact ⟨starts, hordered, fun start => (hmem start).trans (and_iff_right hadmits).symm, rfl⟩
  · rw [if_neg (mt accepts_iff.mp hadmits)]
    exact ⟨[], .nil, fun start => ⟨nofun, fun hfits => absurd hfits.1 hadmits⟩, rfl⟩

theorem matchesAsFits (site : Site) : MatchesAsFits site := by
  induction site using Site.parts_induction with
  | h site ih =>
    intro s
    obtain ⟨starts, -, hmem, hmatches⟩ := Shape.exists_starts_of_children
      (fun child hchild => ih child (List.mem_filter.mp hchild).1) s
    rw [hmatches, fits_iff_exists, List.head?_map, Option.isSome_map, List.isSome_head?]
    simp only [← hmem]
    exact ⟨List.exists_mem_of_ne_nil starts, fun ⟨_, hstart⟩ => List.ne_nil_of_mem hstart⟩

/-- A shape matches a place once for every number from which the place satisfies it. -/
theorem Shape.exists_starts (s : Shape) (site : Site) :
    ∃ starts : List Nat, starts.Pairwise (· < ·) ∧
      (∀ start, start ∈ starts ↔ s.FitsFrom site start) ∧
      s.matches site = starts.map (s.capturesFrom site) :=
  exists_starts_of_children (fun child _ => matchesAsFits child) s

-- ---------------------------------------------------------------------------
-- Matches in a tree
-- ---------------------------------------------------------------------------

/-- Text order of places, and of the rows in one place. -/
def ComesFirst (p q : Site × Nat) : Prop :=
  p.1.address < q.1.address ∨ p.1 = q.1 ∧ p.2 < q.2

theorem exists_places (root : Site) (s : Shape) :
    ∃ places : List (Site × Nat), places.Pairwise ComesFirst ∧
      (∀ site start, (site, start) ∈ places ↔ site ∈ root.nodes ∧ s.FitsFrom site start) ∧
      findMatches root s = places.map fun p => ⟨p.1, s.capturesFrom p.1 p.2⟩ := by
  choose starts hordered hmem hmatches using s.exists_starts
  refine ⟨root.nodes.flatMap fun site => (starts site).map (site, ·), ?_, fun site start => ?_, ?_⟩
  · refine List.pairwise_flatMap.mpr ⟨fun site _ => List.pairwise_map.mpr ?_, ?_⟩
    · exact (hordered site).imp fun hlt => .inr ⟨rfl, hlt⟩
    · refine ((Site.pairwise_address root).filter _).imp fun hlt p hp q hq => .inl ?_
      obtain ⟨_, -, rfl⟩ := List.mem_map.mp hp
      obtain ⟨_, -, rfl⟩ := List.mem_map.mp hq
      exact hlt
  · simp [hmem]
  · rw [findMatches, List.map_flatMap]
    refine List.flatMap_congr fun site _ => ?_
    rw [hmatches, List.map_map, List.map_map]
    rfl

-- ---------------------------------------------------------------------------
-- Names
-- ---------------------------------------------------------------------------

theorem mem_of_get? (h : captures.get? name = some node) : (name, node) ∈ captures := by
  obtain ⟨⟨name', node'⟩, hfind, rfl⟩ := Option.map_eq_some_iff.mp h
  have hname : name' = name := by simpa using List.find?_some hfind
  rw [← hname]
  exact List.mem_reverse.mp (List.mem_of_find?_eq_some hfind)

/-- What is asked of children is asked of them by a part of the shape. -/
theorem mem_partners {pair : Shape × Site} (h : pair ∈ s.childRule.partners site start) :
    pair.2 ∈ site.children ∧ ∀ part : Shape, part.PartOf pair.1 → part.PartOf s := by
  obtain ⟨rule, children⟩ := s
  obtain ⟨shape, child⟩ := pair
  cases children with
  | any => cases h
  | each shape' =>
    obtain ⟨child', hchild, heq⟩ := List.mem_map.mp h
    obtain ⟨rfl, rfl⟩ := Prod.mk.inj heq
    exact ⟨hchild, fun part hpart => .each hpart⟩
  | row anchor shapes =>
    obtain ⟨hshape, hchild⟩ := List.of_mem_zip h
    exact ⟨List.mem_of_mem_drop hchild, fun part hpart => .row hshape hpart⟩

/-- What a match gives a name to stands in the place and satisfies a shape of that name. -/
theorem fits_of_mem_captures (h : captures ∈ s.matches site) (hmem : (name, node) ∈ captures) :
    (node = site ∨ node ∈ site.nodes) ∧
      ∃ part : Shape, part.PartOf s ∧ part.rule.capture? = some name ∧ part.Fits node := by
  induction site using Site.parts_induction generalizing s captures with
  | h site ih =>
    obtain ⟨starts, -, hstarts, hmatches⟩ := s.exists_starts site
    rw [hmatches] at h
    obtain ⟨start, hstart, rfl⟩ := List.mem_map.mp h
    obtain hown | hinner := List.mem_append.mp hmem
    · obtain ⟨_, hcapture, heq⟩ := List.mem_map.mp hown
      obtain ⟨rfl, rfl⟩ := Prod.mk.inj heq
      have hfits : s.Fits site := fits_iff_exists.mpr ⟨start, (hstarts start).mp hstart⟩
      exact ⟨.inl rfl, s, .self s, by simpa using hcapture, hfits⟩
    · obtain ⟨pair, hpair, hinner⟩ := List.mem_flatMap.mp hinner
      obtain ⟨hchild, hpart⟩ := mem_partners hpair
      cases hfirst : (pair.1.matches pair.2).head? with
      | none => simp [hfirst] at hinner
      | some first =>
        rw [hfirst, Option.getD_some] at hinner
        obtain ⟨hplace, part, hof, hname, hfits⟩ :=
          ih pair.2 (List.mem_filter.mp hchild).1 (List.mem_of_mem_head? hfirst) hinner
        refine ⟨.inr ?_, part, hpart part hof, hname, hfits⟩
        obtain rfl | hplace := hplace
        · exact Site.nodes_of_mem_children hchild (Site.mem_nodes_self hchild)
        · exact Site.nodes_of_mem_children hchild hplace

-- ---------------------------------------------------------------------------
-- The result
-- ---------------------------------------------------------------------------

/-- Matching finds a first match exactly where the shape is satisfied, one match for every row that
satisfies it, in order, and gives names to what satisfies the shapes of these names. -/
theorem matches_exact (s : Shape) :
    (∀ site, (s.matches site).head?.isSome = true ↔ s.Fits site) ∧
      (∀ site, ∃ starts : List Nat, starts.Pairwise (· < ·) ∧
        (∀ start, start ∈ starts ↔ s.FitsFrom site start) ∧
        s.matches site = starts.map (s.capturesFrom site)) ∧
      (∀ root, ∃ places : List (Site × Nat), places.Pairwise ComesFirst ∧
        (∀ site start, (site, start) ∈ places ↔ site ∈ root.nodes ∧ s.FitsFrom site start) ∧
        findMatches root s = places.map fun p => ⟨p.1, s.capturesFrom p.1 p.2⟩) ∧
      ∀ site, ∀ captures ∈ s.matches site, ∀ name node, captures.get? name = some node →
        (node = site ∨ node ∈ site.nodes) ∧
          ∃ part : Shape, part.PartOf s ∧ part.rule.capture? = some name ∧ part.Fits node :=
  ⟨fun site => matchesAsFits site s, fun site => s.exists_starts site,
    fun root => exists_places root s,
    fun _ _ h _ _ hget => fits_of_mem_captures h (mem_of_get? hget)⟩

-- Every row of neighbours is a match of its own.
example :
    let shape := (Shape.node .listExpr).withRow .anywhere [.any, Shape.any.capture "next"]
    (findMatches (.root (parse "x = [a, b, c]\n").tree) shape).map
      (fun m => (m.captures.get? "next").map Site.text) = [some "b", some "c"] := by
  decide +kernel

end ElmLint.Lint

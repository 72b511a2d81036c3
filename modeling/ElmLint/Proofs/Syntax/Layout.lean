import ElmLint.Proofs.Syntax.Columns
import ElmLint.Proofs.Syntax.Places

/-!
# Layout

A declaration of values and a branch of a `case` are items of layout blocks. What belongs to an item
stands right of the column that the item starts in. `Tree.Laid` says of a tree in which parts of it
this holds, and of its blocks, that their items start in one column; `layoutItem?` and `column` say
the same of the places in it.
-/

namespace ElmLint.Syntax

-- ---------------------------------------------------------------------------
-- Items and blocks
-- ---------------------------------------------------------------------------

namespace Kind

/-- An item of a layout block with expressions inside. A type signature has none. -/
def isLayoutItem (kind : Kind) : Bool := kind == .valueDeclaration || kind == .caseOfBranch

/-- The items of the block in a node. -/
def blockItems : Kind → List Kind
  | .caseOfExpr => [.caseOfBranch]
  | .letInExpr => [.valueDeclaration, .typeSignature]
  | _ => []

/-- The tokens in a node behind which its expressions begin. -/
def leads : Kind → List Kind
  | .valueDeclaration | .field => [.eq]
  | .caseOfBranch | .anonymousFunctionExpr => [.arrow]
  | .ifElseExpr => [.ifKw]
  | .caseOfExpr => [.caseKw]
  | .letInExpr => [.letKw]
  | .listExpr => [.lBracket]
  | .tupleExpr | .parenthesizedExpr => [.lParen]
  | _ => []

/-- The column that what is inside a node stands right of, where the node starts in `column`. -/
def floorInside (kind : Kind) (floor? : Option Nat) (column : Nat) : Option Nat :=
  if kind.isLayoutItem then some column else floor?

end Kind

namespace Tree

/-- Behind this part of a node of `kind`, its nodes belong to the item that they are in: arguments
behind what is called, operators and operands behind the first operand, bodies, results, conditions,
elements and values behind the token that leads to them. -/
def opens (kind : Kind) (part : Tree) : Bool :=
  if part.isNode then kind == .functionCallExpr || kind == .binOpExpr
  else kind.leads.contains part.kind

/-- The tree starts in `column`, inside an item that starts in the column `floor?`, if it is in one.
The parts of a node are those up to the first that opens, and those behind it. -/
inductive Laid : Option Nat → Nat → Tree → Prop
  | token (floor? : Option Nat) (column : Nat) (kind : Kind) (text : String) :
    Laid floor? column (.token kind text)
  | node {floor? : Option Nat} {column : Nat} {kind : Kind} {first second : List Tree}
    (hfirst : ∀ part ∈ first.dropLast, part.opens kind = false)
    (hoperator : ∀ part ∈ first, part.isNode = true → part.kind ≠ .operator)
    (hright : ∀ item ∈ columnsFrom (columnAfter column (textOf first)) second,
      item.1.isNode = true → ∀ floor ∈ kind.floorInside floor? column, floor < item.2)
    (hblock : ∃ block, (∀ floor ∈ floor?, floor < block) ∧
      ∀ item ∈ columnsFrom column (first ++ second), item.1.isNode = true →
        item.1.kind ∈ kind.blockItems → item.2 = block)
    (hparts : ∀ item ∈ columnsFrom column (first ++ second),
      Laid (kind.floorInside floor? column) item.2 item.1) :
    Laid floor? column (.node kind (first ++ second))

variable {kind : Kind} {floor? : Option Nat} {column : Nat} {tree : Tree} {trees : List Tree}

/-- A node stands right of the item that it is in when it is an operator, or behind a part that
opens. -/
theorem Laid.right {front back : List Tree}
    (h : (Tree.node kind (front ++ tree :: back)).Laid floor? column) (hnode : tree.isNode = true)
    (hbelongs : tree.kind = .operator ∨ ∃ part ∈ front, part.opens kind = true) :
    ∀ floor ∈ kind.floorInside floor? column, floor < columnAfter column (textOf front) := by
  generalize htrees : front ++ tree :: back = trees at h
  cases h with
  | @node _ _ _ first second hfirst hoperator hright _ _ =>
  have hbehind (more : List Tree) (hsecond : second = more ++ tree :: back) :
      ∀ floor ∈ kind.floorInside floor? column,
        floor < columnAfter column (textOf (first ++ more)) := by
    rw [textOf_append, columnAfter_append]
    exact hright (tree, _) (hsecond ▸ mem_columnsFrom _ more back tree) hnode
  obtain ⟨more, hfront, hmore⟩ | ⟨more, rfl, hsecond⟩ := List.append_eq_append_iff.mp htrees
  · cases more with
    | nil =>
      rw [List.append_nil] at hfront
      rw [← hfront, ← List.append_nil first]
      exact hbehind [] hmore.symm
    | cons part more =>
      obtain ⟨rfl, -⟩ := List.cons.inj hmore
      exfalso
      obtain hkind | ⟨part, hpart, hopens⟩ := hbelongs
      · exact hoperator tree (by simp [hfront]) hnode hkind
      · have hmem : part ∈ first.dropLast := by
          rw [hfront, List.dropLast_append_cons]
          exact List.mem_append_left _ hpart
        exact Bool.false_ne_true ((hfirst part hmem).symm.trans hopens)
  · exact hbehind more hsecond

end Tree

-- ---------------------------------------------------------------------------
-- Places
-- ---------------------------------------------------------------------------

namespace Site

/-- The column that the text of a place starts in. -/
def column : Site → Nat
  | root _ => 0
  | part parent index _ _ =>
    columnAfter parent.column (Tree.textOf (parent.tree.children.take index))

/-- The innermost layout item around a place. -/
def layoutItem? (site : Site) : Option Site := site.ancestors.tail.find? (·.kind.isLayoutItem)

/-- The place belongs to the layout item around it: it is an operator, or a node behind a part that
opens its parent. -/
def BelongsToItem (site : Site) : Prop :=
  site.kind = .operator ∨ ∃ parent, site.parent? = some parent ∧
    ∃ part ∈ site.partsBefore, part.tree.opens parent.kind = true

theorem layoutItem?_part (parent : Site) (index start : Nat) (tree : Tree) :
    (Site.part parent index start tree).layoutItem? =
      if parent.kind.isLayoutItem then some parent else parent.layoutItem? := by
  have hancestors : parent.ancestors = parent :: parent.ancestors.tail := by cases parent <;> rfl
  rw [layoutItem?, ancestors, List.tail_cons, hancestors, List.find?_cons]
  cases parent.kind.isLayoutItem <;> rfl

/-- A part of a place, with the trees in front of it and behind it. -/
theorem exists_around_part {site part : Site} (h : part ∈ site.parts) :
    ∃ front back, site.tree.children = front ++ part.tree :: back ∧
      part.partsBefore.map tree = front.reverse ∧ part.parent? = some site ∧
      part.column = columnAfter site.column (Tree.textOf front) ∧
      part.layoutItem?.map column =
        site.kind.floorInside (site.layoutItem?.map column) site.column := by
  obtain ⟨before, after, hparts⟩ := List.append_of_mem h
  obtain ⟨start, tree, hpart⟩ := eq_part_of_parts hparts
  have hchildren :
      site.tree.children = before.map Site.tree ++ part.tree :: after.map Site.tree := by
    rw [← map_tree_parts, hparts, List.map_append, List.map_cons]
  refine ⟨before.map Site.tree, after.map Site.tree, hchildren, ?_, ?_, ?_, ?_⟩
  · rw [partsBefore_of_parts hparts, List.map_reverse]
  · rw [hpart, parent?]
  · rw [hpart, column, hchildren, ← List.length_map (f := Site.tree), List.take_left]
  · rw [hpart, layoutItem?_part, Kind.floorInside]
    split <;> rfl

theorem laid_of_mem_descendants {site : Site}
    (h : site.tree.Laid (site.layoutItem?.map column) site.column) :
    ∀ place ∈ site.descendants, place.tree.Laid (place.layoutItem?.map column) place.column := by
  induction site using parts_induction with
  | h site ih =>
  rw [descendants_eq]
  refine List.forall_mem_cons.mpr ⟨h, fun place hplace => ?_⟩
  obtain ⟨part, hpart, hplace⟩ := List.mem_flatMap.mp hplace
  refine ih part hpart ?_ place hplace
  obtain ⟨front, back, hchildren, -, -, hcolumn, hfloor⟩ := exists_around_part hpart
  rw [hcolumn, hfloor, kind]
  generalize site.tree = tree at h hchildren ⊢
  cases h with
  | token => simp [Tree.children] at hchildren
  | node _ _ _ _ hparts =>
    rw [Tree.children] at hchildren
    exact hparts (part.tree, _) (hchildren ▸ Tree.mem_columnsFrom _ front back part.tree)

/-- The layout of a node: the branches of a `case` and the declarations of a `let` stand in one column
right of the item around the block, and operators, operands, arguments, bodies, results, conditions,
elements and values stand right of the item they belong to. -/
structure KeepsLayout (site : Site) : Prop where
  /-- The items of a block start in one column, right of the item around the block. -/
  aligned : ∃ column, (∀ item, site.layoutItem? = some item → item.column < column) ∧
    ∀ part ∈ site.children, part.kind ∈ site.kind.blockItems → part.column = column
  /-- What belongs to an item starts right of it. -/
  right : site.BelongsToItem → ∀ item, site.layoutItem? = some item → item.column < site.column

theorem aligned_of_laid {site : Site}
    (h : site.tree.Laid (site.layoutItem?.map column) site.column) :
    ∃ column, (∀ item, site.layoutItem? = some item → item.column < column) ∧
      ∀ part ∈ site.children, part.kind ∈ site.kind.blockItems → part.column = column := by
  have hparts (part : Site) (hpart : part ∈ site.children) :=
    exists_around_part (List.mem_filter.mp hpart).1
  generalize hfloor : site.layoutItem?.map column = floor? at h
  have htree : site.tree.kind = site.kind := rfl
  generalize site.tree = tree at h hparts htree
  cases h with
  | token =>
    refine ⟨(site.layoutItem?.map column).getD 0 + 1, fun item hitem => ?_, fun part hpart => ?_⟩
    · rw [hitem]
      exact Nat.lt_succ_self _
    · obtain ⟨front, back, hchildren, -⟩ := hparts part hpart
      simp [Tree.children] at hchildren
  | node _ _ _ hblock _ =>
    obtain ⟨block, hright, hitems⟩ := hblock
    refine ⟨block, fun item hitem => hright _ ?_, fun part hpart hkind => ?_⟩
    · rw [← hfloor, hitem]
      rfl
    · obtain ⟨front, back, hchildren, -, -, hcolumn, -⟩ := hparts part hpart
      rw [Tree.children] at hchildren
      rw [hcolumn]
      refine hitems (part.tree, _) (hchildren ▸ Tree.mem_columnsFrom _ front back part.tree)
        (List.mem_filter.mp hpart).2 ?_
      rwa [← htree] at hkind

theorem right_of_laid {site part : Site}
    (h : site.tree.Laid (site.layoutItem?.map column) site.column) (hpart : part ∈ site.parts)
    (hnode : part.tree.isNode = true) (hbelongs : part.BelongsToItem) :
    ∀ item, part.layoutItem? = some item → item.column < part.column := by
  obtain ⟨front, back, hchildren, hbefore, hparent, hcolumn, hfloor⟩ := exists_around_part hpart
  intro item hitem
  have htree : site.tree = .node site.kind (front ++ part.tree :: back) := by
    rw [kind]
    cases htree : site.tree with
    | token => simp [htree, Tree.children] at hchildren
    | node kind children => rw [← hchildren, htree]; rfl
  rw [htree] at h
  rw [hcolumn]
  refine h.right hnode ?_ _ (by rw [← hfloor, hitem]; rfl)
  refine hbelongs.imp_right ?_
  rintro ⟨parent, hparent', before, hbefore', hopens⟩
  rw [hparent, Option.some.injEq] at hparent'
  subst hparent'
  refine ⟨before.tree, ?_, hopens⟩
  rw [← List.mem_reverse, ← hbefore]
  exact List.mem_map_of_mem hbefore'

end Site

/-- All nodes of a file keep the layout. -/
def Tree.KeepsLayout (file : Tree) : Prop := ∀ site ∈ (Site.root file).nodes, site.KeepsLayout

namespace Site

theorem keepsLayout_of_laid {tree : Tree} (h : tree.Laid none 0) : tree.KeepsLayout := by
  intro site hsite
  obtain ⟨hsite, hnode⟩ := List.mem_filter.mp hsite
  have hlaid := @laid_of_mem_descendants (root tree) h
  refine ⟨aligned_of_laid (hlaid site hsite), fun hbelongs => ?_⟩
  rw [descendants_eq, List.mem_cons] at hsite
  obtain rfl | hsite := hsite
  · have hnone : (root tree).layoutItem? = none := rfl
    simp [hnone]
  · obtain ⟨parent, hparent, hpart⟩ := exists_parent_of_mem_inner hsite
    exact right_of_laid (hlaid parent hparent) hpart hnode hbelongs

end Site

-- ---------------------------------------------------------------------------
-- Laying out a node
-- ---------------------------------------------------------------------------

namespace Kind

/-- Operators and the items of blocks are parts of certain nodes only. -/
def isDependent (kind : Kind) : Bool :=
  kind == .operator || kind == .typeSignature || kind.isLayoutItem

/-- No part of such a node opens it. -/
def isUnled (kind : Kind) : Bool :=
  kind.leads.isEmpty && kind != .functionCallExpr && kind != .binOpExpr

theorem isDependent_of_mem_blockItems {kind item : Kind} (h : item ∈ kind.blockItems) :
    item.isDependent = true := by
  unfold blockItems at h
  split at h <;> simp only [List.mem_cons, List.not_mem_nil, or_false] at h
  · rw [h]
    rfl
  · obtain rfl | rfl := h <;> rfl

theorem floorInside_of_free {kind : Kind} (h : kind.isDependent = false) (floor? : Option Nat)
    (column : Nat) : kind.floorInside floor? column = floor? := by
  rw [isDependent, Bool.or_eq_false_iff] at h
  simp [floorInside, h.2]

theorem floorInside_of_isUnled {kind : Kind} (h : kind.isUnled = true) (floor? : Option Nat)
    (column : Nat) : kind.floorInside floor? column = floor? := by
  have hitem : kind.isLayoutItem = false := by
    rw [Bool.eq_false_iff]
    intro hitem
    simp only [isLayoutItem, Bool.or_eq_true, beq_iff_eq] at hitem
    obtain rfl | rfl := hitem <;> cases h
  simp [floorInside, hitem]

theorem blockItems_of_isUnled {kind : Kind} (h : kind.isUnled = true) : kind.blockItems = [] := by
  unfold blockItems
  split <;> first | rfl | cases h

end Kind

namespace Tree

variable {floor? : Option Nat} {floor block column : Nat} {kind : Kind} {tree : Tree}
  {trees first second : List Tree} {P : Kind → Nat → Prop}

theorem opens_of_isUnled (h : kind.isUnled = true) (tree : Tree) : tree.opens kind = false := by
  simp only [Kind.isUnled, Bool.and_eq_true, List.isEmpty_iff, bne_iff_ne] at h
  obtain ⟨⟨hleads, hcall⟩, hbinOp⟩ := h
  simp [opens, hleads, hcall, hbinOp]

/-- White space and comments open nothing. -/
theorem opens_of_isTrivia {token : Kind} (h : token.isTrivia = true) (text : String)
    (kind : Kind) : (Tree.token token text).opens kind = false := by
  have hleads : ∀ lead ∈ kind.leads, lead.isTrivia = false := by
    unfold Kind.leads
    split <;> simp [Kind.isTrivia]
  rw [Bool.eq_false_iff]
  intro hopens
  have hlead : token ∈ kind.leads := by simpa [opens, isNode, Tree.kind] using hopens
  exact Bool.false_ne_true ((hleads token hlead).symm.trans h)

/-- The tree is laid, and a node is `P`. -/
def LaidAs (floor? : Option Nat) (P : Kind → Nat → Prop) (column : Nat) (tree : Tree) : Prop :=
  tree.Laid floor? column ∧ (tree.isNode = true → P tree.kind column)

/-- The node may be a part of any node. -/
def Free (kind : Kind) (_ : Nat) : Prop := kind.isDependent = false

/-- What stands in a node of `kind` in front of the part that opens it. -/
def Front (kind : Kind) (floor : Nat) (column : Nat) (tree : Tree) : Prop :=
  tree.LaidAs (some floor) Free column ∧ tree.opens kind = false

/-- The trees are parts of a node of `kind`, up to the one that opens it. -/
structure Led (kind : Kind) (floor : Nat) (column : Nat) (trees : List Tree) : Prop where
  unopened : ∀ part ∈ trees.dropLast, part.opens kind = false
  laid : Each (LaidAs (some floor) Free) column trees

/-- The trees are parts of a node of `kind`, where the nodes behind the part that opens it are
`P`. -/
def Parted (kind : Kind) (floor : Nat) (P : Kind → Nat → Prop) (column : Nat)
    (trees : List Tree) : Prop :=
  ∃ first second, trees = first ++ second ∧ Led kind floor column first ∧
    Each (LaidAs (some floor) P) (columnAfter column (textOf first)) second

/-- The node stands right of the floor. -/
def RightOf (floor : Nat) (_ : Kind) (column : Nat) : Prop := floor < column

/-- Behind the part that opens it, the nodes in a node stand right of the floor, and the items of
its block in `block`. -/
def Fits (kind : Kind) (floor block : Nat) (part : Kind) (column : Nat) : Prop :=
  floor < column ∧ (part ∈ kind.blockItems → column = block)

theorem exists_right (floor? : Option Nat) : ∃ block, ∀ floor ∈ floor?, floor < block := by
  refine ⟨floor?.getD 0 + 1, fun floor hfloor => ?_⟩
  rw [Option.mem_def.mp hfloor]
  exact Nat.lt_succ_self floor

theorem kind_ne_operator (h : Each (LaidAs floor? Free) column trees) :
    ∀ part ∈ trees, part.isNode = true → part.kind ≠ .operator := by
  intro part hpart hnode hkind
  obtain ⟨_, -, hfree⟩ := h.of_mem hpart
  have hfree := hfree hnode
  rw [hkind] at hfree
  cases hfree

/-- A node without an opening part. -/
theorem laid_of_isUnled (hunled : kind.isUnled = true)
    (h : Each (LaidAs floor? Free) column trees) : (Tree.node kind trees).Laid floor? column := by
  have hfloor := kind.floorInside_of_isUnled hunled floor? column
  obtain ⟨block, hlt⟩ := exists_right floor?
  rw [← List.append_nil trees]
  refine .node (fun part _ => opens_of_isUnled hunled part) (kind_ne_operator h)
    (fun item hitem => absurd hitem List.not_mem_nil) ?_ fun item hitem => ?_
  · refine ⟨block, hlt, fun item _ _ hitem => ?_⟩
    rw [Kind.blockItems_of_isUnled hunled] at hitem
    cases hitem
  · rw [hfloor]
    rw [List.append_nil] at hitem
    exact (h item hitem).1

theorem Led.of_front (h : Each (Front kind floor) column trees) : Led kind floor column trees where
  unopened part hpart := by
    obtain ⟨_, -, hopens⟩ := h.of_mem (List.dropLast_subset _ hpart)
    exact hopens
  laid := h.mono fun _ _ hpart => hpart.1

theorem mem_dropLast_append (h : tree ∈ (first ++ second).dropLast) :
    tree ∈ first ∨ tree ∈ second.dropLast := by
  rw [List.dropLast_append] at h
  split at h
  · exact .inl (List.dropLast_subset _ h)
  · exact List.mem_append.mp h

theorem Led.append (h : Each (Front kind floor) column first)
    (h' : Led kind floor (columnAfter column (textOf first)) second) :
    Led kind floor column (first ++ second) where
  unopened part hpart := by
    obtain hpart | hpart := mem_dropLast_append hpart
    · obtain ⟨_, -, hopens⟩ := h.of_mem hpart
      exact hopens
    · exact h'.unopened part hpart
  laid := (each_append first second).mpr ⟨(of_front h).laid, h'.laid⟩

theorem Parted.append (h : Parted kind floor P column trees)
    (h' : Each (LaidAs (some floor) P) (columnAfter column (textOf trees)) second) :
    Parted kind floor P column (trees ++ second) := by
  obtain ⟨first, middle, rfl, hfirst, hmiddle⟩ := h
  refine ⟨first, middle ++ second, List.append_assoc _ _ _, hfirst, ?_⟩
  rw [textOf_append, columnAfter_append] at h'
  exact (each_append middle second).mpr ⟨hmiddle, h'⟩

theorem Parted.laid (h : Parted kind floor P column trees)
    (hfloor : kind.floorInside floor? column = some floor)
    (hblock : ∃ block, (∀ outer ∈ floor?, outer < block) ∧
      ∀ part column', P part column' → Fits kind floor block part column') :
    (Tree.node kind trees).Laid floor? column := by
  obtain ⟨first, second, rfl, ⟨hopens, hfirst⟩, hsecond⟩ := h
  obtain ⟨block, hlt, hfits⟩ := hblock
  refine .node hopens (kind_ne_operator hfirst) (fun item hitem hnode outer houter => ?_)
    ⟨block, hlt, fun item hitem hnode hkind => ?_⟩ fun item hitem => ?_
  · rw [hfloor, Option.mem_some_iff] at houter
    exact houter ▸ (hfits _ _ ((hsecond item hitem).2 hnode)).1
  · rw [columnsFrom_append, List.mem_append] at hitem
    obtain hitem | hitem := hitem
    · have hfree := (hfirst item hitem).2 hnode
      exact absurd (hfree.symm.trans (Kind.isDependent_of_mem_blockItems hkind)) Bool.false_ne_true
    · exact (hfits _ _ ((hsecond item hitem).2 hnode)).2 hkind
  · rw [hfloor]
    rw [columnsFrom_append, List.mem_append] at hitem
    obtain hitem | hitem := hitem
    · exact (hfirst item hitem).1
    · exact (hsecond item hitem).1

/-- A node without a block. -/
theorem Parted.laid_of_right (h : Parted kind floor (RightOf floor) column trees)
    (hfloor : kind.floorInside floor? column = some floor) (hblock : kind.blockItems = []) :
    (Tree.node kind trees).Laid floor? column := by
  obtain ⟨block, hlt⟩ := exists_right floor?
  refine h.laid hfloor ⟨block, hlt, fun part column' hright => ⟨hright, fun hitem => ?_⟩⟩
  rw [hblock] at hitem
  cases hitem

end Tree

end ElmLint.Syntax

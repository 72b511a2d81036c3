import Mathlib.Data.List.Pairwise
import ElmLint.Proofs.Syntax.Composition
import ElmLint.Proofs.Syntax.ParsedPlaces

/-!
# The way up from a place

A place in a tree is the whole tree or a part of the node around it. The numbers of the parts on the
way to a place are its address: a place has an address of its own, and in text order the addresses
are in lexicographic order. Of a parsed text the kind of a node tells which nodes can be around it.
-/

namespace ElmLint.Syntax

namespace Site

variable {site part part' place place' : Site}

-- ---------------------------------------------------------------------------
-- Parents
-- ---------------------------------------------------------------------------

theorem exists_eq_part (h : part ∈ site.parts) : ∃ index start tree,
    part = .part site index start tree := by
  obtain ⟨before, after, hparts⟩ := List.append_of_mem h
  obtain ⟨start, tree, hpart⟩ := eq_part_of_parts hparts
  exact ⟨_, start, tree, hpart⟩

theorem parent?_of_mem_parts (h : part ∈ site.parts) : part.parent? = some site := by
  obtain ⟨index, start, tree, rfl⟩ := exists_eq_part h
  rfl

theorem ancestors_of_mem_parts (h : part ∈ site.parts) :
    part.ancestors = part :: site.ancestors := by
  obtain ⟨index, start, tree, rfl⟩ := exists_eq_part h
  rfl

theorem mem_nodes_of_mem_children {root : Site} (hsite : site ∈ root.nodes)
    (hpart : part ∈ site.children) : part ∈ root.nodes := by
  obtain ⟨hpart, hnode⟩ := List.mem_filter.mp hpart
  have hdescendant := mem_descendants_of_mem_parts hpart
  exact List.mem_filter.mpr ⟨mem_descendants_trans (List.mem_filter.mp hsite).1 hdescendant, hnode⟩

theorem mem_nodes_cases (h : place ∈ site.nodes) :
    place = site ∨ ∃ part ∈ site.children, place ∈ part.nodes := by
  obtain ⟨h, hnode⟩ := List.mem_filter.mp h
  rw [descendants_eq, List.mem_cons] at h
  refine h.imp_right fun hinner => ?_
  obtain ⟨part, hpart, hplace⟩ := List.mem_flatMap.mp hinner
  exact ⟨part, isNode_of_mem_descendants hpart hplace hnode, List.mem_filter.mpr ⟨hplace, hnode⟩⟩

theorem mem_nodes_self (h : part ∈ site.children) : part ∈ part.nodes :=
  List.mem_filter.mpr ⟨mem_descendants_self part, (List.mem_filter.mp h).2⟩

theorem children_subset_nodes (h : part ∈ site.children) : part ∈ site.nodes := by
  obtain ⟨hpart, hnode⟩ := List.mem_filter.mp h
  exact List.mem_filter.mpr ⟨mem_descendants_of_mem_parts hpart, hnode⟩

theorem nodes_of_mem_children (hpart : part ∈ site.children) (hplace : place ∈ part.nodes) :
    place ∈ site.nodes := by
  obtain ⟨hplace, hnode⟩ := List.mem_filter.mp hplace
  have hinside := mem_descendants_of_mem_parts (List.mem_filter.mp hpart).1
  exact List.mem_filter.mpr ⟨mem_descendants_trans hinside hplace, hnode⟩

/-- Going up, every node but the outermost is a child of a node. -/
theorem exists_parent_of_mem_nodes (h : place ∈ site.nodes) :
    place = site ∨ ∃ parent ∈ site.nodes, place ∈ parent.children := by
  obtain ⟨h, hnode⟩ := List.mem_filter.mp h
  rw [descendants_eq, List.mem_cons] at h
  refine h.imp_right fun hinner => ?_
  obtain ⟨parent, hparent, hpart⟩ := exists_parent_of_mem_inner hinner
  refine ⟨parent, List.mem_filter.mpr ⟨hparent, ?_⟩, List.mem_filter.mpr ⟨hpart, hnode⟩⟩
  have hchild := tree_mem_children hpart
  cases htree : parent.tree with
  | token => simp [htree, Tree.children] at hchild
  | node => rfl

theorem parent?_of_mem_children (h : part ∈ site.children) : part.parent? = some site :=
  parent?_of_mem_parts (List.mem_filter.mp h).1

theorem ancestors_of_mem_children (h : part ∈ site.children) :
    part.ancestors = part :: site.ancestors := ancestors_of_mem_parts (List.mem_filter.mp h).1

theorem mem_children_of_parent? {tree : Tree} (hplace : place ∈ (Site.root tree).nodes)
    (h : place.parent? = some site) : site ∈ (Site.root tree).nodes ∧ place ∈ site.children := by
  obtain rfl | ⟨parent, hparent, hchild⟩ := exists_parent_of_mem_nodes hplace
  · cases h
  · obtain rfl := Option.some.inj ((parent?_of_mem_children hchild).symm.trans h)
    exact ⟨hparent, hchild⟩

theorem mem_nodes_of_child {tree : Tree} (hpart : part ∈ (Site.root tree).nodes)
    (hchild : part ∈ site.children) : site ∈ (Site.root tree).nodes :=
  (mem_children_of_parent? hpart (parent?_of_mem_children hchild)).1

-- ---------------------------------------------------------------------------
-- Addresses
-- ---------------------------------------------------------------------------

/-- The numbers of the parts that lead to the place, the first first. -/
def address (site : Site) : List Nat := site.path.reverse

theorem address_part (parent : Site) (index start : Nat) (tree : Tree) :
    (Site.part parent index start tree).address = parent.address ++ [index] := by
  rw [address, path, List.reverse_cons]
  rfl

theorem address_of_mem_descendants (h : place ∈ site.descendants) :
    site.address <+: place.address := by
  induction site using parts_induction with
  | h site ih =>
    rw [descendants_eq, List.mem_cons] at h
    obtain rfl | h := h
    · exact List.prefix_rfl
    · obtain ⟨part, hpart, h⟩ := List.mem_flatMap.mp h
      obtain ⟨index, start, tree, rfl⟩ := exists_eq_part hpart
      have hprefix := ih _ hpart h
      rw [address_part] at hprefix
      exact (List.prefix_append _ _).trans hprefix

theorem pairwise_index_partsFrom (parent : Site) (index start : Nat) (trees : List Tree) :
    (∀ part ∈ partsFrom parent index start trees,
        ∃ number, index ≤ number ∧ part.address = parent.address ++ [number]) ∧
      (partsFrom parent index start trees).Pairwise fun a b => ∃ i j, i < j ∧
        a.address = parent.address ++ [i] ∧ b.address = parent.address ++ [j] := by
  induction trees generalizing index start with
  | nil => exact ⟨nofun, .nil⟩
  | cons tree trees ih =>
    obtain ⟨hnumbers, hpairwise⟩ := ih (index + 1) (start + tree.length)
    refine ⟨List.forall_mem_cons.mpr ⟨⟨index, Nat.le_refl _, address_part ..⟩, ?_⟩,
      .cons ?_ hpairwise⟩
    · intro part hpart
      obtain ⟨number, hle, haddress⟩ := hnumbers part hpart
      exact ⟨number, Nat.le_of_succ_le hle, haddress⟩
    · intro part hpart
      obtain ⟨number, hle, haddress⟩ := hnumbers part hpart
      exact ⟨index, number, hle, address_part .., haddress⟩

/-- Text order is the lexicographic order of addresses. -/
theorem pairwise_address (site : Site) :
    site.descendants.Pairwise (·.address < ·.address) := by
  induction site using parts_induction with
  | h site ih =>
    rw [descendants_eq, List.pairwise_cons]
    refine ⟨fun place hplace => ?_, List.pairwise_flatMap.mpr ⟨ih, ?_⟩⟩
    · obtain ⟨part, hpart, hplace⟩ := List.mem_flatMap.mp hplace
      obtain ⟨index, start, tree, rfl⟩ := exists_eq_part hpart
      obtain ⟨rest, hrest⟩ := address_of_mem_descendants hplace
      have hlt : site.address ++ [] < site.address ++ index :: rest :=
        List.append_left_lt (List.nil_lt_cons index rest)
      rw [← hrest, address_part, List.append_assoc]
      simpa using hlt
    · refine (pairwise_index_partsFrom site 0 site.start site.tree.children).2.imp ?_
      rintro a b ⟨i, j, hlt, ha, hb⟩ place hplace place' hplace'
      obtain ⟨rest, hrest⟩ := address_of_mem_descendants hplace
      obtain ⟨rest', hrest'⟩ := address_of_mem_descendants hplace'
      rw [← hrest, ← hrest', ha, hb, List.append_assoc, List.append_assoc]
      exact List.append_left_lt (.rel hlt)

/-- Of two places in a list that keeps an order, one comes before the other. -/
theorem eq_or_ordered {R : Site → Site → Prop} {sites : List Site} (h : sites.Pairwise R)
    (hplace : place ∈ sites) (hplace' : place' ∈ sites) :
    place = place' ∨ R place place' ∨ R place' place := by
  have hsymm : Std.Symm fun a b => R a b ∨ R b a := ⟨fun _ _ => Or.symm⟩
  have hboth : sites.Pairwise fun a b => R a b ∨ R b a := h.imp .inl
  by_cases heq : place = place'
  · exact .inl heq
  · exact .inr (hboth.forall hplace hplace' heq)

/-- A place has an address of its own. -/
theorem eq_of_path_eq {root : Site} (h : place ∈ root.descendants) (h' : place' ∈ root.descendants)
    (hpath : place.path = place'.path) : place = place' := by
  have haddress : place.address = place'.address := congrArg List.reverse hpath
  refine (eq_or_ordered (pairwise_address root) h h').resolve_right ?_
  rintro (hlt | hlt) <;> exact absurd (haddress ▸ hlt) (List.lt_irrefl _)

/-- No place is in two parts of one place. -/
theorem eq_of_common (hpart : part ∈ site.parts) (hpart' : part' ∈ site.parts)
    (hplace : place ∈ part.descendants) (hplace' : place ∈ part'.descendants) : part = part' := by
  have hprefix := address_of_mem_descendants hplace
  have hprefix' := address_of_mem_descendants hplace'
  have hordered := (pairwise_index_partsFrom site 0 site.start site.tree.children).2
  refine (eq_or_ordered hordered hpart hpart').resolve_right ?_
  rintro (⟨i, j, hlt, haddress, haddress'⟩ | ⟨i, j, hlt, haddress', haddress⟩) <;>
  · rw [haddress] at hprefix
    rw [haddress'] at hprefix'
    have heq := (List.prefix_of_prefix_length_le hprefix hprefix' (by simp)).eq_of_length (by simp)
    simp only [List.append_cancel_left_eq, List.cons.injEq] at heq
    omega

theorem same_iff {root : Site} (h : place ∈ root.nodes) (h' : place' ∈ root.nodes) :
    place.same place' = true ↔ place = place' := by
  rw [same, beq_iff_eq]
  exact ⟨eq_of_path_eq (List.mem_filter.mp h).1 (List.mem_filter.mp h').1, congrArg path⟩

-- ---------------------------------------------------------------------------
-- Kinds around a place
-- ---------------------------------------------------------------------------

theorem nodeKinds_children (site : Site) :
    Tree.nodeKinds site.tree.children = site.children.map Site.kind := by
  rw [Tree.nodeKinds, ← map_tree_parts, List.filter_map, List.map_map]
  rfl

theorem composed_of_mem_descendants (h : site.tree.Composed) :
    ∀ place ∈ site.descendants, place.tree.Composed :=
  tree_of_mem_descendants (fun _ htree child hchild => by
    cases htree with
    | token => cases hchild
    | node _ _ hchildren => exact hchildren child hchild) h

theorem kind_mem_parts (h : site.tree.Composed) (hpart : part ∈ site.children) :
    part.kind ∈ site.kind.parts := by
  obtain ⟨hpart, hnode⟩ := List.mem_filter.mp hpart
  have hchild := tree_mem_children hpart
  unfold Site.kind
  cases htree : site.tree with
  | token => simp [htree, Tree.children] at hchild
  | node kind children =>
    rw [htree] at h hchild
    cases h with
    | node hparts => exact hparts _ hchild hnode

/-- Kinds among which the parts of each are stay among themselves. -/
theorem kind_of_mem_inner {kinds : List Kind} (hclosed : ∀ kind ∈ kinds, kind.parts ⊆ kinds)
    (h : site.tree.Composed) (hsite : site.kind.parts ⊆ kinds) (hplace : place ∈ site.inner)
    (hnode : place.tree.isNode = true) : place.kind ∈ kinds := by
  induction site using parts_induction with
  | h site ih =>
    obtain ⟨part, hpart, hplace⟩ := List.mem_flatMap.mp hplace
    have hchild := isNode_of_mem_descendants hpart hplace hnode
    have hkind := hsite (kind_mem_parts h hchild)
    rw [descendants_eq, List.mem_cons] at hplace
    obtain rfl | hplace := hplace
    · exact hkind
    · have hcomposed := composed_of_mem_descendants h part (mem_descendants_of_mem_parts hpart)
      exact ih part hpart hcomposed (hclosed _ hkind) hplace

end Site

namespace Kind

/-- Nodes that patterns stand in and that are not patterns: a lambda, a case branch, a declaration,
and the left side of a function. -/
theorem holder_of_isPattern (holder : Kind) :
    ∀ kind ∈ holder.parts, kind.isPattern = true → holder.isPattern = true ∨
      holder ∈ [Kind.valueDeclaration, .caseOfBranch, .anonymousFunctionExpr,
        .functionDeclarationLeft] := by
  cases holder <;> decide

theorem holder_of_left (holder : Kind) :
    .functionDeclarationLeft ∈ holder.parts → holder = .valueDeclaration := by
  cases holder <;> decide

theorem holder_of_declaration (holder : Kind) :
    .valueDeclaration ∈ holder.parts → holder = .file ∨ holder = .letInExpr := by
  cases holder <;> decide

/-- The header and the imports of a file. -/
def ofModule : List Kind := [.moduleDeclaration, .importClause]

/-- What is in the header and in the imports of a file. -/
def inModule : List Kind :=
  [.upperCaseQid, .asClause, .exposingList, .exposedValue, .exposedType, .exposedUnionConstructors,
   .exposedOperator]

theorem inModule_closed : ∀ kind ∈ ofModule ++ inModule, kind.parts ⊆ inModule := by
  decide

theorem holder_of_name_inModule :
    ∀ kind ∈ inModule, Kind.upperCaseQid ∉ kind.parts := by
  decide

theorem holder_of_ofModule (holder : Kind) :
    ∀ kind ∈ ofModule, kind ∈ holder.parts → holder = .file := by
  cases holder <;> decide

theorem holder_of_file (holder : Kind) : .file ∉ holder.parts := by
  cases holder <;> decide

end Kind

/-- What the nodes around a place tell about it, for a whole file. -/
structure Tree.IsFile (tree : Tree) : Prop where
  kind_eq : tree.kind = .file
  composed : tree.Composed

theorem isFile_parse (text : String) : (parse text).tree.IsFile :=
  ⟨(isParsed_parse text).kind_eq, composed_parse text⟩

namespace Tree.IsFile

variable {tree : Tree} {site part place : Site}

theorem composed_of_mem_nodes (h : tree.IsFile) (hsite : site ∈ (Site.root tree).nodes) :
    site.tree.Composed := by
  have hroot : (Site.root tree).tree.Composed := h.composed
  exact Site.composed_of_mem_descendants hroot site (List.mem_filter.mp hsite).1

theorem kind_mem_parts (h : tree.IsFile) (hsite : site ∈ (Site.root tree).nodes)
    (hpart : part ∈ site.children) : part.kind ∈ site.kind.parts :=
  Site.kind_mem_parts (h.composed_of_mem_nodes hsite) hpart

theorem keeps (h : tree.IsFile) (hsite : site ∈ (Site.root tree).nodes) :
    Keeps site.kind site.tree.children := by
  have hnode := (List.mem_filter.mp hsite).2
  have hcomposed := h.composed_of_mem_nodes hsite
  unfold Site.kind
  cases htree : site.tree with
  | token => simp [htree, Tree.isNode] at hnode
  | node kind children =>
    rw [htree] at hcomposed
    cases hcomposed with
    | node _ hkeeps => exact hkeeps

theorem eq_root (h : tree.IsFile) (hplace : place ∈ (Site.root tree).nodes)
    (hkind : place.kind = .file) : place = .root tree := by
  refine (Site.exists_parent_of_mem_nodes hplace).resolve_right ?_
  rintro ⟨parent, hparent, hchild⟩
  have hparts := h.kind_mem_parts hparent hchild
  rw [hkind] at hparts
  exact Kind.holder_of_file _ hparts

/-- Around every node but the file there is another. -/
theorem exists_parent (h : tree.IsFile) (hplace : place ∈ (Site.root tree).nodes)
    (hkind : place.kind ≠ .file) :
    ∃ parent ∈ (Site.root tree).nodes, place ∈ parent.children ∧
      place.kind ∈ parent.kind.parts := by
  obtain heq | ⟨parent, hparent, hchild⟩ := Site.exists_parent_of_mem_nodes hplace
  · rw [heq] at hkind
    exact absurd h.kind_eq hkind
  · exact ⟨parent, hparent, hchild, h.kind_mem_parts hparent hchild⟩

end Tree.IsFile

end ElmLint.Syntax

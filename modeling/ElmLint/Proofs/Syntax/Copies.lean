import Mathlib.Data.List.Forall2
import Mathlib.Data.Option.Basic
import ElmLint.Proofs.Syntax.Ancestry
import ElmLint.Syntax.SourceFile

/-!
# Places that hold equal trees

What is read off a place by going down from it is the same at every place that holds an equal tree,
in whatever file. Whether two trees are equal can be decided.
-/

namespace ElmLint.Syntax

mutual

def Tree.decideEq : (a b : Tree) → Decidable (a = b)
  | .token kind text, .token kind' text' =>
    decidable_of_iff (kind = kind' ∧ text = text') (by rw [Tree.token.injEq])
  | .token .., .node .. | .node .., .token .. => isFalse nofun
  | .node kind children, .node kind' children' =>
    have := Tree.decideAllEq children children'
    decidable_of_iff (kind = kind' ∧ children = children') (by rw [Tree.node.injEq])

def Tree.decideAllEq : (trees trees' : List Tree) → Decidable (trees = trees')
  | [], [] => isTrue rfl
  | [], _ :: _ | _ :: _, [] => isFalse nofun
  | tree :: trees, tree' :: trees' =>
    have := Tree.decideEq tree tree'
    have := Tree.decideAllEq trees trees'
    decidable_of_iff (tree = tree' ∧ trees = trees') (by rw [List.cons.injEq])

end

instance : DecidableEq Tree := Tree.decideEq

namespace Site

variable {a b part place : Site}

/-- Equal trees, in nodes of one kind. -/
structure IsCopy (a b : Site) : Prop where
  tree_eq : a.tree = b.tree
  parent_eq : a.parent?.map Site.kind = b.parent?.map Site.kind

theorem IsCopy.kind_eq (h : a.IsCopy b) : a.kind = b.kind := congrArg Tree.kind h.tree_eq

/-- The trees of the places are the same, one by one. -/
abbrev SameTree (a b : Site) : Prop := a.tree = b.tree

theorem forall₂_parts (h : a.SameTree b) : List.Forall₂ SameTree a.parts b.parts := by
  have htrees : List.Forall₂ (· = ·) (a.parts.map tree) (b.parts.map tree) := by
    rw [map_tree_parts, map_tree_parts, h, List.forall₂_eq_eq_eq]
  simpa only [List.forall₂_map_left_iff, List.forall₂_map_right_iff] using htrees

theorem forall₂_children (h : a.SameTree b) : List.Forall₂ SameTree a.children b.children :=
  List.rel_filter (fun _ _ hpart => iff_of_eq (congrArg (·.isNode = true) hpart)) (forall₂_parts h)

/-- The children of places with equal trees are copies of each other. -/
theorem exists_child_copy (h : a.SameTree b) (hpart : part ∈ a.children) :
    ∃ part' ∈ b.children, part.IsCopy part' := by
  obtain ⟨hmem, hnode⟩ := List.mem_filter.mp hpart
  have htree := tree_mem_children hmem
  rw [show a.tree = b.tree from h, ← map_tree_parts] at htree
  obtain ⟨part', hpart', heq⟩ := List.mem_map.mp htree
  have hchild : part' ∈ b.children := List.mem_filter.mpr ⟨hpart', by rw [heq]; exact hnode⟩
  refine ⟨part', hchild, heq.symm, ?_⟩
  rw [parent?_of_mem_children hpart, parent?_of_mem_children hchild]
  exact congrArg (some ∘ Tree.kind) h

theorem rel_find? {sites sites' : List Site} (p : Tree → Bool)
    (h : List.Forall₂ SameTree sites sites') :
    Option.Rel SameTree (sites.find? (p ·.tree)) (sites'.find? (p ·.tree)) := by
  induction h with
  | nil => exact .none
  | @cons site site' sites sites' hsite _ ih =>
    rw [List.find?_cons, List.find?_cons, show site.tree = site'.tree from hsite]
    cases p site'.tree with
    | true => exact .some hsite
    | false => exact ih

theorem rel_child? (h : a.SameTree b) (kind : Kind) :
    Option.Rel SameTree (a.child? kind) (b.child? kind) :=
  rel_find? (·.kind == kind) (forall₂_children h)

theorem rel_token? (h : a.SameTree b) (kind : Kind) :
    Option.Rel SameTree (a.token? kind) (b.token? kind) :=
  rel_find? (fun tree => !tree.isNode && tree.kind == kind) (forall₂_parts h)

/-- The nodes in a copy are copies of those in the original. -/
theorem IsCopy.exists_node (h : a.IsCopy b) (hplace : place ∈ a.nodes) :
    ∃ place' ∈ b.nodes, place.IsCopy place' := by
  induction a using parts_induction generalizing b with
  | h a ih =>
    obtain rfl | ⟨part, hpart, hplace⟩ := mem_nodes_cases hplace
    · have hnode := (List.mem_filter.mp hplace).2
      rw [h.tree_eq] at hnode
      exact ⟨b, List.mem_filter.mpr ⟨mem_descendants_self b, hnode⟩, h⟩
    · obtain ⟨part', hpart', hcopy⟩ := exists_child_copy h.tree_eq hpart
      obtain ⟨place', hplace', hcopy'⟩ := ih part (List.mem_filter.mp hpart).1 hcopy hplace
      exact ⟨place', nodes_of_mem_children hpart' hplace', hcopy'⟩

end Site

-- ---------------------------------------------------------------------------
-- Imports
-- ---------------------------------------------------------------------------

section Imports

variable {site site' : Site}

theorem map_eq_of_rel {α : Type} (read : Tree → α) {part? part'? : Option Site}
    (h : Option.Rel Site.SameTree part? part'?) :
    part?.map (read ·.tree) = part'?.map (read ·.tree) := by
  cases h with
  | none => rfl
  | some htree => exact congrArg (some ∘ read) htree

theorem capitalNameIn?_eq (h : site.SameTree site') :
    capitalNameIn? site = capitalNameIn? site' :=
  map_eq_of_rel Tree.dottedName (Site.rel_child? h .upperCaseQid)

theorem text_token?_eq (h : site.SameTree site') (kind : Kind) :
    (site.token? kind).map Site.text = (site'.token? kind).map Site.text :=
  map_eq_of_rel Tree.text (Site.rel_token? h kind)

theorem alias?_eq (h : site.SameTree site') :
    (Import.ofSite site).alias? = (Import.ofSite site').alias? := by
  unfold Import.ofSite
  have hrel := Site.rel_child? h .asClause
  generalize site.child? .asClause = clause, site'.child? .asClause = clause' at hrel ⊢
  cases hrel with
  | none => rfl
  | some hclause => exact text_token?_eq hclause .upperIdent

/-- Two entries expose the same. -/
structure ExposedItem.SameAs (item item' : ExposedItem) : Prop where
  sort_eq : item.sort = item'.sort
  name_eq : item.name? = item'.name?
  constructors_eq : item.constructors = item'.constructors

theorem ExposedItem.SameAs.symm {item item' : ExposedItem} (h : item.SameAs item') :
    item'.SameAs item := ⟨h.sort_eq.symm, h.name_eq.symm, h.constructors_eq.symm⟩

theorem rel_exposedItem (h : site.SameTree site') :
    Option.Rel ExposedItem.SameAs (ExposedItem.ofSite? site) (ExposedItem.ofSite? site') := by
  unfold ExposedItem.ofSite?
  rw [show site.kind = site'.kind from congrArg Tree.kind h]
  cases ExposedItem.sort? site'.kind with
  | none => exact .none
  | some sort =>
    refine .some ⟨rfl, text_token?_eq h _, ?_⟩
    have hrel := Site.rel_child? h .exposedUnionConstructors
    generalize site.child? .exposedUnionConstructors = part,
      site'.child? .exposedUnionConstructors = part' at hrel ⊢
    cases hrel <;> rfl

/-- Two lists are `(..)` both or not at all, and have the same entries. -/
structure ExposingList.SameAs (list list' : ExposingList) : Prop where
  wildcard_eq : list.wildcard = list'.wildcard
  items : List.Forall₂ ExposedItem.SameAs list.items list'.items

theorem rel_exposingIn? (h : site.SameTree site') :
    Option.Rel ExposingList.SameAs (exposingIn? site) (exposingIn? site') := by
  unfold exposingIn?
  have hrel := Site.rel_child? h .exposingList
  generalize site.child? .exposingList = list, site'.child? .exposingList = list' at hrel ⊢
  cases hrel with
  | none => exact .none
  | some hlist =>
    refine .some ⟨?_, List.rel_filterMap (R := Site.SameTree) (fun _ _ hitem => ?_)
      (Site.forall₂_children hlist)⟩
    · exact Option.isSome_map.symm.trans
        ((congrArg Option.isSome (text_token?_eq hlist .dotDot)).trans Option.isSome_map)
    · exact rel_exposedItem hitem

end Imports

end ElmLint.Syntax

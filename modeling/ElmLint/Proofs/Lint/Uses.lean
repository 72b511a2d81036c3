import ElmLint.Lint.Finding
import ElmLint.Proofs.Syntax.Ancestry

/-!
# Uses of names

A name is used as an unqualified value, as the record of a record update, as an upper-case name, in
front of a qualified name or as an operator. What the checks collect of a file are the names used in
it. In the header and in the imports there are only upper-case names, which do not count, so the
uses are those in the other items of the file.
-/

namespace ElmLint.Lint

open Syntax

variable {tree : Tree} {site place item region : Site} {name qualifier : String}
  {P : Site → Prop}

-- ---------------------------------------------------------------------------
-- Uses of one name
-- ---------------------------------------------------------------------------

/-- The place is an unqualified value of this name, or the record of that name in an update. -/
inductive RefersTo (name : String) (place : Site) : Prop
  | value {qid : Site} (hkind : place.kind = .valueExpr) (hqid : place.children.head? = some qid)
    (hqidKind : qid.kind = .valueQid) (hname : qid.tree.nameSegments = [name])
  | recordBase {record : Site} (hkind : place.kind = .recordBaseIdentifier)
    (hrecord : place.parent? = some record) (hrecordKind : record.kind = .recordExpr)
    (hname : place.tree.tokenText? .lowerIdent = some name)

/-- The place is a qualified name behind this module or alias. -/
structure IsQualifiedBy (qualifier : String) (place : Site) : Prop where
  kind : place.kind ∈ [Kind.valueQid, .upperCaseQid]
  length : 2 ≤ place.tree.nameSegments.length
  eq : ".".intercalate place.tree.nameSegments.dropLast = qualifier

/-- The place is an unqualified upper-case name. -/
structure IsUpperName (name : String) (place : Site) : Prop where
  kind : place.kind = .upperCaseQid
  eq : place.tree.nameSegments = [name]

/-- The place is an operator, infix or as a function. -/
structure IsOperator (name : String) (place : Site) : Prop where
  kind : place.kind ∈ [Kind.operator, .operatorAsFunctionExpr]
  eq : place.tree.tokenText? .operatorIdent = some name

theorem valueReference?_eq_some_iff : valueReference? place = some name ↔ RefersTo name place := by
  constructor
  · intro h
    unfold valueReference? at h
    split at h
    · rename_i hkind
      split at h
      · rename_i qid hqid
        split at h
        · rename_i segment hqidKind hname
          obtain rfl := Option.some.inj h
          exact .value hkind hqid hqidKind hname
        · cases h
      · cases h
    · rename_i hkind
      split at h
      · rename_i hrecord
        obtain ⟨record, hrecord⟩ := Option.isSome_iff_exists.mp hrecord
        obtain ⟨hparent, hrecordKind⟩ := Option.filter_eq_some_iff.mp hrecord
        exact .recordBase hkind hparent (by simpa using hrecordKind) h
      · cases h
    · cases h
  · rintro (⟨hkind, hqid, hqidKind, hname⟩ | ⟨hkind, hrecord, hrecordKind, hname⟩)
    · simp [valueReference?, hkind, hqid, hqidKind, hname]
    · simp [valueReference?, hkind, Site.parentOf?, hrecord, hrecordKind, hname, Option.filter]

theorem countReferences_eq_zero_iff :
    countReferences region name = 0 ↔ ¬ ∃ place ∈ region.nodes, RefersTo name place := by
  rw [countReferences, List.length_eq_zero_iff, List.filter_eq_nil_iff]
  simp only [beq_iff_eq, valueReference?_eq_some_iff, not_exists, not_and]

theorem usesValue_iff : (References.collect site).usesValue name = true ↔
    ∃ place ∈ site.nodes, RefersTo name place := by
  simp only [References.usesValue, References.collect, List.any_eq_true, List.mem_filterMap,
    Option.map_eq_some_iff, valueReference?_eq_some_iff, beq_iff_eq]
  constructor
  · rintro ⟨-, ⟨place, hplace, reference, hrefers, rfl⟩, rfl⟩
    exact ⟨place, hplace, hrefers⟩
  · rintro ⟨place, hplace, hrefers⟩
    exact ⟨_, ⟨place, hplace, name, hrefers, rfl⟩, rfl⟩

theorem usedName?_eq_some_iff {segments : List String} :
    usedName? place = some segments ↔ place.kind ∈ [Kind.valueQid, .upperCaseQid] ∧
      inModuleStructure place = false ∧ place.tree.nameSegments = segments := by
  rw [usedName?]
  split <;> rename_i h <;> simp_all

theorem usedUpper?_eq_some_iff : usedUpper? place = some name ↔
    IsUpperName name place ∧ inModuleStructure place = false := by
  constructor
  · intro h
    unfold usedUpper? at h
    split at h
    · rename_i segment hused
      obtain ⟨-, hmodule, hsegments⟩ := usedName?_eq_some_iff.mp hused
      split at h
      · rename_i hkind
        obtain rfl := Option.some.inj h
        exact ⟨⟨hkind, hsegments⟩, hmodule⟩
      · cases h
    · cases h
  · rintro ⟨⟨hkind, hsegments⟩, hmodule⟩
    have hused := usedName?_eq_some_iff.mpr ⟨by simp [hkind], hmodule, hsegments⟩
    simp [usedUpper?, hused, hkind]

theorem usedQualifier?_eq_some_iff : usedQualifier? place = some qualifier ↔
    IsQualifiedBy qualifier place ∧ inModuleStructure place = false := by
  constructor
  · intro h
    unfold usedQualifier? at h
    split at h
    · rename_i first second rest hused
      obtain ⟨hkind, hmodule, hsegments⟩ := usedName?_eq_some_iff.mp hused
      obtain rfl := Option.some.inj h
      rw [← hsegments]
      exact ⟨⟨hkind, by simp [hsegments], rfl⟩, hmodule⟩
    · cases h
  · rintro ⟨⟨hkind, hlength, rfl⟩, hmodule⟩
    have hused := usedName?_eq_some_iff.mpr ⟨hkind, hmodule, rfl⟩
    cases hsegments : place.tree.nameSegments with
    | nil => simp [hsegments] at hlength
    | cons first segments =>
      cases segments with
      | nil => simp [hsegments] at hlength
      | cons second rest => rw [usedQualifier?, hused, hsegments]

theorem usedOperator?_eq_some_iff : usedOperator? place = some name ↔ IsOperator name place := by
  rw [usedOperator?]
  split
  · rename_i hkind
    exact ⟨fun h => ⟨List.contains_iff_mem.mp hkind, h⟩, fun h => h.eq⟩
  · rename_i hkind
    exact ⟨nofun, fun h => absurd (List.contains_iff_mem.mpr h.kind) hkind⟩

-- ---------------------------------------------------------------------------
-- Uses in the items of a file
-- ---------------------------------------------------------------------------

/-- Such a place is in the file, outside the header and the imports. -/
def InBody (tree : Tree) (P : Site → Prop) : Prop :=
  ∃ item ∈ (Site.root tree).children, item.kind ∉ Kind.ofModule ∧ ∃ place ∈ item.nodes, P place

theorem eq_of_common_item {item' : Site} (hitem : item ∈ (Site.root tree).children)
    (hitem' : item' ∈ (Site.root tree).children) (hplace : place ∈ item.nodes)
    (hplace' : place ∈ item'.nodes) : item = item' :=
  Site.eq_of_common (List.mem_filter.mp hitem).1 (List.mem_filter.mp hitem').1
    (List.mem_filter.mp hplace).1 (List.mem_filter.mp hplace').1

theorem kind_of_mem_item (h : tree.IsFile) (hitem : item ∈ (Site.root tree).children)
    (hkind : item.kind ∈ Kind.ofModule) (hplace : place ∈ item.nodes) :
    place = item ∨ place.kind ∈ Kind.inModule := by
  obtain ⟨hplace, hnode⟩ := List.mem_filter.mp hplace
  rw [Site.descendants_eq, List.mem_cons] at hplace
  have hcomposed := h.composed_of_mem_nodes (Site.children_subset_nodes hitem)
  exact hplace.imp_right fun hinner => Site.kind_of_mem_inner
    (fun kind hmem => Kind.inModule_closed kind (List.mem_append_right _ hmem)) hcomposed
    (Kind.inModule_closed _ (List.mem_append_left _ hkind)) hinner hnode

/-- The names in the header and in the imports stand directly in them. -/
theorem inModuleStructure_iff (h : tree.IsFile) (hitem : item ∈ (Site.root tree).children)
    (hplace : place ∈ item.nodes) (hkind : place.kind ∈ [Kind.valueQid, .upperCaseQid]) :
    inModuleStructure place = true ↔ item.kind ∈ Kind.ofModule := by
  have hnode := Site.nodes_of_mem_children hitem hplace
  constructor
  · intro hmodule
    obtain ⟨parent, hparent⟩ := Option.isSome_iff_exists.mp hmodule
    obtain ⟨hparent, hmodule⟩ := Option.filter_eq_some_iff.mp hparent
    have hmodule : parent.kind ∈ Kind.ofModule := List.contains_iff_mem.mp hmodule
    obtain ⟨hparentNode, hchild⟩ := Site.mem_children_of_parent? hnode hparent
    obtain ⟨holder, hholder, hparentChild, hparts⟩ := h.exists_parent hparentNode
      fun hfile => by rw [hfile] at hmodule; revert hmodule; decide
    -- a header or an import stands in the file, so it is the item itself
    obtain rfl := h.eq_root hholder (Kind.holder_of_ofModule _ _ hmodule hparts)
    have hinside :=
      Site.mem_nodes_of_mem_children (Site.mem_nodes_self hparentChild) hchild
    rw [eq_of_common_item hitem hparentChild hplace hinside]
    exact hmodule
  · intro hmodule
    have hne : place ≠ item := by
      rintro rfl
      revert hkind hmodule
      cases place.kind <;> decide
    have hin := (kind_of_mem_item h hitem hmodule hplace).resolve_left hne
    have hupper : place.kind = .upperCaseQid := by
      revert hkind hin
      cases place.kind <;> decide
    obtain ⟨parent, hparent, hchild⟩ := (Site.exists_parent_of_mem_nodes hplace).resolve_left hne
    obtain rfl | hparentKind := kind_of_mem_item h hitem hmodule hparent
    · rw [inModuleStructure, Site.parentOf?, Site.parent?_of_mem_children hchild,
        Option.isSome_iff_exists]
      exact ⟨parent, Option.filter_eq_some_iff.mpr ⟨rfl, List.contains_iff_mem.mpr hmodule⟩⟩
    · have hparts := h.kind_mem_parts (Site.nodes_of_mem_children hitem hparent) hchild
      rw [hupper] at hparts
      exact absurd hparts (Kind.holder_of_name_inModule _ hparentKind)

/-- Names of the file that do not stand directly in the header or in an import are in its body. -/
theorem exists_name_iff_inBody (h : tree.IsFile)
    (hP : ∀ place, P place → place.kind ∈ [Kind.valueQid, .upperCaseQid]) :
    (∃ place ∈ (Site.root tree).nodes, P place ∧ inModuleStructure place = false) ↔
      InBody tree P := by
  constructor
  · rintro ⟨place, hplace, hname, hmodule⟩
    have hkind := hP place hname
    obtain rfl | ⟨item, hitem, hplace⟩ := Site.mem_nodes_cases hplace
    · have hfile : (Site.root tree).kind = .file := h.kind_eq
      rw [hfile] at hkind
      cases hkind with | tail _ hkind => cases hkind with | tail _ hkind => cases hkind
    · refine ⟨item, hitem, fun hof => ?_, place, hplace, hname⟩
      rw [(inModuleStructure_iff h hitem hplace hkind).mpr hof] at hmodule
      cases hmodule
  · rintro ⟨item, hitem, hof, place, hplace, hname⟩
    refine ⟨place, Site.nodes_of_mem_children hitem hplace, hname, ?_⟩
    rw [← Bool.not_eq_true, inModuleStructure_iff h hitem hplace (hP place hname)]
    exact hof

/-- What is in the file and is nothing that headers and imports are made of is in the body. -/
theorem exists_place_iff_inBody (h : tree.IsFile)
    (hP : ∀ place, P place → place.kind ∉ .file :: (Kind.ofModule ++ Kind.inModule)) :
    (∃ place ∈ (Site.root tree).nodes, P place) ↔ InBody tree P := by
  constructor
  · rintro ⟨place, hplace, huse⟩
    have hkind := hP place huse
    rw [List.mem_cons, List.mem_append, not_or, not_or] at hkind
    obtain rfl | ⟨item, hitem, hplace⟩ := Site.mem_nodes_cases hplace
    · exact absurd h.kind_eq hkind.1
    · refine ⟨item, hitem, fun hof => ?_, place, hplace, huse⟩
      obtain rfl | hin := kind_of_mem_item h hitem hof hplace
      · exact hkind.2.1 hof
      · exact hkind.2.2 hin
  · rintro ⟨item, hitem, -, place, hplace, huse⟩
    exact ⟨place, Site.nodes_of_mem_children hitem hplace, huse⟩

section Collect

variable (h : tree.IsFile)
include h

theorem usesValue_iff_inBody :
    (References.collect (.root tree)).usesValue name = true ↔ InBody tree (RefersTo name) := by
  rw [usesValue_iff]
  refine exists_place_iff_inBody h ?_
  rintro place (⟨hkind, -⟩ | ⟨hkind, -⟩) <;> rw [hkind] <;> decide

theorem mem_operators_iff :
    name ∈ (References.collect (.root tree)).operators ↔ InBody tree (IsOperator name) := by
  simp only [References.collect, List.mem_eraseDups, List.mem_filterMap,
    usedOperator?_eq_some_iff]
  refine exists_place_iff_inBody h ?_
  rintro place ⟨hkind, -⟩
  revert hkind
  cases place.kind <;> decide

theorem mem_upper_iff :
    name ∈ (References.collect (.root tree)).upper ↔ InBody tree (IsUpperName name) := by
  simp only [References.collect, List.mem_eraseDups, List.mem_filterMap, usedUpper?_eq_some_iff]
  refine exists_name_iff_inBody h ?_
  rintro place ⟨hkind, -⟩
  rw [hkind]
  decide

theorem mem_qualifiers_iff :
    qualifier ∈ (References.collect (.root tree)).qualifiers ↔
      InBody tree (IsQualifiedBy qualifier) := by
  simp only [References.collect, List.mem_eraseDups, List.mem_filterMap,
    usedQualifier?_eq_some_iff]
  exact exists_name_iff_inBody h fun place hplace => hplace.kind

end Collect

end ElmLint.Lint

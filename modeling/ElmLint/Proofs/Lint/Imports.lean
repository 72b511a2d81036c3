import ElmLint.Proofs.Lint.Reported
import ElmLint.Proofs.Lint.Uses
import ElmLint.Proofs.Syntax.Copies

/-!
# Unused imports

An alias, an exposed entry and a whole import are each reported exactly when the names used in the
body of the file do not need it. The three checks ask for the same uses, so what an unused import
introduces is unused as well, and of the rest of the file only the body counts.
-/

namespace ElmLint.Lint

open Syntax

variable {tree tree' : Tree} {text text' name qualifier : String}
  {fields fields' : String → Option (List String)} {i i' : Import} {a b site site' place : Site}
  {range : ByteRange} {item item' : ExposedItem} {sort : ExposedSort} {kinds : List Kind}

-- ---------------------------------------------------------------------------
-- What an import is needed for
-- ---------------------------------------------------------------------------

/-- A name of this sort is used in the body of the file. -/
def IsUsed (tree : Tree) (sort : ExposedSort) (name : String) : Prop :=
  match sort with
  | .value => InBody tree (RefersTo name)
  | .type => InBody tree (IsUpperName name)
  | .operator => InBody tree (IsOperator name)

/-- The entry has a name, which is used nowhere, and is not a type with its constructors. -/
structure IsUnusedItem (tree : Tree) (item : ExposedItem) : Prop where
  constructors : item.constructors = false
  name : ∃ name, item.name? = some name ∧ ¬ IsUsed tree item.sort name

/-- The import has a list and the list is `(..)`. -/
def ExposesAll (i : Import) : Prop := ∃ list, i.exposing? = some list ∧ list.wildcard = true

/-- What is in the list of the import, if it has one. -/
def entries (i : Import) : List ExposedItem := i.exposing?.toList.flatMap (·.items)

/-- The import has a module name, does not expose everything, and nothing in the body of the file
needs it, be it through its alias or else its module name, or through an entry of its list. -/
structure IsUnusedImport (tree : Tree) (i : Import) : Prop where
  qualifier : ∃ module, i.module? = some module ∧
    ¬ InBody tree (IsQualifiedBy (i.alias?.getD module))
  list : ¬ ExposesAll i
  items : ∀ item ∈ entries i, IsUnusedItem tree item

theorem mem_entries_iff :
    item ∈ entries i ↔ ∃ list, i.exposing? = some list ∧ item ∈ list.items := by
  simp [entries]

theorem contains_eq_false_iff {names : List String} {P : Prop} (h : name ∈ names ↔ P) :
    names.contains name = false ↔ ¬ P := by
  rw [← h, ← List.contains_iff_mem, Bool.not_eq_true]

theorem not_qualifier_iff (fields : String → Option (List String)) (h : tree.IsFile) :
    (Subject.ofTree tree fields).refs.qualifiers.contains qualifier = false ↔
      ¬ InBody tree (IsQualifiedBy qualifier) := contains_eq_false_iff (mem_qualifiers_iff h)

theorem exposedItemUsed_eq_false_iff (h : tree.IsFile)
    (hitem : item.constructors = true → item.sort = .type) :
    exposedItemUsed (.ofTree tree fields) item = false ↔ IsUnusedItem tree item := by
  obtain ⟨site, sort, name?, constructors⟩ := item
  cases name? with
  | none =>
    refine ⟨nofun, fun hunused => ?_⟩
    obtain ⟨-, name, hname, -⟩ := hunused
    cases hname
  | some name =>
    have hunused : IsUnusedItem tree ⟨site, sort, some name, constructors⟩ ↔
        constructors = false ∧ ¬ IsUsed tree sort name := by
      constructor
      · rintro ⟨hconstructors, other, hname, hused⟩
        obtain rfl := Option.some.inj hname
        exact ⟨hconstructors, hused⟩
      · exact fun ⟨hconstructors, hused⟩ => ⟨hconstructors, name, rfl, hused⟩
    have hvalue (hsort : sort ≠ .type) : constructors = false :=
      Bool.eq_false_iff.mpr fun hconstructors => hsort (hitem hconstructors)
    rw [hunused]
    cases sort with
    | value =>
      rw [and_iff_right (hvalue (by decide)), IsUsed, ← usesValue_iff_inBody h, Bool.not_eq_true]
      rfl
    | type =>
      rw [IsUsed, ← contains_eq_false_iff (mem_upper_iff h), ← Bool.or_eq_false_iff]
      rfl
    | operator =>
      rw [and_iff_right (hvalue (by decide)), IsUsed, ← contains_eq_false_iff (mem_operators_iff h)]
      rfl

/-- Only a type is exposed with constructors. -/
theorem sort_of_constructors (hitem : item ∈ (ExposingList.ofSite site).items)
    (h : item.constructors = true) : item.sort = .type := by
  obtain ⟨part, -, hpart⟩ := List.mem_filterMap.mp hitem
  obtain ⟨sort, -, rfl⟩ := Option.map_eq_some_iff.mp hpart
  simp only [Bool.and_eq_true, beq_iff_eq] at h
  exact h.1

theorem exposesAll_eq_false_iff : Syntax.exposesAll i.exposing? = false ↔ ¬ ExposesAll i := by
  unfold Syntax.exposesAll ExposesAll
  cases i.exposing? <;> simp

theorem exists_import_site (hi : i ∈ (SourceFile.ofTree tree).imports) :
    ∃ site ∈ (Site.root tree).childrenOf .importClause, i = .ofSite site := by
  obtain ⟨site, hsite, rfl⟩ := List.mem_map.mp hi
  exact ⟨site, hsite, rfl⟩

theorem sort_of_mem_entries (hi : i ∈ (SourceFile.ofTree tree).imports) (hitem : item ∈ entries i)
    (h : item.constructors = true) : item.sort = .type := by
  obtain ⟨site, -, rfl⟩ := exists_import_site hi
  obtain ⟨list, hlist, hitem⟩ := mem_entries_iff.mp hitem
  obtain ⟨listSite, -, rfl⟩ := Option.map_eq_some_iff.mp hlist
  exact sort_of_constructors hitem h

theorem entryUsed_eq_false_iff (fields : String → Option (List String)) (h : tree.IsFile)
    (hi : i ∈ (SourceFile.ofTree tree).imports) (hitem : item ∈ entries i) :
    exposedItemUsed (.ofTree tree fields) item = false ↔ IsUnusedItem tree item :=
  exposedItemUsed_eq_false_iff h (sort_of_mem_entries hi hitem)

theorem anyEntryUsed_eq_false_iff (fields : String → Option (List String)) (h : tree.IsFile)
    (hi : i ∈ (SourceFile.ofTree tree).imports) :
    i.exposing?.any (·.items.any (exposedItemUsed (.ofTree tree fields))) = false ↔
      ∀ item ∈ entries i, IsUnusedItem tree item := by
  have hall : i.exposing?.any (·.items.any (exposedItemUsed (.ofTree tree fields))) = false ↔
      ∀ item ∈ entries i, exposedItemUsed (.ofTree tree fields) item = false := by
    unfold entries
    cases i.exposing? <;> simp
  rw [hall]
  exact forall_congr' fun item => forall_congr' (entryUsed_eq_false_iff fields h hi)

theorem qualifier?_eq {module : String} (h : i.module? = some module) :
    i.qualifier? = some (i.alias?.getD module) := by
  rw [Import.qualifier?, h, Option.or_some]

theorem unusedImport?_iff (fields : String → Option (List String)) (h : tree.IsFile)
    (hi : i ∈ (SourceFile.ofTree tree).imports) :
    (∃ f, unusedImport? (.ofTree tree fields) i = some f) ↔ IsUnusedImport tree i := by
  have hitems := anyEntryUsed_eq_false_iff fields h hi
  unfold unusedImport?
  cases hmodule : i.module? with
  | none =>
    refine ⟨fun ⟨f, hf⟩ => ?_, fun hunused => ?_⟩
    · split at hf <;> cases hf
    · obtain ⟨module, heq, -⟩ := hunused.qualifier
      cases hmodule.symm.trans heq
  | some module =>
    rw [qualifier?_eq hmodule]
    constructor
    · rintro ⟨f, hf⟩
      split at hf
      · cases hf
      rename_i hall
      simp only at hf
      split at hf
      · cases hf
      rename_i hunqualified
      split at hf
      · cases hf
      rename_i hunused
      rw [Bool.not_eq_true] at hall hunqualified hunused
      exact ⟨⟨module, hmodule, (not_qualifier_iff fields h).mp hunqualified⟩,
        exposesAll_eq_false_iff.mp hall, hitems.mp hunused⟩
    · rintro ⟨⟨other, hother, hunqualified⟩, hall, hunused⟩
      obtain rfl := Option.some.inj (hmodule.symm.trans hother)
      simp only [exposesAll_eq_false_iff.mpr hall, hitems.mpr hunused,
        (not_qualifier_iff fields h).mpr hunqualified, Bool.false_eq_true, if_false]
      exact ⟨_, rfl⟩

theorem unusedAlias?_iff (fields : String → Option (List String)) (h : tree.IsFile) :
    (∃ f, unusedAlias? (.ofTree tree fields) i = some f) ↔ i.aliasClause?.isSome ∧
      ∃ name, i.alias? = some name ∧ ¬ InBody tree (IsQualifiedBy name) := by
  unfold unusedAlias?
  cases i.alias? with
  | none => simp
  | some name =>
    cases i.aliasClause? with
    | none => simp
    | some clause => simp [← not_qualifier_iff fields h]

-- ---------------------------------------------------------------------------
-- Ranges
-- ---------------------------------------------------------------------------

/-- Nodes of these kinds do not stand inside each other and have words. -/
structure AreApart (kinds : List Kind) : Prop where
  inner : ∃ inside : List Kind, (∀ kind ∈ inside, kind.parts ⊆ inside) ∧
    ∀ kind ∈ kinds, kind.parts ⊆ inside ∧ kind ∉ inside
  filled : ∀ kind ∈ kinds, kind ≠ .file ∧ kind ≠ .exposingList

theorem areApart_importClause : AreApart [.importClause] :=
  ⟨⟨Kind.inModule, by decide, by decide⟩, by decide⟩

theorem areApart_asClause : AreApart [.asClause] := ⟨⟨[], by decide, by decide⟩, by decide⟩

theorem areApart_exposedItem : AreApart [.exposedValue, .exposedType, .exposedOperator] :=
  ⟨⟨[.exposedUnionConstructors], by decide, by decide⟩, by decide⟩

theorem not_mem_inner_of_areApart (h : tree.IsFile) (hkinds : AreApart kinds)
    (ha : a ∈ (Site.root tree).nodes) (hkind : a.kind ∈ kinds) (hb : b ∈ (Site.root tree).nodes)
    (hkind' : b.kind ∈ kinds) : b ∉ a.inner := by
  intro hinner
  obtain ⟨inside, hclosed, hparts⟩ := hkinds.inner
  exact (hparts _ hkind').2 (Site.kind_of_mem_inner hclosed (h.composed_of_mem_nodes ha)
    (hparts _ hkind).1 hinner (List.mem_filter.mp hb).2)

/-- Each of them has a range of its own. -/
theorem eq_of_significantRange (hparsed : tree.IsParsed) (h : tree.IsFile) (hkinds : AreApart kinds)
    (ha : a ∈ (Site.root tree).nodes) (hkind : a.kind ∈ kinds) (hb : b ∈ (Site.root tree).nodes)
    (hkind' : b.kind ∈ kinds) (hrange : a.significantRange = b.significantRange) : a = b := by
  have hbounds {site : Site} (hsite : site ∈ (Site.root tree).nodes) (hkind : site.kind ∈ kinds) :
      site.start ≤ site.significantRange.start ∧
        site.significantRange.start < site.significantRange.stop ∧
        site.significantRange.stop ≤ site.stop := by
    obtain ⟨hmem, hnode⟩ := List.mem_filter.mp hsite
    have hfilled := filled_of_mem_descendants hparsed hmem (hkinds.filled _ hkind)
    exact (Site.marks_significantRange (words_ne_nil_of_filled hfilled hnode)).bounds
      (hparsed.spelled.descendants hmem)
  have ha' := hbounds ha hkind
  have hb' := hbounds hb hkind'
  rw [hrange] at ha'
  have hinner := not_mem_inner_of_areApart h hkinds ha hkind hb hkind'
  have hinner' := not_mem_inner_of_areApart h hkinds hb hkind' ha hkind
  refine (Site.eq_or_ordered (Site.pairwise_nodes (.root tree)) ha hb).resolve_right ?_
  rintro ((hin | hstop) | hin | hstop)
  · exact hinner hin
  · omega
  · exact hinner' hin
  · omega

-- ---------------------------------------------------------------------------
-- Verdicts
-- ---------------------------------------------------------------------------

theorem import_ext (hi : i ∈ (SourceFile.ofTree tree).imports)
    (hi' : i' ∈ (SourceFile.ofTree tree).imports) (h : i.site = i'.site) : i = i' := by
  obtain ⟨site, -, rfl⟩ := exists_import_site hi
  obtain ⟨site', -, rfl⟩ := exists_import_site hi'
  exact congrArg Import.ofSite h

theorem mem_nodes_of_import (hi : i ∈ (SourceFile.ofTree tree).imports) :
    i.site ∈ (Site.root tree).nodes ∧ i.site.kind ∈ [Kind.importClause] := by
  obtain ⟨site, hsite, rfl⟩ := exists_import_site hi
  obtain ⟨hitem, hkind⟩ := mem_childrenOf hsite
  exact ⟨Site.children_subset_nodes hitem, List.mem_singleton.mpr hkind⟩

theorem mem_nodes_of_aliasClause (hi : i ∈ (SourceFile.ofTree tree).imports)
    (hsite : i.aliasClause? = some site) :
    site ∈ i.site.children ∧ site ∈ (Site.root tree).nodes ∧ site.kind ∈ [Kind.asClause] := by
  have hnode := (mem_nodes_of_import hi).1
  obtain ⟨place, -, rfl⟩ := exists_import_site hi
  obtain ⟨hchild, hkind⟩ := mem_child? hsite
  exact ⟨hchild, Site.mem_nodes_of_mem_children hnode hchild, List.mem_singleton.mpr hkind⟩

/-- An entry is read off a node in the list of the import. -/
theorem mem_nodes_of_mem_entries (hi : i ∈ (SourceFile.ofTree tree).imports)
    (hitem : item ∈ entries i) :
    ExposedItem.ofSite? item.site = some item ∧
      (∃ list ∈ i.site.children, item.site ∈ list.children) ∧
      item.site ∈ (Site.root tree).nodes ∧
      item.site.kind ∈ [Kind.exposedValue, .exposedType, .exposedOperator] := by
  have hnode := (mem_nodes_of_import hi).1
  obtain ⟨place, -, rfl⟩ := exists_import_site hi
  obtain ⟨list, hlist, hitem⟩ := mem_entries_iff.mp hitem
  obtain ⟨listSite, hchild, rfl⟩ := Option.map_eq_some_iff.mp hlist
  obtain ⟨site, hsite, hof⟩ := List.mem_filterMap.mp hitem
  obtain ⟨sort, hsort, rfl⟩ := Option.map_eq_some_iff.mp hof
  have hlistChild := (mem_child? hchild).1
  refine ⟨hof, ⟨listSite, hlistChild, hsite⟩,
    Site.mem_nodes_of_mem_children (Site.mem_nodes_of_mem_children hnode hlistChild) hsite, ?_⟩
  revert hsort
  cases site.kind <;> simp [ExposedItem.sort?]

theorem reported_unusedImport_iff (fields : String → Option (List String))
    (hi : i ∈ (SourceFile.ofTree (parse text).tree).imports) :
    Reported text fields .unusedImport i.site.significantRange ↔
      IsUnusedImport (parse text).tree i := by
  have hfile := isFile_parse text
  have hcheck : (unusedImports, LintCode.unusedImport.checkNumber) ∈ checks.zipIdx := by
    simp [checks, LintCode.checkNumber]
  rw [reported_iff_mem_check hcheck, ← unusedImport?_iff fields hfile hi]
  constructor
  · rintro ⟨f, hf, -, hrange⟩
    obtain ⟨other, hother, hf⟩ := List.mem_filterMap.mp hf
    rw [(unusedImport?_eq_some hf).2] at hrange
    obtain ⟨hnode, hkind⟩ := mem_nodes_of_import hother
    obtain ⟨hnode', hkind'⟩ := mem_nodes_of_import hi
    have hsite := eq_of_significantRange (isParsed_parse text) hfile areApart_importClause hnode
      hkind hnode' hkind' hrange
    rw [← import_ext hother hi hsite]
    exact ⟨f, hf⟩
  · rintro ⟨f, hf⟩
    obtain ⟨hcode, hrange⟩ := unusedImport?_eq_some hf
    exact ⟨f, List.mem_filterMap.mpr ⟨i, hi, hf⟩, hcode, hrange⟩

/-- The alias of the import is reported. -/
def AliasReported (text : String) (fields : String → Option (List String)) (i : Import) : Prop :=
  ∃ clause, i.aliasClause? = some clause ∧
    Reported text fields .unusedAlias clause.significantRange

theorem aliasReported_iff (fields : String → Option (List String))
    (hi : i ∈ (SourceFile.ofTree (parse text).tree).imports) :
    AliasReported text fields i ↔
      ∃ name, i.alias? = some name ∧ ¬ InBody (parse text).tree (IsQualifiedBy name) := by
  have hfile := isFile_parse text
  have hcheck : (unusedAliases, LintCode.unusedAlias.checkNumber) ∈ checks.zipIdx := by
    simp [checks, LintCode.checkNumber]
  constructor
  · rintro ⟨clause, hclause, hreported⟩
    obtain ⟨f, hf, -, hrange⟩ := (reported_iff_mem_check hcheck).mp hreported
    obtain ⟨other, hother, hf⟩ := List.mem_filterMap.mp hf
    obtain ⟨clause', hclause', -, hrange'⟩ := unusedAlias?_eq_some hf
    rw [hrange'] at hrange
    obtain ⟨hchild, hnode, hkind⟩ := mem_nodes_of_aliasClause hi hclause
    obtain ⟨hchild', hnode', hkind'⟩ := mem_nodes_of_aliasClause hother hclause'
    obtain rfl := eq_of_significantRange (isParsed_parse text) hfile areApart_asClause hnode' hkind'
      hnode hkind hrange
    have hparent := (Site.parent?_of_mem_children hchild').symm.trans
      (Site.parent?_of_mem_children hchild)
    rw [← import_ext hother hi (Option.some.inj hparent)]
    exact ((unusedAlias?_iff fields hfile).mp ⟨f, hf⟩).2
  · rintro ⟨name, hname, hunused⟩
    have hclause : i.aliasClause?.isSome = true := by
      obtain ⟨site, -, rfl⟩ := exists_import_site hi
      obtain ⟨token, htoken, -⟩ := Option.map_eq_some_iff.mp hname
      obtain ⟨clause, hclause, -⟩ := Option.bind_eq_some_iff.mp htoken
      exact Option.isSome_iff_exists.mpr ⟨clause, hclause⟩
    obtain ⟨f, hf⟩ := (unusedAlias?_iff fields hfile).mpr ⟨hclause, name, hname, hunused⟩
    obtain ⟨clause, hclause, hcode, hrange⟩ := unusedAlias?_eq_some hf
    exact ⟨clause, hclause, (reported_iff_mem_check hcheck).mpr
      ⟨f, List.mem_filterMap.mpr ⟨i, hi, hf⟩, hcode, hrange⟩⟩

/-- The check of exposed entries reports the entries of all lists that are not `(..)`. -/
theorem exists_mem_unusedImportedValues (h : tree.IsFile) :
    (∃ f ∈ unusedImportedValues (.ofTree tree fields), f.code = .unusedImportedValue ∧
        f.range = range) ↔
      ∃ i ∈ (SourceFile.ofTree tree).imports, ¬ ExposesAll i ∧
        ∃ item ∈ entries i, IsUnusedItem tree item ∧ item.site.significantRange = range := by
  constructor
  · rintro ⟨f, hf, -, rfl⟩
    obtain ⟨i, hi, hf⟩ := List.mem_flatMap.mp hf
    unfold unusedImportedValuesOf at hf
    split at hf
    · cases hf
    rename_i list hlist
    split at hf
    · cases hf
    rename_i hwildcard
    obtain ⟨item, hitem, hf⟩ := List.mem_filterMap.mp hf
    split at hf
    · cases hf
    rename_i hunused
    obtain rfl := Option.some.inj hf
    have hexposes : item ∈ entries i := mem_entries_iff.mpr ⟨list, hlist, hitem⟩
    have hverdict := entryUsed_eq_false_iff fields h hi hexposes
    refine ⟨i, hi, ?_, item, hexposes, hverdict.mp (Bool.eq_false_iff.mpr hunused), rfl⟩
    rintro ⟨other, hother, hall⟩
    obtain rfl := Option.some.inj (hlist.symm.trans hother)
    exact hwildcard hall
  · rintro ⟨i, hi, hall, item, hentry, hunused, rfl⟩
    obtain ⟨list, hlist, hitem⟩ := mem_entries_iff.mp hentry
    have hwildcard : list.wildcard = false := Bool.eq_false_iff.mpr fun h => hall ⟨list, hlist, h⟩
    have hkept : ¬ exposedItemUsed (.ofTree tree fields) item = true := by
      rw [(entryUsed_eq_false_iff fields h hi hentry).mpr hunused]
      decide
    obtain ⟨f, hf, hcode, hrange⟩ : ∃ f ∈ unusedImportedValuesOf (.ofTree tree fields) i,
        f.code = .unusedImportedValue ∧ f.range = item.site.significantRange := by
      rw [unusedImportedValuesOf, hlist]
      simp only [hwildcard, Bool.false_eq_true, if_false]
      exact ⟨_, List.mem_filterMap.mpr ⟨item, hitem, if_neg hkept⟩, rfl, rfl⟩
    exact ⟨f, List.mem_flatMap.mpr ⟨i, hi, hf⟩, hcode, hrange⟩

theorem reported_item_iff (fields : String → Option (List String))
    (hi : i ∈ (SourceFile.ofTree (parse text).tree).imports) (hitem : item ∈ entries i) :
    Reported text fields .unusedImportedValue item.site.significantRange ↔
      ¬ ExposesAll i ∧ IsUnusedItem (parse text).tree item := by
  have hfile := isFile_parse text
  have hcheck : (unusedImportedValues, LintCode.unusedImportedValue.checkNumber) ∈
      checks.zipIdx := by
    simp [checks, LintCode.checkNumber]
  rw [reported_iff_mem_check hcheck, exists_mem_unusedImportedValues hfile]
  constructor
  · rintro ⟨i', hi', hall, item', hitem', hunused, hrange⟩
    obtain ⟨hof, ⟨list, hlist, hchild⟩, hnode, hkind⟩ := mem_nodes_of_mem_entries hi hitem
    obtain ⟨hof', ⟨list', hlist', hchild'⟩, hnode', hkind'⟩ := mem_nodes_of_mem_entries hi' hitem'
    -- an entry with this range is this entry, and its import is this import
    have hsite := eq_of_significantRange (isParsed_parse text) hfile areApart_exposedItem hnode'
      hkind' hnode hkind hrange
    rw [hsite] at hof' hchild'
    obtain rfl := Option.some.inj (hof'.symm.trans hof)
    obtain rfl := Option.some.inj ((Site.parent?_of_mem_children hchild').symm.trans
      (Site.parent?_of_mem_children hchild))
    have himport := Option.some.inj ((Site.parent?_of_mem_children hlist').symm.trans
      (Site.parent?_of_mem_children hlist))
    rw [import_ext hi' hi himport] at hall
    exact ⟨hall, hunused⟩
  · rintro ⟨hall, hunused⟩
    exact ⟨i, hi, hall, item, hitem, hunused, rfl⟩

-- ---------------------------------------------------------------------------
-- Files with one body
-- ---------------------------------------------------------------------------

/-- The items of the file that are neither its header nor imports. -/
def bodyItems (tree : Tree) : List Site :=
  (Site.root tree).children.filter (!Kind.ofModule.contains ·.kind)

theorem inBody_iff {P : Site → Prop} :
    InBody tree P ↔ ∃ item ∈ bodyItems tree, ∃ place ∈ item.nodes, P place := by
  simp [InBody, bodyItems, and_assoc]

theorem refersTo_copy {place' : Site} (h : place.IsCopy place') (hrefers : RefersTo name place) :
    RefersTo name place' := by
  cases hrefers with
  | @value qid hkind hqid hqidKind hname =>
    have hchildren := Site.forall₂_children h.tree_eq
    generalize place.children = children, hothers : place'.children = children' at hqid hchildren
    cases hchildren with
    | nil => cases hqid
    | @cons _ qid' _ _ hsame =>
      obtain rfl := Option.some.inj hqid
      have hfirst : place'.children.head? = some qid' := by rw [hothers]; rfl
      refine .value (h.kind_eq.symm.trans hkind) hfirst ?_ ?_
      · exact (congrArg Tree.kind hsame).symm.trans hqidKind
      · exact (congrArg Tree.nameSegments hsame).symm.trans hname
  | @recordBase record hkind hrecord hrecordKind hname =>
    have hparent := h.parent_eq
    rw [hrecord, Option.map_some, eq_comm, Option.map_eq_some_iff] at hparent
    obtain ⟨record', hrecord', hsame⟩ := hparent
    refine .recordBase (h.kind_eq.symm.trans hkind) hrecord' (hsame.trans hrecordKind) ?_
    rw [← h.tree_eq, hname]

theorem isQualifiedBy_copy {place' : Site} (h : place.IsCopy place')
    (hname : IsQualifiedBy qualifier place) : IsQualifiedBy qualifier place' where
  kind := h.kind_eq ▸ hname.kind
  length := h.tree_eq ▸ hname.length
  eq := h.tree_eq ▸ hname.eq

theorem isUpperName_copy {place' : Site} (h : place.IsCopy place')
    (hname : IsUpperName name place) : IsUpperName name place' :=
  ⟨h.kind_eq ▸ hname.kind, h.tree_eq ▸ hname.eq⟩

theorem isOperator_copy {place' : Site} (h : place.IsCopy place')
    (hname : IsOperator name place) : IsOperator name place' :=
  ⟨h.kind_eq ▸ hname.kind, h.tree_eq ▸ hname.eq⟩

/-- Imports with equal trees list the same entries. -/
theorem forall₂_entries (h : site.SameTree site') :
    List.Forall₂ ExposedItem.SameAs (entries (.ofSite site)) (entries (.ofSite site')) := by
  have hlist := rel_exposingIn? h
  unfold entries Import.ofSite
  generalize exposingIn? site = list, exposingIn? site' = list' at hlist ⊢
  cases hlist with
  | none => exact .nil
  | some hlist => simpa using hlist.items

theorem exposesAll_of_sameTree (h : site.SameTree site') (hall : ExposesAll (.ofSite site)) :
    ExposesAll (.ofSite site') := by
  have hlist := rel_exposingIn? h
  unfold ExposesAll Import.ofSite at hall ⊢
  generalize exposingIn? site = list, exposingIn? site' = list' at hlist hall ⊢
  cases hlist with
  | none => obtain ⟨_, hnone, -⟩ := hall; cases hnone
  | some hlist =>
    obtain ⟨_, hsome, hwildcard⟩ := hall
    obtain rfl := Option.some.inj hsome
    exact ⟨_, rfl, hlist.wildcard_eq ▸ hwildcard⟩

theorem exists_of_forall₂ {items items' : List ExposedItem}
    (h : List.Forall₂ ExposedItem.SameAs items items') (hitem : item' ∈ items') :
    ∃ item ∈ items, item.SameAs item' := by
  induction h with
  | nil => cases hitem
  | @cons first _ items _ hfirst _ ih =>
    obtain rfl | hitem := List.mem_cons.mp hitem
    · exact ⟨first, List.mem_cons_self, hfirst⟩
    · obtain ⟨item, hmem, hsame⟩ := ih hitem
      exact ⟨item, List.mem_cons_of_mem _ hmem, hsame⟩

theorem forall₂_imp_of_mem {R S : ExposedItem → ExposedItem → Prop}
    {items items' : List ExposedItem} (h : List.Forall₂ R items items')
    (hS : ∀ item ∈ items, ∀ item' ∈ items', R item item' → S item item') :
    List.Forall₂ S items items' := by
  obtain ⟨hlength, hrelated⟩ := List.forall₂_iff_zip.mp h
  refine List.forall₂_iff_zip.mpr ⟨hlength, fun hpair => ?_⟩
  obtain ⟨hitem, hitem'⟩ := List.of_mem_zip hpair
  exact hS _ hitem _ hitem' (hrelated hpair)

section SameBody

variable (hfile : tree.kind = tree'.kind)
  (hbody : (bodyItems tree).map Site.tree = (bodyItems tree').map Site.tree)
include hfile hbody

theorem inBody_of_sameBody {P : Site → Prop}
    (hP : ∀ place place' : Site, place.IsCopy place' → P place → P place') (h : InBody tree P) :
    InBody tree' P := by
  rw [inBody_iff] at h ⊢
  obtain ⟨item, hitem, place, hplace, huse⟩ := h
  have htree := hbody ▸ List.mem_map_of_mem hitem
  obtain ⟨item', hitem', heq⟩ := List.mem_map.mp htree
  have hcopy : item.IsCopy item' := by
    refine ⟨heq.symm, ?_⟩
    rw [Site.parent?_of_mem_children (List.mem_filter.mp hitem).1,
      Site.parent?_of_mem_children (List.mem_filter.mp hitem').1]
    exact congrArg some hfile
  obtain ⟨place', hplace', hcopy'⟩ := hcopy.exists_node hplace
  exact ⟨item', hitem', place', hplace', hP place place' hcopy' huse⟩

theorem isUsed_of_sameBody (h : IsUsed tree sort name) : IsUsed tree' sort name := by
  cases sort with
  | value => exact inBody_of_sameBody hfile hbody (fun _ _ hcopy => refersTo_copy hcopy) h
  | type => exact inBody_of_sameBody hfile hbody (fun _ _ hcopy => isUpperName_copy hcopy) h
  | operator => exact inBody_of_sameBody hfile hbody (fun _ _ hcopy => isOperator_copy hcopy) h

theorem isUnusedItem_of_sameBody (hitem : item.SameAs item') (h : IsUnusedItem tree item) :
    IsUnusedItem tree' item' := by
  obtain ⟨hconstructors, name, hname, hunused⟩ := h
  refine ⟨hitem.constructors_eq ▸ hconstructors, name, hitem.name_eq ▸ hname, fun hused => ?_⟩
  rw [← hitem.sort_eq] at hused
  exact hunused (isUsed_of_sameBody hfile.symm hbody.symm hused)

theorem isUnusedImport_of_sameBody (hsite : site.SameTree site')
    (h : IsUnusedImport tree (.ofSite site)) : IsUnusedImport tree' (.ofSite site') := by
  obtain ⟨⟨module, hmodule, hunqualified⟩, hall, hitems⟩ := h
  refine ⟨⟨module, (capitalNameIn?_eq hsite).symm.trans hmodule, fun hqualified => ?_⟩,
    fun hall' => hall (exposesAll_of_sameTree hsite.symm hall'), fun item' hitem' => ?_⟩
  · rw [← alias?_eq hsite] at hqualified
    exact hunqualified (inBody_of_sameBody hfile.symm hbody.symm
      (fun _ _ hcopy => isQualifiedBy_copy hcopy) hqualified)
  · obtain ⟨item, hitem, hsame⟩ := exists_of_forall₂ (forall₂_entries hsite) hitem'
    exact isUnusedItem_of_sameBody hfile hbody hsame (hitems item hitem)

end SameBody

/-- The reports on two imports are the same, entry by entry. -/
structure SameReports (text : String) (fields : String → Option (List String)) (i : Import)
    (text' : String) (fields' : String → Option (List String)) (i' : Import) : Prop where
  import_iff : Reported text fields .unusedImport i.site.significantRange ↔
    Reported text' fields' .unusedImport i'.site.significantRange
  alias_iff : AliasReported text fields i ↔ AliasReported text' fields' i'
  items : List.Forall₂ (fun item item' =>
      Reported text fields .unusedImportedValue item.site.significantRange ↔
        Reported text' fields' .unusedImportedValue item'.site.significantRange)
    (entries i) (entries i')

/-- Of what is around an import only the body of the file counts. -/
theorem sameReports_of_sameBody (hbody : (bodyItems (parse text).tree).map Site.tree =
      (bodyItems (parse text').tree).map Site.tree)
    (hi : i ∈ (SourceFile.ofTree (parse text).tree).imports)
    (hi' : i' ∈ (SourceFile.ofTree (parse text').tree).imports)
    (hsite : i.site.tree = i'.site.tree) : SameReports text fields i text' fields' i' := by
  have hfile : (parse text).tree.kind = (parse text').tree.kind :=
    (isFile_parse text).kind_eq.trans (isFile_parse text').kind_eq.symm
  have hreported {item : ExposedItem} (hitem : item ∈ entries i) :=
    reported_item_iff fields hi hitem
  have hreported' {item : ExposedItem} (hitem : item ∈ entries i') :=
    reported_item_iff fields' hi' hitem
  have himport := reported_unusedImport_iff fields hi
  have himport' := reported_unusedImport_iff fields' hi'
  have halias := aliasReported_iff fields hi
  have halias' := aliasReported_iff fields' hi'
  obtain ⟨site, -, rfl⟩ := exists_import_site hi
  obtain ⟨site', -, rfl⟩ := exists_import_site hi'
  have hall : ExposesAll (.ofSite site) ↔ ExposesAll (.ofSite site') :=
    ⟨exposesAll_of_sameTree hsite, exposesAll_of_sameTree hsite.symm⟩
  refine ⟨?_, ?_,
    forall₂_imp_of_mem (forall₂_entries hsite) fun item hitem item' hitem' hsame => ?_⟩
  · rw [himport, himport']
    exact ⟨isUnusedImport_of_sameBody hfile hbody hsite,
      isUnusedImport_of_sameBody hfile.symm hbody.symm hsite.symm⟩
  · have hqualified (name : String) : InBody (parse text).tree (IsQualifiedBy name) ↔
        InBody (parse text').tree (IsQualifiedBy name) :=
      ⟨inBody_of_sameBody hfile hbody fun _ _ hcopy => isQualifiedBy_copy hcopy,
        inBody_of_sameBody hfile.symm hbody.symm fun _ _ hcopy => isQualifiedBy_copy hcopy⟩
    have hname : (Import.ofSite site).alias? = (Import.ofSite site').alias? := alias?_eq hsite
    rw [halias, halias', hname]
    simp only [hqualified]
  · rw [hreported hitem, hreported' hitem', hall]
    exact and_congr_right' ⟨isUnusedItem_of_sameBody hfile hbody hsame,
      isUnusedItem_of_sameBody hfile.symm hbody.symm hsame.symm⟩

-- ---------------------------------------------------------------------------
-- The result
-- ---------------------------------------------------------------------------

/-- What is reported of an import. -/
structure ReportsImport (text : String) (fields : String → Option (List String)) (i : Import) :
    Prop where
  alias_iff : AliasReported text fields i ↔
    ∃ name, i.alias? = some name ∧ ¬ InBody (parse text).tree (IsQualifiedBy name)
  item_iff : ∀ item ∈ entries i,
    Reported text fields .unusedImportedValue item.site.significantRange ↔
      ¬ ExposesAll i ∧ IsUnusedItem (parse text).tree item
  import_iff : Reported text fields .unusedImport i.site.significantRange ↔
    IsUnusedImport (parse text).tree i
  /-- Nothing that an unused import introduces is left unreported. -/
  alias_of_import : Reported text fields .unusedImport i.site.significantRange →
    i.alias?.isSome → AliasReported text fields i
  items_of_import : Reported text fields .unusedImport i.site.significantRange →
    ∀ item ∈ entries i, Reported text fields .unusedImportedValue item.site.significantRange

theorem lintTree_reportsImports (text : String) (fields : String → Option (List String)) :
    (∀ i ∈ (SourceFile.ofTree (parse text).tree).imports, ReportsImport text fields i) ∧
      ∀ (text' : String) (fields' : String → Option (List String)),
        (bodyItems (parse text).tree).map Site.tree =
          (bodyItems (parse text').tree).map Site.tree →
        ∀ i ∈ (SourceFile.ofTree (parse text).tree).imports,
          ∀ i' ∈ (SourceFile.ofTree (parse text').tree).imports, i.site.tree = i'.site.tree →
            SameReports text fields i text' fields' i' := by
  refine ⟨fun i hi => ?_, fun text' fields' hbody i hi i' hi' hsite =>
    sameReports_of_sameBody hbody hi hi' hsite⟩
  have himport := reported_unusedImport_iff fields hi
  have halias := aliasReported_iff fields hi
  have hitem {item : ExposedItem} (hitem : item ∈ entries i) :=
    reported_item_iff fields hi hitem
  refine ⟨halias, fun item => hitem, himport, fun hreported hsome => ?_,
    fun hreported item hmem => ?_⟩
  · obtain ⟨⟨module, -, hunqualified⟩, -, -⟩ := himport.mp hreported
    obtain ⟨name, hname⟩ := Option.isSome_iff_exists.mp hsome
    rw [hname] at hunqualified
    exact halias.mpr ⟨name, hname, hunqualified⟩
  · obtain ⟨-, hall, hunused⟩ := himport.mp hreported
    exact (hitem hmem).mpr ⟨hall, hunused item hmem⟩

theorem lintTree_reportsImports_furtherImport :
    ∃ i ∈ (SourceFile.ofTree (parse "import A as B\nx = 1\n").tree).imports,
      ∃ i' ∈ (SourceFile.ofTree (parse "import C\nimport A as B\nx = 1\n").tree).imports,
        i.alias? = some "B" ∧
          SameReports "import A as B\nx = 1\n" (fun _ => none) i
            "import C\nimport A as B\nx = 1\n" (fun _ => none) i' := by
  have hbody : (bodyItems (parse "import A as B\nx = 1\n").tree).map Site.tree =
      (bodyItems (parse "import C\nimport A as B\nx = 1\n").tree).map Site.tree := by
    decide +kernel
  obtain ⟨-, hsame⟩ := lintTree_reportsImports "import A as B\nx = 1\n" (fun _ => none)
  have hi := List.head_mem (l := (SourceFile.ofTree (parse "import A as B\nx = 1\n").tree).imports)
    (by decide +kernel)
  have hi' := List.getLast_mem
    (l := (SourceFile.ofTree (parse "import C\nimport A as B\nx = 1\n").tree).imports)
    (by decide +kernel)
  exact ⟨_, hi, _, hi', by decide +kernel, hsame _ _ hbody _ hi _ hi' (by decide +kernel)⟩

-- A type with its constructors keeps the first import. The second is used without its alias only.
example :
    let text := "import A exposing (T(..), f)\nimport B as C\nx = B.y\n"
    (lintTree (parse text).tree (.ofText text) (fun _ => none) []).map
      (fun d => (d.code, d.span.start.line)) =
      [("unused_import", 1), ("unused_imported_value", 0), ("unused_alias", 1)] := by
  decide +kernel

end ElmLint.Lint

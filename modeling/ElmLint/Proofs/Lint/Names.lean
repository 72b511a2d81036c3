import ElmLint.Proofs.Lint.Reports

/-!
# Reports of names

The checks of imports, of declarations and of bindings report a name, an entry or a clause, each
taken from a node of its own.
-/

namespace ElmLint.Lint

open Syntax

variable {tree : Tree} {s : Subject} {fields : String → Option (List String)} {f : Finding}
  {i : Import}

-- ---------------------------------------------------------------------------
-- Imports
-- ---------------------------------------------------------------------------

theorem unusedImport?_eq_some (h : unusedImport? s i = some f) :
    f.code = .unusedImport ∧ f.range = i.site.significantRange := by
  unfold unusedImport? at h
  split at h
  · cases h
  split at h
  · split at h
    · cases h
    split at h
    · cases h
    · obtain rfl := Option.some.inj h
      exact ⟨rfl, rfl⟩
  · cases h

theorem unusedAlias?_eq_some (h : unusedAlias? s i = some f) :
    ∃ clause, i.aliasClause? = some clause ∧ f.code = .unusedAlias ∧
      f.range = clause.significantRange := by
  unfold unusedAlias? at h
  split at h
  · rename_i clause _ hclause
    split at h
    · cases h
    · obtain rfl := Option.some.inj h
      exact ⟨_, hclause, rfl, rfl⟩
  · cases h

/-- An import, whatever is reported of it, has words. -/
theorem words_of_import (h : tree.IsParsed) {site : Site}
    (hsite : site ∈ (Site.root tree).childrenOf .importClause) :
    site ∈ (Site.root tree).descendants ∧ site.tree.Filled ∧ site.words ≠ [] := by
  have hmem := (mem_childrenOf hsite).1
  exact ⟨descendants_of_mem_children hmem, filled_of_mem_items h hmem, words_of_mem_items h hmem⟩

theorem isReport_unusedImports (h : tree.IsParsed) :
    IsReport (.root tree) 0 (unusedImports (.ofTree tree fields)) := by
  have himports : unusedImports (.ofTree tree fields) =
      ((Site.root tree).childrenOf .importClause).filterMap
        (unusedImport? (.ofTree tree fields) ∘ Import.ofSite) := List.filterMap_map
  rw [himports]
  refine isReport_filterMap h.spelled (pairwise_childrenOf _ _)
    (fun site hsite => (words_of_import h hsite).1) fun site hsite f hf => ?_
  obtain ⟨hcode, hrange⟩ := unusedImport?_eq_some hf
  rw [hcode, hrange]
  exact ⟨rfl, Site.marks_significantRange (words_of_import h hsite).2.2⟩

theorem isReport_unusedAliases (h : tree.IsParsed) :
    IsReport (.root tree) 2 (unusedAliases (.ofTree tree fields)) := by
  have himports : unusedAliases (.ofTree tree fields) =
      ((Site.root tree).childrenOf .importClause).filterMap
        (unusedAlias? (.ofTree tree fields) ∘ Import.ofSite) := List.filterMap_map
  rw [himports]
  refine isReport_filterMap h.spelled (pairwise_childrenOf _ _)
    (fun site hsite => (words_of_import h hsite).1) fun site hsite f hf => ?_
  obtain ⟨clause, hclause, hcode, hrange⟩ := unusedAlias?_eq_some hf
  obtain ⟨hmem, hkind⟩ := mem_child? hclause
  have hwords := words_of_mem_children (words_of_import h hsite).2.1 hmem
    (.inl (by rw [hkind]; decide))
  rw [hcode, hrange]
  exact ⟨rfl, (Site.marks_significantRange hwords).descendants (descendants_of_mem_children hmem)⟩

/-- The unused items of an import stand in its list. -/
theorem isReport_unusedImportedValuesOf (h : tree.IsParsed) {site : Site}
    (hsite : site ∈ (Site.root tree).childrenOf .importClause) :
    IsReport site 1 (unusedImportedValuesOf s (Import.ofSite site)) := by
  obtain ⟨hdescendant, hfilled, -⟩ := words_of_import h hsite
  unfold unusedImportedValuesOf
  split
  · exact .nil
  rename_i list hlist
  obtain ⟨listSite, hchild, rfl⟩ := Option.map_eq_some_iff.mp hlist
  split
  · exact .nil
  obtain ⟨hmem, hkind⟩ := mem_child? hchild
  have hlistDescendant := descendants_of_mem_children hmem
  have hspelled := h.spelled.descendants hdescendant
  rw [ExposingList.ofSite, List.filterMap_filterMap]
  refine isReport_filterMap hspelled (pairwise_children listSite)
    (fun item hitem => Site.mem_descendants_trans hlistDescendant
      (descendants_of_mem_children hitem)) fun item hitem f hf => ?_
  obtain ⟨exposed, hexposed, hf⟩ := Option.bind_eq_some_iff.mp hf
  obtain ⟨sort, -, rfl⟩ := Option.map_eq_some_iff.mp hexposed
  split at hf
  · cases hf
  obtain rfl := Option.some.inj hf
  refine ⟨rfl, Site.marks_significantRange ?_⟩
  -- a list that has an item is not missing
  obtain hlistFilled | ⟨-, hempty⟩ := filled_of_mem_parts hfilled (mem_children hmem).1
  · exact words_of_mem_children hlistFilled hitem (.inr (by rw [hkind]; decide))
  · have hnone := Site.tree_mem_children (mem_children hitem).1
    rw [hempty] at hnone
    cases hnone

theorem isReport_unusedImportedValues (h : tree.IsParsed) :
    IsReport (.root tree) 1 (unusedImportedValues (.ofTree tree fields)) := by
  have himports : unusedImportedValues (.ofTree tree fields) =
      ((Site.root tree).childrenOf .importClause).flatMap
        fun site => unusedImportedValuesOf (.ofTree tree fields) (.ofSite site) :=
    List.flatMap_map _ _ _
  rw [himports]
  exact isReport_flatMap h.spelled (pairwise_childrenOf _ _)
    (fun site hsite => (words_of_import h hsite).1)
    fun site hsite => isReport_unusedImportedValuesOf h hsite

-- ---------------------------------------------------------------------------
-- Declarations
-- ---------------------------------------------------------------------------

/-- What is reported on the name of a node stands in the node. -/
theorem marks_of_token? {site token : Site} {kind : Kind} (h : site.token? kind = some token)
    (hkind : kind.isTrivia = false) : site.Marks token.range :=
  Site.marks_word (mem_words_of_token? h hkind).2.2.2

theorem isReport_unnecessaryPortModule (h : tree.IsParsed) :
    IsReport (.root tree) 11 (unnecessaryPortModule (.ofTree tree fields)) := by
  unfold unnecessaryPortModule
  split
  · exact .nil
  rename_i header hheader
  split
  · obtain ⟨site, hsite, rfl⟩ := Option.map_eq_some_iff.mp hheader
    have hmem := (mem_child? hsite).1
    have hmarks := Site.marks_significantRange (words_of_mem_items h hmem)
    exact IsReport.single (f := .atSite .unnecessaryPortModule _ site)
      (hmarks.descendants (descendants_of_mem_children hmem))
  · exact .nil

theorem isReport_unusedTypeAliases (h : tree.IsParsed) :
    IsReport (.root tree) 13 (unusedTypeAliases (.ofTree tree fields)) := by
  unfold unusedTypeAliases
  split
  · exact .nil
  have haliases : (Subject.ofTree tree fields).file.aliases =
      ((Site.root tree).childrenOf .typeAliasDeclaration).map TypeAlias.ofSite := rfl
  rw [haliases, List.filterMap_map]
  refine isReport_filterMap h.spelled (pairwise_childrenOf _ _)
    (fun site hsite => descendants_of_mem_children (mem_childrenOf hsite).1)
    fun site hsite f hf => ?_
  simp only [Function.comp_apply, unusedTypeAlias?] at hf
  split at hf
  · cases hf
  rename_i token htoken
  split at hf
  · cases hf
  · obtain rfl := Option.some.inj hf
    exact ⟨rfl, marks_of_token? htoken rfl⟩

theorem isReport_unusedVariantsOf {site : Site} (hspelled : site.IsSpelled) :
    IsReport site 14 (unusedVariantsOf s (TypeDeclaration.ofSite site)) := by
  unfold unusedVariantsOf
  split
  · exact .nil
  have hvariants : (TypeDeclaration.ofSite site).variants =
      (site.childrenOf .unionVariant).map UnionVariant.ofSite := rfl
  rw [hvariants, List.filterMap_map]
  refine isReport_filterMap hspelled (pairwise_childrenOf _ _)
    (fun variant hvariant => descendants_of_mem_children (mem_childrenOf hvariant).1)
    fun variant hvariant f hf => ?_
  simp only [Function.comp_apply, unusedVariant?] at hf
  split at hf
  · cases hf
  rename_i token htoken
  split at hf
  · cases hf
  · obtain rfl := Option.some.inj hf
    exact ⟨rfl, marks_of_token? htoken rfl⟩

theorem isReport_unusedValueConstructors (h : tree.IsParsed) :
    IsReport (.root tree) 14 (unusedValueConstructors (.ofTree tree fields)) := by
  unfold unusedValueConstructors
  split
  · exact .nil
  have htypes : (Subject.ofTree tree fields).file.types =
      ((Site.root tree).childrenOf .typeDeclaration).map TypeDeclaration.ofSite := rfl
  rw [htypes, List.flatMap_map]
  have hmem (site : Site) (hsite : site ∈ (Site.root tree).childrenOf .typeDeclaration) :
      site ∈ (Site.root tree).descendants :=
    descendants_of_mem_children (mem_childrenOf hsite).1
  exact isReport_flatMap h.spelled (pairwise_childrenOf _ _) hmem
    fun site hsite => isReport_unusedVariantsOf (h.spelled.descendants (hmem site hsite))

-- ---------------------------------------------------------------------------
-- Bindings
-- ---------------------------------------------------------------------------

/-- A binding's name is a token of the node that introduces it. -/
theorem token_of_bindingAt? {site : Site} {b : Binding} (h : bindingAt? site = some b) :
    site.token? .lowerIdent = some b.token := by
  unfold bindingAt? at h
  split at h
  · obtain ⟨token, htoken, h⟩ := Option.bind_eq_some_iff.mp h
    obtain ⟨region, -, h⟩ := Option.bind_eq_some_iff.mp h
    obtain rfl := Option.some.inj h
    exact htoken
  · obtain ⟨declaration, -, h⟩ := Option.bind_eq_some_iff.mp h
    obtain ⟨region, -, h⟩ := Option.bind_eq_some_iff.mp h
    obtain ⟨token, htoken, h⟩ := Option.bind_eq_some_iff.mp h
    obtain rfl := Option.some.inj h
    exact htoken
  · cases h

theorem unusedPattern?_eq_some {site : Site}
    (h : (bindingAt? site).bind unusedPattern? = some f) :
    ∃ token, site.token? .lowerIdent = some token ∧ f.code = .unusedPattern ∧
      f.range = token.range := by
  obtain ⟨b, hb, hf⟩ := Option.bind_eq_some_iff.mp h
  unfold unusedPattern? at hf
  split at hf
  · obtain rfl := Option.some.inj hf
    exact ⟨b.token, token_of_bindingAt? hb, rfl, rfl⟩
  · cases hf

/-- A node inside another introduces another name than it. -/
theorem ne_of_unusedPattern (hspelled : Site.IsSpelled (.root tree)) {a b : Site}
    (ha : a ∈ (Site.root tree).nodes) (hb : b ∈ (Site.root tree).nodes)
    (horder : b ∈ a.inner ∨ a.stop ≤ b.start) {token token' : Site}
    (htoken : a.token? .lowerIdent = some token) (htoken' : b.token? .lowerIdent = some token') :
    token.range ≠ token'.range := by
  obtain ⟨ha, -⟩ := List.mem_filter.mp ha
  obtain ⟨hb, hnode⟩ := List.mem_filter.mp hb
  have hmarks := marks_of_token? htoken rfl
  have hmarks' := marks_of_token? htoken' rfl
  obtain hinner | hstop := horder
  · obtain ⟨hpart, hleaf, hkind, -⟩ := mem_words_of_token? htoken rfl
    exact Site.ne_of_token (hspelled.descendants ha) hpart hleaf (by rw [hkind]; rfl)
      (Nat.le_refl _) (Nat.le_refl _) hinner hnode hmarks'
  · have hbounds := hmarks.bounds (hspelled.descendants ha)
    have hbounds' := hmarks'.bounds (hspelled.descendants hb)
    intro heq
    rw [heq] at hbounds
    omega

/-- The name of a top-level value stands in its declaration. -/
theorem isReport_unusedTopLevels (h : tree.IsParsed) :
    IsReport (.root tree) 3
        ((Subject.ofTree tree fields).file.values.filterMap (unusedTopLevel? s)) ∧
      ∀ f ∈ (Subject.ofTree tree fields).file.values.filterMap (unusedTopLevel? s),
        f.code = .unusedTopLevel := by
  have hvalues : (Subject.ofTree tree fields).file.values =
      ((Site.root tree).childrenOf .valueDeclaration).map ValueDeclaration.ofSite := rfl
  have htoken (d : ValueDeclaration) {f : Finding} (hf : unusedTopLevel? s d = some f) :
      ∃ token, d.nameToken? = some token ∧ f.code = .unusedTopLevel ∧ f.range = token.range := by
    unfold unusedTopLevel? at hf
    split at hf
    · cases hf
    rename_i token htoken
    split at hf
    · cases hf
    split at hf
    · cases hf
    · obtain rfl := Option.some.inj hf
      exact ⟨token, htoken, rfl, rfl⟩
  rw [hvalues, List.filterMap_map]
  constructor
  · refine isReport_filterMap h.spelled (pairwise_childrenOf _ _)
      (fun site hsite => descendants_of_mem_children (mem_childrenOf hsite).1)
      fun site hsite f hf => ?_
    obtain ⟨token, hname, hcode, hrange⟩ := htoken _ hf
    obtain ⟨left, hleft, hname⟩ := Option.bind_eq_some_iff.mp hname
    rw [hcode, hrange]
    exact ⟨rfl, (marks_of_token? hname rfl).descendants
      (descendants_of_mem_children (mem_child? hleft).1)⟩
  · intro f hf
    obtain ⟨site, -, hf⟩ := List.mem_filterMap.mp hf
    exact (htoken _ hf).choose_spec.2.1

theorem isReport_unusedBindings (h : tree.IsParsed) :
    IsReport (.root tree) 3 (unusedBindings (.ofTree tree fields)) := by
  unfold unusedBindings
  extract_lets patterns topLevel
  have hpattern {f : Finding} (hf : f ∈ patterns) :
      f.code = .unusedPattern ∧ (Site.root tree).Marks f.range := by
    rw [show patterns = _ from List.filterMap_filterMap] at hf
    obtain ⟨site, hsite, hf⟩ := List.mem_filterMap.mp hf
    obtain ⟨token, htoken, hcode, hrange⟩ := unusedPattern?_eq_some hf
    refine ⟨hcode, ?_⟩
    rw [hrange]
    exact (marks_of_token? htoken rfl).descendants (List.mem_filter.mp hsite).1
  have hpatterns : patterns.Pairwise fun f g => f.code = g.code → f.range ≠ g.range := by
    rw [show patterns = _ from List.filterMap_filterMap, List.pairwise_filterMap]
    refine (Site.pairwise_nodes (.root tree)).imp_of_mem fun {a b} ha hb horder f hf g hg _ => ?_
    obtain ⟨token, htoken, -, hrange⟩ := unusedPattern?_eq_some hf
    obtain ⟨token', htoken', -, hrange'⟩ := unusedPattern?_eq_some hg
    rw [hrange, hrange']
    exact ne_of_unusedPattern h.spelled ha hb horder htoken htoken'
  have htopLevel : IsReport (.root tree) 3 topLevel ∧ ∀ f ∈ topLevel, f.code = .unusedTopLevel := by
    simp only [topLevel]
    split
    · exact ⟨.nil, nofun⟩
    · exact isReport_unusedTopLevels h
  have hall : (patterns ++ topLevel).Pairwise fun f g => f.code = g.code → f.range ≠ g.range := by
    refine List.pairwise_append.mpr ⟨hpatterns, htopLevel.1.pairwise.imp (·.differs), ?_⟩
    intro f hf g hg heq
    rw [(hpattern hf).1, htopLevel.2 g hg] at heq
    cases heq
  refine ⟨fun f hf => ?_, fun f hf => ?_, ?_⟩
  · obtain hf | hf := List.mem_append.mp (List.mem_mergeSort.mp hf)
    · rw [(hpattern hf).1]
      rfl
    · exact htopLevel.1.number f hf
  · obtain hf | hf := List.mem_append.mp (List.mem_mergeSort.mp hf)
    · exact (hpattern hf).2
    · exact htopLevel.1.marks f hf
  · have hdiffer := ((List.mergeSort_perm (patterns ++ topLevel)
      fun a b => a.range.start ≤ b.range.start).pairwise_iff
        (fun {f g} hne heq => (hne heq.symm).symm)).mpr hall
    have hsorted :
        ((patterns ++ topLevel).mergeSort fun a b => a.range.start ≤ b.range.start).Pairwise
          fun a b => decide (a.range.start ≤ b.range.start) = true :=
      List.pairwise_mergeSort (by simpa using fun a b c => Nat.le_trans)
        (by simpa using fun a b => Nat.le_total _ _) (patterns ++ topLevel)
    refine (hdiffer.and hsorted).imp fun ⟨hne, hle⟩ => ⟨hne, .inl (by simpa using hle)⟩

end ElmLint.Lint

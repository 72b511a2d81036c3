import ElmLint.Lint.Check
import ElmLint.Proofs.Syntax.ParsedPlaces

/-!
# What a check reports

A report is the list of findings of one check. Its ranges go from word to word of the file, no two
findings of one code have the same range, and they start one after another, except that a finding
on an operator chain may come in front of those in an earlier operand of this chain.
-/

namespace ElmLint

/-- Which check reports the code, in the order in which the checks run. -/
def LintCode.checkNumber : LintCode → Nat
  | .unusedImport => 0
  | .unusedImportedValue => 1
  | .unusedAlias => 2
  | .unusedPattern | .unusedTopLevel => 3
  | .mapNothingToNothing => 4
  | .booleanCaseExpr => 5
  | .dropConcatOfLists => 6
  | .dropConsOfItemAndList => 7
  | .useConsOverConcat => 8
  | .singleFieldRecord => 9
  | .unnecessaryListConcat => 10
  | .unnecessaryPortModule => 11
  | .noUncurriedPrefix => 12
  | .unusedTypeAlias => 13
  | .unusedValueConstructor => 14

/-- The code is reported on parts of operator chains. -/
def LintCode.isOnChains (code : LintCode) : Bool :=
  [.dropConcatOfLists, .dropConsOfItemAndList, .useConsOverConcat].contains code

namespace Lint

open Syntax

variable {root site part : Site} {tree : Tree} {f g : Finding} {number : Nat} {code : LintCode}
  {kind : Kind} {found : List Finding} {sites : List Site} {report : Site → List Finding}

/-- The first range starts with an operand of a chain, and the second lies in an earlier operand of
the same chain. -/
def LiesInEarlierOperand (root : Site) (range inner : ByteRange) : Prop :=
  ∃ chain ∈ root.nodes, chain.kind = .binOpExpr ∧ ∃ operand ∈ chain.children,
    ∃ first ∈ chain.children, operand.stop ≤ first.start ∧
      operand.significantRange.contains inner ∧ range.start = first.significantRange.start

/-- One finding may be reported in front of the other. -/
structure Precedes (root : Site) (f g : Finding) : Prop where
  differs : f.code = g.code → f.range ≠ g.range
  order : f.range.start ≤ g.range.start ∨
    f.code.isOnChains ∧ LiesInEarlierOperand root f.range g.range

structure IsReport (root : Site) (number : Nat) (found : List Finding) : Prop where
  number : ∀ f ∈ found, f.code.checkNumber = number
  marks : ∀ f ∈ found, root.Marks f.range
  pairwise : found.Pairwise (Precedes root)

theorem Precedes.of_lt (h : f.range.start < g.range.start) : Precedes root f g where
  differs _ heq := absurd (heq ▸ h) (Nat.lt_irrefl _)
  order := .inl (Nat.le_of_lt h)

/-- The findings in one place come before those in a place behind. -/
theorem Precedes.of_stop_le (hspelled : site.IsSpelled) (hspelled' : part.IsSpelled)
    (hf : site.Marks f.range) (hg : part.Marks g.range) (h : site.stop ≤ part.start) :
    Precedes root f g := by
  have hbounds := hf.bounds hspelled
  have hbounds' := hg.bounds hspelled'
  exact .of_lt (by omega)

-- ---------------------------------------------------------------------------
-- Reports on places that follow each other
-- ---------------------------------------------------------------------------

theorem IsReport.nil : IsReport root number [] := ⟨nofun, nofun, .nil⟩

/-- A single finding on a place. -/
theorem IsReport.single (hmarks : root.Marks f.range) : IsReport root f.code.checkNumber [f] :=
  ⟨List.forall_mem_singleton.mpr rfl, List.forall_mem_singleton.mpr hmarks,
    List.pairwise_singleton _ _⟩

/-- A report on a place is one on what is around it. -/
theorem IsReport.descendants (h : IsReport site number found) (hsite : site ∈ root.descendants) :
    IsReport root number found where
  number := h.number
  marks f hf := (h.marks f hf).descendants hsite
  pairwise := by
    refine h.pairwise.imp fun hprecedes => ⟨hprecedes.differs, ?_⟩
    refine hprecedes.order.imp_right fun ⟨hcode, chain, hchain, hinside⟩ =>
      ⟨hcode, chain, ?_, hinside⟩
    obtain ⟨hchain, hnode⟩ := List.mem_filter.mp hchain
    exact List.mem_filter.mpr ⟨Site.mem_descendants_trans hsite hchain, hnode⟩

theorem isReport_flatMap (hspelled : root.IsSpelled) (hsites : sites.Pairwise (·.stop ≤ ·.start))
    (hmem : ∀ site ∈ sites, site ∈ root.descendants)
    (hreport : ∀ site ∈ sites, IsReport site number (report site)) :
    IsReport root number (sites.flatMap report) where
  number f hf := by
    obtain ⟨site, hsite, hf⟩ := List.mem_flatMap.mp hf
    exact (hreport site hsite).number f hf
  marks f hf := by
    obtain ⟨site, hsite, hf⟩ := List.mem_flatMap.mp hf
    exact ((hreport site hsite).marks f hf).descendants (hmem site hsite)
  pairwise := by
    refine List.pairwise_flatMap.mpr ⟨fun site hsite => ?_, ?_⟩
    · exact ((hreport site hsite).descendants (hmem site hsite)).pairwise
    · refine hsites.imp_of_mem fun {a b} ha hb hstop f hf g hg => ?_
      exact .of_stop_le (hspelled.descendants (hmem a ha)) (hspelled.descendants (hmem b hb))
        ((hreport a ha).marks f hf) ((hreport b hb).marks g hg) hstop

theorem isReport_filterMap {report? : Site → Option Finding} (hspelled : root.IsSpelled)
    (hsites : sites.Pairwise (·.stop ≤ ·.start)) (hmem : ∀ site ∈ sites, site ∈ root.descendants)
    (hreport : ∀ site ∈ sites, ∀ f ∈ report? site,
      f.code.checkNumber = number ∧ site.Marks f.range) :
    IsReport root number (sites.filterMap report?) := by
  rw [List.filterMap_eq_flatMap_toList]
  refine isReport_flatMap hspelled hsites hmem fun site hsite => ?_
  cases h : report? site with
  | none => exact .nil
  | some f =>
    obtain ⟨rfl, hmarks⟩ := hreport site hsite f h
    exact .single hmarks

-- ---------------------------------------------------------------------------
-- Places in a parsed file
-- ---------------------------------------------------------------------------

theorem pairwise_children (site : Site) : site.children.Pairwise (·.stop ≤ ·.start) :=
  (Site.pairwise_parts site).filter _

theorem mem_children (h : part ∈ site.children) : part ∈ site.parts ∧ part.tree.isNode = true :=
  List.mem_filter.mp h

theorem mem_childrenOf (h : part ∈ site.childrenOf kind) :
    part ∈ site.children ∧ part.kind = kind := by
  simpa [Site.childrenOf] using h

theorem mem_child? (h : site.child? kind = some part) :
    part ∈ site.children ∧ part.kind = kind := by
  exact ⟨List.mem_of_find?_eq_some h, by simpa using List.find?_some h⟩

theorem pairwise_childrenOf (site : Site) (kind : Kind) :
    (site.childrenOf kind).Pairwise (·.stop ≤ ·.start) := (pairwise_children site).filter _

theorem descendants_of_mem_children (h : part ∈ site.children) : part ∈ site.descendants :=
  Site.mem_descendants_of_mem_parts (mem_children h).1

/-- A token of a node is a word of it. -/
theorem mem_words_of_token? (h : site.token? kind = some part) (hkind : kind.isTrivia = false) :
    part ∈ site.parts ∧ part.tree.isNode = false ∧ part.kind = kind ∧ part ∈ site.words := by
  have hpart := List.mem_of_find?_eq_some h
  have htoken := List.find?_some h
  simp only [Bool.and_eq_true, Bool.not_eq_true', beq_iff_eq] at htoken
  refine ⟨hpart, htoken.1, htoken.2, ?_⟩
  refine (Site.words_sublist (Site.mem_descendants_of_mem_parts hpart)).mem ?_
  rw [Site.words_token htoken.1, htoken.2, hkind]
  exact List.mem_cons_self

/-- A child of a filled node has a word, unless it is a missing list. -/
theorem words_of_mem_children (h : site.tree.Filled) (hpart : part ∈ site.children)
    (hkind : part.kind ≠ .exposingList ∨ site.kind ∉ [.moduleDeclaration, .importClause]) :
    part.words ≠ [] := by
  obtain ⟨hmem, hnode⟩ := mem_children hpart
  obtain hfilled | ⟨hsite, hempty⟩ := filled_of_mem_parts h hmem
  · exact words_ne_nil_of_filled hfilled hnode
  · obtain hkind | hkind := hkind
    · exact absurd (by rw [Site.kind, hempty]; rfl) hkind
    · exact absurd hsite hkind

theorem filled_of_mem_items (h : tree.IsParsed) (hsite : site ∈ (Site.root tree).children) :
    site.tree.Filled := h.filled _ (Site.tree_mem_children (mem_children hsite).1)

theorem words_of_mem_items (h : tree.IsParsed) (hsite : site ∈ (Site.root tree).children) :
    site.words ≠ [] :=
  words_ne_nil_of_filled (filled_of_mem_items h hsite) (mem_children hsite).2

/-- Every node in a parsed file is filled, but for the file and for missing lists. -/
theorem filled_of_mem_descendants (h : tree.IsParsed) (hsite : site ∈ (Site.root tree).descendants)
    (hkind : site.kind ≠ .file ∧ site.kind ≠ .exposingList) : site.tree.Filled := by
  refine (h.filled_or_noItems hsite hkind.1).resolve_right ?_
  intro hempty
  exact hkind.2 (by rw [Site.kind, hempty]; rfl)

end Lint

end ElmLint

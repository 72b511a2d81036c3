import ElmLint.Proofs.Lint.Reports

/-!
# Reports of shapes

Matches come in the order of their nodes. A report on a whole node keeps this order. That the ranges
differ has a reason in each shape: a node that a match asks two children of, or a token, has a word
that no node inside it has.
-/

namespace ElmLint.Lint

open Syntax

variable {root site : Site} {tree : Tree} {shape : Shape} {shapes : List Shape} {rule : NodeRule}
  {children : ChildRule} {anchor : Anchor} {captures captures' : Captures} {m m' : Match}
  {number : Nat} {report? : Match → Option Finding} {kind : Kind} {s : Subject}

-- ---------------------------------------------------------------------------
-- Matches
-- ---------------------------------------------------------------------------

theorem mem_findMatches (h : m ∈ findMatches root shape) :
    m.site ∈ root.nodes ∧ m.captures ∈ shape.matches m.site := by
  obtain ⟨site, hsite, h⟩ := List.mem_flatMap.mp h
  obtain ⟨captures, hcaptures, rfl⟩ := List.mem_map.mp h
  exact ⟨hsite, hcaptures⟩

/-- A match satisfies the rule, and its children the rule for them. -/
theorem matches_mk (rule : NodeRule) (children : ChildRule) (site : Site) :
    (Shape.mk rule children).matches site =
      if rule.accepts site then (children.matches site).map (rule.captures site ++ ·) else [] := by
  rw [Shape.matches]

theorem mem_matches (h : captures ∈ (Shape.mk rule children).matches site) :
    rule.accepts site = true ∧
      ∃ inner ∈ children.matches site, captures = rule.captures site ++ inner := by
  rw [matches_mk] at h
  split at h
  · rename_i haccepts
    obtain ⟨inner, hinner, rfl⟩ := List.mem_map.mp h
    exact ⟨haccepts, inner, hinner, rfl⟩
  · cases h

theorem kind_of_accepts (h : rule.accepts site = true) (hkind : rule.kind? = some kind) :
    site.kind = kind := by
  simp only [NodeRule.accepts, hkind, Option.all_some, Bool.and_eq_true, beq_iff_eq] at h
  exact h.1.1

/-- A row asks for as many children as it has shapes. -/
theorem length_of_row (h : captures ∈ (ChildRule.row anchor shapes).matches site) :
    shapes.length ≤ site.children.length := by
  rw [ChildRule.matches] at h
  obtain ⟨start, hstart, -⟩ := List.mem_filterMap.mp h
  cases anchor <;> simp only [Anchor.starts] at hstart <;> split at hstart <;>
    first | omega | cases hstart

/-- A row matches from its first shape on. -/
theorem rowMatch?_cons {sites : List Site} (h : rowMatch? (shape :: shapes) sites = some captures) :
    ∃ site rest first others, sites = site :: rest ∧ (shape.matches site).head? = some first ∧
      rowMatch? shapes rest = some others ∧ captures = first ++ others := by
  cases sites with
  | nil => cases h
  | cons site rest =>
    rw [rowMatch?] at h
    split at h
    · rename_i first others hfirst hothers
      exact ⟨site, rest, first, others, rfl, hfirst, hothers, (Option.some.inj h).symm⟩
    · cases h

/-- A shape that asks nothing of the children names the node. -/
theorem head?_matches_any (h : ((Shape.mk rule .any).matches site).head? = some captures) :
    rule.accepts site = true ∧ captures = rule.captures site := by
  obtain ⟨haccepts, inner, hinner, rfl⟩ := mem_matches (List.mem_of_mem_head? h)
  obtain rfl := List.mem_singleton.mp hinner
  exact ⟨haccepts, List.append_nil _⟩

/-- A row that begins with the first child matches at most once. -/
theorem pairwise_matches_row {R : Captures → Captures → Prop} (hanchor : anchor ≠ .anywhere) :
    ((Shape.mk rule (.row anchor shapes)).matches site).Pairwise R := by
  have hstarts : (anchor.starts shapes.length site.children.length).length ≤ 1 := by
    cases anchor with
    | anywhere => exact absurd rfl hanchor
    | start | exact =>
      simp only [Anchor.starts]
      split <;> decide
  rw [matches_mk, ChildRule.matches]
  split
  · rw [List.pairwise_map]
    match h : anchor.starts shapes.length site.children.length with
    | [] => exact .nil
    | [start] =>
      rw [List.filterMap_cons]
      split <;> simp
    | _ :: _ :: _ => simp [h] at hstarts
  · exact .nil

-- ---------------------------------------------------------------------------
-- Reports on matches
-- ---------------------------------------------------------------------------

/-- Matches on one node, and on nodes inside each other, are all that has to be looked at. -/
theorem isReport_findMatches (hspelled : root.IsSpelled)
    (hfound : ∀ m ∈ findMatches root shape, ∀ f ∈ report? m,
      f.code.checkNumber = number ∧ m.site.Marks f.range)
    (hsame : ∀ site ∈ root.nodes, (shape.matches site).Pairwise fun captures captures' =>
      ∀ f ∈ report? ⟨site, captures⟩, ∀ g ∈ report? ⟨site, captures'⟩, Precedes root f g)
    (hinner : ∀ m ∈ findMatches root shape, ∀ m' ∈ findMatches root shape,
      m'.site ∈ m.site.inner → ∀ f ∈ report? m, ∀ g ∈ report? m', Precedes root f g) :
    IsReport root number ((findMatches root shape).filterMap report?) := by
  have hdescendant {m : Match} (h : m ∈ findMatches root shape) : m.site ∈ root.descendants :=
    (List.mem_filter.mp (mem_findMatches h).1).1
  refine ⟨fun f hf => ?_, fun f hf => ?_, ?_⟩
  · obtain ⟨m, hm, hf⟩ := List.mem_filterMap.mp hf
    exact (hfound m hm f hf).1
  · obtain ⟨m, hm, hf⟩ := List.mem_filterMap.mp hf
    exact (hfound m hm f hf).2.descendants (hdescendant hm)
  have hmatches : (findMatches root shape).Pairwise fun m m' =>
      ∀ f ∈ report? m, ∀ g ∈ report? m', m ∈ findMatches root shape →
        m' ∈ findMatches root shape → Precedes root f g := by
    rw [findMatches, List.pairwise_flatMap]
    refine ⟨fun site hsite => List.pairwise_map.mpr ?_, ?_⟩
    · exact (hsame site hsite).imp fun h f hf g hg _ _ => h f hf g hg
    refine (Site.pairwise_nodes root).imp fun {a b} horder m hm m' hm' f hf g hg hmem hmem' => ?_
    obtain ⟨captures, -, rfl⟩ := List.mem_map.mp hm
    obtain ⟨captures', -, rfl⟩ := List.mem_map.mp hm'
    obtain h | hstop := horder
    · exact hinner _ hmem _ hmem' h f hf g hg
    · exact .of_stop_le (hspelled.descendants (hdescendant hmem))
        (hspelled.descendants (hdescendant hmem')) (hfound _ hmem f hf).2 (hfound _ hmem' g hg).2
        hstop
  rw [List.pairwise_filterMap]
  exact hmatches.imp_of_mem fun hm hm' h f hf g hg => h f hf g hg hm hm'

/-- Kinds of nodes that are neither the file nor about exposed items. -/
def isPlain (kind : Kind) : Bool :=
  !([.file, .exposingList, .moduleDeclaration, .importClause] : List Kind).contains kind

theorem filled_of_isPlain (h : tree.IsParsed) (hsite : site ∈ (Site.root tree).descendants)
    (hplain : isPlain site.kind = true) : site.tree.Filled := by
  refine filled_of_mem_descendants h hsite ⟨fun hkind => ?_, fun hkind => ?_⟩ <;>
    rw [hkind] at hplain <;> cases hplain

theorem words_of_isPlain (h : tree.IsParsed) (hsite : site ∈ (Site.root tree).descendants)
    (hplain : isPlain site.kind = true) {part : Site} (hpart : part ∈ site.children) :
    part.words ≠ [] := by
  refine words_of_mem_children (filled_of_isPlain h hsite hplain) hpart (.inr fun hkind => ?_)
  simp only [List.mem_cons, List.not_mem_nil, or_false] at hkind
  obtain hkind | hkind := hkind <;> rw [hkind] at hplain <;> cases hplain

/-- Two neighbours among the children of a node are two places with words, one after the other. -/
theorem straddles_children (h : tree.IsParsed) (hsite : site ∈ (Site.root tree).descendants)
    (hplain : isPlain site.kind = true) (hlength : 2 ≤ site.children.length) :
    ∃ p ∈ site.parts, ∃ q ∈ site.parts, p.words ≠ [] ∧ q.words ≠ [] ∧ p.stop ≤ q.start := by
  have hsorted := pairwise_children site
  have hmem {part : Site} (hpart : part ∈ site.children) :=
    And.intro (mem_children hpart).1 (words_of_isPlain h hsite hplain hpart)
  cases hchildren : site.children with
  | nil => simp [hchildren] at hlength
  | cons p others =>
    cases others with
    | nil => simp [hchildren] at hlength
    | cons q others =>
      rw [hchildren] at hsorted hmem
      obtain ⟨hp, hpwords⟩ := hmem List.mem_cons_self
      obtain ⟨hq, hqwords⟩ := hmem (List.mem_cons_of_mem _ List.mem_cons_self)
      exact ⟨p, hp, q, hq, hpwords, hqwords, (List.pairwise_cons.mp hsorted).1 q List.mem_cons_self⟩

/-- Whole nodes that have two children each. -/
theorem isReport_atSite (h : tree.IsParsed) (code : LintCode) (message : Match → String)
    (hanchor : anchor ≠ .anywhere) (hlength : 2 ≤ shapes.length) (hkind : rule.kind? = some kind)
    (hplain : isPlain kind = true) :
    IsReport (.root tree) code.checkNumber
      ((findMatches (.root tree) (.mk rule (.row anchor shapes))).map fun m =>
        .atSite code (message m) m.site) := by
  rw [← List.filterMap_eq_map]
  have hmatch (m : Match) (hm : m ∈ findMatches (.root tree) (.mk rule (.row anchor shapes))) :
      m.site ∈ (Site.root tree).descendants ∧ isPlain m.site.kind = true ∧
        2 ≤ m.site.children.length ∧ m.site.Marks m.site.significantRange := by
    obtain ⟨hsite, hcaptures⟩ := mem_findMatches hm
    obtain ⟨haccepts, inner, hinner, -⟩ := mem_matches hcaptures
    have hdescendant := (List.mem_filter.mp hsite).1
    have hkind' := kind_of_accepts haccepts hkind
    refine ⟨hdescendant, by rwa [hkind'], Nat.le_trans hlength (length_of_row hinner), ?_⟩
    refine Site.marks_significantRange (words_ne_nil_of_filled ?_ (List.mem_filter.mp hsite).2)
    exact filled_of_isPlain h hdescendant (by rwa [hkind'])
  refine isReport_findMatches h.spelled (fun m hm f hf => ?_)
    (fun site _ => pairwise_matches_row hanchor) fun m hm m' hm' hinner f hf g hg => ?_
  · obtain rfl := Option.some.inj hf
    exact ⟨rfl, (hmatch m hm).2.2.2⟩
  · obtain rfl := Option.some.inj hf
    obtain rfl := Option.some.inj hg
    obtain ⟨hsite, hplain', htwo, hmarks⟩ := hmatch m hm
    obtain ⟨p, hp, q, hq, hpwords, hqwords, horder⟩ := straddles_children h hsite hplain' htwo
    have hmarks' := (hmatch m' hm').2.2.2
    have hspelled := h.spelled.descendants hsite
    have hbound {part : Site} (hpart : part ∈ m.site.parts) (hwords : part.words ≠ []) :=
      ((Site.marks_significantRange hwords).descendants
        (Site.mem_descendants_of_mem_parts hpart)).significantRange.2
    refine ⟨fun _ => Site.ne_of_straddles hspelled hp hq hpwords hqwords horder
      (hbound hp hpwords).1 (hbound hq hqwords).2 hinner hmarks', .inl ?_⟩
    exact (hmarks'.descendants (Site.mem_descendants_of_mem_inner hinner)).significantRange.2.1

-- ---------------------------------------------------------------------------
-- The checks
-- ---------------------------------------------------------------------------

section Checks

variable {fields : String → Option (List String)} (h : tree.IsParsed)
include h

theorem isReport_mapNothingToNothing :
    IsReport (.root tree) 4 (mapNothingToNothing (.ofTree tree fields)) :=
  isReport_atSite h .mapNothingToNothing _ (by decide) (Nat.le_refl 2) rfl rfl

theorem isReport_booleanCaseExpr :
    IsReport (.root tree) 5 (booleanCaseExpr (.ofTree tree fields)) :=
  isReport_atSite h .booleanCaseExpr _ (by decide) (Nat.le_succ 2) rfl rfl

theorem isReport_unnecessaryListConcat :
    IsReport (.root tree) 10 (unnecessaryListConcat (.ofTree tree fields)) :=
  isReport_atSite h .unnecessaryListConcat _ (by decide) (Nat.le_refl 2) rfl rfl

theorem isReport_noUncurriedPrefix :
    IsReport (.root tree) 12 (noUncurriedPrefix (.ofTree tree fields)) :=
  isReport_atSite h .noUncurriedPrefix _ (by decide) (Nat.le_succ 2) rfl rfl

end Checks

/-- The only child of a record with one field is the field. -/
theorem mem_oneFieldRecord (hmem : captures ∈ oneFieldRecord.matches site) :
    site.kind = .recordType ∧ ∃ field, site.children = [field] ∧ field.kind = .fieldType ∧
      captures.get? "field" = some field := by
  obtain ⟨haccepts, inner, hinner, rfl⟩ := mem_matches hmem
  refine ⟨kind_of_accepts haccepts rfl, ?_⟩
  rw [ChildRule.matches] at hinner
  obtain ⟨start, hstart, hrow⟩ := List.mem_filterMap.mp hinner
  simp only [Anchor.starts] at hstart
  split at hstart
  · rename_i hlength
    obtain ⟨field, hchildren⟩ := List.length_eq_one_iff.mp hlength.symm
    rw [List.mem_singleton.mp hstart, hchildren] at hrow
    obtain ⟨_, _, first, others, hcons, hfield, hothers, rfl⟩ := rowMatch?_cons hrow
    obtain ⟨rfl, rfl⟩ := List.cons.inj hcons
    obtain ⟨haccepts', rfl⟩ := head?_matches_any hfield
    obtain rfl := Option.some.inj hothers
    exact ⟨field, hchildren, kind_of_accepts haccepts' rfl, rfl⟩
  · cases hstart

/-- The name of a field is a token of it. -/
theorem exists_token_of_tokenText? {text : String} (h : site.tree.tokenText? kind = some text) :
    ∃ token ∈ site.parts, token.tree.isNode = false ∧ token.kind = kind := by
  obtain ⟨child, hchild, htext⟩ := List.exists_of_findSome?_eq_some h
  rw [← Site.map_tree_parts] at hchild
  obtain ⟨part, hpart, rfl⟩ := List.mem_map.mp hchild
  refine ⟨part, hpart, ?_⟩
  rw [Site.kind]
  split at htext
  · split at htext
    · rename_i htree hkind
      rw [htree]
      exact ⟨rfl, hkind⟩
    · cases htext
  · cases htext

theorem singleFieldRecord_eq (s : Subject) :
    singleFieldRecord s = (findMatches s.file.root oneFieldRecord).filterMap fun m =>
      ((m.captures.get? "field").bind (·.tree.tokenText? .lowerIdent)).bind fun fieldName =>
        if inWiderAlias s m.site fieldName then none
        else some (.atSite .singleFieldRecord
          "Record has only one field, use the field's type or a custom type instead" m.site) := by
  refine List.filterMap_congr fun m _ => ?_
  cases (m.captures.get? "field").bind (·.tree.tokenText? .lowerIdent) <;> rfl

theorem isReport_singleFieldRecord {fields : String → Option (List String)} (h : tree.IsParsed) :
    IsReport (.root tree) 9 (singleFieldRecord (.ofTree tree fields)) := by
  -- what a finding has: its record, the only child of it, and the name token of this child
  have hmatch {m : Match} (hm : m ∈ findMatches (.root tree) oneFieldRecord) :
      m.site ∈ (Site.root tree).descendants ∧ m.site.kind = .recordType ∧
        m.site.tree.isNode = true ∧ m.site.Marks m.site.significantRange := by
    obtain ⟨hsite, hcaptures⟩ := mem_findMatches hm
    obtain ⟨hdescendant, hnode⟩ := List.mem_filter.mp hsite
    have hkind := (mem_oneFieldRecord hcaptures).1
    refine ⟨hdescendant, hkind, hnode, Site.marks_significantRange ?_⟩
    exact words_ne_nil_of_filled (filled_of_isPlain h hdescendant (by rw [hkind]; rfl)) hnode
  have hfinding {m : Match} (hm : m ∈ findMatches (.root tree) oneFieldRecord) {f : Finding}
      (hf : (((m.captures.get? "field").bind (·.tree.tokenText? .lowerIdent)).bind fun fieldName =>
        if inWiderAlias (.ofTree tree fields) m.site fieldName then none
        else some (.atSite .singleFieldRecord
          "Record has only one field, use the field's type or a custom type instead" m.site)) =
        some f) :
      f.code = .singleFieldRecord ∧ f.range = m.site.significantRange ∧
        ∃ field, m.site.children = [field] ∧ field.kind = .fieldType ∧
          ∃ token ∈ field.parts, token.tree.isNode = false ∧ token.kind = .lowerIdent := by
    obtain ⟨name, hname, hf⟩ := Option.bind_eq_some_iff.mp hf
    split at hf
    · cases hf
    obtain rfl := Option.some.inj hf
    obtain ⟨-, field, hchildren, hkind, hget⟩ := mem_oneFieldRecord (mem_findMatches hm).2
    rw [hget] at hname
    exact ⟨rfl, rfl, field, hchildren, hkind, exists_token_of_tokenText? hname⟩
  rw [singleFieldRecord_eq]
  refine isReport_findMatches h.spelled (fun m hm f hf => ?_)
    (fun site _ => pairwise_matches_row (by decide)) fun m hm m' hm' hinner f hf g hg => ?_
  · obtain ⟨hcode, hrange, -⟩ := hfinding hm hf
    rw [hcode, hrange]
    exact ⟨rfl, (hmatch hm).2.2.2⟩
  obtain ⟨hsite, -, -, hmarks⟩ := hmatch hm
  obtain ⟨-, hkind', hnode', hmarks'⟩ := hmatch hm'
  obtain ⟨-, hrange, field, hchildren, hfield, token, htoken, hleaf, hlower⟩ := hfinding hm hf
  obtain ⟨-, hrange', -⟩ := hfinding hm' hg
  have hmem : field ∈ m.site.children := hchildren ▸ List.mem_cons_self
  have hdescendant := descendants_of_mem_children hmem
  have hword : token ∈ field.words := by
    refine (Site.words_sublist (Site.mem_descendants_of_mem_parts htoken)).mem ?_
    rw [Site.words_token hleaf, hlower]
    exact List.mem_cons_self
  have hcover := ((Site.marks_word hword).descendants hdescendant).significantRange.2
  -- the inner record is in the field, behind its name
  obtain ⟨around, haround, hplace⟩ := List.mem_flatMap.mp hinner
  have hnode := Site.isNode_of_mem_descendants haround hplace hnode'
  rw [hchildren, List.mem_singleton] at hnode
  rw [hnode, Site.descendants_eq, List.mem_cons] at hplace
  obtain heq | hplace := hplace
  · rw [heq, hfield] at hkind'
    cases hkind'
  rw [← hrange] at hcover
  rw [← hrange'] at hmarks'
  refine ⟨fun _ => Site.ne_of_token ((h.spelled.descendants hsite).descendants hdescendant) htoken
    hleaf (by rw [hlower]; rfl) hcover.1 hcover.2 hplace hnode' hmarks', .inl ?_⟩
  rw [hrange]
  exact (hmarks'.descendants (Site.mem_descendants_of_mem_inner hinner)).significantRange.2.1

end ElmLint.Lint

import ElmLint.Proofs.Lint.Regions
import ElmLint.Proofs.Lint.Reported
import ElmLint.Proofs.Lint.Uses

/-!
# Unused variables and top-level values

A variable is reported exactly when no reference of its name lies in its region. A top-level
function is reported exactly when the header hides it and no other item of the file refers to it.
-/

namespace ElmLint.Lint

open Syntax

variable {tree : Tree} {text name : String} {fields : String → Option (List String)} {f : Finding}
  {s : Subject} {b : Binding} {a site place item left declaration token token' : Site}
  {range : ByteRange}

-- ---------------------------------------------------------------------------
-- Findings
-- ---------------------------------------------------------------------------

theorem mem_unusedBindings : f ∈ unusedBindings s ↔
    (∃ b ∈ localBindings s.file.root, unusedPattern? b = some f) ∨
      s.exposesEverything = false ∧
        ∃ declaration ∈ s.file.values, unusedTopLevel? s declaration = some f := by
  rw [unusedBindings, List.mem_mergeSort, List.mem_append, List.mem_filterMap]
  refine or_congr_right ?_
  cases s.exposesEverything <;> simp

theorem unusedPattern?_iff : unusedPattern? b = some f ↔
    (¬ ∃ place ∈ b.region.nodes, RefersTo b.name place) ∧
      f = ⟨.unusedPattern, s!"Unused variable `{b.name}`", b.token.range⟩ := by
  rw [unusedPattern?, ← countReferences_eq_zero_iff]
  split
  · rename_i hnone
    exact ⟨fun h => ⟨hnone, (Option.some.inj h).symm⟩, fun h => congrArg some h.2.symm⟩
  · rename_i hsome
    exact ⟨nofun, fun h => absurd h.1 hsome⟩

theorem unusedTopLevel?_iff {d : ValueDeclaration} : unusedTopLevel? s d = some f ↔
    ∃ token, d.nameToken? = some token ∧ token.text ∉ exposedValues s ∧
      usedElsewhere s token.text d.site = false ∧
      f = ⟨.unusedTopLevel, s!"Unused top level definition `{token.text}`", token.range⟩ := by
  unfold unusedTopLevel?
  split
  · rename_i hname
    simp [hname]
  · rename_i token hname
    simp only [hname, Option.some.injEq, exists_eq_left', List.contains_iff_mem]
    split
    · rename_i hexposed
      simp [hexposed]
    · rename_i hhidden
      split
      · rename_i hused
        simp [hused]
      · rename_i hunused
        simp [hhidden, hunused, eq_comm]

/-- A name token belongs to one node. -/
theorem eq_of_token_range (h : tree.IsParsed) (ha : a ∈ (Site.root tree).nodes)
    (hsite : site ∈ (Site.root tree).nodes) (htoken : a.token? .lowerIdent = some token)
    (htoken' : site.token? .lowerIdent = some token') (hrange : token.range = token'.range) :
    a = site := by
  refine (Site.eq_or_ordered (Site.pairwise_nodes (.root tree)) ha hsite).resolve_right ?_
  rintro (horder | horder)
  · exact ne_of_unusedPattern h.spelled ha hsite horder htoken htoken' hrange
  · exact ne_of_unusedPattern h.spelled hsite ha horder htoken' htoken hrange.symm

-- ---------------------------------------------------------------------------
-- Variables
-- ---------------------------------------------------------------------------

theorem reported_unusedPattern_iff : Reported text fields .unusedPattern range ↔
    ∃ b ∈ localBindings (.root (parse text).tree), b.token.range = range ∧
      ¬ ∃ place ∈ b.region.nodes, RefersTo b.name place := by
  have hcheck : (unusedBindings, LintCode.unusedPattern.checkNumber) ∈ checks.zipIdx := by
    simp [checks, LintCode.checkNumber]
  rw [reported_iff_mem_check hcheck]
  constructor
  · rintro ⟨f, hf, hcode, rfl⟩
    obtain ⟨b, hb, hf⟩ | ⟨-, d, -, hf⟩ := mem_unusedBindings.mp hf
    · obtain ⟨hunused, rfl⟩ := unusedPattern?_iff.mp hf
      exact ⟨b, hb, rfl, hunused⟩
    · obtain ⟨token, -, -, -, rfl⟩ := unusedTopLevel?_iff.mp hf
      cases hcode
  · rintro ⟨b, hb, rfl, hunused⟩
    have hfound := unusedPattern?_iff.mpr ⟨hunused, rfl⟩
    exact ⟨_, mem_unusedBindings.mpr (.inl ⟨b, hb, hfound⟩), rfl, rfl⟩

/-- A variable is reported exactly when nothing in its region refers to it. -/
theorem reported_binding_iff (hb : b ∈ localBindings (.root (parse text).tree)) :
    Reported text fields .unusedPattern b.token.range ↔
      ¬ ∃ place ∈ b.region.nodes, RefersTo b.name place := by
  have hfile := isFile_parse text
  rw [reported_unusedPattern_iff]
  constructor
  · rintro ⟨other, hother, hrange, hunused⟩
    obtain ⟨hsite, hbinding, htoken, -, -⟩ := mem_localBindings hfile hb
    obtain ⟨hsite', hbinding', htoken', -, -⟩ := mem_localBindings hfile hother
    have heq := eq_of_token_range (isParsed_parse text) hsite' hsite htoken' htoken hrange
    rw [heq, hbinding] at hbinding'
    rwa [Option.some.inj hbinding']
  · exact fun hunused => ⟨b, hb, rfl, hunused⟩

-- ---------------------------------------------------------------------------
-- Top-level functions
-- ---------------------------------------------------------------------------

/-- The item of the file that a place is in is told by the number of the item. -/
theorem topLevelItem?_of_item (hitem : item ∈ (Site.root tree).children)
    (hplace : place ∈ item.nodes) :
    ∃ index, item.path = [index] ∧ topLevelItem? place = some index := by
  obtain ⟨index, start, tree', rfl⟩ := Site.exists_eq_part (List.mem_filter.mp hitem).1
  obtain ⟨rest, hrest⟩ := Site.address_of_mem_descendants (List.mem_filter.mp hplace).1
  refine ⟨index, rfl, ?_⟩
  rw [topLevelItem?, ← List.head?_reverse, ← Site.address, ← hrest]
  rfl

theorem usedElsewhere_iff (hdeclaration : declaration ∈ (Site.root tree).children) :
    usedElsewhere (.ofTree tree fields) name declaration = true ↔
      ∃ item ∈ (Site.root tree).children, item ≠ declaration ∧
        ∃ place ∈ item.nodes, RefersTo name place := by
  obtain ⟨index, hpath, hindex⟩ :=
    topLevelItem?_of_item hdeclaration (Site.mem_nodes_self hdeclaration)
  have hvalues : usedElsewhere (.ofTree tree fields) name declaration = true ↔
      ∃ place ∈ (Site.root tree).nodes, RefersTo name place ∧ (topLevelItem? place).isSome = true ∧
        topLevelItem? place ≠ some index := by
    simp only [usedElsewhere, Subject.ofTree, References.collect, List.any_eq_true,
      List.mem_filterMap, Option.map_eq_some_iff, valueReference?_eq_some_iff, hindex]
    constructor
    · rintro ⟨-, ⟨place, hplace, reference, hrefers, rfl⟩, helse⟩
      simp only [Bool.and_eq_true, beq_iff_eq, bne_iff_ne] at helse
      obtain ⟨⟨rfl, hitem⟩, hother⟩ := helse
      exact ⟨place, hplace, hrefers, hitem, hother⟩
    · rintro ⟨place, hplace, hrefers, hitem, hother⟩
      exact ⟨_, ⟨place, hplace, name, hrefers, rfl⟩, by simp [hitem, hother]⟩
  rw [hvalues]
  constructor
  · rintro ⟨place, hplace, hrefers, hsome, hother⟩
    obtain rfl | ⟨item, hitem, hplace⟩ := Site.mem_nodes_cases hplace
    · cases hsome
    obtain ⟨index', hpath', hindex'⟩ := topLevelItem?_of_item hitem hplace
    refine ⟨item, hitem, ?_, place, hplace, hrefers⟩
    rintro rfl
    rw [hpath'] at hpath
    obtain rfl := List.singleton_inj.mp hpath
    exact hother hindex'
  · rintro ⟨item, hitem, hne, place, hplace, hrefers⟩
    obtain ⟨index', hpath', hindex'⟩ := topLevelItem?_of_item hitem hplace
    refine ⟨place, Site.nodes_of_mem_children hitem hplace, hrefers, by rw [hindex']; rfl, ?_⟩
    rw [hindex', ne_eq, Option.some.injEq]
    rintro rfl
    exact hne (Site.eq_of_path_eq (descendants_of_mem_children hitem)
      (descendants_of_mem_children hdeclaration) (hpath'.trans hpath.symm))

/-- The name is one of those that the header lists as values. -/
def IsExposedValue (file : SourceFile) (name : String) : Prop :=
  ∃ header list item, file.header? = some header ∧ header.exposing? = some list ∧
    item ∈ list.items ∧ item.sort = .value ∧ item.name? = some name

/-- What makes a top-level function unused: there is a header, it does not expose everything and not
the function, and no other item of the file refers to it. -/
structure IsUnusedTopLevel (tree : Tree) (declaration : Site) (name : String) : Prop where
  header : ∃ header, (SourceFile.ofTree tree).header? = some header ∧
    ¬ ∃ list, header.exposing? = some list ∧ list.wildcard = true
  hidden : ¬ IsExposedValue (.ofTree tree) name
  unreferenced : ¬ ∃ item ∈ (Site.root tree).children, item ≠ declaration ∧
    ∃ place ∈ item.nodes, RefersTo name place

theorem exposesEverything_eq_false_iff :
    (Subject.ofTree tree fields).exposesEverything = false ↔
      ∃ header, (SourceFile.ofTree tree).header? = some header ∧
        ¬ ∃ list, header.exposing? = some list ∧ list.wildcard = true := by
  rw [Subject.exposesEverything, show (Subject.ofTree tree fields).file = .ofTree tree from rfl]
  cases hheader : (SourceFile.ofTree tree).header? with
  | none => simp
  | some header =>
    simp only [Option.all_some, exposesAll, Option.some.injEq, exists_eq_left']
    cases header.exposing? <;> simp

theorem mem_exposedValues_iff :
    name ∈ exposedValues (.ofTree tree fields) ↔ IsExposedValue (.ofTree tree) name := by
  rw [exposedValues, show (Subject.ofTree tree fields).file = .ofTree tree from rfl]
  unfold IsExposedValue
  cases hheader : (SourceFile.ofTree tree).header? with
  | none => simp
  | some header =>
    cases hlist : header.exposing? with
    | none => simp [hlist]
    | some list => simp [hlist]

theorem reported_unusedTopLevel_iff : Reported text fields .unusedTopLevel range ↔
    ∃ declaration ∈ (Site.root (parse text).tree).childrenOf .valueDeclaration, ∃ left token,
      declaration.child? .functionDeclarationLeft = some left ∧
      left.token? .lowerIdent = some token ∧ token.range = range ∧
      IsUnusedTopLevel (parse text).tree declaration token.text := by
  have hcheck : (unusedBindings, LintCode.unusedTopLevel.checkNumber) ∈ checks.zipIdx := by
    simp [checks, LintCode.checkNumber]
  rw [reported_iff_mem_check hcheck]
  constructor
  · rintro ⟨f, hf, hcode, rfl⟩
    obtain ⟨b, -, hf⟩ | ⟨hheader, d, hd, hf⟩ := mem_unusedBindings.mp hf
    · obtain ⟨-, rfl⟩ := unusedPattern?_iff.mp hf
      cases hcode
    obtain ⟨declaration, hdeclaration, rfl⟩ := List.mem_map.mp hd
    obtain ⟨token, htoken, hhidden, hunused, rfl⟩ := unusedTopLevel?_iff.mp hf
    obtain ⟨left, hleft, htoken⟩ := Option.bind_eq_some_iff.mp htoken
    refine ⟨declaration, hdeclaration, left, token, hleft, htoken, rfl,
      exposesEverything_eq_false_iff.mp hheader, mt mem_exposedValues_iff.mpr hhidden, ?_⟩
    rw [← usedElsewhere_iff (mem_childrenOf hdeclaration).1, Bool.not_eq_true]
    exact hunused
  · rintro ⟨declaration, hdeclaration, left, token, hleft, htoken, rfl, hheader, hhidden, hunused⟩
    refine ⟨_, mem_unusedBindings.mpr (.inr ⟨exposesEverything_eq_false_iff.mpr hheader,
      .ofSite declaration, List.mem_map_of_mem hdeclaration, unusedTopLevel?_iff.mpr ⟨token, ?_,
        mt mem_exposedValues_iff.mp hhidden, ?_, rfl⟩⟩), rfl, rfl⟩
    · exact Option.bind_eq_some_iff.mpr ⟨left, hleft, htoken⟩
    · rw [← usedElsewhere_iff (mem_childrenOf hdeclaration).1, Bool.not_eq_true] at hunused
      exact hunused

/-- The left side of a function that no `let` has stands in one of the file's declarations. -/
theorem declaration_of_topLevel (h : tree.IsFile) (hleft : left ∈ (Site.root tree).nodes)
    (hkind : left.kind = .functionDeclarationLeft) (htop : introducesName left = false) :
    ∃ declaration ∈ (Site.root tree).childrenOf .valueDeclaration,
      declaration.child? .functionDeclarationLeft = some left := by
  obtain ⟨declaration, -, hvalue, hchild, hplace⟩ := declaration_of_left h hleft hkind
  refine ⟨declaration, List.mem_filter.mpr ⟨hplace.resolve_right ?_, by simpa using hvalue⟩, hchild⟩
  rintro ⟨block, hblock⟩
  have hregion : IsRegionOf left block := .function hblock (mem_child? hchild).1 hkind
  rw [(introducesName_iff h hleft).mpr ⟨block, hregion⟩] at htop
  cases htop

theorem introducesName_of_topLevel (hkind : tree.kind = .file)
    (hdeclaration : declaration ∈ (Site.root tree).children) (hleft : left ∈ declaration.children)
    (hleftKind : left.kind = .functionDeclarationLeft) : introducesName left = false := by
  have hroot : (Site.root tree).kind = .file := hkind
  simp [introducesName, hleftKind, Site.parent?_of_mem_children hleft, Site.parentOf?,
    Site.parent?_of_mem_children hdeclaration, hroot]

theorem mem_nodes_of_left
    (hdeclaration : declaration ∈ (Site.root tree).childrenOf .valueDeclaration)
    (hleft : declaration.child? .functionDeclarationLeft = some left) :
    left ∈ declaration.children ∧ left.kind = .functionDeclarationLeft ∧
      left ∈ (Site.root tree).nodes := by
  obtain ⟨hchild, hkind⟩ := mem_child? hleft
  have hitem := Site.children_subset_nodes (mem_childrenOf hdeclaration).1
  exact ⟨hchild, hkind, Site.mem_nodes_of_mem_children hitem hchild⟩

theorem reported_topLevel_iff (hdeclaration : declaration ∈
      (Site.root (parse text).tree).childrenOf .valueDeclaration)
    (hleft : declaration.child? .functionDeclarationLeft = some left)
    (htoken : left.token? .lowerIdent = some token) :
    Reported text fields .unusedTopLevel token.range ↔
      IsUnusedTopLevel (parse text).tree declaration token.text := by
  rw [reported_unusedTopLevel_iff]
  obtain ⟨hchild, -, hnode⟩ := mem_nodes_of_left hdeclaration hleft
  constructor
  · rintro ⟨other, hother, left', token', hleft', htoken', hrange, hunused⟩
    obtain ⟨hchild', -, hnode'⟩ := mem_nodes_of_left hother hleft'
    -- a left side with this name token is this one, and its declaration is this one
    obtain rfl := eq_of_token_range (isParsed_parse text) hnode' hnode htoken' htoken hrange
    obtain rfl := Option.some.inj (htoken'.symm.trans htoken)
    have hparent := Site.parent?_of_mem_children hchild'
    rwa [Option.some.inj (hparent.symm.trans (Site.parent?_of_mem_children hchild))] at hunused
  · exact fun hunused => ⟨declaration, hdeclaration, left, token, hleft, htoken, rfl, hunused⟩

-- ---------------------------------------------------------------------------
-- Order
-- ---------------------------------------------------------------------------

/-- The codes of the check. -/
def bindingCodes : List LintCode := [.unusedPattern, .unusedTopLevel]

theorem sameCheck_bindingCodes :
    ∀ code ∈ bindingCodes, code.checkNumber = 3 ∧ code.isOnChains = false := by
  decide

/-- The one is reported on bytes that do not start behind those of the other. -/
def StartsBefore (text : String) (d e : Diagnostic) : Prop :=
  ∃ range range', (LineIndex.ofText text).range? d.span = some range ∧
    (LineIndex.ofText text).range? e.span = some range' ∧ range.start ≤ range'.start

theorem pairwise_bindings (text : String) (fields : String → Option (List String)) :
    ((lintTree (parse text).tree (.ofText text) fields []).filter
      fun d => (bindingCodes.map (·.name)).contains d.code).Pairwise (StartsBefore text) := by
  have hcode {d : Diagnostic} {f : Finding} (hstands : StandsFor text d f)
      (hd : (bindingCodes.map (·.name)).contains d.code = true) : f.code ∈ bindingCodes := by
    obtain ⟨code, hmem, hname⟩ := List.mem_map.mp (List.contains_iff_mem.mp hd)
    rwa [← LintCode.name_injective (hname.trans hstands.code_eq)]
  have hordered : (lintTree (parse text).tree (.ofText text) fields []).Pairwise fun d e =>
      (bindingCodes.map (·.name)).contains d.code = true →
        (bindingCodes.map (·.name)).contains e.code = true → StartsBefore text d e := by
    refine pairwise_lintTree fun f g d e _ _ hfollows hstands hstands' hd he => ?_
    have hf := hcode hstands hd
    have hg := hcode hstands' he
    refine ⟨f.range, g.range, hstands.range?_eq, hstands'.range?_eq, ?_⟩
    obtain hlt | ⟨-, hprecedes⟩ := hfollows
    · rw [(sameCheck_bindingCodes _ hf).1, (sameCheck_bindingCodes _ hg).1] at hlt
      exact absurd hlt (Nat.lt_irrefl _)
    · refine hprecedes.order.resolve_right fun hchain => ?_
      exact absurd hchain.1 (by rw [(sameCheck_bindingCodes _ hf).2]; decide)
  refine (hordered.filter _).imp_of_mem fun hd he h => ?_
  exact h (List.mem_filter.mp hd).2 (List.mem_filter.mp he).2

-- ---------------------------------------------------------------------------
-- The result
-- ---------------------------------------------------------------------------

/-- What is reported of the variables and the top-level functions of a text. -/
structure ReportsBindings (text : String) (fields : String → Option (List String)) : Prop where
  /-- Every variable and every function of a `let` has one binding, in text order. -/
  bindings : (localBindings (.root (parse text).tree)).map (·.site) =
    (Site.root (parse text).tree).nodes.filter introducesName
  names : ∀ b ∈ localBindings (.root (parse text).tree),
    b.site.token? .lowerIdent = some b.token ∧ b.name = b.token.text
  regions : ∀ b ∈ localBindings (.root (parse text).tree),
    ∀ region, IsRegionOf b.site region ↔ region = b.region
  patterns : ∀ b ∈ localBindings (.root (parse text).tree),
    Reported text fields .unusedPattern b.token.range ↔
      ¬ ∃ place ∈ b.region.nodes, RefersTo b.name place
  onlyPatterns : ∀ range, Reported text fields .unusedPattern range →
    ∃ b ∈ localBindings (.root (parse text).tree), b.token.range = range
  /-- Every other function stands in a declaration of the file. -/
  functions : ∀ left ∈ (Site.root (parse text).tree).nodes, left.kind = .functionDeclarationLeft →
    introducesName left = false →
    ∃ declaration ∈ (Site.root (parse text).tree).children, left ∈ declaration.children ∧
      ∃ token, left.token? .lowerIdent = some token ∧
        (Reported text fields .unusedTopLevel token.range ↔
          IsUnusedTopLevel (parse text).tree declaration token.text)
  onlyFunctions : ∀ range, Reported text fields .unusedTopLevel range →
    ∃ left ∈ (Site.root (parse text).tree).nodes, left.kind = .functionDeclarationLeft ∧
      introducesName left = false ∧ ∃ token, left.token? .lowerIdent = some token ∧
        token.range = range
  order : ((lintTree (parse text).tree (.ofText text) fields []).filter
    fun d => (bindingCodes.map (·.name)).contains d.code).Pairwise (StartsBefore text)

theorem lintTree_reportsBindings (text : String) (fields : String → Option (List String)) :
    ReportsBindings text fields where
  bindings := map_site_localBindings (isFile_parse text)
  names b hb := by
    obtain ⟨-, -, htoken, hname, -⟩ := mem_localBindings (isFile_parse text) hb
    exact ⟨htoken, hname⟩
  regions b hb := (mem_localBindings (isFile_parse text) hb).2.2.2.2
  patterns _ hb := reported_binding_iff hb
  onlyPatterns range h := by
    obtain ⟨b, hb, hrange, -⟩ := reported_unusedPattern_iff.mp h
    exact ⟨b, hb, hrange⟩
  functions left hleft hkind htop := by
    obtain ⟨declaration, hdeclaration, hchild⟩ :=
      declaration_of_topLevel (isFile_parse text) hleft hkind htop
    obtain ⟨token, htoken⟩ := exists_name (isFile_parse text) hleft (.inr hkind)
    exact ⟨declaration, (mem_childrenOf hdeclaration).1, (mem_child? hchild).1, token, htoken,
      reported_topLevel_iff hdeclaration hchild htoken⟩
  onlyFunctions range h := by
    obtain ⟨declaration, hdeclaration, left, token, hleft, htoken, hrange, -⟩ :=
      reported_unusedTopLevel_iff.mp h
    obtain ⟨hchild, hkind, hnode⟩ := mem_nodes_of_left hdeclaration hleft
    have htop := introducesName_of_topLevel (isFile_parse text).kind_eq
      (mem_childrenOf hdeclaration).1 hchild hkind
    exact ⟨left, hnode, hkind, htop, token, htoken, hrange⟩
  order := pairwise_bindings text fields

end ElmLint.Lint

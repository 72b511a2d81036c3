import ElmLint.Lint.Scope
import ElmLint.Proofs.Syntax.Ancestry

/-!
# Regions of names

A pattern belongs to the lambda, the case branch or the declaration whose patterns it is among. The
names in it are visible there. For a declaration of a `let`, the names at its own level are visible
in the whole `let`, and so is the name of a function. No name of a parsed text is left without a
region.
-/

namespace ElmLint.Lint

open Syntax

variable {site pattern owner declaration block region : Site} {b : Binding} {tree : Tree}

-- ---------------------------------------------------------------------------
-- Owners of patterns
-- ---------------------------------------------------------------------------

/-- The place is a pattern of `owner`, or a pattern inside of one. The patterns of a function are
its parameters. -/
inductive PatternOf (owner : Site) : Site → Prop
  | own {pattern : Site} (hpattern : pattern ∈ owner.children)
    (hkind : pattern.kind.isPattern = true) : PatternOf owner pattern
  | parameter {left pattern : Site} (hleft : left ∈ owner.children)
    (hleftKind : left.kind = .functionDeclarationLeft) (hpattern : pattern ∈ left.children)
    (hkind : pattern.kind.isPattern = true) : PatternOf owner pattern
  | inside {outer pattern : Site} (houter : PatternOf owner outer)
    (hpattern : pattern ∈ outer.children) (hkind : pattern.kind.isPattern = true) :
    PatternOf owner pattern

/-- Kinds of nodes that bind the names in their patterns. -/
def bindsPatterns (kind : Kind) : Bool :=
  [Kind.valueDeclaration, .caseOfBranch, .anonymousFunctionExpr].contains kind

/-- The pattern of a declaration, or a direct part of it if it is a tuple or a record. -/
def IsAtLevel (declaration pattern : Site) : Prop :=
  pattern ∈ declaration.children ∨ ∃ outer ∈ declaration.children,
    outer.kind ∈ [Kind.recordPattern, .tuplePattern] ∧ pattern ∈ outer.children

/-- The declaration stands in the `let`. -/
def IsDeclarationOf (block declaration : Site) : Prop :=
  block.kind = .letInExpr ∧ declaration.kind = .valueDeclaration ∧ declaration ∈ block.children

/-- Where a name is visible. -/
inductive IsRegionOf : Site → Site → Prop
  | function {left declaration block : Site} (hblock : IsDeclarationOf block declaration)
    (hleft : left ∈ declaration.children) (hkind : left.kind = .functionDeclarationLeft) :
    IsRegionOf left block
  | level {pattern declaration block : Site} (hblock : IsDeclarationOf block declaration)
    (hlevel : IsAtLevel declaration pattern) (hkind : pattern.kind = .lowerPattern) :
    IsRegionOf pattern block
  | owner {pattern owner : Site} (howner : bindsPatterns owner.kind = true)
    (hpattern : PatternOf owner pattern) (hkind : pattern.kind = .lowerPattern)
    (hdeeper : ∀ block, IsDeclarationOf block owner → ¬ IsAtLevel owner pattern) :
    IsRegionOf pattern owner

theorem PatternOf.isPattern (h : PatternOf owner pattern) : pattern.kind.isPattern = true := by
  cases h <;> assumption

theorem not_bindsPatterns_of_isPattern {kind : Kind} (h : kind.isPattern = true) :
    bindsPatterns kind = false := by
  cases kind <;> first | rfl | cases h

theorem patternOf_of_isAtLevel (hkind : pattern.kind.isPattern = true)
    (h : IsAtLevel owner pattern) : PatternOf owner pattern := by
  obtain h | ⟨outer, houter, hkinds, h⟩ := h
  · exact .own h hkind
  · refine .inside (.own houter ?_) h hkind
    simp only [List.mem_cons, List.not_mem_nil, or_false] at hkinds
    obtain hkinds | hkinds := hkinds <;> rw [hkinds] <;> rfl

theorem find?_ancestors (site : Site) :
    site.ancestors.find? (bindsPatterns ·.kind) =
      if bindsPatterns site.kind then some site
      else site.ancestors.tail.find? (bindsPatterns ·.kind) := by
  have hancestors : site.ancestors = site :: site.ancestors.tail := by cases site <;> rfl
  rw [hancestors, List.find?_cons]
  cases bindsPatterns site.kind <;> rfl

/-- Going up from a pattern, the first node that binds patterns is its owner. -/
theorem find?_owner (h : PatternOf owner pattern) (howner : bindsPatterns owner.kind = true) :
    pattern.ancestors.tail.find? (bindsPatterns ·.kind) = some owner := by
  induction h with
  | own hpattern =>
    rw [Site.ancestors_of_mem_children hpattern, List.tail_cons, find?_ancestors, if_pos howner]
  | @parameter left pattern hleft hleftKind hpattern =>
    have hnot : ¬ bindsPatterns left.kind = true := by rw [hleftKind]; decide
    rw [Site.ancestors_of_mem_children hpattern, List.tail_cons, find?_ancestors, if_neg hnot,
      Site.ancestors_of_mem_children hleft, List.tail_cons, find?_ancestors, if_pos howner]
  | @inside outer pattern houter hpattern _ ih =>
    have hnot : ¬ bindsPatterns outer.kind = true := by
      rw [not_bindsPatterns_of_isPattern houter.isPattern]
      decide
    rw [Site.ancestors_of_mem_children hpattern, List.tail_cons, find?_ancestors, if_neg hnot, ih]

/-- Every pattern in a file has an owner. -/
theorem exists_owner (h : tree.IsFile) (hpattern : pattern ∈ (Site.root tree).nodes)
    (hkind : pattern.kind.isPattern = true) :
    ∃ owner ∈ (Site.root tree).nodes, bindsPatterns owner.kind = true ∧
      PatternOf owner pattern := by
  have hfile {place : Site} (hkind : place.kind.isPattern = true) : place.kind ≠ .file :=
    fun heq => by rw [heq] at hkind; cases hkind
  induction pattern with
  | root other =>
    obtain ⟨holder, -, hchild, -⟩ := h.exists_parent hpattern (hfile hkind)
    cases Site.parent?_of_mem_children hchild
  | part parent index start other ih =>
    obtain ⟨holder, hholder, hchild, hparts⟩ := h.exists_parent hpattern (hfile hkind)
    obtain rfl : parent = holder := Option.some.inj (Site.parent?_of_mem_children hchild)
    obtain hinner | hbinds := Kind.holder_of_isPattern parent.kind _ hparts hkind
    · obtain ⟨owner, howner, hbinds, houter⟩ := ih hholder hinner
      exact ⟨owner, howner, hbinds, .inside houter hchild hkind⟩
    by_cases hleft : parent.kind = .functionDeclarationLeft
    · obtain ⟨declaration, hdeclaration, hleftChild, hleftParts⟩ :=
        h.exists_parent hholder (by rw [hleft]; decide)
      rw [hleft] at hleftParts
      refine ⟨declaration, hdeclaration, ?_, .parameter hleftChild hleft hchild hkind⟩
      rw [Kind.holder_of_left _ hleftParts]
      rfl
    · refine ⟨parent, hholder, ?_, .own hchild hkind⟩
      simp only [List.mem_cons, List.not_mem_nil, or_false, hleft] at hbinds
      simpa [bindsPatterns] using hbinds

-- ---------------------------------------------------------------------------
-- Regions
-- ---------------------------------------------------------------------------

theorem bindsAtDeclaration_iff (hpattern : pattern ∈ (Site.root tree).nodes)
    (howner : owner ∈ (Site.root tree).nodes) :
    bindsAtDeclaration pattern owner = true ↔ IsAtLevel owner pattern := by
  constructor
  · intro h
    unfold bindsAtDeclaration at h
    split at h
    · cases h
    rename_i parent hparent
    obtain ⟨hmem, hchild⟩ := Site.mem_children_of_parent? hpattern hparent
    rw [Bool.or_eq_true, Bool.and_eq_true, Site.same_iff hmem howner, List.contains_iff_mem,
      Option.any_eq_true] at h
    obtain rfl | ⟨hkind, outer, houter, hsame⟩ := h
    · exact .inl hchild
    · obtain ⟨houterMem, houterChild⟩ := Site.mem_children_of_parent? hmem houter
      obtain rfl := (Site.same_iff houterMem howner).mp hsame
      exact .inr ⟨parent, houterChild, hkind, hchild⟩
  · rintro (hchild | ⟨outer, houter, hkind, hchild⟩)
    · simp [bindsAtDeclaration, Site.parent?_of_mem_children hchild, Site.same]
    · simp only [bindsAtDeclaration, Site.parent?_of_mem_children hchild,
        Site.parent?_of_mem_children houter, List.contains_iff_mem.mpr hkind]
      simp [Site.same]

theorem parentOf?_letInExpr (hdeclaration : declaration ∈ (Site.root tree).nodes)
    (hkind : declaration.kind = .valueDeclaration) :
    declaration.parentOf? [.letInExpr] = some block ↔ IsDeclarationOf block declaration := by
  rw [Site.parentOf?, Option.filter_eq_some_iff]
  constructor
  · rintro ⟨hparent, hlet⟩
    refine ⟨by simpa using hlet, hkind, (Site.mem_children_of_parent? hdeclaration hparent).2⟩
  · rintro ⟨hlet, -, hchild⟩
    exact ⟨Site.parent?_of_mem_children hchild, by simpa using hlet⟩

/-- The region of a pattern's name, once its owner is known. -/
theorem patternRegion?_eq (h : PatternOf owner pattern) (howner : bindsPatterns owner.kind = true) :
    patternRegion? pattern = some
      (if owner.kind = .valueDeclaration && bindsAtDeclaration pattern owner then
        (owner.parentOf? [.letInExpr]).getD owner
      else owner) := by
  have hfind : (pattern.ancestors.tail.find? fun s =>
      [Kind.valueDeclaration, .caseOfBranch, .anonymousFunctionExpr].contains s.kind) =
        some owner := find?_owner h howner
  rw [patternRegion?, hfind]
  rfl

theorem PatternOf.mem_nodes (h : PatternOf owner pattern)
    (hpattern : pattern ∈ (Site.root tree).nodes) : owner ∈ (Site.root tree).nodes := by
  induction h with
  | own hchild => exact Site.mem_nodes_of_child hpattern hchild
  | parameter hleft _ hchild =>
    exact Site.mem_nodes_of_child (Site.mem_nodes_of_child hpattern hchild) hleft
  | inside _ hchild _ ih => exact ih (Site.mem_nodes_of_child hpattern hchild)

theorem patternRegion?_of_isRegionOf (hsite : site ∈ (Site.root tree).nodes)
    (hkind : site.kind = .lowerPattern) (h : IsRegionOf site region) :
    patternRegion? site = some region := by
  have hpattern : site.kind.isPattern = true := by rw [hkind]; rfl
  cases h with
  | function _ _ hleft =>
    rw [hkind] at hleft
    cases hleft
  | level hblock hlevel =>
    have howns := patternOf_of_isAtLevel hpattern hlevel
    have hmem := howns.mem_nodes hsite
    have hdeclaration := hblock.2.1
    rw [patternRegion?_eq howns (by rw [hdeclaration]; rfl), hdeclaration,
      (bindsAtDeclaration_iff hsite hmem).mpr hlevel, (parentOf?_letInExpr hmem hdeclaration).mpr
        hblock]
    rfl
  | owner howner howns _ hdeeper =>
    have hmem := howns.mem_nodes hsite
    rw [patternRegion?_eq howns howner]
    split
    · rename_i hlevel
      rw [Bool.and_eq_true, decide_eq_true_eq, bindsAtDeclaration_iff hsite hmem] at hlevel
      cases hblock : region.parentOf? [.letInExpr] with
      | none => rfl
      | some block =>
        exact absurd hlevel.2 (hdeeper block ((parentOf?_letInExpr hmem hlevel.1).mp hblock))
    · rfl

/-- No variable is without a region. -/
theorem exists_region_of_pattern (h : tree.IsFile) (hsite : site ∈ (Site.root tree).nodes)
    (hkind : site.kind = .lowerPattern) : ∃ region, IsRegionOf site region := by
  obtain ⟨owner, -, howner, howns⟩ := exists_owner h hsite (by rw [hkind]; rfl)
  by_cases hlevel : ∃ block, IsDeclarationOf block owner ∧ IsAtLevel owner site
  · obtain ⟨block, hblock, hlevel⟩ := hlevel
    exact ⟨block, .level hblock hlevel hkind⟩
  · refine ⟨owner, .owner howner howns hkind fun block hblock hat => ?_⟩
    exact hlevel ⟨block, hblock, hat⟩

-- ---------------------------------------------------------------------------
-- Bindings
-- ---------------------------------------------------------------------------

/-- A variable in a pattern, or the left side of a function of a `let`. -/
def introducesName (site : Site) : Bool :=
  site.kind == .lowerPattern ||
    site.kind == .functionDeclarationLeft && site.parent?.any fun declaration =>
      (declaration.parentOf? [.letInExpr]).isSome

theorem child?_of_first {part : Site} (hpart : part ∈ site.children)
    (hfirst : part.kind ∉ (Tree.nodeKinds site.tree.children).tail) :
    site.child? part.kind = some part := by
  rw [Site.nodeKinds_children] at hfirst
  rw [Site.child?]
  cases hchildren : site.children with
  | nil => simp [hchildren] at hpart
  | cons first others =>
    rw [hchildren] at hpart hfirst
    obtain rfl | hpart := List.mem_cons.mp hpart
    · exact List.find?_cons_of_pos (beq_self_eq_true _)
    · exact absurd (List.mem_map_of_mem hpart) hfirst

/-- The left side of a function stands first in its declaration, which stands in a `let` or is one
of the file's. -/
theorem declaration_of_left (h : tree.IsFile) (hsite : site ∈ (Site.root tree).nodes)
    (hkind : site.kind = .functionDeclarationLeft) :
    ∃ declaration ∈ (Site.root tree).nodes, declaration.kind = .valueDeclaration ∧
      declaration.child? .functionDeclarationLeft = some site ∧
      (declaration ∈ (Site.root tree).children ∨ ∃ block, IsDeclarationOf block declaration) := by
  obtain ⟨declaration, hdeclaration, hchild, hparts⟩ :=
    h.exists_parent hsite (by rw [hkind]; decide)
  rw [hkind] at hparts
  have hvalue := Kind.holder_of_left _ hparts
  have hkeeps := h.keeps hdeclaration
  have hfirst : site.kind ∉ (Tree.nodeKinds declaration.tree.children).tail := by
    rwa [hvalue, Tree.Keeps, ← hkind] at hkeeps
  refine ⟨declaration, hdeclaration, hvalue, hkind ▸ child?_of_first hchild hfirst, ?_⟩
  obtain ⟨block, hblock, hchild, hparts⟩ := h.exists_parent hdeclaration (by rw [hvalue]; decide)
  rw [hvalue] at hparts
  obtain hfile | hlet := Kind.holder_of_declaration _ hparts
  · exact .inl (h.eq_root hblock hfile ▸ hchild)
  · exact .inr ⟨block, hlet, hvalue, hchild⟩

theorem exists_name (h : tree.IsFile) (hsite : site ∈ (Site.root tree).nodes)
    (hkind : site.kind = .lowerPattern ∨ site.kind = .functionDeclarationLeft) :
    ∃ token, site.token? .lowerIdent = some token := by
  have hname : ∃ name, Tree.token .lowerIdent name ∈ site.tree.children := by
    have hkeeps := h.keeps hsite
    obtain hkind | hkind := hkind <;> rwa [hkind] at hkeeps
  obtain ⟨name, hname⟩ := hname
  rw [← Site.map_tree_parts] at hname
  obtain ⟨part, hpart, htree⟩ := List.mem_map.mp hname
  refine Option.isSome_iff_exists.mp (List.find?_isSome.mpr ⟨part, hpart, ?_⟩)
  rw [Site.kind, htree]
  rfl

theorem kind_of_introducesName (h : introducesName site = true) :
    site.kind = .lowerPattern ∨ site.kind = .functionDeclarationLeft := by
  simp only [introducesName, Bool.or_eq_true, Bool.and_eq_true, beq_iff_eq] at h
  exact h.imp_right (·.1)

/-- There is a region exactly for what introduces a name. -/
theorem introducesName_iff (h : tree.IsFile) (hsite : site ∈ (Site.root tree).nodes) :
    introducesName site = true ↔ ∃ region, IsRegionOf site region := by
  constructor
  · intro hname
    obtain hkind | hkind := kind_of_introducesName hname
    · exact exists_region_of_pattern h hsite hkind
    obtain ⟨declaration, hdeclaration, hvalue, hleft, -⟩ := declaration_of_left h hsite hkind
    have hchild : site ∈ declaration.children := List.mem_of_find?_eq_some hleft
    simp only [introducesName, hkind, Site.parent?_of_mem_children hchild, Option.any_some,
      beq_self_eq_true, Bool.true_and, Bool.or_eq_true] at hname
    obtain ⟨block, hblock⟩ := Option.isSome_iff_exists.mp (hname.resolve_left (by decide))
    exact ⟨block, .function ((parentOf?_letInExpr hdeclaration hvalue).mp hblock) hchild hkind⟩
  · rintro ⟨region, hregion⟩
    cases hregion with
    | function hblock hleft hkind =>
      have hparent :=
        (parentOf?_letInExpr (Site.mem_nodes_of_child hsite hleft) hblock.2.1).mpr hblock
      simp [introducesName, hkind, Site.parent?_of_mem_children hleft, hparent]
    | level _ _ hkind | owner _ _ hkind => simp [introducesName, hkind]

theorem bindingAt?_of_isRegionOf {token : Site} (hsite : site ∈ (Site.root tree).nodes)
    (hregion : IsRegionOf site region) (htoken : site.token? .lowerIdent = some token) :
    bindingAt? site = some ⟨token.text, site, token, region⟩ := by
  by_cases hkind : site.kind = .lowerPattern
  · simp [bindingAt?, hkind, htoken, patternRegion?_of_isRegionOf hsite hkind hregion]
  cases hregion with
  | function hblock hleft hkind =>
    have hparent :=
      (parentOf?_letInExpr (Site.mem_nodes_of_child hsite hleft) hblock.2.1).mpr hblock
    simp [bindingAt?, hkind, htoken, Site.parent?_of_mem_children hleft, hparent]
  | level _ _ hpattern | owner _ _ hpattern => exact absurd hpattern hkind

theorem bindingAt?_of_introducesName (h : tree.IsFile) (hsite : site ∈ (Site.root tree).nodes)
    (hname : introducesName site = true) :
    ∃ token region, site.token? .lowerIdent = some token ∧ IsRegionOf site region ∧
      bindingAt? site = some ⟨token.text, site, token, region⟩ := by
  obtain ⟨token, htoken⟩ := exists_name h hsite (kind_of_introducesName hname)
  obtain ⟨region, hregion⟩ := (introducesName_iff h hsite).mp hname
  exact ⟨token, region, htoken, hregion, bindingAt?_of_isRegionOf hsite hregion htoken⟩

theorem bindingAt?_eq_none (hname : introducesName site = false) : bindingAt? site = none := by
  simp only [introducesName, Bool.or_eq_false_iff, beq_eq_false_iff_ne] at hname
  obtain ⟨hpattern, hleft⟩ := hname
  unfold bindingAt?
  split
  · exact absurd ‹_› hpattern
  · rename_i hkind
    cases hparent : site.parent? with
    | none => rfl
    | some declaration =>
      have hregion : declaration.parentOf? [.letInExpr] = none := by
        simpa [hkind, hparent] using hleft
      simp [hregion]
  · rfl

/-- Every name that is introduced in a file has one binding, in text order. -/
theorem map_site_localBindings (h : tree.IsFile) :
    (localBindings (.root tree)).map (·.site) = (Site.root tree).nodes.filter introducesName := by
  rw [localBindings, List.map_filterMap, ← List.filterMap_eq_filter]
  refine List.filterMap_congr fun site hsite => ?_
  cases hname : introducesName site with
  | false => simp [bindingAt?_eq_none hname, hname, Option.guard]
  | true =>
    obtain ⟨token, region, -, -, hbinding⟩ := bindingAt?_of_introducesName h hsite hname
    simp [hbinding, hname, Option.guard]

theorem mem_localBindings (h : tree.IsFile) (hb : b ∈ localBindings (.root tree)) :
    b.site ∈ (Site.root tree).nodes ∧ bindingAt? b.site = some b ∧
      b.site.token? .lowerIdent = some b.token ∧ b.name = b.token.text ∧
      ∀ region, IsRegionOf b.site region ↔ region = b.region := by
  obtain ⟨site, hsite, hbinding⟩ := List.mem_filterMap.mp hb
  have hname : introducesName site = true := by
    by_contra hname
    rw [bindingAt?_eq_none (by simpa using hname)] at hbinding
    cases hbinding
  obtain ⟨token, region, htoken, hregion, heq⟩ := bindingAt?_of_introducesName h hsite hname
  obtain rfl := Option.some.inj (heq.symm.trans hbinding)
  refine ⟨hsite, heq, htoken, rfl, fun other => ⟨fun hother => ?_, fun hother => hother ▸ hregion⟩⟩
  have hsame := (bindingAt?_of_isRegionOf hsite hother htoken).symm.trans heq
  exact congrArg Binding.region (Option.some.inj hsame)

-- Only the first name is at the level of the declaration.
example : (localBindings (.root (parse "f = let (a, (b, c)) = x in a\n").tree)).map
    (fun b => (b.name, b.region.kind)) =
    [("a", .letInExpr), ("b", .valueDeclaration), ("c", .valueDeclaration)] := by decide +kernel

end ElmLint.Lint

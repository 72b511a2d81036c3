import ElmLint.Proofs.Syntax.Ancestry
import ElmLint.Proofs.Syntax.Cuts

/-!
# The parts of a node, in a row

Of the parts of a node those that are neither white space nor comments are spelled after its kind.
So a part stands behind the one that its spelling names, and nothing but white space and comments
stands between the two.
-/

namespace ElmLint.Syntax

variable {c : Char} {cs : List Char} {kind : Kind} {kinds : List Kind} {site part : Site}
  {sites before middle after : List Site} {text : String}

-- ---------------------------------------------------------------------------
-- Tokens and nodes
-- ---------------------------------------------------------------------------

/-- The kinds of tokens. -/
def Kind.isLexical (kind : Kind) : Bool :=
  kind.isTrivia || kind.isKeyword || kind.isPunctuation || kind.isLiteral ||
    [Kind.lowerIdent, .upperIdent, .operatorIdent, .error].contains kind

theorem Kind.isLexical_of_isTrivia (h : kind.isTrivia = true) : kind.isLexical = true := by
  simp [isLexical, h]

theorem Kind.isLexical_of_delimiter : ∀ kind ∈ delimiters, kind.isLexical = true := by decide

theorem isLexical_lexeme (c : Char) (cs : List Char) : (lexeme c cs).kind.isLexical = true := by
  have hliteral {l : Lexeme} (h : l.kind ∈ [Kind.string, .char, .error]) :
      l.kind.isLexical = true := by
    have hall : ∀ kind ∈ [Kind.string, .char, .error], kind.isLexical = true := by decide
    exact hall _ h
  refine lexeme_cases (P := fun l => l.kind.isLexical = true) (fun _ => rfl) (fun _ _ _ => rfl)
    (fun rest _ _ => ?_) (fun _ => ?_) (fun _ => rfl) (fun _ => ?_)
    (fun rest _ _ => hliteral (kind_literal_mem (kind_multiline rest) (by decide)))
    (fun _ => hliteral (kind_literal_mem (kind_quoted .string '"' cs) (by decide)))
    (fun _ => hliteral (kind_literal_mem (kind_quoted .char '\'' cs) (by decide)))
    (fun _ => ?_) ?_
  · rw [Lexeme.prepend, kind_blockComment]
    rfl
  · unfold wordKind
    split <;> rfl
  · rw [kind_number]
    rfl
  · unfold symbolKind
    split <;> rfl
  · unfold Lexeme.single punctuationKind?
    split <;> rfl

theorem Site.isLexical_of_mem_tokens (h : site ∈ (Site.root (parse text).tree).tokens) :
    site.kind.isLexical = true := by
  have hmem := List.mem_map_of_mem (f := Site.toToken) h
  rw [map_toToken_parse] at hmem
  obtain ⟨c, cs, hkind, -⟩ := exists_lexeme_of_mem_tokenize hmem
  exact (congrArg Kind.isLexical hkind).trans (isLexical_lexeme c cs)

/-- The kinds of the places that are neither white space nor comments. -/
def solidKinds (sites : List Site) : List Kind := (sites.map Site.kind).filter (!·.isTrivia)

theorem solidKinds_append (first second : List Site) :
    solidKinds (first ++ second) = solidKinds first ++ solidKinds second := by
  simp [solidKinds]

theorem solidKinds_parts (site : Site) :
    solidKinds site.parts = Tree.partKinds site.tree.children := by
  rw [solidKinds, Tree.partKinds, ← Site.map_tree_parts, List.map_map]
  rfl

theorem solidKinds_eq_nil (h : solidKinds sites = []) :
    ∀ site ∈ sites, site.kind.isTrivia = true := by
  intro site hsite
  have hnone := List.filter_eq_nil_iff.mp h site.kind (List.mem_map_of_mem hsite)
  simpa using hnone

theorem mem_solidKinds (h : part ∈ sites) (hkind : part.kind.isTrivia = false) :
    part.kind ∈ solidKinds sites :=
  List.mem_filter.mpr ⟨List.mem_map_of_mem h, by simp [hkind]⟩

theorem exists_solid_append {more : List Kind} (h : solidKinds sites = kinds ++ more) :
    ∃ before after, sites = before ++ after ∧ solidKinds before = kinds ∧
      solidKinds after = more := by
  obtain ⟨front, back, hmap, hfront, hback⟩ := List.filter_eq_append_iff.mp h
  obtain ⟨before, after, rfl, rfl, rfl⟩ := List.map_eq_append_iff.mp hmap
  exact ⟨before, after, rfl, hfront, hback⟩

/-- The first place that is seen, behind white space and comments. -/
theorem exists_first_solid (h : solidKinds sites = kind :: kinds) :
    ∃ gap site more, sites = gap ++ site :: more ∧ (∀ place ∈ gap, place.kind.isTrivia = true) ∧
      site.kind = kind ∧ solidKinds more = kinds := by
  obtain ⟨front, back, hmap, hfront, -, hback⟩ := List.filter_eq_cons_iff.mp h
  obtain ⟨gap, row, rfl, hgap, hrow⟩ := List.map_eq_append_iff.mp hmap
  obtain ⟨site, more, rfl, hsite, hmore⟩ := List.map_eq_cons_iff.mp hrow
  refine ⟨gap, site, more, rfl, fun place hplace => ?_, hsite, ?_⟩
  · have hnone := hfront place.kind (hgap ▸ List.mem_map_of_mem hplace)
    simpa using hnone
  · rw [solidKinds, hmore, hback]

/-- The last place that is seen, in front of white space and comments. -/
theorem exists_last_solid (h : solidKinds sites = kinds ++ [kind]) :
    ∃ more site gap, sites = more ++ site :: gap ∧ (∀ place ∈ gap, place.kind.isTrivia = true) ∧
      site.kind = kind ∧ solidKinds more = kinds := by
  have hreverse : solidKinds sites.reverse = kind :: kinds.reverse := by
    rw [solidKinds, List.map_reverse, List.filter_reverse]
    exact (congrArg List.reverse h).trans (by simp)
  obtain ⟨gap, site, more, hsites, hgap, hkind, hmore⟩ := exists_first_solid hreverse
  refine ⟨more.reverse, site, gap.reverse, ?_, by simpa using hgap, hkind, ?_⟩
  · rw [← sites.reverse_reverse, hsites]
    simp
  · rw [solidKinds, List.map_reverse, List.filter_reverse]
    exact (congrArg List.reverse hmore).trans (by simp)

-- ---------------------------------------------------------------------------
-- The parts of a node
-- ---------------------------------------------------------------------------

/-- Nodes and tokens are of different kinds, errors aside. -/
theorem Kind.isLexical_of_mem_parts (kind : Kind) :
    ∀ part ∈ kind.parts, part = .error ∨ part.isLexical = false := by
  cases kind <;> decide

/-- The tokens of a text around those of the parts of a node. -/
theorem exists_tokens_around (hsite : site ∈ (Site.root (parse text).tree).nodes) :
    ∃ front back, (Site.root (parse text).tree).tokens =
      front ++ (site.parts.flatMap Site.tokens ++ back) := by
  obtain ⟨hplace, hnode⟩ := List.mem_filter.mp hsite
  rw [← Site.tokens_node hnode]
  exact Site.exists_tokens_eq hplace

section Parsed

variable (hok : (parse text).ok = true) (hsite : site ∈ (Site.root (parse text).tree).nodes)
include hok hsite

theorem isNode_of_part (hpart : part ∈ site.parts) :
    part.tree.isNode = !part.kind.isLexical := by
  have hplace : part ∈ (Site.root (parse text).tree).descendants :=
    Site.mem_descendants_trans (List.mem_filter.mp hsite).1
      (Site.mem_descendants_of_mem_parts hpart)
  cases hnode : part.tree.isNode with
  | true =>
    have hkind := (isFile_parse text).kind_mem_parts hsite (List.mem_filter.mpr ⟨hpart, hnode⟩)
    obtain herror | hlexical := Kind.isLexical_of_mem_parts _ _ hkind
    · exact absurd herror (kind_ne_error_of_mem_descendants hok hplace)
    · simp [hlexical]
  | false =>
    simp [Site.isLexical_of_mem_tokens (List.mem_filter.mpr ⟨hplace, by simpa using hnode⟩)]

theorem mem_nodes_of_part (hpart : part ∈ site.parts) (hkind : part.kind.isLexical = false) :
    part ∈ (Site.root (parse text).tree).nodes := by
  refine Site.mem_nodes_of_mem_children hsite (List.mem_filter.mpr ⟨hpart, ?_⟩)
  rw [isNode_of_part hok hsite hpart, hkind]
  rfl

theorem tokens_of_part (hpart : part ∈ site.parts) (hlexical : part.kind.isLexical = true) :
    part.tokens = [part] :=
  Site.tokens_token (by simp [isNode_of_part hok hsite hpart, hlexical])

/-- The nodes among the parts of a node are those that are no tokens by their kind. -/
theorem map_kind_children :
    site.children.map Site.kind = (solidKinds site.parts).filter (!·.isLexical) := by
  have hnodes : site.children = site.parts.filter (!·.kind.isLexical) :=
    List.filter_congr fun part hpart => isNode_of_part hok hsite hpart
  rw [hnodes, solidKinds, List.filter_filter, List.filter_map]
  refine congrArg _ (List.filter_congr fun part _ => ?_)
  cases htrivia : part.kind.isTrivia <;> simp [Kind.isLexical, htrivia]

/-- White space and comments among the parts of a node are tokens. -/
theorem flatMap_tokens_gap {gap : List Site} (hgap : ∀ place ∈ gap, place ∈ site.parts)
    (htrivia : ∀ place ∈ gap, place.kind.isTrivia = true) : gap.flatMap Site.tokens = gap := by
  rw [List.flatMap_congr fun place hplace => tokens_of_part hok hsite (hgap place hplace)
    (Kind.isLexical_of_isTrivia (htrivia place hplace)), List.flatMap_singleton']

theorem flatMap_words_gap {gap : List Site} (hgap : ∀ place ∈ gap, place ∈ site.parts)
    (htrivia : ∀ place ∈ gap, place.kind.isTrivia = true) : gap.flatMap Site.words = [] := by
  have hwords : gap.flatMap Site.words = (gap.flatMap Site.tokens).filter (!·.kind.isTrivia) :=
    List.filter_flatMap.symm
  rw [hwords, flatMap_tokens_gap hok hsite hgap htrivia]
  exact List.filter_eq_nil_iff.mpr fun place hplace => by simp [htrivia place hplace]

theorem not_isTrivia_of_last_part (hkind : site.kind ≠ .file) (h : site.parts = before ++ [part]) :
    part.kind.isTrivia = false := by
  by_contra htrivia
  have hplace : part.kind.isTrivia = true := by simpa using htrivia
  obtain ⟨leaf, hleaf, hleafKind⟩ := ends_of_mem_nodes hok hsite hkind
  have htokens : part.tokens = [part] :=
    tokens_of_part hok hsite (by simp [h]) (Kind.isLexical_of_isTrivia hplace)
  rw [← map_kind_tokens, Site.tokens_node (List.mem_filter.mp hsite).2, h] at hleaf
  have hend : leaf = (part.kind, part.text) := by simpa [htokens] using hleaf.symm
  rw [hend, hplace] at hleafKind
  cases hleafKind

theorem not_isTrivia_of_first_part (hkind : site.kind ≠ .file) (h : site.parts = part :: after) :
    part.kind.isTrivia = false := by
  by_contra htrivia
  have htokens : part.tokens = [part] := tokens_of_part hok hsite (by simp [h])
    (Kind.isLexical_of_isTrivia (by simpa using htrivia))
  have hleaf : (part.kind, part.text) ∈ site.tree.leaves.head? := by
    rw [← map_kind_tokens, Site.tokens_node (List.mem_filter.mp hsite).2, h]
    simp [htokens]
  have hbegins := begins_of_mem_nodes hsite hkind hleaf
  exact htrivia hbegins

/-- White space and comments are not at the end. -/
theorem eq_nil_of_solidKinds (hkind : site.kind ≠ .file) (h : site.parts = before ++ after)
    (hafter : solidKinds after = []) : after = [] := by
  obtain hnil | ⟨gap, place, rfl⟩ := List.eq_nil_or_concat after
  · exact hnil
  · have hplace : place.kind.isTrivia = false :=
      not_isTrivia_of_last_part hok hsite hkind (h.trans (by rw [List.concat_eq_append,
        ← List.append_assoc]))
    rw [solidKinds_eq_nil hafter place (by simp)] at hplace
    cases hplace

/-- The last part that is seen is the last. -/
theorem exists_last_part (hkind : site.kind ≠ .file)
    (h : solidKinds site.parts = kinds ++ [kind]) :
    ∃ more last, site.parts = more ++ [last] ∧ last.kind = kind ∧ solidKinds more = kinds := by
  obtain ⟨more, last, gap, hparts, hgap, hlast, hmore⟩ := exists_last_solid h
  have hnone : solidKinds gap = [] := by simpa [solidKinds] using hgap
  have hsplit : site.parts = (more ++ [last]) ++ gap := by simp [hparts]
  obtain rfl := eq_nil_of_solidKinds hok hsite hkind hsplit hnone
  exact ⟨more, last, hparts, hlast, hmore⟩

/-- The first part that is seen is the first. -/
theorem exists_first_part (hkind : site.kind ≠ .file) (h : solidKinds site.parts = kind :: kinds) :
    ∃ first more, site.parts = first :: more ∧ first.kind = kind ∧ solidKinds more = kinds := by
  obtain ⟨gap, first, more, hparts, hgap, hfirst, hmore⟩ := exists_first_solid h
  cases gap with
  | nil => exact ⟨first, more, hparts, hfirst, hmore⟩
  | cons place gap =>
    have hplace := not_isTrivia_of_first_part hok hsite hkind hparts
    rw [hgap place List.mem_cons_self] at hplace
    cases hplace

/-- A node with a single part that is seen has a single part. -/
theorem exists_only_part (hkind : site.kind ≠ .file) (h : solidKinds site.parts = [kind]) :
    ∃ only, site.parts = [only] ∧ only.kind = kind := by
  obtain ⟨only, gap, hparts, honly, hgap⟩ := exists_first_part hok hsite hkind h
  obtain rfl := eq_nil_of_solidKinds hok hsite hkind (show site.parts = [only] ++ gap from hparts)
    hgap
  exact ⟨only, hparts, honly⟩

/-- A node starts with a word. -/
theorem exists_first_token (hkind : site.kind ≠ .file) :
    ∃ first more, site.tokens = first :: more ∧ first.kind.isTrivia = false := by
  have hleaves := map_kind_tokens site
  cases htokens : site.tokens with
  | nil =>
    obtain ⟨leaf, hleaf, -⟩ := ends_of_mem_nodes hok hsite hkind
    rw [← hleaves, htokens] at hleaf
    cases hleaf
  | cons first more =>
    rw [htokens] at hleaves
    exact ⟨first, more, rfl, begins_of_mem_nodes hsite hkind (by rw [← hleaves]; rfl)⟩

theorem significantRange_of_mem_nodes (hkind : site.kind ≠ .file) :
    site.significantRange = site.range := by
  obtain ⟨first, more, htokens, hfirst⟩ := exists_first_token hok hsite hkind
  obtain ⟨last, hlast, hlastKind⟩ := ends_of_mem_nodes hok hsite hkind
  have hhead : site.tree.leaves.head? = some (first.kind, first.text) := by
    rw [← map_kind_tokens, htokens]
    rfl
  exact (Site.significant_eq hhead hfirst hlast hlastKind).1

/-- Where the last part that is seen is a token, it is the last token. -/
theorem tokens_eq_concat (hkind : site.kind ≠ .file) (hlexical : kind.isLexical = true)
    (h : Tree.partKinds site.tree.children = kinds ++ [kind]) :
    ∃ more last, site.tokens = more ++ [last] ∧ last.kind = kind := by
  rw [← solidKinds_parts] at h
  obtain ⟨more, last, hparts, rfl, -⟩ := exists_last_part hok hsite hkind h
  have htokens : last.tokens = [last] :=
    tokens_of_part hok hsite (by simp [hparts]) hlexical
  refine ⟨more.flatMap Site.tokens, last, ?_, rfl⟩
  rw [Site.tokens_node (List.mem_filter.mp hsite).2, hparts]
  simp [htokens]

theorem tokens_ne_nil_of_part (hpart : part ∈ site.parts) : part.tokens ≠ [] := by
  cases hnode : part.tree.isNode with
  | false => simp [Site.tokens_token hnode]
  | true =>
    have hchild : part ∈ site.children := List.mem_filter.mpr ⟨hpart, hnode⟩
    have hkind := (isFile_parse text).kind_mem_parts hsite hchild
    obtain ⟨first, more, htokens, -⟩ := exists_first_token hok
      (Site.mem_nodes_of_mem_children hsite hchild)
      (by rintro hfile; exact Kind.holder_of_file _ (hfile ▸ hkind))
    simp [htokens]

/-- Where parts next to each other start and stop in the text. -/
theorem range_of_parts {first last : Site} {front back : List Site}
    (hparts : site.parts = before ++ (middle ++ after)) (hfirst : middle.head? = some first)
    (hlast : middle.getLast? = some last)
    (h : (Site.root (parse text).tree).tokens = (front ++ before.flatMap Site.tokens) ++
      (middle.flatMap Site.tokens ++ (after.flatMap Site.tokens ++ back))) :
    (⟨first.start, last.stop⟩ : ByteRange) =
      ⟨utf8Length (joined ((front ++ before.flatMap Site.tokens).map Site.piece)),
        utf8Length (joined
          ((front ++ before.flatMap Site.tokens ++ middle.flatMap Site.tokens).map
            Site.piece))⟩ := by
  have hstart : first.start =
      utf8Length (joined ((front ++ before.flatMap Site.tokens).map Site.piece)) := by
    obtain ⟨more, rfl⟩ := List.head?_eq_some_iff.mp hfirst
    have hbehind : (Site.root (parse text).tree).tokens = (front ++ before.flatMap Site.tokens) ++
        (first.tokens ++ (more.flatMap Site.tokens ++ (after.flatMap Site.tokens ++ back))) := by
      simp [h]
    exact start_of_tokens hbehind (tokens_ne_nil_of_part hok hsite (by simp [hparts]))
  have hstop : last.stop = utf8Length (joined
      ((front ++ before.flatMap Site.tokens ++ middle.flatMap Site.tokens).map Site.piece)) := by
    obtain ⟨more, rfl⟩ := List.getLast?_eq_some_iff.mp hlast
    have hinFront : (Site.root (parse text).tree).tokens =
        (front ++ before.flatMap Site.tokens ++ more.flatMap Site.tokens) ++
          (last.tokens ++ (after.flatMap Site.tokens ++ back)) := by
      simp [h]
    rw [stop_of_tokens hinFront (tokens_ne_nil_of_part hok hsite (by simp [hparts]))]
    simp
  rw [hstart, hstop]

end Parsed

end ElmLint.Syntax

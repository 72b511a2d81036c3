import ElmLint.Proofs.Syntax.ImportCuts
import ElmLint.Proofs.Syntax.Parts
import ElmLint.Proofs.Syntax.ReadNames

/-!
# The parts of an import

An import is spelled with its keyword and a name, and then perhaps with an alias and a list of
exposed items. So wherever one of the two clauses stands among its parts, what is in front of the
clause is the front of an import, and taking the clause out cuts the text.
-/

namespace ElmLint.Syntax

open Production (one)
open Tree (Within)

variable {text : String} {imp site name clause list keyword : Site} {kind first last : Kind}
  {kinds word : List Kind} {hasAlias : Bool} {before after kept gap clauses more sites : List Site}

-- ---------------------------------------------------------------------------
-- Kinds of tokens
-- ---------------------------------------------------------------------------

/-- The kinds of all tokens in the places. -/
def tokenKinds (sites : List Site) : List Kind := (sites.flatMap Site.tokens).map Site.kind

theorem tokenKinds_append (before after : List Site) :
    tokenKinds (before ++ after) = tokenKinds before ++ tokenKinds after := by
  simp [tokenKinds]

theorem tokenKinds_cons (site : Site) (sites : List Site) :
    tokenKinds (site :: sites) = site.tokens.map Site.kind ++ tokenKinds sites := by
  simp [tokenKinds]

theorem map_fst_piece (sites : List Site) :
    (sites.map Site.piece).map Prod.fst = sites.map Site.kind := by
  rw [List.map_map]
  rfl

theorem length_leavesOf (sites : List Site) :
    (Tree.leavesOf (sites.map Site.tree)).length = (sites.flatMap Site.tokens).length := by
  induction sites with
  | nil => rfl
  | cons site sites ih =>
    rw [List.map_cons, Tree.leavesOf, List.length_append, ih, ← map_kind_tokens, List.length_map,
      List.flatMap_cons, List.length_append]

theorem within_of_mem_descendants (h : site ∈ (Site.root (parse text).tree).descendants) :
    Within site.tree (parse text).tree :=
  Site.tree_of_mem_descendants (P := (Within · (parse text).tree))
    (fun tree htree child hchild => by
      cases tree with
      | token => cases hchild
      | node => exact (Within.child hchild (.self _)).trans htree) (.self _) site h

section Parsed

variable (hok : (parse text).ok = true) (hsite : site ∈ (Site.root (parse text).tree).nodes)
include hok hsite

theorem tokenKinds_gap (hgap : ∀ place ∈ gap, place ∈ site.parts)
    (htrivia : ∀ place ∈ gap, place.kind.isTrivia = true) :
    ∀ kind ∈ tokenKinds gap, kind.isTrivia = true := by
  rw [tokenKinds, flatMap_tokens_gap hok hsite hgap htrivia]
  exact List.forall_mem_map.mpr htrivia

end Parsed

theorem nameKinds_tokens (hname : name ∈ (Site.root (parse text).tree).nodes)
    (hkind : name.kind = .upperCaseQid) : NameKinds (tokenKinds [name]) := by
  obtain ⟨hmem, hnode⟩ := List.mem_filter.mp hname
  have htree : name.tree.kind = .upperCaseQid := hkind
  have hparts := hasNames_parse text _ (within_of_mem_descendants hmem) hnode (by rw [htree]; rfl)
  rw [htree] at hparts
  have hleaves : tokenKinds [name] = name.tree.leaves.map Prod.fst := by
    rw [← map_kind_tokens, List.map_map, tokenKinds, List.flatMap_singleton]
    rfl
  rw [hleaves]
  cases hall : name.tree with
  | token => simp [hall, Tree.isNode] at hnode
  | node =>
    rw [hall] at hparts
    exact hparts.nameKinds

section Parsed

variable (hok : (parse text).ok = true)
include hok

/-- An alias is a keyword and a name. -/
theorem exists_aliasKinds (hclause : clause ∈ (Site.root (parse text).tree).nodes)
    (hkind : clause.kind = .asClause) :
    ∃ gap, tokenKinds [clause] = .asKw :: (gap ++ [.upperIdent]) ∧
      ∀ kind ∈ gap, kind.isTrivia = true := by
  have hfile : clause.kind ≠ .file := by rw [hkind]; decide
  have hword : solidKinds clause.parts = [.asKw, .upperIdent] := by
    have hspelt := spelt_of_mem_nodes hok hclause (by rw [hkind]; rfl)
    obtain ⟨front, hfront, back, hback, hword⟩ := Language.mem_mul.mp hspelt
    obtain rfl : front = [.asKw] := hfront
    obtain rfl : back = [.upperIdent] := hback
    rw [solidKinds_parts, ← hword]
    rfl
  obtain ⟨keyword, more, hparts, hkeyword, hmore⟩ := exists_first_part hok hclause hfile hword
  obtain ⟨front, last, hparts', hlast, hfront⟩ := exists_last_part hok hclause hfile
    (show solidKinds clause.parts = [.asKw] ++ [.upperIdent] from hword)
  obtain ⟨inside, rfl⟩ : ∃ inside, front = keyword :: inside := by
    cases front with
    | nil => cases hfront
    | cons first inside =>
      rw [hparts] at hparts'
      exact ⟨inside, by rw [(List.cons.inj hparts').1]⟩
  have hinside : ∀ place ∈ inside, place.kind.isTrivia = true := by
    have hnil : solidKinds inside = [] := by
      simpa [solidKinds, hkeyword, Kind.isTrivia] using hfront
    exact solidKinds_eq_nil hnil
  have htokens {part : Site} (hpart : part ∈ clause.parts) (hlexical : part.kind.isLexical = true) :
      part.tokens = [part] := tokens_of_part hok hclause hpart hlexical
  refine ⟨tokenKinds inside, ?_,
    tokenKinds_gap hok hclause (by simp +contextual [hparts']) hinside⟩
  have hnode := (List.mem_filter.mp hclause).2
  rw [tokenKinds, List.flatMap_singleton, Site.tokens_node hnode, ← tokenKinds, hparts',
    tokenKinds_append, tokenKinds_cons,
    htokens (show keyword ∈ clause.parts by simp [hparts']) (by rw [hkeyword]; rfl),
    tokenKinds_cons,
    htokens (show last ∈ clause.parts by simp [hparts']) (by rw [hlast]; rfl)]
  simp [hkeyword, hlast, tokenKinds]

theorem exists_listKinds (hlist : list ∈ (Site.root (parse text).tree).nodes)
    (hkind : list.kind = .exposingList) : ∃ inside, tokenKinds [list] = inside ++ [.rParen] := by
  have hspelt := spelt_of_mem_nodes hok hlist (by rw [hkind]; rfl)
  obtain ⟨inside, -, hword⟩ := Production.exists_of_mem_enclosed hspelt
  obtain ⟨front, close, htokens, hclose⟩ :=
    tokens_eq_concat hok hlist (by rw [hkind]; decide) rfl hword
  exact ⟨front.map Site.kind, by simp [tokenKinds, htokens, hclose]⟩

end Parsed

-- ---------------------------------------------------------------------------
-- Clauses among the parts
-- ---------------------------------------------------------------------------

/-- A clause among the parts of an import, what is kept in front of it and what comes behind. -/
structure ClauseParts (imp : Site) (hasAlias : Bool) (kept gap clause more : List Site) : Prop where
  parts_eq : imp.parts = kept ++ (gap ++ (clause ++ more))
  gap_trivia : ∀ place ∈ gap, place.kind.isTrivia = true
  isFront : ImportFront hasAlias (tokenKinds kept)
  isClause : IsClause hasAlias (tokenKinds clause) (tokenKinds more)

section Import

variable (hok : (parse text).ok = true) (himp : imp ∈ (Site.root (parse text).tree).nodes)
  (hkind : imp.kind = .importClause)
include hok himp hkind

theorem exists_importWord : ∃ renamed ∈ [[], [Kind.asClause]],
    ∃ exposed ∈ [[], [Kind.exposingKw, .exposingList]],
      solidKinds imp.parts = [.importKw, .upperCaseQid] ++ (renamed ++ exposed) := by
  have hspelt := spelt_of_mem_nodes hok himp (by rw [hkind]; rfl)
  obtain ⟨_, hrow, exposed, hexposed, hword⟩ := Language.mem_mul.mp hspelt
  obtain ⟨_, hfront, renamed, hrenamed, rfl⟩ := Language.mem_mul.mp hrow
  obtain ⟨keyword, hkeyword, name, hname, rfl⟩ := Language.mem_mul.mp hfront
  obtain rfl : keyword = [.importKw] := hkeyword
  obtain rfl : name = [.upperCaseQid] := hname
  refine ⟨renamed, ?_, exposed, ?_, ?_⟩
  · obtain rfl | rfl := (show renamed = [] ∨ renamed = [.asClause] from hrenamed)
    all_goals simp
  · obtain hnone | hlist := hexposed
    · obtain rfl : exposed = [] := hnone
      simp
    · obtain ⟨keyword, hkeyword, items, hitems, rfl⟩ := Language.mem_mul.mp hlist
      obtain rfl : keyword = [.exposingKw] := hkeyword
      obtain rfl : items = [.exposingList] := hitems
      simp
  · rw [solidKinds_parts, ← hword]
    simp

theorem exists_front (hparts : imp.parts = before ++ after)
    (hbefore : solidKinds before = [.importKw, .upperCaseQid]) :
    ∃ kept gap, before = kept ++ gap ∧ (∀ place ∈ gap, place.kind.isTrivia = true) ∧
      ImportFront false (tokenKinds kept) := by
  obtain ⟨front, name, gap, rfl, hgap, hname, hfront⟩ :=
    exists_last_solid (show solidKinds before = [.importKw] ++ [.upperCaseQid] from hbefore)
  obtain ⟨keyword, more, rfl, hkeyword, hmore⟩ : ∃ keyword more, front = keyword :: more ∧
      keyword.kind = .importKw ∧ solidKinds more = [] := by
    have hword : solidKinds imp.parts = .importKw :: .upperCaseQid :: solidKinds after := by
      rw [hparts, solidKinds_append, hbefore]
      rfl
    obtain ⟨first, rest, hfirst, hfirstKind, -⟩ :=
      exists_first_part hok himp (by rw [hkind]; decide) hword
    cases front with
    | nil => cases hfront
    | cons keyword more =>
      obtain ⟨rfl, -⟩ := List.cons.inj (hparts.symm.trans hfirst)
      exact ⟨keyword, more, rfl, hfirstKind, by
        simpa [solidKinds, hfirstKind, Kind.isTrivia] using hfront⟩
  have hnode : name ∈ (Site.root (parse text).tree).nodes :=
    mem_nodes_of_part hok himp (by simp [hparts]) (by rw [hname]; rfl)
  refine ⟨keyword :: more ++ [name], gap, by simp, hgap, ?_⟩
  have hkinds := ImportFront.name (tokenKinds_gap hok himp
    (by simp +contextual [hparts]) (solidKinds_eq_nil hmore)) (nameKinds_tokens hnode hname)
  rw [tokenKinds_append, tokenKinds_cons,
    tokens_of_part hok himp (show keyword ∈ imp.parts by simp [hparts]) (by rw [hkeyword]; rfl),
    List.map_singleton, hkeyword]
  exact hkinds

theorem exists_renamedFront (hparts : imp.parts = before ++ after)
    (hbefore : solidKinds before = [.importKw, .upperCaseQid, .asClause]) :
    ∃ kept gap, before = kept ++ gap ∧ (∀ place ∈ gap, place.kind.isTrivia = true) ∧
      ImportFront true (tokenKinds kept) := by
  obtain ⟨front, clause, gap, rfl, hgap, hclause, hfront⟩ := exists_last_solid
    (show solidKinds before = [.importKw, .upperCaseQid] ++ [.asClause] from hbefore)
  obtain ⟨kept, gap', rfl, hgap', hkept⟩ := exists_front hok himp hkind
    (hparts.trans (List.append_assoc ..)) hfront
  have hnode : clause ∈ (Site.root (parse text).tree).nodes :=
    mem_nodes_of_part hok himp (by simp [hparts]) (by rw [hclause]; rfl)
  obtain ⟨inside, hinside, htrivia⟩ := exists_aliasKinds hok hnode hclause
  refine ⟨kept ++ gap' ++ [clause], gap, by simp, hgap, ?_⟩
  rw [tokenKinds_append, tokenKinds_append, hinside]
  exact .renamed hkept (tokenKinds_gap hok himp (by simp +contextual [hparts]) hgap') htrivia

/-- What an import ends with is its list of exposed items. -/
theorem exists_exposing (hparts : imp.parts = before ++ after)
    (hafter : solidKinds after = [.exposingKw, .exposingList]) :
    ∃ gap keyword gap' list, after = gap ++ (keyword :: (gap' ++ [list])) ∧
      (∀ place ∈ gap, place.kind.isTrivia = true) ∧ keyword.kind = .exposingKw ∧
      (∀ place ∈ gap', place.kind.isTrivia = true) ∧ list.kind = .exposingList ∧
      ∃ inside,
        tokenKinds (keyword :: (gap' ++ [list])) = .exposingKw :: (inside ++ [.rParen]) := by
  obtain ⟨gap, keyword, more, rfl, hgap, hkeyword, hmore⟩ := exists_first_solid hafter
  obtain ⟨gap', list, rest, rfl, hgap', hlist, hrest⟩ := exists_first_solid hmore
  have hsplit : imp.parts = (before ++ gap ++ keyword :: (gap' ++ [list])) ++ rest := by
    simp [hparts]
  obtain rfl := eq_nil_of_solidKinds hok himp (by rw [hkind]; decide) hsplit hrest
  have hnode : list ∈ (Site.root (parse text).tree).nodes :=
    mem_nodes_of_part hok himp (by simp [hparts]) (by rw [hlist]; rfl)
  obtain ⟨inside, hinside⟩ := exists_listKinds hok hnode hlist
  refine ⟨gap, keyword, gap', list, rfl, hgap, hkeyword, hgap', hlist,
    tokenKinds gap' ++ inside, ?_⟩
  rw [tokenKinds_cons, tokenKinds_append, hinside,
    tokens_of_part hok himp (show keyword ∈ imp.parts by simp [hparts]) (by rw [hkeyword]; rfl),
    List.map_singleton, hkeyword, List.append_assoc, List.singleton_append]

/-- The alias of an import is a clause of it. -/
theorem exists_aliasParts (hclause : clause ∈ imp.parts) (hclauseKind : clause.kind = .asClause) :
    ∃ kept gap more, ClauseParts imp false kept gap [clause] more := by
  obtain ⟨before, after, hparts⟩ := List.append_of_mem hclause
  obtain ⟨renamed, hrenamed, exposed, hexposed, hword⟩ := exists_importWord hok himp hkind
  have hsplit : solidKinds before ++ .asClause :: solidKinds after =
      [.importKw, .upperCaseQid] ++ (renamed ++ exposed) := by
    rw [← hword, hparts, solidKinds_append]
    simp [solidKinds, hclauseKind, Kind.isTrivia]
  have hnone : Kind.asClause ∉ exposed := by
    have hall : ∀ exposed ∈ [[], [Kind.exposingKw, .exposingList]], Kind.asClause ∉ exposed := by
      decide
    exact hall exposed hexposed
  obtain ⟨hbefore, hafter⟩ : solidKinds before = [.importKw, .upperCaseQid] ∧
      solidKinds after = exposed := by
    obtain rfl | hrenamed := List.mem_cons.mp hrenamed
    · have hmem : Kind.asClause ∈ [Kind.importKw, .upperCaseQid] ++ ([] ++ exposed) :=
        hsplit ▸ List.mem_append_right _ List.mem_cons_self
      simp [hnone] at hmem
    · obtain rfl := List.mem_singleton.mp hrenamed
      obtain ⟨hbefore, -, hafter⟩ :=
        (List.append_cons_inj_of_notMem (by decide) hnone).mp hsplit.symm
      exact ⟨hbefore.symm, hafter.symm⟩
  obtain ⟨kept, gap, rfl, hgap, hkept⟩ := exists_front hok himp hkind hparts hbefore
  obtain ⟨inside, hinside, htrivia⟩ := exists_aliasKinds hok
    (mem_nodes_of_part hok himp hclause (by rw [hclauseKind]; rfl)) hclauseKind
  refine ⟨kept, gap, after, by simp [hparts], hgap, hkept, ?_⟩
  rw [hinside]
  have hrow : imp.parts = (kept ++ gap ++ [clause]) ++ after := by simp [hparts]
  obtain rfl | hexposed := List.mem_cons.mp hexposed
  · obtain rfl := eq_nil_of_solidKinds hok himp (by rw [hkind]; decide) hrow hafter
    exact .last List.mem_cons_self List.mem_cons_self
  · obtain rfl := List.mem_singleton.mp hexposed
    obtain ⟨gap', keyword, gap'', list, rfl, hgap', -, -, -, kinds, hkinds⟩ :=
      exists_exposing hok himp hkind hrow hafter
    rw [tokenKinds_append, hkinds]
    exact .renamed htrivia (tokenKinds_gap hok himp (by simp +contextual [hparts]) hgap')

/-- So is its list of exposed items with the keyword in front of it. -/
theorem exists_listParts (hlist : list ∈ imp.parts) (hlistKind : list.kind = .exposingList) :
    ∃ hasAlias kept gap keyword gap',
      ClauseParts imp hasAlias kept gap (keyword :: (gap' ++ [list])) [] ∧
      imp.parts.find? (·.kind == .exposingKw) = some keyword ∧
      ∀ place ∈ gap', place.kind.isTrivia = true := by
  obtain ⟨renamed, hrenamed, exposed, hexposed, hword⟩ := exists_importWord hok himp hkind
  have hnone : ∀ renamed ∈ [[], [Kind.asClause]],
      Kind.exposingList ∉ [Kind.importKw, .upperCaseQid] ++ renamed ∧
        Kind.exposingKw ∉ [Kind.importKw, .upperCaseQid] ++ renamed := by decide
  have hfront := hnone renamed hrenamed
  obtain rfl : exposed = [.exposingKw, .exposingList] := by
    obtain rfl | hexposed := List.mem_cons.mp hexposed
    · have hmem := mem_solidKinds hlist (by rw [hlistKind]; rfl)
      rw [hword, List.append_nil, hlistKind] at hmem
      exact absurd hmem hfront.1
    · exact List.mem_singleton.mp hexposed
  rw [← List.append_assoc] at hword
  obtain ⟨before, after, hparts, hbefore, hafter⟩ := exists_solid_append hword
  obtain ⟨gap, keyword, gap', last, rfl, hgap, hkeyword, hgap', hlast, inside, hinside⟩ :=
    exists_exposing hok himp hkind hparts hafter
  have hsolid {place : Site} (hplace : place ∈ before) :
      place.kind ≠ .exposingList ∧ place.kind ≠ .exposingKw := by
    refine ⟨fun hplaceKind => hfront.1 ?_, fun hplaceKind => hfront.2 ?_⟩
    all_goals
      rw [← hbefore, ← hplaceKind]
      exact mem_solidKinds hplace (by rw [hplaceKind]; rfl)
  obtain rfl : list = last := by
    rw [hparts] at hlist
    simp only [List.mem_append, List.mem_cons, List.not_mem_nil, or_false] at hlist
    obtain h | h | rfl | h | h := hlist
    · exact absurd hlistKind (hsolid h).1
    · exact absurd (hgap list h) (by rw [hlistKind]; decide)
    · rw [hlistKind] at hkeyword
      cases hkeyword
    · exact absurd (hgap' list h) (by rw [hlistKind]; decide)
    · exact h
  have hfind : imp.parts.find? (·.kind == .exposingKw) = some keyword := by
    rw [hparts, ← List.append_assoc, List.find?_append,
      List.find?_eq_none.mpr fun place hplace => ?_, Option.none_or, List.find?_cons_of_pos (by simp [hkeyword])]
    obtain h | h := List.mem_append.mp hplace
    · simpa using (hsolid h).2
    · simpa using ne_of_isTrivia (hgap place h) rfl
  obtain rfl | hrenamed := List.mem_cons.mp hrenamed
  · obtain ⟨kept, gap₀, rfl, hgap₀, hkept⟩ := exists_front hok himp hkind hparts hbefore
    refine ⟨false, kept, gap₀ ++ gap, keyword, gap', ⟨by simp [hparts],
      List.forall_mem_append.mpr ⟨hgap₀, hgap⟩, hkept, ?_⟩, hfind, hgap'⟩
    rw [hinside]
    exact .last (by decide) (by decide)
  · obtain rfl := List.mem_singleton.mp hrenamed
    obtain ⟨kept, gap₀, rfl, hgap₀, hkept⟩ := exists_renamedFront hok himp hkind hparts hbefore
    refine ⟨true, kept, gap₀ ++ gap, keyword, gap', ⟨by simp [hparts],
      List.forall_mem_append.mpr ⟨hgap₀, hgap⟩, hkept, ?_⟩, hfind, hgap'⟩
    rw [hinside]
    exact .last (by decide) (by decide)

end Import

-- ---------------------------------------------------------------------------
-- Cutting a clause out
-- ---------------------------------------------------------------------------

theorem ClauseParts.kept_last (h : ClauseParts imp hasAlias kept gap clauses more)
    (hok : (parse text).ok = true) (himp : imp ∈ (Site.root (parse text).tree).nodes) :
    ∀ place ∈ kept.getLast?, place.kind ≠ .whitespace := by
  intro place hplace hkind
  obtain ⟨front, rfl⟩ := List.getLast?_eq_some_iff.mp (Option.mem_def.mp hplace)
  have htokens : place.tokens = [place] :=
    tokens_of_part hok himp (by simp [h.parts_eq]) (by rw [hkind]; rfl)
  obtain ⟨kinds, sep, hkinds, -⟩ := h.isFront.ends
  have hlast : (tokenKinds (front ++ [place])).getLast? = some .upperIdent := by simp [hkinds]
  have hplaceKinds : tokenKinds [place] = [.whitespace] := by simp [tokenKinds, htokens, hkind]
  rw [tokenKinds_append, hplaceKinds, List.getLast?_concat] at hlast
  cases hlast

theorem exists_trailing_spaces (sites : List Site) : ∃ comments spaces, sites = comments ++ spaces ∧
    (∀ place ∈ spaces, place.kind = .whitespace) ∧
    ∀ place ∈ comments.getLast?, place.kind ≠ .whitespace := by
  refine ⟨(sites.reverse.dropWhile (·.kind == .whitespace)).reverse,
    (sites.reverse.takeWhile (·.kind == .whitespace)).reverse, ?_, fun place hplace => ?_,
    fun place hplace => ?_⟩
  · rw [← List.reverse_append, List.takeWhile_append_dropWhile, List.reverse_reverse]
  · simpa using List.mem_takeWhile_imp (List.mem_reverse.mp hplace)
  · rw [List.getLast?_reverse] at hplace
    have hhead := List.head?_dropWhile_not (fun place : Site => place.kind == .whitespace)
      sites.reverse
    rw [Option.mem_def.mp hplace] at hhead
    simpa using hhead

/-- Without a clause the text parses, and nothing else that is seen is lost, if nothing is put
behind a comment up to the end of its line but what ends the line. -/
theorem ClauseParts.ok_and_keeps {items others comments spaces : List Site}
    (h : ClauseParts imp hasAlias kept (comments ++ spaces) clauses more)
    (hok : (parse text).ok = true) (himp : imp ∈ (Site.root (parse text).tree).nodes)
    (hroot : (Site.root (parse text).tree).parts = items ++ imp :: others)
    (hspaces : ∀ place ∈ spaces, place.kind = .whitespace)
    (hcomments : ∀ place ∈ comments.getLast?, place.kind ≠ .whitespace)
    {front back : List Site}
    (hfront : front = items.flatMap Site.tokens ++ (kept ++ comments).flatMap Site.tokens)
    (hback : back = more.flatMap Site.tokens ++ others.flatMap Site.tokens)
    (hsafe : (∀ place ∈ comments.getLast?, place.kind ≠ .lineComment) ∨
      endsLine (back.map Site.piece) = true) :
    (parse (String.ofList (joined (front.map Site.piece) ++ joined (back.map Site.piece)))).ok =
        true ∧ Keeps (front.map Site.piece) (joined (back.map Site.piece)) := by
  obtain ⟨trees, htree, -⟩ := parse_eq text
  have hnodeRoot : (Site.root (parse text).tree).tree.isNode = true := congrArg Tree.isNode htree
  have hnode := (List.mem_filter.mp himp).2
  have hgap : ∀ place ∈ comments ++ spaces, place ∈ imp.parts := fun place hplace => by
    rw [h.parts_eq]
    exact List.mem_append_right _ (List.mem_append_left _ hplace)
  have hcommentsTokens : comments.flatMap Site.tokens = comments :=
    flatMap_tokens_gap hok himp (fun place hplace => hgap place (List.mem_append_left _ hplace))
      fun place hplace => h.gap_trivia place (List.mem_append_left _ hplace)
  have hspacesTokens : spaces.flatMap Site.tokens = spaces :=
    flatMap_tokens_gap hok himp (fun place hplace => hgap place (List.mem_append_right _ hplace))
      fun place hplace => h.gap_trivia place (List.mem_append_right _ hplace)
  have himpTokens : imp.tokens = kept.flatMap Site.tokens ++ (comments ++ (spaces ++
      (clauses.flatMap Site.tokens ++ more.flatMap Site.tokens))) := by
    rw [Site.tokens_node hnode, h.parts_eq]
    simp [hcommentsTokens, hspacesTokens]
  let cut : ClauseCut text := {
    front := (items.flatMap Site.tokens).map Site.piece
    kept := (kept.flatMap Site.tokens).map Site.piece
    comments := comments.map Site.piece
    spaces := spaces.map Site.piece
    clause := (clauses.flatMap Site.tokens).map Site.piece
    more := (more.flatMap Site.tokens).map Site.piece
    behind := (others.flatMap Site.tokens).map Site.piece
    hasAlias := hasAlias
    items := items.map Site.tree
    item := imp.tree
    others := others.map Site.tree
    pieces_eq := by
      rw [pieces_toList, Site.tokens_node hnodeRoot, hroot]
      simp [himpTokens]
    isFront := map_fst_piece (kept.flatMap Site.tokens) ▸ h.isFront
    isClause := by
      rw [map_fst_piece, map_fst_piece]
      exact h.isClause
    comments_trivia := List.forall_mem_map.mpr fun place hplace =>
      h.gap_trivia place (List.mem_append_left _ hplace)
    comments_end := by
      rw [List.getLast?_map]
      rintro _ hpiece
      obtain ⟨place, hplace, rfl⟩ := Option.mem_map.mp hpiece
      exact hcomments place hplace
    spaces_eq := List.forall_mem_map.mpr hspaces
    tree_eq := by
      have hchildren := Site.map_tree_parts (Site.root (parse text).tree)
      rw [hroot, show (Site.root (parse text).tree).tree = .node .file trees from htree]
        at hchildren
      rw [htree, ← show _ = trees from hchildren, List.map_append, List.map_cons]
    isNode := hnode
    others_length := by rw [length_leavesOf, List.length_map]
    item_length := by
      rw [← List.map_cons, length_leavesOf, List.flatMap_cons, himpTokens]
      simp }
  have htail : cut.tail = back.map Site.piece := by simp [cut, ClauseCut.tail, hback]
  have hstart : cut.front ++ (cut.kept ++ cut.comments) = front.map Site.piece := by
    simp [cut, hcommentsTokens, hfront]
  have hsafe' : cut.IsSafe := by
    refine hsafe.imp (fun hlast => ?_) fun hline => htail ▸ hline
    rw [show cut.comments = comments.map Site.piece from rfl, List.getLast?_map]
    intro _ hpiece
    obtain ⟨place, hplace, rfl⟩ := Option.mem_map.mp hpiece
    exact hlast place hplace
  rw [← htail, ← hstart]
  exact ⟨cut.ok_edited hok hsafe', cut.keeps hok hsafe'⟩

end ElmLint.Syntax

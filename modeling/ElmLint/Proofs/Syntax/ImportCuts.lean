import ElmLint.Proofs.Syntax.Cuts
import ElmLint.Proofs.Syntax.ImportItems

/-!
# Taking a clause out of an import

An import is still one without its alias, and without its list of exposed items. What is left is cut
into the same words, if the line that the clause ends in does not go on behind a comment up to the
end of its line. The words of the import are read as before, and behind it everything stands in the
same columns, because the next item starts a line of its own.
-/

namespace ElmLint.Syntax

open Grammar

variable {text : String} {kinds : List Kind} {hasAlias : Bool} {column column' start start' : Nat}
  {first second gap gap' rest : List Piece} {piece : Piece} {c d x y : Cursor}

-- ---------------------------------------------------------------------------
-- Tokens in their places
-- ---------------------------------------------------------------------------

theorem eq_placed_of_suffix {tokens : List PlacedToken}
    (h : tokens <:+ placed column start (first ++ second))
    (hlength : tokens.length = second.length) :
    tokens =
      placed (columnAfter column (joined first)) (start + utf8Length (joined first)) second := by
  rw [placed_append] at h
  rw [← length_placed (columnAfter column (joined first)) (start + utf8Length (joined first))]
    at hlength
  exact (List.suffix_of_suffix_length_le h (List.suffix_append ..) hlength.le).eq_of_length hlength

theorem map_kind_placed (column start : Nat) (pieces : List Piece) :
    (placed column start pieces).map (·.kind) = pieces.map Prod.fst := by
  conv_rhs => rw [← map_piece_placed column start pieces, List.map_map]
  rfl

/-- What a cursor comes to is placed, too. -/
theorem rest_eq_placed (h : Moves c d) (hahead : placed column start (first ++ second) <:+ c.rest)
    (hlength : d.rest.length = second.length) :
    d.rest =
      placed (columnAfter column (joined first)) (start + utf8Length (joined first)) second := by
  refine eq_placed_of_suffix (List.suffix_of_suffix_length_le h.rest_suffix hahead ?_) hlength
  rw [hlength, length_placed, List.length_append]
  omega

theorem isTrivia_placed (h : ∀ piece ∈ gap, piece.1.isTrivia = true) :
    ∀ t ∈ placed column start gap, t.kind.isTrivia = true := by
  refine fun t ht => h t.piece ?_
  rw [← map_piece_placed column start gap]
  exact List.mem_map_of_mem ht

theorem ahead_placed (h : c.rest = placed column start (gap ++ rest))
    (hgap : ∀ piece ∈ gap, piece.1.isTrivia = true)
    (hrest : ∀ piece ∈ rest.head?, piece.1.isTrivia = false) :
    c.ahead = placed (columnAfter column (joined gap)) (start + utf8Length (joined gap)) rest := by
  rw [Cursor.ahead, h, placed_append, List.dropWhile_append_of_pos (isTrivia_placed hgap)]
  cases rest with
  | nil => rfl
  | cons piece rest =>
    rw [placed, List.dropWhile_cons_of_neg (by simpa using hrest piece rfl)]

/-- The kinds of tokens that may go on over a line. -/
def Kind.mayBreak : List Kind :=
  [.whitespace, .lineComment, .blockComment, .number, .string, .char, .error]

theorem Leads.oneLine {rest : List Char} (h : Leads (piece :: first) rest)
    (hkind : piece.1 ∉ Kind.mayBreak) : '\n' ∉ piece.2 ∧ piece.2 ≠ [] := by
  obtain ⟨⟨c, tail, htext, hlexeme⟩, -⟩ := leads_cons_iff.mp h
  have hline := lineFeed_not_mem_lexeme c (tail ++ (joined first ++ rest))
  rw [hlexeme] at hline
  exact ⟨hline.resolve_left hkind, by simp [htext]⟩

theorem Leads.joined_ne_nil {rest : List Char} (h : Leads first rest) (hne : first ≠ []) :
    joined first ++ rest ≠ [] := by
  obtain ⟨piece, more, rfl⟩ := List.exists_cons_of_ne_nil hne
  obtain ⟨⟨c, tail, htext, -⟩, -⟩ := leads_cons_iff.mp h
  simp [joined, htext]

/-- Behind gaps that end in the same way, from a line feed on, the same is seen. -/
theorem view_or_atEnd (hx : x.rest = placed column start (gap ++ rest))
    (hy : y.rest = placed column' start' (gap' ++ rest))
    (hgap : ∀ piece ∈ gap, piece.1.isTrivia = true)
    (hgap' : ∀ piece ∈ gap', piece.1.isTrivia = true)
    (hrest : ∀ piece ∈ rest.head?, piece.1.isTrivia = false)
    (hfeed : rest ≠ [] → '\n' ∈ joined gap) (hends : joined gap <:+ joined gap') :
    x.view = y.view ∨ x.atEnd = true ∧ y.atEnd = true := by
  by_cases hnil : rest = []
  · have hend {c : Cursor} {column start : Nat} {gap : List Piece}
        (hc : c.rest = placed column start (gap ++ rest))
        (hgap : ∀ piece ∈ gap, piece.1.isTrivia = true) : c.atEnd = true := by
      rw [Cursor.atEnd, Cursor.next?, ahead_placed hc hgap hrest, hnil]
      rfl
    exact .inr ⟨hend hx hgap, hend hy hgap'⟩
  · have hfeed := hfeed hnil
    have hne {gap : List Piece} (h : '\n' ∈ joined gap) : gap ≠ [] := by
      rintro rfl
      cases h
    obtain ⟨before, hbefore⟩ := hends
    refine .inl ?_
    rw [Cursor.view, Cursor.view, hx, hy, viewOf_placed, viewOf_placed,
      viewFrom_append_gap (hne hfeed) hgap,
      viewFrom_append_gap (hne (hbefore ▸ List.mem_append_right _ hfeed)) hgap', ← hbefore,
      Tree.columnAfter_append, columnAfter_of_mem hfeed]

theorem fileItem_eq_importClause (hcolumn : c.column? = some 0) (hkind : c.kind? = some .importKw) :
    fileItem c = importClause c := by
  have hitem : topLevelItem c = importClause c := by rw [topLevelItem, hkind]
  obtain ⟨-, -, hlength, -⟩ := makes_importClause hkind
  rw [fileItem, if_pos (by simp [hcolumn]), hitem]
  refine if_neg fun hstuck => ?_
  simp only [Bool.and_eq_true, decide_eq_true_eq] at hstuck
  omega

-- ---------------------------------------------------------------------------
-- Clauses
-- ---------------------------------------------------------------------------

/-- The kinds of a clause of an import and of what the import goes on with: the clause is its last,
or an alias in front of a list of exposed items. -/
inductive IsClause : (hasAlias : Bool) → (clause more : List Kind) → Prop
  | last {hasAlias : Bool} {keyword last : Kind} {inside : List Kind}
    (hkeyword : keyword ∈ [Kind.asKw, .exposingKw]) (hlast : last ∈ [Kind.upperIdent, .rParen]) :
    IsClause hasAlias (keyword :: (inside ++ [last])) []
  | renamed {gap gap' list : List Kind} (hgap : ∀ kind ∈ gap, kind.isTrivia = true)
    (hgap' : ∀ kind ∈ gap', kind.isTrivia = true) :
    IsClause false (.asKw :: (gap ++ [.upperIdent])) (gap' ++ .exposingKw :: (list ++ [.rParen]))

theorem IsClause.exists_last {clause more : List Kind} (h : IsClause hasAlias clause more) :
    ∃ kinds last, clause ++ more = kinds ++ [last] ∧ last ∈ [Kind.upperIdent, .rParen] := by
  cases h with
  | last _ hlast => exact ⟨_, _, by rw [List.append_nil, ← List.cons_append], hlast⟩
  | @renamed gap gap' list _ _ =>
    refine ⟨.asKw :: (gap ++ [.upperIdent]) ++ (gap' ++ .exposingKw :: list), .rParen, by simp, ?_⟩
    decide

/-- A clause of an import in a text, and what is around it. The import is kept up to the name in
front of the clause, and between the two are comments and white space. -/
structure ClauseCut (text : String) where
  front : List Piece
  kept : List Piece
  comments : List Piece
  spaces : List Piece
  clause : List Piece
  more : List Piece
  behind : List Piece
  hasAlias : Bool
  items : List Tree
  item : Tree
  others : List Tree
  pieces_eq : pieces text.toList =
    front ++ (kept ++ (comments ++ (spaces ++ (clause ++ (more ++ behind)))))
  isFront : ImportFront hasAlias (kept.map Prod.fst)
  isClause : IsClause hasAlias (clause.map Prod.fst) (more.map Prod.fst)
  comments_trivia : ∀ piece ∈ comments, piece.1.isTrivia = true
  comments_end : ∀ piece ∈ comments.getLast?, piece.1 ≠ .whitespace
  spaces_eq : ∀ piece ∈ spaces, piece.1 = .whitespace
  tree_eq : (parse text).tree = .node .file (items ++ item :: others)
  isNode : item.isNode = true
  others_length : (Tree.leavesOf others).length = behind.length
  item_length : (Tree.leavesOf (item :: others)).length =
    (kept ++ (comments ++ (spaces ++ (clause ++ (more ++ behind))))).length

namespace ClauseCut

variable (cut : ClauseCut text)

/-- What stands behind the clause. -/
def tail : List Piece := cut.more ++ cut.behind

/-- The text without the clause and without the white space in front of it. -/
def edited : String :=
  String.ofList (joined (cut.front ++ (cut.kept ++ cut.comments)) ++ joined cut.tail)

/-- Nothing is put behind a comment up to the end of its line but what ends the line. -/
def IsSafe : Prop :=
  (∀ piece ∈ cut.comments.getLast?, piece.1 ≠ .lineComment) ∨ endsLine cut.tail = true

theorem leads_all : Leads (cut.front ++ (cut.kept ++ (cut.comments ++ (cut.spaces ++
    (cut.clause ++ (cut.more ++ cut.behind)))))) [] := by
  rw [← cut.pieces_eq]
  exact .of_pieces _

theorem leads_tail : Leads cut.tail [] :=
  cut.leads_all.of_append.2.of_append.2.of_append.2.of_append.2.of_append.2

/-- The last word of the import. -/
theorem exists_last : ∃ more last, cut.clause ++ cut.more = more ++ [last] ∧
    last.1 ∈ [Kind.upperIdent, .rParen] := by
  obtain ⟨kinds, last, hkinds, hlast⟩ := cut.isClause.exists_last
  rw [← List.map_append] at hkinds
  obtain ⟨more, last', hsplit, -, hlast'⟩ := List.map_eq_append_iff.mp hkinds
  obtain ⟨last', rfl, rfl⟩ := List.map_eq_singleton_iff.mp hlast'
  exact ⟨more, last', hsplit, hlast⟩

/-- Behind the import comes an item in the first column, if any word comes. -/
theorem startsItem_behind (hok : (parse text).ok = true) {next : Piece} {rest : List Piece}
    (hnext : cut.behind.dropWhile (·.1.isTrivia) = next :: rest) :
    next.1 ∈ Kind.itemStarts ∧ '\n' ∈ joined (cut.behind.takeWhile (·.1.isTrivia)) := by
  obtain ⟨e, he⟩ := exists_readsText text
  have herrors : e.errors = [] := he.ok_iff.mp hok
  obtain ⟨x, hx, -, honward, -, -, hlength⟩ := he.exists_item herrors cut.tree_eq cut.isNode
  have hstarts := honward.startsItem he.atEnd herrors
  have hsuffix : (fileItem x).rest <:+ placed 0 0 ((cut.front ++ (cut.kept ++ (cut.comments ++
      (cut.spaces ++ (cut.clause ++ cut.more))))) ++ cut.behind) := by
    have hrest : (fileItem x).rest <:+ (Cursor.beforeItems text).rest :=
      (isWalk_fileItem x).rest_suffix.trans hx.moves.rest_suffix
    rw [rest_beforeItems, cut.pieces_eq] at hrest
    simpa using hrest
  have hrest := eq_placed_of_suffix hsuffix (hlength.trans cut.others_length)
  rw [← List.takeWhile_append_dropWhile (l := cut.behind) (p := (·.1.isTrivia)), hnext] at hrest
  have hword : next.1.isTrivia = false := by
    have hhead := List.head?_dropWhile_not (fun piece : Piece => piece.1.isTrivia) cut.behind
    rw [hnext] at hhead
    simpa using hhead
  have hahead := ahead_placed hrest (leading_trivia _) (by rintro _ ⟨⟩; exact hword)
  obtain ⟨hcolumn, hkind⟩ := hstarts _ (by rw [Cursor.next?, hahead]; rfl)
  refine ⟨hkind, ?_⟩
  by_contra hfeed
  obtain ⟨more, last, hsplit, hlast⟩ := cut.exists_last
  have hleads : Leads [last] (joined cut.behind ++ []) := by
    have hall := cut.leads_all.of_append.2.of_append.2.of_append.2.of_append.2
    rw [← List.append_assoc, hsplit, List.append_assoc] at hall
    exact (Leads.of_append (List.singleton_append ▸ hall.of_append.2)).1
  obtain ⟨hline, hne⟩ := hleads.oneLine (fun kind => by
    have hnone : ∀ kind ∈ [Kind.upperIdent, .rParen], kind ∉ Kind.mayBreak := by decide
    exact hnone last.1 hlast kind)
  have hjoined : joined (cut.front ++ (cut.kept ++ (cut.comments ++ (cut.spaces ++
      (cut.clause ++ cut.more))))) = joined (cut.front ++ (cut.kept ++ (cut.comments ++
      (cut.spaces ++ more)))) ++ last.2 := by
    rw [hsplit]
    simp [joined]
  rw [hjoined, Tree.columnAfter_append, ← Tree.columnAfter_append] at hcolumn
  exact columnAfter_ne_zero _ (by simp [hne]) (by simp [hline, hfeed]) hcolumn

/-- The clause is the last of its import, or an alias in front of a list of exposed items. -/
theorem more_cases : cut.more = [] ∨ cut.hasAlias = false ∧
    (∃ keyword gap name, cut.clause = keyword :: (gap ++ [name]) ∧ keyword.1 = .asKw ∧
      (∀ piece ∈ gap, piece.1.isTrivia = true) ∧ name.1 = .upperIdent) ∧
    ∃ gap keyword list, cut.more = gap ++ keyword :: list ∧
      (∀ piece ∈ gap, piece.1.isTrivia = true) ∧ keyword.1 = .exposingKw := by
  have hkinds := cut.isClause
  generalize cut.hasAlias = hasAlias, hclause : cut.clause.map Prod.fst = clause,
    hmore : cut.more.map Prod.fst = more at hkinds
  cases hkinds with
  | last => exact .inl (List.map_eq_nil_iff.mp hmore)
  | renamed hgap hgap' =>
    obtain ⟨keyword, inside, hfirst, hkeyword, hinside⟩ := List.map_eq_cons_iff.mp hclause
    obtain ⟨inside, last, rfl, rfl, hlast⟩ := List.map_eq_append_iff.mp hinside
    obtain ⟨name, rfl, hname⟩ := List.map_eq_singleton_iff.mp hlast
    obtain ⟨gap, list, hsplit, rfl, hlist⟩ := List.map_eq_append_iff.mp hmore
    obtain ⟨keyword', list, rfl, hkeyword', -⟩ := List.map_eq_cons_iff.mp hlist
    exact .inr ⟨rfl, ⟨keyword, inside, name, hfirst, hkeyword, List.forall_mem_map.mp hgap, hname⟩,
      gap, keyword', list, hsplit, List.forall_mem_map.mp hgap', hkeyword'⟩

theorem dropWhile_tail (hmore : cut.more ≠ []) : cut.tail.dropWhile (·.1.isTrivia) =
    cut.more.dropWhile (·.1.isTrivia) ++ cut.behind := by
  obtain ⟨-, -, gap, keyword, list, hlist, hgap, hkeyword⟩ := cut.more_cases.resolve_left hmore
  have hword : keyword.1.isTrivia = false := by rw [hkeyword]; rfl
  rw [tail, List.dropWhile_append, hlist, List.dropWhile_append_of_pos hgap,
    List.dropWhile_cons_of_neg (by simp [hword])]
  rfl

/-- What comes behind the clause starts with white space or a comment. -/
theorem isTrivia_of_head_tail (hok : (parse text).ok = true) :
    ∀ piece ∈ cut.tail.head?, piece.1.isTrivia = true := by
  obtain hmore | ⟨-, ⟨first, inside, name, hclause, -, -, hname⟩, gap, keyword, list, hmore, hgap,
    hkeyword⟩ := cut.more_cases
  · rw [tail, hmore, List.nil_append]
    intro piece hpiece
    obtain ⟨rest, hbehind⟩ := List.head?_eq_some_iff.mp hpiece
    by_contra hword
    have hword' : piece.1.isTrivia = false := by simpa using hword
    have hnext : cut.behind.dropWhile (·.1.isTrivia) = piece :: rest := by
      rw [hbehind, List.dropWhile_cons_of_neg (by simp [hword'])]
    have hfeed := (cut.startsItem_behind hok hnext).2
    rw [hbehind, List.takeWhile_cons_of_neg (by simp [hword'])] at hfeed
    cases hfeed
  · rw [tail, hmore]
    cases gap with
    | cons piece gap =>
      rintro _ ⟨⟩
      exact hgap _ List.mem_cons_self
    | nil =>
      -- the keyword would touch the name of the alias
      have hleads := cut.leads_all.of_append.2.of_append.2.of_append.2.of_append.2
      rw [hclause, hmore, ← List.cons_append, List.append_assoc] at hleads
      have htouch : Leads (name :: keyword :: (list ++ cut.behind)) [] := by
        simpa using hleads.of_append.2
      have hnone := htouch.not_isLettered (by rw [hname]; rfl)
      rw [hkeyword] at hnone
      cases hnone

/-- What is kept stays as it is in front of the comments that are kept and of what comes behind. -/
theorem leads_kept (hok : (parse text).ok = true) :
    Leads (cut.front ++ cut.kept) (joined cut.comments ++ joined cut.tail) := by
  obtain ⟨kinds, sep, hkinds, hsep⟩ := cut.isFront.ends
  obtain ⟨more, ends, hkept, -, hends⟩ := List.map_eq_append_iff.mp hkinds
  obtain ⟨sep, last, rfl, rfl, hlast⟩ := List.map_eq_cons_iff.mp hends
  obtain ⟨name, rfl, hname⟩ := List.map_eq_singleton_iff.mp hlast
  have hleads : Leads ((cut.front ++ more) ++ [sep, name]) (joined (cut.comments ++ (cut.spaces ++
      (cut.clause ++ (cut.more ++ cut.behind)))) ++ []) := by
    have hall := cut.leads_all
    have hsplit (rest : List Piece) : cut.front ++ (cut.kept ++ rest) =
        ((cut.front ++ more) ++ [sep, name]) ++ rest := by simp [hkept]
    rw [hsplit] at hall
    exact hall.of_append.1
  have hclean : ∀ piece ∈ cut.front ++ more, piece.1 ≠ .error := by
    refine fun piece hpiece => kind_ne_error_of_mem_pieces hok ?_
    rw [cut.pieces_eq, hkept]
    obtain h | h := List.mem_append.mp hpiece <;> simp [h]
  have hseam : sep.1 ∈ Kind.seams := by
    obtain hdot | htrivia | hlettered := hsep
    · exact hdot ▸ by decide
    · rw [← List.singleton_append, ← List.append_assoc] at hleads
      obtain ⟨hfirst, hword⟩ := hleads.of_append
      obtain ⟨c, cs, hcs, hspace⟩ := hword.exists_cons (by rw [hname]; rfl)
      rw [hcs] at hfirst
      obtain hkind | hkind | hkind := Kind.isTrivia_cases htrivia
      · exact hkind ▸ by decide
      · exact absurd hkind (hfirst.last_ne_lineComment hspace sep (by simp))
      · exact hkind ▸ by decide
    · have hnone := hleads.of_append.2.not_isLettered hlettered
      rw [hname] at hnone
      cases hnone
  have hnext : ∀ d ∈ (joined cut.comments ++ joined cut.tail).head?, isNameChar d = false := by
    have htail : ∀ d ∈ (joined cut.tail).head?, isNameChar d = false := by
      have h : ∀ d ∈ (joined cut.tail ++ []).head?, isNameChar d = false :=
        cut.leads_tail.not_isNameChar
          (fun piece hpiece => .inl (cut.isTrivia_of_head_tail hok piece hpiece)) nofun
      rwa [List.append_nil] at h
    refine (cut.leads_all.of_append.2.of_append.2.of_append.1).not_isNameChar
      (fun piece hpiece => .inl (cut.comments_trivia piece (List.mem_of_head? hpiece))) htail
  rw [hkept, ← List.append_assoc]
  exact hleads.behind_name hclean hseam (.inr hname) hnext

/-- The gap that is left, and the pieces of the text without the clause. -/
theorem exists_gap (hok : (parse text).ok = true) (hsafe : cut.IsSafe) :
    ∃ gap, (∀ piece ∈ gap, piece.1.isTrivia = true) ∧
      joined gap = joined cut.comments ++ joined (cut.tail.takeWhile (·.1.isTrivia)) ∧
      pieces cut.edited.toList =
        (cut.front ++ cut.kept) ++ (gap ++ cut.tail.dropWhile (·.1.isTrivia)) := by
  have hcomments := cut.leads_all.of_append.2.of_append.2.of_append.1
  have hne : joined (cut.spaces ++ (cut.clause ++ (cut.more ++ cut.behind))) ++ [] ≠ [] := by
    refine cut.leads_all.of_append.2.of_append.2.of_append.2.joined_ne_nil fun hnil => ?_
    obtain ⟨more, last, hlast, -⟩ := cut.exists_last
    simp at hnil
    simp [hnil] at hlast
  obtain ⟨gap, hgap, hjoined, hpieces⟩ := Syntax.exists_gap hcomments hne cut.comments_trivia
    cut.leads_tail hsafe
  refine ⟨gap, hgap, hjoined, ?_⟩
  rw [edited, String.toList_ofList, ← hpieces, ← cut.leads_kept hok]
  simp [joined]

/-- No piece that is seen is lost but those of the clause. -/
theorem keeps (hok : (parse text).ok = true) (hsafe : cut.IsSafe) :
    Keeps (cut.front ++ (cut.kept ++ cut.comments)) (joined cut.tail) := by
  obtain ⟨gap, hgap, -, hpieces⟩ := cut.exists_gap hok hsafe
  rw [edited, String.toList_ofList] at hpieces
  have htail : solid cut.tail = solid (cut.tail.dropWhile (·.1.isTrivia)) := by
    conv_lhs => rw [← List.takeWhile_append_dropWhile (l := cut.tail) (p := (·.1.isTrivia))]
    rw [solid_append, solid_of_trivia (leading_trivia _), List.nil_append]
  rw [Keeps, hpieces, pieces_joined cut.leads_tail, htail]
  simp only [solid_append, solid_of_trivia hgap, solid_of_trivia cut.comments_trivia,
    List.nil_append, List.append_nil, List.append_assoc]

/-- The keyword is set off from the name. -/
theorem exists_words : ∃ keyword space more name, cut.kept = keyword :: space :: more ∧
    keyword.1 = .importKw ∧ space.1.isTrivia = true ∧ name ∈ more ∧ name.1 = .upperIdent := by
  obtain ⟨gap, others, hkinds, hgap⟩ := cut.isFront.begins
  obtain ⟨keyword, words, hkept, hkeyword, hwords⟩ := List.map_eq_cons_iff.mp hkinds
  obtain ⟨gap, named, rfl, rfl, hnamed⟩ := List.map_eq_append_iff.mp hwords
  obtain ⟨name, more, rfl, hname, -⟩ := List.map_eq_cons_iff.mp hnamed
  cases gap with
  | nil =>
    have hleads := cut.leads_all.of_append.2
    rw [hkept] at hleads
    have hnone := hleads.of_append.1.not_isLettered (by rw [hkeyword]; rfl)
    rw [hname] at hnone
    cases hnone
  | cons space gap =>
    exact ⟨keyword, space, gap ++ name :: more, name, hkept, hkeyword,
      hgap _ (List.mem_map_of_mem List.mem_cons_self), by simp, hname⟩

/-- The text and what becomes of it part behind what is kept. -/
theorem exists_fork {right : List Piece}
    (hpieces : pieces cut.edited.toList = (cut.front ++ cut.kept) ++ right) :
    ∃ (F : Fork) (column start column' start' : Nat), F.kept = placed column start cut.kept ∧
      F.left = placed column' start' (cut.comments ++ (cut.spaces ++ (cut.clause ++ cut.tail))) ∧
      F.right = placed column' start' right ∧
      F.Abreast (.beforeItems text) (.beforeItems cut.edited) := by
  obtain ⟨keyword, space, more, name, hkept, hkeyword, hspace, hname, hnameKind⟩ := cut.exists_words
  let column := columnAfter 0 (joined cut.front)
  let start := 0 + utf8Length (joined cut.front)
  let column' := columnAfter 0 (joined (cut.front ++ cut.kept))
  let start' := 0 + utf8Length (joined (cut.front ++ cut.kept))
  refine ⟨⟨placed column start cut.kept,
    placed column' start' (cut.comments ++ (cut.spaces ++ (cut.clause ++ cut.tail))),
    placed column' start' right, (Cursor.beforeItems cut.edited).textEnd, ?_⟩,
    column, start, column', start', rfl, rfl, rfl, ?_⟩
  · rw [hkept, placed, placed]
    refine ⟨_, _, _, rfl, by rw [hkeyword]; rfl, hspace, ?_⟩
    rw [← map_piece_placed (columnAfter (columnAfter column keyword.2) space.2)
      (start + utf8Length keyword.2 + utf8Length space.2) more] at hname
    obtain ⟨t, ht, rfl⟩ := List.mem_map.mp hname
    exact ⟨t, ht, by rw [show t.kind = .upperIdent from hnameKind]; rfl⟩
  · have hfront : placed 0 0 (cut.front ++ cut.kept) =
        placed 0 0 cut.front ++ placed column start cut.kept := placed_append ..
    refine ⟨placed 0 0 (cut.front ++ cut.kept), hfront ▸ List.suffix_append .., ?_, ?_⟩
    · rw [rest_beforeItems, cut.pieces_eq, ← List.append_assoc, placed_append]
      rfl
    · have hrest : (Cursor.beforeItems cut.edited).rest =
          placed 0 0 (cut.front ++ cut.kept) ++ placed column' start' right := by
        rw [rest_beforeItems, hpieces, placed_append]
      rw [← hrest]
      rfl

theorem isTrivia_of_head_behind :
    ∀ piece ∈ (cut.behind.dropWhile (·.1.isTrivia)).head?, piece.1.isTrivia = false := by
  intro piece hpiece
  have hhead := List.head?_dropWhile_not (fun piece : Piece => piece.1.isTrivia) cut.behind
  rw [Option.mem_def.mp hpiece] at hhead
  simpa using hhead

/-- Behind the import the same is seen, whatever is put in front of the gap there. -/
theorem view_or_atEnd (hok : (parse text).ok = true) (hx : x.rest = placed column start cut.behind)
    (hy : y.rest = placed column' start' (gap ++ cut.behind.dropWhile (·.1.isTrivia)))
    (hgap : ∀ piece ∈ gap, piece.1.isTrivia = true)
    (hends : joined (cut.behind.takeWhile (·.1.isTrivia)) <:+ joined gap) :
    x.view = y.view ∨ x.atEnd = true ∧ y.atEnd = true := by
  rw [← List.takeWhile_append_dropWhile (l := cut.behind) (p := (·.1.isTrivia))] at hx
  refine Syntax.view_or_atEnd hx hy (leading_trivia _) hgap cut.isTrivia_of_head_behind
    (fun hne => ?_) hends
  obtain ⟨next, rest, hnext⟩ := List.exists_cons_of_ne_nil hne
  exact (cut.startsItem_behind hok hnext).2

/-- Without its last clause, the import ends behind what is kept. -/
theorem arrives_of_last (hok : (parse text).ok = true) {column₁ start₁ : Nat}
    (hgap : ∀ piece ∈ gap, piece.1.isTrivia = true)
    (hy : y.ahead = placed column start cut.kept ++
      placed column₁ start₁ (gap ++ cut.behind.dropWhile (·.1.isTrivia))) :
    Arrives y (placed column₁ start₁ (gap ++ cut.behind.dropWhile (·.1.isTrivia)))
      (importClause y) := by
  have hstarts : ∀ piece ∈ (cut.behind.dropWhile (·.1.isTrivia)).head?,
      piece.1 ∈ Kind.itemStarts := fun piece hpiece => by
    obtain ⟨rest, hrest⟩ := List.head?_eq_some_iff.mp hpiece
    exact (cut.startsItem_behind hok hrest).1
  have hkind {t : PlacedToken} {column start : Nat} {pieces : List Piece}
      (ht : t ∈ (placed column start pieces).head?) : ∃ piece ∈ pieces.head?, piece.1 = t.kind := by
    cases pieces with
    | nil => cases ht
    | cons piece pieces =>
      obtain rfl := Option.some.inj ht
      exact ⟨piece, rfl, rfl⟩
  have hnone : ∀ kind ∈ Kind.itemStarts,
      kind ≠ .dot ∧ kind ≠ .asKw ∧ kind ≠ .exposingKw := by decide
  refine arrives_importClause (by rw [map_kind_placed]; exact cut.isFront) hy (fun t ht => ?_)
    fun t ht => ?_
  · obtain ⟨piece, hpiece, hkindOf⟩ := hkind ht
    rw [← hkindOf]
    cases gap with
    | nil => exact (hnone _ (hstarts piece hpiece)).1
    | cons first gap =>
      obtain rfl := Option.some.inj hpiece
      exact ne_of_isTrivia (hgap _ List.mem_cons_self) rfl
  · have hahead := ahead_placed (c := { y with rest := placed column₁ start₁ _ }) rfl hgap
      cut.isTrivia_of_head_behind
    rw [Cursor.ahead] at hahead
    rw [hahead] at ht
    obtain ⟨piece, hpiece, hkindOf⟩ := hkind ht
    rw [← hkindOf]
    exact (hnone _ (hstarts piece hpiece)).2

/-- Without an alias in front of a list of exposed items, the import is read alongside. -/
theorem alongside_of_renamed {column₁ start₁ : Nat} (hmore : cut.more ≠ [])
    (hgap : ∀ piece ∈ gap, piece.1.isTrivia = true)
    (hx : x.ahead = placed column start cut.kept ++
      placed column₁ start₁ (cut.comments ++ (cut.spaces ++ (cut.clause ++ cut.tail))))
    (hy : y.ahead = placed column start cut.kept ++
      placed column₁ start₁ (gap ++ cut.tail.dropWhile (·.1.isTrivia)))
    (herrors : y.errors.length = x.errors.length) :
    Alongside (importClause y) (importClause x) := by
  obtain ⟨hfalse, ⟨as, inside, name, hclause, has, hinside, hname⟩, space, exposing, list, hlist,
    hspace, hexposing⟩ := cut.more_cases.resolve_left hmore
  have htail : cut.tail = space ++ exposing :: (list ++ cut.behind) := by simp [tail, hlist]
  have hword : exposing.1.isTrivia = false := by rw [hexposing]; rfl
  have hfront := cut.isFront
  rw [hfalse] at hfront
  rw [htail, List.dropWhile_append_of_pos hspace, List.dropWhile_cons_of_neg (by simp [hword]),
    placed_append, placed] at hy
  have hsplit : cut.comments ++ (cut.spaces ++ (cut.clause ++ cut.tail)) =
      (cut.comments ++ (cut.spaces ++ cut.clause)) ++
        (space ++ exposing :: (list ++ cut.behind)) := by
    simp [htail]
  rw [hsplit, placed_append, ← List.append_assoc, placed_append _ _ space, placed] at hx
  have hfront' : ImportFront true ((placed column start cut.kept ++
      placed column₁ start₁ (cut.comments ++ (cut.spaces ++ cut.clause))).map (·.kind)) := by
    have hgap : ∀ kind ∈ (cut.comments ++ cut.spaces).map Prod.fst, kind.isTrivia = true := by
      refine List.forall_mem_map.mpr fun piece hpiece => ?_
      obtain h | h := List.mem_append.mp hpiece
      · exact cut.comments_trivia piece h
      · rw [cut.spaces_eq piece h]
        rfl
    have hinside : ∀ kind ∈ inside.map Prod.fst, kind.isTrivia = true :=
      List.forall_mem_map.mpr hinside
    have hrenamed := ImportFront.renamed hfront hgap hinside
    rw [List.map_append, map_kind_placed, map_kind_placed, hclause]
    simpa [has, hname] using hrenamed
  refine alongside_importClause (by rw [map_kind_placed]; exact hfront) hfront' hy hx
    (isTrivia_placed hgap) (isTrivia_placed hspace) hexposing hexposing ?_ herrors
  rw [map_piece_placed, map_piece_placed]

/-- And then it is read to the same place. -/
theorem reads_renamed {column₁ start₁ column₂ start₂ : Nat} (hok : (parse text).ok = true)
    (hmore : cut.more ≠ []) (hgap : ∀ piece ∈ gap, piece.1.isTrivia = true)
    (hkind : y.kind? = some .importKw) (hsame : y.errors = x.errors)
    (herrors : (importClause x).errors = x.errors)
    (hrest : (importClause x).rest = placed column₂ start₂ cut.behind)
    (hx : x.ahead = placed column start cut.kept ++
      placed column₁ start₁ (cut.comments ++ (cut.spaces ++ (cut.clause ++ cut.tail))))
    (hy : y.ahead = placed column start cut.kept ++
      placed column₁ start₁ (gap ++ cut.tail.dropWhile (·.1.isTrivia))) :
    (importClause y).errors = y.errors ∧ ((importClause x).view = (importClause y).view ∨
      (importClause x).atEnd = true ∧ (importClause y).atEnd = true) := by
  have halong := cut.alongside_of_renamed hmore hgap hx hy (by rw [hsame])
  refine ⟨?_, ?_⟩
  · obtain ⟨_, hemits, -⟩ := makes_importClause hkind
    refine (List.IsSuffix.eq_of_length hemits.errors ?_).symm
    rw [halong.errors, herrors, hsame]
  · rw [cut.dropWhile_tail hmore, ← List.append_assoc] at hy
    have hbehind := (hy ▸ List.suffix_append ..).trans (List.dropWhile_suffix _)
    have hlength : (importClause y).rest.length = cut.behind.length := by
      rw [halong.length_eq, hrest, length_placed]
    have hrest' := rest_eq_placed (isWalk_importClause y) hbehind hlength
    rw [← List.takeWhile_append_dropWhile (l := cut.behind) (p := (·.1.isTrivia))] at hrest'
    exact cut.view_or_atEnd hok hrest hrest' (leading_trivia cut.behind) List.suffix_rfl

/-- The text without the clause parses. -/
theorem ok_edited (hok : (parse text).ok = true) (hsafe : cut.IsSafe) :
    (parse cut.edited).ok = true := by
  obtain ⟨gap, hgap, hjoined, hpieces⟩ := cut.exists_gap hok hsafe
  obtain ⟨F, column, start, column', start', hkept, hleft, hright, habreast⟩ :=
    cut.exists_fork hpieces
  refine ok_of_fork hok cut.tree_eq cut.isNode habreast ?_ fun x y hxy hahead hlength herrors => ?_
  · rw [cut.item_length, hkept, hleft]
    simp [length_placed, tail]
  have hahead' := hxy.ahead_eq hahead
  have hkind : x.kind? = some .importKw := by
    obtain ⟨keyword, space, more, name, hwords, hkeyword, -⟩ := cut.exists_words
    rw [Cursor.kind?, Cursor.next?, hahead, hkept, hwords, ← hkeyword]
    rfl
  have hcolumn : x.column? = some 0 := by
    refine (makes_fileItem ?_ herrors).2
    obtain ⟨t, tokens, hnext, -⟩ := Cursor.ahead_of_kind? hkind
    rw [Cursor.atEnd, Cursor.next?, hnext]
    rfl
  rw [fileItem_eq_importClause hcolumn hkind] at hlength herrors ⊢
  rw [fileItem_eq_importClause (hxy.column?_eq ▸ hcolumn) (hxy.kind?_eq ▸ hkind)]
  have hbehind : placed column' start' ((cut.comments ++ (cut.spaces ++
      (cut.clause ++ cut.more))) ++ cut.behind) <:+ x.rest := by
    have hbehind : F.left <:+ x.rest :=
      (hahead ▸ List.suffix_append F.kept F.left).trans (List.dropWhile_suffix _)
    rw [hleft] at hbehind
    simpa [tail] using hbehind
  have hx := rest_eq_placed (isWalk_importClause x) hbehind (hlength.trans cut.others_length)
  rw [hkept, hright] at hahead'
  rw [hkept, hleft] at hahead
  by_cases hmore : cut.more = []
  · rw [tail, hmore, List.nil_append] at hahead' hjoined
    have hy := cut.arrives_of_last hok hgap hahead'
    exact ⟨hy.errors_eq, cut.view_or_atEnd hok hx hy.rest_eq hgap ⟨_, hjoined.symm⟩⟩
  · have hsame : y.errors = x.errors := by
      obtain ⟨_, -, -, rfl⟩ := hxy
      rfl
    exact cut.reads_renamed hok hmore hgap (hxy.kind?_eq ▸ hkind) hsame herrors hx hahead hahead'

end ClauseCut

end ElmLint.Syntax

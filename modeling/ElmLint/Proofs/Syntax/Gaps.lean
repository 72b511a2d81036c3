import ElmLint.Proofs.Syntax.Seams

/-!
# What two gaps become

When what stands between two gaps is taken out, the gaps are put together, and what is cut out of
them is again white space and comments. Only a comment up to the end of its line takes up what is
moved behind it, so there the line has to end before anything else comes.
-/

namespace ElmLint.Syntax

variable {c : Char} {cs rest rest' spaces : List Char} {pieces' first before back : List Piece}

/-- Nothing but white space and comments comes before the end of the line, and no comment goes on
over it. -/
def endsLine : List Piece → Bool
  | [] => true
  | (kind, text) :: pieces =>
    kind.isTrivia && if '\n' ∈ text then kind == .whitespace else endsLine pieces

/-- A line ends with the text, or in white space. -/
theorem exists_lineEnd (h : endsLine pieces' = true) :
    ∃ passed rest, pieces' = passed ++ rest ∧ (∀ piece ∈ passed, piece.1.isTrivia = true) ∧
      '\n' ∉ joined passed ∧ (rest = [] ∨ ∃ spaces spaces' more,
        rest = (.whitespace, spaces ++ '\n' :: spaces') :: more ∧ '\n' ∉ spaces) := by
  induction pieces' with
  | nil => exact ⟨[], [], rfl, nofun, nofun, .inl rfl⟩
  | cons piece pieces ih =>
    obtain ⟨kind, text⟩ := piece
    rw [endsLine, Bool.and_eq_true] at h
    obtain ⟨htrivia, h⟩ := h
    by_cases hfeed : '\n' ∈ text
    · rw [if_pos hfeed, beq_iff_eq] at h
      obtain ⟨spaces, spaces', rfl, hspaces⟩ := List.eq_append_cons_of_mem hfeed
      exact ⟨[], _, rfl, nofun, nofun, .inr ⟨spaces, spaces', pieces, by rw [h], hspaces⟩⟩
    · rw [if_neg hfeed] at h
      obtain ⟨passed, rest, rfl, hpassed, hline, hrest⟩ := ih h
      refine ⟨(kind, text) :: passed, rest, rfl, List.forall_mem_cons.mpr ⟨htrivia, hpassed⟩, ?_,
        hrest⟩
      simpa [joined, hfeed] using hline

-- ---------------------------------------------------------------------------
-- Lexemes of gaps
-- ---------------------------------------------------------------------------

/-- White space and comments are cut the same way in front of any text that starts alike, and behind
a closed comment in front of any text at all. -/
theorem Leads.congr_trivia (h : Leads first rest) (hne : rest ≠ [])
    (htrivia : ∀ piece ∈ first, piece.1.isTrivia = true)
    (hhead : rest'.head? = rest.head? ∨ ∀ piece ∈ first.getLast?, piece.1 = .blockComment) :
    Leads first rest' := by
  induction first with
  | nil => exact .nil _
  | cons piece first ih =>
    obtain ⟨⟨c, tail, htext, hlexeme⟩, hfirst⟩ := leads_cons_iff.mp h
    obtain ⟨hpiece, htrivia⟩ := List.forall_mem_cons.mp htrivia
    have hmore : Leads first rest' := by
      refine ih hfirst htrivia (hhead.imp_right fun hlast last hmem => hlast last ?_)
      rw [List.getLast?_cons, Option.mem_def.mp hmem]
      rfl
    have hends : piece.1 = .blockComment ∨
        (joined first ++ rest').head? = (joined first ++ rest).head? := by
      cases first with
      | nil => exact hhead.symm.imp_left fun hlast => hlast piece rfl
      | cons next first =>
        obtain ⟨⟨d, more, hnext, -⟩, -⟩ := leads_cons_iff.mp hfirst
        exact .inr (by simp [joined, hnext])
    have hchanged : lexeme c ((lexeme c (tail ++ (joined first ++ rest))).text.tail ++
        (joined first ++ rest')) = { lexeme c (tail ++ (joined first ++ rest)) with
          rest := joined first ++ rest' } :=
      lexeme_trivia_append (by rwa [hlexeme]) (by simp [hlexeme, hne]) (by rwa [hlexeme])
    rw [hlexeme, htext, List.tail_cons, ← htext] at hchanged
    exact leads_cons_iff.mpr ⟨⟨c, tail, htext, hchanged⟩, hmore⟩

theorem lexeme_of_lineComment (h : (lexeme c cs).kind = .lineComment) :
    c = '-' ∧ cs.head? = some '-' ∧ lexeme c cs = .run .lineComment (· != '\n') c cs := by
  by_cases hspace : isSpace c = true
  · rw [lexeme.eq_def, if_pos hspace] at h
    cases h
  by_cases hline : c = '-' ∧ cs.head? = some '-'
  · exact ⟨hline.1, hline.2, by rw [lexeme.eq_def, if_neg hspace, if_pos hline]⟩
  by_cases hblock : c = '{' ∧ cs.head? = some '-'
  · rw [lexeme.eq_def, if_neg hspace, if_neg hline, if_pos hblock, Lexeme.prepend,
      kind_blockComment] at h
    cases h
  · have hword := StartsWord.isTrivia ⟨hspace, hline, hblock⟩
    rw [h] at hword
    cases hword

/-- A comment up to the end of its line goes on with whatever is put behind it, up to the next line
feed. -/
theorem Leads.longer_lineComment {comment more : List Char}
    (h : Leads [(.lineComment, comment)] rest) (hmore : '\n' ∉ more)
    (hrest : ∀ d ∈ rest'.head?, d = '\n') : Leads [(.lineComment, comment ++ more)] rest' := by
  obtain ⟨⟨c, tail, htext, hlexeme⟩, -⟩ := leads_cons_iff.mp h
  obtain rfl : comment = c :: tail := htext
  change lexeme c (tail ++ rest) = ⟨.lineComment, c :: tail, rest⟩ at hlexeme
  obtain ⟨rfl, hhead, hrun⟩ := lexeme_of_lineComment (congrArg Lexeme.kind hlexeme)
  rw [hlexeme, Lexeme.run, Lexeme.mk.injEq, List.cons.injEq] at hrun
  have hline : ∀ d ∈ tail ++ more, (d != '\n') = true := by
    refine List.forall_mem_append.mpr ⟨?_, fun d hd => ?_⟩
    · rw [hrun.2.1.2]
      exact List.all_eq_true.mp List.all_takeWhile
    · rw [bne_iff_ne]
      rintro rfl
      exact hmore hd
  have hstop : ∀ d ∈ rest'.head?, (d != '\n') = false := fun d hd => by simp [hrest d hd]
  have hopen : (tail ++ (more ++ rest')).head? = some '-' := by
    cases tail with
    | nil =>
      rw [List.nil_append] at hrun hhead
      have hnone := hrun.2.1.2
      obtain ⟨rest, rfl⟩ := List.head?_eq_some_iff.mp hhead
      simp at hnone
    | cons d tail => exact hhead
  obtain ⟨htake, hdrop⟩ := takeWhile_of_head hstop
  refine leads_cons_iff.mpr ⟨⟨'-', tail ++ more, rfl, ?_⟩, .nil _⟩
  rw [lexeme.eq_def, if_neg (by decide), if_pos ⟨rfl, by simpa [joined] using hopen⟩, Lexeme.run]
  rw [show joined [] ++ rest' = rest' from rfl, List.takeWhile_append_of_pos hline,
    List.dropWhile_append_of_pos hline, htake, hdrop, List.append_nil]
  rfl

/-- White space is all that there is in front of the text behind it. -/
theorem Leads.whitespace_iff :
    Leads [(.whitespace, spaces)] rest ↔ spaces ≠ [] ∧ (∀ c ∈ spaces, isSpace c = true) ∧
      ∀ c ∈ rest.head?, isSpace c = false := by
  constructor
  · intro h
    obtain ⟨⟨c, tail, htext, hlexeme⟩, -⟩ := leads_cons_iff.mp h
    obtain rfl : spaces = c :: tail := htext
    change lexeme c (tail ++ rest) = ⟨.whitespace, c :: tail, rest⟩ at hlexeme
    have hspaces : ∀ e ∈ c :: tail, isSpace e = true := by
      obtain ⟨-, hall⟩ | ⟨hcomment, -⟩ := lexeme_of_isTrivia (by rw [hlexeme]; rfl)
      · rwa [hlexeme] at hall
      · rw [hlexeme] at hcomment
        exact absurd hcomment (by simp)
    have hrun : lexeme c (tail ++ rest) = .run .whitespace isSpace c (tail ++ rest) :=
      if_pos (hspaces c List.mem_cons_self)
    rw [hlexeme, Lexeme.run, Lexeme.mk.injEq] at hrun
    refine ⟨List.cons_ne_nil _ _, hspaces, ?_⟩
    rw [hrun.2.2]
    exact head?_dropWhile isSpace _
  · rintro ⟨hne, hspaces, hrest⟩
    obtain ⟨c, tail, rfl⟩ := List.exists_cons_of_ne_nil hne
    obtain ⟨hc, htail⟩ := List.forall_mem_cons.mp hspaces
    obtain ⟨htake, hdrop⟩ := takeWhile_of_head hrest
    refine leads_cons_iff.mpr ⟨⟨c, tail, rfl, ?_⟩, .nil _⟩
    rw [lexeme.eq_def, if_pos hc, Lexeme.run, show joined [] ++ rest = rest from rfl,
      List.takeWhile_append_of_pos htail, List.dropWhile_append_of_pos htail, htake, hdrop,
      List.append_nil]

/-- White space is cut the same way from any of its characters on. -/
theorem Leads.shorter_whitespace (h : Leads [(.whitespace, spaces ++ c :: cs)] rest) :
    Leads [(.whitespace, c :: cs)] rest := by
  obtain ⟨-, hspaces, hrest⟩ := whitespace_iff.mp h
  exact whitespace_iff.mpr
    ⟨List.cons_ne_nil _ _, fun e he => hspaces e (List.mem_append_right _ he), hrest⟩

/-- Keywords and names. -/
def Kind.isLettered (kind : Kind) : Bool :=
  kind.isKeyword || [Kind.lowerIdent, .upperIdent].contains kind

/-- A word of letters starts as a name goes on, and ends where no name goes on. -/
theorem isNameChar_of_isLettered (h : (lexeme c cs).kind.isLettered = true) :
    isNameChar c = true ∧ ∀ d ∈ (lexeme c cs).rest.head?, isNameChar d = false := by
  revert h
  have hnone {l : Lexeme} {kinds : List Kind} {P : Prop} (hkind : l.kind ∈ kinds)
      (hkinds : ∀ kind ∈ kinds, kind.isLettered = false) (h : l.kind.isLettered = true) : P := by
    rw [hkinds _ hkind] at h
    cases h
  have hliteral : ∀ kind ∈ [Kind.string, .char, .error], kind.isLettered = false := by decide
  have hpunctuation : ∀ kind ∈ Kind.delimiters ++ [.backslash, .underscore, .error],
      kind.isLettered = false := by decide
  have hletter (hc : c.isLower = true ∨ c.isUpper = true) : isNameChar c = true := by
    have halpha : c.isAlpha = (c.isUpper || c.isLower) := rfl
    obtain hc | hc := hc <;> simp [isNameChar, Char.isAlphanum, halpha, hc]
  refine lexeme_cases
    (P := fun l => l.kind.isLettered = true →
      isNameChar c = true ∧ ∀ d ∈ l.rest.head?, isNameChar d = false)
    (fun _ => hnone (show _ ∈ [Kind.whitespace] from .head _) (by decide))
    (fun _ _ _ => hnone (show _ ∈ [Kind.lineComment] from .head _) (by decide))
    (fun rest _ _ => hnone (List.mem_singleton.mpr (kind_blockComment 1 rest)) (by decide))
    (fun hc _ => ⟨hletter (.inl hc), head?_dropWhile _ _⟩)
    (fun hc _ => ⟨hletter (.inr hc), head?_dropWhile _ _⟩)
    (fun _ => hnone (List.mem_singleton.mpr (kind_number c cs)) (by decide))
    (fun rest _ _ => hnone (kind_literal_mem (kind_multiline rest) (by decide)) hliteral)
    (fun _ => hnone (kind_literal_mem (kind_quoted .string '"' cs) (by decide)) hliteral)
    (fun _ => hnone (kind_literal_mem (kind_quoted .char '\'' cs) (by decide)) hliteral)
    (fun _ => hnone (symbolKind_mem _) (by decide)) (hnone ?_ hpunctuation)
  unfold Lexeme.single punctuationKind?
  split <;> simp [Kind.delimiters]

/-- Two words of letters do not touch. -/
theorem Leads.not_isLettered {piece next : Piece} (h : Leads (piece :: next :: first) rest)
    (hpiece : piece.1.isLettered = true) : next.1.isLettered = false := by
  by_contra hnext
  obtain ⟨⟨c, tail, -, hlexeme⟩, hmore⟩ := leads_cons_iff.mp h
  obtain ⟨⟨d, tail', htext, hlexeme'⟩, -⟩ := leads_cons_iff.mp hmore
  have hword : (lexeme c (tail ++ (joined (next :: first) ++ rest))).kind.isLettered = true := by
    rwa [hlexeme]
  have hword' : (lexeme d (tail' ++ (joined first ++ rest))).kind.isLettered = true := by
    rw [hlexeme']
    simpa using hnext
  have hstop := (isNameChar_of_isLettered hword).2
  have hgoesOn := (isNameChar_of_isLettered hword').1
  rw [hlexeme] at hstop
  rw [hstop d (by simp [joined, htext])] at hgoesOn
  cases hgoesOn

-- ---------------------------------------------------------------------------
-- Gaps put together
-- ---------------------------------------------------------------------------

theorem pieces_joined (h : Leads back []) : pieces (joined back) = back := by
  have hnil : pieces [] = [] := by rw [pieces]
  rwa [Leads, List.append_nil, hnil, List.append_nil] at h

theorem leading_trivia (back : List Piece) :
    ∀ piece ∈ back.takeWhile (·.1.isTrivia), piece.1.isTrivia = true :=
  List.all_eq_true.mp List.all_takeWhile

/-- A comment up to the end of its line takes up what is left of the line. -/
theorem exists_gap_of_lineComment {comment : List Char}
    (hbefore : Leads (before ++ [(.lineComment, comment)]) rest) (hne : rest ≠ [])
    (htrivia : ∀ piece ∈ before, piece.1.isTrivia = true) (hback : Leads back [])
    (hline : endsLine back = true) :
    ∃ gap, (∀ piece ∈ gap, piece.1.isTrivia = true) ∧
      joined gap = joined before ++ comment ++ joined (back.takeWhile (·.1.isTrivia)) ∧
      pieces (joined before ++ comment ++ joined back) = gap ++ back.dropWhile (·.1.isTrivia) := by
  obtain ⟨hfirst, hcomment⟩ := hbefore.of_append
  obtain ⟨passed, ended, rfl, hpassed, hoff, hends⟩ := exists_lineEnd hline
  -- the comment with what it takes up
  have hlonger {more next : List Char} (hmore : '\n' ∉ more) (hnext : ∀ d ∈ next.head?, d = '\n') :
      Leads (before ++ [(.lineComment, comment ++ more)]) next := by
    refine .append (hfirst.congr_trivia ?_ htrivia (.inl ?_))
      (hcomment.longer_lineComment hmore hnext)
    · simp [hne]
    · obtain ⟨⟨c, tail, htext, -⟩, -⟩ := leads_cons_iff.mp hcomment
      obtain rfl : comment = c :: tail := htext
      simp [joined]
  rw [List.takeWhile_append_of_pos hpassed, List.dropWhile_append_of_pos hpassed]
  obtain rfl | ⟨spaces, spaces', more, rfl, hspaces⟩ := hends
  · refine ⟨before ++ [(.lineComment, comment ++ joined passed)],
      List.forall_mem_append.mpr ⟨htrivia, List.forall_mem_singleton.mpr rfl⟩, ?_, ?_⟩
    · simp [joined]
    · have hall : Leads (before ++ [(.lineComment, comment ++ joined passed)]) [] :=
        hlonger hoff (by simp)
      have hnil : pieces [] = [] := by rw [pieces]
      rw [Leads, hnil] at hall
      simpa [joined] using hall
  · obtain ⟨hspace, hmore⟩ :=
      Leads.of_append (List.singleton_append ▸ hback.of_append.2)
    have hrest : pieces ('\n' :: spaces' ++ joined more) =
        (.whitespace, '\n' :: spaces') :: more := by
      have hshorter := hspace.shorter_whitespace.append hmore
      simpa [joined] using pieces_joined hshorter
    have hall : Leads (before ++ [(.lineComment, comment ++ (joined passed ++ spaces))])
        ('\n' :: spaces' ++ joined more) := hlonger (by simp [hoff, hspaces]) (by simp)
    refine ⟨before ++ (.lineComment, comment ++ (joined passed ++ spaces)) ::
      (.whitespace, '\n' :: spaces') :: more.takeWhile (·.1.isTrivia), ?_, ?_, ?_⟩
    · exact List.forall_mem_append.mpr ⟨htrivia, List.forall_mem_cons.mpr ⟨rfl,
        List.forall_mem_cons.mpr ⟨rfl, leading_trivia more⟩⟩⟩
    · simp [joined, Kind.isTrivia]
    · rw [Leads, hrest] at hall
      simpa [joined, Kind.isTrivia] using hall

/-- The white space in front of a row, and what is behind it. -/
theorem Leads.exists_spaces (h : Leads back []) :
    ∃ spaces more, (∀ c ∈ spaces, isSpace c = true) ∧ Leads more [] ∧
      (∀ c ∈ (joined more).head?, isSpace c = false) ∧
      joined (back.takeWhile (·.1.isTrivia)) = spaces ++ joined (more.takeWhile (·.1.isTrivia)) ∧
      joined back = spaces ++ joined more ∧
      back.dropWhile (·.1.isTrivia) = more.dropWhile (·.1.isTrivia) := by
  cases back with
  | nil => exact ⟨[], [], nofun, h, nofun, rfl, rfl, rfl⟩
  | cons piece more =>
  obtain ⟨kind, text⟩ := piece
  by_cases hkind : kind = .whitespace
  · subst hkind
    obtain ⟨hspace, hmore⟩ := Leads.of_append (List.singleton_append ▸ h)
    obtain ⟨-, hspaces, hrest⟩ := whitespace_iff.mp hspace
    exact ⟨text, more, hspaces, hmore, by simpa using hrest, by simp [joined, Kind.isTrivia],
      by simp [joined], by simp [Kind.isTrivia]⟩
  · refine ⟨[], _, nofun, h, fun c hc => ?_, rfl, rfl, rfl⟩
    obtain ⟨⟨d, tail, rfl, hlexeme⟩, -⟩ := leads_cons_iff.mp h
    obtain rfl : d = c := by simpa [joined] using hc
    by_contra hspace
    rw [lexeme.eq_def, if_pos (by simpa using hspace)] at hlexeme
    exact hkind (congrArg Lexeme.kind hlexeme).symm

/-- White space takes up the white space that is put behind it. -/
theorem exists_gap_of_whitespace (hbefore : Leads (before ++ [(.whitespace, spaces)]) rest)
    (htrivia : ∀ piece ∈ before, piece.1.isTrivia = true) (hback : Leads back []) :
    ∃ gap, (∀ piece ∈ gap, piece.1.isTrivia = true) ∧
      joined gap = joined before ++ spaces ++ joined (back.takeWhile (·.1.isTrivia)) ∧
      pieces (joined before ++ spaces ++ joined back) =
        gap ++ back.dropWhile (·.1.isTrivia) := by
  obtain ⟨hfirst, hspace⟩ := hbefore.of_append
  obtain ⟨hne, hspaces, -⟩ := Leads.whitespace_iff.mp hspace
  obtain ⟨spaces', more, hspaces', hmore, hstop, htake, hjoined, hdrop⟩ := hback.exists_spaces
  have hlonger : Leads [(.whitespace, spaces ++ spaces')] (joined more) :=
    Leads.whitespace_iff.mpr ⟨by simp [hne], List.forall_mem_append.mpr ⟨hspaces, hspaces'⟩, hstop⟩
  have hall : Leads (before ++ [(.whitespace, spaces ++ spaces')]) (joined more) := by
    refine .append (hfirst.congr_trivia (by simp [joined, hne]) htrivia (.inl ?_)) hlonger
    obtain ⟨c, tail, rfl⟩ := List.exists_cons_of_ne_nil hne
    simp [joined]
  refine ⟨before ++ (.whitespace, spaces ++ spaces') :: more.takeWhile (·.1.isTrivia), ?_, ?_, ?_⟩
  · exact List.forall_mem_append.mpr ⟨htrivia, List.forall_mem_cons.mpr ⟨rfl, leading_trivia more⟩⟩
  · rw [htake]
    simp [joined]
  · rw [Leads, pieces_joined hmore] at hall
    rw [hjoined, hdrop, List.append_assoc before, List.cons_append,
      List.takeWhile_append_dropWhile]
    simpa [joined] using hall

/-- The white space and the comments on both sides of what is taken out become one gap of the same
characters. White space that stood directly in front of it may be taken out, too. -/
theorem exists_gap (hbefore : Leads before rest) (hne : rest ≠ [])
    (htrivia : ∀ piece ∈ before, piece.1.isTrivia = true) (hback : Leads back [])
    (hline : (∀ piece ∈ before.getLast?, piece.1 ≠ .lineComment) ∨ endsLine back = true) :
    ∃ gap, (∀ piece ∈ gap, piece.1.isTrivia = true) ∧
      joined gap = joined before ++ joined (back.takeWhile (·.1.isTrivia)) ∧
      pieces (joined before ++ joined back) = gap ++ back.dropWhile (·.1.isTrivia) := by
  by_cases hother : ∃ piece ∈ before.getLast?, piece.1 = .lineComment ∨ piece.1 = .whitespace
  · obtain ⟨⟨kind, text⟩, hlast, hkind⟩ := hother
    obtain ⟨before, rfl⟩ := List.getLast?_eq_some_iff.mp (Option.mem_def.mp hlast)
    have htrivia' : ∀ piece ∈ before, piece.1.isTrivia = true :=
      fun piece hpiece => htrivia piece (List.mem_append_left _ hpiece)
    obtain rfl | rfl := hkind
    · have hends := hline.resolve_left fun hnone => hnone _ hlast rfl
      simpa [joined] using exists_gap_of_lineComment hbefore hne htrivia' hback hends
    · simpa [joined] using exists_gap_of_whitespace hbefore htrivia' hback
  · have hblock : ∀ piece ∈ before.getLast?, piece.1 = .blockComment := fun piece hpiece => by
      have hmem := List.mem_of_getLast? (Option.mem_def.mp hpiece)
      obtain hkind | hkind | hkind := Kind.isTrivia_cases (htrivia piece hmem)
      · exact absurd ⟨piece, hpiece, .inr hkind⟩ hother
      · exact absurd ⟨piece, hpiece, .inl hkind⟩ hother
      · exact hkind
    have hleads : Leads before (joined back) := hbefore.congr_trivia hne htrivia (.inr hblock)
    refine ⟨before ++ back.takeWhile (·.1.isTrivia),
      List.forall_mem_append.mpr ⟨htrivia, leading_trivia back⟩, joined_append _ _, ?_⟩
    rw [hleads, pieces_joined hback, List.append_assoc, List.takeWhile_append_dropWhile]

-- ---------------------------------------------------------------------------
-- Pieces as tokens
-- ---------------------------------------------------------------------------

/-- The pieces as tokens, where the first starts at the byte `start` and in `column`. -/
def placed (column start : Nat) : List Piece → List PlacedToken
  | [] => []
  | (kind, text) :: pieces =>
    ⟨⟨kind, String.ofList text, start⟩, column⟩ ::
      placed (columnAfter column text) (start + utf8Length text) pieces

theorem placed_append (column start : Nat) (first second : List Piece) :
    placed column start (first ++ second) = placed column start first ++
      placed (columnAfter column (joined first)) (start + utf8Length (joined first)) second := by
  induction first generalizing column start with
  | nil => rfl
  | cons piece first ih =>
    obtain ⟨kind, text⟩ := piece
    have hjoined : joined ((kind, text) :: first) = text ++ joined first := List.flatMap_cons ..
    rw [List.cons_append, placed, placed, ih, hjoined, Tree.columnAfter_append, utf8Length_append,
      Nat.add_assoc, List.cons_append]

theorem length_placed (column start : Nat) (pieces : List Piece) :
    (placed column start pieces).length = pieces.length := by
  induction pieces generalizing column start with
  | nil => rfl
  | cons piece pieces ih => rw [placed, List.length_cons, ih, List.length_cons]

def PlacedToken.piece (t : PlacedToken) : Piece := t.toToken.piece

theorem map_piece_placed (column start : Nat) (pieces : List Piece) :
    (placed column start pieces).map PlacedToken.piece = pieces := by
  induction pieces generalizing column start with
  | nil => rfl
  | cons piece pieces ih =>
    rw [placed, List.map_cons, ih, PlacedToken.piece, Token.piece, String.toList_ofList]

theorem placeTokens_tokensFrom (column fuel offset : Nat) (cs : List Char) (h : cs.length ≤ fuel) :
    placeTokens column (tokensFrom fuel offset cs) = placed column offset (pieces cs) := by
  induction fuel generalizing column offset cs with
  | zero =>
    rw [List.length_eq_zero_iff.mp (Nat.le_zero.mp h), pieces]
    rfl
  | succ fuel ih =>
    cases cs with
    | nil =>
      rw [pieces]
      rfl
    | cons c cs =>
      have hlength := length_rest_lexeme c cs
      rw [pieces, tokensFrom, placeTokens, ih _ _ _ (by omega), placed, String.toList_ofList]

theorem rest_beforeItems (text : String) :
    (Cursor.beforeItems text).rest = placed 0 0 (pieces text.toList) :=
  placeTokens_tokensFrom 0 _ 0 _ (Nat.le_refl _)

theorem viewOf_placed (column start : Nat) (pieces : List Piece) :
    viewOf (placed column start pieces) = viewFrom column pieces := by
  induction pieces generalizing column start with
  | nil => rfl
  | cons piece pieces ih => rw [placed, viewOf, viewFrom, ih]

/-- What is seen behind a gap. -/
theorem viewFrom_append_gap {gapPieces : List Piece} (hne : gapPieces ≠ [])
    (hgap : ∀ piece ∈ gapPieces, piece.1.isTrivia = true) (column : Nat) (back : List Piece) :
    viewFrom column (gapPieces ++ back) =
      gap (viewFrom (columnAfter column (joined gapPieces)) back) := by
  induction gapPieces generalizing column with
  | nil => exact absurd rfl hne
  | cons piece more ih =>
    obtain ⟨kind, text⟩ := piece
    obtain ⟨hpiece, hmore⟩ := List.forall_mem_cons.mp hgap
    have hjoined : joined ((kind, text) :: more) = text ++ joined more := List.flatMap_cons ..
    rw [List.cons_append, viewFrom, if_pos hpiece, hjoined, Tree.columnAfter_append]
    cases more with
    | nil => rfl
    | cons next more => rw [ih (List.cons_ne_nil _ _) hmore, gap_gap]

/-- Behind a line feed it does not matter where the line in front of it started. -/
theorem columnAfter_of_mem {text : List Char} (h : '\n' ∈ text) (column column' : Nat) :
    columnAfter column text = columnAfter column' text := by
  obtain ⟨front, back, rfl⟩ := List.append_of_mem h
  rw [Tree.columnAfter_append, Tree.columnAfter_append]
  rfl

end ElmLint.Syntax

import ElmLint.Proofs.Syntax.Written

/-!
# Texts that are put together

A text that is cut at a token and goes on differently keeps the tokens in front of the cut as long
as the cut is one: in front of a delimiter or of white space the tokens are decided, and white space
and comments may end anywhere once a word has followed them.
-/

namespace ElmLint.Syntax

open Lexeme (Cuts)

/-- A kind with a text. -/
abbrev Piece := Kind × List Char

variable {c : Char} {cs rest rest' spaces : List Char} {kind : Kind} {piece : Piece}
  {front first second : List Piece}

/-- The pieces that are neither white space nor comments. -/
def solid (pieces : List Piece) : List Piece := pieces.filter (!·.1.isTrivia)

def joined (pieces : List Piece) : List Char := pieces.flatMap (·.2)

theorem solid_append (first second : List Piece) :
    solid (first ++ second) = solid first ++ solid second := List.filter_append ..

theorem joined_append (first second : List Piece) :
    joined (first ++ second) = joined first ++ joined second := List.flatMap_append

theorem joined_pieces (cs : List Char) : joined (pieces cs) = cs := by
  fun_induction pieces cs with
  | case1 => rfl
  | case2 c cs ih =>
    rw [joined, List.flatMap_cons]
    exact (congrArg ((lexeme c cs).text ++ ·) ih).trans (cuts_lexeme c cs)

-- ---------------------------------------------------------------------------
-- Lexemes with another text behind them
-- ---------------------------------------------------------------------------

/-- An opening that is closed is closed by something. -/
theorem text_blockComment_ne_nil {depth : Nat} (h : (blockComment (depth + 1) cs).rest ≠ []) :
    (blockComment (depth + 1) cs).text ≠ [] := by
  rw [blockComment.eq_def] at h ⊢
  split at h
  case h_1 heq => cases heq
  case h_2 => exact absurd rfl h
  all_goals exact List.cons_ne_nil _ _

/-- What follows a closed comment does not matter. -/
theorem blockComment_append {depth : Nat} (h : (blockComment depth cs).rest ≠ []) :
    blockComment depth ((blockComment depth cs).text ++ rest') =
      { blockComment depth cs with rest := rest' } := by
  fun_induction blockComment depth cs with
  | case1 => simp [blockComment]
  | case2 => exact absurd rfl h
  | case3 depth cs ih | case4 depth cs ih =>
    simp only [Lexeme.prepend, List.cons_append, List.nil_append, blockComment]
    rw [ih h]
  | case5 depth c cs hopen hclose ih =>
    -- a sign that starts with the first character would have been there before
    have hcuts : (blockComment (depth + 1) cs).text ++ (blockComment (depth + 1) cs).rest = cs :=
      cuts_blockComment (depth + 1) cs
    obtain ⟨d, text, htext⟩ := List.exists_cons_of_ne_nil (text_blockComment_ne_nil h)
    simp only [Lexeme.prepend, List.cons_append, List.nil_append]
    rw [blockComment, ih h]
    · rfl
    · intro more hc hmore
      rw [htext, List.cons_append, List.cons.injEq] at hmore
      rw [htext, hmore.1, List.cons_append] at hcuts
      exact hopen _ hc hcuts.symm
    · intro more hc hmore
      rw [htext, List.cons_append, List.cons.injEq] at hmore
      rw [htext, hmore.1, List.cons_append] at hcuts
      exact hclose _ hc hcuts.symm

/-- White space and comments in front of a text that begins with the same character. -/
theorem lexeme_trivia_append (htrivia : (lexeme c cs).kind.isTrivia = true)
    (hne : (lexeme c cs).rest ≠ [])
    (hhead : (lexeme c cs).kind = .blockComment ∨ rest'.head? = (lexeme c cs).rest.head?) :
    lexeme c ((lexeme c cs).text.tail ++ rest') = { lexeme c cs with rest := rest' } := by
  by_cases hspace : isSpace c = true
  · have hlexeme (cs : List Char) : lexeme c cs = .run .whitespace isSpace c cs := if_pos hspace
    simp only [hlexeme] at hhead ⊢
    exact run_append _ _ _ ((hhead.resolve_left nofun) ▸ head?_dropWhile isSpace cs)
  by_cases hline : c = '-' ∧ cs.head? = some '-'
  · obtain ⟨rfl, hcs⟩ := hline
    obtain ⟨more, rfl⟩ := List.head?_eq_some_iff.mp hcs
    have hlexeme (cs : List Char) :
        lexeme '-' ('-' :: cs) = .run .lineComment (· != '\n') '-' ('-' :: cs) := rfl
    rw [hlexeme] at hhead ⊢
    refine run_append .lineComment '-' ('-' :: more) ?_
    exact (hhead.resolve_left nofun) ▸ head?_dropWhile (· != '\n') ('-' :: more)
  by_cases hblock : c = '{' ∧ cs.head? = some '-'
  · obtain ⟨rfl, hcs⟩ := hblock
    obtain ⟨more, rfl⟩ := List.head?_eq_some_iff.mp hcs
    exact congrArg (Lexeme.prepend ['{', '-']) (blockComment_append hne)
  · rw [StartsWord.isTrivia ⟨hspace, hline, hblock⟩] at htrivia
    cases htrivia

/-- Only a line feed ends a comment that goes to the end of its line. -/
theorem head?_rest_of_lineComment (h : (lexeme c cs).kind = .lineComment) :
    ∀ d ∈ (lexeme c cs).rest.head?, d = '\n' := by
  by_cases hspace : isSpace c = true
  · rw [lexeme.eq_def, if_pos hspace] at h
    cases h
  by_cases hline : c = '-' ∧ cs.head? = some '-'
  · rw [lexeme.eq_def, if_neg hspace, if_pos hline]
    have hfeed : ∀ d ∈ (cs.dropWhile (· != '\n')).head?, (d != '\n') = false :=
      head?_dropWhile _ cs
    intro d hd
    simpa using hfeed d hd
  by_cases hblock : c = '{' ∧ cs.head? = some '-'
  · rw [lexeme.eq_def, if_neg hspace, if_neg hline, if_pos hblock, Lexeme.prepend,
      kind_blockComment] at h
    cases h
  · have hword := StartsWord.isTrivia ⟨hspace, hline, hblock⟩
    rw [h] at hword
    cases hword

/-- A name stays as it is where no name goes on. -/
theorem lexeme_name_append
    (hkind : (lexeme c cs).kind = .lowerIdent ∨ (lexeme c cs).kind = .upperIdent)
    (hrest : ∀ d ∈ rest'.head?, isNameChar d = false) :
    lexeme c ((lexeme c cs).text.tail ++ rest') = { lexeme c cs with rest := rest' } := by
  have hstarts : StartsWord c cs := startsWord_of_kind (by obtain h | h := hkind <;> rw [h] <;> rfl)
  have hletter := isLetter_of_kind hkind
  have hstarts' (cs : List Char) : StartsWord c cs := by
    refine ⟨hstarts.space, ?_, ?_⟩
    all_goals
      rintro ⟨rfl, -⟩
      exact absurd hletter (by decide)
  rw [lexeme.eq_def c (_ ++ _), if_neg hstarts.space, if_neg (hstarts' _).lineComment,
    if_neg (hstarts' _).blockComment]
  rw [lexeme.eq_def c cs, if_neg hstarts.space, if_neg hstarts.lineComment,
    if_neg hstarts.blockComment]
  by_cases hlower : c.isLower = true
  · obtain ⟨htake, hdrop⟩ := takeWhile_append cs hrest
    simp only [if_pos hlower, Lexeme.run, List.tail_cons]
    rw [htake, hdrop]
  · simp only [if_neg hlower, if_pos (hletter.resolve_left hlower)]
    exact run_append .upperIdent c cs hrest

/-- The kinds of the delimiters. -/
def Kind.delimiters : List Kind :=
  [.lParen, .rParen, .lBracket, .rBracket, .lBrace, .rBrace, .comma]

/-- A token of such a kind is a delimiter. -/
theorem isDelimiter_of_kind (h : (lexeme c cs).kind ∈ Kind.delimiters) :
    isDelimiter c = true ∧ lexeme c cs = .single (lexeme c cs).kind c cs := by
  revert h
  have hnone {kind : Kind} {kinds : List Kind} {P : Prop} (hkind : kind ∈ kinds)
      (hkinds : ∀ kind ∈ kinds, kind ∉ Kind.delimiters) (h : kind ∈ Kind.delimiters) : P :=
    absurd h (hkinds kind hkind)
  refine lexeme_cases (P := fun l =>
    l.kind ∈ Kind.delimiters → isDelimiter c = true ∧ l = .single l.kind c cs)
    (fun _ (h : Kind.whitespace ∈ Kind.delimiters) => absurd h (by decide))
    (fun _ _ _ (h : Kind.lineComment ∈ Kind.delimiters) => absurd h (by decide)) ?blockComment
    ?word (fun _ (h : Kind.upperIdent ∈ Kind.delimiters) => absurd h (by decide)) ?number
    ?multiline ?string ?char ?symbol ?other
  case blockComment =>
    intro rest _ _ h
    rw [Lexeme.prepend, kind_blockComment] at h
    exact absurd h (by decide)
  case word =>
    have hword (word : String) : wordKind word ∉ Kind.delimiters := by
      unfold wordKind
      split <;> decide
    exact fun _ h => absurd h (hword _)
  case number =>
    intro _ h
    rw [kind_number] at h
    exact absurd h (by decide)
  case multiline =>
    exact fun rest _ _ => hnone (kind_literal_mem (kind_multiline rest) (by decide)) (by decide)
  case string =>
    exact fun _ => hnone (kind_literal_mem (kind_quoted .string '"' cs) (by decide)) (by decide)
  case char =>
    exact fun _ => hnone (kind_literal_mem (kind_quoted .char '\'' cs) (by decide)) (by decide)
  case symbol => exact fun _ => hnone (symbolKind_mem _) (by decide)
  case other =>
    unfold Lexeme.single punctuationKind?
    split <;> first
      | exact fun _ => ⟨rfl, rfl⟩
      | exact fun (h : Kind.error ∈ Kind.delimiters) => absurd h (by decide)
      | exact fun (h : Kind.backslash ∈ Kind.delimiters) => absurd h (by decide)
      | exact fun (h : Kind.underscore ∈ Kind.delimiters) => absurd h (by decide)

/-- Behind a delimiter a token starts, but for the brace that opens a comment. -/
theorem lexeme_of_isDelimiter (hc : isDelimiter c = true)
    (hopen : c = '{' → cs.head? ≠ some '-') :
    lexeme c cs = .single ((punctuationKind? c).getD .error) c cs := by
  rcases isDelimiter_cases hc with rfl | rfl | rfl | rfl | rfl | rfl | rfl
  case inr.inr.inr.inr.inl =>
    rw [lexeme.eq_def, if_neg (by decide), if_neg (by simp), if_neg (by simpa using hopen)]
    rfl
  all_goals rfl

-- ---------------------------------------------------------------------------
-- Pieces in front of a text
-- ---------------------------------------------------------------------------

/-- The pieces are what their text is cut into when the other stands behind it. -/
def Leads (front : List Piece) (rest : List Char) : Prop :=
  pieces (joined front ++ rest) = front ++ pieces rest

theorem leads_cons_iff :
    Leads (piece :: front) rest ↔
      (∃ c tail, piece.2 = c :: tail ∧ lexeme c (tail ++ (joined front ++ rest)) =
        ⟨piece.1, piece.2, joined front ++ rest⟩) ∧ Leads front rest := by
  have hjoined : joined (piece :: front) ++ rest = piece.2 ++ (joined front ++ rest) := by
    rw [joined, List.flatMap_cons, List.append_assoc]
    rfl
  rw [Leads, hjoined]
  constructor
  · intro h
    cases hcs : piece.2 ++ (joined front ++ rest) with
    | nil => simp [hcs, pieces] at h
    | cons c cs =>
      rw [hcs, pieces, List.cons_append, List.cons.injEq] at h
      obtain ⟨hpiece, hmore⟩ := h
      have htext : (lexeme c cs).text = piece.2 := congrArg Prod.snd hpiece
      have hkind : (lexeme c cs).kind = piece.1 := congrArg Prod.fst hpiece
      have hcuts : (lexeme c cs).text ++ (lexeme c cs).rest = c :: cs := cuts_lexeme c cs
      rw [← hcs, htext] at hcuts
      have hrest := List.append_cancel_left hcuts
      obtain ⟨hcons, htail⟩ := text_lexeme_eq_cons c cs
      refine ⟨⟨c, (lexeme c cs).text.tail, htext ▸ hcons, ?_⟩, ?_⟩
      · rw [← hrest, htail, ← hkind, ← htext]
      · rw [Leads, ← hrest]
        exact hmore
  · rintro ⟨⟨c, tail, htext, hlexeme⟩, hfront⟩
    rw [htext, List.cons_append, pieces, hlexeme, hfront]
    rfl

namespace Leads

theorem nil (rest : List Char) : Leads [] rest := rfl

/-- The first of two rows of pieces stands in front of the text of the second. -/
theorem of_append (h : Leads (first ++ second) rest) :
    Leads first (joined second ++ rest) ∧ Leads second rest := by
  induction first with
  | nil => exact ⟨.nil _, h⟩
  | cons piece first ih =>
    rw [List.cons_append] at h
    obtain ⟨hpiece, hmore⟩ := leads_cons_iff.mp h
    obtain ⟨hfirst, hsecond⟩ := ih hmore
    rw [joined_append, List.append_assoc] at hpiece
    exact ⟨leads_cons_iff.mpr ⟨hpiece, hfirst⟩, hsecond⟩

theorem append (hfirst : Leads first (joined second ++ rest)) (hsecond : Leads second rest) :
    Leads (first ++ second) rest := by
  rw [Leads, joined_append, List.append_assoc, hfirst, hsecond, List.append_assoc]

/-- The pieces of a text lead up to its end. -/
theorem of_pieces (cs : List Char) : Leads (pieces cs) [] := by
  have hnil : pieces [] = [] := by rw [pieces]
  rw [Leads, joined_pieces, List.append_nil, hnil, List.append_nil]

/-- In front of a dead end, nothing but the first character behind them decides about tokens. -/
theorem congr (h : Leads front rest) (hclean : ∀ piece ∈ front, piece.1 ≠ .error)
    (hdulls : Dulls rest rest') (hhead : rest'.head? = rest.head?) (hne : rest ≠ []) :
    Leads front rest' := by
  induction front with
  | nil => exact .nil _
  | cons piece front ih =>
    obtain ⟨⟨c, tail, htext, hlexeme⟩, hfront⟩ := leads_cons_iff.mp h
    obtain ⟨hkind, hclean⟩ := List.forall_mem_cons.mp hclean
    refine leads_cons_iff.mpr ⟨⟨c, tail, htext, ?_⟩, ih hfront hclean⟩
    have hhead' : (joined front ++ rest').head? = (joined front ++ rest).head? := by
      rw [List.head?_append, List.head?_append, hhead]
    have hchanged : lexeme c ((lexeme c (tail ++ (joined front ++ rest))).text.tail ++
        (joined front ++ rest')) = { lexeme c (tail ++ (joined front ++ rest)) with
          rest := joined front ++ rest' } := by
      by_cases htrivia : piece.1.isTrivia = true
      · refine lexeme_trivia_append (by rwa [hlexeme]) ?_ (.inr ?_)
        · rw [hlexeme]
          exact fun hnil => hne (List.append_eq_nil_iff.mp hnil).2
        · rw [hlexeme, hhead']
      · refine lexeme_append (startsWord_of_kind ?_) (.of_head? ?_ ?_ ?_)
        · rw [hlexeme]
          simpa using htrivia
        · rw [hlexeme]
          exact hdulls.append _
        · rw [hlexeme, hhead']
        · rw [hlexeme]
          exact fun herror => absurd herror hkind
    rw [hlexeme, htext] at hchanged
    rw [htext]
    exact hchanged

end Leads

-- ---------------------------------------------------------------------------
-- White space and comments
-- ---------------------------------------------------------------------------

theorem solid_of_trivia (h : ∀ piece ∈ first, piece.1.isTrivia = true) : solid first = [] :=
  List.filter_eq_nil_iff.mpr fun piece hpiece => by simp [h piece hpiece]

/-- What stands in front loses none of the pieces that are seen, whatever becomes of the white space
and the comments in it. -/
def Keeps (front : List Piece) (rest : List Char) : Prop :=
  solid (pieces (joined front ++ rest)) = solid front ++ solid (pieces rest)

theorem Leads.keeps (h : Leads front rest) : Keeps front rest := by rw [Keeps, h, solid_append]

theorem Keeps.trans (hfirst : Keeps first (joined second ++ rest)) (hsecond : Keeps second rest) :
    Keeps (first ++ second) rest := by
  rw [Keeps, joined_append, List.append_assoc, hfirst, hsecond, solid_append, List.append_assoc]

/-- Only white space stands behind a comment that goes to the end of its line. -/
theorem Leads.last_ne_lineComment (h : Leads front (c :: cs)) (hc : isSpace c = false) :
    ∀ piece ∈ front.getLast?, piece.1 ≠ .lineComment := by
  intro piece hpiece hline
  obtain ⟨front, rfl⟩ := List.getLast?_eq_some_iff.mp (Option.mem_def.mp hpiece)
  obtain ⟨⟨d, tail, -, hlexeme⟩, -⟩ := leads_cons_iff.mp h.of_append.2
  change lexeme d (tail ++ c :: cs) = ⟨piece.1, piece.2, c :: cs⟩ at hlexeme
  have hfeed : ∀ e ∈ (lexeme d (tail ++ c :: cs)).rest.head?, e = '\n' :=
    head?_rest_of_lineComment ((congrArg Lexeme.kind hlexeme).trans hline)
  rw [hlexeme] at hfeed
  rw [hfeed c rfl] at hc
  cases hc

-- ---------------------------------------------------------------------------
-- Seams
-- ---------------------------------------------------------------------------

/-- Where a piece that is seen stands, no white space stands. -/
theorem Leads.exists_cons (h : Leads (piece :: front) rest) (hword : piece.1.isTrivia = false) :
    ∃ c cs, joined (piece :: front) ++ rest = c :: cs ∧ isSpace c = false := by
  obtain ⟨⟨c, tail, htext, hlexeme⟩, -⟩ := leads_cons_iff.mp h
  refine ⟨c, tail ++ (joined front ++ rest), ?_, ?_⟩
  · rw [joined, List.flatMap_cons, htext, List.append_assoc]
    rfl
  · have hstarts : StartsWord c (tail ++ (joined front ++ rest)) :=
      startsWord_of_kind (by rwa [hlexeme])
    simpa using hstarts.space

/-- A delimiter is a single character, and with a brace in front of a hyphen it would be none. -/
theorem Leads.delimiter_eq (h : Leads [piece] rest) (hkind : piece.1 ∈ Kind.delimiters) :
    ∃ d, isDelimiter d = true ∧ piece = ((punctuationKind? d).getD .error, [d]) ∧
      (d = '{' → rest.head? ≠ some '-') := by
  obtain ⟨⟨d, tail, htext, hlexeme⟩, -⟩ := leads_cons_iff.mp h
  obtain ⟨hd, hsingle⟩ := isDelimiter_of_kind (by rw [hlexeme]; exact hkind)
  rw [hlexeme, Lexeme.single, Lexeme.mk.injEq] at hsingle
  obtain ⟨-, hsecond, hrest⟩ := hsingle
  change rest = tail ++ rest at hrest
  rw [show joined [] ++ rest = rest from rfl, ← hrest] at hlexeme
  have hopen (hbrace : d = '{') : rest.head? ≠ some '-' := by
    intro hhead
    rw [lexeme.eq_def, if_neg (by rw [hbrace]; decide), if_neg (by rw [hbrace]; simp),
      if_pos ⟨hbrace, hhead⟩] at hlexeme
    have hcomment := congrArg Lexeme.kind hlexeme
    rw [Lexeme.prepend, kind_blockComment] at hcomment
    rw [← show Kind.blockComment = piece.1 from hcomment] at hkind
    exact absurd hkind (by decide)
  refine ⟨d, hd, Prod.ext ?_ hsecond, hopen⟩
  rw [lexeme_of_isDelimiter hd hopen] at hlexeme
  exact (congrArg Lexeme.kind hlexeme).symm

/-- What stands behind a delimiter may be replaced. -/
theorem Leads.behind_delimiter (h : Leads (front ++ [piece]) rest)
    (hclean : ∀ piece ∈ front, piece.1 ≠ .error) (hkind : piece.1 ∈ Kind.delimiters)
    (hopen : piece.1 = .lBrace → rest'.head? ≠ some '-') : Leads (front ++ [piece]) rest' := by
  obtain ⟨hfront, hpiece⟩ := h.of_append
  obtain ⟨d, hd, rfl, -⟩ := hpiece.delimiter_eq hkind
  refine .append (hfront.congr hclean (.delimiter hd _ _) rfl (List.cons_ne_nil _ _)) ?_
  refine leads_cons_iff.mpr ⟨⟨d, [], rfl, lexeme_of_isDelimiter hd fun hbrace => hopen ?_⟩, .nil _⟩
  rw [hbrace]
  rfl

theorem Kind.isTrivia_cases (h : kind.isTrivia = true) :
    kind = .whitespace ∨ kind = .lineComment ∨ kind = .blockComment := by
  revert h
  cases kind <;> first
    | exact fun _ => .inl rfl
    | exact fun _ => .inr (.inl rfl)
    | exact fun _ => .inr (.inr rfl)
    | exact nofun

/-- What may stand in front of a name and is cut the same way whatever the name becomes. -/
def Kind.seams : List Kind := .whitespace :: .blockComment :: .dot :: Kind.delimiters

theorem Kind.not_isTrivia_of_delimiter : ∀ kind ∈ delimiters, kind.isTrivia = false := by decide

/-- A block comment is one from its first two characters on. -/
theorem eq_brace_of_blockComment (h : (lexeme c cs).kind = .blockComment) : c = '{' := by
  by_cases hspace : isSpace c = true
  · rw [lexeme.eq_def, if_pos hspace] at h
    cases h
  by_cases hline : c = '-' ∧ cs.head? = some '-'
  · rw [lexeme.eq_def, if_neg hspace, if_pos hline] at h
    cases h
  by_cases hblock : c = '{' ∧ cs.head? = some '-'
  · exact hblock.1
  · have hword := StartsWord.isTrivia ⟨hspace, hline, hblock⟩
    rw [h] at hword
    cases hword

/-- What a letter ends ends at that letter, whatever follows it. -/
theorem Leads.seam (h : Leads [piece] (c :: cs)) (hkind : piece.1 ∈ Kind.seams)
    (hc : c.isLower = true ∨ c.isUpper = true) (more : List Char) :
    Leads [piece] (c :: more) ∧ ∀ cs, Dulls cs (piece.2 ++ c :: more) := by
  have hsymbol : isSymbol c = false := not_isSymbol (hc.imp_right .inl)
  obtain ⟨⟨d, tail, htext, hlexeme⟩, -⟩ := leads_cons_iff.mp h
  change lexeme d (tail ++ c :: cs) = ⟨piece.1, piece.2, c :: cs⟩ at hlexeme
  have hkindOf : (lexeme d (tail ++ c :: cs)).kind = piece.1 := congrArg Lexeme.kind hlexeme
  have htrivia (htrivia : piece.1.isTrivia = true) : Leads [piece] (c :: more) := by
    have hchanged : lexeme d ((lexeme d (tail ++ c :: cs)).text.tail ++ c :: more) =
        { lexeme d (tail ++ c :: cs) with rest := c :: more } :=
      lexeme_trivia_append (by rwa [hkindOf]) (by simp [hlexeme]) (.inr (by simp [hlexeme]))
    rw [hlexeme, htext, List.tail_cons, ← htext] at hchanged
    exact leads_cons_iff.mpr ⟨⟨d, tail, htext, hchanged⟩, .nil _⟩
  obtain hspace | hcomment | hdot | hdelimiter : piece.1 = .whitespace ∨ piece.1 = .blockComment ∨
      piece.1 = .dot ∨ piece.1 ∈ Kind.delimiters := by simpa [Kind.seams] using hkind
  · refine ⟨htrivia (by rw [hspace]; rfl), fun cs => ?_⟩
    obtain ⟨-, hspaces⟩ | ⟨hkind, -⟩ := lexeme_of_isTrivia (by rw [hkindOf, hspace]; rfl)
    · rw [hlexeme, htext] at hspaces
      rw [htext]
      exact .space (hspaces d List.mem_cons_self) _ _
    · rw [hkindOf, hspace] at hkind
      exact absurd hkind (by decide)
  · refine ⟨htrivia (by rw [hcomment]; rfl), fun cs => ?_⟩
    obtain rfl := eq_brace_of_blockComment (hkindOf.trans hcomment)
    rw [htext]
    exact .delimiter (by decide) _ _
  · have hall : piece.2 = ['.'] := by
      rw [← text_of_dot (hkindOf.trans hdot), hlexeme]
    rw [hall]
    refine ⟨leads_cons_iff.mpr ⟨⟨'.', [], hall, ?_⟩, .nil _⟩, fun cs => .dot (not_isDigit hc) _ _⟩
    rw [hdot, hall]
    exact lexeme_dot hsymbol more
  · obtain ⟨d, hd, rfl, -⟩ := h.delimiter_eq hdelimiter
    refine ⟨leads_cons_iff.mpr ⟨⟨d, [], rfl, lexeme_of_isDelimiter hd fun _ => ?_⟩, .nil _⟩,
      fun cs => .delimiter hd _ _⟩
    rintro hhead
    rw [show c = '-' from Option.some.inj hhead] at hsymbol
    exact absurd hsymbol (by decide)

/-- What stands behind a name may be replaced by what does not go on with it. -/
theorem Leads.behind_name {name : Piece} (h : Leads (front ++ [piece, name]) rest)
    (hclean : ∀ piece ∈ front, piece.1 ≠ .error) (hkind : piece.1 ∈ Kind.seams)
    (hname : name.1 = .lowerIdent ∨ name.1 = .upperIdent)
    (hrest : ∀ d ∈ rest'.head?, isNameChar d = false) : Leads (front ++ [piece, name]) rest' := by
  obtain ⟨hfront, hback⟩ := h.of_append
  rw [show [piece, name] = [piece] ++ [name] from rfl] at hback
  obtain ⟨hpiece, hend⟩ := hback.of_append
  obtain ⟨⟨d, tail, htext, hlexeme⟩, -⟩ := leads_cons_iff.mp hend
  have hjoined (rest : List Char) : joined [name] ++ rest = d :: (tail ++ rest) := by
    rw [joined, List.flatMap_singleton, htext, List.cons_append]
  rw [hjoined] at hpiece
  obtain ⟨hpiece', hdulls⟩ :=
    hpiece.seam hkind (isLetter_of_kind (by rwa [hlexeme])) (tail ++ rest')
  have hend' : Leads [name] rest' := by
    have hchanged : lexeme d ((lexeme d (tail ++ (joined [] ++ rest))).text.tail ++ rest') =
        { lexeme d (tail ++ (joined [] ++ rest)) with rest := rest' } :=
      lexeme_name_append (by rwa [hlexeme]) hrest
    rw [hlexeme, htext, List.tail_cons, ← htext] at hchanged
    exact leads_cons_iff.mpr ⟨⟨d, tail, htext, hchanged⟩, .nil _⟩
  have hpair (rest : List Char) :
      joined [piece, name] ++ rest = piece.2 ++ d :: (tail ++ rest) := by
    rw [← hjoined]
    simp [joined]
  rw [hpair] at hfront
  have hback' : Leads [piece, name] rest' := by
    rw [← hjoined] at hpiece'
    exact hpiece'.append hend'
  refine .append ?_ hback'
  rw [hpair]
  refine hfront.congr hclean (hdulls _) ?_ (by simp)
  rw [List.head?_append, List.head?_append]
  rfl

/-- A name does not go on with white space, a comment or a delimiter. -/
theorem Leads.not_isNameChar (h : Leads front rest)
    (hfront : ∀ piece ∈ front.head?, piece.1.isTrivia = true ∨ piece.1 ∈ Kind.delimiters)
    (hrest : ∀ d ∈ rest'.head?, isNameChar d = false) :
    ∀ d ∈ (joined front ++ rest').head?, isNameChar d = false := by
  cases front with
  | nil => exact hrest
  | cons piece front =>
    obtain ⟨⟨d, tail, htext, hlexeme⟩, -⟩ := leads_cons_iff.mp h
    have hhead : (joined (piece :: front) ++ rest').head? = some d := by simp [joined, htext]
    rw [hhead]
    rintro _ ⟨⟩
    have hkindOf := congrArg Lexeme.kind hlexeme
    obtain htrivia | hdelimiter := hfront piece rfl
    · obtain ⟨-, hspaces⟩ | ⟨-, hopens⟩ := lexeme_of_isTrivia (by rw [hkindOf]; exact htrivia)
      · rw [hlexeme, htext] at hspaces
        exact not_isNameChar_of_isSpace (hspaces d List.mem_cons_self)
      · obtain rfl | rfl : d = '-' ∨ d = '{' := by simpa [opensComment] using hopens
        · decide
        · decide
    · exact not_isNameChar_of_isDelimiter (isDelimiter_of_kind (by rwa [hkindOf])).1

theorem mem_getLast?_append (h : piece ∈ second.getLast?) :
    piece ∈ (first ++ second).getLast? := by
  rw [List.getLast?_append, Option.mem_def.mp h]
  rfl

end ElmLint.Syntax

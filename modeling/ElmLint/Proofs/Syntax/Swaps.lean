import ElmLint.Proofs.Syntax.Gaps

/-!
# Tokens put in the place of others

An edit puts something else behind a row of tokens. They stay cut as they are when the last of them
does not go on with what comes to stand behind it. In front of an underscore only a word of letters
goes on, and in front of a delimiter, an arrow or an equals sign nothing does that ends a pattern.
-/

namespace ElmLint.Syntax

variable {c : Char} {cs rest rest' : List Char} {kind : Kind} {piece : Piece}
  {front gap back gone : List Piece}

-- ---------------------------------------------------------------------------
-- First characters
-- ---------------------------------------------------------------------------

theorem isLettered_of_isAlpha (hc : c.isAlpha = true) (cs : List Char) :
    (lexeme c cs).kind.isLettered = true := by
  have hletter := isAlpha_iff.mp hc
  have hspace : ¬isSpace c = true := by
    intro hspace
    have hnone := not_isNameChar_of_isSpace hspace
    simp [isNameChar, Char.isAlphanum, hc] at hnone
  have hother : c ≠ '-' ∧ c ≠ '{' := by
    constructor
    all_goals
      rintro rfl
      exact absurd hc (by decide)
  rw [lexeme.eq_def, if_neg hspace, if_neg (by simp [hother.1]), if_neg (by simp [hother.2])]
  by_cases hlower : c.isLower = true
  · rw [if_pos hlower]
    show (wordKind _).isLettered = true
    unfold wordKind
    split <;> rfl
  · rw [if_neg hlower, if_pos (hletter.resolve_left hlower)]
    rfl

/-- A brace is a token of its own. -/
theorem Leads.kind_of_brace (h : Leads [piece] rest) (htext : piece.2 = ['{']) :
    piece.1 = .lBrace := by
  obtain ⟨⟨d, tail, htail, hlexeme⟩, -⟩ := leads_cons_iff.mp h
  rw [htext, List.cons.injEq] at htail
  obtain ⟨rfl, rfl⟩ := htail
  change lexeme '{' rest = ⟨piece.1, piece.2, rest⟩ at hlexeme
  by_cases hhyphen : rest.head? = some '-'
  · have hlonger := congrArg (List.length ∘ Lexeme.text) hlexeme
    rw [lexeme.eq_def, if_neg (by decide), if_neg (by simp), if_pos ⟨rfl, hhyphen⟩] at hlonger
    simp [Lexeme.prepend, htext] at hlonger
  · rw [lexeme_of_isDelimiter (by decide) fun _ => hhyphen] at hlexeme
    exact (congrArg Lexeme.kind hlexeme).symm

/-- The kinds of tokens that stand behind a pattern, and white space and comments. -/
def Kind.stops : List Kind :=
  [.whitespace, .lineComment, .blockComment, .rParen, .rBracket, .rBrace, .comma, .arrow, .eq]

/-- No number goes on with a text, and no name does. -/
structure Stops (cs : List Char) : Prop where
  isDeadEnd : IsDeadEnd cs
  not_isNameChar : ∀ c ∈ cs.head?, isNameChar c = false

theorem Stops.cons (hname : isNameChar c = false)
    (hother : c ≠ '"' ∧ c ≠ '.' ∧ c ≠ '+' ∧ c ≠ '-') (cs : List Char) : Stops (c :: cs) where
  isDeadEnd := isDeadEnd_cons (by simp [isNameChar] at hname; exact hname.1) hother cs
  not_isNameChar := by
    rintro _ ⟨⟩
    exact hname

theorem Stops.hyphen (hc : c.isDigit = false) (cs : List Char) : Stops ('-' :: c :: cs) where
  isDeadEnd := by
    rintro _ ⟨⟩
    refine ⟨rfl, by decide, fun _ => ?_⟩
    rintro _ ⟨⟩
    exact hc
  not_isNameChar := by
    rintro _ ⟨⟩
    rfl

theorem Leads.stops (h : Leads (piece :: front) rest) (hkind : piece.1 ∈ Kind.stops) :
    Stops (joined (piece :: front) ++ rest) := by
  obtain ⟨⟨d, tail, htext, hlexeme⟩, -⟩ := leads_cons_iff.mp h
  have hall : joined (piece :: front) ++ rest = d :: (tail ++ (joined front ++ rest)) := by
    rw [joined, List.flatMap_cons, htext, List.append_assoc]
    rfl
  rw [hall]
  have hkindOf : (lexeme d (tail ++ (joined front ++ rest))).kind = piece.1 :=
    congrArg Lexeme.kind hlexeme
  have htextOf : (lexeme d (tail ++ (joined front ++ rest))).text = d :: tail :=
    (congrArg Lexeme.text hlexeme).trans htext
  obtain hspace | hline | hblock | hdelimiter | harrow | heq : piece.1 = .whitespace ∨
      piece.1 = .lineComment ∨ piece.1 = .blockComment ∨ piece.1 ∈ Kind.delimiters ∨
        piece.1 = .arrow ∨ piece.1 = .eq := by
    revert hkind
    generalize piece.1 = kind
    cases kind <;> simp [Kind.stops, Kind.delimiters]
  · have hd : isSpace d = true := by
      obtain ⟨-, hspaces⟩ | ⟨hcomment, -⟩ := lexeme_of_isTrivia (by rw [hkindOf, hspace]; rfl)
      · exact hspaces d (by simp [htextOf])
      · rw [hkindOf, hspace] at hcomment
        exact absurd hcomment (by decide)
    refine .cons (not_isNameChar_of_isSpace hd) ?_ _
    rcases isSpace_cases hd with rfl | rfl | rfl | rfl <;> decide
  · obtain ⟨rfl, hhead, -⟩ := lexeme_of_lineComment (hkindOf.trans hline)
    obtain ⟨more, hmore⟩ := List.head?_eq_some_iff.mp hhead
    rw [hmore]
    exact .hyphen (by decide) more
  · rw [eq_brace_of_blockComment (hkindOf.trans hblock)]
    exact .cons (by decide) (by decide) _
  · have hd := (isDelimiter_of_kind (hkindOf ▸ hdelimiter)).1
    refine .cons (not_isNameChar_of_isDelimiter hd) ?_ _
    rcases isDelimiter_cases hd with rfl | rfl | rfl | rfl | rfl | rfl | rfl <;> decide
  · have harrow' := text_of_reserved (show symbolKind "->" ≠ _ by decide) (hkindOf.trans harrow)
    obtain ⟨rfl, rfl⟩ := List.cons.inj (htextOf.symm.trans harrow')
    exact .hyphen (by decide) _
  · have heq' := text_of_reserved (show symbolKind "=" ≠ _ by decide) (hkindOf.trans heq)
    obtain ⟨rfl, rfl⟩ := List.cons.inj (htextOf.symm.trans heq')
    exact .cons (by decide) (by decide) _

-- ---------------------------------------------------------------------------
-- The token in front
-- ---------------------------------------------------------------------------

/-- A row of tokens stays as it is when its last does, and what is decided behind the last is so in
front of it. -/
theorem Leads.replace (h : Leads (front ++ [piece]) rest)
    (hclean : ∀ piece ∈ front, piece.1 ≠ .error)
    (hdulls : Dulls (piece.2 ++ rest) (piece.2 ++ rest')) (hpiece : Leads [piece] rest') :
    Leads (front ++ [piece]) rest' := by
  obtain ⟨hfront, hlast⟩ := h.of_append
  obtain ⟨⟨d, tail, htext, -⟩, -⟩ := leads_cons_iff.mp hlast
  have hjoined (rest : List Char) : joined [piece] ++ rest = piece.2 ++ rest := by simp [joined]
  refine .append ?_ hpiece
  rw [hjoined] at hfront ⊢
  exact hfront.congr hclean hdulls (by simp [htext]) (by simp [htext])

/-- White space ends where none goes on, and a comment where it is closed. -/
theorem Leads.replace_gap (h : Leads (front ++ [piece]) rest)
    (hclean : ∀ piece ∈ front, piece.1 ≠ .error) (hne : rest ≠ [])
    (htrivia : piece.1.isTrivia = true) (hline : piece.1 ≠ .lineComment)
    (hspace : ∀ c ∈ rest'.head?, isSpace c = false) : Leads (front ++ [piece]) rest' := by
  obtain ⟨kind, text⟩ := piece
  have hpiece := h.of_append.2
  obtain rfl | rfl | rfl := Kind.isTrivia_cases htrivia
  · obtain ⟨htext, hspaces, -⟩ := whitespace_iff.mp hpiece
    refine h.replace hclean ?_ (whitespace_iff.mpr ⟨htext, hspaces, hspace⟩)
    obtain ⟨d, tail, rfl⟩ := List.exists_cons_of_ne_nil htext
    exact .space (hspaces d List.mem_cons_self) _ _
  · exact absurd rfl hline
  · have hblock : ∀ piece ∈ [(Kind.blockComment, text)].getLast?, piece.1 = .blockComment := by
      rintro _ ⟨⟩
      rfl
    refine h.replace hclean ?_ (hpiece.congr_trivia hne (by simp [Kind.isTrivia]) (.inr hblock))
    obtain ⟨⟨d, tail, rfl, hlexeme⟩, -⟩ := leads_cons_iff.mp hpiece
    rw [eq_brace_of_blockComment (congrArg Lexeme.kind hlexeme)]
    exact .delimiter (by decide) _ _

/-- A word ends in front of a dead end with which it does not go on. -/
theorem Leads.replace_word (h : Leads (front ++ [piece]) rest)
    (hclean : ∀ p ∈ front ++ [piece], p.1 ≠ .error) (hword : piece.1.isTrivia = false)
    (hdead : IsDeadEnd rest')
    (hname : piece.1.isLettered = true → ∀ c ∈ rest'.head?, isNameChar c = false)
    (hsymbol : (∀ c ∈ piece.2.head?, isSymbol c = true) → ∀ c ∈ rest'.head?, isSymbol c = false)
    (hhyphen : piece.2 = ['-'] ∨ piece.2 = ['{'] → rest'.head? ≠ some '-') :
    Leads (front ++ [piece]) rest' := by
  obtain ⟨⟨d, tail, htext, hlexeme⟩, -⟩ := leads_cons_iff.mp h.of_append.2
  change lexeme d (tail ++ rest) = ⟨piece.1, piece.2, rest⟩ at hlexeme
  refine h.replace (fun p hp => hclean p (List.mem_append_left _ hp)) (.append _ (.dead _ hdead))
    (leads_cons_iff.mpr ⟨⟨d, tail, htext, ?_⟩, .nil _⟩)
  have hstarts : StartsWord d (tail ++ rest) := startsWord_of_kind (by rwa [hlexeme])
  have hkeeps : (lexeme d (tail ++ rest)).Keeps rest' := by
    rw [hlexeme]
    refine ⟨.dead _ hdead, fun hletter _ => hname ?_, fun hfirst _ => hsymbol hfirst,
      fun hopens hhead => absurd hhead (hhyphen hopens), fun herror => ?_⟩
    · have hlettered := isLettered_of_isAlpha (hletter d (by simp [htext])) (tail ++ rest)
      rwa [hlexeme] at hlettered
    · exact absurd herror (hclean piece (by simp))
  have hchanged := lexeme_append hstarts hkeeps
  rw [hlexeme, htext] at hchanged
  rw [htext]
  exact hchanged

/-- What ends a pattern does not go on with what stands behind patterns. -/
theorem Leads.before_stops (h : Leads (front ++ [piece]) rest)
    (hclean : ∀ piece ∈ front, piece.1 ≠ .error) (hkind : piece.1 ∈ Kind.wordEnds)
    (hstops : Stops rest') : Leads (front ++ [piece]) rest' := by
  have hword : piece.1.isTrivia = false ∧ piece.1 ≠ .error ∧ piece.1 ≠ .lBrace := by
    have hall : ∀ kind ∈ Kind.wordEnds, kind.isTrivia = false ∧ kind ≠ .error ∧ kind ≠ .lBrace := by
      decide
    exact hall _ hkind
  obtain ⟨⟨d, tail, htext, hlexeme⟩, -⟩ := leads_cons_iff.mp h.of_append.2
  have hsymbol : isSymbol d = false := not_isSymbol_of_wordEnds (by rwa [hlexeme])
  refine h.replace_word ?_ hword.1 hstops.isDeadEnd (fun _ => hstops.not_isNameChar) ?_ ?_
  · exact List.forall_mem_append.mpr ⟨hclean, List.forall_mem_singleton.mpr hword.2.1⟩
  · intro hfirst
    rw [hfirst d (by simp [htext])] at hsymbol
    cases hsymbol
  · rintro (hhyphen | hbrace)
    · rw [htext, List.cons.injEq] at hhyphen
      rw [hhyphen.1] at hsymbol
      exact absurd hsymbol (by decide)
    · exact absurd (h.of_append.2.kind_of_brace hbrace) hword.2.2

/-- White space and comments behind a delimiter, and then something else. -/
theorem Leads.behind_opening (h : Leads (front ++ [piece] ++ gap) rest) (hne : rest ≠ [])
    (hclean : ∀ piece ∈ front, piece.1 ≠ .error) (hkind : piece.1 ∈ Kind.delimiters)
    (hgap : ∀ piece ∈ gap, piece.1.isTrivia = true)
    (hline : ∀ piece ∈ gap.getLast?, piece.1 ≠ .lineComment)
    (hrest : ∀ c ∈ rest'.head?, isSpace c = false ∧ c ≠ '-') :
    Leads (front ++ [piece] ++ gap) rest' := by
  obtain rfl | ⟨gap, last, rfl⟩ := List.eq_nil_or_concat' gap
  · rw [List.append_nil] at h ⊢
    exact h.behind_delimiter hclean hkind fun _ hhead => (hrest _ hhead).2 rfl
  · have hnone : ∀ kind : Kind, kind.isTrivia = true ∨ kind ∈ Kind.delimiters → kind ≠ .error := by
      rintro _ h rfl
      revert h
      decide
    rw [← List.append_assoc] at h ⊢
    refine h.replace_gap ?_ hne (hgap last (by simp)) (hline last (by simp)) fun c hc =>
      (hrest c hc).1
    refine List.forall_mem_append.mpr ⟨List.forall_mem_append.mpr ⟨hclean, ?_⟩, ?_⟩
    · exact List.forall_mem_singleton.mpr (hnone _ (.inr hkind))
    · exact fun p hp => hnone _ (.inl (hgap p (List.mem_append_left _ hp)))

end ElmLint.Syntax

import ElmLint.Proofs.Syntax.Blanking
import ElmLint.Proofs.Syntax.Joints

/-!
# Written words are the words of the text

A word stays the token that it is by itself: behind it comes white space, or the dot of a field, or
it is a dot with a name behind it.
-/

namespace ElmLint.Syntax

open Grammar

variable {c : Char} {cs rest spaces : List Char} {kind kind' : Kind} {sign : Sign}
  {signs : List Sign} {column : Nat}

-- ---------------------------------------------------------------------------
-- First characters
-- ---------------------------------------------------------------------------

theorem not_isSymbol
    (h : c.isLower = true ∨ c.isUpper = true ∨ c.isDigit = true ∨ c = '"' ∨ c = '\'') :
    isSymbol c = false := by
  by_contra hsymbol
  have hnone : "+-*/<>=&|^!?%:.$#~@".toList.all (fun c =>
      !(c.isLower || c.isUpper || c.isDigit || c == '"' || c == '\'')) = true := by decide
  have hother := List.all_eq_true.mp hnone c
    (List.contains_iff_mem.mp ((Bool.not_eq_false _).mp hsymbol))
  obtain h | h | h | rfl | rfl := h
  · simp [h] at hother
  · simp [h] at hother
  · simp [h] at hother
  · exact absurd hother (by decide)
  · exact absurd hother (by decide)

theorem not_isDigit (h : c.isLower = true ∨ c.isUpper = true) : c.isDigit = false := by
  by_contra hdigit
  have hle : c.val ≤ '9'.val :=
    of_decide_eq_true (Bool.and_eq_true_iff.mp ((Bool.not_eq_false _).mp hdigit)).2
  have hge : 'A'.val ≤ c.val := by
    obtain hlower | hupper := h
    · have hbounds := Bool.and_eq_true_iff.mp hlower
      exact UInt32.le_trans (by decide) (of_decide_eq_true hbounds.1 : 'a'.val ≤ c.val)
    · have hbounds : 'A'.val ≤ c.val ∧ c.val ≤ 'Z'.val := of_decide_eq_true hupper
      exact hbounds.1
  exact absurd (UInt32.le_trans hge hle) (by decide)

theorem symbolKind_mem (symbol : String) :
    symbolKind symbol ∈ [.pipe, .eq, .colon, .arrow, .dot, .dotDot, .operatorIdent] := by
  unfold symbolKind
  split <;> decide

/-- Literals are of their kind, or unfinished. -/
theorem kind_literal_mem {l : Lexeme} (h : l.kind = kind ∨ l.kind = .error)
    (hkind : kind ∈ [.string, .char]) : l.kind ∈ [.string, .char, .error] := by
  obtain h | h := h <;> rw [h]
  · exact List.mem_append_left [.error] hkind
  · decide

theorem not_isSymbol_of_wordEnds (h : (lexeme c cs).kind ∈ Kind.wordEnds) : isSymbol c = false := by
  revert h
  refine lexeme_cases (P := fun l => l.kind ∈ Kind.wordEnds → isSymbol c = false)
    (fun _ (h : Kind.whitespace ∈ Kind.wordEnds) => absurd h (by decide))
    (fun _ _ _ (h : Kind.lineComment ∈ Kind.wordEnds) => absurd h (by decide)) ?blockComment
    (fun h _ => not_isSymbol (.inl h)) (fun h _ => not_isSymbol (.inr (.inl h)))
    (fun h _ => not_isSymbol (.inr (.inr (.inl h)))) ?multiline ?string ?char ?symbol ?other
  case blockComment =>
    intro rest _ _ h
    rw [Lexeme.prepend, kind_blockComment] at h
    exact absurd h (by decide)
  case multiline => exact fun _ hc _ _ => not_isSymbol (.inr (.inr (.inr (.inl hc))))
  case string => exact fun hc _ => not_isSymbol (.inr (.inr (.inr (.inl hc))))
  case char => exact fun hc _ => not_isSymbol (.inr (.inr (.inr (.inr hc))))
  case symbol =>
    intro _ h
    have hmem := symbolKind_mem (String.ofList (c :: cs.takeWhile isSymbol))
    have hnone : ∀ kind ∈ [Kind.pipe, .eq, .colon, .arrow, .dot, .dotDot, .operatorIdent],
        kind ∉ Kind.wordEnds := by decide
    exact absurd h (hnone _ hmem)
  case other =>
    unfold Lexeme.single punctuationKind?
    split <;> first
      | exact fun _ => rfl
      | exact fun (h : Kind.error ∈ Kind.wordEnds) => absurd h (by decide)

theorem isLetter_of_kind (h : (lexeme c cs).kind = .lowerIdent ∨ (lexeme c cs).kind = .upperIdent) :
    c.isLower = true ∨ c.isUpper = true := by
  revert h
  have hliteral {l : Lexeme} (h : l.kind ∈ [Kind.string, .char, .error])
      (hname : l.kind = .lowerIdent ∨ l.kind = .upperIdent) :
      c.isLower = true ∨ c.isUpper = true := by
    obtain hname | hname := hname <;> rw [hname] at h <;> exact absurd h (by decide)
  refine lexeme_cases
    (P := fun l =>
      l.kind = .lowerIdent ∨ l.kind = .upperIdent → c.isLower = true ∨ c.isUpper = true)
    (fun _ => by simp [Lexeme.run]) (fun _ _ _ => by simp [Lexeme.run]) ?blockComment
    (fun h _ => .inl h) (fun h _ => .inr h) ?number ?multiline ?string ?char ?symbol ?other
  case blockComment =>
    intro rest _ _
    simp [Lexeme.prepend, kind_blockComment]
  case number =>
    intro _
    simp [kind_number]
  case multiline =>
    exact fun rest _ _ => hliteral (kind_literal_mem (kind_multiline rest) (by decide))
  case string => exact fun _ => hliteral (kind_literal_mem (kind_quoted .string '"' cs) (by decide))
  case char => exact fun _ => hliteral (kind_literal_mem (kind_quoted .char '\'' cs) (by decide))
  case symbol =>
    intro _ h
    have hmem := symbolKind_mem (String.ofList (c :: cs.takeWhile isSymbol))
    generalize symbolKind (String.ofList (c :: cs.takeWhile isSymbol)) = kind at h hmem
    obtain rfl | rfl : kind = .lowerIdent ∨ kind = .upperIdent := h
    · exact absurd hmem (by decide)
    · exact absurd hmem (by decide)
  case other =>
    unfold Lexeme.single punctuationKind?
    split <;> simp

/-- Each reserved operator is of a kind of its own. -/
theorem eq_of_symbolKind {symbol symbol' : String} (h : symbolKind symbol = symbolKind symbol')
    (hreserved : symbolKind symbol ≠ .operatorIdent) : symbol = symbol' := by
  unfold symbolKind at h hreserved
  split at h <;> split at h <;> simp_all

/-- There is one token of the kind of a reserved operator. -/
theorem text_of_reserved {symbol : String} (hreserved : symbolKind symbol ≠ .operatorIdent)
    (h : (lexeme c cs).kind = symbolKind symbol) : (lexeme c cs).text = symbol.toList := by
  have hmem := symbolKind_mem symbol
  generalize hkind : symbolKind symbol = kind at h hmem hreserved
  have hnone {kinds : List Kind} {l : Lexeme} (hl : l.kind ∈ kinds)
      (hkinds : ∀ kind ∈ kinds, kind ∉ [Kind.pipe, .eq, .colon, .arrow, .dot, .dotDot])
      (hsymbol : l.kind = kind) : l.text = symbol.toList := by
    rw [hsymbol] at hl
    exact absurd (by simpa [hreserved] using hmem) (hkinds _ hl)
  have hliteral : ∀ kind ∈ [Kind.string, .char, .error],
      kind ∉ [Kind.pipe, .eq, .colon, .arrow, .dot, .dotDot] := by decide
  revert h
  refine lexeme_cases (P := fun l => l.kind = kind → l.text = symbol.toList)
    (fun _ => hnone (List.mem_singleton_self Kind.whitespace) (by decide))
    (fun _ _ _ => hnone (List.mem_singleton_self Kind.lineComment) (by decide)) ?blockComment ?word
    (fun _ => hnone (List.mem_singleton_self Kind.upperIdent) (by decide)) ?number
    ?multiline ?string ?char ?symbol ?other
  case blockComment =>
    exact fun rest _ _ => hnone (List.mem_singleton.mpr (kind_blockComment 1 rest)) (by decide)
  case word =>
    have hword (word : String) : wordKind word = .lowerIdent ∨ (wordKind word).isKeyword = true := by
      unfold wordKind
      split <;> simp [Kind.isKeyword]
    intro _ h
    have hkinds : ∀ kind ∈ [Kind.pipe, .eq, .colon, .arrow, .dot, .dotDot],
        kind ≠ .lowerIdent ∧ kind.isKeyword = false := by decide
    have hsymbol := hkinds kind (by simpa [hreserved] using hmem)
    rw [← h] at hsymbol
    obtain hname | hkeyword := hword (String.ofList (c :: cs.takeWhile isNameChar))
    · exact absurd hname hsymbol.1
    · exact absurd (hsymbol.2.symm.trans hkeyword) Bool.noConfusion
  case number => exact fun _ => hnone (List.mem_singleton.mpr (kind_number c cs)) (by decide)
  case multiline =>
    exact fun rest _ _ => hnone (kind_literal_mem (kind_multiline rest) (by decide)) hliteral
  case string =>
    exact fun _ => hnone (kind_literal_mem (kind_quoted .string '"' cs) (by decide)) hliteral
  case char =>
    exact fun _ => hnone (kind_literal_mem (kind_quoted .char '\'' cs) (by decide)) hliteral
  case symbol =>
    intro _ h
    rw [eq_of_symbolKind (hkind.trans h.symm) (hkind ▸ hreserved), String.toList_ofList]
    rfl
  case other =>
    have hpunctuation : (punctuationKind? c).getD .error ∈
        Kind.backslash :: .underscore :: .error ::
          [.lParen, .rParen, .lBracket, .rBracket, .lBrace, .rBrace, .comma] := by
      unfold punctuationKind?
      split <;> decide
    exact hnone hpunctuation (by decide)

theorem text_of_dot (h : (lexeme c cs).kind = .dot) : (lexeme c cs).text = ['.'] :=
  text_of_reserved (show symbolKind "." ≠ .operatorIdent by decide) h

/-- A token by itself is the lexeme of its text. -/
theorem Sign.IsToken.exists_lexeme (h : sign.IsToken kind) :
    ∃ c cs, sign.text.toList = c :: cs ∧ lexeme c cs = ⟨kind, c :: cs, []⟩ := by
  have htokens := h.tokenize_eq
  rw [tokenize] at htokens
  cases htext : sign.text.toList with
  | nil =>
    rw [htext] at htokens
    cases htokens
  | cons c cs =>
    rw [htext, List.length_cons, tokensFrom] at htokens
    obtain ⟨hfirst, -⟩ := List.cons.inj htokens
    have hkind : (lexeme c cs).kind = kind := congrArg Token.kind hfirst
    have htext' : String.ofList (lexeme c cs).text = sign.text := congrArg Token.text hfirst
    have hall : (lexeme c cs).text = c :: cs := by rw [← htext, ← htext', String.toList_ofList]
    have hcuts : (lexeme c cs).text ++ (lexeme c cs).rest = c :: cs := cuts_lexeme c cs
    have hrest : (lexeme c cs).rest = [] := by
      rw [hall] at hcuts
      simpa using hcuts
    refine ⟨c, cs, rfl, ?_⟩
    rw [← hkind, ← hrest, ← hall]

-- ---------------------------------------------------------------------------
-- What stands behind a word
-- ---------------------------------------------------------------------------

/-- The text does not run into a token of the kind in front of it. -/
inductive StandsApart (kind : Kind) : List Char → Prop
  | ends : StandsApart kind []
  | space {c : Char} (hc : isSpace c = true) (rest : List Char) : StandsApart kind (c :: rest)
  | field {c : Char} (hkind : kind ∈ Kind.wordEnds) (hc : c.isDigit = false) (rest : List Char) :
    StandsApart kind ('.' :: c :: rest)
  | name {c : Char} (hkind : kind = .dot) (hc : isSymbol c = false) (rest : List Char) :
    StandsApart kind (c :: rest)

theorem lexeme_dot (hc : isSymbol c = false) (rest : List Char) :
    lexeme '.' (c :: rest) = ⟨.dot, ['.'], c :: rest⟩ := by
  have hlexeme : lexeme '.' (c :: rest) =
      let l := Lexeme.run .operatorIdent isSymbol '.' (c :: rest)
      { l with kind := symbolKind (String.ofList l.text) } := rfl
  rw [hlexeme, Lexeme.run, List.takeWhile_cons_of_neg (by simp [hc]),
    List.dropWhile_cons_of_neg (by simp [hc])]
  rfl

theorem Sign.IsToken.lexeme_append (h : sign.IsToken kind) (hword : kind.isWord = true)
    (hapart : StandsApart kind rest) :
    ∃ c cs, sign.text.toList = c :: cs ∧ lexeme c (cs ++ rest) = ⟨kind, c :: cs, rest⟩ := by
  obtain ⟨c, cs, htext, hlexeme⟩ := h.exists_lexeme
  have hkind : (lexeme c cs).kind = kind := congrArg Lexeme.kind hlexeme
  obtain ⟨htrivia, herror⟩ := Bool.and_eq_true_iff.mp hword
  have hstarts : StartsWord c cs := startsWord_of_kind (by rw [hkind]; simpa using htrivia)
  suffices hkeeps : (lexeme c cs).Keeps rest ∨ lexeme c (cs ++ rest) = ⟨kind, c :: cs, rest⟩ by
    refine ⟨c, cs, htext, hkeeps.elim (fun hkeeps => ?_) id⟩
    have happend := Syntax.lexeme_append hstarts hkeeps
    rwa [hlexeme] at happend
  have hstuck (h : (lexeme c cs).kind = .error) : StaysStuck (lexeme c cs).rest rest := by
    rw [← hkind, h] at herror
    cases herror
  cases hapart with
  | ends => exact .inl ⟨.ends _, fun _ _ => nofun, fun _ _ => nofun, fun _ => nofun, hstuck⟩
  | @space d hd rest =>
    refine .inl ⟨.space hd _ _, fun _ _ => ?_, fun _ _ => ?_, fun _ hhyphen => ?_, hstuck⟩
    · rintro _ ⟨⟩
      exact not_isNameChar_of_isSpace hd
    · rintro _ ⟨⟩
      rcases isSpace_cases hd with rfl | rfl | rfl | rfl <;> rfl
    · rw [show d = '-' from Option.some.inj hhyphen] at hd
      cases hd
  | field hends hd rest =>
    refine .inl ⟨.dot hd _ _, fun _ _ => ?_, fun hsymbol => ?_, fun _ => nofun, hstuck⟩
    · rintro _ ⟨⟩
      rfl
    have hnot := not_isSymbol_of_wordEnds (hkind ▸ hends)
    rw [hlexeme] at hsymbol
    rw [hsymbol c rfl] at hnot
    cases hnot
  | name hdot hd rest =>
    subst hdot
    have hall := text_of_dot hkind
    rw [hlexeme] at hall
    obtain ⟨rfl, rfl⟩ := List.cons.inj hall
    exact .inr (lexeme_dot hd rest)

theorem pieces_append (h : sign.IsToken kind) (hword : kind.isWord = true)
    (hapart : StandsApart kind rest) :
    pieces (sign.text.toList ++ rest) = (kind, sign.text.toList) :: pieces rest := by
  obtain ⟨c, cs, htext, hlexeme⟩ := h.lexeme_append hword hapart
  rw [htext, List.cons_append, pieces, hlexeme]

theorem joints_cases (h : kind ∈ kind'.joints) :
    (kind' = .dot ∧ kind ∈ Kind.wordEnds) ∨
      ((kind' = .lowerIdent ∨ kind' = .upperIdent) ∧ kind = .dot) := by
  unfold Kind.joints at h
  split at h
  · exact .inl ⟨rfl, h⟩
  · exact .inr ⟨.inl rfl, List.mem_singleton.mp h⟩
  · exact .inr ⟨.inr rfl, List.mem_singleton.mp h⟩
  · cases h

/-- What may be attached to a dot begins with a letter. -/
theorem Sign.IsToken.exists_letter (h : sign.IsToken kind)
    (hkind : kind = .lowerIdent ∨ kind = .upperIdent) :
    ∃ c cs, sign.text.toList = c :: cs ∧ isSymbol c = false ∧ c.isDigit = false := by
  obtain ⟨c, cs, htext, hlexeme⟩ := h.exists_lexeme
  have hlexemeKind : (lexeme c cs).kind = kind := congrArg Lexeme.kind hlexeme
  have hletter := isLetter_of_kind (by rwa [hlexemeKind])
  exact ⟨c, cs, htext, not_isSymbol (hletter.imp_right .inl), not_isDigit hletter⟩

/-- What is written behind a word does not run into it. -/
theorem standsApart_of_isWritten (hwritten : IsWritten signs cs) (h : IsSentence (sign :: signs))
    (hspaces : ∀ c ∈ spaces, isSpace c = true) : StandsApart sign.kind (cs ++ spaces) := by
  cases hwritten with
  | nil =>
    cases spaces with
    | nil => exact .ends
    | cons c spaces => exact .space (hspaces c List.mem_cons_self) _
  | @spaced sign' signs gap cs hattached hgap hspace hmore =>
    obtain ⟨c, gap, rfl⟩ := List.exists_cons_of_ne_nil hgap
    exact .space (hspace c List.mem_cons_self).1 _
  | @attached sign' signs cs hattached hmore =>
    obtain ⟨hjoins, hchain⟩ := List.isChain_cons_cons.mp h.chain
    have htoken := (h.tokens sign' (by simp)).2
    obtain ⟨hdot, hkind⟩ | ⟨hname, hdot⟩ := joints_cases (hjoins hattached)
    · -- the dot is followed by a name, since a sentence does not end with it
      have htext : sign'.text.toList = ['.'] := by
        obtain ⟨c, cs, htext, hlexeme⟩ := htoken.exists_lexeme
        have hall := text_of_dot ((congrArg Lexeme.kind hlexeme).trans hdot)
        rw [htext, ← hall, hlexeme]
      rw [htext]
      have hrest : ∃ c more, cs ++ spaces = c :: more ∧ c.isDigit = false := by
        cases hmore with
        | nil =>
          have hmem := h.ends sign' rfl
          rw [hdot] at hmem
          exact absurd hmem (by decide)
        | @spaced _ _ gap _ _ hgap hspace =>
          obtain ⟨c, gap, rfl⟩ := List.exists_cons_of_ne_nil hgap
          refine ⟨c, _, rfl, ?_⟩
          rcases isSpace_cases (hspace c List.mem_cons_self).1 with rfl | rfl | rfl | rfl <;> rfl
        | @attached sign'' _ _ hattached' =>
          obtain ⟨hjoins', -⟩ := List.isChain_cons_cons.mp hchain
          have hkind' := hjoins' hattached'
          rw [hdot] at hkind'
          obtain ⟨-, hmem⟩ | ⟨hname, -⟩ := joints_cases hkind'
          · exact absurd hmem (by decide)
          · obtain ⟨c, more, htext, -, hdigit⟩ :=
              (h.tokens sign'' (by simp)).2.exists_letter hname
            exact ⟨c, _, by rw [htext]; rfl, hdigit⟩
      obtain ⟨c, more, hrest, hdigit⟩ := hrest
      rw [List.append_assoc, hrest]
      exact .field hkind hdigit more
    · obtain ⟨c, cs', htext, hsymbol, -⟩ := htoken.exists_letter hname
      rw [htext]
      exact .name hdot hsymbol _

-- ---------------------------------------------------------------------------
-- Words in their columns
-- ---------------------------------------------------------------------------

/-- The words that are seen, in their columns. -/
def signsOfView : List (Option Word) → List Seen
  | [] => []
  | none :: view => detach (signsOfView view)
  | some word :: view => ⟨⟨word.kind, word.text, true⟩, word.column⟩ :: signsOfView view

theorem signsOfView_gap (view : List (Option Word)) :
    signsOfView (gap view) = detach (signsOfView view) := by
  rw [gap, signsOfView]
  induction view with
  | nil => rfl
  | cons word? view ih =>
    cases word? with
    | none => rw [List.dropWhile_cons_of_pos rfl, ih, signsOfView, detach_detach]
    | some word => rw [List.dropWhile_cons_of_neg (by simp)]

theorem signsOf_eq (tokens : List PlacedToken) : signsOf tokens = signsOfView (viewOf tokens) := by
  induction tokens with
  | nil => rfl
  | cons t tokens ih =>
    rw [signsOf, viewOf, ih]
    split
    · rw [signsOfView_gap]
    · rfl

theorem signs_beforeItems (text : String) :
    signsOf (placeTokens 0 (tokenize text)) = signsOfView (viewFrom 0 (pieces text.toList)) := by
  rw [signsOf_eq, viewOf_placeTokens, map_piece_tokenize]

theorem columnAfter_of_oneLine (h : '\n' ∉ cs) (column : Nat) :
    columnAfter column cs = column + cs.length := by
  induction cs generalizing column with
  | nil => rfl
  | cons c cs ih =>
    obtain ⟨hc, hmore⟩ := not_or.mp (List.mem_cons.not.mp h)
    rw [columnAfter, List.foldl_cons, if_neg (Ne.symm hc), ← columnAfter, ih hmore,
      List.length_cons]
    omega

/-- Words one behind another on a line, in the column or right of it. -/
structure StandsFrom (column : Nat) (words : List Seen) : Prop where
  increasing : (words.map Seen.column).Pairwise (· < ·)
  right : ∀ s ∈ words, column ≤ s.column
  attached : ∀ s ∈ words.head?, s.isAttached = true → s.column = column

theorem StandsFrom.cons {words : List Seen} {stop : Nat} (h : StandsFrom stop words) (sign : Sign)
    {start : Nat} (hstart : column ≤ start) (hattached : sign.isAttached = true → start = column)
    (hlt : start < stop) : StandsFrom column (⟨sign, start⟩ :: words) where
  increasing := by
    refine List.pairwise_cons.mpr ⟨fun other hother => ?_, h.increasing⟩
    obtain ⟨s, hs, rfl⟩ := List.mem_map.mp hother
    exact Nat.lt_of_lt_of_le hlt (h.right s hs)
  right := by
    refine List.forall_mem_cons.mpr ⟨hstart, fun s hs => ?_⟩
    exact Nat.le_trans hstart (Nat.le_trans hlt.le (h.right s hs))
  attached := by
    rintro _ ⟨⟩
    exact hattached

/-- The first word of a line, which starts in its column. -/
theorem signsOfView_word (hwritten : IsWritten signs cs) (h : IsSentence (sign :: signs))
    (hspaces : ∀ c ∈ spaces, isSpace c = true) (column : Nat) :
    signsOfView (viewFrom column (pieces (sign.text.toList ++ cs ++ spaces))) =
      ⟨⟨sign.kind, sign.text, true⟩, column⟩ ::
        signsOfView (viewFrom (column + sign.text.toList.length) (pieces (cs ++ spaces))) := by
  obtain ⟨hword, htoken⟩ := h.tokens sign List.mem_cons_self
  have htrivia : sign.kind.isTrivia = false := by simpa using (Bool.and_eq_true_iff.mp hword).1
  rw [List.append_assoc, pieces_append htoken hword (standsApart_of_isWritten hwritten h hspaces),
    viewFrom, htrivia, columnAfter_of_oneLine htoken.oneLine, String.ofList_toList]
  rfl

/-- The words of a line of text are those that were written. -/
theorem exists_seen (hwritten : IsWritten signs cs) (h : IsSentence signs)
    (hspaces : ∀ c ∈ spaces, isSpace c = true) (column : Nat) :
    ∃ words : List Seen, signsOfView (viewFrom column (pieces (cs ++ spaces))) = words ∧
      words.map Seen.toSign = signs ∧ StandsFrom column words := by
  have hpos {sign : Sign} {signs : List Sign} (h : IsSentence (sign :: signs)) :
      0 < sign.text.toList.length := by
    obtain ⟨c, cs, htext, -⟩ := (h.tokens sign List.mem_cons_self).2.exists_lexeme
    rw [htext]
    exact Nat.succ_pos _
  induction hwritten generalizing column with
  | nil =>
    refine ⟨[], ?_, rfl, .nil, nofun, nofun⟩
    cases spaces with
    | nil =>
      rw [List.append_nil, pieces]
      rfl
    | cons c spaces =>
      have hview := viewFrom_append_spaces hspaces (List.cons_ne_nil _ _) column []
      rw [List.append_nil] at hview
      rw [List.nil_append, hview, pieces]
      rfl
  | @attached sign signs cs hattached hmore ih =>
    obtain ⟨words, hwords, hsigns, hstands⟩ := ih h.tail (column + sign.text.toList.length)
    refine ⟨⟨sign, column⟩ :: words, ?_, congrArg (sign :: ·) hsigns,
      hstands.cons sign (Nat.le_refl _) (fun _ => rfl) (Nat.lt_add_of_pos_right (hpos h))⟩
    rw [signsOfView_word hmore h hspaces, hwords, ← hattached]
  | @spaced sign signs gap cs hattached hgap hspace hmore ih =>
    have hline : '\n' ∉ gap := fun hmem => (hspace _ hmem).2 rfl
    obtain ⟨words, hwords, hsigns, hstands⟩ :=
      ih h.tail (column + gap.length + sign.text.toList.length)
    refine ⟨⟨sign, column + gap.length⟩ :: words, ?_, congrArg (sign :: ·) hsigns,
      hstands.cons sign (Nat.le_add_right _ _) (fun h => ?_) (Nat.lt_add_of_pos_right (hpos h))⟩
    · rw [List.append_assoc, viewFrom_append_spaces (fun c hc => (hspace c hc).1) hgap,
        signsOfView_gap, columnAfter_of_oneLine hline, signsOfView_word hmore h hspaces, hwords,
        detach, ← hattached]
    · rw [hattached] at h
      cases h

end ElmLint.Syntax

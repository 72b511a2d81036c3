import ElmLint.Proofs.Syntax.Fading
import ElmLint.Proofs.Syntax.WholeFile

/-!
# Blanking the comments of a text

When the comments of a text are turned into blanks, its words stay what and where they are, and the
gaps between them stay gaps.
-/

namespace ElmLint.Syntax

variable {c : Char} {cs : List Char}

/-! ## Texts -/

/-- The pieces a text is cut into, with their kinds. -/
def pieces : List Char → List (Kind × List Char)
  | [] => []
  | c :: cs => ((lexeme c cs).kind, (lexeme c cs).text) :: pieces (lexeme c cs).rest
termination_by cs => cs.length
decreasing_by exact length_rest_lexeme c cs

def Token.piece (t : Token) : Kind × List Char := (t.kind, t.text.toList)

theorem map_piece_tokensFrom (fuel offset : Nat) (cs : List Char) (h : cs.length ≤ fuel) :
    (tokensFrom fuel offset cs).map Token.piece = pieces cs := by
  induction fuel generalizing offset cs with
  | zero =>
    rw [List.length_eq_zero_iff.mp (Nat.le_zero.mp h), pieces]
    rfl
  | succ fuel ih =>
    cases cs with
    | nil =>
      rw [pieces]
      rfl
    | cons c cs =>
      have hlength := length_rest_lexeme c cs
      rw [pieces, tokensFrom, List.map_cons, ih _ _ (by omega), Token.piece, String.toList_ofList]

theorem map_piece_tokenize (text : String) : (tokenize text).map Token.piece = pieces text.toList :=
  map_piece_tokensFrom _ _ _ (Nat.le_refl _)

/-- A piece with blanks for the characters of a comment; its lines stay. -/
def blanked : Kind × List Char → List Char
  | (kind, text) =>
    if kind = .lineComment ∨ kind = .blockComment then
      text.map fun c => if c = '\n' then c else ' '
    else text

/-- The text with blanks for its comments. -/
def blankComments (text : String) : String :=
  String.ofList ((tokenize text).flatMap fun token => blanked token.piece)

def blank (cs : List Char) : List Char := (pieces cs).flatMap blanked

theorem toList_blankComments (text : String) :
    (blankComments text).toList = blank text.toList := by
  rw [blankComments, String.toList_ofList, blank, ← map_piece_tokenize, List.flatMap_map]

example : blankComments "f \x7b- a\nb -\x7d = 1 -- c" = "f     \n     = 1     " := by
  decide +kernel

theorem blank_cons (c : Char) (cs : List Char) :
    blank (c :: cs) =
      blanked ((lexeme c cs).kind, (lexeme c cs).text) ++ blank (lexeme c cs).rest := by
  rw [blank, pieces, List.flatMap_cons, blank]

theorem fades_blanked (kind : Kind) (text : List Char) :
    List.Forall₂ Fades text (blanked (kind, text)) := by
  rw [blanked]
  split
  · refine List.forall₂_map_right_iff.mpr (List.forall₂_same.mpr fun c _ => ?_)
    by_cases hc : c = '\n'
    · rw [if_pos hc]
      exact .refl c
    · rw [if_neg hc]
      exact .inr ⟨hc, rfl⟩
  · exact List.forall₂_same.mpr fun c _ => .refl c

/-- What is passed over is white space, or a comment with the start of one. -/
theorem lexeme_of_isTrivia (h : (lexeme c cs).kind.isTrivia = true) :
    ((lexeme c cs).kind = .whitespace ∧ ∀ d ∈ (lexeme c cs).text, isSpace d = true) ∨
      (((lexeme c cs).kind = .lineComment ∨ (lexeme c cs).kind = .blockComment) ∧
        opensComment c = true) := by
  by_cases hspace : isSpace c = true
  · rw [lexeme.eq_def, if_pos hspace]
    exact .inl ⟨rfl, List.forall_mem_cons.mpr ⟨hspace, List.all_eq_true.mp List.all_takeWhile⟩⟩
  by_cases hline : c = '-' ∧ cs.head? = some '-'
  · rw [lexeme.eq_def, if_neg hspace, if_pos hline, hline.1]
    exact .inr ⟨.inl rfl, rfl⟩
  by_cases hblock : c = '{' ∧ cs.head? = some '-'
  · rw [lexeme.eq_def, if_neg hspace, if_neg hline, if_pos hblock, hblock.1]
    exact .inr ⟨.inr (kind_blockComment 1 _), rfl⟩
  · rw [StartsWord.isTrivia ⟨hspace, hline, hblock⟩] at h
    cases h

/-- A text fades when its comments are blanked. -/
theorem fadesTo_blank (cs : List Char) : FadesTo cs (blank cs) := by
  fun_induction pieces cs with
  | case1 =>
    rw [blank, pieces]
    exact ⟨.nil, List.nil_prefix⟩
  | case2 c cs ih =>
    have hcuts : (lexeme c cs).text ++ (lexeme c cs).rest = c :: cs := cuts_lexeme c cs
    rw [blank_cons]
    constructor
    · rw [← hcuts]
      exact List.rel_append (fades_blanked _ _) ih.fades
    · by_cases hkind : (lexeme c cs).kind = .lineComment ∨ (lexeme c cs).kind = .blockComment
      · have hopens : opensComment c = true := by
          have htrivia : (lexeme c cs).kind.isTrivia = true := by
            obtain h | h := hkind <;> rw [h] <;> rfl
          obtain ⟨hspace, -⟩ | ⟨-, hopens⟩ := lexeme_of_isTrivia htrivia
          · simp [hspace] at hkind
          · exact hopens
        rw [List.takeWhile_cons_of_neg (by simp [hopens])]
        exact List.nil_prefix
      · rw [blanked, if_neg hkind, ← hcuts, List.takeWhile_append]
        split
        · exact (List.prefix_append_right_inj _).mpr ih.front
        · exact (List.takeWhile_prefix _).trans (List.prefix_append _ _)


/-! ## Views -/

/-- What can be seen of a token that is neither white space nor a comment. -/
structure Word where
  kind : Kind
  text : String
  column : Nat

/-- A gap in front of what is seen, one with those that are there. -/
def gap (view : List (Option Word)) : List (Option Word) := none :: view.dropWhile Option.isNone

theorem gap_gap (view : List (Option Word)) : gap (gap view) = gap view :=
  congrArg (none :: ·) (List.dropWhile_idempotent _ view)

/-- What can be seen of tokens: the words, and where there is a gap between them. -/
def viewOf : List PlacedToken → List (Option Word)
  | [] => []
  | t :: tokens =>
    if t.kind.isTrivia then gap (viewOf tokens)
    else some ⟨t.kind, t.text, t.column⟩ :: viewOf tokens

/-- What can be seen of the pieces of a text that starts in `column`. -/
def viewFrom (column : Nat) : List (Kind × List Char) → List (Option Word)
  | [] => []
  | (kind, text) :: pieces =>
    if kind.isTrivia then gap (viewFrom (columnAfter column text) pieces)
    else some ⟨kind, String.ofList text, column⟩ :: viewFrom (columnAfter column text) pieces

theorem viewOf_placeTokens (column : Nat) (tokens : List Token) :
    viewOf (placeTokens column tokens) = viewFrom column (tokens.map Token.piece) := by
  induction tokens generalizing column with
  | nil => rfl
  | cons t tokens ih =>
    rw [placeTokens, viewOf, ih, List.map_cons, Token.piece, viewFrom, String.ofList_toList]

theorem columnAfter_blanked (column : Nat) (kind : Kind) (text : List Char) :
    columnAfter column (blanked (kind, text)) = columnAfter column text := by
  rw [blanked]
  split
  · rw [columnAfter, List.foldl_map]
    refine List.foldl_ext _ _ _ fun column c _ => ?_
    by_cases hc : c = '\n' <;> simp [hc]
  · rfl

theorem viewFrom_space (hc : isSpace c = true) (column : Nat) (cs : List Char) :
    viewFrom column (pieces (c :: cs)) =
      gap (viewFrom (columnAfter column (c :: cs.takeWhile isSpace))
        (pieces (cs.dropWhile isSpace))) := by
  have hlexeme : lexeme c cs = .run .whitespace isSpace c cs := if_pos hc
  rw [pieces, hlexeme]
  rfl

/-- Behind a gap, white space cannot be seen. -/
theorem gap_viewFrom (column : Nat) (cs : List Char) :
    gap (viewFrom (columnAfter column (cs.takeWhile isSpace)) (pieces (cs.dropWhile isSpace))) =
      gap (viewFrom column (pieces cs)) := by
  cases cs with
  | nil => rfl
  | cons c cs =>
    by_cases hc : isSpace c = true
    · rw [viewFrom_space hc, gap_gap, List.takeWhile_cons_of_pos hc, List.dropWhile_cons_of_pos hc]
    · rw [List.takeWhile_cons_of_neg hc, List.dropWhile_cons_of_neg hc]
      rfl

/-- White space in front is a gap. -/
theorem viewFrom_append_spaces {spaces : List Char} (hspaces : ∀ c ∈ spaces, isSpace c = true)
    (hne : spaces ≠ []) (column : Nat) (cs : List Char) :
    viewFrom column (pieces (spaces ++ cs)) =
      gap (viewFrom (columnAfter column spaces) (pieces cs)) := by
  obtain ⟨c, spaces, rfl⟩ := List.exists_cons_of_ne_nil hne
  obtain ⟨hc, hmore⟩ := List.forall_mem_cons.mp hspaces
  rw [List.cons_append, viewFrom_space hc, List.takeWhile_append_of_pos hmore,
    List.dropWhile_append_of_pos hmore, ← List.cons_append, Tree.columnAfter_append, gap_viewFrom]

theorem isSpace_of_blanked (htrivia : (lexeme c cs).kind.isTrivia = true) :
    ∀ d ∈ blanked ((lexeme c cs).kind, (lexeme c cs).text), isSpace d = true := by
  obtain ⟨hkind, htext⟩ | ⟨hkind, -⟩ := lexeme_of_isTrivia htrivia
  · simpa [blanked, hkind] using htext
  · rw [blanked, if_pos hkind]
    intro d hd
    obtain ⟨c, -, rfl⟩ := List.mem_map.mp hd
    by_cases hc : c = '\n'
    · rw [if_pos hc, hc]
      rfl
    · rw [if_neg hc]
      rfl

theorem viewFrom_blank (column : Nat) (cs : List Char) :
    viewFrom column (pieces (blank cs)) = viewFrom column (pieces cs) := by
  fun_induction pieces cs generalizing column with
  | case1 => simp [blank, pieces]
  | case2 c cs ih =>
    rw [blank_cons, viewFrom]
    split
    · rename_i htrivia
      have hne : blanked ((lexeme c cs).kind, (lexeme c cs).text) ≠ [] := by
        intro hnil
        have hlength := (fades_blanked (lexeme c cs).kind (lexeme c cs).text).length_eq
        rw [hnil] at hlength
        exact text_lexeme_ne_nil c cs (List.length_eq_zero_iff.mp hlength)
      rw [viewFrom_append_spaces (isSpace_of_blanked htrivia) hne, columnAfter_blanked, ih]
    · rename_i hkind
      rw [Bool.not_eq_true] at hkind
      have htext : blanked ((lexeme c cs).kind, (lexeme c cs).text) = (lexeme c cs).text := by
        refine if_neg fun hcomment => ?_
        obtain h | h := hcomment <;> rw [h] at hkind <;> cases hkind
      rw [htext, (text_lexeme_eq_cons c cs).1, List.cons_append, pieces,
        lexeme_append (startsWord_of_kind hkind) (keeps_of_fadesTo (fadesTo_blank _)), viewFrom,
        if_neg (by simp [hkind]), ih]
      rw [← (text_lexeme_eq_cons c cs).1]

/-- The view of a text stays as it is when the comments are blanked. -/
theorem viewOf_blankComments (text : String) :
    viewOf (placeTokens 0 (tokenize (blankComments text))) =
      viewOf (placeTokens 0 (tokenize text)) := by
  rw [viewOf_placeTokens, viewOf_placeTokens, map_piece_tokenize, map_piece_tokenize,
    toList_blankComments, viewFrom_blank]

end ElmLint.Syntax

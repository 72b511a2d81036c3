import ElmLint.Syntax.Lexer

/-!
# A text is its tokens

Every rule of the lexer cuts its lexeme off the front of the text and leaves the rest, and a lexeme
has at least one character. So the tokens of a text, joined, are the text.
-/

namespace ElmLint.Syntax

variable {c : Char} {cs : List Char} {kind : Kind} {l : Lexeme}

namespace Lexeme

/-- The lexeme is the front of the text. -/
def Cuts (l : Lexeme) (cs : List Char) : Prop := l.text ++ l.rest = cs

theorem Cuts.prepend {front : List Char} (h : l.Cuts cs) :
    (l.prepend front).Cuts (front ++ cs) := by
  unfold Cuts at h
  simp [Cuts, Lexeme.prepend, h]

theorem cuts_run (kind : Kind) (p : Char → Bool) (c : Char) (cs : List Char) :
    (run kind p c cs).Cuts (c :: cs) := by
  simp [Cuts, run]

end Lexeme

open Lexeme (Cuts cuts_run)

theorem cuts_blockComment (depth : Nat) (cs : List Char) : (blockComment depth cs).Cuts cs := by
  fun_induction blockComment depth cs with
  | case1 | case2 => rfl
  | case3 depth cs ih | case4 depth cs ih | case5 depth c cs _ _ ih => exact ih.prepend

theorem cuts_quoted (kind : Kind) (quote : Char) (cs : List Char) :
    (quoted kind quote cs).Cuts cs := by
  fun_induction quoted kind quote cs with
  | case1 | case2 | case4 | case5 => rfl
  | case3 c cs _ ih => exact ih.prepend
  | case6 c cs _ _ _ ih => exact ih.prepend

theorem cuts_multiline (cs : List Char) : (multiline cs).Cuts cs := by
  fun_induction multiline cs
  case case1 | case2 | case4 | case6 | case7 | case9 => rfl
  case case3 ih | case5 ih | case8 ih | case10 ih => exact ih.prepend

theorem fraction_isFront (cs : List Char) : fraction cs <+: cs := by
  unfold fraction
  split
  · split
    · exact List.nil_prefix
    · exact List.cons_prefix_cons.mpr ⟨rfl, List.takeWhile_prefix _⟩
  · exact List.nil_prefix

theorem exponent_isFront (cs : List Char) : exponent cs <+: cs := by
  cases cs with
  | nil => exact List.nil_prefix
  | cons mark cs =>
    have hsign : (cs.take 1).filter (fun c => c = '+' || c = '-') <+: cs := by
      cases cs with
      | nil => exact List.nil_prefix
      | cons c cs =>
        by_cases hc : (c = '+' || c = '-') = true
        · simp [hc]
        · simp [hc]
    simp only [exponent]
    generalize (cs.take 1).filter (fun c => c = '+' || c = '-') = sign at hsign ⊢
    obtain ⟨rest, rfl⟩ := hsign
    rw [List.drop_left]
    split
    · split
      · exact List.nil_prefix
      · refine List.cons_prefix_cons.mpr ⟨rfl, ?_⟩
        exact (List.prefix_append_right_inj _).mpr (List.takeWhile_prefix _)
    · exact List.nil_prefix

/-- A front that was found can be taken off. -/
theorem append_drop_of_isFront {front cs : List Char} (h : front <+: cs) :
    front ++ cs.drop front.length = cs := by
  obtain ⟨rest, rfl⟩ := h
  simp

theorem cuts_decimal (c : Char) (cs : List Char) : (number.decimal c cs).Cuts (c :: cs) := by
  have hfraction := append_drop_of_isFront (fraction_isFront (cs.dropWhile Char.isDigit))
  have hexponent := append_drop_of_isFront (exponent_isFront
    ((cs.dropWhile Char.isDigit).drop (fraction (cs.dropWhile Char.isDigit)).length))
  simp only [Cuts, number.decimal, List.cons_append, List.append_assoc]
  rw [hexponent, hfraction, List.takeWhile_append_dropWhile]

theorem cuts_number (c : Char) (cs : List Char) : (number c cs).Cuts (c :: cs) := by
  unfold number
  split
  · split
    · exact cuts_decimal ..
    · exact (cuts_run ..).prepend
  · exact cuts_decimal ..

/-- What holds of the lexeme of every rule holds of the lexeme that is cut off. -/
theorem lexeme_cases {P : Lexeme → Prop}
    (space : isSpace c = true → P (.run .whitespace isSpace c cs))
    (lineComment : ∀ rest, c = '-' → cs = '-' :: rest → P (.run .lineComment (· != '\n') c cs))
    (blockComment : ∀ rest, c = '{' → cs = '-' :: rest →
      P ((blockComment 1 rest).prepend ['{', '-']))
    (word : c.isLower = true → P
      { Lexeme.run .lowerIdent isNameChar c cs with
        kind := wordKind (String.ofList (c :: cs.takeWhile isNameChar)) })
    (name : c.isUpper = true → P (.run .upperIdent isNameChar c cs))
    (number : c.isDigit = true → P (number c cs))
    (multiline : ∀ rest, c = '"' → cs = '"' :: '"' :: rest →
      P ((multiline rest).prepend ['"', '"', '"']))
    (string : c = '"' → P ((quoted .string '"' cs).prepend ['"']))
    (char : c = '\'' → P ((quoted .char '\'' cs).prepend ['\'']))
    (symbol : isSymbol c = true → P
      { Lexeme.run .operatorIdent isSymbol c cs with
        kind := symbolKind (String.ofList (c :: cs.takeWhile isSymbol)) })
    (other : P (.single ((punctuationKind? c).getD .error) c cs)) : P (lexeme c cs) := by
  have hhead (h : cs.head? = some '-') : ∃ rest, cs = '-' :: rest := List.head?_eq_some_iff.mp h
  unfold lexeme
  split
  · exact space ‹_›
  split
  · rename_i hcomment
    obtain ⟨rest, hrest⟩ := hhead hcomment.2
    exact lineComment rest hcomment.1 hrest
  split
  · rename_i hcomment
    obtain ⟨rest, rfl⟩ := hhead hcomment.2
    exact blockComment rest hcomment.1 rfl
  split
  · exact word ‹_›
  split
  · exact name ‹_›
  split
  · exact number ‹_›
  split
  · split
    · exact multiline _ ‹_› rfl
    · exact string ‹_›
  split
  · exact char ‹_›
  split
  · exact symbol ‹_›
  · exact other

/-- A lexeme is a front of the text. -/
theorem cuts_lexeme (c : Char) (cs : List Char) : (lexeme c cs).Cuts (c :: cs) := by
  refine lexeme_cases (P := (Cuts · (c :: cs))) (fun _ => cuts_run ..) (fun _ _ _ => cuts_run ..)
    ?blockComment (fun _ => cuts_run ..) (fun _ => cuts_run ..) (fun _ => cuts_number ..)
    ?multiline ?string ?char (fun _ => cuts_run ..) rfl
  case blockComment =>
    rintro rest rfl rfl
    exact (cuts_blockComment 1 rest).prepend
  case multiline =>
    rintro rest rfl rfl
    exact (cuts_multiline rest).prepend
  case string | char =>
    rintro rfl
    exact (cuts_quoted ..).prepend

/-- A lexeme has at least one character. -/
theorem text_lexeme_ne_nil (c : Char) (cs : List Char) : (lexeme c cs).text ≠ [] := by
  have hprepend (l : Lexeme) (c : Char) (front : List Char) :
      (l.prepend (c :: front)).text ≠ [] := List.cons_ne_nil _ _
  refine lexeme_cases (P := (·.text ≠ [])) ?_ ?_ ?_ ?_ ?_ ?number ?_ ?_ ?_ ?_ ?_
  case number =>
    intro _
    unfold number
    split
    · split
      · exact List.cons_ne_nil _ _
      · exact hprepend _ _ _
    · exact List.cons_ne_nil _ _
  all_goals
    intros
    exact List.cons_ne_nil _ _

theorem length_rest_lexeme (c : Char) (cs : List Char) :
    (lexeme c cs).rest.length < (c :: cs).length := by
  have hcuts : (lexeme c cs).text ++ (lexeme c cs).rest = c :: cs := cuts_lexeme c cs
  have hpos := List.length_pos_iff.mpr (text_lexeme_ne_nil c cs)
  rw [← hcuts, List.length_append]
  omega

theorem text_tokensFrom (fuel offset : Nat) (cs : List Char) (h : cs.length ≤ fuel) :
    (tokensFrom fuel offset cs).flatMap (·.text.toList) = cs := by
  induction fuel generalizing offset cs with
  | zero =>
    rw [List.length_eq_zero_iff.mp (Nat.le_zero.mp h)]
    rfl
  | succ fuel ih =>
    cases cs with
    | nil => rfl
    | cons c cs =>
      have hlength := length_rest_lexeme c cs
      simp only [tokensFrom, List.flatMap_cons, String.toList_ofList]
      rw [ih _ _ (by omega)]
      exact cuts_lexeme c cs

/-- The tokens of a text, joined, are the text. -/
theorem text_tokenize (text : String) :
    (tokenize text).flatMap (·.text.toList) = text.toList :=
  text_tokensFrom _ _ _ (Nat.le_refl _)

/-! ## Kinds of lexemes -/

theorem kind_blockComment (depth : Nat) (cs : List Char) :
    (blockComment depth cs).kind = .blockComment := by
  fun_induction blockComment depth cs with
  | case1 | case2 => rfl
  | case3 depth cs ih | case4 depth cs ih | case5 depth c cs _ _ ih => exact ih

theorem kind_quoted (kind : Kind) (quote : Char) (cs : List Char) :
    (quoted kind quote cs).kind = kind ∨ (quoted kind quote cs).kind = .error := by
  fun_induction quoted kind quote cs with
  | case1 | case2 | case5 => exact .inr rfl
  | case4 => exact .inl rfl
  | case3 c cs _ ih => exact ih
  | case6 c cs _ _ _ ih => exact ih

theorem kind_multiline (cs : List Char) :
    (multiline cs).kind = .string ∨ (multiline cs).kind = .error := by
  fun_induction multiline cs
  case case1 | case4 | case6 | case7 | case9 => exact .inr rfl
  case case2 => exact .inl rfl
  case case3 ih | case5 ih | case8 ih | case10 ih => exact ih

theorem kind_number (c : Char) (cs : List Char) : (number c cs).kind = .number := by
  unfold number
  split
  · split <;> rfl
  · rfl

theorem not_mem_run {p : Char → Bool} {d : Char} (hc : c ≠ d) (hd : p d = false) :
    d ∉ c :: cs.takeWhile p := by
  rintro (_ | ⟨_, h⟩)
  · exact hc rfl
  · rw [List.all_eq_true.mp List.all_takeWhile d h] at hd
    cases hd

/-- Names, keywords and symbols stay in their line. -/
theorem lineFeed_not_mem_lexeme (c : Char) (cs : List Char) :
    (lexeme c cs).kind ∈
      [.whitespace, .lineComment, .blockComment, .number, .string, .char, .error] ∨
    '\n' ∉ (lexeme c cs).text := by
  refine lexeme_cases
    (P := fun l => l.kind ∈
      [.whitespace, .lineComment, .blockComment, .number, .string, .char, .error] ∨ '\n' ∉ l.text)
    (fun _ => .inl (.head _)) (fun _ _ _ => .inl (.tail _ (.head _))) ?blockComment ?word ?name
    ?number ?multiline ?string ?char ?symbol ?other
  case blockComment =>
    intro rest _ _
    simp [Lexeme.prepend, kind_blockComment]
  case number => simp [kind_number]
  case multiline =>
    intro rest _ _
    obtain h | h := kind_multiline rest <;> simp [Lexeme.prepend, h]
  case string =>
    intro _
    obtain h | h := kind_quoted .string '"' cs <;> simp [Lexeme.prepend, h]
  case char =>
    intro _
    obtain h | h := kind_quoted .char '\'' cs <;> simp [Lexeme.prepend, h]
  case word =>
    intro hlower
    exact .inr (not_mem_run (fun h => absurd (h ▸ hlower) (by decide)) (by decide))
  case name =>
    intro hupper
    exact .inr (not_mem_run (fun h => absurd (h ▸ hupper) (by decide)) (by decide))
  case symbol =>
    intro hsymbol
    exact .inr (not_mem_run (fun h => absurd (h ▸ hsymbol) (by decide)) (by decide))
  case other =>
    by_cases hc : c = '\n'
    · subst hc
      simp [Lexeme.single, punctuationKind?]
    · exact .inr (by simpa [Lexeme.single] using Ne.symm hc)

/-- Every token is a lexeme of some text. -/
theorem exists_lexeme_of_mem_tokenize {token : Token} {text : String}
    (h : token ∈ tokenize text) :
    ∃ c cs, token.kind = (lexeme c cs).kind ∧ token.text.toList = (lexeme c cs).text := by
  have hfrom (fuel offset : Nat) (cs : List Char) (h : token ∈ tokensFrom fuel offset cs) :
      ∃ c cs, token.kind = (lexeme c cs).kind ∧ token.text.toList = (lexeme c cs).text := by
    fun_induction tokensFrom fuel offset cs with
    | case1 | case2 => cases h
    | case3 fuel offset c cs l ih =>
      obtain rfl | h := List.mem_cons.mp h
      · exact ⟨c, cs, rfl, String.toList_ofList⟩
      · exact ih h
  exact hfrom _ _ _ h

end ElmLint.Syntax

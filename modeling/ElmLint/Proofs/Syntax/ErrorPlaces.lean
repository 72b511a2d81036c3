import ElmLint.Proofs.Syntax.Moves
import ElmLint.Proofs.Syntax.TokenColumns

/-!
# Where errors are placed

An error marks the next token of the cursor, or the end of the text if no token is left but white
space and comments. No move of the cursor brings the next token back to the left, so errors come in
the order of the text.
-/

namespace ElmLint.Syntax

variable {c c' : Cursor} {text : String} {e : SyntaxError}

-- ---------------------------------------------------------------------------
-- Tokens in order
-- ---------------------------------------------------------------------------

/-- Each token ends before the next starts. -/
theorem pairwise_tokenize (text : String) :
    (tokenize text).Pairwise fun t t' => t.stop ≤ t'.start := by
  refine List.pairwise_iff_forall_sublist.mpr fun {t t'} hsub => ?_
  obtain ⟨front, back, hsplit, hfront, hback⟩ := List.cons_sublist_iff.mp hsub
  obtain ⟨before, between, rfl⟩ := List.append_of_mem hfront
  obtain ⟨behind, after, rfl⟩ := List.append_of_mem (List.singleton_sublist.mp hback)
  have htiles := tiles_tokenize text
  have hfirst := htiles.start_eq before t (between ++ (behind ++ t' :: after)) (by simp [hsplit])
  have hlater := htiles.start_eq (before ++ t :: between ++ behind) t' after (by simp [hsplit])
  simp only [List.map_append, List.map_cons, List.sum_append, List.sum_cons] at hlater
  rw [Token.stop, hfirst, hlater]
  omega

/-- A token is not empty, and lies in the text. -/
theorem start_lt_stop_of_mem_tokenize {t : Token} (h : t ∈ tokenize text) :
    t.start < t.stop ∧ t.stop ≤ utf8Length text.toList := by
  obtain ⟨before, after, htext, hstart⟩ := exists_place_of_mem_tokenize h
  have hlength : 0 < t.length := by
    have hne : t.text ≠ "" := text_ne_empty_of_mem_tokenize h
    cases hchars : t.text.toList with
    | nil => exact absurd (String.toList_eq_nil_iff.mp hchars) hne
    | cons ch chars =>
      rw [Token.length, hchars, utf8Length]
      have := Char.utf8Size_pos ch
      omega
  rw [htext, utf8Length_append, utf8Length_append, Token.stop, hstart, ← Token.length]
  omega

-- ---------------------------------------------------------------------------
-- Marks
-- ---------------------------------------------------------------------------

namespace Cursor

/-- What an error marks. -/
def mark (c : Cursor) : ByteRange :=
  match c.next? with
  | some t => t.range
  | none => .empty c.textEnd

theorem error_eq (cause : SyntaxError.Cause) (c : Cursor) :
    c.error cause = { c with errors := ⟨cause, c.mark⟩ :: c.errors } := rfl

/-- The cursor stands in the text, in front of the rest of its tokens. -/
structure IsIn (text : String) (c : Cursor) : Prop where
  rest : c.rest <:+ placeTokens 0 (tokenize text)
  textEnd : c.textEnd = utf8Length text.toList

theorem isIn_start (text : String) : (Cursor.start (tokenize text)).IsIn text where
  rest := List.suffix_rfl
  textEnd := congrArg utf8Length (text_tokenize text)

theorem isTrivia_of_next? {t : PlacedToken} (h : c.next? = some t) : t.kind.isTrivia = false := by
  obtain ⟨tokens, hahead⟩ := List.head?_eq_some_iff.mp h
  exact isTrivia_of_ahead hahead

theorem mem_rest_of_next? {t : PlacedToken} (h : c.next? = some t) : t ∈ c.rest := by
  obtain ⟨tokens, hahead⟩ := List.head?_eq_some_iff.mp h
  rw [← c.trivia_append_ahead, hahead]
  exact List.mem_append_right _ List.mem_cons_self

/-- A token that is left is the next one or one behind it, unless it is passed over. -/
theorem mem_ahead_of_mem_rest {t : PlacedToken} (h : t ∈ c.rest) (hword : t.kind.isTrivia = false) :
    t ∈ c.ahead := by
  rw [← c.trivia_append_ahead] at h
  refine (List.mem_append.mp h).resolve_left fun htrivia => ?_
  have hpassed : t.kind.isTrivia = true :=
    List.mem_takeWhile_imp (p := (PlacedToken.toToken · |>.kind.isTrivia)) htrivia
  rw [hword] at hpassed
  cases hpassed

namespace IsIn

theorem mem_tokenize (h : c.IsIn text) {t : PlacedToken} (ht : t ∈ c.rest) :
    t.toToken ∈ tokenize text := by
  rw [← map_toToken_placeTokens 0 (tokenize text)]
  exact List.mem_map_of_mem (h.rest.subset ht)

theorem of_suffix (h : c.IsIn text) (hrest : c'.rest <:+ c.rest) (hend : c'.textEnd = c.textEnd) :
    c'.IsIn text :=
  ⟨hrest.trans h.rest, hend.trans h.textEnd⟩

/-- What is marked is a token of the text, or its end if none is left. -/
theorem mark_cases (h : c.IsIn text) :
    (∃ t ∈ tokenize text, t.kind.isTrivia = false ∧ c.next?.map (·.toToken) = some t ∧
        c.mark = t.range) ∨
      c.atEnd = true ∧ c.mark = .empty (utf8Length text.toList) := by
  rw [mark, atEnd, ← h.textEnd]
  cases hnext : c.next? with
  | none => exact .inr ⟨rfl, rfl⟩
  | some t =>
    exact .inl ⟨t.toToken, h.mem_tokenize (mem_rest_of_next? hnext), isTrivia_of_next? hnext, rfl,
      rfl⟩

/-- No token that is left starts in front of the mark. -/
theorem mark_le (h : c.IsIn text) {t : PlacedToken} (ht : t ∈ c.rest)
    (hword : t.kind.isTrivia = false) : c.mark.start ≤ t.start := by
  have hahead : t ∈ c.ahead := mem_ahead_of_mem_rest ht hword
  have horder : c.ahead.Pairwise fun t t' => t.stop ≤ t'.start := by
    have hplaced : (placeTokens 0 (tokenize text)).Pairwise fun t t' => t.stop ≤ t'.start := by
      have hall := pairwise_tokenize text
      rwa [← map_toToken_placeTokens 0 (tokenize text), List.pairwise_map] at hall
    exact hplaced.sublist ((List.dropWhile_suffix _).trans h.rest).sublist
  rw [mark, next?]
  cases hfirst : c.ahead with
  | nil =>
    rw [hfirst] at hahead
    cases hahead
  | cons first tokens =>
    rw [hfirst] at hahead horder
    cases hahead with
    | head => exact Nat.le_refl _
    | tail _ hmem =>
      have hstop := (List.pairwise_cons.mp horder).1 t hmem
      exact Nat.le_trans (Nat.le_add_right _ _) hstop

theorem mark_le_textEnd (h : c.IsIn text) : c.mark.start ≤ c.textEnd := by
  obtain ⟨t, ht, -, -, hmark⟩ | ⟨-, hmark⟩ := h.mark_cases
  · have hinside := start_lt_stop_of_mem_tokenize ht
    rw [hmark, h.textEnd]
    exact Nat.le_trans (Nat.le_of_lt hinside.1) hinside.2
  · rw [hmark, h.textEnd]
    exact Nat.le_refl _

/-- The mark does not move to the left when tokens are consumed. -/
theorem mark_mono (h : c.IsIn text) (hrest : c'.rest <:+ c.rest) (hend : c'.textEnd = c.textEnd) :
    c.mark.start ≤ c'.mark.start := by
  cases hnext : c'.next? with
  | none =>
    have hmark : c'.mark = .empty c'.textEnd := by rw [mark, hnext]
    rw [hmark, hend]
    exact h.mark_le_textEnd
  | some t =>
    have hmark : c'.mark = t.range := by rw [mark, hnext]
    rw [hmark]
    exact h.mark_le (hrest.subset (mem_rest_of_next? hnext)) (isTrivia_of_next? hnext)

end IsIn

end Cursor

-- ---------------------------------------------------------------------------
-- Moves
-- ---------------------------------------------------------------------------

/-- The errors so far are in order, the last first, and the next one would go on with it. -/
structure Cursor.OrdersErrors (text : String) (c : Cursor) : Prop extends c.IsIn text where
  ordered : c.errors.Pairwise fun later earlier => earlier.range.start ≤ later.range.start
  passed : ∀ e ∈ c.errors, e.range.start ≤ c.mark.start

theorem Move.ordersErrors (hmove : Move c c') (h : c.OrdersErrors text) : c'.OrdersErrors text := by
  obtain ⟨hrest, hend, -, herrors⟩ := hmove.goesOn
  have hin := h.of_suffix hrest hend
  have hmono := h.mark_mono hrest hend
  obtain herrors | ⟨cause, rfl⟩ := herrors
  · refine ⟨hin, ?_, ?_⟩ <;> rw [herrors]
    · exact h.ordered
    · exact fun e he => Nat.le_trans (h.passed e he) hmono
  · exact ⟨hin, List.pairwise_cons.mpr ⟨h.passed, h.ordered⟩,
      List.forall_mem_cons.mpr ⟨Nat.le_refl _, h.passed⟩⟩

/-- An error was there before, or a cursor on the way has recorded it at its mark. -/
theorem Moves.exists_error (h : Moves c c') (he : e ∈ c'.errors) :
    e ∈ c.errors ∨
      ∃ x, Moves c x ∧ Moves (x.error e.cause) c' ∧ e.range = x.mark := by
  induction h with
  | refl => exact .inl he
  | @tail x y hway hlast ih =>
    obtain herrors | ⟨cause, rfl⟩ := hlast.goesOn.2.2.2
    · rw [herrors] at he
      refine (ih he).imp_right fun ⟨z, hz, hbehind, hrange⟩ => ⟨z, hz, hbehind.move hlast, hrange⟩
    · obtain rfl | he := List.mem_cons.mp he
      · exact .inr ⟨x, hway, .refl _, rfl⟩
      · refine (ih he).imp_right fun ⟨z, hz, hbehind, hrange⟩ => ⟨z, hz, hbehind.move hlast, hrange⟩

theorem Cursor.IsOnWay.ordersErrors (h : c.IsOnWay text) : c.OrdersErrors text :=
  h.keeps (P := Cursor.OrdersErrors text) Move.ordersErrors
    ⟨Cursor.isIn_start text, List.Pairwise.nil, nofun⟩

/-- The errors of a text are in its order. Each was recorded on the way over the text, and its range
is that of the token that was next there, or the empty range at the end of the text where no token
was left. -/
theorem parse_placesErrors (text : String) :
    ((parse text).errors.Pairwise fun earlier later => earlier.range.start ≤ later.range.start) ∧
      ∀ e ∈ (parse text).errors, ∃ c : Cursor, c.IsOnWay text ∧
        Moves (c.error e.cause) (Cursor.atEndOf text) ∧
        ((∃ t ∈ tokenize text, t.kind.isTrivia = false ∧ c.next?.map (·.toToken) = some t ∧
            e.range = t.range) ∨
          c.atEnd = true ∧ e.range = .empty (utf8Length text.toList)) := by
  have hway := isOnWay_atEndOf text
  constructor
  · exact List.pairwise_reverse.mpr hway.ordersErrors.ordered
  · intro e he
    obtain hnone | ⟨c, hc, hbehind, hrange⟩ := hway.exists_error (List.mem_reverse.mp he)
    · cases hnone
    · refine ⟨c, hc, hbehind, ?_⟩
      have hc : c.IsOnWay text := hc
      rw [hrange]
      exact hc.ordersErrors.mark_cases

end ElmLint.Syntax

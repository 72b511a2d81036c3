import ElmLint.Proofs.Syntax.Continuation
import ElmLint.Proofs.Text.LineIndex
import Mathlib.Algebra.GroupWithZero.Nat

/-!
# Tokens tile their text, and each is a text of one token

Tokens follow each other without gaps, each starts where those in front of it end, and the places
between them are places between characters. A token that is cut off on its own is the same token:
what stood behind it had only ended it.

Block comments are stated a second time over bytes: a scan for `{-` and `-}` that knows nothing of
characters stops at the end of a character, since no byte of a longer character is one of these.
-/

namespace ElmLint.Syntax

open Lexeme (Cuts)

variable {c : Char} {cs rest : List Char} {depth : Nat} {bytes : List UInt8} {text : String}

-- ---------------------------------------------------------------------------
-- Lexemes on their own
-- ---------------------------------------------------------------------------

theorem keeps_nil (l : Lexeme) : l.Keeps [] where
  dulls := .ends _
  name _ _ := nofun
  symbol _ _ := nofun
  hyphen _ := nofun
  stuck _ := staysStuck_nil _

theorem run_alone (kind : Kind) (p : Char → Bool) (c : Char) (cs : List Char) :
    Lexeme.run kind p c (cs.takeWhile p) = ⟨kind, c :: cs.takeWhile p, []⟩ := by
  have h : Lexeme.run kind p c (cs.takeWhile p ++ []) = ⟨kind, c :: cs.takeWhile p, []⟩ :=
    run_append kind c cs nofun
  rwa [List.append_nil] at h

theorem blockComment_alone (depth : Nat) (cs : List Char) :
    blockComment depth (blockComment depth cs).text =
      { blockComment depth cs with rest := [] } := by
  fun_induction blockComment depth cs with
  | case1 | case2 => rfl
  | case3 depth cs ih =>
    simp only [Lexeme.prepend, List.cons_append, List.nil_append, blockComment]
    rw [ih]
  | case4 depth cs ih =>
    simp only [Lexeme.prepend, List.cons_append, List.nil_append, blockComment]
    rw [ih]
  | case5 depth c cs hopen hclose ih =>
    -- a comment sign that starts with the last character would have been there before
    have hcuts : (blockComment (depth + 1) cs).text ++ (blockComment (depth + 1) cs).rest = cs :=
      cuts_blockComment (depth + 1) cs
    simp only [Lexeme.prepend, List.cons_append, List.nil_append]
    rw [blockComment, ih]
    · rfl
    · intro more hc htext
      rw [htext] at hcuts
      exact hopen _ hc hcuts.symm
    · intro more hc htext
      rw [htext] at hcuts
      exact hclose _ hc hcuts.symm

/-- A lexeme that is cut off is the same lexeme. -/
theorem lexeme_alone (c : Char) (cs : List Char) :
    lexeme c (lexeme c cs).text.tail = { lexeme c cs with rest := [] } := by
  by_cases hspace : isSpace c = true
  · have hlexeme (cs : List Char) : lexeme c cs = .run .whitespace isSpace c cs := if_pos hspace
    rw [hlexeme, hlexeme]
    exact run_alone _ _ _ _
  by_cases hline : c = '-' ∧ cs.head? = some '-'
  · obtain ⟨rfl, hhead⟩ := hline
    obtain ⟨more, rfl⟩ := List.head?_eq_some_iff.mp hhead
    exact run_alone .lineComment (· != '\n') '-' ('-' :: more)
  by_cases hblock : c = '{' ∧ cs.head? = some '-'
  · obtain ⟨rfl, hhead⟩ := hblock
    obtain ⟨more, rfl⟩ := List.head?_eq_some_iff.mp hhead
    exact congrArg (Lexeme.prepend ['{', '-']) (blockComment_alone 1 more)
  · have h := lexeme_append ⟨hspace, hline, hblock⟩ (keeps_nil (lexeme c cs))
    rwa [List.append_nil] at h

theorem tokensFrom_nil (fuel offset : Nat) : tokensFrom fuel offset [] = [] := by
  cases fuel <;> rfl

/-- A token that is cut off is a text of this one token. -/
theorem tokenize_alone {t : Token} (h : t ∈ tokenize text) :
    tokenize t.text = [{ t with start := 0 }] := by
  obtain ⟨c, cs, hkind, htext⟩ := exists_lexeme_of_mem_tokenize h
  have hcons := (text_lexeme_eq_cons c cs).1
  rw [tokenize, htext, hcons, List.length_cons, tokensFrom, lexeme_alone]
  dsimp only
  rw [tokensFrom_nil, ← hkind, ← htext, String.ofList_toList]

-- ---------------------------------------------------------------------------
-- Places
-- ---------------------------------------------------------------------------

/-- A token is the lexeme at the place where those in front of it end. -/
theorem tokensFrom_eq_append {fuel offset : Nat} {before after : List Token} {t : Token}
    (h : tokensFrom fuel offset cs = before ++ t :: after) :
    ∃ c rest, cs = before.flatMap (·.text.toList) ++ c :: rest ∧
      t = ⟨(lexeme c rest).kind, String.ofList (lexeme c rest).text,
        offset + (before.map Token.length).sum⟩ := by
  induction before generalizing fuel offset cs with
  | nil =>
    fun_cases tokensFrom fuel offset cs with
    | case1 | case2 => simp [tokensFrom] at h
    | case3 fuel _ c rest =>
      rw [tokensFrom, List.nil_append, List.cons.injEq] at h
      exact ⟨c, rest, rfl, h.1.symm⟩
  | cons first before ih =>
    fun_cases tokensFrom fuel offset cs with
    | case1 | case2 => simp [tokensFrom] at h
    | case3 fuel _ c cs =>
      rw [tokensFrom, List.cons_append, List.cons.injEq] at h
      obtain ⟨hfirst, hmore⟩ := h
      obtain ⟨d, rest, hrest, rfl⟩ := ih hmore
      have htext : first.text.toList = (lexeme c cs).text := by
        rw [← hfirst, String.toList_ofList]
      have hcuts : (lexeme c cs).text ++ (lexeme c cs).rest = c :: cs := cuts_lexeme c cs
      refine ⟨d, rest, ?_, ?_⟩
      · rw [List.flatMap_cons, List.append_assoc, ← hrest, htext, hcuts]
      · rw [List.map_cons, List.sum_cons, Token.length, htext, Nat.add_assoc]

theorem utf8Length_flatMap (tokens : List Token) :
    utf8Length (tokens.flatMap (·.text.toList)) = (tokens.map Token.length).sum := by
  induction tokens with
  | nil => rfl
  | cons t tokens ih => simp [ih, Token.length]

-- ---------------------------------------------------------------------------
-- Block comments over bytes
-- ---------------------------------------------------------------------------

/-- How many bytes a block comment goes on for, when `depth` openings are not closed yet. -/
def commentBytes : (depth : Nat) → List UInt8 → Nat
  | 0, _ => 0
  | _ + 1, [] => 0
  | depth + 1, 0x7b :: 0x2d :: bytes => 2 + commentBytes (depth + 2) bytes
  | depth + 1, 0x2d :: 0x7d :: bytes => 2 + commentBytes depth bytes
  | depth + 1, _ :: bytes => 1 + commentBytes (depth + 1) bytes

def bytesOf (cs : List Char) : List UInt8 := cs.flatMap String.utf8EncodeChar

theorem bytesOf_cons (c : Char) (cs : List Char) :
    bytesOf (c :: cs) = String.utf8EncodeChar c ++ bytesOf cs := List.flatMap_cons

/-- A byte below 128 is a character of its own. -/
theorem utf8EncodeChar_of_mem {b : UInt8} (h : b ∈ String.utf8EncodeChar c) (hb : b.toNat < 128) :
    String.utf8EncodeChar c = [b] ∧ c.toNat = b.toNat := by
  have hhigh (n : Nat) (hlow : 128 ≤ n) (hn : n < 256) (h : b = UInt8.ofNat n) : False := by
    rw [h, UInt8.toNat_ofNat_of_lt' hn] at hb
    omega
  unfold String.utf8EncodeChar at h ⊢
  dsimp only at h ⊢
  split at h
  · rename_i hascii
    rw [if_pos hascii]
    obtain rfl := List.mem_singleton.mp h
    exact ⟨rfl, (UInt8.toNat_ofNat_of_lt' (Nat.lt_of_le_of_lt hascii (by decide))).symm⟩
  · exfalso
    split at h
    · simp only [List.mem_cons, List.not_mem_nil, or_false] at h
      rcases h with h | h
      all_goals exact hhigh _ (by omega) (by omega) h
    split at h
    · simp only [List.mem_cons, List.not_mem_nil, or_false] at h
      rcases h with h | h | h
      all_goals exact hhigh _ (by omega) (by omega) h
    · simp only [List.mem_cons, List.not_mem_nil, or_false] at h
      rcases h with h | h | h | h
      all_goals exact hhigh _ (by omega) (by omega) h

theorem eq_of_toNat_eq {d : Char} (h : c.toNat = d.toNat) : c = d :=
  Char.ext (UInt32.toNat_inj.mp h)

/-- Where the bytes start with an ASCII character, the characters do. -/
theorem eq_cons_of_bytesOf {d : Char} {b : UInt8} (hb : b.toNat < 128) (hd : d.toNat = b.toNat)
    (h : bytesOf cs = b :: bytes) : ∃ more, cs = d :: more ∧ bytes = bytesOf more := by
  cases cs with
  | nil => cases h
  | cons c cs =>
    rw [bytesOf_cons] at h
    have hmem : b ∈ String.utf8EncodeChar c := by
      obtain ⟨first, rest, hc⟩ := List.exists_cons_of_ne_nil (String.utf8EncodeChar_ne_nil (c := c))
      rw [hc, List.cons_append, List.cons.injEq] at h
      rw [hc, h.1]
      exact List.mem_cons_self
    obtain ⟨hc, htoNat⟩ := utf8EncodeChar_of_mem hmem hb
    rw [hc, List.singleton_append, List.cons.injEq] at h
    exact ⟨cs, by rw [eq_of_toNat_eq (htoNat.trans hd.symm)], h.2.symm⟩

/-- Bytes of longer characters are passed over. -/
theorem commentBytes_append (depth : Nat) {front : List UInt8} (h : ∀ b ∈ front, 128 ≤ b.toNat) :
    commentBytes (depth + 1) (front ++ bytes) =
      front.length + commentBytes (depth + 1) bytes := by
  induction front with
  | nil => simp
  | cons b front ih =>
    obtain ⟨hb, hfront⟩ := List.forall_mem_cons.mp h
    rw [List.cons_append, commentBytes, ih hfront, List.length_cons]
    · omega
    · rintro _ rfl
      exact absurd hb (by decide)
    · rintro _ rfl
      exact absurd hb (by decide)

theorem utf8EncodeChar_of_ascii (h : c.toNat < 128) :
    String.utf8EncodeChar c = [UInt8.ofNat c.toNat] := if_pos (Nat.le_of_lt_succ h)

/-- The scan passes over a character that starts no comment sign. -/
theorem commentBytes_cons (depth : Nat) (hopen : ∀ more, c = '{' → cs = '-' :: more → False)
    (hclose : ∀ more, c = '-' → cs = '}' :: more → False) :
    commentBytes (depth + 1) (bytesOf (c :: cs)) =
      c.utf8Size + commentBytes (depth + 1) (bytesOf cs) := by
  rw [bytesOf_cons]
  by_cases hc : c.toNat < 128
  · have hbyte : (UInt8.ofNat c.toNat).toNat = c.toNat :=
      UInt8.toNat_ofNat_of_lt' (Nat.lt_trans hc (by decide))
    have hchar {d : Char} {b : UInt8} (hd : d.toNat = b.toNat) (hb : UInt8.ofNat c.toNat = b) :
        c = d := eq_of_toNat_eq (by rw [hd, ← hb, hbyte])
    rw [← String.length_utf8EncodeChar, utf8EncodeChar_of_ascii hc, List.singleton_append,
      commentBytes]
    · rfl
    · intro bytes hb hbytes
      obtain ⟨more, hmore, -⟩ := eq_cons_of_bytesOf (d := '-') (by decide) (by decide) hbytes
      exact hopen more (hchar (by decide) hb) hmore
    · intro bytes hb hbytes
      obtain ⟨more, hmore, -⟩ := eq_cons_of_bytesOf (d := '}') (by decide) (by decide) hbytes
      exact hclose more (hchar (by decide) hb) hmore
  · rw [← String.length_utf8EncodeChar]
    refine commentBytes_append depth fun b hb => ?_
    by_contra hlow
    have := (utf8EncodeChar_of_mem hb (by omega)).2
    omega

/-- The scan over bytes stops where the comment's characters end. -/
theorem commentBytes_eq (depth : Nat) (cs : List Char) :
    commentBytes depth (bytesOf cs) = utf8Length (blockComment depth cs).text := by
  have hopening (cs : List Char) : bytesOf ('{' :: '-' :: cs) = 0x7b :: 0x2d :: bytesOf cs := by
    simp only [bytesOf_cons, utf8EncodeChar_of_ascii (c := '{') (by decide),
      utf8EncodeChar_of_ascii (c := '-') (by decide)]
    rfl
  have hclosing (cs : List Char) : bytesOf ('-' :: '}' :: cs) = 0x2d :: 0x7d :: bytesOf cs := by
    simp only [bytesOf_cons, utf8EncodeChar_of_ascii (c := '}') (by decide),
      utf8EncodeChar_of_ascii (c := '-') (by decide)]
    rfl
  fun_induction blockComment depth cs with
  | case1 =>
    rw [commentBytes]
    rfl
  | case2 => rfl
  | case3 depth cs ih =>
    rw [hopening, commentBytes, ih, Lexeme.prepend, utf8Length_append]
    rfl
  | case4 depth cs ih =>
    rw [hclosing, commentBytes, ih, Lexeme.prepend, utf8Length_append]
    rfl
  | case5 depth c cs hopen hclose ih =>
    rw [commentBytes_cons depth hopen hclose, ih, Lexeme.prepend, utf8Length_append]
    rfl

theorem drop_bytesOf (before after : List Char) :
    (bytesOf (before ++ after)).drop (utf8Length before) = bytesOf after := by
  have hlength : (bytesOf before).length = utf8Length before := by
    induction before with
    | nil => rfl
    | cons c before ih =>
      rw [bytesOf_cons, List.length_append, String.length_utf8EncodeChar, ih, utf8Length_cons]
  have happend : bytesOf (before ++ after) = bytesOf before ++ bytesOf after := List.flatMap_append
  rw [happend, List.drop_left' hlength]

theorem bytesOf_toList (text : String) : text.toUTF8.data.toList = bytesOf text.toList := by
  rw [String.toUTF8_eq_toByteArray, ← String.ofList_toList (s := text), String.toByteArray_ofList,
    List.utf8Encode, List.data_toByteArray, String.toList_ofList]
  rfl

-- ---------------------------------------------------------------------------
-- Tilings
-- ---------------------------------------------------------------------------

/-- The tokens cut the whole text at places between characters, and each of them is the only token
of its own text. -/
structure Tiles (tokens : List Token) (text : String) : Prop where
  joined : String.join (tokens.map Token.text) = text
  nonempty : ∀ t ∈ tokens, t.text ≠ ""
  start_eq : ∀ before t after, tokens = before ++ t :: after →
    t.start = (before.map Token.length).sum
  boundary : ∀ t ∈ tokens,
    String.Pos.Raw.IsValid text ⟨t.start⟩ ∧ String.Pos.Raw.IsValid text ⟨t.stop⟩
  /-- The end of a block comment is where the scan over bytes finds it. -/
  comment : ∀ t ∈ tokens, t.kind = .blockComment →
    t.length = 2 + commentBytes 1 (text.toUTF8.data.toList.drop (t.start + 2))
  alone : ∀ t ∈ tokens, tokenize t.text = [{ t with start := 0 }]

/-- Only the rule for block comments cuts off block comments. -/
theorem eq_blockComment_of_kind (h : (lexeme c cs).kind = .blockComment) :
    ∃ more, c = '{' ∧ cs = '-' :: more ∧
      lexeme c cs = (blockComment 1 more).prepend ['{', '-'] := by
  by_cases hspace : isSpace c = true
  · rw [lexeme.eq_def, if_pos hspace] at h
    cases h
  by_cases hline : c = '-' ∧ cs.head? = some '-'
  · rw [lexeme.eq_def, if_neg hspace, if_pos hline] at h
    cases h
  by_cases hblock : c = '{' ∧ cs.head? = some '-'
  · obtain ⟨rfl, hhead⟩ := hblock
    obtain ⟨more, rfl⟩ := List.head?_eq_some_iff.mp hhead
    exact ⟨more, rfl, rfl, rfl⟩
  · have hword := StartsWord.isTrivia ⟨hspace, hline, hblock⟩
    rw [h] at hword
    cases hword

theorem text_ne_empty_of_mem_tokenize {t : Token} (h : t ∈ tokenize text) : t.text ≠ "" := by
  intro hempty
  obtain ⟨c, cs, -, htext⟩ := exists_lexeme_of_mem_tokenize h
  rw [hempty] at htext
  exact text_lexeme_ne_nil c cs htext.symm

/-- A token starts behind the characters in front of it. -/
theorem exists_place_of_mem_tokenize {t : Token} (h : t ∈ tokenize text) :
    ∃ before after, text.toList = before ++ (t.text.toList ++ after) ∧
      t.start = utf8Length before := by
  obtain ⟨before, after, h⟩ := List.mem_iff_append.mp h
  have htext := text_tokenize text
  rw [h, List.flatMap_append, List.flatMap_cons] at htext
  obtain ⟨c, rest, -, rfl⟩ := tokensFrom_eq_append h
  refine ⟨before.flatMap (·.text.toList), after.flatMap (·.text.toList), htext.symm, ?_⟩
  rw [utf8Length_flatMap]
  exact Nat.zero_add _

theorem tiles_tokenize (text : String) : Tiles (tokenize text) text := by
  refine ⟨?joined, fun t ht => text_ne_empty_of_mem_tokenize ht, ?start_eq, ?boundary, ?comment,
    fun t ht => tokenize_alone ht⟩
  case joined =>
    rw [← String.toList_inj, String.toList_join, List.flatMap_map]
    exact text_tokenize text
  case start_eq =>
    intro before t after h
    obtain ⟨c, rest, -, rfl⟩ := tokensFrom_eq_append h
    exact Nat.zero_add _
  case boundary =>
    intro t ht
    obtain ⟨before, after, htext, hstart⟩ := exists_place_of_mem_tokenize ht
    rw [Token.stop, hstart, Token.length, ← utf8Length_append]
    have hstop : text.toList = (before ++ t.text.toList) ++ after := by
      rw [htext, List.append_assoc]
    exact ⟨isValid_of_append htext, isValid_of_append hstop⟩
  case comment =>
    intro t ht hkind
    obtain ⟨before, after, h⟩ := List.mem_iff_append.mp ht
    obtain ⟨c, rest, htext, ht⟩ := tokensFrom_eq_append h
    have hstart : t.start = utf8Length (before.flatMap (·.text.toList)) := by
      rw [ht, utf8Length_flatMap]
      exact Nat.zero_add _
    rw [ht] at hkind
    obtain ⟨more, rfl, rfl, hlexeme⟩ := eq_blockComment_of_kind hkind
    have hlength : t.length = 2 + utf8Length (blockComment 1 more).text := by
      rw [Token.length, ht, hlexeme, String.toList_ofList, Lexeme.prepend, utf8Length_append]
      rfl
    have hopening (front : List Char) :
        utf8Length front + 2 = utf8Length (front ++ ['{', '-']) := by
      rw [utf8Length_append]
      rfl
    have hsplit : text.toList = (before.flatMap (·.text.toList) ++ ['{', '-']) ++ more := by
      rw [htext, List.append_assoc]
      rfl
    rw [hlength, hstart, hopening, bytesOf_toList, hsplit, drop_bytesOf, commentBytes_eq]

end ElmLint.Syntax

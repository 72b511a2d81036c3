import ElmLint.Proofs.Syntax.Tokens
import Mathlib.Data.List.Basic

/-!
# What may stand behind a lexeme

A lexeme ends where its rule cannot go on. It stays as it is when another text stands behind it that
gives its rule no more to go on with: one that follows the old text up to a dead end. The text may
end there, or go on with a character that no number goes on with.
-/

namespace ElmLint.Syntax

-- ---------------------------------------------------------------------------
-- Dead ends
-- ---------------------------------------------------------------------------

/-- Brackets and the comma, which are tokens of their own. -/
def delimiters : List Char := ['(', ')', '[', ']', '{', '}', ',']

def isDelimiter (c : Char) : Bool := delimiters.contains c

/-- No number goes on with the text, nor does one with a mark or a point in front of it, and no
string is opened there. -/
def IsDeadEnd (cs : List Char) : Prop :=
  ∀ c ∈ cs.head?, c.isAlphanum = false ∧ c ≠ '"' ∧
    (c = '.' ∨ c = '+' ∨ c = '-' → ∀ d ∈ cs.tail.head?, d.isDigit = false)

/-- The second text follows the first up to where no number goes on. -/
inductive Dulls : List Char → List Char → Prop
  | dead (cs : List Char) {cs' : List Char} (h : IsDeadEnd cs') : Dulls cs cs'
  | same (c : Char) {cs cs' : List Char} (h : Dulls cs cs') : Dulls (c :: cs) (c :: cs')

variable {c : Char} {cs cs' rest rest' : List Char} {kind : Kind} {p : Char → Bool}

/-- A class of letters and digits. -/
def IsInner (p : Char → Bool) : Prop := ∀ c, p c = true → c.isAlphanum = true

theorem isSpace_cases (h : isSpace c = true) : c = ' ' ∨ c = '\t' ∨ c = '\r' ∨ c = '\n' := by
  simpa [isSpace, or_assoc] using h

theorem isDelimiter_cases (h : isDelimiter c = true) :
    c = '(' ∨ c = ')' ∨ c = '[' ∨ c = ']' ∨ c = '{' ∨ c = '}' ∨ c = ',' := by
  simpa [isDelimiter, delimiters] using h

theorem isAlpha_iff {c : Char} : c.isAlpha = true ↔ c.isLower = true ∨ c.isUpper = true := by
  have halpha : c.isAlpha = (c.isUpper || c.isLower) := rfl
  rw [halpha, Bool.or_eq_true, or_comm]

theorem isInner_isDigit : IsInner Char.isDigit := fun c hc => by simp [Char.isAlphanum, hc]

theorem isInner_isHexDigit : IsInner isHexDigit := by
  intro c hc
  simp only [isHexDigit, Bool.or_eq_true, Bool.and_eq_true, decide_eq_true_eq] at hc
  have hletter : c.isDigit = true ∨ c.isLower = true ∨ c.isUpper = true := by
    refine hc.elim (Or.imp_right fun hlower => .inl ?_) fun hupper => .inr (.inr ?_)
    · have hle := decide_eq_true (UInt32.le_trans hlower.2 (show 'f'.val ≤ 'z'.val by decide))
      exact (congrArg₂ and (decide_eq_true hlower.1) hle :)
    · exact decide_eq_true ⟨hupper.1, UInt32.le_trans hupper.2 (by decide)⟩
  rw [Char.isAlphanum, Bool.or_eq_true, isAlpha_iff]
  exact hletter.symm

theorem not_isNameChar_of_isSpace (hc : isSpace c = true) : isNameChar c = false := by
  rcases isSpace_cases hc with rfl | rfl | rfl | rfl <;> rfl

theorem not_isNameChar_of_isDelimiter (hc : isDelimiter c = true) : isNameChar c = false := by
  rcases isDelimiter_cases hc with rfl | rfl | rfl | rfl | rfl | rfl | rfl <;> rfl

/-- A character that is no letter, no digit, no quote, no point and no sign. -/
theorem isDeadEnd_cons (hinner : c.isAlphanum = false)
    (hother : c ≠ '"' ∧ c ≠ '.' ∧ c ≠ '+' ∧ c ≠ '-') (cs : List Char) : IsDeadEnd (c :: cs) := by
  rintro _ ⟨⟩
  refine ⟨hinner, hother.1, fun hsign => ?_⟩
  obtain h | h | h := hsign
  · exact absurd h hother.2.1
  · exact absurd h hother.2.2.1
  · exact absurd h hother.2.2.2

namespace Dulls

theorem ends (cs : List Char) : Dulls cs [] := .dead cs nofun

theorem space (hc : isSpace c = true) (cs cs' : List Char) : Dulls cs (c :: cs') := by
  refine .dead cs (isDeadEnd_cons ?_ ?_ cs') <;>
    rcases isSpace_cases hc with rfl | rfl | rfl | rfl <;> decide

theorem delimiter (hc : isDelimiter c = true) (cs cs' : List Char) : Dulls cs (c :: cs') := by
  refine .dead cs (isDeadEnd_cons ?_ ?_ cs') <;>
    rcases isDelimiter_cases hc with rfl | rfl | rfl | rfl | rfl | rfl | rfl <;> decide

theorem dot (hc : c.isDigit = false) (cs cs' : List Char) : Dulls cs ('.' :: c :: cs') := by
  refine .dead cs ?_
  rintro _ ⟨⟩
  refine ⟨rfl, by decide, fun _ => ?_⟩
  rintro _ ⟨⟩
  exact hc

theorem append (front : List Char) (h : Dulls rest rest') :
    Dulls (front ++ rest) (front ++ rest') := by
  induction front with
  | nil => exact h
  | cons c front ih => exact .same c ih

/-- A letter, a digit or a quote in front of the second text stands in front of the first. -/
theorem head (h : Dulls cs (c :: cs')) (hc : c.isAlphanum = true ∨ c = '"') :
    ∃ more, cs = c :: more ∧ Dulls more cs' := by
  cases h with
  | dead _ h =>
    obtain ⟨hinner, hquote, -⟩ := h c rfl
    simp [hinner, hquote] at hc
  | same _ h => exact ⟨_, rfl, h⟩

/-- A text that cannot go on with `p` cannot go on with it when it is dulled. -/
theorem not_inner (h : Dulls cs cs') (hinner : IsInner p) (hp : ∀ c ∈ cs.head?, p c = false) :
    ∀ c ∈ cs'.head?, p c = false := by
  cases h with
  | dead _ h =>
    intro c hc
    by_contra hgoesOn
    have hnone := (h c hc).1
    rw [hinner c (by simpa using hgoesOn)] at hnone
    cases hnone
  | same c h => exact hp

end Dulls

-- ---------------------------------------------------------------------------
-- Runs
-- ---------------------------------------------------------------------------

theorem head?_dropWhile (p : Char → Bool) (cs : List Char) :
    ∀ c ∈ (cs.dropWhile p).head?, p c = false := by
  intro c hc
  have h := List.head?_dropWhile_not p cs
  rw [Option.mem_def.mp hc] at h
  exact h

theorem not_of_takeWhile_eq_nil (h : cs.takeWhile p = []) : ∀ c ∈ cs.head?, p c = false := by
  intro c hc
  obtain ⟨more, rfl⟩ := List.head?_eq_some_iff.mp (Option.mem_def.mp hc)
  by_cases hp : p c = true
  · simp [List.takeWhile_cons_of_pos hp] at h
  · simpa using hp

/-- Where `p` does not hold at the front, it holds of no front. -/
theorem takeWhile_of_head (h : ∀ c ∈ cs.head?, p c = false) :
    cs.takeWhile p = [] ∧ cs.dropWhile p = cs := by
  cases cs with
  | nil => exact ⟨rfl, rfl⟩
  | cons c cs =>
    have hc : p c = false := h c rfl
    exact ⟨List.takeWhile_cons_of_neg (by simp [hc]), List.dropWhile_cons_of_neg (by simp [hc])⟩

theorem takeWhile_append (cs : List Char) (h : ∀ c ∈ rest'.head?, p c = false) :
    (cs.takeWhile p ++ rest').takeWhile p = cs.takeWhile p ∧
      (cs.takeWhile p ++ rest').dropWhile p = rest' := by
  have hall : ∀ c ∈ cs.takeWhile p, p c = true := List.all_eq_true.mp List.all_takeWhile
  obtain ⟨htake, hdrop⟩ := takeWhile_of_head h
  rw [List.takeWhile_append_of_pos hall, List.dropWhile_append_of_pos hall, htake, hdrop,
    List.append_nil]
  exact ⟨rfl, rfl⟩

theorem run_append (kind : Kind) (c : Char) (cs : List Char) (h : ∀ c ∈ rest'.head?, p c = false) :
    Lexeme.run kind p c (cs.takeWhile p ++ rest') = ⟨kind, c :: cs.takeWhile p, rest'⟩ := by
  obtain ⟨htake, hdrop⟩ := takeWhile_append cs h
  rw [Lexeme.run, htake, hdrop]

/-- What is left behind a front that was taken. -/
theorem eq_dropWhile_of_append (h : cs = cs.takeWhile p ++ rest) : rest = cs.dropWhile p :=
  List.append_cancel_left (h.symm.trans List.takeWhile_append_dropWhile.symm)

namespace Dulls

theorem behind_run (h : Dulls (cs.dropWhile p) rest') (hinner : IsInner p) :
    ∀ c ∈ rest'.head?, p c = false := h.not_inner hinner (head?_dropWhile p cs)

theorem takeWhile_eq_nil (h : Dulls cs cs') (hinner : IsInner p) (hnone : cs.takeWhile p = []) :
    cs'.takeWhile p = [] :=
  (takeWhile_of_head (h.not_inner hinner (not_of_takeWhile_eq_nil hnone))).1

end Dulls

-- ---------------------------------------------------------------------------
-- Numbers
-- ---------------------------------------------------------------------------

theorem fraction_of_dulls (h : Dulls cs cs') (hnone : fraction cs = []) : fraction cs' = [] := by
  cases h with
  | dead _ h =>
    cases cs' with
    | nil => rfl
    | cons c more =>
      by_cases hc : c = '.'
      · obtain ⟨-, -, hdigits⟩ := h c rfl
        have hnone := (takeWhile_of_head (hdigits (.inl hc))).1
        rw [List.tail_cons] at hnone
        simp [hc, fraction, hnone]
      · simp [fraction, hc]
  | same c h =>
    by_cases hc : c = '.'
    · subst hc
      have hdigits := h.takeWhile_eq_nil isInner_isDigit (by simpa [fraction] using hnone)
      simp [fraction, hdigits]
    · simp [fraction, hc]

theorem fraction_append (hcs : cs = fraction cs ++ rest) (hdulls : Dulls rest rest') :
    fraction (fraction cs ++ rest') = fraction cs := by
  cases hfraction : fraction cs with
  | nil =>
    rw [hfraction, List.nil_append] at hcs
    exact fraction_of_dulls hdulls (hcs ▸ hfraction)
  | cons dot digits =>
    rw [hfraction] at hcs
    unfold fraction at hfraction
    split at hfraction
    · split at hfraction
      · cases hfraction
      · rename_i hempty
        obtain ⟨rfl, rfl⟩ := List.cons.inj hfraction
        rw [List.cons_append, List.cons.injEq] at hcs
        rw [eq_dropWhile_of_append hcs.2] at hdulls
        simp only [fraction, List.cons_append,
          (takeWhile_append _ (hdulls.behind_run isInner_isDigit)).1, hempty]
        rfl
    · cases hfraction

theorem exponent_of_no_mark (h : ∀ mark ∈ cs.head?, ¬(mark = 'e' ∨ mark = 'E')) :
    exponent cs = [] := by
  cases cs with
  | nil => rfl
  | cons mark cs => exact if_neg (h mark rfl)

theorem exponent_signed {mark sign : Char} (hmark : mark = 'e' ∨ mark = 'E')
    (hsign : sign = '+' ∨ sign = '-') (cs : List Char) :
    exponent (mark :: sign :: cs) =
      if (cs.takeWhile Char.isDigit).isEmpty then []
      else mark :: sign :: cs.takeWhile Char.isDigit := by
  obtain rfl | rfl := hsign <;> exact if_pos hmark

theorem exponent_unsigned {mark : Char} (hmark : mark = 'e' ∨ mark = 'E')
    (hsign : ∀ sign ∈ cs.head?, ¬(sign = '+' ∨ sign = '-')) :
    exponent (mark :: cs) =
      if (cs.takeWhile Char.isDigit).isEmpty then [] else mark :: cs.takeWhile Char.isDigit := by
  cases cs with
  | nil => exact if_pos hmark
  | cons c cs =>
    have hc : ¬(c = '+' ∨ c = '-') := hsign c rfl
    simp [exponent, hmark, hc]

theorem exponent_of_dulls (h : Dulls cs cs') (hnone : exponent cs = []) : exponent cs' = [] := by
  by_cases hmark : ∃ mark ∈ cs'.head?, mark = 'e' ∨ mark = 'E'
  case neg => exact exponent_of_no_mark fun mark hhead h => hmark ⟨mark, hhead, h⟩
  obtain ⟨mark, hhead, hmark⟩ := hmark
  obtain ⟨tail', rfl⟩ := List.head?_eq_some_iff.mp (Option.mem_def.mp hhead)
  obtain ⟨tail, rfl, hdulls⟩ := h.head (by obtain rfl | rfl := hmark <;> exact .inl rfl)
  by_cases hsign : ∃ sign ∈ tail'.head?, sign = '+' ∨ sign = '-'
  · obtain ⟨sign, hhead, hsign⟩ := hsign
    obtain ⟨digits', rfl⟩ := List.head?_eq_some_iff.mp (Option.mem_def.mp hhead)
    have hdigits : digits'.takeWhile Char.isDigit = [] := by
      cases hdulls with
      | dead _ hdead =>
        obtain ⟨-, -, hdigits⟩ := hdead sign rfl
        exact (takeWhile_of_head (hdigits (.inr hsign))).1
      | same _ hmore =>
        rw [exponent_signed hmark hsign] at hnone
        exact hmore.takeWhile_eq_nil isInner_isDigit (by simpa using hnone)
    rw [exponent_signed hmark hsign, if_pos (List.isEmpty_iff.mpr hdigits)]
  · have hdigits : ∀ c ∈ tail.head?, c.isDigit = false := by
      intro c hc
      by_cases hsign' : c = '+' ∨ c = '-'
      · obtain rfl | rfl := hsign' <;> rfl
      · have hunsigned : ∀ sign ∈ tail.head?, ¬(sign = '+' ∨ sign = '-') := by
          rw [Option.mem_def.mp hc]
          rintro _ ⟨⟩
          exact hsign'
        rw [exponent_unsigned hmark hunsigned] at hnone
        exact not_of_takeWhile_eq_nil (by simpa using hnone) c hc
    rw [exponent_unsigned hmark fun sign hhead h => hsign ⟨sign, hhead, h⟩,
      (takeWhile_of_head (hdulls.not_inner isInner_isDigit hdigits)).1]
    rfl

theorem exponent_append (hcs : cs = exponent cs ++ rest) (hdulls : Dulls rest rest') :
    exponent (exponent cs ++ rest') = exponent cs := by
  by_cases hnone : exponent cs = []
  · rw [hnone, List.nil_append] at hcs ⊢
    exact exponent_of_dulls hdulls (hcs ▸ hnone)
  have hmark : ∃ mark ∈ cs.head?, mark = 'e' ∨ mark = 'E' := by
    by_contra hmark
    exact hnone (exponent_of_no_mark fun mark hhead h => hmark ⟨mark, hhead, h⟩)
  obtain ⟨mark, hhead, hmark⟩ := hmark
  obtain ⟨tail, rfl⟩ := List.head?_eq_some_iff.mp (Option.mem_def.mp hhead)
  by_cases hsign : ∃ sign ∈ tail.head?, sign = '+' ∨ sign = '-'
  · obtain ⟨sign, hhead, hsign⟩ := hsign
    obtain ⟨digits, rfl⟩ := List.head?_eq_some_iff.mp (Option.mem_def.mp hhead)
    rw [exponent_signed hmark hsign] at hnone hcs ⊢
    split at hnone
    · exact absurd rfl hnone
    · rename_i hdigits
      rw [if_neg hdigits] at hcs ⊢
      simp only [List.cons_append, List.cons.injEq, true_and] at hcs
      rw [eq_dropWhile_of_append hcs] at hdulls
      rw [List.cons_append, List.cons_append, exponent_signed hmark hsign,
        (takeWhile_append _ (hdulls.behind_run isInner_isDigit)).1, if_neg hdigits]
  · have hunsigned : ∀ sign ∈ tail.head?, ¬(sign = '+' ∨ sign = '-') :=
      fun sign hhead h => hsign ⟨sign, hhead, h⟩
    rw [exponent_unsigned hmark hunsigned] at hnone hcs ⊢
    split at hnone
    · exact absurd rfl hnone
    · rename_i hdigits
      rw [if_neg hdigits] at hcs ⊢
      simp only [List.cons_append, List.cons.injEq, true_and] at hcs
      rw [eq_dropWhile_of_append hcs] at hdulls
      have hunsigned' : ∀ sign ∈ (tail.takeWhile Char.isDigit ++ rest').head?,
          ¬(sign = '+' ∨ sign = '-') := by
        rw [List.head?_append_of_ne_nil _ (by simpa using hdigits)]
        intro sign hhead
        have hdigit := List.all_eq_true.mp List.all_takeWhile sign
          (List.mem_of_mem_head? (Option.mem_def.mp hhead))
        rintro (rfl | rfl) <;> cases hdigit
      rw [List.cons_append, exponent_unsigned hmark hunsigned',
        (takeWhile_append _ (hdulls.behind_run isInner_isDigit)).1, if_neg hdigits]

theorem decimal_append (hdulls : Dulls (number.decimal c cs).rest rest') :
    number.decimal c ((number.decimal c cs).text.tail ++ rest') =
      { number.decimal c cs with rest := rest' } := by
  simp only [number.decimal, List.tail_cons] at hdulls ⊢
  generalize hfraction : fraction (cs.dropWhile Char.isDigit) = front at hdulls ⊢
  have hdigits := append_drop_of_isFront (fraction_isFront (cs.dropWhile Char.isDigit))
  rw [hfraction] at hdigits
  generalize (cs.dropWhile Char.isDigit).drop front.length = afterFraction at hdulls hdigits ⊢
  have hexponent := append_drop_of_isFront (exponent_isFront afterFraction)
  have hafterFraction : Dulls afterFraction (exponent afterFraction ++ rest') := by
    nth_rewrite 1 [← hexponent]
    exact hdulls.append _
  have hafterDigits : Dulls (cs.dropWhile Char.isDigit)
      (front ++ (exponent afterFraction ++ rest')) := by
    rw [← hdigits]
    exact hafterFraction.append _
  obtain ⟨htake, hdrop⟩ := takeWhile_append cs (hafterDigits.behind_run isInner_isDigit)
  have hfraction' : fraction (front ++ (exponent afterFraction ++ rest')) = front := by
    rw [← hfraction] at hdigits ⊢
    exact fraction_append hdigits.symm hafterFraction
  simp only [List.append_assoc, htake, hdrop, hfraction', List.drop_left,
    exponent_append hexponent.symm hdulls]

theorem number_eq_decimal
    (h : ∀ hex, c = '0' → cs = 'x' :: hex → hex.takeWhile isHexDigit = []) :
    number c cs = number.decimal c cs := by
  unfold number
  split
  · rename_i hex
    rw [if_pos (List.isEmpty_iff.mpr (h hex rfl rfl))]
  · rfl

theorem number_append (hdulls : Dulls (number c cs).rest rest') :
    number c ((number c cs).text.tail ++ rest') = { number c cs with rest := rest' } := by
  by_cases hhex : ∃ hex, c = '0' ∧ cs = 'x' :: hex ∧ hex.takeWhile isHexDigit ≠ []
  · obtain ⟨hex, rfl, rfl, hhex⟩ := hhex
    have hnumber (hex : List Char) (hhex : hex.takeWhile isHexDigit ≠ []) :
        number '0' ('x' :: hex) = (Lexeme.run .number isHexDigit 'x' hex).prepend ['0'] :=
      if_neg (by simpa using hhex)
    rw [hnumber hex hhex] at hdulls ⊢
    have hstop : ∀ c ∈ rest'.head?, isHexDigit c = false :=
      Dulls.behind_run (show Dulls (hex.dropWhile isHexDigit) rest' from hdulls) isInner_isHexDigit
    have htext : ((Lexeme.run .number isHexDigit 'x' hex).prepend ['0']).text.tail ++ rest' =
        'x' :: (hex.takeWhile isHexDigit ++ rest') := rfl
    rw [htext, hnumber _ (by rwa [(takeWhile_append hex hstop).1]),
      run_append .number 'x' hex hstop]
    rfl
  · have hdecimal (hex : List Char) (hc : c = '0') (hcs : cs = 'x' :: hex) :
        hex.takeWhile isHexDigit = [] :=
      Classical.byContradiction fun hne => hhex ⟨hex, hc, hcs, hne⟩
    rw [number_eq_decimal hdecimal] at hdulls ⊢
    have hcuts : (number.decimal c cs).text.tail ++ (number.decimal c cs).rest = cs :=
      (List.cons.inj (cuts_decimal c cs)).2
    have hall := hdulls.append (number.decimal c cs).text.tail
    rw [hcuts] at hall
    rw [← decimal_append hdulls, number_eq_decimal]
    intro hex' hc hcs'
    rw [hcs'] at hall
    obtain ⟨hex, hcs, hhex'⟩ := hall.head (.inl rfl)
    exact hhex'.takeWhile_eq_nil isInner_isHexDigit (hdecimal _ hc hcs)

-- ---------------------------------------------------------------------------
-- Literals
-- ---------------------------------------------------------------------------

/-- No piece of a literal on one line stands in front of the text, nor does its closing quote. -/
def QuotedStuck (kind : Kind) (quote : Char) (cs : List Char) : Prop :=
  quoted kind quote cs = ⟨.error, [], cs⟩

def MultilineStuck (cs : List Char) : Prop := multiline cs = ⟨.error, [], cs⟩

/-- Where a literal was unfinished it stays so. -/
structure StaysStuck (cs cs' : List Char) : Prop where
  quoted : ∀ kind quote, quote ≠ '\\' → QuotedStuck kind quote cs → QuotedStuck kind quote cs'
  multiline : MultilineStuck cs → MultilineStuck cs'

theorem staysStuck_nil (cs : List Char) : StaysStuck cs [] := ⟨fun _ _ _ _ => rfl, fun _ => rfl⟩

/-- An unfinished literal on one line ends where no piece of it follows. -/
theorem quotedStuck_rest {quote : Char} (hkind : kind ≠ .error)
    (h : (quoted kind quote cs).kind = .error) :
    QuotedStuck kind quote (quoted kind quote cs).rest := by
  fun_induction quoted kind quote cs with
  | case1 => rfl
  | case2 => rfl
  | case3 c cs hc ih => exact ih h
  | case4 => exact absurd h hkind
  | case5 c cs hescape hquote hstop =>
    rw [QuotedStuck, quoted.eq_3 _ _ _ _ hescape, if_neg hquote, if_pos hstop]
  | case6 c cs _ _ _ ih => exact ih h

theorem multilineStuck_rest (h : (multiline cs).kind = .error) :
    MultilineStuck (multiline cs).rest := by
  fun_induction multiline cs
  case case2 => cases h
  case case3 ih | case5 ih | case8 ih | case10 ih => exact ih h
  all_goals rfl

theorem quoted_append {quote : Char} (hquote : quote ≠ '\\') (hkind : kind ≠ .error)
    (hstuck : (quoted kind quote cs).kind = .error →
      StaysStuck (quoted kind quote cs).rest rest') :
    quoted kind quote ((quoted kind quote cs).text ++ rest') =
      { quoted kind quote cs with rest := rest' } := by
  have hstuck' (h : (quoted kind quote cs).kind = .error) : QuotedStuck kind quote rest' :=
    (hstuck h).quoted _ _ hquote (quotedStuck_rest hkind h)
  clear hstuck
  fun_induction quoted kind quote cs with
  | case1 => exact hstuck' rfl
  | case2 cs => exact hstuck' rfl
  | case3 c cs hc ih =>
    simp only [Lexeme.prepend, List.cons_append, List.nil_append] at hstuck' ⊢
    rw [quoted, if_neg hc, ih hstuck']
    rfl
  | case4 cs hescape =>
    rw [List.cons_append, quoted.eq_3 _ _ _ _ fun _ _ hc => absurd hc hquote, if_pos rfl]
    rfl
  | case5 c cs hescape hquote hstop => exact hstuck' rfl
  | case6 c cs hescape hquote hstop ih =>
    simp only [Lexeme.prepend, List.cons_append, List.nil_append] at hstuck' ⊢
    rw [quoted.eq_3 _ _ _ _ fun _ _ hc => absurd (.inl hc) hstop, if_neg hquote, if_neg hstop,
      ih hstuck']
    rfl

theorem multiline_append
    (hstuck : (multiline cs).kind = .error → StaysStuck (multiline cs).rest rest') :
    multiline ((multiline cs).text ++ rest') = { multiline cs with rest := rest' } := by
  have hstuck' (h : (multiline cs).kind = .error) : MultilineStuck rest' :=
    (hstuck h).multiline (multilineStuck_rest h)
  have hne {q c : Char} {cs : List Char} (hend : c = q → cs = [] → False)
      (hmore : ∀ d more, c = q → cs = d :: more → False) : c ≠ q := by
    intro hc
    cases cs with
    | nil => exact hend hc rfl
    | cons d more => exact hmore d more hc rfl
  clear hstuck
  fun_induction multiline cs
  case case2 => rfl
  case case3 c cs hc ih =>
    simp only [Lexeme.prepend, List.cons_append, List.nil_append] at hstuck' ⊢
    rw [multiline.eq_3 _ _ hc, ih hstuck']
    rfl
  case case5 c cs _ hquote hend ih =>
    have hc : c ≠ '"' := hne hend hquote
    simp only [Lexeme.prepend, List.cons_append, List.nil_append] at hstuck' ⊢
    rw [multiline.eq_5 _ _ (fun _ h => absurd h hc) (fun _ _ h => absurd h hc)
      (fun h => absurd h hc), ih hstuck']
    rfl
  case case8 c cs hc ih =>
    simp only [Lexeme.prepend, List.cons_append, List.nil_append] at hstuck' ⊢
    rw [multiline.eq_7, if_neg hc, ih hstuck']
    rfl
  case case10 c cs _ _ _ hquote hend hescape hend' ih =>
    have hc : c ≠ '"' := hne hend hquote
    have hc' : c ≠ '\\' := hne hend' hescape
    simp only [Lexeme.prepend, List.cons_append, List.nil_append] at hstuck' ⊢
    rw [multiline.eq_9 _ _ (fun _ h => absurd h hc) (fun _ _ h => absurd h hc)
      (fun h => absurd h hc) (fun _ _ h => absurd h hc) (fun h => absurd h hc)
      (fun _ _ h => absurd h hc') (fun h => absurd h hc'), ih hstuck']
    rfl
  all_goals exact hstuck' rfl

-- ---------------------------------------------------------------------------
-- Words
-- ---------------------------------------------------------------------------

theorem text_lexeme_eq_cons (c : Char) (cs : List Char) :
    (lexeme c cs).text = c :: (lexeme c cs).text.tail ∧
      (lexeme c cs).text.tail ++ (lexeme c cs).rest = cs := by
  have hcuts : (lexeme c cs).text ++ (lexeme c cs).rest = c :: cs := cuts_lexeme c cs
  obtain ⟨first, text, htext⟩ := List.exists_cons_of_ne_nil (text_lexeme_ne_nil c cs)
  rw [htext, List.cons_append, List.cons.injEq] at hcuts
  rw [htext, hcuts.1]
  exact ⟨rfl, hcuts.2⟩

/-- Neither white space nor a comment starts here. -/
structure StartsWord (c : Char) (cs : List Char) : Prop where
  space : ¬isSpace c = true
  lineComment : ¬(c = '-' ∧ cs.head? = some '-')
  blockComment : ¬(c = '{' ∧ cs.head? = some '-')

theorem startsWord_of_kind (h : (lexeme c cs).kind.isTrivia = false) : StartsWord c cs := by
  unfold lexeme at h
  split at h
  · cases h
  split at h
  · cases h
  split at h
  · rw [Lexeme.prepend, kind_blockComment] at h
    cases h
  · exact ⟨‹_›, ‹_›, ‹_›⟩

theorem StartsWord.isTrivia (h : StartsWord c cs) : (lexeme c cs).kind.isTrivia = false := by
  have hliteral {kind kind' : Kind} (hkind : kind' = kind ∨ kind' = .error)
      (hword : kind.isTrivia = false) : kind'.isTrivia = false := by
    obtain rfl | rfl := hkind
    · exact hword
    · rfl
  refine lexeme_cases (P := (·.kind.isTrivia = false)) (absurd · h.space) ?lineComment ?blockComment
    ?word (fun _ => rfl) ?number ?multiline ?string ?char ?symbol ?other
  case lineComment =>
    rintro rest hc rfl
    exact absurd ⟨hc, rfl⟩ h.lineComment
  case blockComment =>
    rintro rest hc rfl
    exact absurd ⟨hc, rfl⟩ h.blockComment
  case word =>
    intro _
    unfold wordKind
    split <;> rfl
  case symbol =>
    intro _
    unfold symbolKind
    split <;> rfl
  case number =>
    intro _
    rw [kind_number]
    rfl
  case multiline => exact fun rest _ _ => hliteral (kind_multiline rest) rfl
  case string => exact fun _ => hliteral (kind_quoted .string '"' cs) rfl
  case char => exact fun _ => hliteral (kind_quoted .char '\'' cs) rfl
  case other =>
    unfold Lexeme.single punctuationKind?
    split <;> rfl

/-- The second text may stand behind the lexeme in place of the one that does: no number, no name
and no operator goes on with it, and no comment is opened. -/
structure Lexeme.Keeps (l : Lexeme) (rest' : List Char) : Prop where
  dulls : Dulls l.rest rest'
  name : (∀ c ∈ l.text.head?, c.isAlpha = true) → (∀ c ∈ l.rest.head?, isNameChar c = false) →
    ∀ c ∈ rest'.head?, isNameChar c = false
  symbol : (∀ c ∈ l.text.head?, isSymbol c = true) → (∀ c ∈ l.rest.head?, isSymbol c = false) →
    ∀ c ∈ rest'.head?, isSymbol c = false
  hyphen : l.text = ['-'] ∨ l.text = ['{'] → rest'.head? = some '-' → l.rest.head? = some '-'
  stuck : l.kind = .error → StaysStuck l.rest rest'

/-- A text that starts with the same character gives no more to go on with. -/
theorem Lexeme.Keeps.of_head? {l : Lexeme} (hdulls : Dulls l.rest rest')
    (hhead : rest'.head? = l.rest.head?) (hstuck : l.kind = .error → StaysStuck l.rest rest') :
    l.Keeps rest' where
  dulls := hdulls
  name _ hrest := hhead ▸ hrest
  symbol _ hrest := hhead ▸ hrest
  hyphen _ hhyphen := hhead ▸ hhyphen
  stuck := hstuck

theorem StartsWord.keeps (h : StartsWord c cs) (hkeeps : (lexeme c cs).Keeps rest') :
    StartsWord c ((lexeme c cs).text.tail ++ rest') := by
  obtain ⟨htext, hcuts⟩ := text_lexeme_eq_cons c cs
  have hhead (hc : c = '-' ∨ c = '{')
      (hhyphen : ((lexeme c cs).text.tail ++ rest').head? = some '-') : cs.head? = some '-' := by
    rw [← hcuts]
    cases htail : (lexeme c cs).text.tail with
    | nil =>
      rw [htail] at htext hhyphen
      exact hkeeps.hyphen (by obtain rfl | rfl := hc <;> simp [htext]) hhyphen
    | cons d tail =>
      rw [htail] at hhyphen
      exact hhyphen
  exact ⟨h.space, fun ⟨hc, hhyphen⟩ => h.lineComment ⟨hc, hhead (.inl hc) hhyphen⟩,
    fun ⟨hc, hhyphen⟩ => h.blockComment ⟨hc, hhead (.inr hc) hhyphen⟩⟩

theorem string_append (h : (lexeme '"' cs).Keeps rest') :
    lexeme '"' ((lexeme '"' cs).text.tail ++ rest') = { lexeme '"' cs with rest := rest' } := by
  have hstring (cs : List Char) (hcs : ∀ more, cs ≠ '"' :: '"' :: more) :
      lexeme '"' cs = (quoted .string '"' cs).prepend ['"'] := by
    simp [lexeme, isSpace]
  by_cases hopen : ∃ more, cs = '"' :: '"' :: more
  · obtain ⟨more, rfl⟩ := hopen
    exact congrArg (Lexeme.prepend ['"', '"', '"']) (multiline_append h.stuck)
  rw [not_exists] at hopen
  rw [hstring cs hopen] at h ⊢
  have hdulls : Dulls ((quoted .string '"' cs).text ++ (quoted .string '"' cs).rest)
      ((quoted .string '"' cs).text ++ rest') := .append _ h.dulls
  rw [cuts_quoted] at hdulls
  suffices hopen' : ∀ more, (quoted .string '"' cs).text ++ rest' ≠ '"' :: '"' :: more from
    (hstring _ hopen').trans
      (congrArg (Lexeme.prepend ['"']) (quoted_append (by decide) (by decide) h.stuck))
  intro more hcs
  rw [hcs] at hdulls
  obtain ⟨first, rfl, hfirst⟩ := hdulls.head (.inr rfl)
  obtain ⟨second, rfl, -⟩ := hfirst.head (.inr rfl)
  exact absurd rfl (hopen _)

/-- A word does not depend on what stands behind it, as long as that keeps it. -/
theorem lexeme_append (hstarts : StartsWord c cs) (h : (lexeme c cs).Keeps rest') :
    lexeme c ((lexeme c cs).text.tail ++ rest') = { lexeme c cs with rest := rest' } := by
  have hstarts' := hstarts.keeps h
  by_cases hquote : c = '"'
  · subst hquote
    exact string_append h
  rw [lexeme.eq_def c (_ ++ _), if_neg hstarts'.space, if_neg hstarts'.lineComment,
    if_neg hstarts'.blockComment]
  rw [lexeme.eq_def c cs, if_neg hstarts.space, if_neg hstarts.lineComment,
    if_neg hstarts.blockComment] at h ⊢
  by_cases hlower : c.isLower = true
  · simp only [if_pos hlower, Lexeme.run, List.tail_cons] at h ⊢
    have hfirst : ∀ d ∈ (c :: cs.takeWhile isNameChar).head?, d.isAlpha = true := by
      rintro _ ⟨⟩
      exact isAlpha_iff.mpr (.inl hlower)
    obtain ⟨htake, hdrop⟩ := takeWhile_append cs (h.name hfirst (head?_dropWhile isNameChar cs))
    rw [htake, hdrop]
  by_cases hupper : c.isUpper = true
  · simp only [if_neg hlower, if_pos hupper] at h ⊢
    have hfirst : ∀ d ∈ (c :: cs.takeWhile isNameChar).head?, d.isAlpha = true := by
      rintro _ ⟨⟩
      exact isAlpha_iff.mpr (.inr hupper)
    exact run_append .upperIdent c cs (h.name hfirst (head?_dropWhile isNameChar cs))
  by_cases hdigit : c.isDigit = true
  · simp only [if_neg hlower, if_neg hupper, if_pos hdigit] at h ⊢
    exact number_append h.dulls
  simp only [if_neg hlower, if_neg hupper, if_neg hdigit, if_neg hquote] at h ⊢
  by_cases hapostrophe : c = '\''
  · simp only [if_pos hapostrophe] at h ⊢
    exact congrArg (Lexeme.prepend ['\'']) (quoted_append (by decide) (by decide) h.stuck)
  by_cases hsymbol : isSymbol c = true
  · simp only [if_neg hapostrophe, if_pos hsymbol, Lexeme.run, List.tail_cons] at h ⊢
    have hfirst : ∀ d ∈ (c :: cs.takeWhile isSymbol).head?, isSymbol d = true := by
      rintro _ ⟨⟩
      exact hsymbol
    obtain ⟨htake, hdrop⟩ := takeWhile_append cs (h.symbol hfirst (head?_dropWhile isSymbol cs))
    rw [htake, hdrop]
  · simp only [if_neg hapostrophe, if_neg hsymbol]
    rfl

end ElmLint.Syntax

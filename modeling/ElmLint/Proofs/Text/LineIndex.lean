import ElmLint.Text.LineIndex
import Mathlib.Data.List.TakeWhile

/-!
# Offsets and positions determine each other

An offset between two characters has a position, and this position has the offset: the line holds
what was cut off in front of the offset since the last line feed, so the columns counted in front of
it are the same again.
-/

namespace ElmLint

variable {text : String} {before after : List Char} {index : LineIndex} {offset offset' : Nat}

-- ---------------------------------------------------------------------------
-- Places between characters
-- ---------------------------------------------------------------------------

theorem cutAt?_append (before after : List Char) :
    cutAt? (before ++ after) (utf8Length before) = some (before, after) := by
  induction before with
  | nil => cases after <;> rfl
  | cons c before ih =>
    obtain ⟨n, hn⟩ := Nat.exists_eq_succ_of_ne_zero (Nat.pos_iff_ne_zero.mp c.utf8Size_pos)
    have hlength : utf8Length (c :: before) = n + utf8Length before + 1 := by
      rw [utf8Length_cons, hn]
      omega
    rw [List.cons_append, hlength, cutAt?, if_pos (by omega)]
    have hrest : n + utf8Length before + 1 - c.utf8Size = utf8Length before := by omega
    rw [hrest, ih]
    rfl

theorem utf8Length_eq_utf8ByteSize (cs : List Char) :
    utf8Length cs = (String.ofList cs).utf8ByteSize := by
  induction cs with
  | nil => rfl
  | cons c cs ih =>
    rw [utf8Length_cons, ih, String.ofList_cons, String.utf8ByteSize_append,
      String.utf8ByteSize_singleton]

/-- A place with whole characters in front of it is a place between characters. -/
theorem isValid_of_append (h : text.toList = before ++ after) :
    String.Pos.Raw.IsValid text ⟨utf8Length before⟩ := by
  refine String.Pos.Raw.isValid_iff_exists_append.mpr
    ⟨String.ofList before, String.ofList after, ?_, ?_⟩
  · rw [← String.ofList_append, ← h, String.ofList_toList]
  · rw [utf8Length_eq_utf8ByteSize]
    rfl

namespace LineIndex

/-- The position behind the characters in front. -/
def positionAfter (before : List Char) : Position :=
  ⟨before.count '\n', utf16Length (lastLine before)⟩

theorem position?_of_append (h : index.text = before ++ after) :
    index.position? (utf8Length before) = some (positionAfter before) := by
  rw [position?, h, cutAt?_append]
  rfl

-- ---------------------------------------------------------------------------
-- Lines
-- ---------------------------------------------------------------------------

theorem ne_lineFeed_of_not_mem (h : '\n' ∉ before) :
    ∀ c ∈ before.reverse, (c != '\n') = true := by
  intro c hc
  have hmem := List.mem_reverse.mp hc
  simpa using fun heq : c = '\n' => h (heq ▸ hmem)

theorem lastLine_of_not_mem (h : '\n' ∉ before) : lastLine before = before := by
  rw [lastLine, List.takeWhile_eq_self_iff.mpr (ne_lineFeed_of_not_mem h), List.reverse_reverse]

theorem lastLine_append_of_mem (front : List Char) (h : '\n' ∈ before) :
    lastLine (front ++ before) = lastLine before := by
  rw [lastLine, lastLine, List.reverse_append, List.takeWhile_append, if_neg]
  intro hlength
  have heq := (List.takeWhile_prefix (· != '\n')).eq_of_length hlength
  have hnot := List.mem_takeWhile_imp (heq.symm ▸ List.mem_reverse.mpr h)
  simp at hnot

theorem lastLine_append_of_not_mem (front : List Char) (h : '\n' ∉ before) :
    lastLine (front ++ before) = lastLine front ++ before := by
  rw [lastLine, List.reverse_append, List.takeWhile_append_of_pos (ne_lineFeed_of_not_mem h),
    List.reverse_append, List.reverse_reverse]
  rfl

theorem lineFeed_not_mem_lastLine (before : List Char) : '\n' ∉ lastLine before := by
  intro h
  have hnot := List.mem_takeWhile_imp (List.mem_reverse.mp h)
  simp at hnot

/-- The place behind `before`, seen from the lines: their text up to there, and the line that goes
on. -/
theorem linesOf_append (before after : List Char) :
    ∃ front line lines, linesOf (before ++ after) = front ++ (lastLine before ++ line) :: lines ∧
      front.length = before.count '\n' ∧ front.flatten ++ lastLine before = before := by
  induction before with
  | nil =>
    have hne : linesOf after ≠ [] := by
      unfold linesOf
      repeat' split
      all_goals exact List.cons_ne_nil _ _
    obtain ⟨line, lines, hlines⟩ := List.exists_cons_of_ne_nil hne
    exact ⟨[], line, lines, hlines, rfl, rfl⟩
  | cons c before ih =>
    obtain ⟨front, line, lines, hlines, hcount, hfront⟩ := ih
    rw [List.cons_append, linesOf, hlines]
    by_cases hc : c = '\n'
    · subst hc
      have hlast : lastLine ('\n' :: before) = lastLine before := by
        by_cases hmem : '\n' ∈ before
        · exact lastLine_append_of_mem ['\n'] hmem
        · rw [lastLine_of_not_mem hmem]
          exact lastLine_append_of_not_mem ['\n'] hmem
      refine ⟨['\n'] :: front, line, lines, ?_, ?_, ?_⟩
      · rw [if_pos rfl, hlast]
        rfl
      · rw [List.length_cons, hcount, List.count_cons_self]
      · rw [hlast, List.flatten_cons, List.append_assoc, hfront]
        rfl
    rw [if_neg hc]
    have hcount' : (c :: before).count '\n' = before.count '\n' :=
      List.count_cons_of_ne (by simpa using hc)
    cases front with
    | nil =>
      have hmem : '\n' ∉ before := List.count_eq_zero.mp hcount.symm
      have hmem' : '\n' ∉ c :: before := by simpa [Ne.symm hc] using hmem
      refine ⟨[], line, lines, ?_, hcount.trans hcount'.symm, ?_⟩
      · rw [lastLine_of_not_mem hmem, lastLine_of_not_mem hmem']
        rfl
      · rw [lastLine_of_not_mem hmem']
        rfl
    | cons first front =>
      have hmem : '\n' ∈ before := by
        rw [← List.count_pos_iff, ← hcount]
        exact Nat.succ_pos _
      have hlast : lastLine (c :: before) = lastLine before := lastLine_append_of_mem [c] hmem
      refine ⟨(c :: first) :: front, line, lines, ?_, ?_, ?_⟩
      · rw [hlast]
        rfl
      · rw [hcount', ← hcount]
        rfl
      · rw [hlast]
        exact congrArg (c :: ·) hfront

theorem columnOffset_append (h : '\n' ∉ before) (after : List Char) :
    columnOffset (before ++ after) (utf16Length before) = utf8Length before := by
  induction before with
  | nil => cases after <;> simp [columnOffset, utf16Length]
  | cons c before ih =>
    obtain ⟨hc, hbefore⟩ := not_or.mp (List.mem_cons.not.mp h)
    have hpos : 0 < utf16Size c := by
      unfold utf16Size
      split <;> decide
    rw [List.cons_append, columnOffset, if_neg, utf16Length, Nat.add_sub_cancel_left, ih hbefore]
    · rfl
    · rw [utf16Length]
      rintro (hzero | heq)
      · omega
      · exact hc heq.symm

theorem offset?_positionAfter (h : index.text = before ++ after) :
    index.offset? (positionAfter before) = some (utf8Length before) := by
  obtain ⟨front, line, lines, hlines, hcount, hfront⟩ := linesOf_append before after
  have htake : index.lines.take (before.count '\n') = front := by
    rw [LineIndex.lines, h, hlines, ← hcount, List.take_left]
  have hline : index.lines[before.count '\n']? = some (lastLine before ++ line) := by
    rw [LineIndex.lines, h, hlines, ← hcount, List.getElem?_append_right (Nat.le_refl _),
      Nat.sub_self]
    rfl
  rw [offset?, positionAfter, htake, hline, Option.map_some,
    columnOffset_append (lineFeed_not_mem_lastLine before), ← utf8Length_append, hfront]

-- ---------------------------------------------------------------------------
-- Spans
-- ---------------------------------------------------------------------------

theorem positionAfter_le (before further : List Char) :
    positionAfter before ≤ positionAfter (before ++ further) := by
  by_cases h : '\n' ∈ further
  · refine .inl ?_
    have := List.count_pos_iff.mpr h
    simp only [positionAfter, List.count_append]
    omega
  · refine .inr ⟨?_, ?_⟩
    · simp [positionAfter, List.count_eq_zero.mpr h]
    · have happend (a b : List Char) : utf16Length (a ++ b) = utf16Length a + utf16Length b := by
        induction a with
        | nil => exact (Nat.zero_add _).symm
        | cons c a ih => simp only [List.cons_append, utf16Length, ih, Nat.add_assoc]
      simp only [positionAfter, lastLine_append_of_not_mem before h, happend]
      exact Nat.le_add_right _ _

/-- Of two places between characters, the first has the characters in front of it in common with
the second. -/
theorem isPrefix_of_utf8Length_le {a b a' b' : List Char} (h : a ++ b = a' ++ b')
    (hle : utf8Length a ≤ utf8Length a') : a <+: a' := by
  obtain h' | h' := List.prefix_or_prefix_of_prefix (List.prefix_append a b)
    (h ▸ List.prefix_append a' b')
  · exact h'
  · obtain ⟨more, rfl⟩ := h'
    cases more with
    | nil => exact ⟨[], by simp⟩
    | cons c more =>
      have := c.utf8Size_pos
      simp only [utf8Length_append, utf8Length_cons] at hle
      omega

/-- The offset is one between two characters, or at an end of the text. -/
def IsBoundary (index : LineIndex) (offset : Nat) : Prop :=
  ∃ before after, index.text = before ++ after ∧ offset = utf8Length before

theorem isBoundary_iff_isValid :
    (LineIndex.ofText text).IsBoundary offset ↔ String.Pos.Raw.IsValid text ⟨offset⟩ := by
  refine ⟨?_, fun h => ?_⟩
  · rintro ⟨before, after, htext, rfl⟩
    exact isValid_of_append htext
  · obtain ⟨before, after, rfl, hoffset⟩ := String.Pos.Raw.isValid_iff_exists_append.mp h
    refine ⟨before.toList, after.toList, String.toList_append, ?_⟩
    rw [utf8Length_eq_utf8ByteSize, String.ofList_toList]
    exact congrArg String.Pos.Raw.byteIdx hoffset

theorem position_le_antisymm {p p' : Position} (h : p ≤ p') (h' : p' ≤ p) : p = p' := by
  have hle : p.line < p'.line ∨ p.line = p'.line ∧ p.column ≤ p'.column := h
  have hge : p'.line < p.line ∨ p'.line = p.line ∧ p'.column ≤ p.column := h'
  have hline : p.line = p'.line := by omega
  have hcolumn : p.column = p'.column := by omega
  cases p
  cases p'
  subst hline hcolumn
  rfl

/-- Positions are ordered as the offsets that they stand for. -/
theorem position?_le_iff {p p' : Position} (hp : index.position? offset = some p)
    (hp' : index.position? offset' = some p') (h : index.IsBoundary offset)
    (h' : index.IsBoundary offset') : p ≤ p' ↔ offset ≤ offset' := by
  obtain ⟨before, after, htext, rfl⟩ := h
  obtain ⟨before', after', htext', rfl⟩ := h'
  rw [position?_of_append htext, Option.some.injEq] at hp
  rw [position?_of_append htext', Option.some.injEq] at hp'
  subst hp hp'
  have hmono {a b a' b' : List Char} (htext : index.text = a ++ b)
      (htext' : index.text = a' ++ b') (hle : utf8Length a ≤ utf8Length a') :
      positionAfter a ≤ positionAfter a' := by
    obtain ⟨further, rfl⟩ := isPrefix_of_utf8Length_le (htext.symm.trans htext') hle
    exact positionAfter_le a further
  refine ⟨fun hle => ?_, hmono htext htext'⟩
  by_contra hlt
  have hequal := position_le_antisymm hle (hmono htext' htext (Nat.le_of_not_le hlt))
  have hoffset := offset?_positionAfter htext
  rw [hequal, offset?_positionAfter htext', Option.some.injEq] at hoffset
  exact hlt (Nat.le_of_eq hoffset.symm)

/-- A range between characters has a span, and this span has the range. -/
theorem range?_of_isBoundary {range : ByteRange} (hstart : index.IsBoundary range.start)
    (hstop : index.IsBoundary range.stop) (hle : range.start ≤ range.stop) :
    ∃ span, index.span? range = some span ∧ index.range? span = some range := by
  obtain ⟨before, after, htext, hbefore⟩ := hstart
  obtain ⟨before', after', htext', hbefore'⟩ := hstop
  refine ⟨⟨positionAfter before, positionAfter before'⟩, ?_, ?_⟩
  · rw [span?, hbefore, hbefore', position?_of_append htext, position?_of_append htext']
    exact if_pos (hbefore ▸ hbefore' ▸ hle)
  · simp only [range?, offset?_positionAfter htext, offset?_positionAfter htext', ← hbefore,
      ← hbefore', if_pos hle]

end LineIndex

end ElmLint

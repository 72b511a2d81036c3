import ElmLint.Proofs.Text.LineIndex
import Mathlib.Order.Bounds.Defs

/-!
# Every position stands for a place on its line

A position may name any column of its line: one inside a character, or one past the end. It stands
for the first place at or behind that column, and for the end of the line if there is none. The
places between characters are the positions that stand for themselves, in the order of their offsets.
-/

namespace ElmLint.LineIndex

variable {text : String} {index : LineIndex} {cs line : List Char} {i wanted column : Nat}

-- ---------------------------------------------------------------------------
-- Lines
-- ---------------------------------------------------------------------------

/-- The lines with their line feeds and the lines between the line feeds are the same lines. -/
theorem exists_lines (cs : List Char) :
    ∃ ended last, linesOf cs = ended.map (· ++ ['\n']) ++ [last] ∧
      cs.splitOn '\n' = ended ++ [last] ∧ ∀ line ∈ ended ++ [last], '\n' ∉ line := by
  induction cs with
  | nil => exact ⟨[], [], rfl, List.splitOn_nil _, by simp⟩
  | cons c cs ih =>
    obtain ⟨ended, last, hlines, hsplit, hclear⟩ := ih
    rw [linesOf, hlines, List.splitOn_cons_eq_if_modifyHead, hsplit]
    by_cases hc : c = '\n'
    · subst hc
      exact ⟨[] :: ended, last, rfl, rfl, List.forall_mem_cons.mpr ⟨List.not_mem_nil, hclear⟩⟩
    have hne : '\n' ≠ c := fun h => hc h.symm
    rw [if_neg hc, if_neg (by simpa using hc)]
    cases ended with
    | nil =>
      refine ⟨[], c :: last, rfl, rfl, ?_⟩
      simpa [hne] using hclear
    | cons first ended =>
      refine ⟨(c :: first) :: ended, last, rfl, rfl, ?_⟩
      simpa [hne] using hclear

/-- A line, found among the lines of the text: those in front of it all end with a line feed, and it
does too unless it is the last. -/
theorem exists_line (h : (cs.splitOn '\n')[i]? = some line) :
    ∃ (front : List (List Char)) (ending : List Char) (later : List (List Char)),
      linesOf cs = front.map (· ++ ['\n']) ++ (line ++ ending) :: later ∧ front.length = i ∧
      (∀ l ∈ front, '\n' ∉ l) ∧ '\n' ∉ line ∧ (ending = [] ∨ ending = ['\n']) := by
  obtain ⟨ended, last, hlines, hsplit, hclear⟩ := exists_lines cs
  rw [hsplit] at h
  obtain ⟨front, later, hfront, rfl⟩ : ∃ front later,
      ended ++ [last] = front ++ line :: later ∧ front.length = i := by
    obtain ⟨hi, hget⟩ := List.getElem?_eq_some_iff.mp h
    refine ⟨(ended ++ [last]).take i, (ended ++ [last]).drop (i + 1), ?_, ?_⟩
    · rw [← hget, ← List.drop_eq_getElem_cons hi, List.take_append_drop]
    · exact List.length_take_of_le (Nat.le_of_lt hi)
  rw [hfront] at hclear
  have hline : '\n' ∉ line := hclear line (by simp)
  have hclear' : ∀ l ∈ front, '\n' ∉ l := fun l hl => hclear l (List.mem_append_left _ hl)
  obtain rfl | ⟨later, last', rfl⟩ := later.eq_nil_or_concat
  · obtain ⟨rfl, hlast⟩ := List.append_inj' hfront rfl
    cases hlast
    exact ⟨ended, [], [], by simpa using hlines, rfl, hclear', hline, .inl rfl⟩
  · have hended : ended = front ++ line :: later := by
      rw [List.concat_eq_append, ← List.cons_append, ← List.append_assoc] at hfront
      exact (List.append_inj' hfront rfl).1
    refine ⟨front, ['\n'], later.map (· ++ ['\n']) ++ [last], ?_, rfl, hclear', hline, .inr rfl⟩
    rw [hlines, hended, List.map_append, List.append_assoc]
    rfl

theorem flatten_linesOf (cs : List Char) : (linesOf cs).flatten = cs := by
  induction cs with
  | nil => rfl
  | cons c cs ih =>
    obtain ⟨ended, last, hlines, -, -⟩ := exists_lines cs
    rw [linesOf]
    split
    · rw [List.flatten_cons, ih]
      rfl
    · split
      · next hnil => simp [hnil] at hlines
      · next first lines hfirst =>
        rw [hfirst] at ih
        exact congrArg (c :: ·) ih

theorem count_flatten_of_ended {lines : List (List Char)} (h : ∀ l ∈ lines, '\n' ∉ l) :
    (lines.map (· ++ ['\n'])).flatten.count '\n' = lines.length := by
  induction lines with
  | nil => rfl
  | cons first lines ih =>
    obtain ⟨hfirst, hlines⟩ := List.forall_mem_cons.mp h
    rw [List.map_cons, List.flatten_cons, List.count_append, ih hlines, List.count_append,
      List.count_eq_zero.mpr hfirst, List.length_cons, Nat.add_comm]
    rfl

theorem lastLine_flatten_of_ended (lines : List (List Char)) :
    lastLine (lines.map (· ++ ['\n'])).flatten = [] := by
  obtain rfl | ⟨lines, last, rfl⟩ := lines.eq_nil_or_concat
  · rfl
  · rw [List.concat_eq_append, List.map_append, List.flatten_append, List.map_singleton,
      List.flatten_singleton, ← List.append_assoc,
      lastLine_append_of_mem _ (List.mem_singleton_self _)]
    rfl

-- ---------------------------------------------------------------------------
-- Columns
-- ---------------------------------------------------------------------------

/-- The columns of a line that are places between its characters, or its ends. -/
def columnsOf (line : List Char) : Set Nat :=
  {column | ∃ front, front <+: line ∧ utf16Length front = column}

/-- The least column of the line that is not in front of the one wanted, or the end of the line if
all are in front of it. -/
def IsNearest (line : List Char) (wanted column : Nat) : Prop :=
  IsLeast {c ∈ columnsOf line | wanted ≤ c} column ∨
    (∀ c ∈ columnsOf line, c < wanted) ∧ column = utf16Length line

theorem mem_columnsOf_cons {c : Char} :
    column ∈ columnsOf (c :: line) ↔
      column = 0 ∨ ∃ later ∈ columnsOf line, column = utf16Size c + later := by
  constructor
  · rintro ⟨front, hprefix, rfl⟩
    obtain rfl | ⟨later, rfl, hlater⟩ := List.prefix_cons_iff.mp hprefix
    · exact .inl rfl
    · exact .inr ⟨utf16Length later, ⟨later, hlater, rfl⟩, rfl⟩
  · rintro (rfl | ⟨later, ⟨front, hfront, rfl⟩, rfl⟩)
    · exact ⟨[], List.nil_prefix, rfl⟩
    · exact ⟨c :: front, List.cons_prefix_cons.mpr ⟨rfl, hfront⟩, rfl⟩

theorem isNearest_zero (line : List Char) : IsNearest line 0 0 :=
  .inl ⟨⟨⟨[], List.nil_prefix, rfl⟩, Nat.le_refl 0⟩, fun _ _ => Nat.zero_le _⟩

/-- Behind a first character that is in front of the column wanted, the nearest column is the same
one as in the rest of the line. -/
theorem IsNearest.cons {c : Char} (hwanted : wanted ≠ 0)
    (h : IsNearest line (wanted - utf16Size c) column) :
    IsNearest (c :: line) wanted (utf16Size c + column) := by
  obtain ⟨⟨hmem, hle⟩, hleast⟩ | ⟨hbefore, rfl⟩ := h
  · refine .inl ⟨⟨mem_columnsOf_cons.mpr (.inr ⟨column, hmem, rfl⟩), by omega⟩, ?_⟩
    rintro other ⟨hother, hle'⟩
    obtain rfl | ⟨later, hlater, rfl⟩ := mem_columnsOf_cons.mp hother
    · exact absurd (Nat.le_zero.mp hle') hwanted
    · have : column ≤ later := hleast ⟨hlater, by omega⟩
      omega
  · refine .inr ⟨fun other hother => ?_, rfl⟩
    obtain rfl | ⟨later, hlater, rfl⟩ := mem_columnsOf_cons.mp hother
    · exact Nat.pos_of_ne_zero hwanted
    · have := hbefore later hlater
      omega

/-- What the offset of a column has in front of it on its line ends at the nearest column. -/
theorem exists_nearest (hline : '\n' ∉ line) {ending : List Char}
    (hending : ending = [] ∨ ending = ['\n']) (wanted : Nat) :
    ∃ front back, line = front ++ back ∧
      columnOffset (line ++ ending) wanted = utf8Length front ∧
      IsNearest line wanted (utf16Length front) := by
  induction line generalizing wanted with
  | nil =>
    refine ⟨[], [], rfl, ?_, ?_⟩
    · obtain rfl | rfl := hending
      · rfl
      · exact if_pos (.inr rfl)
    · obtain rfl | hwanted := Nat.eq_zero_or_pos wanted
      · exact isNearest_zero []
      · refine .inr ⟨?_, rfl⟩
        rintro _ ⟨front, hfront, rfl⟩
        rw [List.prefix_nil.mp hfront]
        exact hwanted
  | cons c line ih =>
    obtain ⟨hc, hline⟩ := not_or.mp (List.mem_cons.not.mp hline)
    by_cases hwanted : wanted = 0
    · subst hwanted
      exact ⟨[], c :: line, rfl, if_pos (.inl rfl), isNearest_zero _⟩
    · obtain ⟨front, back, hcut, hoffset, hnearest⟩ := ih hline (wanted - utf16Size c)
      refine ⟨c :: front, back, congrArg (c :: ·) hcut, ?_, hnearest.cons hwanted⟩
      rw [List.cons_append, columnOffset, if_neg (not_or.mpr ⟨hwanted, fun h => hc h.symm⟩),
        hoffset, utf8Length_cons]

-- ---------------------------------------------------------------------------
-- Positions
-- ---------------------------------------------------------------------------

/-- A position on a line has an offset, and the position there is the nearest on that line. -/
theorem exists_offset_of_line {p : Position} (h : (index.text.splitOn '\n')[p.line]? = some line) :
    ∃ offset column, index.offset? p = some offset ∧
      index.position? offset = some ⟨p.line, column⟩ ∧ IsNearest line p.column column := by
  obtain ⟨front, ending, later, hlines, hlength, hfront, hline, hending⟩ := exists_line h
  obtain ⟨before, after, hcut, hoffset, hnearest⟩ := exists_nearest hline hending p.column
  have hlength' : (front.map (· ++ ['\n'])).length = p.line := by rw [List.length_map, hlength]
  have htext : index.text =
      ((front.map (· ++ ['\n'])).flatten ++ before) ++ (after ++ ending ++ later.flatten) := by
    rw [← flatten_linesOf index.text, hlines, List.flatten_append, List.flatten_cons, hcut]
    simp only [List.append_assoc]
  have hbefore : '\n' ∉ before := fun hmem => hline (hcut ▸ List.mem_append_left after hmem)
  refine ⟨_, utf16Length before, ?_, (position?_of_append htext).trans ?_, hnearest⟩
  · rw [offset?, LineIndex.lines, hlines, ← hlength', List.take_left,
      List.getElem?_append_right (Nat.le_refl _), Nat.sub_self, utf8Length_append]
    exact congrArg (fun bytes => some (_ + bytes)) hoffset
  · rw [positionAfter, List.count_append, count_flatten_of_ended hfront,
      List.count_eq_zero.mpr hbefore, hlength, lastLine_append_of_not_mem _ hbefore,
      lastLine_flatten_of_ended]
    rfl

theorem length_splitOn (cs : List Char) : (cs.splitOn '\n').length = cs.count '\n' + 1 := by
  obtain ⟨ended, last, hlines, hsplit, hclear⟩ := exists_lines cs
  have hended : ∀ l ∈ ended, '\n' ∉ l := fun l hl => hclear l (List.mem_append_left _ hl)
  have hlast : '\n' ∉ last := hclear last (by simp)
  have htext : cs = (ended.map (· ++ ['\n'])).flatten ++ last := by
    rw [← flatten_linesOf cs, hlines, List.flatten_append, List.flatten_singleton]
  rw [hsplit, htext, List.count_append, count_flatten_of_ended hended, List.count_eq_zero.mpr hlast,
    List.length_append]
  rfl

theorem offset?_eq_none_iff {p : Position} :
    index.offset? p = none ↔ index.text.count '\n' < p.line := by
  have hlength := length_splitOn index.text
  constructor
  · intro hnone
    by_contra hle
    have hlt : p.line < (index.text.splitOn '\n').length := by omega
    obtain ⟨offset, -, hoffset, -, -⟩ := exists_offset_of_line (List.getElem?_eq_getElem hlt)
    rw [hnone] at hoffset
    cases hoffset
  · intro hlt
    obtain ⟨ended, last, hlines, hsplit, -⟩ := exists_lines index.text
    have hcount : index.lines.length = (index.text.splitOn '\n').length := by
      rw [LineIndex.lines, hlines, hsplit, List.length_append, List.length_append, List.length_map]
    rw [offset?, List.getElem?_eq_none (by omega)]
    rfl

theorem exists_position_of_isBoundary {offset : Nat} (h : index.IsBoundary offset) :
    ∃ p, index.position? offset = some p ∧ index.offset? p = some offset := by
  obtain ⟨before, after, htext, rfl⟩ := h
  exact ⟨positionAfter before, position?_of_append htext, offset?_positionAfter htext⟩

/-- A place further right in the text has a position further down, or further right on its line. -/
theorem exists_positions_of_lt {offset offset' : Nat} (h : index.IsBoundary offset)
    (h' : index.IsBoundary offset') (hlt : offset < offset') :
    ∃ p p', index.position? offset = some p ∧ index.position? offset' = some p' ∧
      (p.line < p'.line ∨ p.line = p'.line ∧ p.column < p'.column) := by
  obtain ⟨p, hp, -⟩ := exists_position_of_isBoundary h
  obtain ⟨p', hp', -⟩ := exists_position_of_isBoundary h'
  have hle : p.line < p'.line ∨ p.line = p'.line ∧ p.column ≤ p'.column :=
    (position?_le_iff hp hp' h h').mpr (Nat.le_of_lt hlt)
  have hnot : ¬ (p'.line < p.line ∨ p'.line = p.line ∧ p'.column ≤ p.column) :=
    (position?_le_iff hp' hp h' h).not.mpr (Nat.not_le_of_lt hlt)
  exact ⟨p, p', hp, hp', by omega⟩

/-- The offsets between characters and the positions on a line correspond to each other, in order.
Every other position on a line stands for the nearest of these, and a position below the last line
for none. -/
theorem positions_correspond (text : String) :
    (∀ offset, String.Pos.Raw.IsValid text ⟨offset⟩ →
      ∃ p, (ofText text).position? offset = some p ∧ (ofText text).offset? p = some offset) ∧
    (∀ offset offset', String.Pos.Raw.IsValid text ⟨offset⟩ →
      String.Pos.Raw.IsValid text ⟨offset'⟩ → offset < offset' →
      ∃ p p', (ofText text).position? offset = some p ∧ (ofText text).position? offset' = some p' ∧
        (p.line < p'.line ∨ p.line = p'.line ∧ p.column < p'.column)) ∧
    (∀ range : ByteRange, String.Pos.Raw.IsValid text ⟨range.start⟩ →
      String.Pos.Raw.IsValid text ⟨range.stop⟩ → range.start ≤ range.stop →
      ∃ span, (ofText text).span? range = some span ∧ (ofText text).range? span = some range) ∧
    (∀ p : Position, (ofText text).offset? p = none ↔ text.toList.count '\n' < p.line) ∧
    (∀ (p : Position) (line : List Char), (text.toList.splitOn '\n')[p.line]? = some line →
      ∃ offset column, (ofText text).offset? p = some offset ∧
        (ofText text).position? offset = some ⟨p.line, column⟩ ∧
        IsNearest line p.column column) := by
  refine ⟨fun offset h => ?_, fun offset offset' h h' hlt => ?_, fun range h h' hle => ?_,
    fun p => offset?_eq_none_iff, fun p line h => exists_offset_of_line h⟩
  · exact exists_position_of_isBoundary (isBoundary_iff_isValid.mpr h)
  · exact exists_positions_of_lt (isBoundary_iff_isValid.mpr h) (isBoundary_iff_isValid.mpr h') hlt
  · exact range?_of_isBoundary (isBoundary_iff_isValid.mpr h) (isBoundary_iff_isValid.mpr h') hle

end ElmLint.LineIndex

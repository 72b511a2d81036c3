import ElmLint.Text.Position
import ElmLint.Text.Units

/-!
# From byte offsets to lines and columns, and back

Lines end at a line feed; a text that ends with one has an empty last line. A column is the number
of UTF-16 code units before it on its line. Offsets that split a character have no position, and
positions on a line that does not exist have no offset.
-/

namespace ElmLint

/-- Cuts the characters after `n` bytes, unless that splits one; past the end, all are in front. -/
def cutAt? : List Char → Nat → Option (List Char × List Char)
  | cs, 0 => some ([], cs)
  | [], _ + 1 => some ([], [])
  | c :: cs, n + 1 =>
    if c.utf8Size ≤ n + 1 then (cutAt? cs (n + 1 - c.utf8Size)).map fun (a, b) => (c :: a, b)
    else none

/-- The lines of the text, each with its line feed; the last has none. -/
def linesOf : List Char → List (List Char)
  | [] => [[]]
  | c :: cs =>
    if c = '\n' then [c] :: linesOf cs
    else match linesOf cs with
      | [] => [[c]]
      | line :: lines => (c :: line) :: lines

structure LineIndex where
  text : List Char
  deriving DecidableEq, Repr, Inhabited

namespace LineIndex

def ofText (text : String) : LineIndex := ⟨text.toList⟩

/-- The lines of the text, each with its line feed. -/
def lines (index : LineIndex) : List (List Char) := linesOf index.text

/-- The number of lines, which is one more than the number of line feeds. -/
def lineCount (index : LineIndex) : Nat := index.lines.length

def lastLine (before : List Char) : List Char :=
  (before.reverse.takeWhile (· != '\n')).reverse

/-- The position at a byte offset. Offsets past the end stand for the end, and an offset inside a
character has no position. -/
def position? (index : LineIndex) (offset : Nat) : Option Position :=
  (cutAt? index.text offset).map fun (before, _) =>
    ⟨before.count '\n', utf16Length (lastLine before)⟩

/-- The positions of both ends of a range, unless the ends are out of order. -/
def span? (index : LineIndex) (range : ByteRange) : Option Span :=
  match index.position? range.start, index.position? range.stop with
  | some start, some stop => if range.start ≤ range.stop then some ⟨start, stop⟩ else none
  | _, _ => none

/-- Bytes of `line` in front of the first character that is at or past `column`, or of the line
feed. -/
def columnOffset : List Char → Nat → Nat
  | [], _ => 0
  | c :: cs, column =>
    if column = 0 ∨ c = '\n' then 0 else c.utf8Size + columnOffset cs (column - utf16Size c)

/-- The byte offset of a position. Columns past the end of the line stand for its end, and a line
that does not exist has no offset. -/
def offset? (index : LineIndex) (position : Position) : Option Nat :=
  (index.lines[position.line]?).map fun line =>
    utf8Length (index.lines.take position.line).flatten + columnOffset line position.column

/-- The byte range of a span, unless its ends are out of order or on no line. -/
def range? (index : LineIndex) (span : Span) : Option ByteRange :=
  match index.offset? span.start, index.offset? span.stop with
  | some start, some stop => if start ≤ stop then some ⟨start, stop⟩ else none
  | _, _ => none

end LineIndex

end ElmLint

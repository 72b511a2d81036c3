/-!
# Places in a text

A text is addressed in two ways: by byte offset, in half-open ranges, and by zero-based line and
column, in spans whose ends are both inside. Columns count UTF-16 code units.
-/

namespace ElmLint

/-- The bytes from `start` up to, not including, `stop`. -/
structure ByteRange where
  start : Nat
  stop : Nat
  deriving DecidableEq, Repr, Inhabited

namespace ByteRange

/-- The range that holds nothing and stands at `offset`. -/
def empty (offset : Nat) : ByteRange := ⟨offset, offset⟩

def cover (a b : ByteRange) : ByteRange := ⟨min a.start b.start, max a.stop b.stop⟩

/-- Every byte of `b` lies in `a`; an empty range lies in `a` when its offset does. -/
def contains (a b : ByteRange) : Bool := a.start ≤ b.start && b.stop ≤ a.stop

end ByteRange

structure Position where
  line : Nat
  column : Nat
  deriving DecidableEq, Repr, Inhabited

/-- Reading order: an earlier line comes first, and on one line the smaller column. -/
protected def Position.le (p q : Position) : Prop :=
  p.line < q.line ∨ p.line = q.line ∧ p.column ≤ q.column

instance : LE Position := ⟨Position.le⟩

instance (p q : Position) : Decidable (p ≤ q) :=
  inferInstanceAs (Decidable (p.line < q.line ∨ p.line = q.line ∧ p.column ≤ q.column))

/-- The text from `start` to `stop`, as an editor marks it. -/
structure Span where
  start : Position
  stop : Position
  deriving DecidableEq, Repr, Inhabited

namespace Span

def ofCoords (startLine startColumn stopLine stopColumn : Nat) : Span :=
  ⟨⟨startLine, startColumn⟩, ⟨stopLine, stopColumn⟩⟩

/-- The position is in the span; both ends count. -/
def contains (s : Span) (p : Position) : Bool := s.start ≤ p && p ≤ s.stop

/-- Both ends of `other` are in `s`. -/
def covers (s other : Span) : Bool := s.contains other.start && s.contains other.stop

end Span

end ElmLint

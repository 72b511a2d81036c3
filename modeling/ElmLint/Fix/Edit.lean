import ElmLint.Text.LineIndex

/-!
# Edits

An edit replaces a span of a text.
-/

namespace ElmLint

structure TextEdit where
  span : Span
  newText : String
  deriving DecidableEq, Repr

/-- The text after the bytes of `range` are replaced, unless an end splits a character. -/
def replaceBytes? (text : String) (range : ByteRange) (newText : String) : Option String :=
  match cutAt? text.toList range.start, cutAt? text.toList range.stop with
  | some (before, _), some (_, after) => some (String.ofList before ++ newText ++ String.ofList after)
  | _, _ => none

/-- The text after the edit, unless its span is no span of the text. -/
def TextEdit.apply? (edit : TextEdit) (text : String) : Option String :=
  ((LineIndex.ofText text).range? edit.span).bind (replaceBytes? text · edit.newText)

end ElmLint

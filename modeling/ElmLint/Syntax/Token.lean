import ElmLint.Syntax.Kind
import ElmLint.Text.Position
import ElmLint.Text.Units

/-!
# Tokens

A token is a piece of the text with its kind and the byte offset it starts at. Tokens follow each
other without gaps, so white space and comments are tokens too.
-/

namespace ElmLint.Syntax

structure Token where
  kind : Kind
  text : String
  start : Nat
  deriving DecidableEq, Repr, Inhabited

namespace Token

def length (t : Token) : Nat := utf8Length t.text.toList

def stop (t : Token) : Nat := t.start + t.length

def range (t : Token) : ByteRange := ⟨t.start, t.stop⟩

end Token

end ElmLint.Syntax

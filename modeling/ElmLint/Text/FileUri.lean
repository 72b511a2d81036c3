/-!
# File addresses

An editor names a document by a URI. Paths are only ever joined onto a directory, so a URI is its
text.
-/

namespace ElmLint

/-- The address of one document, such as `file:///project/src/Main.elm`. -/
structure FileUri where
  text : String
  deriving DecidableEq, Hashable, Repr, Inhabited

namespace FileUri

/-- The address of `relative` under the directory `base`, with one slash between them however many
`base` ends with. -/
def join (base : FileUri) (relative : String) : FileUri :=
  ⟨String.ofList ((base.text.toList.reverse.dropWhile (· == '/')).reverse) ++ "/" ++ relative⟩

/-- Addresses are ordered by their texts, code point by code point. -/
protected def le (a b : FileUri) : Bool := decide (a.text ≤ b.text)

def sort (uris : List FileUri) : List FileUri := uris.mergeSort FileUri.le

end FileUri

end ElmLint

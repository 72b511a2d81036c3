import ElmLint.Syntax.Grammar.File

/-!
# Parsing a text

Every text has a tree. A text that does not follow the grammar has errors beside it.
-/

namespace ElmLint.Syntax

/-- The tree of a text and its syntax errors, in the order they were met. -/
structure Parse where
  tree : Tree
  errors : List SyntaxError
  deriving Repr

def Parse.ok (p : Parse) : Bool := p.errors.isEmpty

def Cursor.start (tokens : List Token) : Cursor where
  rest := placeTokens 0 tokens
  textEnd := utf8Length (tokens.flatMap (·.text.toList))
  builder := .empty
  errors := []
  isCutOff := false

/-- Where the cursor is when the whole text is read. -/
def Cursor.atEndOf (text : String) : Cursor := Grammar.file (.start (tokenize text))

def parse (text : String) : Parse :=
  let c := Cursor.atEndOf text
  ⟨c.builder.root?.getD (.node .file []), c.errors.reverse⟩

end ElmLint.Syntax

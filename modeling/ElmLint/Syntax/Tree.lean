import ElmLint.Syntax.Token

/-!
# Syntax trees

A tree keeps every token of the text, white space and comments included, so its text is the text
it was built from. Nodes hold no offsets; where a subtree stands follows from what is before it.
-/

namespace ElmLint.Syntax

/-- A token, or a node over its parts in order. -/
inductive Tree where
  | token (kind : Kind) (text : String)
  | node (kind : Kind) (children : List Tree)
  deriving Repr, Inhabited

namespace Tree

def kind : Tree → Kind
  | .token kind _ => kind
  | .node kind _ => kind

/-- The parts of a node; a token has none. -/
def children : Tree → List Tree
  | .token _ _ => []
  | .node _ children => children

def isNode : Tree → Bool
  | .token _ _ => false
  | .node _ _ => true

mutual

/-- The tokens of the tree in text order, as kind and text. -/
def leaves : Tree → List (Kind × String)
  | .token kind text => [(kind, text)]
  | .node _ children => leavesOf children

def leavesOf : List Tree → List (Kind × String)
  | [] => []
  | tree :: trees => tree.leaves ++ leavesOf trees

end

mutual

def length : Tree → Nat
  | .token _ text => utf8Length text.toList
  | .node _ children => lengthOf children

def lengthOf : List Tree → Nat
  | [] => 0
  | tree :: trees => tree.length + lengthOf trees

end

def text (tree : Tree) : String := String.join (tree.leaves.map (·.2))

mutual

/-- The bytes from the first to the last token that is neither white space nor a comment, when the
tree's text starts at `start`. -/
def significant? (start : Nat) : Tree → Option ByteRange
  | .token kind text =>
    if kind.isTrivia then none else some ⟨start, start + utf8Length text.toList⟩
  | .node _ children => significantOf? start children

def significantOf? (start : Nat) : List Tree → Option ByteRange
  | [] => none
  | tree :: trees =>
    match tree.significant? start, significantOf? (start + tree.length) trees with
    | some a, some b => some ⟨a.start, b.stop⟩
    | some a, none => some a
    | none, b => b

end

def dropTrivia (leaves : List (Kind × String)) : List (Kind × String) :=
  leaves.dropWhile (·.1.isTrivia)

def significantText (tree : Tree) : String :=
  String.join ((dropTrivia (dropTrivia tree.leaves).reverse).reverse.map (·.2))

mutual

/-- The tree in preorder, one line for each node and token with its depth. -/
def outline (depth : Nat) : Tree → List String
  | .token kind text => [s!"{depth} {kind.name} {text}"]
  | .node kind children => s!"{depth} {kind.name}" :: outlineOf (depth + 1) children

def outlineOf (depth : Nat) : List Tree → List String
  | [] => []
  | tree :: trees => tree.outline depth ++ outlineOf depth trees

end

/-- The text of the first token of `kind` among the parts. -/
def tokenText? (tree : Tree) (kind : Kind) : Option String :=
  tree.children.findSome? fun
    | .token k text => if k = kind then some text else none
    | .node _ _ => none

def nameSegments (tree : Tree) : List String :=
  tree.children.filterMap fun
    | .token kind text =>
      if kind = .upperIdent ∨ kind = .lowerIdent then some text else none
    | .node _ _ => none

def dottedName (tree : Tree) : String := ".".intercalate tree.nameSegments

end Tree

end ElmLint.Syntax

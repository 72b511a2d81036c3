import ElmLint.Syntax.Tree

/-!
# Places in a tree

A `Site` is a subtree together with the way up from it, so it knows its parent, its siblings and
the bytes it covers. Two sites of one tree are the same place when the ways to them are the same.
-/

namespace ElmLint.Syntax

/-- A subtree where it stands: the whole tree, or the part number `index` of `parent`, whose text
starts at the byte `start`. -/
inductive Site where
  | root (tree : Tree)
  | part (parent : Site) (index : Nat) (start : Nat) (tree : Tree)
  deriving Repr, Inhabited

namespace Site

def tree : Site → Tree
  | root tree => tree
  | part _ _ _ tree => tree

def start : Site → Nat
  | root _ => 0
  | part _ _ start _ => start

def kind (site : Site) : Kind := site.tree.kind

def stop (site : Site) : Nat := site.start + site.tree.length

/-- All bytes, white space and comments at the ends included. -/
def range (site : Site) : ByteRange := ⟨site.start, site.stop⟩

/-- The bytes without white space and comments at the ends. A place that holds nothing else has the
empty range at its start. -/
def significantRange (site : Site) : ByteRange :=
  (site.tree.significant? site.start).getD (.empty site.start)

def text (site : Site) : String := site.tree.text

def significantText (site : Site) : String := site.tree.significantText

/-! ## Up -/

def parent? : Site → Option Site
  | root _ => none
  | part parent _ _ _ => some parent

/-- The place itself and the nodes around it, from the inside out. -/
def ancestors : Site → List Site
  | root tree => [root tree]
  | part parent index start tree => part parent index start tree :: parent.ancestors

/-- The numbers of the parts that lead to the place, the last first. -/
def path : Site → List Nat
  | root _ => []
  | part parent index _ _ => index :: parent.path

def same (a b : Site) : Bool := a.path == b.path

/-- The node around the place, if it is of one of the kinds. -/
def parentOf? (site : Site) (kinds : List Kind) : Option Site :=
  site.parent?.filter fun p => kinds.contains p.kind

/-! ## Down -/

/-- The parts of `parent` from number `index` on, whose text starts at `start`. -/
def partsFrom (parent : Site) (index start : Nat) : List Tree → List Site
  | [] => []
  | tree :: trees =>
    part parent index start tree :: partsFrom parent (index + 1) (start + tree.length) trees

/-- The parts of the place, tokens and nodes. -/
def parts (site : Site) : List Site := partsFrom site 0 site.start site.tree.children

def children (site : Site) : List Site := site.parts.filter (·.tree.isNode)

/-- The first part that is a node of `kind`. -/
def child? (site : Site) (kind : Kind) : Option Site := site.children.find? (·.kind == kind)

/-- The parts that are nodes of `kind`. -/
def childrenOf (site : Site) (kind : Kind) : List Site := site.children.filter (·.kind == kind)

/-- The first part that is a token of `kind`. -/
def token? (site : Site) (kind : Kind) : Option Site :=
  site.parts.find? fun p => !p.tree.isNode && p.kind == kind

/-- One of the parts is a token of `kind`. -/
def hasToken (site : Site) (kind : Kind) : Bool := (site.token? kind).isSome

mutual

/-- The place `site`, which holds `tree`, and all places in it, in preorder. -/
def preorder (site : Site) : Tree → List Site
  | .token _ _ => [site]
  | .node _ children => site :: preorderParts site 0 site.start children

/-- The places in the parts of `parent` from number `index` on, whose text starts at `start`. -/
def preorderParts (parent : Site) (index start : Nat) : List Tree → List Site
  | [] => []
  | tree :: trees =>
    preorder (part parent index start tree) tree ++
      preorderParts parent (index + 1) (start + tree.length) trees

end

/-- The place and all places in it, tokens included, in text order. -/
def descendants (site : Site) : List Site := preorder site site.tree

/-- The place and all places in it that are nodes, in text order. -/
def nodes (site : Site) : List Site := site.descendants.filter (·.tree.isNode)

/-- The tokens in the place, in text order. -/
def tokens (site : Site) : List Site := site.descendants.filter (!·.tree.isNode)

/-! ## Sideways -/

/-- The parts after the place in its parent, the nearest first. -/
def partsAfter : Site → List Site
  | root _ => []
  | part parent index _ _ => parent.parts.drop (index + 1)

/-- The parts before the place in its parent, the nearest first. -/
def partsBefore : Site → List Site
  | root _ => []
  | part parent index _ _ => (parent.parts.take index).reverse

def childBefore? (site : Site) : Option Site := site.partsBefore.find? (·.tree.isNode)

/-- Where the first token at or after `offset` starts, white space and comments aside. -/
def nextSignificantOffset? (site : Site) (offset : Nat) : Option Nat :=
  (site.tokens.find? fun t => !t.kind.isTrivia && offset ≤ t.start).map start

end Site

end ElmLint.Syntax

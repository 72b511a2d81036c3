import ElmLint.Syntax.Site

/-!
# Shapes of nodes

A `Shape` describes a node by its kind, its text and its child nodes, and may give it a name.
Matching goes through the nodes of a tree in text order; a shape that asks for a row of children
matches a node once for every place where the row stands.
-/

namespace ElmLint.Lint

open Syntax (Kind Site)

/-- What a shape asks of the node itself. What is not given is not asked. -/
structure NodeRule where
  kind? : Option Kind
  excluded? : Option Kind
  /-- The texts that the node may have, white space and comments at its ends aside. -/
  texts? : Option (List String)
  capture? : Option String
  deriving DecidableEq, Repr

inductive Anchor where
  | anywhere | start | exact
  deriving DecidableEq, Repr

mutual

inductive Shape where
  | mk (rule : NodeRule) (children : ChildRule)

inductive ChildRule where
  | any
  /-- A row of neighbours matches the shapes one by one. -/
  | row (anchor : Anchor) (shapes : List Shape)
  /-- There are children and every one matches. -/
  | each (shape : Shape)

end

namespace Shape

def rule : Shape → NodeRule
  | mk rule _ => rule

def childRule : Shape → ChildRule
  | mk _ children => children

def any : Shape := mk ⟨none, none, none, none⟩ .any

/-- A node of `kind`. -/
def node (kind : Kind) : Shape := mk ⟨some kind, none, none, none⟩ .any

/-- A node of another kind than `kind`. -/
def excluding (kind : Kind) (s : Shape) : Shape :=
  mk { s.rule with excluded? := some kind } s.childRule

/-- A node whose text is one of `texts`. -/
def textIn (texts : List String) (s : Shape) : Shape :=
  mk { s.rule with texts? := some texts } s.childRule

/-- The node is called `name` in a match. -/
def capture (name : String) (s : Shape) : Shape :=
  mk { s.rule with capture? := some name } s.childRule

/-- The children hold a row of neighbours like `shapes`. -/
def withRow (anchor : Anchor) (shapes : List Shape) (s : Shape) : Shape :=
  mk s.rule (.row anchor shapes)

/-- Every child is like `shape`, and there is one. -/
def withEach (shape : Shape) (s : Shape) : Shape := mk s.rule (.each shape)

end Shape

/-- The nodes that a match gave names to, in the order in which they were named. -/
abbrev Captures := List (String × Site)

/-- The node called `name`; of several the one named last. -/
def Captures.get? (captures : Captures) (name : String) : Option Site :=
  (captures.reverse.find? (·.1 == name)).map (·.2)

def NodeRule.accepts (rule : NodeRule) (site : Site) : Bool :=
  rule.kind?.all (site.kind == ·) && rule.excluded?.all (site.kind != ·) &&
    rule.texts?.all (·.contains site.significantText)

def NodeRule.captures (rule : NodeRule) (site : Site) : Captures :=
  rule.capture?.toList.map (·, site)

/-- The numbers of the children at which a row of `width` shapes may begin. -/
def Anchor.starts (anchor : Anchor) (width count : Nat) : List Nat :=
  match anchor with
  | .anywhere => if width ≤ count then List.range (count - width + 1) else []
  | .start => if width ≤ count then [0] else []
  | .exact => if width = count then [0] else []

mutual

def Shape.matches : Shape → Site → List Captures
  | .mk rule children, site =>
    if rule.accepts site then (children.matches site).map (rule.captures site ++ ·) else []

def ChildRule.matches : ChildRule → Site → List Captures
  | .any, _ => [[]]
  | .each shape, site =>
    if site.children.isEmpty then []
    else (site.children.mapM fun child => (shape.matches child).head?).toList.map List.flatten
  | .row anchor shapes, site =>
    (anchor.starts shapes.length site.children.length).filterMap fun start =>
      rowMatch? shapes (site.children.drop start)

def rowMatch? : List Shape → List Site → Option Captures
  | [], _ => some []
  | _ :: _, [] => none
  | shape :: shapes, site :: sites =>
    match (shape.matches site).head?, rowMatch? shapes sites with
    | some first, some rest => some (first ++ rest)
    | _, _ => none

end

/-- A node that matches a shape, with the names given. -/
structure Match where
  site : Site
  captures : Captures

/-- Every match of the shape in the place, in text order. -/
def findMatches (root : Site) (shape : Shape) : List Match :=
  root.nodes.flatMap fun site => (shape.matches site).map (⟨site, ·⟩)

end ElmLint.Lint

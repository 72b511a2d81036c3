import ElmLint.Syntax.SourceFile

/-!
# Names, the regions they are visible in, and their uses

Matching is by text: a use of a name is any reference of that name in the region where it is
visible, and one name hiding another is not considered.
-/

namespace ElmLint.Lint

open Syntax

/-- A name that a pattern or a `let` function introduces. -/
structure Binding where
  name : String
  site : Site
  token : Site
  region : Site

/-- The pattern is the declaration's own, or a direct part of its tuple or record pattern. -/
def bindsAtDeclaration (pattern declaration : Site) : Bool :=
  match pattern.parent? with
  | none => false
  | some parent =>
    parent.same declaration ||
      [Kind.recordPattern, .tuplePattern].contains parent.kind &&
        parent.parent?.any (·.same declaration)

/-- Where a name in a pattern is visible: the nearest declaration, case branch or lambda around it.
For a declaration of a `let`, a name at its own level is visible in the whole `let`. -/
def patternRegion? (pattern : Site) : Option Site :=
  (pattern.ancestors.tail.find? fun s =>
    [Kind.valueDeclaration, .caseOfBranch, .anonymousFunctionExpr].contains s.kind).map fun region =>
      if region.kind = .valueDeclaration && bindsAtDeclaration pattern region then
        (region.parentOf? [.letInExpr]).getD region
      else region

/-- The name that the node introduces, unless it introduces none or is a top-level function. -/
def bindingAt? (site : Site) : Option Binding :=
  match site.kind with
  | .lowerPattern => do
    let token ← site.token? .lowerIdent
    let region ← patternRegion? site
    return ⟨token.text, site, token, region⟩
  | .functionDeclarationLeft => do
    let declaration ← site.parent?
    let region ← declaration.parentOf? [.letInExpr]
    let token ← site.token? .lowerIdent
    return ⟨token.text, site, token, region⟩
  | _ => none

/-- Every name that a pattern or a `let` function introduces, in text order. -/
def localBindings (root : Site) : List Binding := root.nodes.filterMap bindingAt?

/-- The unqualified value that the node refers to: `x` as an expression, or the record in
`{ x | field = … }`. -/
def valueReference? (site : Site) : Option String :=
  match site.kind with
  | .valueExpr =>
    match site.children.head? with
    | some name =>
      match name.kind, name.tree.nameSegments with
      | .valueQid, [segment] => some segment
      | _, _ => none
    | none => none
  | .recordBaseIdentifier =>
    if (site.parentOf? [.recordExpr]).isSome then site.tree.tokenText? .lowerIdent else none
  | _ => none

/-- How often `name` is referred to in a region. -/
def countReferences (region : Site) (name : String) : Nat :=
  (region.nodes.filter fun s => valueReference? s == some name).length

def inModuleStructure (site : Site) : Bool :=
  (site.parentOf? [.moduleDeclaration, .importClause]).isSome

/-- The segments of a name that is used, header and imports aside. -/
def usedName? (site : Site) : Option (List String) :=
  if [Kind.valueQid, .upperCaseQid].contains site.kind && !inModuleStructure site then
    some site.tree.nameSegments
  else none

def usedUpper? (site : Site) : Option String :=
  match usedName? site with
  | some [segment] => if site.kind = .upperCaseQid then some segment else none
  | _ => none

def usedQualifier? (site : Site) : Option String :=
  match usedName? site with
  | some (first :: second :: rest) => some (".".intercalate (first :: second :: rest).dropLast)
  | _ => none

/-- The operator used at a node, infix or as a function. -/
def usedOperator? (site : Site) : Option String :=
  if [Kind.operator, .operatorAsFunctionExpr].contains site.kind then
    site.tree.tokenText? .operatorIdent
  else none

structure References where
  /-- The unqualified values with the nodes that refer to them, in text order. -/
  values : List (String × Site)
  upper : List String
  /-- The modules and aliases in front of qualified names. -/
  qualifiers : List String
  operators : List String

namespace References

def collect (root : Site) : References :=
  let nodes := root.nodes
  { values := nodes.filterMap fun s => (valueReference? s).map (·, s)
    upper := (nodes.filterMap usedUpper?).eraseDups
    qualifiers := (nodes.filterMap usedQualifier?).eraseDups
    operators := (nodes.filterMap usedOperator?).eraseDups }

def usesValue (refs : References) (name : String) : Bool := refs.values.any (·.1 == name)

end References

end ElmLint.Lint

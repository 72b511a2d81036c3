import ElmLint.Lint.Finding

/-!
# Checks of variables and top-level values

A variable is unused when its region holds no reference of its name. A top-level value is unused
when it is not exposed and no other top-level item refers to it.
-/

namespace ElmLint.Lint

open Syntax (Site ValueDeclaration)

def topLevelItem? (site : Site) : Option Nat := site.path.getLast?

def unusedPattern? (b : Binding) : Option Finding :=
  if countReferences b.region b.name = 0 then
    some ⟨.unusedPattern, s!"Unused variable `{b.name}`", b.token.range⟩
  else none

def exposedValues (s : Subject) : List String :=
  match s.file.header?.bind (·.exposing?) with
  | none => []
  | some list => list.items.filterMap fun item => if item.sort = .value then item.name? else none

def usedElsewhere (s : Subject) (name : String) (site : Site) : Bool :=
  s.refs.values.any fun (reference, at_) =>
    reference == name && (topLevelItem? at_).isSome && topLevelItem? at_ != topLevelItem? site

/-- A top-level value that is neither exposed nor used. Its own recursion is no use. -/
def unusedTopLevel? (s : Subject) (declaration : ValueDeclaration) : Option Finding :=
  match declaration.nameToken? with
  | none => none
  | some token =>
    if (exposedValues s).contains token.text then none
    else if usedElsewhere s token.text declaration.site then none
    else some ⟨.unusedTopLevel, s!"Unused top level definition `{token.text}`", token.range⟩

/-- Variables and top-level values that are not used, in text order. -/
def unusedBindings (s : Subject) : List Finding :=
  let patterns := (localBindings s.file.root).filterMap unusedPattern?
  let topLevel := if s.exposesEverything then [] else s.file.values.filterMap (unusedTopLevel? s)
  (patterns ++ topLevel).mergeSort fun a b => a.range.start ≤ b.range.start

end ElmLint.Lint

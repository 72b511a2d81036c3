import ElmLint.Diagnostic.Basic
import ElmLint.Fix.Edit
import ElmLint.Lint.Code
import ElmLint.Project.Document

/-!
# Quick fixes

Three checks find something that can be taken out of the text: an exposed name, an alias and a
variable. A fix finds the node that the diagnostic is about by its bytes, so a diagnostic that no
longer fits the text has none.
-/

namespace ElmLint

open Syntax (Kind Site)

structure QuickFix where
  title : String
  uri : FileUri
  edits : List TextEdit
  diagnostic : Diagnostic
  deriving DecidableEq, Repr

namespace QuickFix

structure Change where
  range : ByteRange
  newText : String
  deriving DecidableEq, Repr

def Change.delete (start stop : Nat) : Change := ⟨⟨start, stop⟩, ""⟩

/-- The innermost node of one of the kinds that has exactly these bytes, white space and comments
at its ends aside. An empty range is no node's. -/
def nodeAt? (root : Site) (range : ByteRange) (kinds : List Kind) : Option Site :=
  if range.start < range.stop then
    (root.nodes.filter fun s => kinds.contains s.kind && s.significantRange == range).getLast?
  else none

def significantAfter? (site : Site) : Option Site := site.partsAfter.find? (!·.kind.isTrivia)

/-- The last part of the parent before the place that is neither white space nor a comment. -/
def significantBefore? (site : Site) : Option Site := site.partsBefore.find? (!·.kind.isTrivia)

def blankStart (site : Site) : Nat :=
  ((site.partsBefore.takeWhile (·.kind == .whitespace)).getLast?.map (·.start)).getD site.start

/-- The bytes of an item of a comma separated list together with one comma: the one after it with
all that is between it and the next item, else the one before it. -/
def listItemRange (item : Site) : ByteRange :=
  let own := item.significantRange
  match (significantAfter? item).filter (·.kind == .comma) with
  | some comma =>
    ⟨own.start, ((significantAfter? comma).map (·.start)).getD comma.stop⟩
  | none =>
    match (significantBefore? item).filter (·.kind == .comma) with
    | some comma => ⟨comma.start, own.stop⟩
    | none => own

/-- Takes a name out of an import's exposing list, and the whole list when it is the only one. -/
def removeExposed? (root : Site) (range : ByteRange) : Option Change := do
  let item ← nodeAt? root range [.exposedValue, .exposedType, .exposedOperator]
  let list ← item.parentOf? [.exposingList]
  let clause ← list.parentOf? [.importClause]
  if 1 < (list.children.filter (·.kind.isExposedItem)).length then
    return ⟨listItemRange item, ""⟩
  let keyword ← clause.parts.find? (·.kind == .exposingKw)
  return .delete (blankStart keyword) list.stop

def removeAlias? (root : Site) (range : ByteRange) : Option Change :=
  (nodeAt? root range [.asClause]).map fun clause => .delete (blankStart clause) clause.stop

/-- Takes a variable out of its pattern. A field leaves its record, a name after `as` leaves with
the `as`, and in any other place `_` remains. -/
def removeBinding? (root : Site) (range : ByteRange) : Option Change := do
  let token ← root.tokens.find? fun t => t.kind == .lowerIdent && t.range == range
  let pattern ← token.parentOf? [.lowerPattern]
  let parent ← pattern.parent?
  match parent.kind with
  | .recordPattern =>
    if (parent.childrenOf .lowerPattern).length = 1 then
      return ⟨parent.significantRange, "_"⟩
    return ⟨listItemRange pattern, ""⟩
  | .asPattern =>
    let keyword ← parent.parts.find? (·.kind == .asKw)
    return .delete (blankStart keyword) pattern.stop
  | _ => return ⟨range, "_"⟩

def change? (root : Site) (code : LintCode) (range : ByteRange) : Option (String × Change) :=
  match code with
  | .unusedImportedValue => (removeExposed? root range).map ("Remove unused exposed value", ·)
  | .unusedAlias => (removeAlias? root range).map ("Remove unused alias", ·)
  | .unusedPattern => (removeBinding? root range).map ("Remove unused variable", ·)
  | _ => none

inductive Outcome where
  | none
  | offer (fix : QuickFix)
  /-- The change would have to end before it starts. This is so for the name in front of an `as`
  when a comment stands between the two. -/
  | inverted
  deriving DecidableEq, Repr

def find (d : Document) (diagnostic : Diagnostic) : Outcome :=
  let found := do
    let code ← LintCode.ofName? diagnostic.code
    let range ← d.lineIndex.range? diagnostic.span
    change? d.file.root code range
  match found with
  | Option.none => .none
  | some (title, change) =>
    match d.lineIndex.span? change.range with
    | some span => .offer ⟨title, d.uri, [⟨span, change.newText⟩], diagnostic⟩
    | Option.none => .inverted

def offers (d : Document) (diagnostics : List Diagnostic) : List QuickFix :=
  diagnostics.filterMap fun diagnostic =>
    match find d diagnostic with
    | .offer fix => some fix
    | _ => Option.none

end QuickFix

end ElmLint

import ElmLint.Lint.Finding
import ElmLint.Lint.Shape

/-!
# Checks of style

Each check looks for a shape and reports the place that has it.
-/

namespace ElmLint.Lint

open Syntax (Kind Site)

def reportShape (s : Subject) (code : LintCode) (message : String) (shape : Shape) :
    List Finding :=
  (findMatches s.file.root shape).map fun m => .atSite code message m.site

/-- Reports every place that has the shape, from what `first` finds in it to what `last` finds. -/
def reportBetween (s : Subject) (code : LintCode) (message : String) (shape : Shape)
    (first last : Captures → Option Site) : List Finding :=
  (findMatches s.file.root shape).filterMap fun m =>
    match first m.captures, last m.captures with
    | some first, some last => some (.between code message first last)
    | _, _ => none

/-- The operator `symbol` in a chain. -/
def operatorShape (symbol : String) : Shape := (Shape.node .operator).textIn [symbol]

/-! ## Case expressions -/

/-- A branch that maps `Nothing` to `Nothing`. -/
def nothingBranch : Shape :=
  (Shape.node .caseOfBranch).withRow .exact
    [(Shape.node .unionPattern).textIn ["Nothing"], (Shape.node .valueExpr).textIn ["Nothing"]]

/-- Branches from `Nothing` to `Nothing`. -/
def mapNothingToNothing (s : Subject) : List Finding :=
  reportShape s .mapNothingToNothing
    ("`Nothing` mapped to `Nothing` in case expression, " ++
      "use Maybe.map or Maybe.andThen instead")
    nothingBranch

/-- A case expression whose first two branches tell `True` from `False`. -/
def booleanCase : Shape :=
  let branch (pattern : Shape) := (Shape.node .caseOfBranch).withRow .start [pattern]
  (Shape.node .caseOfExpr).withRow .start
    [.any, branch ((Shape.node .unionPattern).textIn ["True", "False"]),
     branch (Shape.any.textIn ["True", "False", "_"])]

def booleanCaseExpr (s : Subject) : List Finding :=
  reportShape s .booleanCaseExpr "Use an if expression instead of a case expression on a Bool"
    booleanCase

/-! ## Lists -/

def concatOfLists : Shape :=
  (Shape.node .binOpExpr).withRow .anywhere
    [(Shape.node .listExpr).capture "left", operatorShape "++",
     (Shape.node .listExpr).capture "right"]

/-- `[ a ] ++ [ b ]`, which is `[ a, b ]`. -/
def dropConcatOfLists (s : Subject) : List Finding :=
  reportBetween s .dropConcatOfLists
    "Concatenating two list literals, merge them into one list" concatOfLists
    (·.get? "left") (·.get? "right")

def precedence? (symbol : String) : Option Nat :=
  match symbol with
  | "<|" | "|>" => some 0
  | "||" => some 2
  | "&&" => some 3
  | "==" | "/=" | "<" | ">" | "<=" | ">=" => some 4
  | "++" | "::" | "|=" => some 5
  | "+" | "-" | "|." => some 6
  | "*" | "/" | "//" | "</>" => some 7
  | "^" | "<?>" => some 8
  | "<<" | ">>" => some 9
  | _ => none

/-- How tightly `::` binds. -/
def consPrecedence : Nat := 5

/-- The operator binds tighter than `::`. -/
def bindsTighterThanCons (symbol : String) : Bool := (precedence? symbol).any (consPrecedence < ·)

/-- The first operand of the run that ends with `operand` and binds tighter than `::`, where
`before` are the nodes of the chain in front of it, the nearest first. -/
def consRunStart (operand : Site) : List Site → Site
  | operator :: previous :: before =>
    if operator.kind = .operator && bindsTighterThanCons operator.significantText then
      consRunStart previous before
    else operand
  | _ => operand

/-- Where the item in front of `::` begins. A chain is flat, so in `a + b :: [ c ]` the operand in
front of `::` is `b` while the item is `a + b`. -/
def consItemStart (item : Site) : Site :=
  consRunStart item (item.partsBefore.filter (·.tree.isNode))

def consOfItemAndList : Shape :=
  (Shape.node .binOpExpr).withRow .anywhere
    [Shape.any.capture "item", operatorShape "::", (Shape.node .listExpr).capture "list"]

/-- `a :: [ b ]`, which is `[ a, b ]`. -/
def dropConsOfItemAndList (s : Subject) : List Finding :=
  reportBetween s .dropConsOfItemAndList
    "Consing an item onto a list literal, add it to the literal instead" consOfItemAndList
    (fun captures => (captures.get? "item").map consItemStart) (·.get? "list")

def concatOfSingleton : Shape :=
  (Shape.node .binOpExpr).withRow .anywhere
    [((Shape.node .listExpr).withRow .exact [.any]).capture "single", operatorShape "++",
     (Shape.any.excluding .listExpr).capture "rest"]

/-- `[ a ] ++ rest`, which is `a :: rest`. -/
def useConsOverConcat (s : Subject) : List Finding :=
  reportBetween s .useConsOverConcat "Use `::` to prepend a single element instead of `++`"
    concatOfSingleton (·.get? "single") (·.get? "rest")

/-- `List.concat` applied to a list of list literals. -/
def concatOfLiteral : Shape :=
  (Shape.node .functionCallExpr).withRow .exact
    [(Shape.node .valueExpr).textIn ["List.concat"],
     (Shape.node .listExpr).withEach (.node .listExpr)]

/-- `List.concat [ [ a ], [ b ] ]`, which is one list. -/
def unnecessaryListConcat (s : Subject) : List Finding :=
  reportShape s .unnecessaryListConcat
    "`List.concat` on list literals, merge them into one list" concatOfLiteral

/-! ## Records and operators -/

def oneFieldRecord : Shape :=
  (Shape.node .recordType).withRow .exact [(Shape.node .fieldType).capture "field"]

def inWiderAlias (s : Subject) (record : Site) (fieldName : String) : Bool :=
  let owner? := (record.ancestors.find? (·.kind == .typeAliasDeclaration)).bind
    (·.tree.tokenText? .upperIdent)
  (owner?.bind s.recordFields?).any fun names => 1 < names.length && names.contains fieldName

def singleFieldRecord (s : Subject) : List Finding :=
  (findMatches s.file.root oneFieldRecord).filterMap fun m =>
    match (m.captures.get? "field").bind (·.tree.tokenText? .lowerIdent) with
    | none => none
    | some fieldName =>
      if inWiderAlias s m.site fieldName then none
      else some (.atSite .singleFieldRecord
        "Record has only one field, use the field's type or a custom type instead" m.site)

def appliedOperator : Shape :=
  (Shape.node .functionCallExpr).withRow .exact
    [(Shape.node .operatorAsFunctionExpr).capture "operator", .any, .any]

/-- `(+) a b`, which is `a + b`. -/
def noUncurriedPrefix (s : Subject) : List Finding :=
  (findMatches s.file.root appliedOperator).map fun m =>
    let symbol := ((m.captures.get? "operator").bind (·.tree.tokenText? .operatorIdent)).getD
      m.site.significantText
    .atSite .noUncurriedPrefix
      (s!"Operator `{symbol}` used as a prefix function with two arguments, use it infix")
      m.site

end ElmLint.Lint

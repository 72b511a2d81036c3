import ElmLint.Syntax.Tree
import Mathlib.Computability.RegularExpressions

/-!
# Productions

What nodes a node may have as its children, in order and with the tokens between them left out, is a
regular expression over kinds, one for each kind of node. A tree conforms when every node in it
follows the production of its kind and none of its tokens is an `error`.

The unit `()` is one kind of node, whether it stands for a type, a pattern or an expression.
-/

namespace ElmLint.Syntax

open RegularExpression (char star)
open scoped Computability

namespace Production

def oneOf (kinds : List Kind) : RegularExpression Kind :=
  kinds.foldr (fun kind others => char kind + others) 0

def one (kind : Kind) : RegularExpression Kind := char kind

def atMostOne (kind : Kind) : RegularExpression Kind := 1 + one kind

def atLeastOne (r : RegularExpression Kind) : RegularExpression Kind := r * star r

/-! ## Classes of kinds -/

def topLevelKinds : List Kind :=
  [.moduleDeclaration, .importClause, .typeSignature, .portSignature, .typeDeclaration,
    .typeAliasDeclaration, .valueDeclaration]

def exposedKinds : List Kind := [.exposedValue, .exposedType, .exposedOperator]

def typeKinds : List Kind :=
  [.typeVariable, .typeRef, .unitExpr, .tupleType, .typeExpression, .recordType]

def atomicPatternKinds : List Kind :=
  [.lowerPattern, .anythingPattern, .unionPattern, .literalPattern, .unitExpr, .tuplePattern,
    .parenthesizedPattern, .listPattern, .recordPattern]

def consPatternKinds : List Kind := .consPattern :: atomicPatternKinds

def patternKinds : List Kind := .asPattern :: consPatternKinds

def atomKinds : List Kind :=
  [.valueExpr, .literalExpr, .fieldAccessorFunctionExpr, .unitExpr, .operatorAsFunctionExpr,
    .tupleExpr, .parenthesizedExpr, .listExpr, .recordExpr]

def accessKinds : List Kind := .fieldAccessExpr :: atomKinds

/-- What stands between operators. -/
def operandKinds : List Kind :=
  [.functionCallExpr, .negateExpr, .anonymousFunctionExpr, .ifElseExpr, .caseOfExpr, .letInExpr] ++
    accessKinds

def expressionKinds : List Kind := .binOpExpr :: operandKinds

def type : RegularExpression Kind := oneOf typeKinds

def atomicPattern : RegularExpression Kind := oneOf atomicPatternKinds

def pattern : RegularExpression Kind := oneOf patternKinds

def access : RegularExpression Kind := oneOf accessKinds

def operand : RegularExpression Kind := oneOf operandKinds

def expression : RegularExpression Kind := oneOf expressionKinds

end Production

open Production in
/-- What the children of a node of each kind have to be. Nothing conforms for an `error` or for the
kinds of tokens. -/
def production : Kind → RegularExpression Kind
  | .file => star (oneOf topLevelKinds)
  | .moduleDeclaration => one .upperCaseQid * one .exposingList
  | .importClause => one .upperCaseQid * atMostOne .asClause * atMostOne .exposingList
  | .exposingList => star (oneOf exposedKinds)
  | .exposedType => atMostOne .exposedUnionConstructors
  | .valueDeclaration => oneOf (.functionDeclarationLeft :: patternKinds) * expression
  | .functionDeclarationLeft => star atomicPattern
  | .typeSignature | .portSignature | .typeAliasDeclaration | .fieldType => type
  | .typeDeclaration => atLeastOne (one .unionVariant)
  | .unionVariant => star type
  | .typeExpression => atLeastOne type
  | .tupleType => type * atLeastOne type
  | .typeRef => one .upperCaseQid * star type
  | .recordType => atMostOne .recordBaseIdentifier * star (one .fieldType)
  | .unionPattern => one .upperCaseQid * star atomicPattern
  | .recordPattern => atLeastOne (one .lowerPattern)
  | .tuplePattern => pattern * atLeastOne pattern
  | .listPattern => star pattern
  | .parenthesizedPattern => pattern
  | .consPattern => atomicPattern * oneOf consPatternKinds
  | .asPattern => oneOf consPatternKinds * one .lowerPattern
  | .valueExpr => oneOf [.valueQid, .upperCaseQid]
  | .functionCallExpr => access * atLeastOne access
  | .binOpExpr => operand * atLeastOne (one .operator * operand)
  | .negateExpr | .fieldAccessExpr => access
  | .parenthesizedExpr | .field => expression
  | .tupleExpr => expression * atLeastOne expression
  | .listExpr => star expression
  | .recordExpr => atMostOne .recordBaseIdentifier * star (one .field)
  | .anonymousFunctionExpr => atLeastOne atomicPattern * expression
  | .ifElseExpr => expression * expression * expression
  | .caseOfExpr => expression * atLeastOne (one .caseOfBranch)
  | .caseOfBranch => pattern * expression
  | .letInExpr => atLeastOne (oneOf [.typeSignature, .valueDeclaration]) * expression
  | .asClause | .exposedValue | .exposedUnionConstructors | .exposedOperator | .valueQid
  | .upperCaseQid | .typeVariable | .recordBaseIdentifier | .lowerPattern | .anythingPattern
  | .literalPattern | .operator | .operatorAsFunctionExpr | .unitExpr
  | .fieldAccessorFunctionExpr | .literalExpr => 1
  | _ => 0

example : [.valueExpr, .operator, .literalExpr] ∈ (production .binOpExpr).matches' := by decide

namespace Tree

/-- The kinds of the nodes among the trees. -/
def nodeKinds (trees : List Tree) : List Kind := (trees.filter (·.isNode)).map (·.kind)

theorem nodeKinds_append (first second : List Tree) :
    nodeKinds (first ++ second) = nodeKinds first ++ nodeKinds second := by
  simp [nodeKinds]

inductive Conforms : Tree → Prop
  | token {kind : Kind} (text : String) (h : kind ≠ .error) : Conforms (.token kind text)
  | node {kind : Kind} {children : List Tree} (h : nodeKinds children ∈ (production kind).matches')
      (hchildren : ∀ child ∈ children, child.Conforms) : Conforms (.node kind children)

/-- The first tree is the second or stands somewhere inside it. -/
inductive Within : Tree → Tree → Prop
  | self (tree : Tree) : Within tree tree
  | child {tree child : Tree} {kind : Kind} {children : List Tree} (h : child ∈ children)
      (htree : Within tree child) : Within tree (.node kind children)

theorem Conforms.within {tree part : Tree} (h : tree.Conforms) (hpart : Within part tree) :
    part.Conforms := by
  induction hpart with
  | self => exact h
  | child hmem _ ih =>
    cases h with
    | node _ hchildren => exact ih (hchildren _ hmem)

theorem Conforms.kind_ne_error {tree : Tree} (h : tree.Conforms) : tree.kind ≠ .error := by
  cases h with
  | token _ h => exact h
  | node h _ =>
    rintro rfl
    exact h

/-- The children of a node follow its production. -/
theorem Conforms.children {tree : Tree} (h : tree.Conforms) (hnode : tree.isNode = true) :
    nodeKinds tree.children ∈ (production tree.kind).matches' := by
  cases h with
  | token => cases hnode
  | node h _ => exact h

end Tree

end ElmLint.Syntax

import ElmLint.Syntax.Grammar.Pattern
import ElmLint.Syntax.Grammar.Type

/-!
# Expressions

```text
Expression  = Operand (operator Operand)*
Operand     = Lambda | IfElse | CaseOf | LetIn | '-' Access | Application
Application = Access Access*
Access      = Atom ('.' lower)*
```

An operator chain is one flat node; precedence is left to those who read it. `floor` is the column
of the enclosing layout block: an expression ends at the first token at or left of it. The branches
of a `case` and the declarations of a `let` form blocks of their own, in the column of their first
item. Rules take the rule for a nested expression as `expr`, which asks for the floor to use.
-/

namespace ElmLint.Syntax.Grammar

open Cursor

def atAtom (c : Cursor) : Bool :=
  c.seesAny [.lowerIdent, .upperIdent, .number, .string, .char, .lParen, .lBracket, .lBrace] ||
  c.seesBoth .dot .lowerIdent

def atOperand (c : Cursor) : Bool :=
  atAtom c || c.seesAny [.backslash, .ifKw, .caseKw, .letKw] || c.seesOperator "-"

def atOperator (floor : Nat) (c : Cursor) : Bool := c.sees .operatorIdent && !c.atLayoutEnd floor

def atArgument (floor : Nat) (c : Cursor) : Bool := atAtom c && !c.atLayoutEnd floor

/-! ## Atoms -/

/-- The segments of a qualified value up to the first that starts with a small letter. -/
def valueSegments : (rounds : Nat) → Rule
  | 0, c => c.cutOff
  | rounds + 1, c =>
    if c.touches .dot .upperIdent then valueSegments rounds c.bump.bump
    else if c.touches .dot .lowerIdent then c.bump.bump
    else c

/-- A name that starts with a capital: `Foo.Bar.baz` refers to a value, `Foo.Bar` to a
constructor. -/
def qualifiedValue (c : Cursor) : Cursor :=
  if namesValue c then
    node .valueExpr (node .valueQid fun c => valueSegments c.rest.length c.bump) c
  else node .valueExpr upperCaseName c

/-- `'(' ')' | '(' operator ')' | '(' Expression ')' | '(' Expression (',' Expression)+ ')'` -/
def parenthesizedExpr (expr : Rule) : Rule :=
  fromHere fun start c =>
    let c := c.bump
    if c.sees .rParen then wrap start .unitExpr bump c
    else if c.seesBoth .operatorIdent .rParen then
      wrap start .operatorAsFunctionExpr (fun c => c.bump.bump) c
    else
      let c := expr c
      if c.sees .comma then
        wrap start .tupleExpr (fun c =>
          (repeatWhile (·.sees .comma) (fun c => expr c.bump) c).expect .rParen) c
      else wrap start .parenthesizedExpr (·.expect .rParen) c

/-- `'[' (Expression (',' Expression)*)? ']'` -/
def listExpr (expr : Rule) : Rule :=
  node .listExpr fun c =>
    let c := c.bump
    let c := if c.sees .rBracket then c else commaSeparated expr c
    c.expect .rBracket

/-- `lower '=' Expression` -/
def field (expr : Rule) (c : Cursor) : Cursor :=
  if c.sees .lowerIdent then node .field (fun c => c.bump.expectThen .eq expr) c
  else c.error .expectedFieldName

/-- `'{' (lower '|')? (Field (',' Field)*)? '}'` -/
def recordExpr (expr : Rule) : Rule :=
  node .recordExpr fun c =>
    let c := recordBase c.bump
    let c := if c.sees .rBrace then c else commaSeparated (field expr) c
    c.expect .rBrace

/-- The smallest expressions, and those in brackets. -/
def atom (expr : Rule) (c : Cursor) : Cursor :=
  let c := c.skipTrivia
  match c.kind? with
  | some .lowerIdent => node .valueExpr (tokenNode .valueQid) c
  | some .upperIdent => qualifiedValue c
  | some .number | some .string | some .char => tokenNode .literalExpr c
  | some .dot => node .fieldAccessorFunctionExpr (fun c => c.bump.expect .lowerIdent) c
  | some .lParen => parenthesizedExpr expr c
  | some .lBracket => listExpr expr c
  | some .lBrace => recordExpr expr c
  | _ => c.error .expectedExpression

/-- An atom and the fields that are read off it, each dot touching what is before it. -/
def access (expr : Rule) : Rule :=
  fromHere fun start c =>
    repeatWhile (·.touches .dot .lowerIdent)
      (wrap start .fieldAccessExpr fun c => c.bump.bump) (atom expr c)

/-- An atom with its arguments, if it has any. -/
def application (floor : Nat) (expr : Rule) : Rule :=
  fromHere fun start c =>
    let c := access expr c
    if atArgument floor c then
      wrap start .functionCallExpr (repeatWhile (atArgument floor) (access expr)) c
    else c

/-! ## Operands with keywords -/

/-- `'-' Access` -/
def negation (expr : Rule) : Rule :=
  node .negateExpr fun c =>
    let c := c.bump
    if atAtom c then access expr c else c.error .expectedExpressionAfterMinus

/-- `'\' Pattern+ '->' Expression` -/
def lambda (floor : Nat) (expr : Rule) : Rule :=
  node .anonymousFunctionExpr fun c =>
    let c := c.bump
    let c := if atPattern c then c else c.error .expectedLambdaParameter
    (repeatWhile atPattern (parameter floor) c).expectThen .arrow expr

/-- `'if' Expression 'then' Expression 'else' Expression` -/
def ifElse (expr : Rule) : Rule :=
  node .ifElseExpr fun c =>
    ((expr c.bump).expectThen .thenKw expr).expectThen .elseKw expr

/-- `Pattern '->' Expression`, where the branch is an item of the block in column `floor`. -/
def caseBranch (floor : Nat) (expr : Rule) : Rule :=
  node .caseOfBranch fun c => (pattern floor c).expectThen .arrow expr

/-- The branches of a `case`, all in the column of the first, which is right of the enclosing
block. -/
def caseBranches (floor : Nat) (expr : Nat → Rule) (c : Cursor) : Cursor :=
  match c.column? with
  | some column =>
    if floor < column && atPattern c then
      repeatWhile (fun c => c.column? == some column && atPattern c)
        (caseBranch column (expr column)) c
    else c.error .expectedCaseBranch
  | none => c.error .expectedCaseBranch

/-- `'case' Expression 'of' Branch+` -/
def caseOf (floor : Nat) (expr : Nat → Rule) : Rule :=
  node .caseOfExpr fun c => (expr floor c.bump).expectThen .ofKw (caseBranches floor expr)

/-! ## Declarations of a block -/

/-- `lower ':' Type` -/
def typeSignature (floor : Nat) : Rule :=
  node .typeSignature fun c => type floor (c.bump.expect .colon)

/-- `(lower Parameter* | Pattern) '=' Expression`, where the declaration is an item of the block in
column `floor`. -/
def valueDeclaration (floor : Nat) (expr : Rule) : Rule :=
  node .valueDeclaration fun c =>
    let c :=
      if c.sees .lowerIdent then
        node .functionDeclarationLeft
          (fun c => repeatWhile (atPatternArgument floor) (parameter floor) c.bump) c
      else pattern floor c
    c.expectThen .eq expr

/-- One declaration of a `let`. -/
def letDeclaration (floor : Nat) (expr : Rule) (c : Cursor) : Cursor :=
  if c.seesBoth .lowerIdent .colon then typeSignature floor c
  else if atPattern c then valueDeclaration floor expr c
  else c.error .expectedDeclaration

/-- The declarations of a `let` from its first on, all in `column`. What is no declaration ends
them. -/
def letDeclarations (column : Nat) (expr : Rule) : (rounds : Nat) → Rule
  | 0, c => c.cutOff
  | rounds + 1, c =>
    if c.column? == some column && !c.sees .inKw then
      let after := letDeclaration column expr c
      if after.rest.length = c.rest.length then after else letDeclarations column expr rounds after
    else c

/-- The declarations of a `let`, all in the column of the first, which is right of the enclosing
block. -/
def letBlock (floor : Nat) (expr : Nat → Rule) (c : Cursor) : Cursor :=
  match c.column? with
  | some column =>
    if floor < column && !c.sees .inKw then
      letDeclarations column (expr column) (c.rest.length + 1) c
    else c.error .expectedDeclaration
  | none => c.error .expectedDeclaration

/-- `'let' (TypeSignature | ValueDeclaration)+ 'in' Expression` -/
def letIn (floor : Nat) (expr : Nat → Rule) : Rule :=
  node .letInExpr fun c => (letBlock floor expr c.bump).expectThen .inKw (expr floor)

/-! ## Whole expressions -/

def operand (floor : Nat) (expr : Nat → Rule) (c : Cursor) : Cursor :=
  match c.kind? with
  | some .backslash => lambda floor (expr floor) c
  | some .ifKw => ifElse (expr floor) c
  | some .caseKw => caseOf floor expr c
  | some .letKw => letIn floor expr c
  | _ =>
    if c.seesOperator "-" then negation (expr floor) c
    else application floor (expr floor) c

/-- The operators of a chain with their right operands. An operator without one ends it. -/
def operators (floor : Nat) (expr : Nat → Rule) : (rounds : Nat) → Rule
  | 0, c => c.cutOff
  | rounds + 1, c =>
    if atOperator floor c then
      let c := tokenNode .operator c
      if atOperand c && !c.atLayoutEnd floor then
        operators floor expr rounds (operand floor expr c)
      else c.error .expectedExpressionAfterOperator
    else c

/-- A whole expression, over the rule for the expressions inside it. -/
def exprOver (floor : Nat) (expr : Nat → Rule) (c : Cursor) : Cursor :=
  if atOperand c && !c.atLayoutEnd floor then
    fromHere (fun start c =>
      let c := operand floor expr c
      if atOperator floor c then
        wrap start .binOpExpr (fun c => operators floor expr (c.rest.length + 1) c) c
      else c) c
  else c.error .expectedExpression

/-- Expressions nested at most `depth` deep. -/
def exprWithin : (depth : Nat) → (floor : Nat) → Rule
  | 0, _ => cutOff
  | depth + 1, floor => exprOver floor (exprWithin depth)

/-- An expression. An expression inside another comes after at least one of its tokens, so the
tokens left bound the nesting. -/
def expr (floor : Nat) (c : Cursor) : Cursor := exprWithin (c.rest.length + 1) floor c

end ElmLint.Syntax.Grammar

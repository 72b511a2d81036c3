import ElmLint.Syntax.Grammar.Name

/-!
# Types

```text
Type        = Application ('->' Application)*
Application = UpperCaseName Argument* | Argument
Argument    = lower | UpperCaseName | Parenthesized | Record
```

`floor` is the column of the enclosing layout block, at or left of which arguments and arrows end.
Rules for nested types take the rule for a whole type as `type`.
-/

namespace ElmLint.Syntax.Grammar

open Cursor

def atTypeArgument (c : Cursor) : Bool :=
  c.seesAny [.lowerIdent, .upperIdent, .lParen, .lBrace]

/-- `'(' ')' | '(' Type ')' | '(' Type (',' Type)+ ')'` -/
def parenthesizedType (type : Rule) : Rule :=
  fromHere fun start c =>
    let c := c.bump
    if c.sees .rParen then wrap start .unitExpr bump c
    else
      let c := type c
      if c.sees .comma then
        wrap start .tupleType (fun c =>
          (repeatWhile (·.sees .comma) (fun c => type c.bump) c).expect .rParen) c
      else wrap start .typeExpression (·.expect .rParen) c

/-- `lower ':' Type` -/
def fieldType (type : Rule) (c : Cursor) : Cursor :=
  if c.sees .lowerIdent then node .fieldType (fun c => c.bump.expectThen .colon type) c
  else c.error .expectedFieldName

/-- `lower '|'`, the record that is extended, in front of the fields of a record. -/
def recordBase (c : Cursor) : Cursor :=
  if c.seesBoth .lowerIdent .pipe then (tokenNode .recordBaseIdentifier c).bump else c

/-- `'{' (lower '|')? (FieldType (',' FieldType)*)? '}'` -/
def recordType (type : Rule) : Rule :=
  node .recordType fun c =>
    let c := recordBase c.bump
    let c := if c.sees .rBrace then c else commaSeparated (fieldType type) c
    c.expect .rBrace

def typeArgument (type : Rule) (c : Cursor) : Cursor :=
  let c := c.skipTrivia
  match c.kind? with
  | some .lowerIdent => tokenNode .typeVariable c
  | some .upperIdent => node .typeRef upperCaseName c
  | some .lParen => parenthesizedType type c
  | some .lBrace => recordType type c
  | _ => c.error .expectedType

/-- A type name with its arguments, or one argument alone. -/
def typeApplication (floor : Nat) (type : Rule) (c : Cursor) : Cursor :=
  if c.sees .upperIdent then
    node .typeRef
      (fun c => repeatWhile (fun c => atTypeArgument c && !c.atLayoutEnd floor)
        (typeArgument type) (upperCaseName c)) c
  else typeArgument type c

def atArrow (floor : Nat) (c : Cursor) : Bool := c.sees .arrow && !c.atLayoutEnd floor

/-- The arrows of a function type with what they lead to. An arrow that leads nowhere ends it. -/
def arrows (floor : Nat) (type : Rule) : (rounds : Nat) → Rule
  | 0, c => c.cutOff
  | rounds + 1, c =>
    if atArrow floor c then
      let c := c.bump
      if atTypeArgument c then arrows floor type rounds (typeApplication floor type c)
      else c.error .expectedTypeAfterArrow
    else c

/-- A whole type, over the rule for the types inside it. A lone application stays as it is; a
function type is one node over all its arrows. -/
def typeOver (floor : Nat) (type : Rule) (c : Cursor) : Cursor :=
  if atTypeArgument c then
    fromHere (fun start c =>
      let c := typeApplication floor type c
      if atArrow floor c then
        wrap start .typeExpression (fun c => arrows floor type (c.rest.length + 1) c) c
      else c) c
  else c.error .expectedType

/-- Types nested at most `depth` deep. -/
def typeWithin (floor : Nat) : (depth : Nat) → Rule
  | 0 => cutOff
  | depth + 1 => typeOver floor (typeWithin floor depth)

/-- A type. A type inside another comes after a bracket, so the tokens left bound the nesting. -/
def type (floor : Nat) (c : Cursor) : Cursor := typeWithin floor (c.rest.length + 1) c

end ElmLint.Syntax.Grammar

import ElmLint.Syntax.Grammar.Name

/-!
# Patterns

```text
Pattern     = Cons ('as' lower)?
Cons        = Constructor ('::' Cons)?
Constructor = UpperCaseName Atomic* | Atomic
Atomic      = lower | '_' | UpperCaseName | literal | Parenthesized | List | Record
```

`floor` is the column of the enclosing layout block. Rules for nested patterns take the rule for a
whole pattern as `pattern`.
-/

namespace ElmLint.Syntax.Grammar

open Cursor

def atPattern (c : Cursor) : Bool :=
  c.seesAny [.lowerIdent, .upperIdent, .underscore, .lParen, .lBracket, .lBrace, .number, .string,
    .char] ||
  c.seesOperator "-" && c.secondKind? == some .number

/-- `'(' ')' | '(' Pattern ')' | '(' Pattern (',' Pattern)+ ')'` -/
def parenthesizedPattern (pattern : Rule) : Rule :=
  fromHere fun start c =>
    let c := c.bump
    if c.sees .rParen then wrap start .unitExpr bump c
    else
      let c := pattern c
      if c.sees .comma then
        wrap start .tuplePattern (fun c =>
          (repeatWhile (·.sees .comma) (fun c => pattern c.bump) c).expect .rParen) c
      else wrap start .parenthesizedPattern (·.expect .rParen) c

/-- `'[' (Pattern (',' Pattern)*)? ']'` -/
def listPattern (pattern : Rule) : Rule :=
  node .listPattern fun c =>
    let c := c.bump
    let c := if c.sees .rBracket then c else commaSeparated pattern c
    c.expect .rBracket

/-- The fields of a record pattern. What is no name ends them. -/
def patternFields : (rounds : Nat) → Rule
  | 0, c => c.cutOff
  | rounds + 1, c =>
    if c.sees .lowerIdent then
      let c := tokenNode .lowerPattern c
      if c.sees .comma then patternFields rounds c.bump else c
    else c.error .expectedFieldName

/-- `'{' lower (',' lower)* '}'` -/
def recordPattern : Rule :=
  node .recordPattern fun c =>
    let c := c.bump
    (patternFields (c.rest.length + 1) c).expect .rBrace

def atomicPattern (pattern : Rule) (c : Cursor) : Cursor :=
  let c := c.skipTrivia
  match c.kind? with
  | some .lowerIdent => tokenNode .lowerPattern c
  | some .underscore => tokenNode .anythingPattern c
  | some .upperIdent => node .unionPattern upperCaseName c
  | some .number | some .string | some .char => tokenNode .literalPattern c
  | some .lParen => parenthesizedPattern pattern c
  | some .lBracket => listPattern pattern c
  | some .lBrace => recordPattern c
  | _ =>
    if c.seesOperator "-" then node .literalPattern (fun c => c.bump.expect .number) c
    else c.error .expectedPattern

def atPatternArgument (floor : Nat) (c : Cursor) : Bool := atPattern c && !c.atLayoutEnd floor

/-- A constructor with its arguments, or one atomic pattern. -/
def constructorPattern (floor : Nat) (pattern : Rule) (c : Cursor) : Cursor :=
  if c.sees .upperIdent then
    node .unionPattern
      (fun c => repeatWhile (atPatternArgument floor) (atomicPattern pattern) (upperCaseName c)) c
  else atomicPattern pattern c

/-- A constructor pattern and perhaps a tail, over the rules for a whole pattern and for the
tail. -/
def consOver (floor : Nat) (pattern cons : Rule) : Rule :=
  fromHere fun start c =>
    let c := constructorPattern floor pattern c
    if c.seesOperator "::" && !c.atLayoutEnd floor then
      wrap start .consPattern (fun c =>
        let c := c.bump
        if atPattern c then cons c else c.error .expectedPatternAfterCons) c
    else c

/-- A whole pattern, over the rules for the patterns inside it. -/
def patternOver (floor : Nat) (pattern cons : Rule) : Rule :=
  fromHere fun start c =>
    let c := consOver floor pattern cons c
    if c.sees .asKw then
      wrap start .asPattern (fun c =>
        let c := c.bump
        if c.sees .lowerIdent then tokenNode .lowerPattern c
        else c.error .expectedNameAfterAs) c
    else c

mutual

/-- Patterns nested at most `depth` deep. -/
def patternWithin (floor : Nat) : (depth : Nat) → Rule
  | 0 => cutOff
  | depth + 1 => patternOver floor (patternWithin floor depth) (consWithin floor depth)

/-- Tails of list patterns nested at most `depth` deep. -/
def consWithin (floor : Nat) : (depth : Nat) → Rule
  | 0 => cutOff
  | depth + 1 => consOver floor (patternWithin floor depth) (consWithin floor depth)

end

/-- A pattern. A pattern inside another comes after a bracket or a `::`, so the tokens left bound
the nesting. -/
def pattern (floor : Nat) (c : Cursor) : Cursor := patternWithin floor (c.rest.length + 1) c

def parameter (floor : Nat) (c : Cursor) : Cursor := atomicPattern (pattern floor) c

end ElmLint.Syntax.Grammar

import ElmLint.Syntax.Grammar.Expression
import ElmLint.Syntax.Lexer

/-!
# Files

```text
File = ModuleDeclaration? Import* Declaration*
```

Every top-level item starts in the first column. What fits nowhere is put into an `error` node that
goes on to the next token in the first column.
-/

namespace ElmLint.Syntax.Grammar

open Cursor

/-- Records the error and puts the tokens up to the next top-level item into an `error` node, at
least one of them. -/
def recover (cause : SyntaxError.Cause) (c : Cursor) : Cursor :=
  node .error (fun c => repeatWhile (fun c => c.column?.any (0 < ·)) bump c.bump) (c.error cause)

/-! ## Header and imports -/

/-- `lower | Upper ('(' '..' ')')? | '(' operator ')'` -/
def exposedItem (c : Cursor) : Cursor :=
  let c := c.skipTrivia
  match c.kind? with
  | some .lowerIdent => tokenNode .exposedValue c
  | some .upperIdent =>
    node .exposedType (fun c =>
      let c := c.bump
      if c.seesBoth .lParen .dotDot then
        node .exposedUnionConstructors (fun c => c.bump.bump.expect .rParen) c
      else c) c
  | some .lParen =>
    node .exposedOperator (fun c => (c.bump.expect .operatorIdent).expect .rParen) c
  | _ => c.error .expectedExposedItem

/-- Exposed items as long as commas follow. An item that does not move the cursor ends them. -/
def exposedItems : (rounds : Nat) → Rule
  | 0, c => c.cutOff
  | rounds + 1, c =>
    let after := exposedItem c
    if after.rest.length = c.rest.length || !after.sees .comma then after
    else exposedItems rounds after.bump

/-- `'(' ('..' | ExposedItem (',' ExposedItem)*) ')'` -/
def exposingList : Rule :=
  node .exposingList fun c =>
    c.expectThen .lParen fun c =>
      let c := if c.sees .dotDot then c.bump else exposedItems (c.rest.length + 1) c
      c.expect .rParen

/-- `'port'? 'module' UpperCaseName 'exposing' ExposingList` -/
def moduleDeclaration : Rule :=
  node .moduleDeclaration fun c =>
    (upperCaseName ((c.accept .portKw).expect .moduleKw)).expectThen .exposingKw exposingList

/-- `'as' Upper` -/
def asClause : Rule := node .asClause fun c => c.bump.expect .upperIdent

/-- `'import' UpperCaseName AsClause? ('exposing' ExposingList)?` -/
def importClause : Rule :=
  node .importClause fun c =>
    let c := upperCaseName (c.expect .importKw)
    let c := if c.sees .asKw then asClause c else c
    if c.sees .exposingKw then exposingList c.bump else c

/-! ## Types and ports -/

/-- `'port' lower ':' Type` -/
def portSignature (floor : Nat) : Rule :=
  node .portSignature fun c => type floor ((c.bump.expect .lowerIdent).expect .colon)

def typeHead (c : Cursor) : Cursor :=
  repeatWhile (·.sees .lowerIdent) bump (c.expect .upperIdent)

/-- `Upper Argument*` -/
def unionVariant (floor : Nat) (c : Cursor) : Cursor :=
  if c.sees .upperIdent then
    node .unionVariant
      (fun c => repeatWhile (fun c => atTypeArgument c && !c.atLayoutEnd floor)
        (typeArgument (type floor)) c.bump) c
  else c.error .expectedConstructorName

/-- `UnionVariant ('|' UnionVariant)*` -/
def unionVariants (floor : Nat) (c : Cursor) : Cursor :=
  repeatWhile (fun c => c.sees .pipe && !c.atLayoutEnd floor) (fun c => unionVariant floor c.bump)
    (unionVariant floor c)

/-- `'type' Upper lower* '=' UnionVariant ('|' UnionVariant)*` -/
def typeDeclaration (floor : Nat) : Rule :=
  node .typeDeclaration fun c => (typeHead c.bump).expectThen .eq (unionVariants floor)

/-- `'type' 'alias' Upper lower* '=' Type` -/
def typeAliasDeclaration (floor : Nat) : Rule :=
  node .typeAliasDeclaration fun c => (typeHead c.bump.bump).expectThen .eq (type floor)

/-! ## The file -/

def topLevelItem (c : Cursor) : Cursor :=
  match c.kind?, c.secondKind? with
  | some .moduleKw, _ => moduleDeclaration c
  | some .portKw, some .moduleKw => moduleDeclaration c
  | some .portKw, _ => portSignature 0 c
  | some .importKw, _ => importClause c
  | some .typeKw, some .aliasKw => typeAliasDeclaration 0 c
  | some .typeKw, _ => typeDeclaration 0 c
  | some .lowerIdent, some .colon => typeSignature 0 c
  | some .lowerIdent, _ => valueDeclaration 0 (expr 0) c
  | kind, _ => recover (.unexpectedToken kind) c

/-- One step through the file: an item, or what stands outside the first column. -/
def fileItem (c : Cursor) : Cursor :=
  if c.column? == some 0 then
    let after := topLevelItem c
    if after.rest.length = c.rest.length && !after.atEnd then
      recover (.stuckOnToken after.kind?) after
    else after
  else recover .misplacedDeclaration c

def file (c : Cursor) : Cursor :=
  (repeatWhile (!·.atEnd) fileItem (c.startNode .file)).skipTrivia.finishNode

end ElmLint.Syntax.Grammar

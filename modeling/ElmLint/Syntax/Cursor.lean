import ElmLint.Syntax.Builder
import ElmLint.Syntax.SyntaxError

/-!
# Walking over the tokens

A `Cursor` stands between the tokens that are already part of a tree and those that are left. Rules
of the grammar move it on. Looking ahead passes over white space and comments; consuming a token
first places the ones in front of it into the node that is open at that moment.

A node is built around what a rule consumes: `node` starts it at the next token, and `wrap` starts it
at a checkpoint, which `fromHere` takes at the next token, too. So a node never starts with white
space or a comment.

Rules that repeat or nest take a bound on that. The bounds in use lie above what the tokens left
allow for; a cursor remembers whether one was reached nevertheless.
-/

namespace ElmLint.Syntax

structure PlacedToken extends Token where
  column : Nat
  deriving DecidableEq, Repr, Inhabited

/-- The column after a text that starts in `column`. -/
def columnAfter (column : Nat) (text : List Char) : Nat :=
  text.foldl (fun column c => if c = '\n' then 0 else column + 1) column

/-- The tokens with their columns, where the first stands in `column`. -/
def placeTokens (column : Nat) : List Token → List PlacedToken
  | [] => []
  | token :: tokens =>
    ⟨token, column⟩ :: placeTokens (columnAfter column token.text.toList) tokens

structure Cursor where
  rest : List PlacedToken
  textEnd : Nat
  builder : Builder
  /-- The errors so far, the last first. -/
  errors : List SyntaxError
  /-- A rule was cut off at its bound. -/
  isCutOff : Bool
  deriving Inhabited

abbrev Rule := Cursor → Cursor

namespace Cursor

/-! ## Looking ahead -/

/-- The tokens left, from the first that is neither white space nor a comment. -/
def ahead (c : Cursor) : List PlacedToken := c.rest.dropWhile (·.kind.isTrivia)

def next? (c : Cursor) : Option PlacedToken := c.ahead.head?

def second? (c : Cursor) : Option PlacedToken :=
  (c.ahead.tail.dropWhile (·.kind.isTrivia)).head?

def kind? (c : Cursor) : Option Kind := c.next?.map (·.kind)

def secondKind? (c : Cursor) : Option Kind := c.second?.map (·.kind)

def column? (c : Cursor) : Option Nat := c.next?.map (·.column)

/-- The next token is of `kind`. -/
def sees (c : Cursor) (kind : Kind) : Bool := c.kind? == some kind

def seesBoth (c : Cursor) (first second : Kind) : Bool :=
  c.sees first && c.secondKind? == some second

/-- The next token is the operator `symbol`. -/
def seesOperator (c : Cursor) (symbol : String) : Bool :=
  c.next?.any fun t => t.kind == .operatorIdent && t.text == symbol

def seesAny (c : Cursor) (kinds : List Kind) : Bool := c.kind?.any kinds.contains

def atEnd (c : Cursor) : Bool := c.next?.isNone

/-- The next token cannot go on with a layout block whose items stand in column `floor`: it stands
at or left of it, or there is none. -/
def atLayoutEnd (floor : Nat) (c : Cursor) : Bool := c.column?.all (· ≤ floor)

/-- The tokens right at the cursor, nothing passed over, are of these two kinds. -/
def touches (c : Cursor) (first second : Kind) : Bool :=
  match c.rest with
  | a :: b :: _ => a.kind == first && b.kind == second
  | _ => false

/-! ## Moving on -/

def skipTrivia (c : Cursor) : Cursor :=
  go c.rest c
where
  go : List PlacedToken → Cursor → Cursor
    | [], c => c
    | t :: rest, c =>
      if t.kind.isTrivia then
        go rest { c with rest := rest, builder := c.builder.token t.kind t.text }
      else c

/-- Emits the next token, after the white space and comments in front of it. -/
def bump (c : Cursor) : Cursor :=
  let c := c.skipTrivia
  match c.rest with
  | [] => c
  | t :: rest => { c with rest := rest, builder := c.builder.token t.kind t.text }

/-- Records an error at the next token, or at the end of the text. -/
def error (cause : SyntaxError.Cause) (c : Cursor) : Cursor :=
  let range := match c.next? with
    | some t => t.range
    | none => .empty c.textEnd
  { c with errors := ⟨cause, range⟩ :: c.errors }

/-- Emits the next token if it is of `kind`. -/
def accept (kind : Kind) (c : Cursor) : Cursor := if c.sees kind then c.bump else c

/-- Emits the next token, which has to be of `kind`. -/
def expect (kind : Kind) (c : Cursor) : Cursor :=
  if c.sees kind then c.bump else c.error (.expectedToken kind)

/-- Emits the next token, which has to be of `kind`, and goes on with `rule` only if it is. -/
def expectThen (kind : Kind) (rule : Rule) (c : Cursor) : Cursor :=
  if c.sees kind then rule c.bump else c.error (.expectedToken kind)

/-! ## Building nodes -/

def startNode (kind : Kind) (c : Cursor) : Cursor :=
  { c with builder := c.builder.startNode kind }

def startNodeAt (checkpoint : Nat) (kind : Kind) (c : Cursor) : Cursor :=
  { c with builder := c.builder.startNodeAt checkpoint kind }

def finishNode (c : Cursor) : Cursor := { c with builder := c.builder.finishNode }

/-- Makes one node of what `rule` emits from the next token on. -/
def node (kind : Kind) (rule : Rule) (c : Cursor) : Cursor :=
  (rule (c.skipTrivia.startNode kind)).finishNode

def tokenNode (kind : Kind) : Rule := node kind bump

/-- Runs a rule that may make nodes of all that comes from the next token on. -/
def fromHere (rule : (checkpoint : Nat) → Rule) (c : Cursor) : Cursor :=
  let c := c.skipTrivia
  rule c.builder.checkpoint c

/-- Makes one node of all that has come since the checkpoint and of what `rule` adds. -/
def wrap (checkpoint : Nat) (kind : Kind) (rule : Rule) (c : Cursor) : Cursor :=
  (rule (c.startNodeAt checkpoint kind)).finishNode

/-! ## Repetition -/

def cutOff (c : Cursor) : Cursor := { c with isCutOff := true }

/-- Runs `rule` as long as `more` holds. Every round has to consume a token, so there are at most
as many as tokens are left. -/
def repeatWhile (more : Cursor → Bool) (rule : Rule) (c : Cursor) : Cursor :=
  go (c.rest.length + 1) c
where
  go : Nat → Cursor → Cursor
    | 0, c => c.cutOff
    | rounds + 1, c => if more c then go rounds (rule c) else c

/-- `item`, and once more after every comma. -/
def commaSeparated (item : Rule) (c : Cursor) : Cursor :=
  repeatWhile (·.sees .comma) (fun c => item c.bump) (item c)

end Cursor

end ElmLint.Syntax

import ElmLint.Syntax.Token

/-!
# Cutting a text into tokens

`tokenize` cuts a text into tokens that give it back when joined. What no rule accepts becomes an
`error` token: a character that starts nothing, or the opening quote of an unfinished literal
together with the complete pieces after it.
-/

namespace ElmLint.Syntax

structure Lexeme where
  kind : Kind
  text : List Char
  rest : List Char
  deriving DecidableEq, Repr

namespace Lexeme

def prepend (cs : List Char) (l : Lexeme) : Lexeme := { l with text := cs ++ l.text }

/-- `c` and the characters after it as long as `p` holds. -/
def run (kind : Kind) (p : Char → Bool) (c : Char) (cs : List Char) : Lexeme :=
  ⟨kind, c :: cs.takeWhile p, cs.dropWhile p⟩

def single (kind : Kind) (c : Char) (cs : List Char) : Lexeme := ⟨kind, [c], cs⟩

end Lexeme

/-! ## Character classes -/

/-- White space of the language: blank, tab and the two line breaks. -/
def isSpace (c : Char) : Bool := c = ' ' || c = '\t' || c = '\r' || c = '\n'

/-- What may follow the first letter of a name: ASCII letters and digits, and the underscore. -/
def isNameChar (c : Char) : Bool := c.isAlphanum || c = '_'

def isHexDigit (c : Char) : Bool :=
  c.isDigit || ('a' ≤ c && c ≤ 'f') || ('A' ≤ c && c ≤ 'F')

def isSymbol (c : Char) : Bool := "+-*/<>=&|^!?%:.$#~@".toList.contains c

/-! ## The rules -/

/-- Reads a block comment until `depth` openings are closed, or to the end of the text. -/
def blockComment : (depth : Nat) → List Char → Lexeme
  | 0, cs => ⟨.blockComment, [], cs⟩
  | _ + 1, [] => ⟨.blockComment, [], []⟩
  | depth + 1, '{' :: '-' :: cs => (blockComment (depth + 2) cs).prepend ['{', '-']
  | depth + 1, '-' :: '}' :: cs => (blockComment depth cs).prepend ['-', '}']
  | depth + 1, c :: cs => (blockComment (depth + 1) cs).prepend [c]

/-- Reads a literal on one line up to its closing quote. A backslash takes the next character with
it, and neither may be a line feed. -/
def quoted (kind : Kind) (quote : Char) : List Char → Lexeme
  | [] => ⟨.error, [], []⟩
  | '\\' :: c :: cs =>
    if c = '\n' then ⟨.error, [], '\\' :: c :: cs⟩ else (quoted kind quote cs).prepend ['\\', c]
  | c :: cs =>
    if c = quote then ⟨kind, [c], cs⟩
    else if c = '\\' ∨ c = '\n' then ⟨.error, [], c :: cs⟩
    else (quoted kind quote cs).prepend [c]

/-- Reads a string over many lines up to its three closing quotes. One or two quotes inside take
the next character with them, whatever it is. -/
def multiline : List Char → Lexeme
  | [] => ⟨.error, [], []⟩
  | '"' :: '"' :: '"' :: cs => ⟨.string, ['"', '"', '"'], cs⟩
  | '"' :: '"' :: c :: cs => (multiline cs).prepend ['"', '"', c]
  | ['"', '"'] => ⟨.error, [], ['"', '"']⟩
  | '"' :: c :: cs => (multiline cs).prepend ['"', c]
  | ['"'] => ⟨.error, [], ['"']⟩
  | '\\' :: c :: cs =>
    if c = '\n' then ⟨.error, [], '\\' :: c :: cs⟩ else (multiline cs).prepend ['\\', c]
  | ['\\'] => ⟨.error, [], ['\\']⟩
  | c :: cs => (multiline cs).prepend [c]

/-- The fraction in front of the text: a point and digits, or nothing. -/
def fraction : List Char → List Char
  | '.' :: cs => if (cs.takeWhile Char.isDigit).isEmpty then [] else '.' :: cs.takeWhile Char.isDigit
  | _ => []

/-- The exponent in front of the text: a mark, perhaps a sign, and digits, or nothing. -/
def exponent : List Char → List Char
  | mark :: cs =>
    if mark = 'e' ∨ mark = 'E' then
      let sign := cs.take 1 |>.filter fun c => c = '+' || c = '-'
      let digits := (cs.drop sign.length).takeWhile Char.isDigit
      if digits.isEmpty then [] else mark :: (sign ++ digits)
    else []
  | [] => []

/-- Reads a number whose first digit is `c`. Hexadecimal digits follow `0x`; else a fraction and an
exponent may follow, each only when complete. -/
def number (c : Char) (cs : List Char) : Lexeme :=
  match c, cs with
  | '0', 'x' :: hex =>
    if (hex.takeWhile isHexDigit).isEmpty then decimal c cs
    else (Lexeme.run .number isHexDigit 'x' hex).prepend [c]
  | _, _ => decimal c cs
where
  decimal (c : Char) (cs : List Char) : Lexeme :=
    let digits := cs.takeWhile Char.isDigit
    let afterDigits := cs.dropWhile Char.isDigit
    let frac := fraction afterDigits
    let afterFraction := afterDigits.drop frac.length
    let exp := exponent afterFraction
    ⟨.number, c :: (digits ++ frac ++ exp), afterFraction.drop exp.length⟩

/-- Reserved words, and any other name that starts with a small letter. -/
def wordKind (word : String) : Kind :=
  match word with
  | "module" => .moduleKw
  | "port" => .portKw
  | "exposing" => .exposingKw
  | "import" => .importKw
  | "as" => .asKw
  | "type" => .typeKw
  | "alias" => .aliasKw
  | "case" => .caseKw
  | "of" => .ofKw
  | "if" => .ifKw
  | "then" => .thenKw
  | "else" => .elseKw
  | "let" => .letKw
  | "in" => .inKw
  | _ => .lowerIdent

/-- The reserved operators, and any other run of operator characters. -/
def symbolKind (symbol : String) : Kind :=
  match symbol with
  | "|" => .pipe
  | "=" => .eq
  | ":" => .colon
  | "->" => .arrow
  | "." => .dot
  | ".." => .dotDot
  | _ => .operatorIdent

def punctuationKind? : Char → Option Kind
  | '(' => some .lParen
  | ')' => some .rParen
  | '[' => some .lBracket
  | ']' => some .rBracket
  | '{' => some .lBrace
  | '}' => some .rBrace
  | ',' => some .comma
  | '\\' => some .backslash
  | '_' => some .underscore
  | _ => none

/-- The token that starts with `c`, where `cs` is the text after `c`. -/
def lexeme (c : Char) (cs : List Char) : Lexeme :=
  if isSpace c then .run .whitespace isSpace c cs
  else if c = '-' ∧ cs.head? = some '-' then .run .lineComment (· != '\n') c cs
  else if c = '{' ∧ cs.head? = some '-' then (blockComment 1 cs.tail).prepend ['{', '-']
  else if c.isLower then
    let l := Lexeme.run .lowerIdent isNameChar c cs
    { l with kind := wordKind (String.ofList l.text) }
  else if c.isUpper then .run .upperIdent isNameChar c cs
  else if c.isDigit then number c cs
  else if c = '"' then
    match cs with
    | '"' :: '"' :: cs => (multiline cs).prepend ['"', '"', '"']
    | cs => (quoted .string '"' cs).prepend ['"']
  else if c = '\'' then (quoted .char '\'' cs).prepend ['\'']
  else if isSymbol c then
    let l := Lexeme.run .operatorIdent isSymbol c cs
    { l with kind := symbolKind (String.ofList l.text) }
  else .single ((punctuationKind? c).getD .error) c cs

/-- Cuts at most `fuel` tokens off the text that starts at `offset`. -/
def tokensFrom : (fuel : Nat) → (offset : Nat) → List Char → List Token
  | 0, _, _ => []
  | _, _, [] => []
  | fuel + 1, offset, c :: cs =>
    let l := lexeme c cs
    ⟨l.kind, String.ofList l.text, offset⟩ ::
      tokensFrom fuel (offset + utf8Length l.text) l.rest

/-- The tokens of a text. Each takes at least one character, so there are no more of them than
characters. -/
def tokenize (text : String) : List Token := tokensFrom text.toList.length 0 text.toList

end ElmLint.Syntax

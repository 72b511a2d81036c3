import ElmLint.Syntax.Lexer
import Mathlib.Computability.RegularExpressions

/-!
# Sentences of the grammar

The grammar of expressions, patterns and types as a table: what a rule stands for is a regular
expression over terminals and rules. A sentence is a list of words, and it can be written with any
white space between them, as long as it stays on one line.

Layout plays no role in these sentences: a `case` has one branch and a `let` one declaration.
-/

namespace ElmLint.Syntax

open RegularExpression (char star)

-- ---------------------------------------------------------------------------
-- Words
-- ---------------------------------------------------------------------------

/-- A word of a sentence. -/
structure Sign where
  kind : Kind
  text : String
  /-- Nothing stands between the word and the one in front of it. -/
  isAttached : Bool
  deriving DecidableEq, Repr

/-- The word is a token of the kind that ends on its line. -/
structure Sign.IsToken (sign : Sign) (kind : Kind) : Prop where
  kind_eq : sign.kind = kind
  tokenize_eq : tokenize sign.text = [⟨kind, sign.text, 0⟩]
  oneLine : '\n' ∉ sign.text.toList

/-- The ways to write the words: white space of the line in front of each, or nothing if the word is
attached. -/
inductive IsWritten : List Sign → List Char → Prop
  | nil : IsWritten [] []
  | attached {sign : Sign} {signs : List Sign} {cs : List Char} (h : sign.isAttached = true)
    (hmore : IsWritten signs cs) : IsWritten (sign :: signs) (sign.text.toList ++ cs)
  | spaced {sign : Sign} {signs : List Sign} {gap cs : List Char} (h : sign.isAttached = false)
    (hgap : gap ≠ []) (hspace : ∀ c ∈ gap, isSpace c = true ∧ c ≠ '\n')
    (hmore : IsWritten signs cs) : IsWritten (sign :: signs) (gap ++ (sign.text.toList ++ cs))

-- ---------------------------------------------------------------------------
-- The table
-- ---------------------------------------------------------------------------

inductive Nonterminal where
  | expression | operand | lambda | ifElse | caseOf | letIn | declaration | negation
  | application | access | atom | qualifiedValue | accessor | parenthesizedExpr | listExpr
  | recordExpr | field
  | pattern | cons | constructor | atomicPattern | parenthesizedPattern | listPattern
  | recordPattern
  | type | typeApplication | typeArgument | parenthesizedType | recordType | fieldType
  | upperCaseName
  deriving DecidableEq, Repr

inductive Symbol where
  /-- A token of the kind, with white space in front of it. -/
  | word (kind : Kind)
  /-- A token of the kind right behind the one in front of it. -/
  | attached (kind : Kind)
  | operator (text : String)
  | rule (n : Nonterminal)
  /-- What the rule stands for, if it does not begin with a token of the kind. -/
  | ruleApart (n : Nonterminal) (first : Kind)
  deriving DecidableEq, Repr

namespace Grammar.Form

def word (kind : Kind) : RegularExpression Symbol := char (.word kind)

def attached (kind : Kind) : RegularExpression Symbol := char (.attached kind)

def operator (text : String) : RegularExpression Symbol := char (.operator text)

def rule (n : Nonterminal) : RegularExpression Symbol := char (.rule n)

def optional (form : RegularExpression Symbol) : RegularExpression Symbol := 1 + form

def separated (form : RegularExpression Symbol) : RegularExpression Symbol :=
  form * star (word .comma * form)

/-- In parentheses, nothing, one, or several with commas between them. -/
def parenthesized (form : RegularExpression Symbol) : RegularExpression Symbol :=
  word .lParen * optional (separated form) * word .rParen

/-- Labelled items in braces, perhaps with the name of a record in front. -/
def record (item : RegularExpression Symbol) : RegularExpression Symbol :=
  word .lBrace * optional (word .lowerIdent * word .pipe) * optional (separated item) * word .rBrace

/-- A name with parameters, or a pattern that does not begin with such a name. -/
def declarationLeft : RegularExpression Symbol :=
  word .lowerIdent * star (rule .atomicPattern) + char (.ruleApart .pattern .lowerIdent)

end Grammar.Form

open Grammar.Form in
/-- What a rule of the grammar stands for. -/
def Nonterminal.form : Nonterminal → RegularExpression Symbol
  -- Expressions.
  | .expression => rule .operand * star (word .operatorIdent * rule .operand)
  | .operand =>
    rule .lambda + rule .ifElse + rule .caseOf + rule .letIn + rule .negation + rule .application
  | .lambda =>
    word .backslash * (rule .atomicPattern * star (rule .atomicPattern)) * word .arrow *
      rule .expression
  | .ifElse =>
    word .ifKw * rule .expression * word .thenKw * rule .expression * word .elseKw *
      rule .expression
  | .caseOf =>
    word .caseKw * rule .expression * word .ofKw * rule .pattern * word .arrow * rule .expression
  | .letIn => word .letKw * rule .declaration * word .inKw * rule .expression
  | .declaration =>
    word .lowerIdent * word .colon * rule .type +
      declarationLeft * word .eq * rule .expression
  | .negation => operator "-" * rule .access
  | .application => rule .access * star (rule .access)
  | .access => rule .atom * star (attached .dot * attached .lowerIdent)
  | .atom =>
    word .lowerIdent + rule .qualifiedValue + word .number + word .string + word .char +
      rule .accessor + rule .parenthesizedExpr + rule .listExpr + rule .recordExpr
  | .qualifiedValue => rule .upperCaseName * optional (attached .dot * attached .lowerIdent)
  | .accessor => word .dot * (word .lowerIdent + attached .lowerIdent)
  | .parenthesizedExpr =>
    parenthesized (rule .expression) + word .lParen * word .operatorIdent * word .rParen
  | .listExpr => word .lBracket * optional (separated (rule .expression)) * word .rBracket
  | .recordExpr => record (rule .field)
  | .field => word .lowerIdent * word .eq * rule .expression
  -- Patterns.
  | .pattern => rule .cons * optional (word .asKw * word .lowerIdent)
  | .cons => rule .constructor * optional (operator "::" * rule .cons)
  | .constructor => rule .upperCaseName * star (rule .atomicPattern) + rule .atomicPattern
  | .atomicPattern =>
    word .lowerIdent + word .underscore + rule .upperCaseName + word .number + word .string +
      word .char + operator "-" * word .number + rule .parenthesizedPattern + rule .listPattern +
      rule .recordPattern
  | .parenthesizedPattern => parenthesized (rule .pattern)
  | .listPattern => word .lBracket * optional (separated (rule .pattern)) * word .rBracket
  | .recordPattern => word .lBrace * separated (word .lowerIdent) * word .rBrace
  -- Types.
  | .type => rule .typeApplication * star (word .arrow * rule .typeApplication)
  | .typeApplication => rule .upperCaseName * star (rule .typeArgument) + rule .typeArgument
  | .typeArgument =>
    word .lowerIdent + rule .upperCaseName + rule .parenthesizedType + rule .recordType
  | .parenthesizedType => parenthesized (rule .type)
  | .recordType => record (rule .fieldType)
  | .fieldType => word .lowerIdent * word .colon * rule .type
  -- Names.
  | .upperCaseName => word .upperIdent * star (attached .dot * attached .upperIdent)

/-- The words can be derived from the form. -/
inductive Derives : RegularExpression Symbol → List Sign → Prop
  | epsilon : Derives 1 []
  | word {kind : Kind} {sign : Sign} (h : sign.IsToken kind) (hspaced : sign.isAttached = false) :
    Derives (char (.word kind)) [sign]
  | attached {kind : Kind} {sign : Sign} (h : sign.IsToken kind)
    (hattached : sign.isAttached = true) : Derives (char (.attached kind)) [sign]
  | operator {sign : Sign} (h : sign.IsToken .operatorIdent) (hspaced : sign.isAttached = false) :
    Derives (char (.operator sign.text)) [sign]
  | rule {n : Nonterminal} {signs : List Sign} (h : Derives n.form signs) :
    Derives (char (.rule n)) signs
  | ruleApart {n : Nonterminal} {first : Kind} {signs : List Sign} (h : Derives n.form signs)
    (hfirst : ∀ sign ∈ signs.head?, sign.kind ≠ first) :
    Derives (char (.ruleApart n first)) signs
  | left {form other : RegularExpression Symbol} {signs : List Sign} (h : Derives form signs) :
    Derives (form + other) signs
  | right {form other : RegularExpression Symbol} {signs : List Sign} (h : Derives form signs) :
    Derives (other + form) signs
  | append {form form' : RegularExpression Symbol} {signs signs' : List Sign}
    (h : Derives form signs) (h' : Derives form' signs') : Derives (form * form') (signs ++ signs')
  | starNil (form : RegularExpression Symbol) : Derives (star form) []
  | starCons {form : RegularExpression Symbol} {signs signs' : List Sign} (h : Derives form signs)
    (h' : Derives (star form) signs') : Derives (star form) (signs ++ signs')

end ElmLint.Syntax

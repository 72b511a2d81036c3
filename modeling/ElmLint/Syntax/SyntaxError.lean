import ElmLint.Syntax.Kind
import ElmLint.Text.Position

/-!
# Syntax errors

An error says what the grammar missed and marks the token it met instead. At the end of the text it
marks the empty range there.
-/

namespace ElmLint.Syntax

inductive SyntaxError.Cause where
  | expectedToken (kind : Kind)
  | expectedModuleOrTypeName
  | expectedExposedItem
  | expectedConstructorName
  | expectedFieldName
  | expectedType
  | expectedTypeAfterArrow
  | expectedPattern
  | expectedPatternAfterCons
  | expectedNameAfterAs
  | expectedExpression
  | expectedExpressionAfterOperator
  | expectedExpressionAfterMinus
  | expectedLambdaParameter
  | expectedCaseBranch
  | expectedDeclaration
  | misplacedDeclaration
  | unexpectedToken (kind : Option Kind)
  | stuckOnToken (kind : Option Kind)
  deriving DecidableEq, Repr

structure SyntaxError where
  cause : SyntaxError.Cause
  range : ByteRange
  deriving DecidableEq, Repr

namespace SyntaxError

def optionalKind : Option Kind → String
  | some kind => "Some(" ++ kind.name ++ ")"
  | none => "None"

def Cause.message : Cause → String
  | .expectedToken kind => "expected " ++ kind.name
  | .expectedModuleOrTypeName => "expected a module or type name"
  | .expectedExposedItem => "expected an exposed value, type, or operator"
  | .expectedConstructorName => "expected a constructor name"
  | .expectedFieldName => "expected a field name"
  | .expectedType => "expected a type"
  | .expectedTypeAfterArrow => "expected a type after `->`"
  | .expectedPattern => "expected a pattern"
  | .expectedPatternAfterCons => "expected a pattern after `::`"
  | .expectedNameAfterAs => "expected a name after `as`"
  | .expectedExpression => "expected an expression"
  | .expectedExpressionAfterOperator => "expected an expression after the operator"
  | .expectedExpressionAfterMinus => "expected an expression after `-`"
  | .expectedLambdaParameter => "expected a lambda parameter"
  | .expectedCaseBranch => "expected a case branch"
  | .expectedDeclaration => "expected a declaration"
  | .misplacedDeclaration => "declarations must start in the first column"
  | .unexpectedToken kind => "unexpected token: " ++ optionalKind kind
  | .stuckOnToken kind => "stuck on token: " ++ optionalKind kind

def message (error : SyntaxError) : String := error.cause.message

end SyntaxError

end ElmLint.Syntax

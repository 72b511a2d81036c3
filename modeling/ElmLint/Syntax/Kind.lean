/-!
# Kinds of tokens and nodes

Every token and every node of a syntax tree has a kind. The classes below are what the grammar
and the lint checks ask of a kind.
-/

namespace ElmLint.Syntax

inductive Kind where
  -- White space and comments.
  | whitespace | lineComment | blockComment
  -- Names, literals and operators.
  | lowerIdent | upperIdent | number | string | char | operatorIdent
  -- Punctuation.
  | lParen | rParen | lBracket | rBracket | lBrace | rBrace | comma | pipe | eq | colon | arrow
  | backslash | dot | dotDot | underscore
  -- Keywords.
  | moduleKw | portKw | exposingKw | importKw | asKw | typeKw | aliasKw | caseKw | ofKw | ifKw
  | thenKw | elseKw | letKw | inKw
  -- The file, its header and its imports.
  | file | moduleDeclaration | exposingList | exposedValue | exposedType
  | exposedUnionConstructors | exposedOperator | importClause | asClause
  -- Declarations.
  | valueDeclaration | functionDeclarationLeft | typeSignature | typeDeclaration | unionVariant
  | typeAliasDeclaration | portSignature
  -- Qualified names.
  | valueQid | upperCaseQid
  -- Types.
  | typeExpression | typeRef | typeVariable | recordType | fieldType | recordBaseIdentifier
  | tupleType
  -- Patterns.
  | lowerPattern | anythingPattern | unionPattern | recordPattern | tuplePattern | listPattern
  | consPattern | asPattern | parenthesizedPattern | literalPattern
  -- Expressions and their parts.
  | valueExpr | functionCallExpr | binOpExpr | operator | negateExpr | parenthesizedExpr
  | operatorAsFunctionExpr | unitExpr | tupleExpr | listExpr | recordExpr | field
  | fieldAccessExpr | fieldAccessorFunctionExpr | anonymousFunctionExpr | ifElseExpr | caseOfExpr
  | caseOfBranch | letInExpr | literalExpr
  -- What belongs nowhere: a stray token, or the node around skipped ones.
  | error
  deriving DecidableEq, Repr, Inhabited, Hashable

namespace Kind

def name : Kind → String
  | .whitespace => "WHITESPACE"
  | .lineComment => "LINE_COMMENT"
  | .blockComment => "BLOCK_COMMENT"
  | .lowerIdent => "LOWER_IDENT"
  | .upperIdent => "UPPER_IDENT"
  | .number => "NUMBER"
  | .string => "STRING"
  | .char => "CHAR"
  | .operatorIdent => "OPERATOR_IDENT"
  | .lParen => "L_PAREN"
  | .rParen => "R_PAREN"
  | .lBracket => "L_BRACKET"
  | .rBracket => "R_BRACKET"
  | .lBrace => "L_BRACE"
  | .rBrace => "R_BRACE"
  | .comma => "COMMA"
  | .pipe => "PIPE"
  | .eq => "EQ"
  | .colon => "COLON"
  | .arrow => "ARROW"
  | .backslash => "BACKSLASH"
  | .dot => "DOT"
  | .dotDot => "DOT_DOT"
  | .underscore => "UNDERSCORE"
  | .moduleKw => "MODULE_KW"
  | .portKw => "PORT_KW"
  | .exposingKw => "EXPOSING_KW"
  | .importKw => "IMPORT_KW"
  | .asKw => "AS_KW"
  | .typeKw => "TYPE_KW"
  | .aliasKw => "ALIAS_KW"
  | .caseKw => "CASE_KW"
  | .ofKw => "OF_KW"
  | .ifKw => "IF_KW"
  | .thenKw => "THEN_KW"
  | .elseKw => "ELSE_KW"
  | .letKw => "LET_KW"
  | .inKw => "IN_KW"
  | .file => "FILE"
  | .moduleDeclaration => "MODULE_DECLARATION"
  | .exposingList => "EXPOSING_LIST"
  | .exposedValue => "EXPOSED_VALUE"
  | .exposedType => "EXPOSED_TYPE"
  | .exposedUnionConstructors => "EXPOSED_UNION_CONSTRUCTORS"
  | .exposedOperator => "EXPOSED_OPERATOR"
  | .importClause => "IMPORT_CLAUSE"
  | .asClause => "AS_CLAUSE"
  | .valueDeclaration => "VALUE_DECLARATION"
  | .functionDeclarationLeft => "FUNCTION_DECLARATION_LEFT"
  | .typeSignature => "TYPE_ANNOTATION"
  | .typeDeclaration => "TYPE_DECLARATION"
  | .unionVariant => "UNION_VARIANT"
  | .typeAliasDeclaration => "TYPE_ALIAS_DECLARATION"
  | .portSignature => "PORT_ANNOTATION"
  | .valueQid => "VALUE_QID"
  | .upperCaseQid => "UPPER_CASE_QID"
  | .typeExpression => "TYPE_EXPRESSION"
  | .typeRef => "TYPE_REF"
  | .typeVariable => "TYPE_VARIABLE"
  | .recordType => "RECORD_TYPE"
  | .fieldType => "FIELD_TYPE"
  | .recordBaseIdentifier => "RECORD_BASE_IDENTIFIER"
  | .tupleType => "TUPLE_TYPE"
  | .lowerPattern => "LOWER_PATTERN"
  | .anythingPattern => "ANYTHING_PATTERN"
  | .unionPattern => "UNION_PATTERN"
  | .recordPattern => "RECORD_PATTERN"
  | .tuplePattern => "TUPLE_PATTERN"
  | .listPattern => "LIST_PATTERN"
  | .consPattern => "CONS_PATTERN"
  | .asPattern => "AS_PATTERN"
  | .parenthesizedPattern => "PARENTHESIZED_PATTERN"
  | .literalPattern => "LITERAL_PATTERN"
  | .valueExpr => "VALUE_EXPR"
  | .functionCallExpr => "FUNCTION_CALL_EXPR"
  | .binOpExpr => "BIN_OP_EXPR"
  | .operator => "OPERATOR"
  | .negateExpr => "NEGATE_EXPR"
  | .parenthesizedExpr => "PARENTHESIZED_EXPR"
  | .operatorAsFunctionExpr => "OPERATOR_AS_FUNCTION_EXPR"
  | .unitExpr => "UNIT_EXPR"
  | .tupleExpr => "TUPLE_EXPR"
  | .listExpr => "LIST_EXPR"
  | .recordExpr => "RECORD_EXPR"
  | .field => "FIELD"
  | .fieldAccessExpr => "FIELD_ACCESS_EXPR"
  | .fieldAccessorFunctionExpr => "FIELD_ACCESSOR_FUNCTION_EXPR"
  | .anonymousFunctionExpr => "ANONYMOUS_FUNCTION_EXPR"
  | .ifElseExpr => "IF_ELSE_EXPR"
  | .caseOfExpr => "CASE_OF_EXPR"
  | .caseOfBranch => "CASE_OF_BRANCH"
  | .letInExpr => "LET_IN_EXPR"
  | .literalExpr => "LITERAL_EXPR"
  | .error => "ERROR"

/-- Every kind, tokens first. -/
def all : List Kind :=
  [.whitespace, .lineComment, .blockComment, .lowerIdent, .upperIdent, .number, .string, .char,
   .operatorIdent, .lParen, .rParen, .lBracket, .rBracket, .lBrace, .rBrace, .comma, .pipe, .eq,
   .colon, .arrow, .backslash, .dot, .dotDot, .underscore, .moduleKw, .portKw, .exposingKw,
   .importKw, .asKw, .typeKw, .aliasKw, .caseKw, .ofKw, .ifKw, .thenKw, .elseKw, .letKw, .inKw,
   .file, .moduleDeclaration, .exposingList, .exposedValue, .exposedType,
   .exposedUnionConstructors, .exposedOperator, .importClause, .asClause, .valueDeclaration,
   .functionDeclarationLeft, .typeSignature, .typeDeclaration, .unionVariant,
   .typeAliasDeclaration, .portSignature, .valueQid, .upperCaseQid, .typeExpression, .typeRef,
   .typeVariable, .recordType, .fieldType, .recordBaseIdentifier, .tupleType, .lowerPattern,
   .anythingPattern, .unionPattern, .recordPattern, .tuplePattern, .listPattern, .consPattern,
   .asPattern, .parenthesizedPattern, .literalPattern, .valueExpr, .functionCallExpr, .binOpExpr,
   .operator, .negateExpr, .parenthesizedExpr, .operatorAsFunctionExpr, .unitExpr, .tupleExpr,
   .listExpr, .recordExpr, .field, .fieldAccessExpr, .fieldAccessorFunctionExpr,
   .anonymousFunctionExpr, .ifElseExpr, .caseOfExpr, .caseOfBranch, .letInExpr, .literalExpr,
   .error]

def ofName? (name : String) : Option Kind := all.find? (·.name == name)

/-- White space and comments, which the grammar does not see. -/
def isTrivia : Kind → Bool
  | .whitespace | .lineComment | .blockComment => true
  | _ => false

def isKeyword : Kind → Bool
  | .moduleKw | .portKw | .exposingKw | .importKw | .asKw | .typeKw | .aliasKw | .caseKw | .ofKw
  | .ifKw | .thenKw | .elseKw | .letKw | .inKw => true
  | _ => false

/-- Brackets, separators and the reserved operators. -/
def isPunctuation : Kind → Bool
  | .lParen | .rParen | .lBracket | .rBracket | .lBrace | .rBrace | .comma | .pipe | .eq | .colon
  | .arrow | .backslash | .dot | .dotDot | .underscore => true
  | _ => false

def isLiteral : Kind → Bool
  | .number | .string | .char => true
  | _ => false

/-- Pattern nodes. The unit pattern is written and built like the unit expression and is not
among them. -/
def isPattern : Kind → Bool
  | .lowerPattern | .anythingPattern | .unionPattern | .recordPattern | .tuplePattern
  | .listPattern | .consPattern | .asPattern | .parenthesizedPattern | .literalPattern => true
  | _ => false

/-- Expression nodes, without the parts that only occur inside one. -/
def isExpression : Kind → Bool
  | .valueExpr | .functionCallExpr | .binOpExpr | .negateExpr | .parenthesizedExpr
  | .operatorAsFunctionExpr | .unitExpr | .tupleExpr | .listExpr | .recordExpr | .fieldAccessExpr
  | .fieldAccessorFunctionExpr | .anonymousFunctionExpr | .ifElseExpr | .caseOfExpr | .letInExpr
  | .literalExpr => true
  | _ => false

def isExposedItem : Kind → Bool
  | .exposedValue | .exposedType | .exposedOperator => true
  | _ => false

end Kind

end ElmLint.Syntax

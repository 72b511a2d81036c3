/-!
# Lint codes

Each check has a code, by which its findings are told apart and by which it is turned off.
-/

namespace ElmLint

inductive LintCode where
  | unusedImport
  | unusedImportedValue
  | unusedAlias
  | unusedPattern
  | unusedTopLevel
  | mapNothingToNothing
  | booleanCaseExpr
  | dropConcatOfLists
  | dropConsOfItemAndList
  | useConsOverConcat
  | singleFieldRecord
  | unnecessaryListConcat
  | unnecessaryPortModule
  | noUncurriedPrefix
  | unusedTypeAlias
  | unusedValueConstructor
  deriving DecidableEq, Repr, Inhabited

namespace LintCode

/-- Every code, in the order in which codes are listed. -/
def all : List LintCode :=
  [.unusedImport, .unusedImportedValue, .unusedAlias, .unusedPattern, .unusedTopLevel,
   .mapNothingToNothing, .booleanCaseExpr, .dropConcatOfLists, .dropConsOfItemAndList,
   .useConsOverConcat, .singleFieldRecord, .unnecessaryListConcat, .unnecessaryPortModule,
   .noUncurriedPrefix, .unusedTypeAlias, .unusedValueConstructor]

def words : LintCode → List String
  | .unusedImport => ["unused", "import"]
  | .unusedImportedValue => ["unused", "imported", "value"]
  | .unusedAlias => ["unused", "alias"]
  | .unusedPattern => ["unused", "pattern"]
  | .unusedTopLevel => ["unused", "top", "level"]
  | .mapNothingToNothing => ["map", "nothing", "to", "nothing"]
  | .booleanCaseExpr => ["boolean", "case", "expr"]
  | .dropConcatOfLists => ["drop", "concat", "of", "lists"]
  | .dropConsOfItemAndList => ["drop", "cons", "of", "item", "and", "list"]
  | .useConsOverConcat => ["use", "cons", "over", "concat"]
  | .singleFieldRecord => ["single", "field", "record"]
  | .unnecessaryListConcat => ["unnecessary", "list", "concat"]
  | .unnecessaryPortModule => ["unnecessary", "port", "module"]
  | .noUncurriedPrefix => ["no", "uncurried", "prefix"]
  | .unusedTypeAlias => ["unused", "type", "alias"]
  | .unusedValueConstructor => ["unused", "value", "constructor"]

def name (code : LintCode) : String := "_".intercalate code.words

/-- The code as a title, every word with a capital. -/
def title (code : LintCode) : String := String.join (code.words.map String.capitalize)

def ofName? (name : String) : Option LintCode := all.find? (·.name == name)

theorem ofName?_name (code : LintCode) : ofName? code.name = some code := by
  cases code <;> decide +kernel

def index (code : LintCode) : Nat := all.idxOf code

def isUnnecessary : LintCode → Bool
  | .unusedImport | .unusedImportedValue | .unusedAlias | .unusedPattern | .unusedTopLevel
  | .unusedTypeAlias | .unusedValueConstructor => true
  | _ => false

end LintCode

end ElmLint

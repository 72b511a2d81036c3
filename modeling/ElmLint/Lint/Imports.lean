import ElmLint.Lint.Finding

/-!
# Checks of imports

An import is used through its qualifier or through a name that it exposes. Uses in the header and
in the imports themselves do not count.
-/

namespace ElmLint.Lint

open Syntax (ExposedItem Import)

/-- The exposed name is used. A type with its constructors always counts as used, and so does an
entry without a name. -/
def exposedItemUsed (s : Subject) (item : ExposedItem) : Bool :=
  item.name?.all fun name =>
    match item.sort with
    | .value => s.refs.usesValue name
    | .type => item.constructors || s.refs.upper.contains name
    | .operator => s.refs.operators.contains name

/-- An import of which nothing is used. Imports that expose everything are left alone. -/
def unusedImport? (s : Subject) (i : Import) : Option Finding :=
  if Syntax.exposesAll i.exposing? then none
  else match i.module?, i.qualifier? with
    | some module, some qualifier =>
      if s.refs.qualifiers.contains qualifier then none
      else if i.exposing?.any (·.items.any (exposedItemUsed s)) then none
      else some (.atSite .unusedImport s!"Unused import `{module}`" i.site)
    | _, _ => none

def unusedImportedValuesOf (s : Subject) (i : Import) : List Finding :=
  match i.exposing? with
  | none => []
  | some list =>
    if list.wildcard then []
    else list.items.filterMap fun item =>
      if exposedItemUsed s item then none
      else
        let name := item.name?.getD ""
        let module := i.module?.getD ""
        some (.atSite .unusedImportedValue
          s!"`{name}` is exposed from `{module}` but never used" item.site)

def unusedAlias? (s : Subject) (i : Import) : Option Finding :=
  match i.alias?, i.aliasClause? with
  | some name, some clause =>
    if s.refs.qualifiers.contains name then none
    else some (.atSite .unusedAlias s!"Unused import alias `{name}`" clause)
  | _, _ => none

def unusedImports (s : Subject) : List Finding := s.file.imports.filterMap (unusedImport? s)

def unusedImportedValues (s : Subject) : List Finding :=
  s.file.imports.flatMap (unusedImportedValuesOf s)

def unusedAliases (s : Subject) : List Finding := s.file.imports.filterMap (unusedAlias? s)

end ElmLint.Lint

import ElmLint.Project.Workspace

/-!
# The fields of record aliases

`recordFields?` follows a type alias, through other aliases and through imports, to a record type.
A chain of more than eight references counts as leading nowhere, so cyclic aliases do.
-/

namespace ElmLint

open Syntax (Tree Kind TypeAlias)

def maxAliasDepth : Nat := 8

mutual

def innerType : Tree → Tree
  | .token kind text => .token kind text
  | .node kind children =>
    if kind = .typeExpression then
      match innerTypes children with
      | [inner] => inner
      | _ => .node kind children
    else .node kind children

def innerTypes : List Tree → List Tree
  | [] => []
  | tree :: trees => if tree.isNode then innerType tree :: innerTypes trees else innerTypes trees

end

def fieldNames (record : Tree) : List String :=
  (record.children.filter fun t => t.isNode && t.kind == .fieldType).filterMap
    (·.tokenText? .lowerIdent)

inductive TypeForm where
  | record (fields : List String)
  | reference (name : String)
  | other
  deriving DecidableEq, Repr

/-- The form of a type, parentheses aside. -/
def typeForm (type : Tree) : TypeForm :=
  let inner := innerType type
  match inner.kind with
  | .recordType => .record (fieldNames inner)
  | .typeRef =>
    match inner.children.find? fun t => t.isNode && t.kind == .upperCaseQid with
    | some name => .reference name.dottedName
    | none => .other
  | _ => .other

def splitQualified (name : String) : Option String × String :=
  let cs := name.toList.reverse
  let base := cs.takeWhile (· != '.')
  match cs.dropWhile (· != '.') with
  | [] => (none, name)
  | _ :: qualifier => (some (String.ofList qualifier.reverse), String.ofList base.reverse)

namespace Document

def alias? (d : Document) (name : String) : Option TypeAlias :=
  d.file.aliases.find? fun a => a.nameToken?.any (·.text == name)

/-- The modules that an unqualified type may come from: those of the imports that expose it, in
their order. -/
def exposingModules (d : Document) (name : String) : List String :=
  (d.file.imports.filter fun i => i.exposing?.any fun list =>
    list.wildcard || list.items.any (·.name? == some name)).filterMap (·.module?)

/-- The modules that a type may come from. A qualifier that is not known stands for itself. -/
def candidateModules (d : Document) (qualifier? : Option String) (name : String) : List String :=
  match qualifier? with
  | some qualifier => [(d.resolved.moduleOf? qualifier).getD qualifier]
  | none => d.exposingModules name

end Document

namespace Workspace

/-- The alias that a name stands for in a file, with the file that declares it. -/
def alias? (w : Workspace) (d : Document) (name : String) : Option (Document × TypeAlias) :=
  let (qualifier?, base) := splitQualified name
  let own := if qualifier?.isNone then (d.alias? base).map (d, ·) else none
  own.or ((d.candidateModules qualifier? base).findSome? fun module => do
    let uri ← d.resolved.file? module
    let other ← w.document? uri
    let declaration ← other.alias? base
    return (other, declaration))

/-- The fields of the record that a name stands for, if at most `depth` aliases lead to it. -/
def recordFieldsWithin? (w : Workspace) : (depth : Nat) → Document → String → Option (List String)
  | 0, _, _ => none
  | depth + 1, d, name =>
    match w.alias? d name with
    | none => none
    | some (owner, declaration) =>
      match declaration.aliased?.map (typeForm ·.tree) with
      | some (.record fields) => some fields
      | some (.reference next) => w.recordFieldsWithin? depth owner next
      | _ => none

def recordFields? (w : Workspace) (d : Document) (name : String) : Option (List String) :=
  w.recordFieldsWithin? (maxAliasDepth + 1) d name

end Workspace

end ElmLint

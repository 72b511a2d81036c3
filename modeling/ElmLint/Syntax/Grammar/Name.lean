import ElmLint.Syntax.Cursor

/-!
# Names

A qualified name is written without white space around its dots, so it is read from tokens that
touch each other.
-/

namespace ElmLint.Syntax.Grammar

open Cursor

/-- `Upper ('.' Upper)*` -/
def upperCaseName (c : Cursor) : Cursor :=
  if c.sees .upperIdent then
    node .upperCaseQid
      (fun c => repeatWhile (·.touches .dot .upperIdent) (fun c => c.bump.bump) c.bump) c
  else c.error .expectedModuleOrTypeName

/-- The tokens after a capital name go on to a final name that starts with a small letter. -/
def continuesToValue : List PlacedToken → Bool
  | dot :: segment :: rest =>
    if dot.kind = .dot then
      if segment.kind = .upperIdent then continuesToValue rest
      else segment.kind = .lowerIdent
    else false
  | _ => false

/-- The qualified name at the cursor names a value, as `Foo.bar` does, and not a constructor or a
type. -/
def namesValue (c : Cursor) : Bool :=
  match c.ahead with
  | [] => false
  | first :: rest => first.kind == .lowerIdent || continuesToValue rest

end ElmLint.Syntax.Grammar

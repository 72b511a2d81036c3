import ElmLint.Lint.Finding

/-!
# Checks of declarations

What a module declares and does not expose has to be used in the module itself.
-/

namespace ElmLint.Lint

open Syntax (ExposedItem TypeAlias TypeDeclaration UnionVariant)

def headerItems (s : Subject) : List ExposedItem :=
  ((s.file.header?.bind (·.exposing?)).map (·.items)).getD []

/-- The header exposes the name, of whatever sort. -/
def headerExposes (s : Subject) (name : String) : Bool :=
  (headerItems s).any fun item => item.name? == some name

def headerExposesConstructors (s : Subject) (name : String) : Bool :=
  (headerItems s).any fun item => item.constructors && item.name? == some name

def unnecessaryPortModule (s : Subject) : List Finding :=
  match s.file.header? with
  | none => []
  | some header =>
    if header.isPort && (s.file.root.child? .portSignature).isNone then
      [.atSite .unnecessaryPortModule
        "Module is declared as a port module but defines no ports" header.site]
    else []

def unusedTypeAlias? (s : Subject) (a : TypeAlias) : Option Finding :=
  match a.nameToken? with
  | none => none
  | some token =>
    if headerExposes s token.text || s.refs.upper.contains token.text then none
    else some ⟨.unusedTypeAlias, s!"Type alias `{token.text}` is not used", token.range⟩

def unusedVariant? (s : Subject) (v : UnionVariant) : Option Finding :=
  match v.nameToken? with
  | none => none
  | some token =>
    if s.refs.upper.contains token.text then none
    else
      some ⟨.unusedValueConstructor, s!"Value constructor `{token.text}` is not used", token.range⟩

/-- The unused variants of a type, unless its constructors are exposed. -/
def unusedVariantsOf (s : Subject) (t : TypeDeclaration) : List Finding :=
  if t.nameToken?.any fun token => headerExposesConstructors s token.text then []
  else t.variants.filterMap (unusedVariant? s)

def unusedTypeAliases (s : Subject) : List Finding :=
  if s.exposesEverything then [] else s.file.aliases.filterMap (unusedTypeAlias? s)

def unusedValueConstructors (s : Subject) : List Finding :=
  if s.exposesEverything then [] else s.file.types.flatMap (unusedVariantsOf s)

end ElmLint.Lint

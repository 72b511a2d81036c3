import ElmLint.Syntax.Site

/-!
# The module structure of a file

The header, the imports and the top-level declarations of a tree, read off its nodes. A file with
errors may lack any part, so parts are optional and keep the order of the text.
-/

namespace ElmLint.Syntax

inductive ExposedSort where
  | value | type | operator
  deriving DecidableEq, Repr

structure ExposedItem where
  site : Site
  sort : ExposedSort
  /-- The exposed name, an operator without its parentheses. -/
  name? : Option String
  /-- The entry is a type with `(..)`. -/
  constructors : Bool

structure ExposingList where
  site : Site
  /-- The list is `(..)`. -/
  wildcard : Bool
  items : List ExposedItem

structure ModuleHeader where
  site : Site
  name? : Option String
  isPort : Bool
  exposing? : Option ExposingList

structure Import where
  site : Site
  module? : Option String
  aliasClause? : Option Site
  alias? : Option String
  exposing? : Option ExposingList

/-- A value or function declaration, `f x = …`, or a destructuring one, `( a, b ) = …`. -/
structure ValueDeclaration where
  site : Site
  left? : Option Site
  nameToken? : Option Site
  pattern? : Option Site
  body? : Option Site

structure UnionVariant where
  site : Site
  nameToken? : Option Site

structure TypeDeclaration where
  site : Site
  nameToken? : Option Site
  variants : List UnionVariant

structure TypeAlias where
  site : Site
  nameToken? : Option Site
  aliased? : Option Site

structure TypeSignature where
  site : Site
  nameToken? : Option Site

structure SourceFile where
  root : Site
  header? : Option ModuleHeader
  imports : List Import
  values : List ValueDeclaration
  types : List TypeDeclaration
  aliases : List TypeAlias
  signatures : List TypeSignature

namespace ExposedItem

def sort? : Kind → Option ExposedSort
  | .exposedValue => some .value
  | .exposedType => some .type
  | .exposedOperator => some .operator
  | _ => none

def nameKind : ExposedSort → Kind
  | .value => .lowerIdent
  | .type => .upperIdent
  | .operator => .operatorIdent

def ofSite? (site : Site) : Option ExposedItem :=
  (sort? site.kind).map fun sort =>
    { site, sort
      name? := (site.token? (nameKind sort)).map (·.text)
      constructors := sort == .type && (site.child? .exposedUnionConstructors).isSome }

end ExposedItem

def ExposingList.ofSite (site : Site) : ExposingList where
  site := site
  wildcard := site.hasToken .dotDot
  items := site.children.filterMap ExposedItem.ofSite?

def exposingIn? (site : Site) : Option ExposingList :=
  (site.child? .exposingList).map ExposingList.ofSite

def capitalNameIn? (site : Site) : Option String :=
  (site.child? .upperCaseQid).map (·.tree.dottedName)

/-- The list is there and is `(..)`. -/
def exposesAll (list? : Option ExposingList) : Bool := list?.any (·.wildcard)

def ModuleHeader.ofSite (site : Site) : ModuleHeader where
  site := site
  name? := capitalNameIn? site
  isPort := site.hasToken .portKw
  exposing? := exposingIn? site

namespace Import

def ofSite (site : Site) : Import where
  site := site
  module? := capitalNameIn? site
  aliasClause? := site.child? .asClause
  alias? := ((site.child? .asClause).bind (·.token? .upperIdent)).map (·.text)
  exposing? := exposingIn? site

/-- The name that qualifies references into the module: the alias, else the module name. -/
def qualifier? (i : Import) : Option String := i.alias?.or i.module?

end Import

def ValueDeclaration.ofSite (site : Site) : ValueDeclaration where
  site := site
  left? := site.child? .functionDeclarationLeft
  nameToken? := (site.child? .functionDeclarationLeft).bind (·.token? .lowerIdent)
  pattern? := site.children.find? (·.kind.isPattern)
  body? := (site.children.filter (·.kind.isExpression)).getLast?

def UnionVariant.ofSite (site : Site) : UnionVariant := ⟨site, site.token? .upperIdent⟩

def TypeDeclaration.ofSite (site : Site) : TypeDeclaration :=
  ⟨site, site.token? .upperIdent, (site.childrenOf .unionVariant).map UnionVariant.ofSite⟩

def TypeAlias.ofSite (site : Site) : TypeAlias :=
  ⟨site, site.token? .upperIdent, site.children.getLast?⟩

def TypeSignature.ofSite (site : Site) : TypeSignature := ⟨site, site.token? .lowerIdent⟩

namespace SourceFile

def ofTree (tree : Tree) : SourceFile :=
  let root := Site.root tree
  { root
    header? := (root.child? .moduleDeclaration).map ModuleHeader.ofSite
    imports := (root.childrenOf .importClause).map Import.ofSite
    values := (root.childrenOf .valueDeclaration).map ValueDeclaration.ofSite
    types := (root.childrenOf .typeDeclaration).map TypeDeclaration.ofSite
    aliases := (root.childrenOf .typeAliasDeclaration).map TypeAlias.ofSite
    signatures := (root.childrenOf .typeSignature).map TypeSignature.ofSite }

def moduleName? (file : SourceFile) : Option String := file.header?.bind (·.name?)

end SourceFile

end ElmLint.Syntax

import ElmLint.Project.ModulePath
import ElmLint.Syntax.SourceFile
import ElmLint.Table
import ElmLint.Text.FileUri

/-!
# Resolving imports

A module that a file imports is found under the first source directory that has its file. Some
modules are there without being imported; the project may hold files of their names, and where it
does not they are virtual. Imports that are found nowhere are left out.
-/

namespace ElmLint

open Syntax (Import)

inductive ModuleTarget where
  | file (uri : FileUri)
  | virtual
  deriving DecidableEq, Repr

structure ResolvedModules where
  modules : Table String ModuleTarget
  /-- The module that each qualifier stands for. -/
  qualifiers : Table String String
  deriving Repr

/-- The modules that every file sees, with their qualifiers. -/
def virtualImports : List (String × String) :=
  [("Basics", "Basics"), ("List", "List"), ("Maybe", "Maybe"), ("Result", "Result"),
   ("String", "String"), ("Char", "Char"), ("Tuple", "Tuple"), ("Debug", "Debug"),
   ("Platform", "Platform"), ("Platform.Cmd", "Cmd"), ("Platform.Sub", "Sub")]

namespace ResolvedModules

def none : ResolvedModules := ⟨.empty, .empty⟩

instance : Inhabited ResolvedModules := ⟨none⟩

/-- Where the module lives, if it can be seen. -/
def target? (r : ResolvedModules) (module : String) : Option ModuleTarget := r.modules.get? module

def file? (r : ResolvedModules) (module : String) : Option FileUri :=
  match r.target? module with
  | some (.file uri) => some uri
  | _ => Option.none

def moduleOf? (r : ResolvedModules) (qualifier : String) : Option String :=
  r.qualifiers.get? qualifier

def qualify (r : ResolvedModules) (qualifier module : String) : ResolvedModules :=
  { r with qualifiers := r.qualifiers.put qualifier module }

/-- The module can be seen from now on, at `target` and under `qualifier`. -/
def add (r : ResolvedModules) (module qualifier : String) (target : ModuleTarget) :
    ResolvedModules :=
  { r with modules := r.modules.put module target }.qualify qualifier module

end ResolvedModules

def locate? (sourceDirs : List FileUri) (has : FileUri → Bool) (module : String) :
    Option FileUri :=
  (sourceDirs.map (·.join (modulePath module))).find? has

def resolveVirtual (sourceDirs : List FileUri) (has : FileUri → Bool) : ResolvedModules :=
  virtualImports.foldl (fun r (module, qualifier) =>
    r.add module qualifier
      (match locate? sourceDirs has module with
        | some uri => .file uri
        | none => .virtual)) .none

/-- What an import adds. A module of the language that the project does not hold can still get an
alias. -/
def resolveImport (sourceDirs : List FileUri) (has : FileUri → Bool) (r : ResolvedModules)
    (i : Import) : ResolvedModules :=
  match i.module? with
  | none => r
  | some module =>
    match locate? sourceDirs has module, i.alias? with
    | some uri, alias? => r.add module (alias?.getD module) (.file uri)
    | none, some name => if (r.target? module).isSome then r.qualify name module else r
    | none, none => r

/-- What a file with these imports sees in a project whose files are those that `has` tells. -/
def resolveImports (sourceDirs : List FileUri) (has : FileUri → Bool) (imports : List Import) :
    ResolvedModules :=
  imports.foldl (resolveImport sourceDirs has) (resolveVirtual sourceDirs has)

end ElmLint

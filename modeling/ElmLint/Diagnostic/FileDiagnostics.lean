import ElmLint.Diagnostic.Basic

/-!
# The diagnostics of one file

Each producer has a list of its own, which it replaces as a whole. Editors see the lists one after
the other.
-/

namespace ElmLint

structure FileDiagnostics where
  build : List Diagnostic
  typeInference : List Diagnostic
  lint : List Diagnostic
  deriving DecidableEq, Repr

namespace FileDiagnostics

def empty : FileDiagnostics := ⟨[], [], []⟩

instance : Inhabited FileDiagnostics := ⟨empty⟩

def get (f : FileDiagnostics) : DiagnosticKind → List Diagnostic
  | .build => f.build
  | .typeInference => f.typeInference
  | .lint => f.lint

def set (f : FileDiagnostics) (kind : DiagnosticKind) (list : List Diagnostic) : FileDiagnostics :=
  match kind with
  | .build => { f with build := list }
  | .typeInference => { f with typeInference := list }
  | .lint => { f with lint := list }

def changes (f : FileDiagnostics) (kind : DiagnosticKind) (list : List Diagnostic) : Bool :=
  f.get kind != list

def merged (f : FileDiagnostics) : List Diagnostic := DiagnosticKind.all.flatMap f.get

def isEmpty (f : FileDiagnostics) : Bool := f.merged.isEmpty

theorem get_set (f : FileDiagnostics) (kind other : DiagnosticKind) (list : List Diagnostic) :
    (f.set kind list).get other = if other = kind then list else f.get other := by
  cases kind <;> cases other <;> rfl

theorem merged_eq (f : FileDiagnostics) : f.merged = f.build ++ f.typeInference ++ f.lint := by
  simp [merged, DiagnosticKind.all, get]

end FileDiagnostics

end ElmLint

import ElmLint.Text.FileUri

/-!
# Walks

A run of a session walks over a list of files: first the types of a file are asked for, then the
file is linted, then comes the next file.
-/

namespace ElmLint

inductive Phase where
  | types | lint
  deriving DecidableEq, Repr

structure Walk where
  files : List FileUri
  /-- The place of the file that it is at. -/
  index : Nat
  phase : Phase
  /-- The number of changes that the session had seen when the walk began. -/
  sequence : Nat
  /-- The pause after a file, in milliseconds. -/
  pause : Nat
  /-- The number of files that are behind it, as others are told. -/
  progress : Nat
  /-- Someone asked for these files, and holds the means to cancel the walk. -/
  isOnDemand : Bool
  deriving DecidableEq, Repr

namespace Walk

def ofFiles (files : List FileUri) (sequence pause : Nat) (isOnDemand : Bool) : Walk :=
  ⟨files, 0, .types, sequence, pause, 0, isOnDemand⟩

def file? (w : Walk) : Option FileUri := w.files[w.index]?

def next (w : Walk) : Walk :=
  { w with index := w.index + 1, phase := .types, progress := w.progress + 1 }

def hasMore (w : Walk) : Bool := w.index < w.files.length

end Walk

/-- The run that works through the files, as long as it has not completed. -/
structure InFlight where
  run : Nat
  files : List FileUri
  deriving DecidableEq, Repr

end ElmLint

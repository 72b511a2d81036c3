import ElmLint.Session.Event

/-!
# Stand-ins for the producers

In a rehearsal nothing is type-checked or built. Stand-ins answer as they were told to, after a
delay, and do not watch whether anyone still waits for them.
-/

namespace ElmLint

inductive AnswerMode where
  | ok
  | producer
  | cancelled
  | step
  | selfCancel
  /-- By cancelling its request, and then with what it was told to find. -/
  | cancelThenOk
  /-- Not at all, for it breaks down. -/
  | crash
  deriving DecidableEq, Repr

structure StandIns where
  /-- They find nothing and do so at once, and nobody is told that they are asked. -/
  areIdle : Bool
  types : Table FileUri (List Diagnostic)
  typesModes : Table FileUri AnswerMode
  typesDelay : Nat
  build : Table FileUri (List Diagnostic)
  buildMode : AnswerMode
  buildDelay : Nat

namespace StandIns

def initial (areIdle : Bool) : StandIns := ⟨areIdle, .empty, .empty, 0, .empty, .ok, 0⟩

/-- The answer about the types of a file, and the delay before it. -/
def typesAnswer (s : StandIns) (uri : FileUri) : Nat × TypesAnswer :=
  if s.areIdle then (0, ⟨false, .found []⟩)
  else
    (s.typesDelay,
      match (s.typesModes.get? uri).getD .ok with
      | .producer => ⟨false, .failed (.failed .typeInference uri "")⟩
      | .cancelled => ⟨false, .failed .cancelled⟩
      | .step => ⟨false, .failed (.step "")⟩
      | .selfCancel => ⟨true, .failed .cancelled⟩
      | .crash => ⟨false, .crashed⟩
      | .ok | .cancelThenOk => ⟨false, .found ((s.types.get? uri).getD [])⟩)

/-- The answer to a build that was asked for because of a file, and the delay before it. -/
def buildAnswer (s : StandIns) (uri : FileUri) : Nat × BuildAnswer :=
  if s.areIdle then (0, ⟨false, .ok .empty⟩)
  else
    (s.buildDelay,
      match s.buildMode with
      | .producer => ⟨false, .error (.failed .build uri "")⟩
      | .cancelled => ⟨false, .error .cancelled⟩
      | .step | .crash => ⟨false, .error (.step "")⟩
      | .selfCancel => ⟨true, .error .cancelled⟩
      | .cancelThenOk => ⟨true, .ok s.build⟩
      | .ok => ⟨false, .ok s.build⟩)

end StandIns

end ElmLint

import ElmLint.Diagnostic.ProducerError
import ElmLint.Session.Publish

/-!
# Builds

A build reports on the whole project. Only the result of the build that was asked for last counts.
-/

namespace ElmLint

structure BuildAnswer where
  /-- The build cancels itself before it answers. -/
  isCancelling : Bool
  result : Except ProducerError (Table FileUri (List Diagnostic))

namespace Session

/-- Asks for a build. The result of an earlier one no longer counts. -/
def askBuild (s : Session) (uri : FileUri) : Session :=
  let number := s.builds + 1
  { s.record (.buildAsked number uri) with builds := number, awaitedBuild? := some number }

/-- Takes over what a build has found. Files that it does not name are free of build diagnostics. -/
def applyBuild (s : Session) (found : Table FileUri (List Diagnostic)) : Session :=
  s.replace .build (fun uri => attributed .build ((found.get? uri).getD []))
    (found.keys ++ s.diagnostics.keys)

def buildAnswered (s : Session) (number : Nat) (answer : BuildAnswer) : Session :=
  if s.awaitedBuild? = some number && !answer.isCancelling then
    match answer.result with
    | .ok found => s.applyBuild found
    | .error _ => s
  else s

end Session

end ElmLint

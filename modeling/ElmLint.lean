import ElmLint.Diagnostic.FileDiagnostics
import ElmLint.Diagnostic.ProducerError
import ElmLint.Diagnostic.Settings
import ElmLint.Diagnostic.Wire
import ElmLint.Fix.QuickFix
import ElmLint.Json.Reader
import ElmLint.Json.Writer
import ElmLint.Lint.Check
import ElmLint.Project.Lint
import ElmLint.Rehearsal.Step
import ElmLint.Schedule.Script
import ElmLint.Syntax.Parse
import ElmLint.Proofs.Schedule.RunLaws
import ElmLint.Proofs.Schedule.Protocol
import ElmLint.Proofs.Session.Laws
import ElmLint.Proofs.Session.Move
import ElmLint.Proofs.Session.Effect
import ElmLint.Proofs.Session.Coherence
import ElmLint.Proofs.Lint.OwnText
import ElmLint.Proofs.Session.Course
import ElmLint.Proofs.Session.Freshness
import ElmLint.Proofs.Session.History
import ElmLint.Proofs.Session.Publication
import ElmLint.Proofs.Session.Obligation
import ElmLint.Proofs.Session.Stranding
import ElmLint.Proofs.Session.Progress
import ElmLint.Proofs.Session.Supersession
import ElmLint.Proofs.Session.Display
import ElmLint.Proofs.Session.Deletion
import ElmLint.Proofs.Session.Builds
import ElmLint.Proofs.Session.Linting
import ElmLint.Proofs.Session.Ending
import ElmLint.Proofs.Session.Frame
import ElmLint.Proofs.Session.Failures
import ElmLint.Proofs.Session.Silence
import ElmLint.Proofs.Session.Signals
import ElmLint.Proofs.Session.Journey
import ElmLint.Proofs.Session.Requests
import ElmLint.Proofs.Project.AliasChains
import ElmLint.Proofs.Project.Imports
import ElmLint.Proofs.Project.Resolution
import ElmLint.Proofs.Syntax.Tokens
import ElmLint.Proofs.Syntax.Tiling
import ElmLint.Proofs.Syntax.WholeFile
import ElmLint.Proofs.Syntax.FirstColumn
import ElmLint.Proofs.Syntax.LayoutRules
import ElmLint.Proofs.Syntax.Comments
import ElmLint.Proofs.Syntax.ParsedPlaces
import ElmLint.Proofs.Syntax.Tightness
import ElmLint.Proofs.Text.LineIndex
import ElmLint.Proofs.Text.Positions
import ElmLint.Proofs.Diagnostic.Wire
import ElmLint.Proofs.Syntax.Completeness
import ElmLint.Proofs.Lint.Output
import ElmLint.Proofs.Lint.Bindings
import ElmLint.Proofs.Lint.Imports
import ElmLint.Proofs.Lint.Disabling
import ElmLint.Proofs.Lint.Matching
import ElmLint.Proofs.Lint.ConsItems
import ElmLint.Proofs.Fix.ListItems
import ElmLint.Proofs.Syntax.TokenColumns
import ElmLint.Proofs.Syntax.ReadNames
import ElmLint.Proofs.Syntax.ErrorPlaces
import ElmLint.Proofs.Fix.ImportClauses
import ElmLint.Proofs.Fix.Variables

import Workflow.Alike
import Workflow.Condition.Basic
import Workflow.Condition.Comparator
import Workflow.Condition.Value
import Workflow.Defect
import Workflow.Document.Basic
import Workflow.Document.Decode
import Workflow.Document.Encode
import Workflow.Document.Problem
import Workflow.Document.Read
import Workflow.Document.Rule
import Workflow.Document.Schema
import Workflow.Document.Shape
import Workflow.Double.Basic
import Workflow.Double.Round
import Workflow.Double.Shortest
import Workflow.Double.Text
import Workflow.Draft.Condition
import Workflow.Draft.Datum
import Workflow.Draft.Field
import Workflow.Draft.Machine
import Workflow.Draft.Simple
import Workflow.Draft.State
import Workflow.Json.Basic
import Workflow.Json.Fault
import Workflow.Json.Text
import Workflow.Json.Token
import Workflow.Json.Written
import Workflow.Path.Grammar
import Workflow.Path.Scan
import Workflow.Policy
import Workflow.Proofs.ArrayForm
import Workflow.Proofs.AsideEdits
import Workflow.Proofs.BuildFaults
import Workflow.Proofs.BuiltDocuments
import Workflow.Proofs.Calendar
import Workflow.Proofs.Clock
import Workflow.Proofs.ConditionFaults
import Workflow.Proofs.ConditionGrammar
import Workflow.Proofs.Diagnosis
import Workflow.Proofs.Digits
import Workflow.Proofs.DistinctKeys
import Workflow.Proofs.DocumentFields
import Workflow.Proofs.Edits
import Workflow.Proofs.ExclusiveKeys
import Workflow.Proofs.Failures
import Workflow.Proofs.FieldChecks
import Workflow.Proofs.FieldDefects
import Workflow.Proofs.FieldValues
import Workflow.Proofs.FirstFaults
import Workflow.Proofs.GraphDefects
import Workflow.Proofs.LenientForm
import Workflow.Proofs.Likeness
import Workflow.Proofs.Merged
import Workflow.Proofs.MergedFields
import Workflow.Proofs.Nesting
import Workflow.Proofs.Nodes
import Workflow.Proofs.NormalFields
import Workflow.Proofs.NormalForm
import Workflow.Proofs.NormalRules
import Workflow.Proofs.NormalStates
import Workflow.Proofs.Normalization
import Workflow.Proofs.Nulls
import Workflow.Proofs.NumberText
import Workflow.Proofs.Offsets
import Workflow.Proofs.PathLanguage
import Workflow.Proofs.PathOffsets
import Workflow.Proofs.PathReaders
import Workflow.Proofs.PathScan
import Workflow.Proofs.Precision
import Workflow.Proofs.ReadBack
import Workflow.Proofs.Readers
import Workflow.Proofs.Rebuild
import Workflow.Proofs.ReferencePath
import Workflow.Proofs.Refusals
import Workflow.Proofs.Registration
import Workflow.Proofs.Results
import Workflow.Proofs.RoundTrip
import Workflow.Proofs.Rounding
import Workflow.Proofs.RuleObjects
import Workflow.Proofs.ScopeDefects
import Workflow.Proofs.ScopeGraph
import Workflow.Proofs.ScopeNames
import Workflow.Proofs.Shapes
import Workflow.Proofs.ShortestDigits
import Workflow.Proofs.SiteDrafts
import Workflow.Proofs.SiteForms
import Workflow.Proofs.Sites
import Workflow.Proofs.SoundValues
import Workflow.Proofs.StateChecks
import Workflow.Proofs.StateReading
import Workflow.Proofs.StrictForm
import Workflow.Proofs.StringText
import Workflow.Proofs.TextAndValue
import Workflow.Proofs.TextRoundTrip
import Workflow.Proofs.TimestampText
import Workflow.Proofs.TokenText
import Workflow.Proofs.Validity
import Workflow.Proofs.WrittenFields
import Workflow.Scope.Graph
import Workflow.State.Alike
import Workflow.State.Basic
import Workflow.State.Flow
import Workflow.Text.Blank
import Workflow.Text.Digits
import Workflow.Text.Invisible
import Workflow.Text.Quoted
import Workflow.Text.Rest
import Workflow.Time.Calendar
import Workflow.Time.Reader
import Workflow.Time.Timestamp

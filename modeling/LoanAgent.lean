import LoanAgent.Library.Cdata
import LoanAgent.Library.Codes
import LoanAgent.Library.Grouping
import LoanAgent.Library.Interleave
import LoanAgent.Library.Places
import LoanAgent.Library.Rx
import LoanAgent.Library.RxMatch
import LoanAgent.Library.RxCut
import LoanAgent.Library.RxGroup
import LoanAgent.Library.RxWhole
import LoanAgent.Library.Paging
import LoanAgent.Library.Significand
import LoanAgent.Library.Words
import LoanAgent.Library.Xml
import LoanAgent.Python
import LoanAgent.Models
import LoanAgent.ObjectStore
import LoanAgent.DocumentParser
import LoanAgent.Redaction
import LoanAgent.Json
import LoanAgent.Extraction
import LoanAgent.IngestRoute
import LoanAgent.Reconcile
import LoanAgent.Chase
import LoanAgent.Pipeline
import LoanAgent.RunStatus
import LoanAgent.RunRows
import LoanAgent.Intake
import LoanAgent.LosExport
import LoanAgent.AuditTrail
import LoanAgent.Rerun
import LoanAgent.System
import LoanAgent.SoloRun
import LoanAgent.Transitions
import LoanAgent.Reachability
import LoanAgent.ExactlyOnce
import LoanAgent.BorrowerScope
import LoanAgent.OpenApplications
import LoanAgent.FactSets
import LoanAgent.ExportGate
import LoanAgent.AuditPii
import LoanAgent.Traceability
import LoanAgent.Isolation
import LoanAgent.BadAttachments
import LoanAgent.FailureNotes
import LoanAgent.IntakeLeftovers
import LoanAgent.Replay
import LoanAgent.NumberText
import LoanAgent.Discrepancies
import LoanAgent.Grounding
import LoanAgent.JsonText
import LoanAgent.MemoXml
import LoanAgent.ExportTrail
import LoanAgent.ChaseRuns
import LoanAgent.ModelCalls
import LoanAgent.PairwiseCheck
import LoanAgent.PromptBlocks
import LoanAgent.StoreFiles
import LoanAgent.WebhookAuth
import LoanAgent.RedactionCut
import LoanAgent.RetryLoop
import LoanAgent.MessageLimits
import LoanAgent.AuditPaging
import LoanAgent.NumericLoss
import LoanAgent.FallbackKeys
import LoanAgent.MockExtractor
import LoanAgent.LogSecrets
import LoanAgent.Library.Ledger
import LoanAgent.History
import LoanAgent.Integrity
import LoanAgent.AuditRecord
import LoanAgent.Workload
import LoanAgent.Payloads
import LoanAgent.JsonTrees
import LoanAgent.LogLines
import LoanAgent.AckCache
import LoanAgent.AnomalyReports
import LoanAgent.Portion
import LoanAgent.Holdings
import LoanAgent.Undisturbed
import LoanAgent.Library.WriteOnce
import LoanAgent.PayloadWrites
import LoanAgent.QuotedMemos

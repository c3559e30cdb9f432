import KimchiWorkflows.Lib.Dict
import KimchiWorkflows.Lib.Process
import KimchiWorkflows.Lib.Confinement
import KimchiWorkflows.Lib.Interleaving
import KimchiWorkflows.Lib.Scheduling
import KimchiWorkflows.Flow.Scopes
import KimchiWorkflows.Flow.Definitions
import KimchiWorkflows.Engine.NodePath
import KimchiWorkflows.Engine.RunStatus
import KimchiWorkflows.Engine.ResumeWorkflow
import KimchiWorkflows.Engine.Effects
import KimchiWorkflows.Engine.StepEffects
import KimchiWorkflows.Engine.RunnerEffects
import KimchiWorkflows.Engine.FanOutEffects
import KimchiWorkflows.Engine.KeyHistory
import KimchiWorkflows.Engine.Settling
import KimchiWorkflows.Engine.SequenceSettling
import KimchiWorkflows.Engine.BranchSettling
import KimchiWorkflows.Engine.FanOutSettling
import KimchiWorkflows.Engine.ForeachSettling
import KimchiWorkflows.Engine.ParallelSettling
import KimchiWorkflows.Engine.PendingHistory
import KimchiWorkflows.Engine.Calls
import KimchiWorkflows.Engine.CallStatus
import KimchiWorkflows.Engine.StatusAgreement
import KimchiWorkflows.Engine.LastWord
import KimchiWorkflows.Engine.LiveStatus
import KimchiWorkflows.Engine.Recovery
import KimchiWorkflows.Engine.Checkpoints
import KimchiWorkflows.Engine.Confinement
import KimchiWorkflows.Engine.NodeConfinement
import KimchiWorkflows.Engine.FanOutConfinement
import KimchiWorkflows.Engine.PlainAsks
import KimchiWorkflows.Engine.ItemReentry
import KimchiWorkflows.Lib.Tracking
import KimchiWorkflows.Engine.KeyNotes
import KimchiWorkflows.Engine.OwnMarks
import KimchiWorkflows.Engine.FanOutMarks
import KimchiWorkflows.Engine.LoopFeedback
import KimchiWorkflows.Engine.LoopReentry
import KimchiWorkflows.Lib.Stepping
import KimchiWorkflows.Host.Execution
import KimchiWorkflows.Host.Ledger
import KimchiWorkflows.Host.OneEnding
import KimchiWorkflows.Host.Uncancelled
import KimchiWorkflows.Host.Refusal
import KimchiWorkflows.Engine.TopLevel
import KimchiWorkflows.Host.Commands
import KimchiWorkflows.Host.Continuation
import KimchiWorkflows.Host.Reconciliation
import KimchiWorkflows.Host.Abandonment
import KimchiWorkflows.Engine.Executions
import KimchiWorkflows.Engine.ArmHistory
import KimchiWorkflows.Engine.ParallelReentry
import KimchiWorkflows.Engine.RoundRecovery
import KimchiWorkflows.Engine.BranchReentry
import KimchiWorkflows.Lib.Json
import KimchiWorkflows.Lib.JsonReading
import KimchiWorkflows.Host.RunLog
import KimchiWorkflows.Engine.ArmKeys
import KimchiWorkflows.Engine.KeptNotes
import KimchiWorkflows.Engine.KeptOutputs
import KimchiWorkflows.Engine.KeptFanOuts
import KimchiWorkflows.Engine.ContextRebuild
import KimchiWorkflows.Lib.Provenance
import KimchiWorkflows.Engine.ItemProvenance
import KimchiWorkflows.Engine.ItemBelonging
import KimchiWorkflows.Engine.ItemPlacement
import KimchiWorkflows.Flow.Questionnaire
import KimchiWorkflows.Host.AnswerAssembly
import KimchiWorkflows.Host.Answerability
import KimchiWorkflows.Host.AnsweredFields
import KimchiWorkflows.Host.AnsweredRecord
import KimchiWorkflows.Host.AnswerAcceptance
import KimchiWorkflows.Host.AnswerCompletion
import KimchiWorkflows.Host.RunLease
import KimchiWorkflows.Host.LeaseMoves
import KimchiWorkflows.Host.LeaseExclusion
import KimchiWorkflows.Host.LeaseOwners
import KimchiWorkflows.Lib.Phases
import KimchiWorkflows.Lib.PhaseRuns
import KimchiWorkflows.Engine.Occurrences
import KimchiWorkflows.Engine.SlotPhases
import KimchiWorkflows.Engine.SlotKeeping
import KimchiWorkflows.Engine.ConcurrencyGate
import KimchiWorkflows.Engine.ConcurrencyCeiling
import KimchiWorkflows.Engine.IsolationTags
import KimchiWorkflows.Engine.ExecutionKeys
import KimchiWorkflows.Engine.OverlapIsolation
import KimchiWorkflows.Host.Naming
import KimchiWorkflows.Host.Conversations
import KimchiWorkflows.Host.AgentAttempts
import KimchiWorkflows.Host.AttemptCollisions
import KimchiWorkflows.Engine.DriftCheck
import KimchiWorkflows.Engine.ObservedOutputs
import KimchiWorkflows.Flow.StoredValue
import KimchiWorkflows.Engine.StoredLog
import KimchiWorkflows.Engine.ReloadedRun
import KimchiWorkflows.Host.QuestionnaireForm
import KimchiWorkflows.Host.FormPages
import KimchiWorkflows.Host.FormChoices
import KimchiWorkflows.Host.FormCompletion
import KimchiWorkflows.Host.FormAnswers
import KimchiWorkflows.Host.SchemaKeys
import KimchiWorkflows.Host.SchemaLeaves
import KimchiWorkflows.Engine.AgentSession
import KimchiWorkflows.Engine.RetryLoop
import KimchiWorkflows.Engine.AttemptAccounting
import KimchiWorkflows.Engine.AttemptNotes
import KimchiWorkflows.Engine.AttemptSilence
import KimchiWorkflows.Engine.SessionBilling
import KimchiWorkflows.Engine.CarriedTotals
import KimchiWorkflows.Engine.ChainTotals
import KimchiWorkflows.Engine.SessionTurns
import KimchiWorkflows.Engine.ReportedAttempts
import KimchiWorkflows.Engine.SpannedRetries
import KimchiWorkflows.Engine.LoopVisits
import KimchiWorkflows.Engine.LoopChains
import KimchiWorkflows.Engine.LoopSemantics
import KimchiWorkflows.Host.AgentMessages
import KimchiWorkflows.Host.PiBridge
import KimchiWorkflows.Host.TurnTokens
import KimchiWorkflows.Host.TurnIsolation
import KimchiWorkflows.Host.IsolatedTurns
import KimchiWorkflows.Host.CrossTalk
import KimchiWorkflows.Engine.LanePool
import KimchiWorkflows.Engine.BoundedPool
import KimchiWorkflows.Engine.PoolRefinement
import KimchiWorkflows.Lib.Words
import KimchiWorkflows.Host.SessionWords
import KimchiWorkflows.Host.SessionNames
import KimchiWorkflows.Host.SessionFiles
import KimchiWorkflows.Host.Subagents
import KimchiWorkflows.Host.ResumeClaims
import KimchiWorkflows.Host.ExactClaims
import KimchiWorkflows.Host.ClaimRuns
import KimchiWorkflows.Host.Transcript
import KimchiWorkflows.Host.TurnReading
import KimchiWorkflows.Host.TurnAgreement
import KimchiWorkflows.Lib.Registers
import KimchiWorkflows.Host.Telemetry
import KimchiWorkflows.Host.TelemetryRegisters
import KimchiWorkflows.Host.TelemetrySeeding
import KimchiWorkflows.Progress.Outline
import KimchiWorkflows.Progress.Fold
import KimchiWorkflows.Progress.Projection
import KimchiWorkflows.Progress.Template
import KimchiWorkflows.Progress.UsagePreview
import KimchiWorkflows.Progress.StepRows
import KimchiWorkflows.Progress.UniqueRows
import KimchiWorkflows.Host.ProgressSink
import KimchiWorkflows.Host.PreviewAccounting
import KimchiWorkflows.Progress.Entries
import KimchiWorkflows.Progress.Orderly
import KimchiWorkflows.Progress.Rows
import KimchiWorkflows.Progress.RowStates
import KimchiWorkflows.Progress.Honesty
import KimchiWorkflows.Progress.Reentries
import KimchiWorkflows.Engine.EventGrammar
import KimchiWorkflows.Engine.RecordedEvents
import KimchiWorkflows.Engine.RecordedCalls
import KimchiWorkflows.Lib.Mirroring
import KimchiWorkflows.Testing.StepOverride
import KimchiWorkflows.Testing.MirroredNodes
import KimchiWorkflows.Testing.MirroredWalk
import KimchiWorkflows.Testing.OverriddenCalls
import KimchiWorkflows.Testing.HostedRuns
import KimchiWorkflows.Testing.OwnOverrides
import KimchiWorkflows.Engine.PathCodec
import KimchiWorkflows.Engine.Addressing
import KimchiWorkflows.Engine.CommittedPaths
import KimchiWorkflows.Engine.ResolvedSteps
import KimchiWorkflows.Engine.AddressedRuns
import KimchiWorkflows.Engine.TypedLogs
import KimchiWorkflows.Host.SubagentProcess
import KimchiWorkflows.Host.SubagentRuns
import KimchiWorkflows.Host.PackageManagerCommand
import KimchiWorkflows.Host.PackageManagerRuns
import KimchiWorkflows.Progress.Collapse
import KimchiWorkflows.Progress.PanelRows
import KimchiWorkflows.Host.WorkflowCatalog
import KimchiWorkflows.Host.QuestionnaireDialogs
import KimchiWorkflows.Host.RunStores
import KimchiWorkflows.Progress.Tallies
import KimchiWorkflows.Progress.Footer
import KimchiWorkflows.Progress.Render
import KimchiWorkflows.Host.Completions
import KimchiWorkflows.Host.CommandLines

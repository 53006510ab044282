import OmiCollector.TransitionRuns
import OmiCollector.RefusalLogic
import OmiCollector.CaptureModel
import OmiCollector.CaptureStore
import OmiCollector.CaptureInvariant
import OmiCollector.CaptureCommits
import OmiCollector.CaptureIntegrity
import OmiCollector.CaptureReplay
import OmiCollector.CaptureConflicts
import OmiCollector.SpanCover
import OmiCollector.KeyedTable
import OmiCollector.PublicationLedger
import OmiCollector.AckRetirement
import OmiCollector.AckExactness
import OmiCollector.SpanWalk
import OmiCollector.TypedSlices
import OmiCollector.SlicePartition
import OmiCollector.RunGroups
import OmiCollector.PublicationGroups
import OmiCollector.PublicationStage
import OmiCollector.PublicationStore
import OmiCollector.PublicationMachine
import OmiCollector.ReadyClosures
import OmiCollector.PublicationEffects
import OmiCollector.LedgerOrder
import OmiCollector.CohortMembers
import OmiCollector.RemainingSlices
import OmiCollector.ReadyMachine
import OmiCollector.ReadyOwnership
import OmiCollector.ReadySettlement
import OmiCollector.ClockModel
import OmiCollector.ClockTiming
import OmiCollector.ClockSync
import OmiCollector.ClockFence
import OmiCollector.ClockEvidence
import OmiCollector.ClockHistory
import OmiCollector.KeyText
import OmiCollector.PublicTime
import OmiCollector.TimeBarrier
import OmiCollector.ScanHealth
import OmiCollector.ScanIncidents
import OmiCollector.BatchMachine
import OmiCollector.BatchReconciler
import OmiCollector.BatchAdvance
import OmiCollector.AttemptWriter
import OmiCollector.WriterQueue
import OmiCollector.WriterDelivery
import OmiCollector.TransferArena
import OmiCollector.ReadLeg
import OmiCollector.ReadStops
import OmiCollector.DecimalText
import OmiCollector.QuarantineStore
import OmiCollector.QuarantineCustody
import OmiCollector.ArenaBuffer
import OmiCollector.ClockBoundary
import OmiCollector.NormalizationRuns
import OmiCollector.ProofPages
import OmiCollector.PresenceMachine
import OmiCollector.PresenceEncounter
import OmiCollector.PresenceVisits
import OmiCollector.PublicTimeline
import OmiCollector.TimelineProjection
import OmiCollector.ClockProjections
import OmiCollector.WriterTails
import OmiCollector.CaptureLegs
import OmiCollector.BatchAdmission
import OmiCollector.OpusPacket
import OmiCollector.RecordFraming
import OmiCollector.CaptureRecovery
import OmiCollector.PyValue
import OmiCollector.ClockPayload
import OmiCollector.ClockPersistence
import OmiCollector.PagedSlices
import OmiCollector.ResumedGroups
import OmiCollector.PagedOverlap
import OmiCollector.OverlapExact
import OmiCollector.ClockError
import OmiCollector.LayeredSpans
import OmiCollector.ClockEstimates
import OmiCollector.LedgerEncoding
import OmiCollector.ConfirmedLoss
import OmiCollector.DrainRow
import OmiCollector.PhyGuard
import OmiCollector.PublicDrain
import OmiCollector.ReadGrammar
import OmiCollector.ReadStream
import OmiCollector.StagingTarget
import OmiCollector.WriterFrontiers
import OmiCollector.ArenaLegs
import OmiCollector.StepRuns
import OmiCollector.AckInterference
import OmiCollector.PublishedRows
import OmiCollector.ProjectedStream
import OmiCollector.RealCodec
import OmiCollector.ReplayExact

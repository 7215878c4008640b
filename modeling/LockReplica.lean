import LockReplica.EventCache.Basic
import LockReplica.EventCache.Journaled
import LockReplica.EventCache.ScriptedLog
import LockReplica.EventLog.History
import LockReplica.EventLog.Run
import LockReplica.Json.RoundTrip
import LockReplica.Transport.Messages
import LockReplica.Proofs.Conservation
import LockReplica.Proofs.Answers
import LockReplica.Polling
import LockReplica.Proofs.Polling
import LockReplica.EventCache.Watermark
import LockReplica.EventCache.Run
import LockReplica.Proofs.LiveDeltas
import LockReplica.Proofs.Redelivery
import LockReplica.Delivery
import LockReplica.Proofs.Reordering
import LockReplica.Proofs.Compaction
import LockReplica.EventCache.Batch
import LockReplica.Proofs.Batch
import LockReplica.Proofs.WatermarkDiscipline
import LockReplica.Proofs.Retention
import LockReplica.Proofs.FinishOrder
import LockReplica.Proofs.Resets
import LockReplica.Proofs.ExactAnswers
import LockReplica.Proofs.StartRecords
import LockReplica.Json.Fields
import LockReplica.Proofs.Meaning
import LockReplica.Proofs.RootedAnswers
import LockReplica.Proofs.Touched
import LockReplica.Proofs.Replay
import LockReplica.Proofs.Commutation
import LockReplica.Proofs.Answerability
import LockReplica.Proofs.JoinedAnswers
import LockReplica.Proofs.RowOrder
import LockReplica.Transport.Draft
import LockReplica.Proofs.CanonicalSets
import LockReplica.Proofs.Storage

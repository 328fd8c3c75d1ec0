import NeoEngram.Agent.JobGate
import NeoEngram.Agent.LifecycleExclusion
import NeoEngram.Agent.S3Read
import NeoEngram.Agent.VolumeScrub
import NeoEngram.Central.HeadRuns
import NeoEngram.Central.PreCommitSync
import NeoEngram.Central.Reconciliation
import NeoEngram.Central.ReplicationRuns
import NeoEngram.Central.S3Listing
import NeoEngram.Core.S3Binding
import NeoEngram.Engine.AddIdentity
import NeoEngram.Engine.JournalProtocol
import NeoEngram.Local.ChunkCache
import NeoEngram.Local.Diff
import NeoEngram.Local.Displacement
import NeoEngram.Local.HeadAuthority
import NeoEngram.Local.IgnoreGlobs
import NeoEngram.Local.IndexCommit
import NeoEngram.Local.PathAgreement
import NeoEngram.Local.ReadBack
import NeoEngram.Runtime.TransferRetry

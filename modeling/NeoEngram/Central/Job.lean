import NeoEngram.Central.Model

/-! # Jobs

What a Pre-commit reads of a managed Add job: what it was asked to do, its
state, its last messages, and the version of the Index it published.
-/

namespace NeoEngram.Central

variable {U : UnicodeTables}

/-! ### States and decisions -/

inductive JobState where
  | Queued
  | Assigned
  | Accepted
  | Running
  | Prepared
  | Publishing
  | CancelRequested
  | Succeeded
  | Conflicted
  | Rejected
  | Failed
  | Cancelled
  | TimedOut
  | RecoveryRequired
  | Unknown
  deriving DecidableEq, Repr

namespace JobState

/-- The name of a state in a message. -/
def debug : JobState → String
  | Queued => "Queued"
  | Assigned => "Assigned"
  | Accepted => "Accepted"
  | Running => "Running"
  | Prepared => "Prepared"
  | Publishing => "Publishing"
  | CancelRequested => "CancelRequested"
  | Succeeded => "Succeeded"
  | Conflicted => "Conflicted"
  | Rejected => "Rejected"
  | Failed => "Failed"
  | Cancelled => "Cancelled"
  | TimedOut => "TimedOut"
  | RecoveryRequired => "RecoveryRequired"
  | Unknown => "Unknown"

end JobState

/-- The layout of the data of a Commit. -/
inductive CommitDataLayout where
  | FastCdc
  | WholeFile
  deriving DecidableEq, Repr

structure ControlError where
  (code message : Text)
  retryable : Bool
  retry_after_ms : Option UInt64
  extensions : Extensions
  deriving DecidableEq

inductive PublishDecision where
  | Publish (published_index_version : WireIndexVersion) (extensions : Extensions)
  | Conflict (current_index_version : WireIndexVersion) (extensions : Extensions)
  | Reject (error : ControlError) (extensions : Extensions)
  deriving DecidableEq

/-! ### Messages -/

/-- The task, its attempt and its stage that a message belongs to. -/
structure TaskExecutionFence where
  task_id : TaskId
  attempt : UInt64
  stage_key : Text
  (stage_attempt plan_revision : UInt64)
  deriving DecidableEq

structure JobProgress where
  job_id : JobId
  task_fence : TaskExecutionFence
  assignment_id : AssignmentId
  assignment_generation : UInt64
  state : JobState
  phase : Text
  (files_completed bytes_completed : UInt64)
  retry_after_ms : Option UInt64
  extensions : Extensions
  deriving DecidableEq

structure JobDecision where
  job_id : JobId
  task_fence : TaskExecutionFence
  assignment_id : AssignmentId
  (assignment_generation decision_generation : UInt64)
  decision : PublishDecision
  final_state : JobState
  extensions : Extensions
  deriving DecidableEq

inductive JobFailureStage where
  | Execution
  | ObjectTransfer
  | Reporting
  | Finalization
  deriving DecidableEq, Repr

structure JobFailed where
  tenant_id : TenantId
  job_id : JobId
  task_fence : TaskExecutionFence
  assignment_id : AssignmentId
  assignment_generation : UInt64
  final_state : JobState
  failed_at_unix_ms : UnixMillis
  stage : JobFailureStage
  error : ControlError
  extensions : Extensions
  deriving DecidableEq

/-! ### Records -/

structure AddJobSpec (U : UnicodeTables) where
  job_id : JobId
  tenant_id : TenantId
  project_id : ProjectId
  artifact_id : ArtifactId
  workspace_id : WorkspaceId
  expected_index_version : WireIndexVersion
  data_layout : CommitDataLayout
  request_digest : ContentDigest
  deadline_unix_ms : UnixMillis
  paths : List (LogicalPath U)
  all : Bool
  operation_task_id : Option TaskId
  extensions : Extensions
  deriving DecidableEq

structure JobRecord (U : UnicodeTables) where
  spec : AddJobSpec U
  state : JobState
  resource_version : ResourceVersion
  progress : Option JobProgress := none
  decision : Option JobDecision := none
  failure : Option JobFailed := none
  deriving DecidableEq

def JobRecord.key (job : JobRecord U) : JobKey := ⟨job.spec.tenant_id, job.spec.job_id⟩

def JobRecord.index_key (job : JobRecord U) : IndexKey :=
  ⟨job.spec.tenant_id, job.spec.project_id, job.spec.artifact_id, job.spec.workspace_id⟩

def JobRecord.published_version (job : JobRecord U) : Option WireIndexVersion :=
  job.decision.bind fun decision =>
    match decision.decision with
    | .Publish published_index_version _ => some published_index_version
    | _ => none

/-- An Index as it is read back: its version and its records in order. -/
structure PublishedIndex (U : UnicodeTables) where
  version : WireIndexVersion
  records : List (FileRecord U)
  deriving DecidableEq

end NeoEngram.Central

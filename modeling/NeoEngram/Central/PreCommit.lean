import NeoEngram.Central.IndexDiff

/-! # The Pre-commit aggregate

A Pre-commit is one session in which the changes of a Workspace are turned
into a Commit. An attempt starts an Add job; the Index that the job published
is frozen in the record as the candidate, and a Commit consumes the candidate.
A failed or cancelled attempt may be restarted with a new job.
-/

namespace NeoEngram.Central

open Checks Framing

variable {U : UnicodeTables}

/-! ## Records and requests -/

abbrev PreCommitId := RequestId

structure PreCommitKey where
  tenant_id : TenantId
  precommit_id : PreCommitId
  deriving DecidableEq

theorem PreCommitKey.toLex_injective :
    Function.Injective fun key : PreCommitKey => toLex (key.tenant_id, key.precommit_id) := by
  intro a b h
  cases a
  cases b
  simpa using h

instance : LinearOrder PreCommitKey := LinearOrder.lift' _ PreCommitKey.toLex_injective

inductive PreCommitState where
  | Running
  | Ready
  | Abnormal
  | Cancelled
  | Committed
  deriving DecidableEq, Repr

inductive PreCommitPhase where
  | Queued
  | Scanning
  | Hashing
  | Uploading
  | Validating
  | Idle
  deriving DecidableEq, Repr

structure PreCommitProgress where
  percent : UInt8 := 0
  files_completed : UInt64 := 0
  files_total : Option UInt64 := none
  bytes_completed : UInt64 := 0
  bytes_total : Option UInt64 := none
  deriving DecidableEq

inductive PreCommitCheckStatus where
  | Pending
  | Passed
  | Warning
  | Failed
  deriving DecidableEq, Repr

structure PreCommitCheck where
  check_id : RequestId
  status : PreCommitCheckStatus
  summary : Text
  deriving DecidableEq

structure PreCommitNotice where
  (code message : Text)
  path : Option Text
  deriving DecidableEq

/-- A Pre-commit: what it was started on, how far its job is, and what it froze. -/
structure PreCommitRecord (U : UnicodeTables) where
  tenant_id : TenantId
  project_id : ProjectId
  artifact_id : ArtifactId
  workspace_id : WorkspaceId
  precommit_id : PreCommitId
  precommit_request_id : RequestId
  attempt : UInt32
  state : PreCommitState
  phase : PreCommitPhase
  progress : PreCommitProgress
  checks : List PreCommitCheck
  (warnings blockers : List PreCommitNotice)
  source_index_version : WireIndexVersion
  data_layout : CommitDataLayout
  candidate_index_version : Option WireIndexVersion
  candidate_records : Option (List (FileRecord U))
  diff_summary : Option CommitDiffSummary
  issue : Option PreCommitNotice
  committed_commit_id : Option CommitId
  head_published_at_unix_ms : Option UnixMillis
  frozen_head_commit_id : Option CommitId
  job_id : JobId
  resource_version : ResourceVersion
  (created_at_unix_ms updated_at_unix_ms : UnixMillis)
  deriving DecidableEq

namespace PreCommitRecord

def key (record : PreCommitRecord U) : PreCommitKey := ⟨record.tenant_id, record.precommit_id⟩

def workspace (record : PreCommitRecord U) : IndexKey :=
  ⟨record.tenant_id, record.project_id, record.artifact_id, record.workspace_id⟩

end PreCommitRecord

structure PreCommitStartRequest where
  tenant_id : TenantId
  project_id : ProjectId
  artifact_id : ArtifactId
  workspace_id : WorkspaceId
  precommit_id : PreCommitId
  precommit_request_id : RequestId
  source_index_version : WireIndexVersion
  data_layout : CommitDataLayout
  frozen_head_commit_id : Option CommitId
  job_id : JobId
  created_at_unix_ms : UnixMillis
  deriving DecidableEq

structure PreCommitRestartRequest where
  key : PreCommitKey
  restart_request_id : RequestId
  source_index_version : WireIndexVersion
  frozen_head_commit_id : Option CommitId
  job_id : JobId
  restarted_at_unix_ms : UnixMillis
  deriving DecidableEq

structure PreCommitCancelRequest where
  key : PreCommitKey
  cancel_request_id : RequestId
  cancelled_at_unix_ms : UnixMillis
  deriving DecidableEq

structure CommitRecord (U : UnicodeTables) where
  tenant_id : TenantId
  project_id : ProjectId
  artifact_id : ArtifactId
  source_workspace_id : WorkspaceId
  source_precommit_id : PreCommitId
  commit_request_id : RequestId
  commit_id : CommitId
  object_set_digest : ContentDigest
  root_directory_id : DirectoryId
  parent_commit_id : Option CommitId
  index_version : WireIndexVersion
  data_layout : CommitDataLayout
  records : List (FileRecord U)
  message : Text
  description : Option Text
  tag_names : List Text
  created_at_unix_ms : UnixMillis
  deriving DecidableEq

structure CommitKey where
  tenant_id : TenantId
  project_id : ProjectId
  artifact_id : ArtifactId
  commit_id : CommitId
  deriving DecidableEq

def CommitRecord.key (commit : CommitRecord U) : CommitKey :=
  ⟨commit.tenant_id, commit.project_id, commit.artifact_id, commit.commit_id⟩

structure PreCommitCommitRequest (U : UnicodeTables) where
  key : PreCommitKey
  expected_candidate_index_version : WireIndexVersion
  data_layout : CommitDataLayout
  commit : CommitRecord U
  deriving DecidableEq

structure PreCommitCommitSnapshot (U : UnicodeTables) where
  commit : CommitRecord U
  consumed_precommit : PreCommitRecord U
  deriving DecidableEq

/-! ## Checks -/

section

variable (blake3 : Blake3)

def validate_published_index (index : PublishedIndex U) : CentralResult Unit := do
  index.version.validate
  (validate_index_snapshot index.records).mapError fun error =>
    protocol_invalid s!"published Index snapshot is not canonical: {error.message}"
  let computed ← (from_snapshot blake3 index.version.revision index.records).mapError fun error =>
    protocol_invalid s!"failed to digest published Index: {error.message}"
  ensure (computed.digest = index.version.digest)
    (protocol_invalid "published IndexVersion digest differs from its snapshot")

section

variable (record : PreCommitRecord U)

/-- The candidate version and its snapshot are stored together. -/
def validate_candidate : CentralResult Unit :=
  match record.candidate_index_version, record.candidate_records with
  | some version, some records => do
    version.validate
    validate_published_index blake3 ⟨version, records⟩
  | none, none => .ok ()
  | some version, none => do
    version.validate
    .error (protocol_invalid
      "Pre-commit candidate version and frozen snapshot must be stored together")
  | none, some _ =>
    .error (protocol_invalid
      "Pre-commit candidate version and frozen snapshot must be stored together")

def validate_phase : CentralResult Unit :=
  if record.state = .Running then
    ensure (record.phase ≠ .Idle ∧ record.candidate_index_version = none)
      (protocol_invalid "a running Pre-commit must have an execution phase and no candidate")
  else
    ensure (record.phase = .Idle)
      (protocol_invalid "every non-running Pre-commit must use the idle phase")

/-- The states in which a record has a candidate. -/
def PreCommitState.has_candidate : PreCommitState → Bool
  | Ready | Committed => true
  | _ => false

def MAX_ATTEMPT : Nat := 2 ^ 31 - 1

/-- The fields of a record fit its state. -/
def validate_record : CentralResult Unit := do
  record.source_index_version.validate
  validate_candidate blake3 record
  ensure (record.diff_summary = none ∨ record.candidate_records ≠ none)
    (protocol_invalid "Pre-commit diff summary requires its frozen candidate snapshot")
  ensure (record.attempt ≠ 0 ∧ record.attempt.toNat ≤ MAX_ATTEMPT)
    (protocol_invalid "Pre-commit attempt is outside the supported range")
  ensure (record.progress.percent ≤ 100)
    (protocol_invalid "Pre-commit progress percent exceeds 100")
  ensure (record.checks.length ≤ 100 ∧ record.warnings.length ≤ 100 ∧ record.blockers.length ≤ 100)
    (protocol_invalid "Pre-commit result collection exceeds 100 entries")
  validate_phase record
  ensure (record.state.has_candidate = true → record.candidate_index_version ≠ none ∧
      record.candidate_records ≠ none ∧ (record.state = .Ready → record.blockers = []))
    (protocol_invalid "a ready or committed Pre-commit requires its frozen candidate snapshot")
  ensure (record.state = .Abnormal → record.blockers ≠ [])
    (protocol_invalid "an abnormal Pre-commit requires at least one blocker")
  ensure (record.state = .Committed ↔ record.committed_commit_id ≠ none)
    (protocol_invalid "committed Pre-commit state and Commit identity disagree")
  ensure (record.state.has_candidate = true ∨ record.candidate_records = none)
    (protocol_invalid "only ready or committed Pre-commit sessions may retain a candidate snapshot")
  ensure (record.state = .Committed ∨ record.head_published_at_unix_ms = none)
    (protocol_invalid "only a committed Pre-commit may acknowledge Head publication")

/-- Letters, digits, and the characters `.`, `_`, `/` and `-`. -/
def is_tag_byte (byte : UInt8) : Bool :=
  is_ascii_alphanumeric byte || byte == 46 || byte == 95 || byte == 47 || byte == 45

def valid_tag_name (tag : Text) : Bool :=
  match utf8 tag with
  | [] => false
  | first :: rest =>
    (first :: rest).length ≤ 128 && !"refs/".toList.isPrefixOf tag &&
      is_ascii_alphanumeric first && rest.all is_tag_byte

def layout_tag : CommitDataLayout → UInt8
  | .FastCdc => 1
  | .WholeFile => 2

def canonical_commit_id_with_layout (core_id : CommitId) (layout : CommitDataLayout) : CommitId :=
  ⟨blake3 (utf8 "neoengram-managed-commit-layout-v1\x00".toList ++ core_id.as_bytes
    ++ [layout_tag layout])⟩

def validate_commit (commit : CommitRecord U) : CentralResult Unit := do
  commit.index_version.validate
  (validate_index_snapshot commit.records).mapError fun error =>
    protocol_invalid s!"Commit Index snapshot is not canonical: {error.message}"
  let computed_index ←
    (from_snapshot blake3 commit.index_version.revision commit.records).mapError fun error =>
      protocol_invalid s!"failed to digest Commit Index snapshot: {error.message}"
  ensure (computed_index.digest = commit.index_version.digest)
    (protocol_invalid "Commit IndexVersion digest differs from its frozen snapshot")
  ensure (¬ commit.message.all is_whitespace ∧ commit.message.length ≤ 4096)
    (protocol_invalid "Commit message must contain 1 to 4096 characters")
  ensure (∀ description ∈ commit.description, description.length ≤ 2048)
    (protocol_invalid "Commit description is too long")
  ensure (commit.tag_names.length ≤ 20 ∧ commit.tag_names.all valid_tag_name ∧
      commit.tag_names.Nodup)
    (protocol_invalid "Commit tag names must be non-empty, unique, and contain at most 20 entries")
  let canonical_core ←
    (do
      let core ← Commit.new commit.root_directory_id commit.parent_commit_id commit.message
        commit.created_at_unix_ms
      commit_id blake3 core).mapError fun error : ValidationError =>
        protocol_invalid s!"Commit is not canonical: {error.message}"
  ensure (canonical_commit_id_with_layout blake3 canonical_core
    commit.data_layout = commit.commit_id)
    (protocol_invalid
      "CommitId differs from root, parent, message, creation time, and data layout")

/-! ## Transitions of one record -/

def next_version (version : ResourceVersion) : CentralResult ResourceVersion :=
  ok_or (checked_add version 1) (.new .ConcurrentUpdate "ResourceVersion is exhausted")

def build_started (request : PreCommitStartRequest) : CentralResult (PreCommitRecord U) := do
  request.source_index_version.validate
  let record : PreCommitRecord U :=
    { tenant_id := request.tenant_id
      project_id := request.project_id
      artifact_id := request.artifact_id
      workspace_id := request.workspace_id
      precommit_id := request.precommit_id
      precommit_request_id := request.precommit_request_id
      attempt := 1
      state := .Running
      phase := .Queued
      progress := {}
      checks := []
      warnings := []
      blockers := []
      source_index_version := request.source_index_version
      data_layout := request.data_layout
      candidate_index_version := none
      candidate_records := none
      diff_summary := none
      issue := none
      committed_commit_id := none
      head_published_at_unix_ms := none
      frozen_head_commit_id := request.frozen_head_commit_id
      job_id := request.job_id
      resource_version := 1
      created_at_unix_ms := request.created_at_unix_ms
      updated_at_unix_ms := request.created_at_unix_ms }
  validate_record blake3 record
  return record

def apply_restart (request : PreCommitRestartRequest) : CentralResult (PreCommitRecord U) := do
  ensure (record.key = request.key) (conflict "restart scope differs from the stored Pre-commit")
  ensure (record.state = .Abnormal ∨ record.state = .Cancelled)
    (conflict "only abnormal or cancelled Pre-commit sessions can be restarted")
  request.source_index_version.validate
  ensure (record.attempt.toNat + 1 ≤ MAX_ATTEMPT) (conflict "Pre-commit attempt is exhausted")
  let resource_version ← next_version record.resource_version
  let record :=
    { record with
      attempt := record.attempt + 1
      state := .Running
      phase := .Queued
      progress := {}
      checks := []
      warnings := []
      blockers := []
      source_index_version := request.source_index_version
      candidate_index_version := none
      candidate_records := none
      diff_summary := none
      issue := none
      committed_commit_id := none
      head_published_at_unix_ms := none
      frozen_head_commit_id := request.frozen_head_commit_id
      job_id := request.job_id
      resource_version := resource_version
      updated_at_unix_ms := request.restarted_at_unix_ms }
  validate_record blake3 record
  return record

def apply_cancel (request : PreCommitCancelRequest) : CentralResult (PreCommitRecord U) := do
  ensure (record.key = request.key) (conflict "cancel scope differs from the stored Pre-commit")
  ensure (record.state ≠ .Cancelled ∧ record.state ≠ .Committed)
    (conflict "the Pre-commit cannot be cancelled in its current state")
  let resource_version ← next_version record.resource_version
  let record :=
    { record with
      state := .Cancelled
      phase := .Idle
      candidate_index_version := none
      candidate_records := none
      diff_summary := none
      committed_commit_id := none
      head_published_at_unix_ms := none
      resource_version := resource_version
      updated_at_unix_ms := request.cancelled_at_unix_ms }
  validate_record blake3 record
  return record

/-! ### Following the job -/

def phase_from_job_progress (phase : Text) : PreCommitPhase :=
  let phase := to_ascii_lowercase phase
  let contains (word : String) : Bool := decide (word.toList <:+: phase)
  if contains "hash" then .Hashing
  else if contains "upload" || contains "transfer" then .Uploading
  else if contains "valid" || contains "publish" || contains "prepare" then .Validating
  else .Scanning

def failure_code : JobState → String
  | .Conflicted => "INDEX_CONFLICT"
  | .Cancelled => "PRECOMMIT_JOB_CANCELLED"
  | .TimedOut => "PRECOMMIT_JOB_TIMED_OUT"
  | .RecoveryRequired => "PRECOMMIT_JOB_RECOVERY_REQUIRED"
  | _ => "PRECOMMIT_JOB_FAILED"

def job_failure_notice (job : JobRecord U) : PreCommitNotice :=
  match job.failure, job.decision.map JobDecision.decision with
  | some failure, _ => ⟨failure.error.code, failure.error.message, none⟩
  | none, some (.Reject error _) => ⟨error.code, error.message, none⟩
  | none, _ =>
    ⟨(failure_code job.state).toList, s!"associated Add Job reached {job.state.debug}".toList, none⟩

def job_index (job : JobRecord U) (published_index : Option (PublishedIndex U)) :
    CentralResult (Option (PublishedIndex U)) :=
  match job.state, published_index with
  | .Succeeded, some index => do
    validate_published_index blake3 index
    return some index
  | .Succeeded, none =>
    .error (protocol_invalid "a succeeded Pre-commit Add Job requires its published Index")
  | _, some _ =>
    .error (protocol_invalid "only a succeeded Pre-commit Add Job may carry a published Index")
  | _, none => .ok none

/-- The summary of the changes from the frozen Head to the candidate. -/
def frozen_diff (base_records : Option (List (FileRecord U))) (candidate : List (FileRecord U)) :
    CentralResult (Option CommitDiffSummary) :=
  match base_records with
  | some base => do
    let diff ← diff_index_snapshots base candidate
    return some diff.summary
  | none => .ok none

/-- A record that is not running keeps its candidate; a summary that is missing is filled in. -/
def sync_frozen (index : PublishedIndex U)
    (base_records : Option (List (FileRecord U))) (observed_at_unix_ms : UnixMillis) :
    CentralResult (PreCommitRecord U) := do
  ensure ((record.candidate_index_version.any fun version =>
        same_index_version version index.version) ∧
      record.candidate_records = some index.records)
    (conflict "published Index differs from the frozen Pre-commit candidate")
  match record.diff_summary, base_records with
  | none, some base => do
    let diff ← diff_index_snapshots base index.records
    let resource_version ← next_version record.resource_version
    let record :=
      { record with
        diff_summary := some diff.summary
        resource_version := resource_version
        updated_at_unix_ms := observed_at_unix_ms }
    validate_record blake3 record
    return record
  | _, _ => return record

/-- The record becomes ready with this candidate. -/
def PreCommitRecord.with_candidate (version : WireIndexVersion)
    (records : List (FileRecord U)) (diff_summary : Option CommitDiffSummary) : PreCommitRecord U :=
  { record with
    state := .Ready
    phase := .Idle
    progress := { record.progress with percent := 100 }
    blockers := []
    issue := none
    candidate_index_version := some version
    candidate_records := some records
    diff_summary := diff_summary }

end

section

variable (record : PreCommitRecord U) (job : JobRecord U)
  (published_index : Option (PublishedIndex U)) (base_records : Option (List (FileRecord U)))

/-- A succeeded job makes the record ready, with the Index of the job as its candidate. -/
def freeze_candidate : CentralResult (PreCommitRecord U) := do
  let published ← ok_or job.published_version
    (conflict "a succeeded Pre-commit Add Job has no publish decision")
  published.validate
  -- the job succeeded, so it comes with an Index
  let index ← ok_or published_index
    (protocol_invalid "a succeeded Pre-commit Add Job requires its published Index")
  ensure (same_index_version published index.version)
    (conflict "Add Job publish decision differs from its authoritative Index snapshot")
  let diff_summary ← frozen_diff base_records index.records
  return record.with_candidate published index.records diff_summary

/-- The attempt has failed: nothing frozen is kept. -/
def stop_attempt (record : PreCommitRecord U) (notice : PreCommitNotice) : PreCommitRecord U :=
  { record with
    state := .Abnormal
    phase := .Idle
    candidate_index_version := none
    candidate_records := none
    diff_summary := none
    blockers := [notice]
    issue := some notice }

def follow_progress (record : PreCommitRecord U) : Option JobProgress → PreCommitRecord U
  | none => { record with phase := .Scanning }
  | some progress =>
    { record with
      phase := phase_from_job_progress progress.phase
      progress := { record.progress with
        files_completed := progress.files_completed
        bytes_completed := progress.bytes_completed } }

/-- A running record follows the state of its job. -/
def follow_job : CentralResult (PreCommitRecord U) :=
  match job.state with
  | .Succeeded => freeze_candidate record job published_index base_records
  | .Conflicted | .Rejected | .Failed | .Cancelled | .TimedOut | .RecoveryRequired =>
    .ok (stop_attempt record (job_failure_notice job))
  | .Prepared | .Publishing => .ok { record with phase := .Validating }
  | .Accepted | .Running | .CancelRequested => .ok (follow_progress record job.progress)
  | .Queued | .Assigned => .ok { record with phase := .Queued }
  | .Unknown => .error (conflict "an unknown Add Job state cannot advance Pre-commit")

/-- The part of `apply_job_sync` for a running record. -/
def sync_running
    (observed_at_unix_ms : UnixMillis) : CentralResult (PreCommitRecord U) := do
  let followed ← follow_job record job published_index base_records
  if followed = record then
    return record
  else
    let resource_version ← next_version followed.resource_version
    let synchronized :=
      { followed with
        resource_version := resource_version
        updated_at_unix_ms := observed_at_unix_ms }
    validate_record blake3 synchronized
    return synchronized

/-- The part of `apply_job_sync` for a job that belongs to the record. -/
def sync_own_job
    (observed_at_unix_ms : UnixMillis) : CentralResult (PreCommitRecord U) := do
  ensure (record.project_id = job.spec.project_id ∧ record.artifact_id = job.spec.artifact_id ∧
      record.workspace_id = job.spec.workspace_id ∧
      same_index_version record.source_index_version job.spec.expected_index_version)
    (conflict "the associated Add Job scope differs from its Pre-commit attempt")
  let published_index ← job_index blake3 job published_index
  ensure (published_index = none ∨ base_records ≠ none)
    (protocol_invalid "the frozen Head Commit snapshot is missing for this Pre-commit")
  if record.state = .Running then
    sync_running blake3 record job published_index base_records observed_at_unix_ms
  else
    match published_index with
    | some index => sync_frozen blake3 record index base_records observed_at_unix_ms
    | none => return record

/-- A record follows its own job only. -/
def apply_job_sync
    (observed_at_unix_ms : UnixMillis) : CentralResult (Option (PreCommitRecord U)) :=
  if record.tenant_id = job.spec.tenant_id ∧ record.job_id = job.spec.job_id then do
    let record ← sync_own_job blake3 record job published_index base_records observed_at_unix_ms
    return some record
  else
    .ok none

end

/-! ### Commits -/

def apply_commit (record : PreCommitRecord U) (request : PreCommitCommitRequest U) :
    CentralResult (PreCommitCommitSnapshot U) := do
  ensure (record.key = request.key ∧ record.tenant_id = request.commit.tenant_id ∧
      record.project_id = request.commit.project_id ∧
      record.artifact_id = request.commit.artifact_id ∧
      record.workspace_id = request.commit.source_workspace_id ∧
      record.precommit_id = request.commit.source_precommit_id ∧
      record.data_layout = request.data_layout ∧
      request.commit.data_layout = request.data_layout)
    (conflict "Commit scope differs from the stored Pre-commit")
  ensure (record.state = .Ready ∧ record.phase = .Idle ∧ record.blockers = [])
    (conflict "Commit requires a ready, idle Pre-commit without blockers")
  let candidate ← ok_or record.candidate_index_version
    (conflict "a ready Pre-commit lost its candidate IndexVersion")
  let candidate_records ← ok_or record.candidate_records
    (conflict "a ready Pre-commit lost its frozen Index snapshot")
  ensure (same_index_version candidate request.expected_candidate_index_version ∧
      same_index_version candidate request.commit.index_version)
    (conflict "Commit candidate IndexVersion changed")
  ensure (request.commit.parent_commit_id = record.frozen_head_commit_id)
    (.new .ArtifactHeadMismatch
      "Commit parent differs from the Head frozen by this Pre-commit attempt")
  ensure (request.commit.records = candidate_records)
    (conflict "Commit Index snapshot differs from the frozen Pre-commit candidate")
  validate_commit blake3 request.commit
  let resource_version ← next_version record.resource_version
  let record :=
    { record with
      state := .Committed
      phase := .Idle
      committed_commit_id := some request.commit.commit_id
      head_published_at_unix_ms := none
      resource_version := resource_version
      updated_at_unix_ms := request.commit.created_at_unix_ms }
  validate_record blake3 record
  return ⟨request.commit, record⟩

def apply_head_publication_ack (record : PreCommitRecord U) (commit_id : CommitId)
    (published_at_unix_ms : UnixMillis) : CentralResult (PreCommitRecord U) := do
  ensure (record.state = .Committed ∧ record.committed_commit_id = some commit_id)
    (conflict "Head publication acknowledgement differs from the committed Pre-commit")
  if record.head_published_at_unix_ms ≠ none then
    return record
  else
    let resource_version ← next_version record.resource_version
    let record :=
      { record with
        head_published_at_unix_ms := some published_at_unix_ms
        updated_at_unix_ms := published_at_unix_ms
        resource_version := resource_version }
    validate_record blake3 record
    return record

end

/-! ## What "the same request" means -/

def same_start_request (left right : PreCommitStartRequest) : Bool :=
  left.tenant_id = right.tenant_id ∧ left.project_id = right.project_id ∧
    left.artifact_id = right.artifact_id ∧ left.workspace_id = right.workspace_id ∧
    left.precommit_request_id = right.precommit_request_id ∧
    left.data_layout = right.data_layout ∧
    same_index_version left.source_index_version right.source_index_version

def same_restart_request (left right : PreCommitRestartRequest) : Bool :=
  left.key = right.key ∧ left.restart_request_id = right.restart_request_id ∧
    same_index_version left.source_index_version right.source_index_version

def same_cancel_request (left right : PreCommitCancelRequest) : Bool :=
  left.key = right.key ∧ left.cancel_request_id = right.cancel_request_id

def same_commit_request (left right : PreCommitCommitRequest U) : Bool :=
  left.key = right.key ∧ left.commit.commit_request_id = right.commit.commit_request_id ∧
    left.commit.tenant_id = right.commit.tenant_id ∧
    left.commit.project_id = right.commit.project_id ∧
    left.commit.artifact_id = right.commit.artifact_id ∧
    left.commit.source_workspace_id = right.commit.source_workspace_id ∧
    left.commit.source_precommit_id = right.commit.source_precommit_id ∧
    left.commit.object_set_digest = right.commit.object_set_digest ∧
    same_index_version left.expected_candidate_index_version
      right.expected_candidate_index_version ∧
    same_index_version left.commit.index_version right.commit.index_version ∧
    left.data_layout = right.data_layout ∧ left.commit.data_layout = right.commit.data_layout ∧
    left.commit.root_directory_id = right.commit.root_directory_id ∧
    left.commit.records = right.commit.records ∧ left.commit.message = right.commit.message ∧
    left.commit.description = right.commit.description ∧
    left.commit.tag_names = right.commit.tag_names

@[simp] theorem same_start_request_self (request : PreCommitStartRequest) :
    same_start_request request request = true := by
  simp [same_start_request, same_index_version_iff]

@[simp] theorem same_restart_request_self (request : PreCommitRestartRequest) :
    same_restart_request request request = true := by
  simp [same_restart_request, same_index_version_iff]

@[simp] theorem same_cancel_request_self (request : PreCommitCancelRequest) :
    same_cancel_request request request = true := by
  simp [same_cancel_request]

@[simp] theorem same_commit_request_self (request : PreCommitCommitRequest U) :
    same_commit_request request request = true := by
  simp [same_commit_request, same_index_version_iff]

/-! ## What a transition does -/

def PreCommitRecord.candidate (record : PreCommitRecord U) :
    Option WireIndexVersion × Option (List (FileRecord U)) :=
  (record.candidate_index_version, record.candidate_records)

/-- Two records of one attempt of one Pre-commit. -/
structure SameAttempt (r r' : PreCommitRecord U) : Prop where
  key : r'.key = r.key
  workspace : r'.workspace = r.workspace
  job_id : r'.job_id = r.job_id
  frozen_head : r'.frozen_head_commit_id = r.frozen_head_commit_id
  source : r'.source_index_version = r.source_index_version

theorem SameAttempt.refl (r : PreCommitRecord U) : SameAttempt r r := ⟨rfl, rfl, rfl, rfl, rfl⟩

variable {blake3 : Blake3} {r r' : PreCommitRecord U}

theorem build_started_ok {request : PreCommitStartRequest}
    (h : build_started blake3 request = .ok r) :
    r.key = ⟨request.tenant_id, request.precommit_id⟩ ∧ r.job_id = request.job_id ∧
      r.frozen_head_commit_id = request.frozen_head_commit_id ∧ r.state = .Running ∧
      r.candidate = (none, none) ∧ validate_record blake3 r = .ok () := by
  simp only [build_started, ok_iff] at h
  obtain ⟨-, hvalid, rfl⟩ := h
  exact ⟨rfl, rfl, rfl, rfl, rfl, hvalid⟩

theorem apply_restart_ok {request : PreCommitRestartRequest}
    (h : apply_restart blake3 r request = .ok r') :
    (r.state = .Abnormal ∨ r.state = .Cancelled) ∧ r.key = request.key ∧ r'.key = r.key ∧
      r'.workspace = r.workspace ∧ r'.job_id = request.job_id ∧
      r'.frozen_head_commit_id = request.frozen_head_commit_id ∧ r'.state = .Running ∧
      r'.candidate = (none, none) ∧ validate_record blake3 r' = .ok () := by
  simp only [apply_restart, ok_iff] at h
  obtain ⟨hkey, hstate, -, -, version, -, hvalid, rfl⟩ := h
  exact ⟨hstate, hkey, rfl, rfl, rfl, rfl, rfl, rfl, hvalid⟩

theorem apply_cancel_ok {request : PreCommitCancelRequest}
    (h : apply_cancel blake3 r request = .ok r') :
    r.key = request.key ∧ r.state ≠ .Cancelled ∧ r.state ≠ .Committed ∧ SameAttempt r r' ∧
      r'.state = .Cancelled ∧ r'.candidate = (none, none) ∧ validate_record blake3 r' = .ok () := by
  simp only [apply_cancel, ok_iff] at h
  obtain ⟨hkey, ⟨hcancelled, hcommitted⟩, version, -, hvalid, rfl⟩ := h
  exact ⟨hkey, hcancelled, hcommitted, ⟨rfl, rfl, rfl, rfl, rfl⟩, rfl, rfl, hvalid⟩

theorem apply_commit_ok {request : PreCommitCommitRequest U}
    {snapshot : PreCommitCommitSnapshot U} (h : apply_commit blake3 r request = .ok snapshot) :
    snapshot.commit = request.commit ∧ r.key = request.key ∧ r.state = .Ready ∧
      request.commit.key = ⟨r.tenant_id, r.project_id, r.artifact_id, request.commit.commit_id⟩ ∧
      request.commit.parent_commit_id = r.frozen_head_commit_id ∧
      r.candidate_records = some request.commit.records ∧
      (∃ version, r.candidate_index_version = some version ∧
        same_index_version version request.commit.index_version = true) ∧
      SameAttempt r snapshot.consumed_precommit ∧ snapshot.consumed_precommit.state = .Committed ∧
      snapshot.consumed_precommit.candidate = r.candidate ∧
      snapshot.consumed_precommit.committed_commit_id = some request.commit.commit_id ∧
      snapshot.consumed_precommit.head_published_at_unix_ms = none ∧
      validate_record blake3 snapshot.consumed_precommit = .ok () := by
  simp only [apply_commit, ok_iff] at h
  obtain ⟨⟨hkey, htenant, hproject, hartifact, -⟩, ⟨hstate, -, -⟩, version, hversion, records,
    hrecords, ⟨-, hsame⟩, hparent, rfl, -, resource_version, -, hvalid, rfl⟩ := h
  refine ⟨rfl, hkey, hstate, ?_, hparent, hrecords, ⟨version, hversion, hsame⟩,
    ⟨rfl, rfl, rfl, rfl, rfl⟩, rfl, rfl, rfl, rfl, hvalid⟩
  rw [CommitRecord.key, htenant, hproject, hartifact]

variable {at_ms : UnixMillis}

theorem apply_head_publication_ack_ok {commit_id : CommitId}
    (h : apply_head_publication_ack blake3 r commit_id at_ms = .ok r') :
    r.state = .Committed ∧ r.committed_commit_id = some commit_id ∧ SameAttempt r r' ∧
      r'.state = .Committed ∧ r'.candidate = r.candidate ∧
      r'.committed_commit_id = some commit_id ∧ r'.head_published_at_unix_ms ≠ none ∧
      (validate_record blake3 r = .ok () → validate_record blake3 r' = .ok ()) := by
  simp only [apply_head_publication_ack, ok_iff] at h
  obtain ⟨⟨hstate, hid⟩, h⟩ := h
  by_cases hack : r.head_published_at_unix_ms ≠ none
  · simp only [if_pos hack, pure_eq_ok] at h
    subst h
    exact ⟨hstate, hid, .refl r, hstate, rfl, hid, hack, id⟩
  · simp only [if_neg hack, ok_iff] at h
    obtain ⟨version, -, hvalid, rfl⟩ := h
    exact ⟨hstate, hid, ⟨rfl, rfl, rfl, rfl, rfl⟩, hstate, rfl, hid, by simp, fun _ => hvalid⟩

/-- What following a job does to the record: its stage stays, or the published Index becomes the
candidate, or the attempt ends without a candidate. -/
inductive SyncEffect (job : JobRecord U) (published_index : Option (PublishedIndex U))
    (r r' : PreCommitRecord U) : Prop
  | kept (state : r'.state = r.state) (candidate : r'.candidate = r.candidate)
      (committed : r'.committed_commit_id = r.committed_commit_id)
      (head : r'.head_published_at_unix_ms = r.head_published_at_unix_ms)
  | frozen {version : WireIndexVersion} {index : PublishedIndex U} (running : r.state = .Running)
      (succeeded : job.state = .Succeeded) (decided : job.published_version = some version)
      (published : published_index = some index)
      (same : same_index_version version index.version = true) (state : r'.state = .Ready)
      (candidate : r'.candidate = (some version, some index.records))
  | stopped (running : r.state = .Running) (state : r'.state = .Abnormal)
      (candidate : r'.candidate = (none, none))

variable {job : JobRecord U} {base_records : Option (List (FileRecord U))}
  {published_index : Option (PublishedIndex U)}

theorem job_index_ok {published_index index : Option (PublishedIndex U)}
    (h : job_index blake3 job published_index = .ok index) : index = published_index := by
  unfold job_index at h
  split at h
  · simp only [ok_iff] at h
    exact h.2.symm
  · cases h
  · cases h
  · cases h
    rfl

theorem freeze_candidate_ok (hrunning : r.state = .Running) (hsucceeded : job.state = .Succeeded)
    (h : freeze_candidate r job published_index base_records = .ok r') :
    SameAttempt r r' ∧ SyncEffect job published_index r r' := by
  simp only [freeze_candidate, ok_iff] at h
  obtain ⟨version, hversion, -, index, hindex, hsame, summary, -, rfl⟩ := h
  exact ⟨⟨rfl, rfl, rfl, rfl, rfl⟩, .frozen hrunning hsucceeded hversion hindex hsame rfl rfl⟩

theorem follow_progress_effect (job : JobRecord U) (published_index : Option (PublishedIndex U))
    (r : PreCommitRecord U) (progress : Option JobProgress) :
    SameAttempt r (follow_progress r progress) ∧
      SyncEffect job published_index r (follow_progress r progress) := by
  cases progress with
  | none => exact ⟨⟨rfl, rfl, rfl, rfl, rfl⟩, .kept rfl rfl rfl rfl⟩
  | some progress => exact ⟨⟨rfl, rfl, rfl, rfl, rfl⟩, .kept rfl rfl rfl rfl⟩

theorem follow_job_ok (hrunning : r.state = .Running)
    (h : follow_job r job published_index base_records = .ok r') :
    SameAttempt r r' ∧ SyncEffect job published_index r r' := by
  have hstop : SameAttempt r (stop_attempt r (job_failure_notice job)) ∧
      SyncEffect job published_index r (stop_attempt r (job_failure_notice job)) :=
    ⟨⟨rfl, rfl, rfl, rfl, rfl⟩, .stopped hrunning rfl rfl⟩
  have hphase : ∀ phase, SameAttempt r { r with phase := phase } ∧
      SyncEffect job published_index r { r with phase := phase } :=
    fun _ => ⟨⟨rfl, rfl, rfl, rfl, rfl⟩, .kept rfl rfl rfl rfl⟩
  unfold follow_job at h
  split at h <;> rename_i hstate
  case h_1 => exact freeze_candidate_ok hrunning hstate h
  case h_15 => cases h
  all_goals
    cases h
    first
      | exact hstop
      | exact hphase _
      | exact follow_progress_effect job published_index r _

theorem SyncEffect.touch (h : SameAttempt r r' ∧ SyncEffect job published_index r r')
    (version : ResourceVersion) (at_ms : UnixMillis) :
    SameAttempt r { r' with resource_version := version, updated_at_unix_ms := at_ms } ∧
      SyncEffect job published_index r
        { r' with resource_version := version, updated_at_unix_ms := at_ms } := by
  obtain ⟨hsame, heffect⟩ := h
  refine ⟨⟨hsame.key, hsame.workspace, hsame.job_id, hsame.frozen_head, hsame.source⟩, ?_⟩
  cases heffect with
  | kept state candidate committed head => exact .kept state candidate committed head
  | frozen running succeeded decided published same state candidate =>
    exact .frozen running succeeded decided published same state candidate
  | stopped running state candidate => exact .stopped running state candidate

/-- **What a sync does**: the record stays in its attempt, stays valid, and changes as the state of
the job says. -/
theorem sync_own_job_ok
    (h : sync_own_job blake3 r job published_index base_records at_ms = .ok r') :
    SameAttempt r r' ∧ SyncEffect job published_index r r' ∧
      (validate_record blake3 r = .ok () → validate_record blake3 r' = .ok ()) := by
  have hkept : SameAttempt r r ∧ SyncEffect job published_index r r ∧
      (validate_record blake3 r = .ok () → validate_record blake3 r = .ok ()) :=
    ⟨.refl r, .kept rfl rfl rfl rfl, id⟩
  simp only [sync_own_job, ok_iff] at h
  obtain ⟨-, index, hindex, -, h⟩ := h
  cases job_index_ok hindex
  by_cases hrunning : r.state = .Running
  · simp only [if_pos hrunning, sync_running, bind_eq_ok] at h
    obtain ⟨followed, hfollowed, h⟩ := h
    by_cases heq : followed = r
    · simp only [if_pos heq, pure_eq_ok] at h
      subst h
      exact hkept
    · simp only [if_neg heq, ok_iff] at h
      obtain ⟨version, -, hvalid, rfl⟩ := h
      have heffect := SyncEffect.touch (follow_job_ok hrunning hfollowed) version at_ms
      exact ⟨heffect.1, heffect.2, fun _ => hvalid⟩
  · rw [if_neg hrunning] at h
    cases published_index with
    | none =>
      cases h
      exact hkept
    | some index =>
      -- only a missing summary is filled in
      simp only [sync_frozen, ok_iff] at h
      obtain ⟨-, h⟩ := h
      split at h
      · simp only [ok_iff] at h
        obtain ⟨diff, -, version, -, hvalid, rfl⟩ := h
        exact ⟨⟨rfl, rfl, rfl, rfl, rfl⟩, .kept rfl rfl rfl rfl, fun _ => hvalid⟩
      · cases h
        exact hkept

end NeoEngram.Central

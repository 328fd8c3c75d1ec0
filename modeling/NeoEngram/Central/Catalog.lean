import NeoEngram.Central.PreCommit

/-! # The catalog of Artifacts and Workspaces

The fields of the control catalog that the publication of a Commit uses.
`advance_workspace_commit` moves the Head of a Workspace to a Commit in one
transaction, fenced by that Head; the Head of the Artifact follows.
-/

namespace NeoEngram.Central

open Checks

inductive ResourceLifecycleState where
  | Active
  | PendingDelete
  | Deleting
  | Restoring
  | Deleted
  deriving DecidableEq, Repr

inductive WorkspaceState where
  | Creating
  | Ready
  | Abnormal
  deriving DecidableEq, Repr

structure ArtifactRecord where
  project_id : ProjectId
  head_commit_id : Option CommitId
  resource_version : UInt64
  lifecycle : ResourceLifecycleState
  updated_at_unix_ms : UnixMillis
  deriving DecidableEq

structure WorkspaceRecord where
  storage_volume_id : StorageVolumeId
  head_commit_id : Option CommitId
  state : WorkspaceState
  lifecycle : ResourceLifecycleState
  updated_at_unix_ms : UnixMillis
  deriving DecidableEq

structure Catalog where
  artifacts : TenantId × ArtifactId → Option ArtifactRecord
  workspaces : IndexKey → Option WorkspaceRecord

structure AdvanceWorkspaceCommitRequest where
  workspace : IndexKey
  expected_head_commit_id : Option CommitId
  commit_id : CommitId
  updated_at_unix_ms : UnixMillis
  deriving DecidableEq

structure AdvanceWorkspaceCommitOutcome where
  artifact : ArtifactRecord
  workspace : WorkspaceRecord
  replayed : Bool
  deriving DecidableEq

def catalog_parent_error (code : CentralErrorCode) (message : String) : CentralError :=
  (CentralError.new code message).with_retryable false

def require_active (lifecycle : ResourceLifecycleState) (kind : String) : CentralResult Unit :=
  ensure (lifecycle = .Active) ((CentralError.new .InvalidState
      s!"{kind} is not in the active lifecycle state").with_retryable false)

namespace Catalog

variable (catalog : Catalog)

def get_artifact (tenant_id : TenantId) (project_id : ProjectId) (artifact_id : ArtifactId) :
    Option ArtifactRecord :=
  (catalog.artifacts (tenant_id, artifact_id)).filter (·.project_id = project_id)

def head (key : IndexKey) : Option CommitId := (catalog.workspaces key).bind (·.head_commit_id)

section

variable (request : AdvanceWorkspaceCommitRequest) (artifact : ArtifactRecord)
  (workspace : WorkspaceRecord)

/-- The Heads of the Artifact and the Workspace are set to a Commit. -/
def publish : Catalog where
  artifacts := Function.update catalog.artifacts
    (request.workspace.tenant_id, request.workspace.artifact_id) (some artifact)
  workspaces := Function.update catalog.workspaces request.workspace (some workspace)

/-- The part of `advance_workspace_commit` that writes. -/
def advance : CentralResult (AdvanceWorkspaceCommitOutcome × Catalog) := do
  ensure (workspace.head_commit_id = request.expected_head_commit_id)
    (catalog_parent_error .ArtifactHeadMismatch "Workspace Head changed after Pre-commit")
  ensure (workspace.state = .Ready)
    (catalog_parent_error .InvalidState "only a Ready Workspace can publish a Commit")
  let next_resource_version ← ok_or (checked_add artifact.resource_version 1)
    (.new .ConcurrentUpdate "Artifact ResourceVersion is exhausted")
  let artifact :=
    { artifact with
      head_commit_id := some request.commit_id
      resource_version := next_resource_version
      updated_at_unix_ms := request.updated_at_unix_ms }
  let workspace :=
    { workspace with
      head_commit_id := some request.commit_id
      updated_at_unix_ms := request.updated_at_unix_ms }
  return (⟨artifact, workspace, false⟩, catalog.publish request artifact workspace)

end

def advance_workspace_commit (request : AdvanceWorkspaceCommitRequest) :
    CentralResult (AdvanceWorkspaceCommitOutcome × Catalog) := do
  let artifact ← ok_or
    (catalog.get_artifact request.workspace.tenant_id request.workspace.project_id
      request.workspace.artifact_id)
    (catalog_parent_error .ArtifactNotFound "Commit Artifact does not exist")
  let workspace ← ok_or (catalog.workspaces request.workspace)
    (catalog_parent_error .ArtifactNotFound "Commit Workspace does not exist")
  require_active artifact.lifecycle "Commit Artifact"
  require_active workspace.lifecycle "Commit Workspace"
  -- a Workspace that already shows the Commit is a replay: nothing moves backwards
  if workspace.head_commit_id = some request.commit_id then
    return (⟨artifact, workspace, true⟩, catalog)
  else
    catalog.advance request artifact workspace

/-- **Compare and swap**: the Head already was the Commit, or was the expected one and becomes it.
-/
theorem advance_workspace_commit_ok {catalog catalog' : Catalog}
    {request : AdvanceWorkspaceCommitRequest} {outcome : AdvanceWorkspaceCommitOutcome}
    (h : catalog.advance_workspace_commit request = .ok (outcome, catalog')) :
    ∃ workspace, catalog.workspaces request.workspace = some workspace ∧
      ((catalog' = catalog ∧ workspace.head_commit_id = some request.commit_id) ∨
        (workspace.head_commit_id = request.expected_head_commit_id ∧
          ∃ workspace', workspace'.head_commit_id = some request.commit_id ∧
            catalog'.workspaces =
              Function.update catalog.workspaces request.workspace (some workspace'))) := by
  simp only [advance_workspace_commit, ok_iff] at h
  obtain ⟨artifact, -, workspace, hworkspace, -, -, h⟩ := h
  refine ⟨workspace, hworkspace, ?_⟩
  by_cases hreplay : workspace.head_commit_id = some request.commit_id
  · rw [if_pos hreplay, pure_eq_ok] at h
    cases h
    exact .inl ⟨rfl, hreplay⟩
  · rw [if_neg hreplay] at h
    simp only [advance, ok_iff] at h
    obtain ⟨hexpected, -, version, -, heq⟩ := h
    cases heq
    exact .inr ⟨hexpected, _, rfl, rfl⟩

end Catalog

end NeoEngram.Central

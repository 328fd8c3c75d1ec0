import NeoEngram.Central.Catalog
import NeoEngram.Central.PreCommitRepository
import NeoEngram.Framework.Effects

/-! # Publication of Workspace Heads

A Commit and the acknowledgement of the Head are stored in the repository of
Pre-commits, the Head between them in the catalog. A caller of
`commit_workspace` goes through all the steps, and the recovery loop finishes
what a caller has left undone. What the two programs ask of other services are
side calls, whose answers can be anything.
-/

namespace NeoEngram.Central

open Checks Effects OrderedKeys

variable {U : UnicodeTables}

/-! ## The stores and their calls -/

structure HeadStore (U : UnicodeTables) where
  catalog : Catalog
  precommits : InMemoryPreCommitState U

def CommitRecord.workspace (commit : CommitRecord U) : IndexKey :=
  ⟨commit.tenant_id, commit.project_id, commit.artifact_id, commit.source_workspace_id⟩

def InMemoryPreCommitState.list_unpublished_commits (state : InMemoryPreCommitState U)
    (after : Option PreCommitKey) (limit : Nat) : List (PreCommitRecord U) :=
  ((values state.precommits).filter fun record =>
    (∀ key ∈ after, key < record.key) ∧ record.state = .Committed ∧
      record.head_published_at_unix_ms = none).take limit

inductive StoreCall (U : UnicodeTables) where
  | get_artifact (tenant_id : TenantId) (project_id : ProjectId) (artifact_id : ArtifactId)
  | get_workspace (key : IndexKey)
  | advance_workspace_commit (request : AdvanceWorkspaceCommitRequest)
  | get_precommit (key : PreCommitKey)
  | get_commit (key : CommitKey)
  | list_unpublished_commits (after : Option PreCommitKey) (limit : Nat)
  | sync_job (job : JobRecord U) (published_index : Option (PublishedIndex U))
      (observed_at_unix_ms : UnixMillis)
  | commit (request : PreCommitCommitRequest U)
  | acknowledge_head_publication (key : PreCommitKey) (commit_id : CommitId)
      (published_at_unix_ms : UnixMillis)

def StoreCall.Value : StoreCall U → Type
  | .get_artifact .. => Option ArtifactRecord
  | .get_workspace _ => Option WorkspaceRecord
  | .advance_workspace_commit _ => AdvanceWorkspaceCommitOutcome
  | .get_precommit _ => Option (PreCommitRecord U)
  | .get_commit _ => Option (CommitRecord U)
  | .list_unpublished_commits .. => List (PreCommitRecord U)
  | .sync_job .. => Option (PreCommitRecord U)
  | .commit _ => PreCommitCommitOutcome U
  | .acknowledge_head_publication .. => PreCommitRecord U

namespace HeadStore

variable (store : HeadStore U)

def with_catalog (catalog : Catalog) : HeadStore U := { store with catalog := catalog }

def with_precommits (precommits : InMemoryPreCommitState U) : HeadStore U :=
  { store with precommits := precommits }

end HeadStore

def StoreCall.run (blake3 : Blake3) (store : HeadStore U) :
    (call : StoreCall U) → CentralResult (call.Value × HeadStore U)
  | .get_artifact tenant_id project_id artifact_id =>
    .ok (store.catalog.get_artifact tenant_id project_id artifact_id, store)
  | .get_workspace key => .ok (store.catalog.workspaces key, store)
  | .advance_workspace_commit request =>
    Prod.map id store.with_catalog <$> store.catalog.advance_workspace_commit request
  | .get_precommit key => .ok (store.precommits.precommits[key]?, store)
  | .get_commit key => .ok (store.precommits.commits key, store)
  | .list_unpublished_commits after limit =>
    .ok (store.precommits.list_unpublished_commits after limit, store)
  | .sync_job job published_index observed_at_unix_ms =>
    Prod.map id store.with_precommits <$>
      store.precommits.sync_job blake3 job published_index observed_at_unix_ms
  | .commit request =>
    Prod.map id store.with_precommits <$> store.precommits.commit blake3 request
  | .acknowledge_head_publication key commit_id published_at_unix_ms =>
    Prod.map id store.with_precommits <$>
      store.precommits.acknowledge_head_publication blake3 key commit_id published_at_unix_ms

structure CommitGraph where
  commit_id : CommitId
  root_directory_id : DirectoryId
  deriving DecidableEq

inductive SideCall (U : UnicodeTables) where
  | get_job (key : JobKey)
  | published_index (key : IndexKey)
  | max_whole_file_bytes (tenant_id : TenantId) (storage_volume_id : StorageVolumeId)
  | validate_candidate_layout (records : List (FileRecord U)) (data_layout : CommitDataLayout)
  | build_commit_graph (version : WireIndexVersion) (records : List (FileRecord U))
      (parent : Option CommitId) (message : Text) (created_at_unix_ms : UnixMillis)
  | build_object_set (records : List (FileRecord U))
  | publish_initial_placement (commit : CommitRecord U) (workspace : WorkspaceRecord)

def SideCall.Value : SideCall U → Type
  | .get_job _ => Option (JobRecord U)
  | .published_index _ => PublishedIndex U
  | .max_whole_file_bytes .. => Option UInt64
  | .validate_candidate_layout .. => Unit
  | .build_commit_graph .. => CommitGraph
  | .build_object_set _ => ContentDigest
  | .publish_initial_placement .. => Unit

inductive HeadCall (U : UnicodeTables) where
  | store (call : StoreCall U)
  | side (call : SideCall U)

def HeadCall.Value : HeadCall U → Type
  | .store call => call.Value
  | .side call => call.Value

abbrev HeadAnswer (call : HeadCall U) : Type := CentralResult call.Value

/-- What can come back from a call. Every call can fail for reasons of storage, also after a write
has taken place. -/
inductive Answers (blake3 : Blake3) (s : HeadStore U) :
    (call : HeadCall U) → HeadAnswer call → HeadStore U → Prop
  | done {call : StoreCall U} {value : call.Value} {s' : HeadStore U}
      (h : call.run blake3 s = .ok (value, s')) : Answers blake3 s (.store call) (.ok value) s'
  | refused {call : StoreCall U} {error : CentralError} (h : call.run blake3 s = .error error) :
      Answers blake3 s (.store call) (.error error) s
  | unanswered {call : StoreCall U} {value : call.Value} {s' : HeadStore U} {error : CentralError}
      (h : call.run blake3 s = .ok (value, s')) (hstorage : error.code = .StorageFailure) :
      Answers blake3 s (.store call) (.error error) s'
  | failed {call : StoreCall U} {error : CentralError} (hstorage : error.code = .StorageFailure) :
      Answers blake3 s (.store call) (.error error) s
  | side (call : SideCall U) (answer : CentralResult call.Value) :
      Answers blake3 s (.side call) answer s

/-- Why a program ends without a result. -/
inductive Failure where
  /-- A loop has used up the rounds the model allows it. -/
  | exhausted
  | central (error : CentralError)
  /-- `commit_conflict`. -/
  | conflict (reason code message : String)
  /-- `resource_not_found`. -/
  | not_found (kind : String)
  /-- `internal_error`. -/
  | internal (message : String)
  deriving DecidableEq

abbrev HeadM (U : UnicodeTables) (α : Type) := Fallible (HeadCall U) HeadAnswer Failure α

/-- A call whose failure ends the program. -/
def ask (call : HeadCall U) : HeadM U call.Value := do
  let answer ← request call
  checked (answer.mapError .central)

/-! ## The search for an ancestor -/

/-- The rows of the Commits of one Artifact. -/
structure CommitScope where
  tenant_id : TenantId
  project_id : ProjectId
  artifact_id : ArtifactId
  deriving DecidableEq

def CommitScope.key (scope : CommitScope) (commit_id : CommitId) : CommitKey :=
  ⟨scope.tenant_id, scope.project_id, scope.artifact_id, commit_id⟩

def IndexKey.scope (key : IndexKey) : CommitScope :=
  ⟨key.tenant_id, key.project_id, key.artifact_id⟩

/-- The loop of `is_commit_ancestor`, with the number of rounds it may take and the Commits it has
visited. -/
def is_commit_ancestor_loop (scope : CommitScope) (ancestor : CommitId) :
    Nat → List CommitId → CommitId → HeadM U Bool
  | 0, _, _ => throw .exhausted
  | rounds + 1, visited, descendant =>
    if descendant = ancestor then
      pure true
    else if descendant ∈ visited then
      throw (.central (.new .Internal "Commit parent chain contains a cycle"))
    else do
      let row ← ask (.store (.get_commit (scope.key descendant)))
      let commit : CommitRecord U ← checked (ok_or row
        (.central (.new .Internal "published Workspace Head lost its immutable Commit row")))
      match commit.parent_commit_id with
      | none => pure false
      | some parent => is_commit_ancestor_loop scope ancestor rounds (descendant :: visited) parent

def is_commit_ancestor (rounds : Nat) (scope : CommitScope) (ancestor descendant : CommitId) :
    HeadM U Bool :=
  is_commit_ancestor_loop scope ancestor rounds [] descendant

/-! ## Publication of a Head -/

section

variable (rounds : Nat)

def load_commit_workspace (commit : CommitRecord U) : HeadM U WorkspaceRecord := do
  let workspace ← ask (.store (.get_workspace commit.workspace))
  checked (ok_or workspace
    (.central (.new .ArtifactNotFound "committed Pre-commit source Workspace no longer exists")))

def workspace_contains_commit (commit : CommitRecord U) (workspace : WorkspaceRecord) :
    HeadM U Bool :=
  match workspace.head_commit_id with
  | none => pure false
  | some head => is_commit_ancestor rounds commit.workspace.scope commit.commit_id head

/-- The Head has changed before the swap. A descendant of the Commit in its place proves that the
Commit was published. -/
def observe_moved_head (commit : CommitRecord U) (error : CentralError) :
    HeadM U (WorkspaceRecord × Bool) := do
  let current ← load_commit_workspace commit
  let contains ← workspace_contains_commit rounds commit current
  if contains then
    return (current, true)
  else
    throw (.central error)

/-- What is done with the answer to the swap. -/
def after_advance (commit : CommitRecord U) :
    CentralResult AdvanceWorkspaceCommitOutcome → HeadM U (WorkspaceRecord × Bool)
  | .ok outcome => return (outcome.workspace, outcome.replayed)
  | .error error =>
    if error.code = .ArtifactHeadMismatch then
      observe_moved_head rounds commit error
    else
      throw (.central error)

/-- The swap that publishes a Commit: from its parent to it. -/
def advance_request (commit : CommitRecord U) : AdvanceWorkspaceCommitRequest where
  workspace := commit.workspace
  expected_head_commit_id := commit.parent_commit_id
  commit_id := commit.commit_id
  updated_at_unix_ms := commit.created_at_unix_ms

def advance_head (commit : CommitRecord U) : HeadM U (WorkspaceRecord × Bool) := do
  let answer ← request (HeadCall.store (.advance_workspace_commit (advance_request commit)))
  after_advance rounds commit answer

def publish_committed_workspace_head (commit : CommitRecord U) :
    HeadM U (WorkspaceRecord × Bool) := do
  let current ← load_commit_workspace commit
  let contains ← workspace_contains_commit rounds commit current
  if contains then
    return (current, true)
  else
    advance_head rounds commit

/-! ## `commit_workspace` -/

structure CommitWorkspaceRequest where
  workspace : IndexKey
  precommit_id : PreCommitId
  commit_request_id : RequestId
  expected_candidate_index_version : WireIndexVersion
  data_layout : CommitDataLayout
  message : Text
  description : Option Text
  tag_names : List Text
  deriving DecidableEq

structure WorkspaceCommitResult (U : UnicodeTables) where
  commit : CommitRecord U
  workspace : WorkspaceRecord
  consumed_precommit : PreCommitRecord U
  replayed : Bool

/-- The Workspace of a request, if it can be committed. -/
def load_ready_workspace (request : CommitWorkspaceRequest) : HeadM U WorkspaceRecord := do
  let artifact ← ask (.store (.get_artifact request.workspace.tenant_id request.workspace.project_id
    request.workspace.artifact_id))
  let artifact : ArtifactRecord ← checked (ok_or artifact (.not_found "artifact"))
  checked (ensure (artifact.lifecycle = .Active)
    (.conflict "resource_not_active" "RESOURCE_NOT_ACTIVE"
      "the Artifact is not active and cannot accept commits"))
  let workspace ← ask (.store (.get_workspace request.workspace))
  let workspace : WorkspaceRecord ← checked (ok_or workspace (.not_found "workspace"))
  checked (ensure (workspace.lifecycle = .Active)
    (.conflict "resource_not_active" "RESOURCE_NOT_ACTIVE"
      "the Workspace is not active and cannot be committed"))
  checked (ensure (workspace.state = .Ready)
    (.conflict "workspace_not_ready" "WORKSPACE_NOT_READY"
      "only a Ready Workspace can be committed"))
  return workspace

/-- The Index that the job of a Pre-commit has published. -/
def index_of_job (job : JobRecord U) : HeadM U (Option (PublishedIndex U)) :=
  if job.state = .Succeeded then do
    let published_index : PublishedIndex U ← ask (.side (.published_index job.index_key))
    return some published_index
  else
    pure none

/-- A Pre-commit that is still running catches up with its job. -/
def follow_running (now : UnixMillis) (precommit : PreCommitRecord U) :
    HeadM U (PreCommitRecord U) := do
  let job ← ask (.side (.get_job ⟨precommit.tenant_id, precommit.job_id⟩))
  match job with
  | none => return precommit
  | some (job : JobRecord U) =>
    let published_index ← index_of_job job
    let synchronized : Option (PreCommitRecord U) ←
      ask (.store (.sync_job job published_index now))
    return synchronized.getD precommit

def load_precommit (now : UnixMillis) (request : CommitWorkspaceRequest) :
    HeadM U (PreCommitRecord U) := do
  let precommit ← ask (.store (.get_precommit ⟨request.workspace.tenant_id, request.precommit_id⟩))
  let precommit : PreCommitRecord U ← checked (ok_or precommit (.not_found "precommit"))
  checked (ensure (precommit.project_id = request.workspace.project_id ∧
      precommit.artifact_id = request.workspace.artifact_id ∧
      precommit.workspace_id = request.workspace.workspace_id) (.not_found "precommit"))
  if precommit.state = .Running then
    follow_running now precommit
  else
    return precommit

/-- The size policy of the volume, which a Commit of whole files has to meet. -/
def check_whole_files (workspace : WorkspaceRecord) (precommit : PreCommitRecord U) :
    HeadM U Unit := do
  let limit ← ask (.side (.max_whole_file_bytes precommit.tenant_id workspace.storage_volume_id))
  let limit : UInt64 ← checked (ok_or limit (.not_found "storage volume"))
  checked (ensure (∀ records ∈ precommit.candidate_records, ∀ record ∈ records,
      record.total_size ≤ limit)
    (.conflict "whole_file_size_limit_exceeded" "WHOLE_FILE_SIZE_LIMIT_EXCEEDED"
      "the Commit contains a file that exceeds the StorageVolume WholeFile size policy"))

def check_candidate (request : CommitWorkspaceRequest) (workspace : WorkspaceRecord)
    (precommit : PreCommitRecord U) : HeadM U Unit := do
  let candidate ← checked (ok_or precommit.candidate_index_version
    (.conflict "precommit_not_ready" "PRECOMMIT_NOT_READY"
      "Commit requires a ready Pre-commit candidate"))
  checked (ensure (same_index_version candidate request.expected_candidate_index_version)
    (.conflict "candidate_index_version_mismatch" "CANDIDATE_INDEX_VERSION_MISMATCH"
      "the Pre-commit candidate IndexVersion changed"))
  checked (ensure (precommit.data_layout = request.data_layout)
    (.conflict "data_layout_mismatch" "DATA_LAYOUT_MISMATCH"
      "Commit data_layout must match the layout frozen by Pre-commit"))
  if request.data_layout = .WholeFile then
    check_whole_files workspace precommit
  else
    return ()

/-- A Pre-commit that was committed before: the stored Commit is asked for again. -/
def replay_commit (request : CommitWorkspaceRequest) (precommit : PreCommitRecord U) :
    HeadM U (PreCommitCommitOutcome U) := do
  let commit_id ← checked (ok_or precommit.committed_commit_id
    (.internal "a committed Pre-commit lost its Commit identity"))
  let stored ← ask (.store (.get_commit (request.workspace.scope.key commit_id)))
  let stored : CommitRecord U ← checked (ok_or stored
    (.internal "the committed Commit record is missing"))
  checked (ensure (stored.commit_request_id = request.commit_request_id ∧
      stored.source_workspace_id = request.workspace.workspace_id ∧
      stored.source_precommit_id = request.precommit_id ∧
      same_index_version stored.index_version request.expected_candidate_index_version ∧
      stored.message = request.message ∧ stored.description = request.description ∧
      stored.tag_names = request.tag_names ∧ stored.data_layout = request.data_layout)
    (.conflict "commit_request_id_reused" "COMMIT_REQUEST_ID_REUSED"
      "commit_request_id is already bound to another Commit payload"))
  ask (.store (.commit ⟨⟨request.workspace.tenant_id, request.precommit_id⟩,
    request.expected_candidate_index_version, request.data_layout, stored⟩))

/-- A Pre-commit is committed for the first time, if Head and Index still are the ones it froze. -/
def commit_candidate (blake3 : Blake3) (now : UnixMillis) (request : CommitWorkspaceRequest)
    (workspace : WorkspaceRecord) (precommit : PreCommitRecord U) :
    HeadM U (PreCommitCommitOutcome U) := do
  checked (ensure (workspace.head_commit_id = precommit.frozen_head_commit_id)
    (.conflict "artifact_head_mismatch" "ARTIFACT_HEAD_MISMATCH"
      "Workspace Head changed after Pre-commit"))
  let published : PublishedIndex U ← ask (.side (.published_index request.workspace))
  checked (ensure (same_index_version published.version request.expected_candidate_index_version)
    (.conflict "candidate_index_version_mismatch" "CANDIDATE_INDEX_VERSION_MISMATCH"
      "the published Workspace Index no longer matches this Pre-commit"))
  let records ← checked (ok_or precommit.candidate_records
    (.internal "a ready Pre-commit lost its frozen Index snapshot"))
  let _ ← ask (.side (.validate_candidate_layout records request.data_layout))
  let graph : CommitGraph ← ask (.side (.build_commit_graph request.expected_candidate_index_version
    records precommit.frozen_head_commit_id request.message now))
  let object_set_digest : ContentDigest ← ask (.side (.build_object_set records))
  ask (.store (.commit
    { key := ⟨request.workspace.tenant_id, request.precommit_id⟩
      expected_candidate_index_version := request.expected_candidate_index_version
      data_layout := request.data_layout
      commit :=
        { tenant_id := request.workspace.tenant_id
          project_id := request.workspace.project_id
          artifact_id := request.workspace.artifact_id
          source_workspace_id := request.workspace.workspace_id
          source_precommit_id := request.precommit_id
          commit_request_id := request.commit_request_id
          commit_id := canonical_commit_id_with_layout blake3 graph.commit_id request.data_layout
          object_set_digest := object_set_digest
          root_directory_id := graph.root_directory_id
          parent_commit_id := precommit.frozen_head_commit_id
          index_version := request.expected_candidate_index_version
          data_layout := request.data_layout
          records := records
          message := request.message
          description := request.description
          tag_names := request.tag_names
          created_at_unix_ms := now } }))

/-- The Head is published, and then that is acknowledged. -/
def publish_and_acknowledge (key : PreCommitKey) (now : UnixMillis) (commit : CommitRecord U) :
    HeadM U ((WorkspaceRecord × Bool) × PreCommitRecord U) := do
  let published ← publish_committed_workspace_head rounds commit
  let consumed ← ask (.store (.acknowledge_head_publication key commit.commit_id now))
  return (published, consumed)

/-- The steps after the Commit is durable. -/
def finish_commit (now : UnixMillis) (request : CommitWorkspaceRequest)
    (workspace : WorkspaceRecord) (outcome : PreCommitCommitOutcome U) :
    HeadM U (WorkspaceCommitResult U) := do
  let _ ← ask (.side (.publish_initial_placement outcome.commit workspace))
  if outcome.consumed_precommit.head_published_at_unix_ms ≠ none then
    return ⟨outcome.commit, workspace, outcome.consumed_precommit, true⟩
  else do
    let ((workspace, head_replayed), consumed) ← publish_and_acknowledge rounds
      ⟨request.workspace.tenant_id, request.precommit_id⟩ now outcome.commit
    return ⟨outcome.commit, workspace, consumed, outcome.replayed || head_replayed⟩

/-- `commit_workspace` of a request whose caller may commit. `now` are the successive times of the
clock. -/
def commit_workspace (blake3 : Blake3) (now : Nat → UnixMillis) (request : CommitWorkspaceRequest) :
    HeadM U (WorkspaceCommitResult U) := do
  let workspace ← load_ready_workspace request
  let precommit ← load_precommit (now 0) request
  check_candidate request workspace precommit
  let outcome ←
    if precommit.state = .Committed then
      replay_commit request precommit
    else
      commit_candidate blake3 (now 1) request workspace precommit
  finish_commit rounds (now 2) request workspace outcome

/-! ## The recovery loop -/

def publish_committed_heads (now : UnixMillis) (precommit : PreCommitRecord U) : HeadM U Unit := do
  let commit_id ← checked (ok_or precommit.committed_commit_id
    (.central (.new .Internal "committed Pre-commit lost its Commit identity")))
  let commit ← ask (.store (.get_commit (precommit.workspace.scope.key commit_id)))
  let commit : CommitRecord U ← checked (ok_or commit
    (.central (.new .Internal "committed Pre-commit lost its immutable Commit row")))
  let _ ← publish_and_acknowledge rounds precommit.key now commit
  return ()

/-- The records of a page, one after the other. A failure is logged and the page goes on. -/
def recover_page (now : UnixMillis) : List (PreCommitRecord U) → HeadM U Unit
  | [] => pure ()
  | precommit :: records => do
    let _ ← outcome (publish_committed_heads rounds now precommit)
    recover_page now records

/-- The next page of Commits whose Head is not acknowledged, from the first one again after the
last page. -/
def next_page (after : Option PreCommitKey) (limit : Nat) : HeadM U (List (PreCommitRecord U)) := do
  let records : List (PreCommitRecord U) ← ask (.store (.list_unpublished_commits after limit))
  if records = [] ∧ after ≠ none then
    ask (.store (.list_unpublished_commits none limit))
  else
    return records

def recover_unpublished_commits (now : UnixMillis) (after : Option PreCommitKey) (limit : Nat) :
    HeadM U Unit := do
  let records ← next_page after limit
  recover_page rounds now records

end

end NeoEngram.Central

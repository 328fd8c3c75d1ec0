import NeoEngram.Central.Model
import NeoEngram.Core.Placement

/-! # Replication of a Commit to another backend

A replication copies the ObjectSet of a Commit to a target backend. Workers
leave a checkpoint for every object; the last step publishes a placement for
every object and a placement set for the target. A retry starts a new attempt
and keeps the checkpoints. This file embeds the checks of
`placement_authority.rs` and the in-memory repository.
-/

namespace NeoEngram.Central

open Checks Framing OrderedKeys

/-! ## Records and requests -/

structure ReplicationKey where
  tenant_id : TenantId
  replication_id : ReplicationId
  deriving DecidableEq

theorem ReplicationKey.toLex_injective :
    Function.Injective fun key : ReplicationKey => toLex (key.tenant_id, key.replication_id) := by
  intro a b h
  cases a
  cases b
  simpa using h

instance : LinearOrder ReplicationKey := LinearOrder.lift' _ ReplicationKey.toLex_injective

inductive ReplicationState where
  | Queued
  | Planning
  | Transferring
  | Verifying
  | Published
  | Failed
  | Cancelled
  deriving DecidableEq, Repr

/-- The states in which a replication occupies its target. -/
def ReplicationState.active (state : ReplicationState) : Bool :=
  state = .Queued ∨ state = .Planning ∨ state = .Transferring ∨ state = .Verifying

inductive ReplicationObjectState where
  | Queued
  | Transferring
  | Verified
  | Failed
  deriving DecidableEq, Repr

abbrev Generation := UInt64

/-- The fields `source_…` of a record that say from where the objects are read. -/
structure ReplicationSource where
  placement_set_id : Option PlacementSetId
  backend_id : Option BackendId
  storage_volume_id : Option StorageVolumeId
  edge_cluster_id : Option EdgeClusterId
  gateway_pool_id : Option GatewayPoolId
  placement_generation : Option PlacementGeneration
  agent_id : Option AgentId
  (session_generation mount_generation route_generation : Option Generation)
  deriving DecidableEq

/-- The fields `target_…` of a record that say how the target is reached. -/
structure ReplicationTarget where
  edge_cluster_id : Option EdgeClusterId
  gateway_pool_id : Option GatewayPoolId
  placement_generation : Option PlacementGeneration
  agent_id : Option AgentId
  (session_generation mount_generation route_generation : Option Generation)
  deriving DecidableEq

structure ReplicationRecord where
  tenant_id : TenantId
  replication_id : ReplicationId
  artifact_id : Option ArtifactId
  commit_id : ContentDigest
  target_backend_id : Text
  target_storage_volume_id : StorageVolumeId
  source : ReplicationSource
  target : ReplicationTarget
  transfer_route_id : Option TransferRouteId
  transfer_id : Option TransferId
  target_placement_set_id : Option PlacementSetId
  staging_id : Option Text
  object_set_digest : ContentDigest
  state : ReplicationState
  request_id : RequestId
  (attempt completed_objects total_objects completed_bytes total_bytes : UInt64)
  (issue_code issue_message : Option Text)
  (created_at_unix_ms updated_at_unix_ms : UnixMillis)
  deriving DecidableEq

section

variable (record : ReplicationRecord)

def ReplicationRecord.key : ReplicationKey := ⟨record.tenant_id, record.replication_id⟩

/-- What placement sets are filed under: the tenant, the Commit and the backend. -/
structure PlacementTarget where
  tenant_id : TenantId
  commit_id : ContentDigest
  backend_id : Text
  deriving DecidableEq

def ReplicationRecord.placement_target : PlacementTarget :=
  ⟨record.tenant_id, record.commit_id, record.target_backend_id⟩

structure ReplicationStateTransitionRequest where
  key : ReplicationKey
  expected_state : ReplicationState
  expected_attempt : UInt64
  next_state : ReplicationState
  (completed_objects completed_bytes : UInt64)
  (issue_code issue_message : Option Text)
  updated_at_unix_ms : UnixMillis
  deriving DecidableEq

structure RetryReplicationRequest where
  key : ReplicationKey
  expected_attempt : UInt64
  request_id : RequestId
  updated_at_unix_ms : UnixMillis
  deriving DecidableEq

structure RetryReplicationResult where
  replication : ReplicationRecord
  replayed : Bool
  deriving DecidableEq

structure CancelReplicationRequest where
  key : ReplicationKey
  expected_attempt : UInt64
  updated_at_unix_ms : UnixMillis
  deriving DecidableEq

structure FinalizeReplicationRequest where
  key : ReplicationKey
  expected_attempt : UInt64
  placements : List ObjectPlacement
  placement_set : CommitPlacementSet
  finalized_at_unix_ms : UnixMillis
  deriving DecidableEq

structure FinalizeReplicationResult where
  replication : ReplicationRecord
  placement_set : CommitPlacementSet
  replayed : Bool
  deriving DecidableEq

structure ReplicationObjectRecord where
  key : ReplicationKey
  object_id : ObjectId
  offset : UInt64
  state : ReplicationObjectState
  retry_count : UInt64
  updated_at_unix_ms : UnixMillis
  deriving DecidableEq

/-- The time at which a retry arrives is not part of its identity. -/
def same_retry_request (left right : RetryReplicationRequest) : Bool :=
  left.key = right.key ∧ left.expected_attempt = right.expected_attempt ∧
    left.request_id = right.request_id

/-! ## Checks of a record and of a publication -/

def valid_replication_transition : ReplicationState → ReplicationState → Bool
  | .Queued, .Queued => true
  | .Planning, .Planning => true
  | .Transferring, .Transferring => true
  | .Verifying, .Verifying => true
  | .Queued, .Planning => true
  | .Planning, .Transferring => true
  | .Transferring, .Verifying => true
  | current, next => current.active && (next = .Failed || next = .Cancelled)

def replication_invalid (message : String) : CentralError :=
  (CentralError.new .InvalidState message).with_retryable false

/-- Either all fields are present or none. -/
def complete (fields : List Bool) : Bool := !(fields.any id && fields.any not)

def is_staging_byte (byte : UInt8) : Bool :=
  is_ascii_alphanumeric byte || byte == 46 || byte == 95 || byte == 45

def valid_staging_id (value : Text) : Bool :=
  let bytes := utf8 value
  bytes ≠ [] && bytes.length ≤ 128 && bytes.all is_staging_byte

def source_fields (source : ReplicationSource) : List Bool :=
  [source.placement_set_id.isSome, source.backend_id.isSome, source.storage_volume_id.isSome,
    source.placement_generation.isSome, source.agent_id.isSome, source.session_generation.isSome,
    source.mount_generation.isSome, source.route_generation.isSome]

def target_fields (target : ReplicationTarget) : List Bool :=
  [target.edge_cluster_id.isSome, target.gateway_pool_id.isSome,
    target.placement_generation.isSome, target.agent_id.isSome, target.session_generation.isSome,
    target.mount_generation.isSome, target.route_generation.isSome]

def validate_replication_record : CentralResult Unit := do
  ensure (record.attempt ≠ 0) (replication_invalid "replication attempt must be greater than zero")
  ensure (record.completed_objects ≤ record.total_objects)
    (replication_invalid "replication completed object count exceeds total object count")
  ensure (record.completed_bytes ≤ record.total_bytes)
    (replication_invalid "replication completed byte count exceeds total byte count")
  ensure (record.created_at_unix_ms ≤ record.updated_at_unix_ms)
    (replication_invalid "replication timestamps are out of order")
  ensure (complete (source_fields record.source))
    (replication_invalid "replication source PlacementSet binding must be complete")
  ensure (record.source.edge_cluster_id.isSome = record.source.gateway_pool_id.isSome ∧
      record.target.edge_cluster_id.isSome = record.target.gateway_pool_id.isSome)
    (replication_invalid "replication EdgeCluster and GatewayPool bindings must be paired")
  ensure (complete (target_fields record.target))
    (replication_invalid "replication target route binding must be complete")
  ensure (record.state = .Published → record.target_placement_set_id.isSome)
    (replication_invalid "published replication requires a target PlacementSet")
  ensure (record.staging_id.all valid_staging_id)
    (replication_invalid "replication staging ID must be an opaque resource identifier")

/-- The long comparison of `validate_replication_publication`. -/
@[mk_iff]
structure PublicationMatches (object_set : CommitObjectSet)
    (object_count total_bytes : UInt64) (placement_set : CommitPlacementSet) : Prop where
  object_set_tenant : record.tenant_id = object_set.tenant_id
  object_set_commit : record.commit_id = object_set.commit_id.digest
  object_set_digest : record.object_set_digest = object_set.object_set.object_set_digest
  total_objects : record.total_objects = object_count
  total_bytes : record.total_bytes = total_bytes
  tenant_id : placement_set.tenant_id = record.tenant_id
  commit_id : placement_set.commit_id.digest = record.commit_id
  backend_id : placement_set.backend_id.as_str = record.target_backend_id
  storage_volume_id : placement_set.storage_volume_id = some record.target_storage_volume_id
  archive_id : placement_set.archive_id = none
  digest : placement_set.object_set_digest = record.object_set_digest
  object_count : placement_set.object_count = record.total_objects
  verified_object_count : placement_set.verified_object_count = record.total_objects
  state : placement_set.state = .Published
  placement_generation : record.target.placement_generation.all fun generation =>
    generation = placement_set.placement_generation

end

instance (record : ReplicationRecord) (object_set : CommitObjectSet)
    (object_count total_bytes : UInt64) (placement_set : CommitPlacementSet) :
    Decidable (PublicationMatches record object_set object_count total_bytes placement_set) :=
  decidable_of_iff' _ (publicationMatches_iff ..)

/-- The comparison of one placement with its object and with the placement set. -/
@[mk_iff]
structure PlacementMatches (record : ReplicationRecord) (placement_set : CommitPlacementSet)
    (object : CommitObject) (placement : ObjectPlacement) : Prop where
  tenant_id : placement.tenant_id = record.tenant_id
  backend_id : placement.backend_id = placement_set.backend_id
  storage_volume_id : placement.storage_volume_id = placement_set.storage_volume_id
  archive_id : placement.archive_id = none
  placement_generation : placement.placement_generation = placement_set.placement_generation
  state : placement.state = .Verified
  verified_size : placement.verified_size = object.size
  verified_digest : placement.verified_digest = object.object_id.digest
  edge_cluster_id :
    ∀ cluster ∈ record.target.edge_cluster_id, placement.edge_cluster_id = some cluster
  gateway_pool_id : ∀ pool ∈ record.target.gateway_pool_id, placement.gateway_pool_id = some pool

instance (record : ReplicationRecord) (placement_set : CommitPlacementSet)
    (object : CommitObject) (placement : ObjectPlacement) :
    Decidable (PlacementMatches record placement_set object placement) :=
  decidable_of_iff' _ (placementMatches_iff ..)

def validate_replication_publication (blake3 : Blake3) (record : ReplicationRecord)
    (object_set : CommitObjectSet) (placements : List ObjectPlacement)
    (placement_set : CommitPlacementSet) : CentralResult Unit := do
  validate_replication_record record
  (object_set.validate blake3).mapError .of_protocol
  placement_set.validate.mapError .of_protocol
  let object_count ← ok_or (u64_try_from object_set.object_set.object_count)
    (replication_invalid "replication object count exceeds u64")
  let total_bytes ← object_set.object_set.total_bytes.mapError .of_protocol
  ensure (PublicationMatches record object_set object_count total_bytes placement_set)
    (replication_invalid "replication publication does not match its frozen Commit and target")
  let by_object := keyed (·.object_id) placements
  ensure (by_object.size = placements.length ∧ by_object.size = object_set.object_set.object_count)
    (replication_invalid "replication publication requires exactly one target copy of every object")
  object_set.object_set.objects.forM fun object => do
    let placement ← ok_or by_object[object.object_id]?
      (replication_invalid "replication publication is missing a Commit object")
    placement.validate.mapError .of_protocol
    ensure (PlacementMatches record placement_set object placement)
      (replication_invalid "replication object Placement does not match its publication fence")

/-- Every object of the ObjectSet has its own checkpoint at its end, verified. -/
def validate_replication_checkpoints (record : ReplicationRecord) (object_set : CommitObjectSet)
    (checkpoints : List ReplicationObjectRecord) : CentralResult Unit := do
  ensure (checkpoints.length = object_set.object_set.object_count)
    (replication_invalid "replication checkpoints do not cover the complete ObjectSet")
  let by_object := keyed (·.object_id) checkpoints
  ensure (by_object.size = checkpoints.length)
    (replication_invalid "replication checkpoints contain duplicate objects")
  object_set.object_set.objects.forM fun object => do
    let checkpoint ← ok_or by_object[object.object_id]?
      (replication_invalid "replication checkpoint is missing a Commit object")
    ensure (checkpoint.key = record.key ∧ checkpoint.state = .Verified ∧
        checkpoint.offset = object.size)
      (replication_invalid "replication checkpoint is not a verified, complete object boundary")

/-! ## The repository -/

/-- The part of the repository that replication uses. Checkpoints are filed under the key of their
replication, placement sets under the text of their backend. -/
structure ReplicationStore where
  replications : Std.ExtTreeMap ReplicationKey ReplicationRecord
  replication_requests : TenantId × RequestId → Option ReplicationId
  replication_retry_mutations :
    TenantId × RequestId → Option (RetryReplicationRequest × ReplicationRecord)
  replication_objects : ReplicationKey → Std.ExtTreeMap ObjectId ReplicationObjectRecord
  commit_object_sets : TenantId × ContentDigest → Option CommitObjectSet
  placement_sets : PlacementTarget → Option CommitPlacementSet
  object_placements : TenantId × ObjectId → List ObjectPlacement

def replication_not_found : CentralError := invalid .ResourceNotFound "replication does not exist"

def attempt_changed : CentralError :=
  invalid .ConcurrentUpdate "replication attempt changed concurrently"

def timestamp_moved_backwards : CentralError :=
  invalid .ConcurrentUpdate "replication timestamp cannot move backwards"

def replication_already_active : CentralError :=
  invalid .ReplicationAlreadyActive "an active replication already targets this Commit and backend"

def placement_set_already_targets : CentralError :=
  invalid .ReplicationAlreadyActive "a Commit PlacementSet already targets this backend"

namespace ReplicationStore

variable (store : ReplicationStore)

/-- The search for another active replication of the same target. -/
def any_active (target : PlacementTarget) (except : Option ReplicationId) : Bool :=
  (values store.replications).any fun existing =>
    except ≠ some existing.replication_id ∧ existing.placement_target = target ∧
      existing.state.active

section

variable (record : ReplicationRecord)

def put : ReplicationStore :=
  { store with replications := store.replications.insert record.key record }

def insert_replayed (existing_id : ReplicationId) :
    CentralResult (ReplicationRecord × ReplicationStore) := do
  let existing ← ok_or store.replications[(⟨record.tenant_id, existing_id⟩ : ReplicationKey)]?
    (invalid .Internal "replication request index is inconsistent")
  ensure (existing.commit_id = record.commit_id ∧
      existing.target_storage_volume_id = record.target_storage_volume_id ∧
      existing.object_set_digest = record.object_set_digest)
    (invalid .InvalidState "replication request ID is already bound to another payload")
  return (existing, store)

def insert_new : CentralResult (ReplicationRecord × ReplicationStore) := do
  ensure (record.state.active → store.placement_sets record.placement_target = none)
    placement_set_already_targets
  ensure (store.any_active record.placement_target none = false) replication_already_active
  return (record,
    { store.put record with
      replication_requests := Function.update store.replication_requests
        (record.tenant_id, record.request_id) (some record.replication_id) })

def insert_replication : CentralResult (ReplicationRecord × ReplicationStore) := do
  validate_replication_record record
  match store.replications[record.key]? with
  | some existing =>
    ensure (existing = record)
      (invalid .InvalidState "replication ID is already bound to another record")
    return (existing, store)
  | none =>
    match store.replication_requests (record.tenant_id, record.request_id) with
    | some existing_id => store.insert_replayed record existing_id
    | none => store.insert_new record

def transition_replication (request : ReplicationStateTransitionRequest) :
    CentralResult (ReplicationRecord × ReplicationStore) := do
  ensure (valid_replication_transition request.expected_state request.next_state)
    (invalid .InvalidState "invalid Replication state transition")
  let record ← ok_or store.replications[request.key]? replication_not_found
  ensure (record.attempt = request.expected_attempt ∧ record.state = request.expected_state)
    (invalid .ConcurrentUpdate "replication state or attempt changed concurrently")
  ensure (record.completed_objects ≤ request.completed_objects ∧
      record.completed_bytes ≤ request.completed_bytes ∧
      request.completed_objects ≤ record.total_objects ∧
      request.completed_bytes ≤ record.total_bytes ∧
      record.updated_at_unix_ms ≤ request.updated_at_unix_ms)
    (invalid .ConcurrentUpdate
      "replication progress cannot move backwards or exceed its frozen total")
  let record := { record with
    state := request.next_state
    completed_objects := request.completed_objects
    completed_bytes := request.completed_bytes
    issue_code := request.issue_code
    issue_message := request.issue_message
    updated_at_unix_ms := request.updated_at_unix_ms }
  return (record, store.put record)

/-- A retry that is not in the book. -/
def retry_new (request : RetryReplicationRequest) :
    CentralResult (RetryReplicationResult × ReplicationStore) := do
  let current ← ok_or store.replications[request.key]? replication_not_found
  ensure (¬ (current.state = .Queued ∧
      current.attempt.toNat = min (request.expected_attempt.toNat + 1) (2 ^ 64 - 1)))
    attempt_changed
  ensure (current.attempt = request.expected_attempt) attempt_changed
  ensure (current.state = .Failed ∨ current.state = .Cancelled)
    (invalid .InvalidState "only failed or cancelled Replications can be retried")
  ensure (current.updated_at_unix_ms ≤ request.updated_at_unix_ms) timestamp_moved_backwards
  ensure (store.any_active current.placement_target (some current.replication_id) = false)
    replication_already_active
  ensure (store.placement_sets current.placement_target = none) placement_set_already_targets
  let next_attempt ← ok_or (checked_add current.attempt 1)
    (invalid .InvalidState "replication attempt exhausted")
  let record := { current with
    attempt := next_attempt
    state := .Queued
    issue_code := none
    issue_message := none
    updated_at_unix_ms := request.updated_at_unix_ms }
  return (⟨record, false⟩,
    { store.put record with
      replication_retry_mutations := Function.update store.replication_retry_mutations
        (request.key.tenant_id, request.request_id) (some (request, record)) })

def retry_replication (request : RetryReplicationRequest) :
    CentralResult (RetryReplicationResult × ReplicationStore) :=
  match store.replication_retry_mutations (request.key.tenant_id, request.request_id) with
  | some (stored_request, stored_result) => do
    ensure (same_retry_request stored_request request) (invalid .ReplicationRetryRequestReused
        "replication retry request ID is already bound to another payload")
    return (⟨stored_result, true⟩, store)
  | none => store.retry_new request

/-- The cancellation of a replication that is not cancelled yet. -/
def cancel_live (updated_at_unix_ms : UnixMillis) :
    CentralResult (ReplicationRecord × ReplicationStore) := do
  ensure (record.state ≠ .Published ∧ record.state ≠ .Failed)
    (invalid .InvalidState "terminal Replication cannot be cancelled")
  ensure (record.updated_at_unix_ms ≤ updated_at_unix_ms) timestamp_moved_backwards
  let record := { record with
    state := .Cancelled
    issue_code := some "REPLICATION_CANCELLED".toList
    issue_message := some "replication was cancelled by the caller".toList
    updated_at_unix_ms := updated_at_unix_ms }
  return (record, store.put record)

end

def cancel_replication (request : CancelReplicationRequest) :
    CentralResult (ReplicationRecord × ReplicationStore) := do
  let record ← ok_or store.replications[request.key]? replication_not_found
  ensure (record.attempt = request.expected_attempt) attempt_changed
  if record.state = .Cancelled then
    return (record, store)
  else
    store.cancel_live record request.updated_at_unix_ms

def upsert_replication_object (record : ReplicationObjectRecord) :
    CentralResult (ReplicationObjectRecord × ReplicationStore) := do
  let replication ← ok_or store.replications[record.key]?
    (invalid .InvalidState "replication object references a missing Replication")
  ensure (replication.state.active)
    (invalid .InvalidState "terminal Replication cannot accept object checkpoints")
  ensure (record.retry_count = replication.attempt)
    (invalid .ConcurrentUpdate "replication object checkpoint attempt is stale")
  -- the same checkpoint again is written again, which leaves the map as it is
  let stored := (store.replication_objects record.key)[record.object_id]?
  ensure (∀ existing ∈ stored, existing = record ∨
      (existing.offset ≤ record.offset ∧ existing.retry_count ≤ record.retry_count ∧
        existing.updated_at_unix_ms ≤ record.updated_at_unix_ms))
    (invalid .ConcurrentUpdate "replication object checkpoint cannot move backwards")
  return (record,
    { store with
      replication_objects := Function.update store.replication_objects record.key
        ((store.replication_objects record.key).insert record.object_id record) })

/-- The first part of `finalize_replication`: a published replication is answered; otherwise the
second part goes on with what was read. -/
def begin_finalize (request : FinalizeReplicationRequest) :
    CentralResult (FinalizeReplicationResult ⊕ ReplicationRecord) := do
  let record ← ok_or store.replications[request.key]? replication_not_found
  ensure (record.attempt = request.expected_attempt) attempt_changed
  if record.state = .Published then
    let stored := store.placement_sets
      ⟨request.key.tenant_id, record.commit_id, request.placement_set.backend_id.as_str⟩
    ensure (record.target_placement_set_id = some request.placement_set.placement_set_id ∧
        stored = some request.placement_set)
      (invalid .InvalidState "published Replication is bound to another PlacementSet")
    return .inl ⟨record, request.placement_set, true⟩
  else do
    ensure (record.state = .Verifying)
      (invalid .InvalidState "only verifying Replications can be finalized")
    ensure (record.completed_objects = record.total_objects ∧
        record.completed_bytes = record.total_bytes)
      (invalid .InvalidState "all replication objects must be verified before finalize")
    ensure (record.updated_at_unix_ms ≤ request.finalized_at_unix_ms) timestamp_moved_backwards
    return .inr record

/-- The copies of the object of a placement that are on the backend of the placement and have its
generation. -/
def same_copy (placement existing : ObjectPlacement) : Bool :=
  existing.backend_id = placement.backend_id ∧
    existing.placement_generation = placement.placement_generation

section

variable (placements : TenantId × ObjectId → List ObjectPlacement) (placement : ObjectPlacement)

/-- The copy that is recorded where a placement would go. -/
def recorded_copy : Option ObjectPlacement :=
  (placements (placement.tenant_id, placement.object_id)).find? (same_copy placement)

def push_placement : TenantId × ObjectId → List ObjectPlacement :=
  let key := (placement.tenant_id, placement.object_id)
  if (placements key).any (same_copy placement) then placements
  else Function.update placements key (placements key ++ [placement])

end

/-- The second part of `finalize_replication`: everything is checked again under the locks, and the
publication is written. What was read at first may be out of date. -/
def publish_replication (blake3 : Blake3) (record : ReplicationRecord)
    (request : FinalizeReplicationRequest) :
    CentralResult (FinalizeReplicationResult × ReplicationStore) := do
  let object_set ← ok_or (store.commit_object_sets (request.key.tenant_id, record.commit_id))
    (invalid .InvalidState "Commit ObjectSet is missing")
  validate_replication_checkpoints record object_set
    (values (store.replication_objects request.key))
  validate_replication_publication blake3 record object_set request.placements
    request.placement_set
  let placement_key : PlacementTarget :=
    ⟨request.placement_set.tenant_id, request.placement_set.commit_id.digest,
      request.placement_set.backend_id.as_str⟩
  ensure (store.any_active
      ⟨request.key.tenant_id, record.commit_id, request.placement_set.backend_id.as_str⟩
      (some request.key.replication_id) = false)
    replication_already_active
  ensure (∀ existing ∈ store.placement_sets placement_key, existing = request.placement_set)
    (invalid .InvalidState "target PlacementSet is already bound to different metadata")
  ensure (∀ placement ∈ request.placements,
      ∀ existing ∈ recorded_copy store.object_placements placement, existing = placement)
    (invalid .InvalidState "target ObjectPlacement is already bound to different metadata")
  let current ← ok_or store.replications[request.key]? replication_not_found
  ensure (current.attempt = request.expected_attempt ∧ current.state = .Verifying)
    (invalid .ConcurrentUpdate "replication state or attempt changed concurrently")
  let published := { current with
    state := .Published
    target_placement_set_id := some request.placement_set.placement_set_id
    completed_objects := current.total_objects
    completed_bytes := current.total_bytes
    issue_code := none
    issue_message := none
    updated_at_unix_ms := request.finalized_at_unix_ms }
  return (⟨published, request.placement_set, false⟩,
    { store.put published with
      object_placements := request.placements.foldl push_placement store.object_placements
      placement_sets := Function.update store.placement_sets placement_key
        (some request.placement_set) })

end ReplicationStore

/-! ## Workers -/

/-- What a worker does. A finalize is two steps, and other workers may act between them. -/
inductive ReplicationCall (W : Type) where
  | insert (record : ReplicationRecord)
  | transition (request : ReplicationStateTransitionRequest)
  | retry (request : RetryReplicationRequest)
  | cancel (request : CancelReplicationRequest)
  | checkpoint (record : ReplicationObjectRecord)
  | begin_finalize (worker : W) (request : FinalizeReplicationRequest)
  | publish (worker : W)

inductive ReplicationAnswer where
  | replication (record : ReplicationRecord)
  | retried (result : RetryReplicationResult)
  | checkpoint (record : ReplicationObjectRecord)
  | finalized (result : FinalizeReplicationResult)
  | reading
  deriving DecidableEq

/-- The repository, and for each worker the finalize it is in the middle of, with the replication
it has read. -/
structure ReplicationSystem (W : Type) where
  store : ReplicationStore
  finalizing : W → Option (FinalizeReplicationRequest × ReplicationRecord)

namespace ReplicationSystem

variable {W : Type} [DecidableEq W] (blake3 : Blake3) (system : ReplicationSystem W)

def respond {α : Type} (answer : α → ReplicationAnswer)
    (result : CentralResult (α × ReplicationStore)) :
    CentralResult ReplicationAnswer × ReplicationSystem W :=
  match result with
  | .ok (value, store) => (.ok (answer value), { system with store })
  | .error error => (.error error, system)

def start_finalize (worker : W) (request : FinalizeReplicationRequest) :
    CentralResult ReplicationAnswer × ReplicationSystem W :=
  match system.store.begin_finalize request with
  | .ok (.inl result) => (.ok (.finalized result), system)
  | .ok (.inr record) =>
    (.ok .reading,
      { system with
        finalizing := Function.update system.finalizing worker (some (request, record)) })
  | .error error => (.error error, system)

/-- A worker goes on with its finalize. -/
def end_finalize (worker : W) : CentralResult ReplicationAnswer × ReplicationSystem W :=
  match system.finalizing worker with
  | some (request, record) =>
    respond { system with finalizing := Function.update system.finalizing worker none } .finalized
      (system.store.publish_replication blake3 record request)
  | none => (.ok .reading, system)

def call : ReplicationCall W → CentralResult ReplicationAnswer × ReplicationSystem W
  | .insert record => system.respond .replication (system.store.insert_replication record)
  | .transition request =>
    system.respond .replication (system.store.transition_replication request)
  | .retry request => system.respond .retried (system.store.retry_replication request)
  | .cancel request => system.respond .replication (system.store.cancel_replication request)
  | .checkpoint record =>
    system.respond .checkpoint (system.store.upsert_replication_object record)
  | .begin_finalize worker request => system.start_finalize worker request
  | .publish worker => system.end_finalize blake3 worker

end ReplicationSystem

end NeoEngram.Central

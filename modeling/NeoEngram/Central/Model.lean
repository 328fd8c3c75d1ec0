import NeoEngram.Core.IndexDelta
import NeoEngram.Core.Protocol

/-! # Shared records of the control plane

The errors of the control plane, the keys of its stores, and the wire form of
Index versions and mutations.
-/

namespace NeoEngram.Central

open Checks

variable {U : UnicodeTables}

/-! ### Errors -/

inductive CentralErrorCode where
  | ArtifactHeadMismatch
  | ArtifactNotFound
  | ConcurrentUpdate
  | EnrollmentNotFound
  | Internal
  | InvalidState
  | JobIdReused
  | JobNotFound
  | MetadataInvalid
  | ProtocolInvalid
  | ReplicationAlreadyActive
  | ReplicationRetryRequestReused
  | ResourceNotFound
  | StorageFailure
  | StorageVolumeNotFound
  deriving DecidableEq, Repr

structure CentralError where
  code : CentralErrorCode
  message : String
  retryable : Bool
  deriving DecidableEq

def CentralError.new (code : CentralErrorCode) (message : String) : CentralError :=
  ⟨code, message, code = .ConcurrentUpdate ∨ code = .StorageFailure ∨ code = .Internal⟩

def CentralError.with_retryable (error : CentralError) (retryable : Bool) : CentralError :=
  { error with retryable := retryable }

/-- `CentralError::from` of a protocol error. -/
def CentralError.of_protocol (error : ProtocolError) : CentralError :=
  .new .ProtocolInvalid error.to_string

abbrev CentralResult (α : Type) := Except CentralError α

def invalid (code : CentralErrorCode) (message : String) : CentralError := .new code message

def storage_corruption (message : String) : CentralError := ⟨.StorageFailure, message, false⟩

/-! ### Keys -/

abbrev ResourceVersion := UInt64

abbrev UnixMillis := UInt64

structure JobKey where
  tenant_id : TenantId
  job_id : JobId
  deriving DecidableEq

structure IndexKey where
  tenant_id : TenantId
  project_id : ProjectId
  artifact_id : ArtifactId
  workspace_id : WorkspaceId
  deriving DecidableEq

/-! ### Index versions and mutations on the wire -/

structure WireIndexVersion where
  revision : UInt64
  digest : ContentDigest
  extensions : Extensions
  deriving DecidableEq

def WireIndexVersion.validate (self : WireIndexVersion) : CentralResult Unit :=
  (validate_extension_keys self.extensions ["revision", "digest"]).mapError .of_protocol

def WireIndexVersion.of (version : IndexVersion) : WireIndexVersion :=
  ⟨version.revision, version.digest, []⟩

def same_index_version (left right : WireIndexVersion) : Bool :=
  left.revision = right.revision ∧ left.digest = right.digest

theorem same_index_version_iff {left right : WireIndexVersion} :
    same_index_version left right = true ↔
      left.revision = right.revision ∧ left.digest = right.digest := by
  simp [same_index_version]

def from_snapshot (blake3 : Blake3) (revision : UInt64) (records : List (FileRecord U)) :
    ValidationResult IndexVersion := do
  let digest ← index_snapshot_digest blake3 records
  return ⟨revision, digest⟩

theorem from_snapshot_eq_ok {blake3 : Blake3} {revision : UInt64} {records : List (FileRecord U)}
    {version : IndexVersion} :
    from_snapshot blake3 revision records = .ok version ↔
      version.revision = revision ∧ index_snapshot_digest blake3 records = .ok version.digest := by
  simp only [from_snapshot, ok_iff]
  constructor
  · rintro ⟨digest, hdigest, heq⟩
    subst heq
    exact ⟨rfl, hdigest⟩
  · rintro ⟨hrevision, hdigest⟩
    subst hrevision
    exact ⟨version.digest, hdigest, rfl⟩

inductive IndexDeltaRecord (U : UnicodeTables) where
  | Upsert (path : LogicalPath U) (manifest_id : ManifestId) (total_size chunk_count : UInt64)
      (extensions : Extensions)
  | Delete (path : LogicalPath U) (extensions : Extensions)
  deriving DecidableEq

namespace IndexDeltaRecord

def mutation : IndexDeltaRecord U → IndexMutation U
  | .Upsert path manifest_id total_size chunk_count _ =>
    .Upsert ⟨path, manifest_id, total_size, chunk_count⟩
  | .Delete path _ => .Delete path

end IndexDeltaRecord

end NeoEngram.Central

import NeoEngram.Core.Placement

/-! # Object copies and their health

The durable unit of materialization is one verified object on one Volume or
archive. Central accepts the scrub report of a Volume if it passes
`IntegrityScanReport.validate`.
-/

namespace NeoEngram.Materialization

open Checks

abbrev MountGeneration := UInt64
abbrev UnixMillis := UInt64

def MAX_MATERIALIZATION_MANIFEST_OBJECTS : Nat := 4096
def MAX_MATERIALIZATION_BATCH_OBJECTS : Nat := MAX_MATERIALIZATION_MANIFEST_OBJECTS * 65535
def MAX_MATERIALIZATION_ERROR_BYTES : Nat := 4096

def invalid (field reason : String) : ProtocolError := .InvalidField field reason

/-! ## Copies -/

inductive ObjectPlacementState where
  | Verified
  | Retiring
  | Deleted
  | Lost
  deriving DecidableEq, Repr

structure ObjectPlacement where
  placement_id : PlacementId
  tenant_id : TenantId
  object_namespace_id : ObjectNamespaceId
  object_id : ObjectId
  size : UInt64
  encoding : ObjectEncoding
  verified_digest : ContentDigest
  storage_volume_id : Option StorageVolumeId
  archive_id : Option ArchiveId
  placement_generation : PlacementGeneration
  state : ObjectPlacementState
  failure_domain : Text
  deriving DecidableEq

def ObjectPlacement.validate (self : ObjectPlacement) : ProtocolResult Unit := do
  ensure (self.storage_volume_id.isSome ≠ self.archive_id.isSome)
    (invalid "storage_volume_id/archive_id" "exactly one physical storage target is required")
  validate_positive "placement_generation" self.placement_generation
  ensure (self.verified_digest = self.object_id.digest)
    (.InvalidDigest "verified_digest must equal object_id")
  validate_nonempty_limited "failure_domain" self.failure_domain 256

/-! ## Scrub reports -/

inductive PlacementHealthState where
  | Healthy
  | Missing
  | Corrupt
  | Orphan
  | Unknown
  deriving DecidableEq, Repr

structure PlacementHealthObservation where
  scan_id : IntegrityScanId
  tenant_id : TenantId
  object_namespace_id : ObjectNamespaceId
  placement_id : PlacementId
  object_id : ObjectId
  storage_volume_id : StorageVolumeId
  placement_generation : PlacementGeneration
  state : PlacementHealthState
  observed_size : UInt64
  observed_digest : ContentDigest
  observed_at_unix_ms : UnixMillis
  detail : Option Text
  deriving DecidableEq

def validate_optional_text (field : String) (value : Option Text) (limit : Nat) :
    ProtocolResult Unit :=
  match value with
  | some value => validate_nonempty_limited field value limit
  | none => return ()

def PlacementHealthObservation.validate (self : PlacementHealthObservation) :
    ProtocolResult Unit := do
  validate_positive "placement_generation" self.placement_generation
  ensure (self.observed_at_unix_ms ≠ 0) (invalid "observed_at_unix_ms" "must be positive")
  ensure (self.state = .Healthy → self.observed_digest = self.object_id.digest)
    (.InvalidDigest "healthy observation digest must equal object_id")
  validate_optional_text "detail" self.detail MAX_MATERIALIZATION_ERROR_BYTES

inductive VolumeIntegrityScanState where
  | Queued
  | Running
  | Complete
  | Failed
  | Cancelled
  deriving DecidableEq, Repr

/-- The counts are of things that are in memory, so they do not overflow. -/
structure VolumeIntegrityScan where
  scan_id : IntegrityScanId
  tenant_id : TenantId
  storage_volume_id : StorageVolumeId
  placement_generation : PlacementGeneration
  state : VolumeIntegrityScanState
  (checked_objects healthy_objects missing_objects corrupt_objects orphan_objects : Nat)
  started_at_unix_ms : UnixMillis
  finished_at_unix_ms : Option UnixMillis
  error : Option Text
  deriving DecidableEq

/-- The counts that are compared with the number of checked objects. -/
def VolumeIntegrityScan.counts (self : VolumeIntegrityScan) : List (String × Nat) :=
  [("healthy_objects", self.healthy_objects), ("missing_objects", self.missing_objects),
    ("corrupt_objects", self.corrupt_objects), ("orphan_objects", self.orphan_objects)]

def VolumeIntegrityScan.validate (self : VolumeIntegrityScan) : ProtocolResult Unit := do
  validate_positive "placement_generation" self.placement_generation
  ensure (self.started_at_unix_ms ≠ 0) (invalid "started_at_unix_ms" "must be positive")
  self.counts.forM fun (name, count) =>
    ensure (¬ (self.checked_objects < count ∧ name ≠ "orphan_objects"))
      (invalid name "cannot exceed checked_objects")
  ensure (self.finished_at_unix_ms.all fun finished => self.started_at_unix_ms ≤ finished)
    (invalid "finished_at_unix_ms" "cannot precede start")
  validate_optional_text "error" self.error MAX_MATERIALIZATION_ERROR_BYTES

structure IntegrityScanReport where
  scan : VolumeIntegrityScan
  mount_generation : MountGeneration
  observations : List PlacementHealthObservation
  extensions : Extensions
  deriving DecidableEq

/-- The loop over the observations, with the copies seen. -/
def validate_observations (scan : VolumeIntegrityScan) (seen : Std.ExtTreeSet PlacementId) :
    List PlacementHealthObservation → ProtocolResult Unit
  | [] => return ()
  | observation :: observations => do
    observation.validate
    ensure (observation.scan_id = scan.scan_id ∧ observation.tenant_id = scan.tenant_id ∧
        observation.storage_volume_id = scan.storage_volume_id ∧
        observation.placement_id ∉ seen)
      (invalid "observations" "observation identity does not match the scan or is duplicated")
    validate_observations scan (seen.insert observation.placement_id) observations

def IntegrityScanReport.validate (self : IntegrityScanReport) : ProtocolResult Unit := do
  self.scan.validate
  validate_positive "mount_generation" self.mount_generation
  ensure (self.observations.length ≤ MAX_MATERIALIZATION_BATCH_OBJECTS)
    (.LimitExceeded "integrity observation count" MAX_MATERIALIZATION_BATCH_OBJECTS
      self.observations.length)
  validate_observations self.scan ∅ self.observations
  validate_extension_keys self.extensions ["scan", "mount_generation", "observations"]

/-! ## When a scrub report is valid -/

variable {scan : VolumeIntegrityScan}

theorem validate_observations_eq_ok {seen : Std.ExtTreeSet PlacementId}
    {observations : List PlacementHealthObservation} :
    validate_observations scan seen observations = .ok () ↔
      (∀ o ∈ observations, o.validate = .ok () ∧ o.scan_id = scan.scan_id ∧
        o.tenant_id = scan.tenant_id ∧ o.storage_volume_id = scan.storage_volume_id ∧
        o.placement_id ∉ seen) ∧ (observations.map (·.placement_id)).Nodup := by
  induction observations generalizing seen with
  | nil => simp [validate_observations]
  | cons o observations ih =>
    simp only [validate_observations, ok_iff, ih, Std.ExtTreeSet.mem_insert, compare_eq_iff_eq,
      not_or, List.forall_mem_cons, List.map_cons, List.nodup_cons, List.mem_map, not_exists,
      not_and]
    constructor
    · rintro ⟨hvalid, ⟨hscan, htenant, hvolume, hfresh⟩, hrest, hnodup⟩
      refine ⟨⟨⟨hvalid, hscan, htenant, hvolume, hfresh⟩, fun p hp => ?_⟩, fun p hp heq => ?_,
        hnodup⟩
      · obtain ⟨hp₁, hp₂, hp₃, hp₄, _, hp₅⟩ := hrest p hp
        exact ⟨hp₁, hp₂, hp₃, hp₄, hp₅⟩
      · obtain ⟨_, _, _, _, hne, _⟩ := hrest p hp
        exact hne heq.symm
    · rintro ⟨⟨⟨hvalid, hscan, htenant, hvolume, hfresh⟩, hrest⟩, hnew, hnodup⟩
      refine ⟨hvalid, ⟨hscan, htenant, hvolume, hfresh⟩, fun p hp => ?_, hnodup⟩
      obtain ⟨hp₁, hp₂, hp₃, hp₄, hp₅⟩ := hrest p hp
      exact ⟨hp₁, hp₂, hp₃, hp₄, fun heq => hnew p hp heq.symm, hp₅⟩

/-- A complete scan without an error is valid if no count but that of the orphans exceeds the number
of checked objects. -/
theorem VolumeIntegrityScan.validate_eq_ok
    (hfinished : scan.finished_at_unix_ms = some scan.started_at_unix_ms)
    (herror : scan.error = none) :
    scan.validate = .ok () ↔
      scan.placement_generation ≠ 0 ∧ scan.started_at_unix_ms ≠ 0 ∧
        scan.healthy_objects ≤ scan.checked_objects ∧ scan.missing_objects ≤ scan.checked_objects ∧
        scan.corrupt_objects ≤ scan.checked_objects := by
  simp only [validate, validate_positive, counts, ok_iff, forM_eq_ok, List.forall_mem_cons,
    hfinished, herror, validate_optional_text]
  simp

end NeoEngram.Materialization

import NeoEngram.Core.Canonical
import NeoEngram.Core.Protocol

/-! # Placements

What a Commit needs is its ObjectSet. Placements say where the objects are, one
for each copy, and placement sets which backends hold the whole ObjectSet.
-/

namespace NeoEngram

open Checks Framing OrderedKeys

abbrev PlacementGeneration := UInt64

/-! ## ObjectSets -/

inductive ObjectEncoding where
  | Raw
  | Zstd
  deriving DecidableEq, Repr

structure CommitObject where
  object_id : ObjectId
  size : UInt64
  encoding : ObjectEncoding
  ordinal : UInt64
  deriving DecidableEq

/-- The checks of `validate_objects` from the object at `index` on, with the identities seen. -/
def validate_objects_from (index : Nat) (ids : Std.ExtTreeSet ObjectId) :
    List CommitObject → ProtocolResult Unit
  | [] => return ()
  | object :: objects => do
    let expected_ordinal ← ok_or (u64_try_from index)
      (.InvalidField "ordinal" "object count exceeds u64")
    ensure (object.ordinal = expected_ordinal)
      (.InvalidField "ordinal" "object ordinals must be contiguous and start at zero")
    ensure (object.object_id ∉ ids)
      (.InvalidField "object_id" "an ObjectSet cannot contain duplicate objects")
    validate_objects_from (index + 1) (ids.insert object.object_id) objects

def validate_objects (objects : List CommitObject) : ProtocolResult Unit :=
  validate_objects_from 0 ∅ objects

/-- An ObjectSet names an object once. -/
theorem validate_objects_from_distinct {index : Nat} {ids : Std.ExtTreeSet ObjectId}
    {objects : List CommitObject} (h : validate_objects_from index ids objects = .ok ()) :
    (objects.map (·.object_id)).Nodup ∧ ∀ object ∈ objects, object.object_id ∉ ids := by
  induction objects generalizing index ids with
  | nil => simp
  | cons object objects ih =>
    simp only [validate_objects_from, ok_iff] at h
    obtain ⟨_, _, _, hfresh, hrest⟩ := h
    obtain ⟨hnodup, hnew⟩ := ih hrest
    simp only [Std.ExtTreeSet.mem_insert, compare_eq_iff_eq, not_or] at hnew
    rw [List.map_cons, List.nodup_cons, List.forall_mem_cons]
    refine ⟨⟨?_, hnodup⟩, hfresh, fun o ho => (hnew o ho).2⟩
    intro hmem
    obtain ⟨o, ho, heq⟩ := List.mem_map.mp hmem
    exact (hnew o ho).1 heq.symm

structure ObjectSet where
  object_set_digest : ContentDigest
  objects : List CommitObject
  deriving DecidableEq

namespace ObjectSet

def encoding_byte : ObjectEncoding → UInt8
  | .Raw => 0
  | .Zstd => 1

/-- The bytes that one object adds to the digest of its ObjectSet. -/
def object_bytes (object : CommitObject) : Bytes :=
  object.object_id.digest.as_bytes ++ u64_be object.size ++ u64_be object.ordinal ++
    [encoding_byte object.encoding]

def digest_for (blake3 : Blake3) (objects : List CommitObject) : ProtocolResult ContentDigest := do
  validate_objects objects
  return blake3 (utf8 "neoengram-object-set-v1".toList ++ [0] ++ objects.flatMap object_bytes)

def validate (blake3 : Blake3) (self : ObjectSet) : ProtocolResult Unit := do
  let expected ← digest_for blake3 self.objects
  ensure (self.object_set_digest = expected) (.InvalidDigest
    (s!"object_set_digest does not match object list: expected {expected}, " ++
      s!"got {self.object_set_digest}"))

def object_count (self : ObjectSet) : Nat := self.objects.length

def total_bytes (self : ObjectSet) : ProtocolResult UInt64 :=
  self.objects.foldlM (fun total object => ok_or (checked_add total object.size)
    (.InvalidField "objects" "total ObjectSet size exceeds u64")) 0

theorem validate_distinct {blake3 : Blake3} {self : ObjectSet}
    (h : self.validate blake3 = .ok ()) : (self.objects.map (·.object_id)).Nodup := by
  simp only [validate, digest_for, ok_iff] at h
  obtain ⟨_, ⟨hobjects, _⟩, _⟩ := h
  exact (validate_objects_from_distinct hobjects).1

end ObjectSet

structure CommitObjectSet where
  tenant_id : TenantId
  commit_id : CommitId
  object_set : ObjectSet
  deriving DecidableEq

def CommitObjectSet.validate (blake3 : Blake3) (self : CommitObjectSet) : ProtocolResult Unit :=
  self.object_set.validate blake3

/-! ## Placements and placement sets -/

inductive PlacementState where
  | Verified
  | Retiring
  | Deleted
  | Lost
  deriving DecidableEq, Repr

structure ObjectPlacement where
  tenant_id : TenantId
  object_id : ObjectId
  backend_id : BackendId
  storage_volume_id : Option StorageVolumeId
  archive_id : Option ArchiveId
  edge_cluster_id : Option EdgeClusterId
  gateway_pool_id : Option GatewayPoolId
  region : Option RegionId
  placement_generation : PlacementGeneration
  state : PlacementState
  verified_size : UInt64
  verified_digest : ContentDigest
  failure_domain : Text
  deriving DecidableEq

/-- The checks that placements and placement sets have in common: one physical target, and a
generation. -/
def validate_target (storage_volume_id : Option StorageVolumeId) (archive_id : Option ArchiveId)
    (placement_generation : PlacementGeneration) : ProtocolResult Unit := do
  ensure (storage_volume_id.isSome ≠ archive_id.isSome)
    (.InvalidField "storage_volume_id/archive_id" "exactly one physical storage target is required")
  ensure (placement_generation ≠ 0)
    (.InvalidField "placement_generation" "must be greater than zero")

def ObjectPlacement.validate (self : ObjectPlacement) : ProtocolResult Unit := do
  validate_target self.storage_volume_id self.archive_id self.placement_generation
  ensure (self.verified_digest = self.object_id.digest)
    (.InvalidDigest "verified_digest must equal object_id")
  ensure (self.failure_domain ≠ [] ∧ (utf8 self.failure_domain).length ≤ 256)
    (.InvalidField "failure_domain" "must contain 1..=256 bytes")

inductive CommitPlacementSetState where
  | Staged
  | Published
  | Retiring
  | Deleted
  deriving DecidableEq, Repr

/-- The whole ObjectSet of a Commit on one backend. -/
structure CommitPlacementSet where
  placement_set_id : PlacementSetId
  tenant_id : TenantId
  commit_id : CommitId
  backend_id : BackendId
  storage_volume_id : Option StorageVolumeId
  archive_id : Option ArchiveId
  object_set_digest : ContentDigest
  (object_count verified_object_count : UInt64)
  placement_generation : PlacementGeneration
  state : CommitPlacementSetState
  deriving DecidableEq

def CommitPlacementSet.validate (self : CommitPlacementSet) : ProtocolResult Unit := do
  validate_target self.storage_volume_id self.archive_id self.placement_generation
  ensure (self.verified_object_count ≤ self.object_count)
    (.InvalidField "verified_object_count" "cannot exceed object_count")
  ensure (self.state = .Published → self.verified_object_count = self.object_count)
    (.InvalidField "state" "published placement sets must contain every object")

end NeoEngram

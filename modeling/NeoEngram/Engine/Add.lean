import NeoEngram.Core.Publication
import NeoEngram.Engine.Ports

/-! # Prepared Adds

An Agent prepares an Add as a candidate: an Index delta, the Manifests of its
upserts, their payload objects, and statistics. This file embeds
`engine/add.rs`: the request, the candidate, the checks of its content, and its
digest, which differs from that of the publication and covers the statistics.
-/

namespace NeoEngram

open Checks Framing Tables OrderedKeys

variable {U : UnicodeTables}

/-! ## Requests -/

structure ManagedResource where
  (tenant_id project_id artifact_id workspace_id job_id : Text)
  deriving DecidableEq

def ManagedResource.fields (self : ManagedResource) : List (String × Text) :=
  [("tenant_id", self.tenant_id), ("project_id", self.project_id),
    ("artifact_id", self.artifact_id), ("workspace_id", self.workspace_id),
    ("job_id", self.job_id)]

def ManagedResource.validate (self : ManagedResource) : EngineResult Unit :=
  self.fields.forM fun (name, value) =>
    ensure (value ≠ []) ⟨.InvalidArgument, s!"{name} cannot be empty", []⟩

/-! ## Candidates and their content -/

structure AddStatistics where
  files_scanned : UInt64 := 0
  files_upserted : UInt64 := 0
  paths_deleted : UInt64 := 0
  bytes_scanned : UInt64 := 0
  chunks_observed : UInt64 := 0
  objects_created : UInt64 := 0
  objects_reused : UInt64 := 0
  bytes_published : UInt64 := 0
  deriving DecidableEq

/-- The candidate that an Agent returns. -/
structure PreparedAdd (U : UnicodeTables) where
  resource : ManagedResource
  base_index_version : IndexVersion
  candidate_batch_id : Text
  index_delta : IndexDelta U
  manifests : List Manifest
  object_specs : List ObjectSpec
  statistics : AddStatistics
  candidate_digest : ContentDigest
  prepared_at_unix_ms : UInt64
  deriving DecidableEq

/-- One round of the chunk loop of `validate_content`. -/
def collect_prepared_chunk (objects : Std.ExtTreeMap ObjectId UInt64)
    (referenced : Std.ExtTreeMap ObjectId UInt64) (chunk : ChunkRef) :
    EngineResult (Std.ExtTreeMap ObjectId UInt64) := do
  let referenced ← insert_agreeing ChunkRef.object_id ChunkRef.size (fun chunk =>
    ⟨.IntegrityViolation, "prepared Manifests disagree about an object size",
      [("object_id", toString chunk.object_id)]⟩) referenced chunk
  ensure (objects[chunk.object_id]? = some chunk.size)
    ⟨.ObjectMissing, "prepared Manifest references an absent ObjectSpec",
      [("object_id", toString chunk.object_id)]⟩
  return referenced

/-- One round of the Manifest loop of `validate_content`. -/
def collect_prepared_manifest (blake3 : Blake3) (objects : Std.ExtTreeMap ObjectId UInt64)
    (tables : ManifestTables) (manifest : Manifest) : EngineResult ManifestTables := do
  lift_core manifest.validate
  let id ← lift_core (manifest_id blake3 manifest)
  ensure (tables.manifests[id]?.isNone)
    ⟨.IntegrityViolation, "prepared add contains a duplicate Manifest",
      [("manifest_id", toString id)]⟩
  let referenced_objects ←
    manifest.chunks.foldlM (collect_prepared_chunk objects) tables.referenced_objects
  return ⟨tables.manifests.insert id manifest, referenced_objects⟩

/-- One round of the mutation loop of `validate_content`. -/
def reference_prepared_manifest (manifests : Std.ExtTreeMap ManifestId Manifest)
    (referenced : Std.ExtTreeSet ManifestId) (mutation : IndexMutation U) :
    EngineResult (Std.ExtTreeSet ManifestId) :=
  reference_upsert EngineError.from_validation
    (fun record => ⟨.ObjectMissing, "Index upsert references an absent prepared Manifest",
      [("manifest_id", toString record.manifest_id)]⟩)
    (fun record => ⟨.IntegrityViolation, "Index upsert metadata differs from its prepared Manifest",
      [("logical_path", toString record.path)]⟩)
    manifests referenced mutation

namespace PreparedAdd

def validate_content (blake3 : Blake3) (self : PreparedAdd U) : EngineResult Unit := do
  self.resource.validate
  ensure (self.candidate_batch_id ≠ [])
    ⟨.InvalidArgument, "prepared candidate_batch_id cannot be empty", []⟩
  ensure (self.index_delta.base_version = self.base_index_version)
    ⟨.Conflict, "prepared IndexDelta base does not match base_index_version", []⟩
  lift_core self.index_delta.validate
  let objects ← self.object_specs.foldlM (insert_new ObjectSpec.id ObjectSpec.size fun object =>
    ⟨.IntegrityViolation, "prepared add contains a duplicate ObjectSpec",
      [("object_id", toString object.id)]⟩) ∅
  let tables ← self.manifests.foldlM (collect_prepared_manifest blake3 objects) ⟨∅, ∅⟩
  let referenced_manifests ←
    self.index_delta.iter.foldlM (reference_prepared_manifest tables.manifests) ∅
  ensure (Std.ExtTreeSet.ofList tables.manifests.keys = referenced_manifests)
    ⟨.IntegrityViolation, "prepared add contains a Manifest not referenced by its IndexDelta", []⟩
  ensure (objects = tables.referenced_objects)
    ⟨.IntegrityViolation, "prepared ObjectSpecs are not the exact Manifest object set", []⟩

end PreparedAdd

/-! ## The digest of a candidate -/

def PREPARED_ADD_HASH_DOMAIN : Bytes := utf8 "neoengram-runtime-prepared-add-v1".toList

/-- The encoder of the engine: lengths and numbers are big-endian. -/
abbrev CanonicalHasher := Bytes

namespace CanonicalHasher

section

variable (self : CanonicalHasher)

def write_u8 (value : UInt8) : CanonicalHasher := self ++ [value]

def write_u64 (value : UInt64) : CanonicalHasher := self ++ u64_be value

def write_len (length : Nat) : EngineResult CanonicalHasher := do
  let length ← ok_or (u64_try_from length)
    ⟨.InvalidArgument, "canonical collection length exceeds u64", []⟩
  return self.write_u64 length

def write_bytes (bytes : Bytes) : EngineResult CanonicalHasher := do
  let self ← self.write_len bytes.length
  return self ++ bytes

def write_str (value : Text) : EngineResult CanonicalHasher := self.write_bytes (utf8 value)

def write_digest (digest : ContentDigest) : EngineResult CanonicalHasher :=
  self.write_bytes digest.as_bytes

end

def new (domain : Bytes) : EngineResult CanonicalHasher := write_bytes [] domain

end CanonicalHasher

open CanonicalHasher

def write_mutation (hasher : CanonicalHasher) : IndexMutation U → EngineResult CanonicalHasher
  | .Upsert record => do
    let hasher ← write_str (write_u8 hasher 1) record.path.text
    let hasher ← write_bytes hasher record.manifest_id.as_bytes
    return write_u64 (write_u64 hasher record.total_size) record.chunk_count
  | .Delete path => write_str (write_u8 hasher 2) path.text

def write_chunk (hasher : CanonicalHasher) (chunk : ChunkRef) : EngineResult CanonicalHasher := do
  let hasher ← write_bytes hasher chunk.object_id.as_bytes
  return write_u64 (write_u64 hasher chunk.offset) chunk.size

def write_manifest (hasher : CanonicalHasher) (entry : ManifestId × Manifest) :
    EngineResult CanonicalHasher := do
  let (manifest_id, manifest) := entry
  let hasher ← write_bytes hasher manifest_id.as_bytes
  let hasher := write_u64 hasher manifest.total_size
  let hasher := write_u8 hasher (match manifest.chunking with
    | .FastCdc => 1
    | .WholeFile => 2)
  let hasher ← write_len hasher manifest.chunks.length
  manifest.chunks.foldlM write_chunk hasher

def write_object (hasher : CanonicalHasher) (object : ObjectSpec) :
    EngineResult CanonicalHasher := do
  let hasher ← write_bytes hasher object.id.as_bytes
  return write_u64 hasher object.size

namespace PreparedAdd

/-- The delta, written mutation by mutation. -/
def write_delta (hasher : CanonicalHasher) (delta : IndexDelta U) :
    EngineResult CanonicalHasher := do
  let hasher := write_u64 hasher delta.base_version.revision
  let hasher ← write_digest hasher delta.base_version.digest
  let hasher ← write_len hasher delta.mutation_count
  let hasher ← delta.iter.foldlM write_mutation hasher
  write_digest hasher delta.result_digest

def write_statistics (hasher : CanonicalHasher) (statistics : AddStatistics) : CanonicalHasher :=
  [statistics.files_scanned, statistics.files_upserted, statistics.paths_deleted,
    statistics.bytes_scanned, statistics.chunks_observed, statistics.objects_created,
    statistics.objects_reused, statistics.bytes_published].foldl write_u64 hasher

def compute_canonical_digest (blake3 : Blake3) (self : PreparedAdd U) :
    EngineResult ContentDigest := do
  let hasher ← CanonicalHasher.new PREPARED_ADD_HASH_DOMAIN
  let hasher ← (self.resource.fields.map (·.2)).foldlM write_str hasher
  let hasher := write_u64 hasher self.base_index_version.revision
  let hasher ← write_digest hasher self.base_index_version.digest
  let hasher ← write_str hasher self.candidate_batch_id
  let hasher ← write_delta hasher self.index_delta
  let manifests ← self.manifests.mapM fun manifest => do
    let id ← lift_core (manifest_id blake3 manifest)
    return (id, manifest)
  let manifests := sort_by_key Prod.fst manifests
  let hasher ← write_len hasher manifests.length
  let hasher ← manifests.foldlM write_manifest hasher
  let object_specs := sort_by_key ObjectSpec.id self.object_specs
  let hasher ← write_len hasher object_specs.length
  let hasher ← object_specs.foldlM write_object hasher
  let hasher := write_statistics hasher self.statistics
  return blake3 (write_u64 hasher self.prepared_at_unix_ms)

def publication_digest (blake3 : Blake3) (self : PreparedAdd U) : EngineResult ContentDigest := do
  self.validate_content blake3
  lift_core (add_publication_digest blake3 self.resource.tenant_id self.resource.project_id
    self.resource.artifact_id self.resource.workspace_id self.resource.job_id
    self.base_index_version self.index_delta self.manifests self.object_specs)

def canonical_digest (blake3 : Blake3) (self : PreparedAdd U) : EngineResult ContentDigest := do
  self.validate_content blake3
  self.compute_canonical_digest blake3

end PreparedAdd

end NeoEngram

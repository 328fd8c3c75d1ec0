import NeoEngram.Central.Model
import NeoEngram.Framework.Runs

/-! # Publication of an Index

A job publishes its changes to the Index of a Workspace by a compare-and-swap:
the request names the version it was made for, the mutations, the Manifests
of the files it adds and the digest of the result. The publishers on SQLite
and in memory decide alike and differ in how they keep the Index.
-/

namespace NeoEngram.Central

open Checks OrderedKeys
open Std (ExtTreeMap ExtTreeSet)

variable {U : UnicodeTables}

/-! ## Requests and outcomes -/

structure IndexPublishRequest (U : UnicodeTables) where
  job_key : JobKey
  index_key : IndexKey
  expected_index_version : WireIndexVersion
  expected_result_digest : ContentDigest
  manifests : List Manifest
  mutations : List (IndexDeltaRecord U)
  deriving DecidableEq

inductive IndexPublishRejection where
  | InvalidMetadata (message : String)
  | ResultDigestMismatch (expected_digest observed_digest : ContentDigest)
  | RevisionExhausted
  deriving DecidableEq

inductive IndexPublishOutcome where
  | Published (version : WireIndexVersion)
  | Conflict (version : WireIndexVersion)
  | Rejected (rejection : IndexPublishRejection)
  deriving DecidableEq

structure IndexSnapshot (U : UnicodeTables) where
  version : WireIndexVersion
  records : IndexMap U

abbrev ManifestKey := TenantId × ArtifactId × ManifestId

/-- Where the Manifests of a request are catalogued. -/
def IndexPublishRequest.manifest_key (request : IndexPublishRequest U) (id : ManifestId) :
    ManifestKey :=
  (request.index_key.tenant_id, request.index_key.artifact_id, id)

/-! ## The decision -/

section

variable (blake3 : Blake3)

/-- How the decision ends early: with an error of the store, which records nothing, or with a
rejection. -/
inductive Stop where
  | failed (error : CentralError)
  | rejected (rejection : IndexPublishRejection)

abbrev ManifestMap := ExtTreeMap ManifestId Manifest

/-- One round of the loop over the Manifests of a request. -/
def add_manifest (manifests : ManifestMap) (manifest : Manifest) : Except Stop ManifestMap := do
  let id ← (manifest_id blake3 manifest).mapError fun error =>
    .rejected (.InvalidMetadata s!"invalid publication Manifest: {error.message}")
  ensure (manifests[id]? = none)
    (.rejected (.InvalidMetadata s!"publication repeats Manifest {id}"))
  return manifests.insert id manifest

/-- One round of the loop over the mutations that collects the Manifests they name. -/
def check_upsert (manifests : ManifestMap) (referenced : ExtTreeSet ManifestId)
    (mutation : IndexDeltaRecord U) : Except Stop (ExtTreeSet ManifestId) :=
  match mutation with
  | .Delete _ _ => .ok referenced
  | .Upsert _ id total_size chunk_count _ =>
    match manifests[id]? with
    | none => .ok (referenced.insert id)
    | some manifest => do
      let observed ← manifest.chunk_count.mapError fun error =>
        .rejected (.InvalidMetadata s!"invalid publication Manifest: {error.message}")
      ensure (manifest.total_size = total_size ∧ observed = chunk_count)
        (.rejected (.InvalidMetadata s!"Index upsert metadata differs from Manifest {id}"))
      return referenced.insert id

/-- The loop that compares the Manifests with the catalogue. -/
def check_catalogue (load_manifest : ManifestId → CentralResult (Option Manifest)) :
    List (ManifestId × Manifest) → Except Stop Unit
  | [] => .ok ()
  | (id, manifest) :: rest => do
    let existing ← (load_manifest id).mapError .failed
    ensure (∀ value ∈ existing, value = manifest) (.rejected (.InvalidMetadata
        s!"immutable catalog already contains different content for Manifest {id}"))
    check_catalogue load_manifest rest

/-- One round of the loop that applies the mutations. -/
def apply_mutation (records : IndexMap U) (mutation : IndexDeltaRecord U) :
    Except Stop (IndexMap U) :=
  match mutation with
  | .Upsert path manifest_id total_size chunk_count _ => do
    let record ← (FileRecord.new path manifest_id total_size chunk_count).mapError fun error =>
      .rejected (.InvalidMetadata s!"invalid Index upsert: {error.message}")
    return records.insert path record
  | .Delete path _ => .ok (records.erase path)

structure Publication (U : UnicodeTables) where
  version : WireIndexVersion
  records : IndexMap U
  manifests : ManifestMap

/-- The middle part of `compare_and_swap`, from the version check on. -/
def decide_publication (current : IndexSnapshot U)
    (load_manifest : ManifestId → CentralResult (Option Manifest))
    (request : IndexPublishRequest U) : Except Stop (Publication U) := do
  let manifests ← request.manifests.foldlM (add_manifest blake3) ∅
  let referenced ← request.mutations.foldlM (check_upsert manifests) ∅
  ensure (manifests.keys = referenced.toList)
    (.rejected (.InvalidMetadata "publication Manifests are not the exact Index upsert set"))
  check_catalogue load_manifest manifests.toList
  let records ← request.mutations.foldlM apply_mutation current.records
  let revision ← ok_or (checked_add current.version.revision 1) (.rejected .RevisionExhausted)
  let version ← (from_snapshot blake3 revision (values records)).mapError fun error =>
    .rejected (.InvalidMetadata s!"published Index is invalid: {error.message}")
  ensure (version.digest = request.expected_result_digest)
    (.rejected (.ResultDigestMismatch request.expected_result_digest version.digest))
  return ⟨.of version, records, manifests⟩

def empty_snapshot : CentralResult (IndexSnapshot U) := do
  let version ← (from_snapshot blake3 0 ([] : List (FileRecord U))).mapError fun error =>
    storage_corruption s!"failed to construct empty Index: {error.message}"
  return ⟨.of version, ∅⟩

def tenants_differ : CentralError :=
  invalid .MetadataInvalid "Index publication Job and Index tenants differ"

def job_id_reused (request : IndexPublishRequest U) : CentralError :=
  invalid .JobIdReused
    s!"job {String.ofList request.job_key.job_id.as_str} attempted a different Index publication"

def catalogue_with (catalogue : ManifestKey → Option Manifest) (request : IndexPublishRequest U)
    (manifests : ManifestMap) : ManifestKey → Option Manifest :=
  fun key => (catalogue key).or <|
    if key = request.manifest_key key.2.2 then manifests[key.2.2]? else none

/-- The parts in which the publishers differ: how they read and write what they keep. -/
structure IndexPublisher (U : UnicodeTables) (Store : Type) where
  book : Store → JobKey → Option (IndexPublishRequest U × IndexPublishOutcome)
  load_index : Store → IndexKey → CentralResult (IndexSnapshot U)
  load_manifest : Store → ManifestKey → CentralResult (Option Manifest)
  store_publication : Store → IndexPublishRequest U → IndexPublishOutcome → Store
  store_index : Store → IndexPublishRequest U → Publication U → Store

/-- One transaction. It is rolled back when it fails. -/
def IndexPublisher.compare_and_swap {Store : Type} (publisher : IndexPublisher U Store)
    (self : Store) (request : IndexPublishRequest U) : CentralResult IndexPublishOutcome × Store :=
  if request.job_key.tenant_id ≠ request.index_key.tenant_id then (.error tenants_differ, self)
  else match publisher.book self request.job_key with
    | some (existing_request, outcome) =>
      if existing_request ≠ request then (.error (job_id_reused request), self)
      else (.ok outcome, self)
    | none =>
      match publisher.load_index self request.index_key with
      | .error error => (.error error, self)
      | .ok current =>
        if ¬ same_index_version current.version request.expected_index_version then
          (.ok (.Conflict current.version),
            publisher.store_publication self request (.Conflict current.version))
        else match decide_publication blake3 current
            (fun id => publisher.load_manifest self (request.manifest_key id)) request with
          | .error (.failed error) => (.error error, self)
          | .error (.rejected rejection) =>
            (.ok (.Rejected rejection),
              publisher.store_publication self request (.Rejected rejection))
          | .ok publication =>
            (.ok (.Published publication.version),
              publisher.store_publication (publisher.store_index self request publication) request
                (.Published publication.version))

/-! ## The SQLite publisher -/

structure IndexHeader where
  revision : UInt64
  digest : ContentDigest

structure IndexRow where
  path : Text
  manifest_id : ManifestId
  (total_size chunk_count : UInt64)

/-- The tables that publication uses. -/
structure SqliteAuthorityStore (U : UnicodeTables) where
  workspace_indexes : IndexKey → Option IndexHeader
  workspace_index_records : IndexKey → List IndexRow
  immutable_manifests : ManifestKey → Option Manifest
  index_publications : JobKey → Option (IndexPublishRequest U × IndexPublishOutcome)

namespace SqliteAuthorityStore

def read_row (U : UnicodeTables) (row : IndexRow) : CentralResult (FileRecord U) := do
  let path ← (LogicalPath.parse U row.path).mapError fun error =>
    storage_corruption s!"invalid stored Index path: {error.message}"
  (FileRecord.new path row.manifest_id row.total_size row.chunk_count).mapError fun error =>
    storage_corruption s!"invalid stored Index record: {error.message}"

def read_rows (rows : List IndexRow) : CentralResult (IndexMap U) :=
  rows.foldlM (fun records row => do
    let record ← read_row U row
    return records.insert record.path record) ∅

def load_index (self : SqliteAuthorityStore U) (key : IndexKey) : CentralResult (IndexSnapshot U) :=
  match self.workspace_indexes key with
  | none => empty_snapshot blake3
  | some header => do
    let records ← read_rows (self.workspace_index_records key)
    let computed ← (from_snapshot blake3 header.revision (values records)).mapError fun error =>
      storage_corruption s!"invalid stored Index: {error.message}"
    ensure (computed.digest = header.digest)
      (storage_corruption "stored Index digest differs from its canonical records")
    return ⟨.of computed, records⟩

def load_manifest (self : SqliteAuthorityStore U) (key : ManifestKey) :
    CentralResult (Option Manifest) :=
  match self.immutable_manifests key with
  | none => .ok none
  | some manifest => do
    let computed ← (manifest_id blake3 manifest).mapError fun error =>
      storage_corruption s!"invalid stored Manifest: {error.message}"
    ensure (computed = key.2.2)
      (storage_corruption "stored Manifest identity differs from its payload")
    return some manifest

section

variable (self : SqliteAuthorityStore U) (request : IndexPublishRequest U)

def store_publication (outcome : IndexPublishOutcome) : SqliteAuthorityStore U :=
  { self with index_publications :=
      Function.update self.index_publications request.job_key (some (request, outcome)) }

def row (record : FileRecord U) : IndexRow :=
  ⟨record.path.text, record.manifest_id, record.total_size, record.chunk_count⟩

/-- The statements that write a publication. -/
def store_index (publication : Publication U) : SqliteAuthorityStore U :=
  { self with
    immutable_manifests := catalogue_with self.immutable_manifests request publication.manifests
    workspace_indexes := Function.update self.workspace_indexes request.index_key
      (some ⟨publication.version.revision, publication.version.digest⟩)
    workspace_index_records := Function.update self.workspace_index_records request.index_key
      ((values publication.records).map row) }

def publisher : IndexPublisher U (SqliteAuthorityStore U) where
  book := index_publications
  load_index := load_index blake3
  load_manifest := load_manifest blake3
  store_publication := store_publication
  store_index := store_index

def compare_and_swap : CentralResult IndexPublishOutcome × SqliteAuthorityStore U :=
  (publisher blake3).compare_and_swap blake3 self request

end

end SqliteAuthorityStore

/-! ## The in-memory publisher -/

structure InMemoryIndexPublisher (U : UnicodeTables) where
  indexes : IndexKey → Option (IndexSnapshot U)
  manifests : ManifestKey → Option Manifest
  publications : JobKey → Option (IndexPublishRequest U × IndexPublishOutcome)

namespace InMemoryIndexPublisher

def snapshot (self : InMemoryIndexPublisher U) (key : IndexKey) :
    CentralResult (IndexSnapshot U) := do
  let empty ← empty_snapshot blake3
  return (self.indexes key).getD empty

def record (self : InMemoryIndexPublisher U) (request : IndexPublishRequest U)
    (outcome : IndexPublishOutcome) : InMemoryIndexPublisher U :=
  { self with publications :=
      Function.update self.publications request.job_key (some (request, outcome)) }

def publish (self : InMemoryIndexPublisher U) (request : IndexPublishRequest U)
    (publication : Publication U) : InMemoryIndexPublisher U :=
  { self with
    indexes := Function.update self.indexes request.index_key
      (some ⟨publication.version, publication.records⟩)
    manifests := catalogue_with self.manifests request publication.manifests }

def publisher : IndexPublisher U (InMemoryIndexPublisher U) where
  book := publications
  load_index := snapshot blake3
  load_manifest := fun self key => .ok (self.manifests key)
  store_publication := record
  store_index := publish

end InMemoryIndexPublisher

end

end NeoEngram.Central

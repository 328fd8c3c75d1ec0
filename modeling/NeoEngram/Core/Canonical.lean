import NeoEngram.Framework.Framing
import NeoEngram.Core.Directory
import NeoEngram.Core.Index

/-! # Canonical encodings

The identity of a model is the BLAKE3 digest of its canonical encoding.
This file embeds the incremental encoders of `canonical.rs`, which re-check
what the model's own validator checks. For every encoder there is the text it
hashes (`manifest_preimage` and so on) and a theorem that says when it succeeds
and that the identity is the digest of that text. A hasher is the list of the
bytes given to it; `Blake3` stands for the hash function.
-/

namespace NeoEngram

open Checks Framing List UInt64 Manifest

variable {U : UnicodeTables}

/-- A hash function from byte strings to digests. -/
abbrev Blake3 := Bytes → ContentDigest

/-! ## Fields -/

def MANIFEST_HASH_DOMAIN : Bytes := utf8 "neoengram-manifest-v4".toList
def DIRECTORY_HASH_DOMAIN : Bytes := utf8 "neoengram-directory-v1".toList
def COMMIT_HASH_DOMAIN : Bytes := utf8 "neoengram-commit-v3".toList
def INDEX_RECORD_HASH_DOMAIN : Bytes := utf8 "neoengram-index-record-v1".toList
def INDEX_SNAPSHOT_HASH_DOMAIN : Bytes := utf8 "neoengram-index-snapshot-v1".toList
def INDEX_DELTA_HASH_DOMAIN : Bytes := utf8 "neoengram-index-delta-v1".toList
def ADD_PUBLICATION_HASH_DOMAIN : Bytes := utf8 "neoengram-add-publication-v1".toList
def CANONICAL_ENCODING_VERSION : UInt32 := 1

/-- A hasher that has been given a domain and the encoding version. -/
def canonical_hasher (domain : Bytes) : Bytes :=
  framed u64_le domain ++ u32_le CANONICAL_ENCODING_VERSION

def chunking_tag : ChunkingStrategy → UInt8
  | .FastCdc => 1
  | .WholeFile => 2

def directory_kind_tag : DirectoryEntryKind → UInt8
  | .File => 1
  | .Directory => 2

def update_bytes_with_len (hasher bytes : Bytes) : ValidationResult Bytes := do
  let length ← ok_or (u64_try_from bytes.length)
    ⟨.Overflow, "canonical string length exceeds u64"⟩
  return hasher ++ u64_le length ++ bytes

def update_file_record (hasher : Bytes) (record : FileRecord U) : ValidationResult Bytes := do
  let hasher ← update_bytes_with_len hasher (utf8 record.path.text)
  return hasher ++ record.manifest_id.as_bytes ++ u64_le record.total_size
    ++ u64_le record.chunk_count

/-- The length of the text in bytes fits the length field. -/
def TextFits (t : Text) : Prop := (utf8 t).length < 2 ^ 64

instance (t : Text) : Decidable (TextFits t) := inferInstanceAs (Decidable (_ < _))

variable {path : LogicalPath U}

theorem TextFits.name (h : TextFits path.text) {name : PathComponent U}
    (hname : name ∈ path.names) : TextFits name.text := by
  have hmem : name.text ∈ path.components := by
    rw [← path.names_map_text]
    exact List.mem_map_of_mem hname
  have hsub : name.text.Sublist path.text := by
    rw [← path.joined_components]
    exact Words.sublist_joined '/' hmem
  exact lt_of_le_of_lt (hsub.flatMap _).length_le h

theorem update_bytes_with_len_eq_ok {hasher bytes hasher' : Bytes} :
    update_bytes_with_len hasher bytes = .ok hasher' ↔
      bytes.length < 2 ^ 64 ∧ hasher' = hasher ++ framed u64_le bytes := by
  unfold update_bytes_with_len framed
  simp only [ok_iff, u64_try_from]
  simp [eq_comm]

def record_bytes (record : FileRecord U) : Bytes :=
  framed u64_le (utf8 record.path.text) ++ record.manifest_id.as_bytes
    ++ u64_le record.total_size ++ u64_le record.chunk_count

variable {hasher hasher' : Bytes} {record : FileRecord U}

theorem update_file_record_eq_ok : update_file_record hasher record = .ok hasher' ↔
      TextFits record.path.text ∧ hasher' = hasher ++ record_bytes record := by
  unfold update_file_record record_bytes TextFits
  simp only [ok_iff, update_bytes_with_len_eq_ok]
  constructor
  · rintro ⟨h, ⟨hfits, hh⟩, heq⟩
    subst hh
    exact ⟨hfits, by simp [← heq]⟩
  · rintro ⟨hfits, heq⟩
    exact ⟨_, ⟨hfits, rfl⟩, by simp [heq]⟩

/-! ## Manifests -/

structure ManifestHasher where
  hasher : Bytes
  total_size : UInt64
  chunking : ChunkingStrategy
  (next_offset chunk_count : UInt64)

def chunk_bytes (chunk : ChunkRef) : Bytes :=
  chunk.object_id.as_bytes ++ u64_le chunk.offset ++ u64_le chunk.size

namespace ManifestHasher

def new (total_size : UInt64) (chunking : ChunkingStrategy) : ManifestHasher where
  hasher := canonical_hasher MANIFEST_HASH_DOMAIN ++ [chunking_tag chunking] ++ u64_le total_size
  total_size := total_size
  chunking := chunking
  next_offset := 0
  chunk_count := 0

def push (self : ManifestHasher) (chunk : ChunkRef) : ValidationResult ManifestHasher := do
  chunk.validate.mapError fun error =>
    ⟨.InvalidManifest, s!"invalid Manifest chunk: {error.message}"⟩
  ensure (chunk.offset = self.next_offset)
    ⟨.InvalidManifest, s!"Manifest chunk offset is not contiguous at object {chunk.object_id}"⟩
  let next_offset ← ok_or (checked_add self.next_offset chunk.size)
    ⟨.Overflow, "Manifest total chunk size exceeds u64"⟩
  let chunk_count ← ok_or (checked_add self.chunk_count 1)
    ⟨.Overflow, "Manifest chunk count exceeds u64"⟩
  return { self with hasher := self.hasher ++ chunk_bytes chunk, next_offset, chunk_count }

def finish (blake3 : Blake3) (self : ManifestHasher) : ValidationResult ManifestId := do
  ensure (self.next_offset = self.total_size)
    ⟨.InvalidManifest, "Manifest chunks do not cover the declared total size"⟩
  ensure (whole_file_cardinality self.chunking self.total_size self.chunk_count.toNat)
    ⟨.InvalidManifest,
      "WholeFile Manifest must contain zero chunks for an empty file or one complete chunk"⟩
  return ⟨blake3 (self.hasher ++ u64_le self.chunk_count)⟩

/-- Pushing the chunks one by one runs the chunk loop of the validator and collects bytes. -/
theorem foldlM_push_eq_ok {h h' : ManifestHasher} {chunks : List ChunkRef} :
    chunks.foldlM push h = .ok h' ↔
      validate_chunks h.next_offset chunks = .ok h'.next_offset ∧
      h.chunk_count.toNat + chunks.length = h'.chunk_count.toNat ∧
      h'.hasher = h.hasher ++ chunks.flatMap chunk_bytes ∧
      h'.total_size = h.total_size ∧ h'.chunking = h.chunking := by
  induction chunks generalizing h with
  | nil =>
    cases h; cases h'
    simp only [foldlM_nil, pure_eq_ok, validate_chunks, Except.ok.injEq,
      length_nil, flatMap_nil, append_nil, Nat.add_zero, UInt64.toNat_inj,
      ManifestHasher.mk.injEq]
    tauto
  | cons chunk chunks ih =>
    simp only [foldlM_cons, push, ok_iff, mapError_eq_ok, validate_chunks,
      length_cons, flatMap_cons]
    constructor
    · rintro ⟨g, ⟨hvalid, hoffset, next, hnext, count, hcount, hg⟩, hfold⟩
      subst hg
      obtain ⟨hchunks, hlength, hbytes, hsize, hchunking⟩ := ih.mp hfold
      have hone := checked_add_eq_some.mp hcount
      simp only [toNat_one] at hone
      simp only at hlength
      exact ⟨⟨hvalid, hoffset, next, hnext, hchunks⟩, by omega, by simp [hbytes], hsize, hchunking⟩
    · rintro ⟨⟨hvalid, hoffset, next, hnext, hchunks⟩, hlength, hbytes, hsize, hchunking⟩
      have hlt := h'.chunk_count.toNat_lt
      obtain ⟨count, hcount⟩ : ∃ count, checked_add h.chunk_count 1 = some count := by
        refine ⟨UInt64.ofNat (h.chunk_count.toNat + 1), checked_add_eq_some.mpr ?_⟩
        rw [toNat_ofNat_of_lt' (by simp only [UInt64.size]; omega)]
        rfl
      have hone := checked_add_eq_some.mp hcount
      simp only [toNat_one] at hone
      refine ⟨_, ⟨hvalid, hoffset, next, hnext, count, hcount, rfl⟩, ih.mpr ?_⟩
      exact ⟨hchunks, by simp only; omega, by simp [hbytes], hsize, hchunking⟩

end ManifestHasher

def manifest_id (blake3 : Blake3) (manifest : Manifest) : ValidationResult ManifestId := do
  manifest.validate
  let hasher ← manifest.chunks.foldlM ManifestHasher.push
    (ManifestHasher.new manifest.total_size manifest.chunking)
  hasher.finish blake3

def manifest_preimage (manifest : Manifest) : Bytes :=
  canonical_hasher MANIFEST_HASH_DOMAIN ++ [chunking_tag manifest.chunking]
    ++ u64_le manifest.total_size ++ manifest.chunks.flatMap chunk_bytes
    ++ u64_le (UInt64.ofNat manifest.chunks.length)

variable {blake3 : Blake3}

/-- A valid Manifest whose chunk count fits has an identity: the digest of its text. -/
theorem manifest_id_eq_ok {manifest : Manifest} {id : ManifestId} :
    manifest_id blake3 manifest = .ok id ↔
      manifest.validate = .ok () ∧ manifest.chunks.length < 2 ^ 64 ∧
      id = ⟨blake3 (manifest_preimage manifest)⟩ := by
  unfold manifest_id ManifestHasher.finish manifest_preimage
  simp only [ok_iff, ManifestHasher.foldlM_push_eq_ok]
  constructor
  · rintro ⟨hvalid, h, ⟨_, hcount, hbytes, _, _⟩, _, _, hid⟩
    have hlength : manifest.chunks.length = h.chunk_count.toNat := by
      simpa [ManifestHasher.new] using hcount
    refine ⟨hvalid, hlength ▸ h.chunk_count.toNat_lt, ?_⟩
    rw [← hid, hbytes, hlength, UInt64.ofNat_toNat]
    simp [ManifestHasher.new]
  · rintro ⟨hvalid, hlength, hid⟩
    have hchecks := hvalid
    simp only [validate, ok_iff] at hchecks
    obtain ⟨next, hchunks, hnext, hwhole⟩ := hchecks
    have hcount : (ofNat manifest.chunks.length).toNat = manifest.chunks.length :=
      toNat_ofNat_of_lt' hlength
    -- the hasher after the last chunk
    refine ⟨hvalid, ⟨(ManifestHasher.new manifest.total_size manifest.chunking).hasher ++
      manifest.chunks.flatMap chunk_bytes, manifest.total_size, manifest.chunking, next,
      ofNat manifest.chunks.length⟩, ?_, hnext, ?_, ?_⟩
    · refine ⟨hchunks, ?_, rfl, rfl, rfl⟩
      rw [hcount]
      simp [ManifestHasher.new]
    · rwa [hcount]
    · rw [hid]
      simp [ManifestHasher.new]

/-! ## Directories and Commits -/

structure DirectoryHasher (U : UnicodeTables) where
  hasher : Bytes
  previous_name : Option (PathComponent U)
  portable_names : Std.ExtTreeSet PortableKey
  entry_count : UInt64

/-- The bytes of a Directory entry; its ordinal is its position and is not written. -/
def entry_bytes (entry : DirectoryEntry U) : Bytes :=
  [directory_kind_tag entry.kind] ++ framed u64_le (utf8 entry.name.text)
    ++ entry.target_id.as_bytes ++ u64_le entry.total_size

namespace DirectoryHasher

def new : DirectoryHasher U where
  hasher := canonical_hasher DIRECTORY_HASH_DOMAIN
  previous_name := none
  portable_names := ∅
  entry_count := 0

def push (self : DirectoryHasher U) (entry : DirectoryEntry U) :
    ValidationResult (DirectoryHasher U) := do
  entry.validate
  ensure (entry.ordinal = self.entry_count)
    ⟨.InvalidDirectory, s!"Directory entry ordinal is not contiguous: {entry.name}"⟩
  ensure (self.previous_name.all (· < entry.name))
    ⟨.InvalidDirectory, s!"Directory entries must be strictly ordered by name: {entry.name}"⟩
  ensure (⟨entry.name.portable_key⟩ ∉ self.portable_names)
    ⟨.InvalidDirectory, s!"Directory entry names collide under portable case rules: {entry.name}"⟩
  let hasher ← update_bytes_with_len (self.hasher ++ [directory_kind_tag entry.kind])
    (utf8 entry.name.text)
  let hasher := hasher ++ entry.target_id.as_bytes ++ u64_le entry.total_size
  let entry_count ← ok_or (checked_add self.entry_count 1)
    ⟨.Overflow, "Directory entry count exceeds u64"⟩
  return { hasher, entry_count, previous_name := some entry.name,
           portable_names := self.portable_names.insert ⟨entry.name.portable_key⟩ }

def finish (blake3 : Blake3) (self : DirectoryHasher U) : DirectoryId :=
  ⟨blake3 (self.hasher ++ u64_le self.entry_count)⟩

/-- One push, taken apart: the checks of the validator, and what is collected. -/
theorem push_eq_ok {h h' : DirectoryHasher U} {entry : DirectoryEntry U} :
    h.push entry = .ok h' ↔ entry.validate = .ok () ∧ entry.ordinal = h.entry_count ∧
      h.previous_name.all (· < entry.name) ∧
      (⟨entry.name.portable_key⟩ : PortableKey) ∉ h.portable_names ∧
      TextFits entry.name.text ∧ h.entry_count.toNat + 1 = h'.entry_count.toNat ∧
      h'.hasher = h.hasher ++ entry_bytes entry ∧ h'.previous_name = some entry.name ∧
      h'.portable_names = h.portable_names.insert ⟨entry.name.portable_key⟩ := by
  unfold push entry_bytes TextFits
  simp only [ok_iff, update_bytes_with_len_eq_ok, checked_add_eq_some, toNat_one]
  constructor
  · rintro ⟨hvalid, hordinal, hlt, hfresh, bytes, ⟨hfits, hbytes⟩, count, hcount, heq⟩
    subst heq
    exact ⟨hvalid, hordinal, hlt, hfresh, hfits, hcount, by simp [hbytes], rfl, rfl⟩
  · rintro ⟨hvalid, hordinal, hlt, hfresh, hfits, hcount, hbytes, hprevious, hnames⟩
    refine ⟨hvalid, hordinal, hlt, hfresh, _, ⟨hfits, rfl⟩, h'.entry_count, hcount, ?_⟩
    cases h'
    simp_all

variable {entries : List (DirectoryEntry U)}

/-- Pushing the entries runs the loop of the Directory validator and collects bytes. -/
theorem foldlM_push_eq_ok {h h' : DirectoryHasher U} : entries.foldlM push h = .ok h' ↔
    Directory.validate_from h.entry_count.toNat h.previous_name h.portable_names entries = .ok () ∧
      h.entry_count.toNat + entries.length = h'.entry_count.toNat ∧
      (∀ entry ∈ entries, TextFits entry.name.text) ∧
      h'.hasher = h.hasher ++ entries.flatMap entry_bytes ∧
      h'.previous_name = entries.foldl (fun _ entry => some entry.name) h.previous_name ∧
      h'.portable_names = entries.foldl (fun names entry => names.insert ⟨entry.name.portable_key⟩)
        h.portable_names := by
  induction entries generalizing h with
  | nil =>
    cases h; cases h'
    simp [Directory.validate_from, UInt64.toNat_inj]
    tauto
  | cons entry entries ih =>
    simp only [foldlM_cons, ok_iff, push_eq_ok, ih, Directory.validate_from, u64_try_from_eq_some,
      length_cons, forall_mem_cons, flatMap_cons, foldl_cons]
    constructor
    · rintro ⟨g, ⟨hvalid, hordinal, hlt, hfresh, hfits, hcount, hbytes, hprevious, hnames⟩, hrest,
        hlength, hall, hhash, hlast, hkeys⟩
      rw [hprevious, hnames, ← hcount] at hrest
      exact ⟨⟨hvalid, h.entry_count, rfl, hordinal, hlt, hfresh, hrest⟩, by omega, ⟨hfits, hall⟩,
        by simp [hhash, hbytes], hprevious ▸ hlast, hnames ▸ hkeys⟩
    · rintro ⟨⟨hvalid, expected, hexpected, hordinal, hlt, hfresh, hrest⟩, hlength, ⟨hfits, hall⟩,
        hhash, hlast, hkeys⟩
      have hbound := h'.entry_count.toNat_lt
      have hcount : (UInt64.ofNat (h.entry_count.toNat + 1)).toNat = h.entry_count.toNat + 1 :=
        toNat_ofNat_of_lt' (by simp only [UInt64.size]; omega)
      -- the hasher after the first entry
      refine ⟨⟨h.hasher ++ entry_bytes entry, _, _, UInt64.ofNat (h.entry_count.toNat + 1)⟩,
        ⟨hvalid, hordinal.trans (UInt64.toNat_inj.mp hexpected), hlt, hfresh, hfits, hcount.symm,
          rfl, rfl, rfl⟩, ?_, ?_, hall, ?_, hlast, hkeys⟩
      · rw [hcount]
        exact hrest
      · rw [hcount]
        omega
      · rw [hhash, append_assoc]

end DirectoryHasher

def directory_id (blake3 : Blake3) (directory : Directory U) : ValidationResult DirectoryId := do
  directory.validate
  let hasher ← directory.entries.foldlM DirectoryHasher.push DirectoryHasher.new
  return hasher.finish blake3

def directory_preimage (directory : Directory U) : Bytes :=
  canonical_hasher DIRECTORY_HASH_DOMAIN ++ directory.entries.flatMap entry_bytes
    ++ u64_le (UInt64.ofNat directory.entries.length)

/-- A valid Directory whose lengths fit has an identity: the digest of its text. -/
theorem directory_id_eq_ok {directory : Directory U} {id : DirectoryId} :
    directory_id blake3 directory = .ok id ↔
      directory.validate = .ok () ∧ directory.entries.length < 2 ^ 64 ∧
      (∀ entry ∈ directory.entries, TextFits entry.name.text) ∧
      id = ⟨blake3 (directory_preimage directory)⟩ := by
  unfold directory_id DirectoryHasher.finish directory_preimage
  simp only [ok_iff, DirectoryHasher.foldlM_push_eq_ok]
  constructor
  · rintro ⟨hvalid, h, ⟨-, hcount, hfits, hbytes, -, -⟩, hid⟩
    have hlength : directory.entries.length = h.entry_count.toNat := by
      simpa [DirectoryHasher.new] using hcount
    refine ⟨hvalid, hlength ▸ h.entry_count.toNat_lt, hfits, ?_⟩
    rw [← hid, hbytes, hlength, UInt64.ofNat_toNat]
    rfl
  · rintro ⟨hvalid, hlength, hfits, hid⟩
    -- the hasher after the last entry
    refine ⟨hvalid, ⟨_, _, _, ofNat directory.entries.length⟩,
      ⟨hvalid, ?_, hfits, rfl, rfl, rfl⟩, hid.symm⟩
    rw [toNat_ofNat_of_lt' hlength]
    simp [DirectoryHasher.new]

def parent_bytes : Option CommitId → Bytes
  | some parent => [1] ++ parent.as_bytes
  | none => [0]

def commit_id (blake3 : Blake3) (commit : Commit) : ValidationResult CommitId := do
  commit.validate
  let hasher := canonical_hasher COMMIT_HASH_DOMAIN ++ commit.root_directory_id.as_bytes
    ++ parent_bytes commit.parent
  let hasher ← update_bytes_with_len hasher (utf8 commit.message)
  return ⟨blake3 (hasher ++ u64_le commit.created_at_unix_ms)⟩

def commit_preimage (commit : Commit) : Bytes :=
  canonical_hasher COMMIT_HASH_DOMAIN ++ commit.root_directory_id.as_bytes
    ++ parent_bytes commit.parent ++ framed u64_le (utf8 commit.message)
    ++ u64_le commit.created_at_unix_ms

theorem commit_id_eq_ok {commit : Commit} {id : CommitId} :
    commit_id blake3 commit = .ok id ↔ commit.validate = .ok () ∧ TextFits commit.message ∧
      id = ⟨blake3 (commit_preimage commit)⟩ := by
  unfold commit_id commit_preimage TextFits
  simp only [ok_iff, update_bytes_with_len_eq_ok]
  constructor
  · rintro ⟨hvalid, h, ⟨hfits, hh⟩, hid⟩
    subst hh
    exact ⟨hvalid, hfits, hid.symm⟩
  · rintro ⟨hvalid, hfits, hid⟩
    exact ⟨hvalid, _, ⟨hfits, rfl⟩, hid.symm⟩

/-! ## Index records, snapshots and deltas -/

def index_record_digest (blake3 : Blake3) (record : FileRecord U) :
    ValidationResult ContentDigest := do
  record.validate
  let hasher ← update_file_record (canonical_hasher INDEX_RECORD_HASH_DOMAIN) record
  return blake3 hasher

def index_record_preimage (record : FileRecord U) : Bytes :=
  canonical_hasher INDEX_RECORD_HASH_DOMAIN ++ record_bytes record

variable {d : ContentDigest}

theorem index_record_digest_eq_ok : index_record_digest blake3 record = .ok d ↔
      record.validate = .ok () ∧ TextFits record.path.text ∧
      d = blake3 (index_record_preimage record) := by
  unfold index_record_digest index_record_preimage
  simp only [ok_iff, update_file_record_eq_ok]
  constructor
  · rintro ⟨hvalid, h, ⟨hfits, hh⟩, hd⟩
    subst hh
    exact ⟨hvalid, hfits, hd.symm⟩
  · rintro ⟨hvalid, hfits, hd⟩
    exact ⟨hvalid, _, ⟨hfits, rfl⟩, hd.symm⟩

structure IndexSnapshotHasher (U : UnicodeTables) where
  hasher : Bytes
  previous_path : Option (LogicalPath U)
  portable_paths : Std.ExtTreeSet PortableKey
  record_count : UInt64

def INDEX_PATH_ERRORS : PathSetErrors where
  kind := .InvalidIndex
  unordered := "Index records must be strictly ordered by path"
  collision := "Index paths collide under portable case rules"
  ancestor := "an Index file path is also an ancestor of another path"

def validate_next_index_path (previous : Option (LogicalPath U))
    (portable_paths : Std.ExtTreeSet PortableKey) (path : LogicalPath U) : ValidationResult Unit :=
  validate_next_path INDEX_PATH_ERRORS previous portable_paths path

variable {records : List (FileRecord U)}

namespace IndexSnapshotHasher

def new : IndexSnapshotHasher U where
  hasher := canonical_hasher INDEX_SNAPSHOT_HASH_DOMAIN ++ u32_le WORKSPACE_INDEX_FORMAT_VERSION
  previous_path := none
  portable_paths := ∅
  record_count := 0

def push (self : IndexSnapshotHasher U) (record : FileRecord U) :
    ValidationResult (IndexSnapshotHasher U) := do
  record.validate
  validate_next_index_path self.previous_path self.portable_paths record.path
  let hasher ← update_file_record self.hasher record
  let record_count ← ok_or (checked_add self.record_count 1)
    ⟨.Overflow, "Index record count exceeds u64"⟩
  return { hasher, record_count, previous_path := some record.path,
           portable_paths := self.portable_paths.insert record.path.portable_key }

def finish (blake3 : Blake3) (self : IndexSnapshotHasher U) : ContentDigest :=
  blake3 (self.hasher ++ u64_le self.record_count)

theorem push_eq_ok {h h' : IndexSnapshotHasher U} :
    h.push record = .ok h' ↔ record.validate = .ok () ∧
      validate_next_path INDEX_PATH_ERRORS h.previous_path h.portable_paths record.path = .ok () ∧
      TextFits record.path.text ∧ h.record_count.toNat + 1 = h'.record_count.toNat ∧
      h'.hasher = h.hasher ++ record_bytes record ∧ h'.previous_path = some record.path ∧
      h'.portable_paths = h.portable_paths.insert record.path.portable_key := by
  unfold push validate_next_index_path
  simp only [ok_iff, update_file_record_eq_ok, checked_add_eq_some, toNat_one]
  constructor
  · rintro ⟨hvalid, hnext, bytes, ⟨hfits, hbytes⟩, count, hcount, heq⟩
    subst heq
    exact ⟨hvalid, hnext, hfits, hcount, hbytes, rfl, rfl⟩
  · rintro ⟨hvalid, hnext, hfits, hcount, hbytes, hprevious, hpaths⟩
    refine ⟨hvalid, hnext, _, ⟨hfits, rfl⟩, h'.record_count, hcount, ?_⟩
    cases h'
    simp_all

/-- The loop of the path-set validator does not depend on the texts of its errors. -/
theorem validate_path_set_from_cons_eq_ok {errors : PathSetErrors}
    {previous : Option (LogicalPath U)} {keys : Std.ExtTreeSet PortableKey}
    {paths : List (LogicalPath U)} :
    validate_path_set_from previous keys (path :: paths) = .ok () ↔
      validate_next_path errors previous keys path = .ok () ∧
      validate_path_set_from (some path) (keys.insert path.portable_key) paths = .ok () := by
  simp only [validate_path_set_from, ok_iff, validate_next_path_eq_ok]

/-- Pushing the records runs the loop of the path-set validator and collects bytes. -/
theorem foldlM_push_eq_ok {h h' : IndexSnapshotHasher U} : records.foldlM push h = .ok h' ↔
    (∀ record ∈ records, record.validate = .ok () ∧ TextFits record.path.text) ∧
      validate_path_set_from h.previous_path h.portable_paths (records.map (·.path)) = .ok () ∧
      h.record_count.toNat + records.length = h'.record_count.toNat ∧
      h'.hasher = h.hasher ++ records.flatMap record_bytes ∧
      h'.previous_path = records.foldl (fun _ record => some record.path) h.previous_path ∧
      h'.portable_paths = records.foldl (fun paths record => paths.insert record.path.portable_key)
        h.portable_paths := by
  induction records generalizing h with
  | nil =>
    cases h; cases h'
    simp [validate_path_set_from, UInt64.toNat_inj]
    tauto
  | cons record records ih =>
    simp only [foldlM_cons, ok_iff, push_eq_ok, ih, length_cons, forall_mem_cons, map_cons,
      flatMap_cons, foldl_cons, @validate_path_set_from_cons_eq_ok U _ INDEX_PATH_ERRORS]
    constructor
    · rintro ⟨g, ⟨hvalid, hnext, hfits, hcount, hbytes, hprevious, hpaths⟩, hall, hset, hlength,
        hhash, hlast, hkeys⟩
      rw [hprevious, hpaths] at hset
      exact ⟨⟨⟨hvalid, hfits⟩, hall⟩, ⟨hnext, hset⟩, by omega, by simp [hhash, hbytes],
        hprevious ▸ hlast, hpaths ▸ hkeys⟩
    · rintro ⟨⟨⟨hvalid, hfits⟩, hall⟩, ⟨hnext, hset⟩, hlength, hhash, hlast, hkeys⟩
      have hbound := h'.record_count.toNat_lt
      have hcount : (UInt64.ofNat (h.record_count.toNat + 1)).toNat = h.record_count.toNat + 1 :=
        toNat_ofNat_of_lt' (by simp only [UInt64.size]; omega)
      -- the hasher after the first record
      refine ⟨⟨h.hasher ++ record_bytes record, _, _, UInt64.ofNat (h.record_count.toNat + 1)⟩,
        ⟨hvalid, hnext, hfits, hcount.symm, rfl, rfl, rfl⟩, hall, hset, ?_, ?_, hlast, hkeys⟩
      · rw [hcount]
        omega
      · rw [hhash, append_assoc]

end IndexSnapshotHasher

def index_snapshot_digest (blake3 : Blake3) (records : List (FileRecord U)) :
    ValidationResult ContentDigest := do
  let hasher ← records.foldlM IndexSnapshotHasher.push IndexSnapshotHasher.new
  return hasher.finish blake3

def index_snapshot_preimage (records : List (FileRecord U)) : Bytes :=
  canonical_hasher INDEX_SNAPSHOT_HASH_DOMAIN ++ u32_le WORKSPACE_INDEX_FORMAT_VERSION
    ++ records.flatMap record_bytes ++ u64_le (UInt64.ofNat records.length)

/-- The digest of a snapshot exists exactly when the snapshot is valid and its lengths fit. -/
theorem index_snapshot_digest_eq_ok : index_snapshot_digest blake3 records = .ok d ↔
      validate_index_snapshot records = .ok () ∧ records.length < 2 ^ 64 ∧
      (∀ record ∈ records, TextFits record.path.text) ∧
      d = blake3 (index_snapshot_preimage records) := by
  have hsnapshot : validate_index_snapshot records = .ok () ↔
      (∀ record ∈ records, record.validate = .ok ()) ∧
      validate_path_set_from none ∅ (records.map (·.path)) = .ok () := by
    simp only [validate_index_snapshot, ok_iff, forM_eq_ok, mapError_eq_ok, validate_path_set]
  unfold index_snapshot_digest IndexSnapshotHasher.finish index_snapshot_preimage
  simp only [ok_iff, hsnapshot, IndexSnapshotHasher.foldlM_push_eq_ok]
  constructor
  · rintro ⟨h, ⟨hall, hset, hcount, hbytes, -, -⟩, hd⟩
    have hlength : records.length = h.record_count.toNat := by
      simpa [IndexSnapshotHasher.new] using hcount
    refine ⟨⟨fun r hr => (hall r hr).1, hset⟩, hlength ▸ h.record_count.toNat_lt,
      fun r hr => (hall r hr).2, ?_⟩
    rw [← hd, hbytes, hlength, UInt64.ofNat_toNat]
    rfl
  · rintro ⟨⟨hvalid, hset⟩, hlength, hfits, hd⟩
    -- the hasher after the last record
    refine ⟨⟨_, _, _, ofNat records.length⟩,
      ⟨fun r hr => ⟨hvalid r hr, hfits r hr⟩, hset, ?_, rfl, rfl, rfl⟩, hd.symm⟩
    rw [toNat_ofNat_of_lt' hlength]
    simp [IndexSnapshotHasher.new]

def update_mutation (hasher : Bytes) : IndexMutation U → ValidationResult Bytes
  | .Upsert record => update_file_record (hasher ++ [1]) record
  | .Delete path => update_bytes_with_len (hasher ++ [2]) (utf8 path.text)

def IndexDelta.mutation_count (self : IndexDelta U) : Nat :=
  (self.pages.map (·.mutations.length)).sum

/-- The canonical digest of a delta, independent of page boundaries. -/
def index_delta_digest (blake3 : Blake3) (delta : IndexDelta U) :
    ValidationResult ContentDigest := do
  delta.validate
  let hasher := canonical_hasher INDEX_DELTA_HASH_DOMAIN ++ u32_le WORKSPACE_INDEX_FORMAT_VERSION
    ++ u64_le delta.base_version.revision ++ delta.base_version.digest.as_bytes
  let hasher ← delta.iter.foldlM update_mutation hasher
  let mutation_count ← ok_or (u64_try_from delta.mutation_count)
    ⟨.Overflow, "Index mutation count exceeds u64"⟩
  return blake3 (hasher ++ u64_le mutation_count ++ delta.result_digest.as_bytes)

def mutation_bytes : IndexMutation U → Bytes
  | .Upsert record => [1] ++ record_bytes record
  | .Delete path => [2] ++ framed u64_le (utf8 path.text)

def index_delta_preimage (delta : IndexDelta U) : Bytes :=
  canonical_hasher INDEX_DELTA_HASH_DOMAIN ++ u32_le WORKSPACE_INDEX_FORMAT_VERSION
    ++ u64_le delta.base_version.revision ++ delta.base_version.digest.as_bytes
    ++ delta.iter.flatMap mutation_bytes ++ u64_le (UInt64.ofNat delta.iter.length)
    ++ delta.result_digest.as_bytes

theorem IndexDelta.mutation_count_eq (delta : IndexDelta U) :
    delta.mutation_count = delta.iter.length := by
  unfold mutation_count iter
  rw [length_flatMap]

theorem update_mutation_eq_ok {mutation : IndexMutation U} :
    update_mutation hasher mutation = .ok hasher' ↔
      TextFits mutation.path.text ∧ hasher' = hasher ++ mutation_bytes mutation := by
  cases mutation with
  | Upsert record =>
    unfold update_mutation mutation_bytes
    rw [update_file_record_eq_ok, append_assoc]
    rfl
  | Delete path =>
    unfold update_mutation mutation_bytes
    rw [update_bytes_with_len_eq_ok, append_assoc]
    rfl

theorem foldlM_update_mutation_eq_ok {mutations : List (IndexMutation U)} :
    mutations.foldlM update_mutation hasher = .ok hasher' ↔
      (∀ m ∈ mutations, TextFits m.path.text) ∧
      hasher' = hasher ++ mutations.flatMap mutation_bytes :=
  foldlM_extends_eq_ok fun _ _ _ => update_mutation_eq_ok

/-- The digest of a delta exists exactly when the delta is valid and its lengths fit. -/
theorem index_delta_digest_eq_ok {delta : IndexDelta U} :
    index_delta_digest blake3 delta = .ok d ↔ delta.validate = .ok () ∧ delta.iter.length < 2 ^ 64 ∧
      (∀ m ∈ delta.iter, TextFits m.path.text) ∧ d = blake3 (index_delta_preimage delta) := by
  unfold index_delta_digest index_delta_preimage
  simp only [ok_iff, foldlM_update_mutation_eq_ok, delta.mutation_count_eq]
  constructor
  · rintro ⟨hvalid, h, ⟨hfits, rfl⟩, count, hcount, rfl⟩
    have hlength := u64_try_from_eq_some.mp hcount
    refine ⟨hvalid, hlength ▸ count.toNat_lt, hfits, ?_⟩
    rw [← hlength, UInt64.ofNat_toNat]
  · rintro ⟨hvalid, hlength, hfits, rfl⟩
    exact ⟨hvalid, _, ⟨hfits, rfl⟩, ofNat delta.iter.length,
      u64_try_from_eq_some.mpr (toNat_ofNat_of_lt' hlength), rfl⟩

end NeoEngram

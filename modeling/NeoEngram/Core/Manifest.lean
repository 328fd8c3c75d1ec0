import NeoEngram.Core.Path

/-! # Chunks, Manifests and file records

A Manifest lists the payload chunks of one file in offset order. A file
record of the Index names a path, the Manifest of its content, its size and
its chunk count.
-/

namespace NeoEngram

open Checks

variable {U : UnicodeTables}

/-! ### Chunks -/

/-- The identity and exact length of a payload object. -/
structure ObjectSpec where
  id : ObjectId
  size : UInt64
  deriving DecidableEq

structure ChunkRef where
  object_id : ObjectId
  (offset size : UInt64)
  deriving DecidableEq

namespace ChunkRef

def validate (self : ChunkRef) : ValidationResult Unit := do
  ensure (self.size ≠ 0) ⟨.InvalidObject, "chunk size must be greater than zero"⟩
  ensure ((checked_add self.offset self.size).isSome) ⟨.Overflow, "chunk end offset exceeds u64"⟩

def object_spec (self : ChunkRef) : ObjectSpec := ⟨self.object_id, self.size⟩

end ChunkRef

/-! ### Manifests -/

inductive ChunkingStrategy where
  | FastCdc
  | WholeFile
  deriving DecidableEq, Repr

structure Manifest where
  total_size : UInt64
  chunking : ChunkingStrategy
  chunks : List ChunkRef
  deriving DecidableEq

/-- A WholeFile Manifest has no chunk for an empty file and one chunk otherwise. -/
def whole_file_cardinality (chunking : ChunkingStrategy) (total_size : UInt64) (count : Nat) :
    Prop :=
  chunking = .WholeFile → (total_size = 0 ∧ count = 0) ∨ (0 < total_size ∧ count = 1)

instance (chunking : ChunkingStrategy) (total_size : UInt64) (count : Nat) :
    Decidable (whole_file_cardinality chunking total_size count) :=
  inferInstanceAs (Decidable (_ → _))

namespace Manifest

/-- The chunk loop of `Manifest::validate`: the offset after the last chunk. -/
def validate_chunks (next_offset : UInt64) : List ChunkRef → ValidationResult UInt64
  | [] => .ok next_offset
  | chunk :: chunks => do
    chunk.validate.mapError fun error =>
      ⟨.InvalidManifest, s!"invalid Manifest chunk: {error.message}"⟩
    ensure (chunk.offset = next_offset)
      ⟨.InvalidManifest, s!"Manifest chunks are not contiguous at object {chunk.object_id}"⟩
    let next_offset ← ok_or (checked_add next_offset chunk.size)
      ⟨.Overflow, "Manifest total chunk size exceeds u64"⟩
    validate_chunks next_offset chunks

/-- The loop over two chunk lists in a row continues at the offset between them. -/
theorem validate_chunks_append {offset next : UInt64} {a b : List ChunkRef} :
    validate_chunks offset (a ++ b) = .ok next ↔
      ∃ m, validate_chunks offset a = .ok m ∧ validate_chunks m b = .ok next := by
  induction a generalizing offset with
  | nil => simp [validate_chunks]
  | cons chunk a ih =>
    simp only [List.cons_append, validate_chunks, ok_iff, ih]
    constructor
    · rintro ⟨hvalid, hoffset, o, ho, m, hm, hnext⟩
      exact ⟨m, ⟨hvalid, hoffset, o, ho, hm⟩, hnext⟩
    · rintro ⟨m, ⟨hvalid, hoffset, o, ho, hm⟩, hnext⟩
      exact ⟨hvalid, hoffset, o, ho, m, hm, hnext⟩

def validate (self : Manifest) : ValidationResult Unit := do
  let next_offset ← validate_chunks 0 self.chunks
  ensure (next_offset = self.total_size)
    ⟨.InvalidManifest, "Manifest chunks do not cover the declared total size"⟩
  ensure (whole_file_cardinality self.chunking self.total_size self.chunks.length)
    ⟨.InvalidManifest,
      "WholeFile Manifest must contain zero chunks for an empty file or one complete chunk"⟩

def chunk_count (self : Manifest) : ValidationResult UInt64 :=
  ok_or (u64_try_from self.chunks.length) ⟨.Overflow, "Manifest chunk count exceeds u64"⟩

end Manifest

/-! ### File records -/

structure FileRecord (U : UnicodeTables) where
  path : LogicalPath U
  manifest_id : ManifestId
  (total_size chunk_count : UInt64)
  deriving DecidableEq

namespace FileRecord

def validate (self : FileRecord U) : ValidationResult Unit :=
  ensure (self.total_size = 0 ↔ self.chunk_count = 0)
    ⟨.InvalidIndex, s!"file {self.path} has inconsistent total size and chunk count"⟩

def new (path : LogicalPath U) (manifest_id : ManifestId) (total_size chunk_count : UInt64) :
    ValidationResult (FileRecord U) := do
  let record : FileRecord U := ⟨path, manifest_id, total_size, chunk_count⟩
  record.validate
  return record

end FileRecord

end NeoEngram

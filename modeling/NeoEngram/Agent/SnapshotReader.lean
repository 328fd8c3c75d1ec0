import NeoEngram.Agent.Inventory
import NeoEngram.Runtime.ObjectTransfer

/-! # Reading ranges of Snapshot files

The reader of a frozen Snapshot puts a byte range of a file together from the
chunks of its Manifest that overlap the range.
-/

namespace NeoEngram.Agent

open Checks Framing List UInt64 Manifest Except

variable {U : UnicodeTables}

/-! ## The reader -/

def S3_READ_FRAME_MAX_BYTES : Nat := 256 * 1024

def saturating_add (a b : UInt64) : UInt64 := (checked_add a b).getD 0xFFFFFFFFFFFFFFFF

/-- A half-open byte range. -/
structure ImmutableByteRange where
  (start end_exclusive : UInt64)
  deriving DecidableEq

def ImmutableByteRange.new (start end_exclusive : UInt64) : AgentResult ImmutableByteRange := do
  ensure (¬ (end_exclusive < start ∨ S3_READ_FRAME_MAX_BYTES < end_exclusive.toNat - start.toNat))
    ⟨.ProtocolInvalid, "Snapshot byte range is invalid or exceeds the S3 frame limit"⟩
  return ⟨start, end_exclusive⟩

/-- A file of the Snapshot: its Index record and its Manifest. -/
structure WorkspaceMaterializationFile (U : UnicodeTables) where
  record : FileRecord U
  manifest : Manifest
  deriving DecidableEq

/-- The sealed objects of the volume. -/
abbrev Objects := ObjectId → Option FileContent

section

variable (blake3 : Blake3)

/-- `LooseObjectStore::copy_to` on objects that can be read. -/
def copy_to (objects : Objects) (expected : ObjectSpec) : EngineResult Bytes :=
  match objects expected.id with
  | none => .error ⟨.ObjectMissing, "loose object is missing", []⟩
  | some content => do
    ensure (content.len = expected.size)
      ⟨.ObjectCorrupt, "loose object metadata does not match its specification", []⟩
    Runtime.check_exact blake3 content.bytes expected .ObjectCorrupt
    return content.bytes

structure SnapshotCasReader (U : UnicodeTables) where
  files : List (WorkspaceMaterializationFile U)
  objects : Objects

namespace SnapshotCasReader

section

variable (self : SnapshotCasReader U) (path : LogicalPath U)

def file : AgentResult (WorkspaceMaterializationFile U) :=
  ok_or (self.files.find? (·.record.path = path))
    ⟨.AssignmentNotFound, "Snapshot object was not found"⟩

def head : AgentResult UInt64 := do
  return (← self.file path).record.total_size

/-- The chunk loop of `read_range`. -/
def collect (objects : Objects) (range : ImmutableByteRange) :
    List ChunkRef → Bytes → AgentResult Bytes
  | [], output => .ok output
  | chunk :: chunks, output =>
    let chunk_end := saturating_add chunk.offset chunk.size
    if chunk_end ≤ range.start then collect objects range chunks output
    else if range.end_exclusive ≤ chunk.offset then .ok output
    else do
      let bytes ← (copy_to blake3 objects chunk.object_spec).mapError fun error =>
        ⟨.ObjectTransferFailed, error.message⟩
      let start := max range.start chunk.offset - chunk.offset
      let stop := min range.end_exclusive chunk_end - chunk.offset
      collect objects range chunks (output ++ (bytes.take stop.toNat).drop start.toNat)

def read_range (range : ImmutableByteRange) : AgentResult Bytes := do
  let file ← self.file path
  ensure (range.end_exclusive ≤ file.record.total_size)
    ⟨.ProtocolInvalid, "Snapshot byte range exceeds object size"⟩
  if range.start = range.end_exclusive then
    return []
  else
    let output ← collect blake3 self.objects range file.manifest.chunks []
    ensure (output.length = range.end_exclusive.toNat - range.start.toNat)
      ⟨.ObjectTransferFailed, "Snapshot Manifest did not provide complete byte coverage"⟩
    return output

end

end SnapshotCasReader

end

/-! ## Slices -/

def slice (bytes : Bytes) (start stop : Nat) : Bytes := (bytes.take stop).drop start

theorem length_slice (bytes : Bytes) (start stop : Nat) :
    (slice bytes start stop).length = min stop bytes.length - start := by
  simp [slice]

theorem slice_append (a b : Bytes) (start stop : Nat) : slice (a ++ b) start stop =
      slice a start stop ++ slice b (start - a.length) (stop - a.length) := by
  unfold slice
  rw [take_append, drop_append, length_take]
  by_cases h : stop ≤ a.length
  · have hempty : b.take (stop - a.length) = [] := by
      rw [Nat.sub_eq_zero_of_le h, take_zero]
    rw [hempty, drop_nil, drop_nil]
  · rw [min_eq_right (by omega)]

variable {bytes : Bytes}

theorem slice_of_length_le {start : Nat} (h : bytes.length ≤ start) (stop : Nat) :
    slice bytes start stop = [] :=
  drop_eq_nil_of_le (le_trans (length_take_le' _ _) h)

theorem slice_zero (bytes : Bytes) (start : Nat) : slice bytes start 0 = [] := by
  unfold slice
  rw [take_zero, drop_nil]

theorem slice_append_slice (bytes : Bytes) {a b c : Nat} (hab : a ≤ b) (hbc : b ≤ c) :
    slice bytes a b ++ slice bytes b c = slice bytes a c := by
  unfold slice
  by_cases hlen : b ≤ bytes.length
  · conv_rhs => rw [← take_append_drop b (bytes.take c), take_take, min_eq_left hbc]
    rw [drop_append_of_le_length]
    rw [length_take]
    omega
  · rw [take_of_length_le (by omega), take_of_length_le (by omega),
      drop_eq_nil_of_le (by omega : bytes.length ≤ b), append_nil]

/-! ## Reading a range -/

def chunk_bytes (objects : Objects) (chunk : ChunkRef) : Bytes :=
  ((objects chunk.object_id).map FileContent.bytes).getD []

/-- The content of a file: the bytes of its chunks in a row. -/
def file_content (objects : Objects) (chunks : List ChunkRef) : Bytes :=
  chunks.flatMap (chunk_bytes objects)

variable {blake3 : Blake3} {objects : Objects}

theorem copy_to_eq_ok {expected : ObjectSpec} : copy_to blake3 objects expected = .ok bytes ↔
      (objects expected.id).map FileContent.bytes = some bytes ∧
        bytes.length = expected.size.toNat ∧ (⟨blake3 bytes⟩ : ObjectId) = expected.id := by
  unfold copy_to
  cases objects expected.id with
  | none => simp
  | some content =>
    simp only [ok_iff, Runtime.check_exact_eq_ok, FileContent.len_eq_iff, Option.map_some,
      Option.some.injEq]
    constructor
    · rintro ⟨_, hexact, hbytes⟩
      exact ⟨hbytes, hbytes ▸ hexact⟩
    · rintro ⟨hbytes, hexact⟩
      subst hbytes
      exact ⟨hexact.1, hexact, rfl⟩

def Intact (blake3 : Blake3) (objects : Objects) (chunk : ChunkRef) : Prop :=
  copy_to blake3 objects chunk.object_spec = .ok (chunk_bytes objects chunk)

theorem Intact.length {chunk : ChunkRef} (h : Intact blake3 objects chunk) :
    (chunk_bytes objects chunk).length = chunk.size.toNat :=
  (copy_to_eq_ok.mp h).2.1

theorem file_content_cons (objects : Objects) (chunk : ChunkRef) (chunks : List ChunkRef) :
    file_content objects (chunk :: chunks) =
      chunk_bytes objects chunk ++ file_content objects chunks :=
  flatMap_cons

theorem saturating_add_eq {a b c : UInt64} (h : checked_add a b = some c) :
    saturating_add a b = c := by
  rw [saturating_add, h, Option.getD_some]

variable {chunks : List ChunkRef}

theorem length_file_content {offset total : UInt64}
    (hchunks : validate_chunks offset chunks = .ok total)
    (hintact : ∀ chunk ∈ chunks, Intact blake3 objects chunk) :
    offset.toNat + (file_content objects chunks).length = total.toNat := by
  induction chunks generalizing offset with
  | nil =>
    simp only [validate_chunks, ok.injEq] at hchunks
    simp [file_content, hchunks]
  | cons chunk chunks ih =>
    simp only [validate_chunks, ok_iff] at hchunks
    obtain ⟨-, -, next, hnext, hrest⟩ := hchunks
    obtain ⟨hfirst, hothers⟩ := forall_mem_cons.mp hintact
    have := ih hrest hothers
    rw [checked_add_eq_some] at hnext
    rw [file_content_cons, length_append, hfirst.length]
    omega

namespace SnapshotCasReader

variable {range : ImmutableByteRange}

theorem toNat_max (a b : UInt64) : (max a b).toNat = max a.toNat b.toNat := by
  show (if a ≤ b then b else a).toNat = max a.toNat b.toNat
  by_cases h : a ≤ b
  · rw [if_pos h, max_eq_right (le_iff_toNat_le.mp h)]
  · rw [if_neg h, max_eq_left (le_iff_toNat_le.mp (UInt64.le_of_lt (UInt64.not_le.mp h)))]

theorem slice_of_chunk {offset size next : UInt64}
    (hlength : bytes.length = size.toNat) (hnext : offset.toNat + size.toNat = next.toNat)
    (hstop : offset < range.end_exclusive) :
    (bytes.take (min range.end_exclusive next - offset).toNat).drop
        (max range.start offset - offset).toNat =
      slice bytes (range.start.toNat - offset.toNat)
        (range.end_exclusive.toNat - offset.toNat) := by
  rw [lt_iff_toNat_lt] at hstop
  have hfrom : (max range.start offset - offset).toNat = range.start.toNat - offset.toNat := by
    have hle : offset ≤ max range.start offset := by
      rw [le_iff_toNat_le, toNat_max]
      omega
    rw [UInt64.toNat_sub_of_le _ _ hle, toNat_max]
    omega
  have hto : (min range.end_exclusive next - offset).toNat =
      min (range.end_exclusive.toNat - offset.toNat) size.toNat := by
    have hle : offset ≤ min range.end_exclusive next := by
      rw [le_iff_toNat_le, toNat_min]
      omega
    rw [UInt64.toNat_sub_of_le _ _ hle, toNat_min]
    omega
  rw [hfrom, hto, ← hlength]
  unfold slice
  rw [← take_take, take_of_length_le (le_refl _)]

/-- **Step and run of the chunk loop**: the chunks give the part of the range behind the offset. -/
theorem collect_eq {offset total : UInt64}
    (hchunks : validate_chunks offset chunks = .ok total)
    (hintact : ∀ chunk ∈ chunks, Intact blake3 objects chunk) (output : Bytes) :
    collect blake3 objects range chunks output =
      .ok (output ++ slice (file_content objects chunks) (range.start.toNat - offset.toNat)
        (range.end_exclusive.toNat - offset.toNat)) := by
  induction chunks generalizing offset output with
  | nil => simp [collect, file_content, slice]
  | cons chunk chunks ih =>
    simp only [validate_chunks, ok_iff] at hchunks
    obtain ⟨-, hoffset, next, hnext, hrest⟩ := hchunks
    obtain ⟨hfirst, hothers⟩ := forall_mem_cons.mp hintact
    subst hoffset
    have hend : saturating_add chunk.offset chunk.size = next := saturating_add_eq hnext
    rw [checked_add_eq_some] at hnext
    have hlength := hfirst.length
    rw [file_content_cons, slice_append, hlength, Nat.sub_sub, Nat.sub_sub, hnext]
    unfold collect
    simp only [hend]
    by_cases hbefore : next ≤ range.start
    · -- the chunk lies before the range
      have hempty : slice (chunk_bytes objects chunk) (range.start.toNat - chunk.offset.toNat)
          (range.end_exclusive.toNat - chunk.offset.toNat) = [] := by
        apply slice_of_length_le
        rw [le_iff_toNat_le] at hbefore
        omega
      rw [if_pos hbefore, ih hrest hothers, hempty, nil_append]
    · rw [if_neg hbefore]
      by_cases hafter : range.end_exclusive ≤ chunk.offset
      · -- the chunk and those after it lie behind the range
        rw [if_pos hafter]
        rw [le_iff_toNat_le] at hafter
        have hafter' : range.end_exclusive.toNat ≤ next.toNat := by omega
        rw [Nat.sub_eq_zero_of_le hafter, Nat.sub_eq_zero_of_le hafter', slice_zero, slice_zero,
          append_nil, append_nil]
      · rw [if_neg hafter, hfirst, ← slice_of_chunk hlength hnext (UInt64.not_le.mp hafter),
          ← append_assoc]
        exact ih hrest hothers _

/-- A file whose Manifest is valid, whose chunks are intact, and whose record has the size of the
Manifest. -/
structure Readable (blake3 : Blake3) (objects : Objects) (file : WorkspaceMaterializationFile U) :
    Prop where
  valid : file.manifest.validate = .ok ()
  size : file.manifest.total_size = file.record.total_size
  intact : ∀ chunk ∈ file.manifest.chunks, Intact blake3 objects chunk

variable {file : WorkspaceMaterializationFile U} {reader : SnapshotCasReader U}

theorem validate_chunks_of_validate {manifest : Manifest} (h : manifest.validate = .ok ()) :
    validate_chunks 0 manifest.chunks = .ok manifest.total_size := by
  simp only [validate, ok_iff] at h
  obtain ⟨next, hchunks, rfl, -⟩ := h
  exact hchunks

theorem Readable.length (h : Readable blake3 objects file) :
    (file_content objects file.manifest.chunks).length = file.record.total_size.toNat := by
  have hlength := length_file_content (validate_chunks_of_validate h.valid) h.intact
  rw [h.size] at hlength
  simpa using hlength

variable {path : LogicalPath U}

/-- **Reading a range** of a readable file gives that part of its content. -/
theorem read_range_eq (hfile : reader.file path = .ok file)
    (hreadable : Readable blake3 reader.objects file)
    (hrange : range.end_exclusive ≤ file.record.total_size) :
    reader.read_range blake3 path range =
      .ok (slice (file_content reader.objects file.manifest.chunks) range.start.toNat
        range.end_exclusive.toNat) := by
  have hcollect : collect blake3 reader.objects range file.manifest.chunks [] =
      .ok (slice (file_content reader.objects file.manifest.chunks) range.start.toNat
        range.end_exclusive.toNat) := by
    rw [collect_eq (validate_chunks_of_validate hreadable.valid) hreadable.intact]
    rfl
  have hlength : (slice (file_content reader.objects file.manifest.chunks) range.start.toNat
      range.end_exclusive.toNat).length = range.end_exclusive.toNat - range.start.toNat := by
    rw [length_slice, hreadable.length, min_eq_left (le_iff_toNat_le.mp hrange)]
  unfold read_range
  rw [hfile]
  by_cases hempty : range.start = range.end_exclusive
  · have hnil := eq_nil_of_length_eq_zero (hlength.trans (by rw [hempty, Nat.sub_self]))
    rw [hnil]
    simp [ensure, hrange, hempty, bind, Except.bind, pure, Except.pure]
  · simp [ensure, hrange, hempty, hcollect, hlength, bind, Except.bind, pure, Except.pure]

theorem head_eq (hfile : reader.file path = .ok file) :
    reader.head path = .ok file.record.total_size := by
  rw [head, hfile]
  rfl

end SnapshotCasReader

end NeoEngram.Agent

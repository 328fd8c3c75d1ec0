import NeoEngram.Core.Canonical
import NeoEngram.Core.Strings

/-! # The local metadata store

The standalone runtime keeps Manifests and Directories in SQLite tables,
keyed by identity. This file embeds the parts of `metadata/mod.rs` and
`metadata/sqlite.rs` that write and read them: `put_manifest`,
`DirectoryWriter`, which checks every entry against what is stored, counts the
files below and publishes under the computed identity, the paged readers, and
`collect_pages`, which reads a reader to its end.

A table is the map of its published rows. Staging batches bound memory and are
not visible, so a set is staged in one piece here. An identity is kept as its
digest instead of its hexadecimal text, a page cursor as its ordinal.
-/

namespace NeoEngram.Local

open Checks

variable {U : UnicodeTables}

/-! ## Errors, encodings and pages -/

/-- The messages of an error, the outermost context first. -/
abbrev ErrorChain := List String

abbrev Result := Except ErrorChain

def of_core {α : Type} (result : ValidationResult α) : Result α :=
  result.mapError fun error => [error.message]

def with_context {α : Type} (message : String) (result : Result α) : Result α :=
  result.mapError (message :: ·)

@[simp] theorem of_core_eq_ok {α : Type} {result : ValidationResult α} {a : α} :
    of_core result = .ok a ↔ result = .ok a :=
  mapError_eq_ok

@[simp] theorem with_context_eq_ok {α : Type} {message : String} {result : Result α} {a : α} :
    with_context message result = .ok a ↔ result = .ok a :=
  mapError_eq_ok

/-- SQLite integers are signed: a number is stored only if it is below `2 ^ 63`. -/
def encode_u64 (value : UInt64) (kind : String) : Result Unit :=
  ensure (value.toNat < 2 ^ 63) [s!"{kind}超出 SQLite INTEGER 范围: {value}"]

@[simp] theorem encode_u64_eq_ok {value : UInt64} {kind : String} {r : Unit} :
    encode_u64 value kind = .ok r ↔ value.toNat < 2 ^ 63 :=
  ensure_eq_ok

def MAX_PAGE_SIZE : UInt32 := 4096

structure PageRequest where
  after : Option UInt64
  limit : UInt32

structure Page (α : Type) where
  items : List α
  next : Option UInt64

namespace PageRequest

def validate (self : PageRequest) : Result Unit :=
  ensure (self.limit ≤ MAX_PAGE_SIZE) [s!"分页大小不能超过 {MAX_PAGE_SIZE}: {self.limit}"]

def new (after : Option UInt64) (limit : UInt32) : Result PageRequest := do
  ensure (limit ≠ 0) ["分页大小必须大于零"]
  let request : PageRequest := ⟨after, limit⟩
  request.validate
  return request

def first (limit : UInt32) : Result PageRequest := new none limit

def limit_usize (self : PageRequest) : Result Nat := do
  self.validate
  return self.limit.toNat

end PageRequest

def STORAGE_SCAN_PAGE_SIZE : UInt32 := 1024

/-- The loop of `collect_pages`. `rounds` bounds how many pages are read. -/
def collect_pages_from {α : Type} (scan : PageRequest → Result (Page α)) :
    Nat → PageRequest → List α → Result (List α)
  | 0, _, _ => .error ["page bound of the model exceeded"]
  | rounds + 1, request, items => do
    let page ← scan request
    let limit ← request.limit_usize
    ensure (page.items.length ≤ limit) ["元数据后端返回的分页超过请求上限"]
    let items := items ++ page.items
    match page.next with
    | none => return items
    | some next => do
      ensure (request.after ≠ some next) ["元数据后端返回了不前进的分页游标"]
      collect_pages_from scan rounds { request with after := some next } items

def collect_pages {α : Type} (rounds : Nat) (scan : PageRequest → Result (Page α)) :
    Result (List α) := do
  let request ← PageRequest.first STORAGE_SCAN_PAGE_SIZE
  collect_pages_from scan rounds request []

/-! ## Rows -/

/-- A chunk of a file; the source keeps the object identity as text. -/
abbrev Chunk := ChunkRef

structure DirectoryEntry where
  ordinal : UInt64
  name : Text
  kind : DirectoryEntryKind
  target_id : ContentDigest
  total_size : UInt64
  deriving DecidableEq

structure ManifestRef where
  id : ManifestId
  chunk_count : UInt64
  chunking : ChunkingStrategy

structure DirectoryRef where
  id : DirectoryId
  (entry_count file_count total_size : UInt64)
  deriving DecidableEq

/-- A published Manifest: its header and its chunks in ordinal order. -/
structure ManifestRow where
  total_size : UInt64
  chunking : ChunkingStrategy
  chunk_count : UInt64
  chunks : List Chunk
  deriving DecidableEq

/-- A published Directory: its header and its entries in ordinal order. -/
structure DirectoryRow where
  (entry_count file_count total_size : UInt64)
  entries : List DirectoryEntry
  deriving DecidableEq

/-- What HEAD of a workspace is: a reference, or a Commit. -/
inductive HeadState where
  | Attached (reference : Text)
  | Detached (commit_id : CommitId)
  deriving DecidableEq

/-- The published rows of the immutable tables, the references, and HEAD of the workspace. -/
structure MetadataStore where
  manifests : Std.ExtTreeMap ManifestId ManifestRow
  directories : Std.ExtTreeMap DirectoryId DirectoryRow
  commits : Std.ExtTreeMap CommitId Commit
  refs : Std.ExtTreeMap Text CommitId
  head : HeadState

/-! ## Manifests -/

/-- `ManifestHasher` of the store: the canonical hasher and a count of its own. -/
structure ManifestHasher where
  hasher : NeoEngram.ManifestHasher
  chunking : ChunkingStrategy
  chunk_count : UInt64

namespace ManifestHasher

def new (total_size : UInt64) (chunking : ChunkingStrategy) : ManifestHasher where
  hasher := .new total_size chunking
  chunking := chunking
  chunk_count := 0

def push (self : ManifestHasher) (chunk : Chunk) : Result ManifestHasher := do
  of_core chunk.validate
  let hasher ← of_core (self.hasher.push chunk)
  let chunk_count ← ok_or (checked_add self.chunk_count 1) ["Manifest Chunk 数量溢出"]
  return { self with hasher, chunk_count }

def finish (blake3 : Blake3) (self : ManifestHasher) : Result ManifestRef := do
  let id ← of_core (self.hasher.finish blake3)
  return ⟨id, self.chunk_count, self.chunking⟩

end ManifestHasher

def describe_manifest (blake3 : Blake3) (total_size : UInt64) (chunking : ChunkingStrategy)
    (chunks : List Chunk) : Result ManifestRef := do
  let hasher ← chunks.foldlM ManifestHasher.push (ManifestHasher.new total_size chunking)
  hasher.finish blake3

/-- One round of the loop of `put_manifest`. -/
def push_staged (hasher : ManifestHasher) (chunk : Chunk) : Result ManifestHasher := do
  let hasher ← hasher.push chunk
  encode_u64 chunk.offset "Manifest Chunk 偏移"
  encode_u64 chunk.size "Manifest Chunk 大小"
  return hasher

/-- The chunks get the ordinals from `ordinal` on. -/
def insert_manifest_batch (ordinal : Nat) : List Chunk → Result Unit
  | [] => .ok ()
  | _ :: chunks => do
    let position ← ok_or (u64_try_from ordinal) ["Manifest Chunk 序号溢出"]
    encode_u64 position "Manifest Chunk 序号"
    insert_manifest_batch (ordinal + 1) chunks

def publish_manifest_set (store : MetadataStore) (chunks : List Chunk) (manifest : ManifestRef)
    (total_size : UInt64) : Result MetadataStore := do
  encode_u64 manifest.chunk_count "Manifest Chunk 数量"
  let row : ManifestRow := ⟨total_size, manifest.chunking, manifest.chunk_count, chunks⟩
  match store.manifests[manifest.id]? with
  | some existing =>
    ensure (existing = row) [s!"同一 Manifest ID 已存在不同内容: {manifest.id}"]
    return store
  | none => return { store with manifests := store.manifests.insert manifest.id row }

def put_manifest (blake3 : Blake3) (store : MetadataStore) (total_size : UInt64)
    (chunking : ChunkingStrategy) (chunks : List Chunk) : Result (ManifestRef × MetadataStore) := do
  encode_u64 total_size "Manifest 文件大小"
  let hasher ← chunks.foldlM push_staged (ManifestHasher.new total_size chunking)
  insert_manifest_batch 0 chunks
  let written ← ok_or (u64_try_from chunks.length) ["Manifest Chunk 数量溢出"]
  let manifest ← hasher.finish blake3
  ensure (written = manifest.chunk_count) ["Manifest staging Chunk 数量不一致"]
  let store ← publish_manifest_set store chunks manifest total_size
  return (manifest, store)

namespace ManifestRow

/-- The loop of `scan_chunks`: the chunks continue at `previous_end`, without gaps. -/
def check_chunks (previous_end : UInt64) : List Chunk → Result UInt64
  | [] => .ok previous_end
  | chunk :: chunks => do
    ensure (chunk.offset = previous_end) ["Manifest Chunk 偏移不连续"]
    ensure (0 < chunk.size) ["Manifest Chunk 大小必须大于零"]
    let previous_end ← ok_or (checked_add chunk.offset chunk.size) ["Manifest Chunk 偏移溢出"]
    check_chunks previous_end chunks

/-- The offset where the chunk at an ordinal begins: after the chunk before it. -/
def end_before (self : ManifestRow) : Nat → Result UInt64
  | 0 => .ok 0
  | ordinal + 1 => do
    let chunk ← ok_or self.chunks[ordinal]? ["Query returned no rows"]
    ok_or (checked_add chunk.offset chunk.size) ["Manifest Chunk 偏移溢出"]

def scan_chunks (self : ManifestRow) (request : PageRequest) : Result (Page Chunk) := do
  let limit ← request.limit_usize
  ensure (request.after.all (· < self.chunk_count)) ["Chunk cursor 超出 Manifest 范围"]
  let first := request.after.elim 0 fun after => after.toNat + 1
  let stored := (self.chunks.drop first).take (limit + 1)
  let previous_end ← self.end_before first
  let previous_end ← check_chunks previous_end stored
  if limit < stored.length then
    return ⟨stored.take limit, some (UInt64.ofNat (first + limit - 1))⟩
  else
    ensure (first + stored.length = self.chunk_count.toNat) ["Manifest Chunk 数量与 header 不一致"]
    ensure (previous_end = self.total_size) ["Manifest Chunk 总大小与 header 不一致"]
    return ⟨stored, none⟩

end ManifestRow

/-! ## Directories -/

/-- The core entry of a stored entry; its name has to parse, and a Directory has no size. -/
def core_directory_entry (U : UnicodeTables) (entry : DirectoryEntry) :
    Result (NeoEngram.DirectoryEntry U) := do
  let name ← with_context s!"Directory 子项名称无效: {String.ofList entry.name}"
    (of_core (PathComponent.parse U entry.name))
  match entry.kind with
  | .File => return .file entry.ordinal name ⟨entry.target_id⟩ entry.total_size
  | .Directory => do
    let core_entry := NeoEngram.DirectoryEntry.directory entry.ordinal name ⟨entry.target_id⟩
    ensure (entry.total_size = core_entry.total_size)
      [s!"Directory 类型子项不能携带文件大小: {String.ofList entry.name}"]
    return core_entry

/-- `DirectoryHasher` of the store: entries are converted and pushed to the canonical one. -/
def push_entry (hasher : DirectoryHasher U) (entry : DirectoryEntry) :
    Result (DirectoryHasher U) := do
  let core_entry ← core_directory_entry U entry
  of_core (hasher.push core_entry)

/-- An entry has to name something stored; the result is how many files there are and their
size together. -/
def validate_stored_directory_entry (U : UnicodeTables) (store : MetadataStore)
    (entry : DirectoryEntry) : Result (UInt64 × UInt64) := do
  let _ ← core_directory_entry U entry
  match entry.kind with
  | .File => do
    let row ← ok_or store.manifests[(⟨entry.target_id⟩ : ManifestId)]?
      [s!"Manifest 不存在: {entry.target_id}"]
    ensure (row.total_size = entry.total_size)
      [s!"Directory 文件 {String.ofList entry.name} 的大小与 Manifest 不一致"]
    return (1, row.total_size)
  | .Directory => do
    let row ← ok_or store.directories[(⟨entry.target_id⟩ : DirectoryId)]?
      [s!"Directory 不存在: {entry.target_id}"]
    return (row.file_count, row.total_size)

structure DirectoryWriter (U : UnicodeTables) where
  hasher : DirectoryHasher U
  last_name : Option Text
  batch : List DirectoryEntry
  (file_count total_size : UInt64)

namespace DirectoryWriter

def new : DirectoryWriter U where
  hasher := .new
  last_name := none
  batch := []
  file_count := 0
  total_size := 0

def append_entry (store : MetadataStore) (self : DirectoryWriter U) (entry : DirectoryEntry) :
    Result (DirectoryWriter U) := do
  let (file_count, total_size) ← validate_stored_directory_entry U store entry
  ensure (self.last_name.all (· < entry.name))
    [s!"DirectoryWriter 要求子项名称严格递增: {String.ofList entry.name}"]
  let hasher ← push_entry self.hasher entry
  let file_count ← ok_or (checked_add self.file_count file_count) ["Directory 文件数量溢出"]
  let total_size ← ok_or (checked_add self.total_size total_size) ["Directory 逻辑大小溢出"]
  return { hasher, last_name := some entry.name, batch := self.batch ++ [entry], file_count,
           total_size }

end DirectoryWriter

def insert_directory_batch (entries : List DirectoryEntry) : Result Unit :=
  entries.forM fun entry => do
    encode_u64 entry.ordinal "Directory 子项序号"
    encode_u64 entry.total_size "Directory 文件大小"

def publish_directory_set (store : MetadataStore) (entries : List DirectoryEntry)
    (directory : DirectoryRef) : Result MetadataStore := do
  encode_u64 directory.entry_count "Directory 子项数量"
  encode_u64 directory.file_count "Directory 文件数量"
  encode_u64 directory.total_size "Directory 逻辑大小"
  let row : DirectoryRow :=
    ⟨directory.entry_count, directory.file_count, directory.total_size, entries⟩
  match store.directories[directory.id]? with
  | some existing =>
    ensure (existing = row) [s!"同一 Directory ID 已存在不同内容: {directory.id}"]
    return store
  | none => return { store with directories := store.directories.insert directory.id row }

def DirectoryWriter.finish (blake3 : Blake3) (store : MetadataStore) (self : DirectoryWriter U) :
    Result (DirectoryRef × MetadataStore) := do
  insert_directory_batch self.batch
  let directory : DirectoryRef :=
    ⟨self.hasher.finish blake3, self.hasher.entry_count, self.file_count, self.total_size⟩
  let store ← publish_directory_set store self.batch directory
  return (directory, store)

/-! ## Commits, references and HEAD -/

def put_commit (blake3 : Blake3) (store : MetadataStore) (id : CommitId) (commit : Commit) :
    Result MetadataStore := do
  of_core commit.validate
  let canonical_id ← of_core (commit_id blake3 commit)
  ensure (canonical_id = id) [s!"Commit ID 与规范内容不一致: {id}"]
  match store.commits[id]? with
  | some existing =>
    ensure (existing = commit) ["同一 Commit ID 已存在不同内容"]
    return store
  | none => return { store with commits := store.commits.insert id commit }

def is_reference_character (c : Char) : Bool := c.isAlphanum || c ∈ ['.', '_', '-']

def validate_reference_name (name : Text) : Result Unit := do
  let shown := String.ofList name
  ensure ("refs/".toList.isPrefixOf name) [s!"引用名必须位于 refs/ 下: {shown}"]
  ensure ('\\' ∉ name) [s!"引用名必须使用 `/` 分隔: {shown}"]
  (Words.split '/' name).forM fun component => do
    ensure (component ≠ [] ∧ component ≠ ['.'] ∧ component ≠ ['.', '.']) [s!"引用名未规范化: {shown}"]
    ensure (STORAGE_TEMP_PREFIX.isPrefixOf component = false) [s!"引用名使用了保留的临时文件前缀: {shown}"]
    ensure (component.all is_reference_character) [s!"引用名包含非法字符: {shown}"]

namespace HeadState

def validate : HeadState → Result Unit
  | Attached reference => validate_reference_name reference
  | Detached _ => .ok ()

def normalize : HeadState → HeadState
  | Attached reference => Attached (trim reference)
  | Detached commit_id => Detached commit_id

end HeadState

/-- The result of a compare-and-swap: the new store, or what was found instead. -/
inductive Cas (α : Type) where
  | Updated (store : MetadataStore)
  | Mismatch (actual : α)

def compare_exchange_head (store : MetadataStore) (expected new_state : HeadState) :
    Result (Cas HeadState) := do
  let expected := expected.normalize
  let new_state := new_state.normalize
  expected.validate
  new_state.validate
  if store.head.normalize ≠ expected then
    return .Mismatch store.head.normalize
  else
    return .Updated { store with head := new_state }

def compare_exchange_reference (store : MetadataStore) (name : Text)
    (expected new_target : Option CommitId) : Result (Cas (Option CommitId)) := do
  validate_reference_name name
  if store.refs[name]? ≠ expected then
    return .Mismatch store.refs[name]?
  else
    match new_target with
    | some target => return .Updated { store with refs := store.refs.insert name target }
    | none => return .Updated { store with refs := store.refs.erase name }

/-! ## Reading Directories -/

def encode_cursor : Option UInt64 → Result Unit
  | some after => encode_u64 after "Directory cursor"
  | none => .ok ()

namespace DirectoryRow

def scan_entries (self : DirectoryRow) (request : PageRequest) : Result (Page DirectoryEntry) := do
  let limit ← request.limit_usize
  encode_cursor request.after
  let stored := (self.entries.filter fun entry => request.after.all (· < entry.ordinal)).take
    (limit + 1)
  if limit < stored.length then
    let items := stored.take limit
    return ⟨items, items.getLast?.map (·.ordinal)⟩
  else
    return ⟨stored, none⟩

end DirectoryRow

end NeoEngram.Local

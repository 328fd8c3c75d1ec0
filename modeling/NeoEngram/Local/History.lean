import NeoEngram.Engine.Commit
import NeoEngram.Local.Validation

/-! # Commits of the local repository

The parts of `repository/history.rs` that take a file list into the store and
back out of it: `publish_index_manifests`, `persist_engine_graph`, which writes
the Directories child-first, then the Commit, then HEAD, and
`read_directory_files`, which walks the Directories depth-first and validates
and hashes the collected files again.
-/

namespace NeoEngram.Local

open Checks

variable {U : UnicodeTables}

structure Repository where
  metadata_store : MetadataStore
  chunking_policy : ChunkingPolicy

/-! ## From an Index to Manifests -/

structure FileRecord where
  path : Text
  (total_size chunk_count : UInt64)
  manifest_id : ManifestId
  deriving DecidableEq

def FileRecord.from_manifest (path : Text) (total_size : UInt64) (manifest : ManifestRef) :
    FileRecord :=
  ⟨path, total_size, manifest.chunk_count, manifest.id⟩

def core_file_record (U : UnicodeTables) (file : FileRecord) : Result (NeoEngram.FileRecord U) := do
  let path ← of_core (LogicalPath.parse U file.path)
  of_core (NeoEngram.FileRecord.new path file.manifest_id file.total_size file.chunk_count)

/-- One round of the loop of `write_index_if_version`. -/
def publish_file_manifest (blake3 : Blake3) (done : List FileRecord × MetadataStore)
    (file : WorkspaceFileRecord) : Result (List FileRecord × MetadataStore) := do
  let (manifest, store) ← put_manifest blake3 done.2 file.total_size file.chunking file.chunks
  return (done.1 ++ [.from_manifest file.path file.total_size manifest], store)

/-- `write_index_if_version` up to its transaction: the Index is validated, the Manifests are
stored. -/
def publish_index_manifests (U : UnicodeTables) (blake3 : Blake3) (repository : Repository)
    (index : WorkspaceIndex) : Result (List FileRecord × Repository) := do
  validate_index_snapshot U repository.chunking_policy index
  let (records, store) ← index.files.foldlM (publish_file_manifest blake3)
    ([], repository.metadata_store)
  return (records, { repository with metadata_store := store })

/-! ## From a Commit graph to Directories -/

def stored_entry (entry : NeoEngram.DirectoryEntry U) : Result DirectoryEntry := do
  let (kind, target_id) := match entry.target_id with
    | .Manifest id => (DirectoryEntryKind.File, id.digest)
    | .Directory id => (DirectoryEntryKind.Directory, id.digest)
  ensure (kind = entry.kind) ["Engine Directory 类型与 target 不一致"]
  return ⟨entry.ordinal, entry.name.text, kind, target_id, entry.total_size⟩

/-- One Directory of the graph, written and checked against its identity. -/
def persist_directory (blake3 : Blake3) (store : MetadataStore) (object : DirectoryObject U) :
    Result MetadataStore := do
  let writer ← object.directory.entries.foldlM (fun (writer : DirectoryWriter U) entry => do
    writer.append_entry store (← stored_entry entry)) .new
  let (persisted, store) ← writer.finish blake3 store
  ensure (persisted.id = object.id) ["SQLite publisher 生成了不同的 Directory ID"]
  return store

structure RepositoryHead where
  state : HeadState
  commit_id : Option CommitId

/-- A HEAD as `{:?}` prints it. -/
def debug_head : HeadState → String
  | .Attached reference => s!"Attached \x7b reference: \"{String.ofList reference}\" \x7d"
  | .Detached commit_id => s!"Detached \x7b commit_id: \"{commit_id}\" \x7d"

def debug_commit (commit_id : Option CommitId) : String :=
  commit_id.elim "None" fun id => s!"Some(\"{id}\")"

def changed_meanwhile (what expected actual : String) : List String :=
  [s!"{what}在提交期间发生变化（期望 {expected}，实际 {actual}），拒绝覆盖并发提交"]

def advance_head (store : MetadataStore) (expected : RepositoryHead) (id : CommitId) :
    Result MetadataStore :=
  match expected.state with
  | .Attached reference => do
    ensure (store.head = expected.state)
      (changed_meanwhile "HEAD " (debug_head expected.state) (debug_head store.head))
    match ← compare_exchange_reference store reference expected.commit_id (some id) with
    | .Updated store => return store
    | .Mismatch actual =>
      throw (changed_meanwhile "分支" (debug_commit expected.commit_id) (debug_commit actual))
  | .Detached commit_id => do
    ensure (expected.commit_id = some commit_id) ["Detached HEAD 状态与解析出的 Commit 不一致"]
    match ← compare_exchange_head store expected.state (.Detached id) with
    | .Updated store => return store
    | .Mismatch actual =>
      throw (changed_meanwhile "Detached HEAD " (debug_head expected.state) (debug_head actual))

def store_commit (blake3 : Blake3) (store : MetadataStore) (commit : Commit) :
    Result (CommitId × MetadataStore) := do
  of_core commit.validate
  let id ← of_core (commit_id blake3 commit)
  let store ← put_commit blake3 store id commit
  return (id, store)

def persist_engine_graph (blake3 : Blake3) (repository : Repository)
    (graph : BuildCommitGraphResult U) (expected_head : RepositoryHead) : Result Repository := do
  ensure (graph.commit.parent = expected_head.commit_id) ["Commit 图父节点与当前 HEAD 不一致"]
  let store ← graph.directories.foldlM (persist_directory blake3) repository.metadata_store
  let (commit_id, store) ← store_commit blake3 store graph.commit
  ensure (commit_id = graph.commit_id) ["SQLite publisher 生成了不同的 Commit ID"]
  let store ← advance_head store expected_head commit_id
  return { repository with metadata_store := store }

/-! ## From Directories to files -/

def open_directory (store : MetadataStore) (id : DirectoryId) : Result DirectoryRow :=
  ok_or store.directories[id]? [s!"Directory 不存在: {id}"]

def open_manifest (store : MetadataStore) (id : ManifestId) : Result ManifestRow :=
  ok_or store.manifests[id]? [s!"Manifest 不存在: {id}"]

def read_file (store : MetadataStore) (path : Text) (entry : DirectoryEntry) :
    Result WorkspaceFileRecord := do
  let manifest ← open_manifest store ⟨entry.target_id⟩
  ensure (manifest.total_size = entry.total_size)
    [s!"Directory 文件大小与 Manifest 不一致: {String.ofList path}"]
  let chunks ← collect_pages (manifest.chunks.length + 1) manifest.scan_chunks
  let count ← ok_or (u64_try_from chunks.length) ["Chunk 数量超出 u64"]
  ensure (count = manifest.chunk_count) [s!"Manifest Chunk 数量与 header 不一致: {entry.target_id}"]
  return ⟨path, entry.total_size, manifest.chunking, chunks⟩

def read_entries (store : MetadataStore) (id : DirectoryId) : Result (List DirectoryEntry) := do
  let reader ← open_directory store id
  let entries ← collect_pages (reader.entries.length + 1) reader.scan_entries
  let count ← ok_or (u64_try_from entries.length) ["Directory 子项数量超出 u64"]
  ensure (count = reader.entry_count) [s!"Directory 子项数量与 header 不一致: {id}"]
  return entries

/-- The path of a child below a directory path, which is empty for the root. -/
def child_path (dir name : Text) : Text :=
  if dir = [] then name else dir ++ '/' :: name

/-- The depth-first walk of `collect_directory`. Only stored Directories that are not being visited
yet can be visited, so a `depth` above their number is never used up. -/
def collect_directory (store : MetadataStore) :
    Nat → DirectoryId → Text → List DirectoryId → List WorkspaceFileRecord →
      Result (List DirectoryId × List WorkspaceFileRecord)
  | 0, id, _, _, _ => .error [s!"Directory DAG 包含环: {id}"]
  | depth + 1, id, dir, visiting, files => do
    ensure (id ∉ visiting) [s!"Directory DAG 包含环: {id}"]
    let entries ← read_entries store id
    let (visiting, files) ← entries.foldlM (fun (visiting, files) entry => do
      let path := child_path dir entry.name
      match entry.kind with
      | .File => do
        let file ← read_file store path entry
        return (visiting, files ++ [file])
      | .Directory => collect_directory store depth ⟨entry.target_id⟩ path visiting files)
      (id :: visiting, files)
    return (visiting.erase id, files)

def read_directory_files (U : UnicodeTables) (blake3 : Blake3) (repository : Repository)
    (id : DirectoryId) : Result (List WorkspaceFileRecord) := do
  let store := repository.metadata_store
  let root ← ok_or store.directories[id]? [s!"根 Directory 不存在: {id}"]
  let (_, files) ← collect_directory store (store.directories.size + 1) id [] [] []
  let file_count ← ok_or (u64_try_from files.length) ["Directory 文件数量超出 u64"]
  ensure (file_count = root.file_count) [s!"Directory 文件数量与存储记录不一致: {id}"]
  validate_files U files
  let directory_id ← directory_id U blake3 repository.chunking_policy files
  ensure (directory_id = id) [s!"Directory 内容与其 ID 不匹配: {id}"]
  return files

end NeoEngram.Local

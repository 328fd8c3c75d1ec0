import NeoEngram.Framework.Trees
import NeoEngram.Local.Metadata

/-! # Local validation of file lists

This file embeds `repository/validation.rs`: the checks of a list of file
records (`validate_files`) and the identity of the Directory that it describes
(`directory_id`), computed by a second tree builder, `HashDirectory`, that
works on plain texts and stores nothing.
-/

namespace NeoEngram.Local

open Checks Words Trees

/-! ## Paths -/

structure WorkspaceFileRecord where
  path : Text
  total_size : UInt64
  chunking : ChunkingStrategy
  chunks : List Chunk
  deriving DecidableEq

structure WorkspaceIndex where
  format_version : UInt32
  files : List WorkspaceFileRecord

def is_neoengram_dir_name (name : Text) : Bool := is_reserved_name name

def is_device_number (suffix : Text) : Bool :=
  suffix ∈ [['1'], ['2'], ['3'], ['4'], ['5'], ['6'], ['7'], ['8'], ['9']]

def validate_portable_component (U : UnicodeTables) (component path : Text) : Result Unit := do
  let shown := String.ofList path
  ensure (U.nfc component = component) [s!"仓库路径必须使用 Unicode NFC 规范形式: {shown}"]
  ensure (component.getLast? ≠ some ' ' ∧ component.getLast? ≠ some '.')
    [s!"仓库路径组件不能以空格或句点结尾: {shown}"]
  ensure (component.any is_non_portable = false) [s!"仓库路径包含跨平台不支持的字符: {shown}"]
  ensure (is_device_name is_device_number component = false) [s!"仓库路径使用 Windows 保留设备名: {shown}"]

def validate_repository_path (U : UnicodeTables) (path : Text) : Result Unit := do
  let shown := String.ofList path
  ensure (path ≠ []) ["仓库文件路径不能为空"]
  ensure (path.head? ≠ some '/') [s!"仓库文件路径不能是绝对路径: {shown}"]
  ensure ('\\' ∉ path) [s!"仓库文件路径必须使用 `/` 分隔: {shown}"]
  ensure ('\u0000' ∉ path) [s!"仓库文件路径包含 NUL: {shown}"]
  (split '/' path).forM fun component => do
    ensure (component ≠ [] ∧ component ≠ ['.'] ∧ component ≠ ['.', '.']) [s!"仓库文件路径未规范化: {shown}"]
    ensure (is_neoengram_dir_name component = false) [s!"不能记录 NeoEngram 内部路径: {shown}"]
    validate_portable_component U component path

/-- The key of the local checks: composed, then every character in lower case. -/
def portable_path_key (U : UnicodeTables) (path : Text) : PortableKey :=
  ⟨joined '/' ((split '/' path).map fun component => (U.nfc component).flatMap U.to_lowercase)⟩

/-! ## File lists -/

/-- The chunk loop of `validate_files`: the offset after the last chunk. -/
def validate_file_chunks (path : Text) (expected_offset : UInt64) : List Chunk → Result UInt64
  | [] => .ok expected_offset
  | chunk :: chunks => do
    ensure (0 < chunk.size) [s!"Chunk 大小必须大于零: {chunk.object_id}"]
    ensure (chunk.offset = expected_offset) [s!"文件 {String.ofList path} 的 Chunk 偏移不连续"]
    let expected_offset ← ok_or (checked_add expected_offset chunk.size) ["累计 Chunk 大小溢出"]
    validate_file_chunks path expected_offset chunks

/-- A WholeFile file is empty or one chunk that covers it. -/
def is_whole_file (file : WorkspaceFileRecord) : Prop :=
  (file.total_size = 0 ∧ file.chunks = []) ∨
    (0 < file.total_size ∧ ∃ chunk, file.chunks = [chunk] ∧ chunk.offset = 0 ∧
      chunk.size = file.total_size)

instance (file : WorkspaceFileRecord) : Decidable (is_whole_file file) :=
  match h : file.chunks with
  | [] => decidable_of_iff (file.total_size = 0) (by simp [is_whole_file, h])
  | [chunk] => decidable_of_iff
      (0 < file.total_size ∧ chunk.offset = 0 ∧ chunk.size = file.total_size)
      (by simp [is_whole_file, h])
  | _ :: _ :: _ => .isFalse (by simp [is_whole_file, h])

/-- The loop of `validate_files`, after `previous_path` and with the portable keys so far. -/
def validate_files_from (U : UnicodeTables) (previous_path : Option Text)
    (portable_paths : Std.ExtTreeSet PortableKey) : List WorkspaceFileRecord → Result Unit
  | [] => .ok ()
  | file :: files => do
    let shown := String.ofList file.path
    validate_repository_path U file.path
    ensure (previous_path.all (· < file.path)) [s!"文件路径必须严格升序且唯一: {shown}"]
    let portable_path := portable_path_key U file.path
    validate_next_key [s!"Directory 包含跨平台大小写冲突的路径: {shown}"]
      [s!"Directory 同时包含文件及其子路径: {shown}"] portable_paths portable_path
    let expected_offset ← validate_file_chunks file.path 0 file.chunks
    ensure (expected_offset = file.total_size) [s!"文件 {shown} 的 Chunk 总大小与文件大小不一致"]
    ensure (file.chunking = .WholeFile → is_whole_file file)
      [s!"WholeFile 文件 {shown} 必须由单个完整文件 Chunk 组成"]
    validate_files_from U (some file.path) (portable_paths.insert portable_path) files

def validate_files (U : UnicodeTables) (files : List WorkspaceFileRecord) : Result Unit :=
  validate_files_from U none ∅ files

def validate_index (U : UnicodeTables) (index : WorkspaceIndex) : Result Unit := do
  ensure (index.format_version = WORKSPACE_INDEX_FORMAT_VERSION)
    [s!"不支持的 index 格式版本 {index.format_version}（当前支持 {WORKSPACE_INDEX_FORMAT_VERSION}）"]
  validate_files U index.files

/-! ## Chunking policies -/

inductive ChunkingPolicy where
  | FastCdc
  | WholeFile
  | Mixed
  deriving DecidableEq, Repr

namespace ChunkingPolicy

def fixed_strategy : ChunkingPolicy → Option ChunkingStrategy
  | FastCdc => some .FastCdc
  | WholeFile => some .WholeFile
  | Mixed => none

def as_str : ChunkingPolicy → String
  | FastCdc => "fastcdc"
  | WholeFile => "whole-file"
  | Mixed => "mixed"

end ChunkingPolicy

def validate_chunking_strategy (policy : ChunkingPolicy) (strategy : ChunkingStrategy) :
    Result Unit :=
  match policy with
  | .Mixed => .ok ()
  | policy => ensure (policy.fixed_strategy = some strategy)
      [s!"Manifest 分块策略与仓库固定策略 {policy.as_str} 不一致"]

def validate_chunking_files (policy : ChunkingPolicy) (files : List WorkspaceFileRecord) :
    Result Unit :=
  files.forM fun file =>
    with_context s!"文件分块策略不符合仓库配置: {String.ofList file.path}"
      (validate_chunking_strategy policy file.chunking)

def validate_index_snapshot (U : UnicodeTables) (policy : ChunkingPolicy)
    (index : WorkspaceIndex) : Result Unit := do
  validate_index U index
  validate_chunking_files policy index.files

/-! ## The identity of a file list -/

abbrev HashNode := Node Text (ManifestId × UInt64)

/-- A Directory that is being hashed: the ordered map of its children. -/
abbrev HashDirectory := Tree Text (ManifestId × UInt64)

def hash_insert_errors (path : Text) : Tree.InsertErrors ErrorChain where
  empty := ["Directory 路径不能为空"]
  taken := [s!"Directory 路径重复: {String.ofList path}"]
  blocked := [s!"Directory 同时包含文件及其子路径: {String.ofList path}"]

def insert_hash_file (directory : HashDirectory) (path : Text) (manifest_id : ManifestId)
    (total_size : UInt64) : Result HashDirectory :=
  Tree.insert (hash_insert_errors path) (manifest_id, total_size) (split '/' path) directory

mutual

def hash_node (U : UnicodeTables) (blake3 : Blake3) :
    HashNode → Result (DirectoryEntryKind × ContentDigest × UInt64)
  | .leaf (manifest_id, total_size) => return (.File, manifest_id.digest, total_size)
  | .branch child => do
    let hasher ← hash_entries U blake3 0 child .new
    return (.Directory, (hasher.finish blake3).digest, 0)

/-- The loop of `hash_directory`, from position `ordinal` on. -/
def hash_entries (U : UnicodeTables) (blake3 : Blake3) (ordinal : Nat) :
    HashDirectory → DirectoryHasher U → Result (DirectoryHasher U)
  | .nil, hasher => return hasher
  | .cons name node rest, hasher => do
    let (kind, target_id, total_size) ← hash_node U blake3 node
    let position ← ok_or (u64_try_from ordinal) ["Directory ordinal 超出 u64"]
    let hasher ← push_entry hasher ⟨position, name, kind, target_id, total_size⟩
    hash_entries U blake3 (ordinal + 1) rest hasher

end

def hash_directory (U : UnicodeTables) (blake3 : Blake3) (directory : HashDirectory) :
    Result DirectoryId := do
  let hasher ← hash_entries U blake3 0 directory .new
  return hasher.finish blake3

/-- One round of the loop of `directory_id_for_files`. -/
def add_hash_file (blake3 : Blake3) (root : HashDirectory) (file : WorkspaceFileRecord) :
    Result HashDirectory := do
  let manifest ← describe_manifest blake3 file.total_size file.chunking file.chunks
  insert_hash_file root file.path manifest.id file.total_size

def directory_id_for_files (U : UnicodeTables) (blake3 : Blake3)
    (files : List WorkspaceFileRecord) : Result DirectoryId := do
  let root ← files.foldlM (add_hash_file blake3) .nil
  hash_directory U blake3 root

def directory_id (U : UnicodeTables) (blake3 : Blake3) (policy : ChunkingPolicy)
    (files : List WorkspaceFileRecord) : Result DirectoryId := do
  validate_files U files
  validate_chunking_files policy files
  directory_id_for_files U blake3 files

end NeoEngram.Local

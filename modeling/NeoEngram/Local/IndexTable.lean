import NeoEngram.Framework.Paging
import NeoEngram.Local.History

/-! # Index transactions

The Index of a workspace is a table of file rows next to a header with a
revision, a row count and a digest. A change is collected in a
`SqliteIndexTxn`: the deleted subtrees and the upserted files, over a base
snapshot that stays fixed. This file embeds its paged reads, `get_file`,
`upsert_file`, `delete_prefix` and `commit` from `metadata/sqlite.rs`.

The rows of one workspace are a map from path to row. The `BINARY` order of
a text column is the order of its characters.
-/

namespace NeoEngram.Local

open Checks
open Std (ExtTreeMap)
open OrderedKeys (values)
open Paging (pop_last)

/-! ## The table -/

/-- The 16 bytes of a workspace id, as a number. -/
abbrev WorkspaceId := Fin (2 ^ 128)

instance instNeZeroWorkspaceId : NeZero (2 ^ 128) := inferInstance

instance : Std.TransOrd WorkspaceId := inferInstance

abbrev ManifestTable := ExtTreeMap ManifestId ManifestRow

/-- The columns of `workspace_index_files` beside its key. -/
structure IndexRow where
  (total_size chunk_count : UInt64)
  manifest_id : ManifestId
  record_digest : ContentDigest
  deriving DecidableEq

/-- Maps from texts, in their order as texts. -/
abbrev TextMap (ν : Type) := ExtTreeMap Text ν (@compare Text LinearOrder.toOrd)

abbrev IndexRows := TextMap IndexRow

def file_from_row (path : Text) (row : IndexRow) : FileRecord where
  path := path
  total_size := row.total_size
  chunk_count := row.chunk_count
  manifest_id := row.manifest_id

/-- The Index columns of a workspace and its file rows. -/
structure IndexTable where
  format : UInt32
  (revision count : UInt64)
  digest : ContentDigest
  files : IndexRows

/-- The part of the database that Index transactions read and write. -/
structure Database where
  manifests : ManifestTable
  workspaces : ExtTreeMap WorkspaceId IndexTable

structure StoredIndexState where
  format : UInt32
  (revision count : UInt64)
  version : IndexVersion

def read_index_state (db : Database) (workspace_id : WorkspaceId) : Result StoredIndexState := do
  let table ← ok_or db.workspaces[workspace_id]?
    ["无法读取 SQLite WorkspaceIndex 状态", "Query returned no rows"]
  ensure (table.format = WORKSPACE_INDEX_FORMAT_VERSION)
    [s!"不支持的 WorkspaceIndex 格式版本 {table.format}（当前支持 {WORKSPACE_INDEX_FORMAT_VERSION}）"]
  return ⟨table.format, table.revision, table.count, ⟨table.revision, table.digest⟩⟩

/-- A transaction keeps the database as it was when it fails. -/
def run_immediate {α : Type} (operation : Database → Result (α × Database)) (db : Database) :
    Result α × Database :=
  match operation db with
  | .ok (value, db') => (.ok value, db')
  | .error error => (.error error, db)

/-! ## Paged reads -/

/-- A page request; the page size is not zero. -/
structure FilePageRequest where
  after : Option Text
  limit : UInt32
  limit_pos : 0 < limit

structure FilePage where
  items : List FileRecord
  next : Option Text
  deriving DecidableEq

def FilePageRequest.limit_usize (self : FilePageRequest) : Result Nat := do
  ensure (self.limit ≤ MAX_PAGE_SIZE) [s!"分页大小不能超过 {MAX_PAGE_SIZE}: {self.limit}"]
  return self.limit.toNat

def FilePageRequest.largest (after : Option Text) : FilePageRequest :=
  ⟨after, MAX_PAGE_SIZE, by decide⟩

/-- `path` is `front` or below it; everything is below the empty text. -/
def path_is_in_scope (path front : Text) : Bool :=
  front.isEmpty || path = front
    || (strip_front front path).any fun suffix => suffix.head? = some '/'

def descendant_bounds (front : Text) : Text × Text := (front ++ ['/'], front ++ ['0'])

def matches_scope (front path : Text) : Bool :=
  path = front || ((descendant_bounds front).1 ≤ path && path < (descendant_bounds front).2)

/-- The rows of a query, in the order of their paths. -/
def select_files (files : IndexRows) (after scope : Option Text) : List FileRecord :=
  (files.toList.map fun row => file_from_row row.1 row.2).filter fun file =>
    after.all (· < file.path) &&
      (scope.filter fun front => !front.isEmpty).all fun front => matches_scope front file.path

/-- A list with one element too many makes a page that has a successor. -/
def page_of_retained (limit : Nat) (retained : List FileRecord) : FilePage :=
  if limit < retained.length then
    ⟨retained.dropLast, retained.dropLast.getLast?.map (·.path)⟩
  else ⟨retained, none⟩

def scan_files_from_table (files : IndexRows) (scope : Option Text) (request : FilePageRequest) :
    Result FilePage := do
  let limit ← request.limit_usize
  let retained_limit := limit + 1
  return page_of_retained limit ((select_files files request.after scope).take retained_limit)

/-! ## Transactions -/

structure SqliteIndexTxn where
  workspace_id : WorkspaceId
  /-- The file rows of the fixed read snapshot. -/
  base : IndexRows
  state : StoredIndexState
  deleted_prefixes : List Text
  upserts : TextMap FileRecord

def begin_index_transaction (db : Database) (workspace_id : WorkspaceId)
    (expected : Option IndexVersion) : Result SqliteIndexTxn := do
  let state ← read_index_state db workspace_id
  ensure (expected.all (state.version = ·)) ["WorkspaceIndex 已被其他操作更新，无法基于旧版本提交"]
  let base := (db.workspaces[workspace_id]?.map (·.files)).getD ∅
  return ⟨workspace_id, base, state, [], ∅⟩

namespace SqliteIndexTxn

def base_file_deleted (self : SqliteIndexTxn) (path : Text) : Bool :=
  self.deleted_prefixes.any (path_is_in_scope path)

/-- The first loop of `scan_current_files`: upserts in path order, until enough are retained. -/
def retain_upserts (retained_limit : Nat) :
    List FileRecord → TextMap FileRecord → TextMap FileRecord
  | [], retained => retained
  | file :: files, retained =>
    let retained := retained.insert file.path file
    if retained.size = retained_limit then retained
    else retain_upserts retained_limit files retained

/-- One round of the inner loop over a page of the base. -/
def retain_base_file (self : SqliteIndexTxn) (retained_limit : Nat)
    (retained : TextMap FileRecord) (file : FileRecord) : TextMap FileRecord :=
  if self.base_file_deleted file.path || self.upserts.contains file.path then retained
  else
    let retained := retained.insert file.path file
    if retained_limit < retained.size then pop_last retained else retained

/-- The second loop: pages of the base up to the end of what is retained. `rounds` bounds the pages.
-/
def retain_base (self : SqliteIndexTxn) (scope : Option Text) (retained_limit : Nat) :
    Nat → FilePageRequest → TextMap FileRecord → Result (TextMap FileRecord)
  | 0, _, _ => .error ["page bound of the model exceeded"]
  | rounds + 1, base_request, retained => do
    let page ← scan_files_from_table self.base scope base_request
    let last_scanned := page.items.getLast?.map (·.path)
    let retained := page.items.foldl (self.retain_base_file retained_limit) retained
    let passed_retained_end := retained_limit ≤ retained.size ∧
      last_scanned.any fun last_scanned => retained.maxKey?.any (· ≤ last_scanned)
    if page.next = none ∨ passed_retained_end then return retained
    else
      retain_base self scope retained_limit rounds { base_request with after := page.next } retained

def scan_current_files (self : SqliteIndexTxn) (scope : Option Text) (request : FilePageRequest) :
    Result FilePage := do
  let limit ← request.limit_usize
  let retained_limit := limit + 1
  let candidates := (values self.upserts).filter fun file =>
    request.after.all (· < file.path) && scope.all (path_is_in_scope file.path)
  let retained := retain_upserts retained_limit candidates ∅
  let retained ← self.retain_base scope retained_limit (self.base.size + 1)
    (.largest request.after) retained
  return page_of_retained limit (values retained)

def get_file (self : SqliteIndexTxn) (path : Text) : Option FileRecord :=
  match self.upserts[path]? with
  | some file => some file
  | none =>
    if self.base_file_deleted path then none
    else self.base[path]?.map (file_from_row path)

/-- The record's sizes agree with each other and fit the columns. -/
def validate_file_record (file : FileRecord) : Result Unit := do
  ensure ((file.total_size = 0) ↔ (file.chunk_count = 0))
    [s!"文件 {String.ofList file.path} 的大小与 Chunk 数量不一致"]
  encode_u64 file.total_size "文件大小"
  encode_u64 file.chunk_count "文件 Chunk 数量"

def validate_stored_file_record (manifests : ManifestTable) (file : FileRecord) : Result Unit := do
  validate_file_record file
  let stored ← ok_or manifests[file.manifest_id]? [s!"Manifest 不存在: {file.manifest_id}"]
  ensure (stored.total_size = file.total_size) [s!"文件 {String.ofList file.path} 的大小与 Manifest 不一致"]
  ensure (stored.chunk_count = file.chunk_count)
    [s!"文件 {String.ofList file.path} 的 Chunk 数量与 Manifest 不一致"]

/-- The manifests are those published when the call is made. -/
def upsert_file (self : SqliteIndexTxn) (manifests : ManifestTable) (file : FileRecord) :
    Result SqliteIndexTxn := do
  validate_stored_file_record manifests file
  return { self with upserts := self.upserts.insert file.path file }

/-- The counting loop of `delete_prefix`. -/
def count_files (self : SqliteIndexTxn) (scope : Text) :
    Nat → FilePageRequest → UInt64 → Result UInt64
  | 0, _, _ => .error ["page bound of the model exceeded"]
  | rounds + 1, request, deleted => do
    let page ← self.scan_current_files (some scope) request
    let length ← ok_or (u64_try_from page.items.length) ["WorkspaceIndex 删除计数超出 u64"]
    let deleted ← ok_or (checked_add deleted length) ["WorkspaceIndex 删除计数溢出"]
    match page.next with
    | none => return deleted
    | some next => count_files self scope rounds { request with after := some next } deleted

def delete_prefix (self : SqliteIndexTxn) (scope : Text) : Result (UInt64 × SqliteIndexTxn) := do
  let deleted ← self.count_files scope (self.base.size + self.upserts.size + 1) (.largest none) 0
  let upserts := self.upserts.filter fun path _ => !path_is_in_scope path scope
  let deleted_prefixes :=
    if self.deleted_prefixes.any (path_is_in_scope scope) then self.deleted_prefixes
    else self.deleted_prefixes.filter (fun existing => !path_is_in_scope existing scope) ++ [scope]
  return (deleted, { self with upserts, deleted_prefixes })

end SqliteIndexTxn

/-! ## Commit -/

/-- Deletes the rows in scope and subtracts them from the count. -/
def apply_index_delete (rows : IndexRows × UInt64) (scope : Text) :
    Result (IndexRows × UInt64) := do
  let kept := if scope.isEmpty then ∅ else rows.1.filter fun path _ => !matches_scope scope path
  let removed ← ok_or (u64_try_from (rows.1.size - kept.size)) ["WorkspaceIndex 删除计数超出 u64"]
  let count ← ok_or (checked_sub rows.2 removed) ["WorkspaceIndex 文件数量下溢"]
  return (kept, count)

def stored_record_digest (U : UnicodeTables) (blake3 : Blake3) (file : FileRecord) :
    Result ContentDigest := do
  let record ← core_file_record U file
  of_core (index_record_digest blake3 record)

def count_with (rows : IndexRows × UInt64) (path : Text) : Result UInt64 :=
  if rows.1.contains path then .ok rows.2
  else ok_or (checked_add rows.2 1) ["WorkspaceIndex 文件数量溢出"]

/-- Writes the row of a file. The row refers to a Manifest with its sizes, which the schema
checks. -/
def apply_index_upsert (U : UnicodeTables) (blake3 : Blake3) (manifests : ManifestTable)
    (rows : IndexRows × UInt64) (file : FileRecord) : Result (IndexRows × UInt64) := do
  SqliteIndexTxn.validate_file_record file
  let count ← count_with rows file.path
  let digest ← stored_record_digest U blake3 file
  ensure (manifests[file.manifest_id]?.any fun stored =>
      stored.total_size = file.total_size ∧ stored.chunk_count = file.chunk_count)
    ["FOREIGN KEY constraint failed"]
  let row : IndexRow := ⟨file.total_size, file.chunk_count, file.manifest_id, digest⟩
  return (rows.1.insert file.path row, count)

def push_row {U : UnicodeTables} (hasher : IndexSnapshotHasher U) (row : Text × IndexRow) :
    Result (IndexSnapshotHasher U) := do
  let record ← core_file_record U (file_from_row row.1 row.2)
  of_core (hasher.push record)

/-- The number and the version of the rows, read in path order. -/
def calculate_index_version (U : UnicodeTables) (blake3 : Blake3) (files : IndexRows)
    (revision : UInt64) : Result (UInt64 × IndexVersion) := do
  let hasher ← files.toList.foldlM push_row (IndexSnapshotHasher.new (U := U))
  return (hasher.record_count, ⟨revision, hasher.finish blake3⟩)

/-- What `commit` runs under the writer lock. -/
def SqliteIndexTxn.write_index (U : UnicodeTables) (blake3 : Blake3) (self : SqliteIndexTxn)
    (db : Database) : Result (IndexVersion × Database) := do
  let current ← read_index_state db self.workspace_id
  ensure (current.version = self.state.version) ["WorkspaceIndex 在事务执行期间被其他操作更新"]
  let files := (db.workspaces[self.workspace_id]?.map (·.files)).getD ∅
  let rows ← self.deleted_prefixes.foldlM apply_index_delete (files, current.count)
  let (files, count) ← (values self.upserts).foldlM (apply_index_upsert U blake3 db.manifests) rows
  let revision ← ok_or (checked_add current.revision 1) ["WorkspaceIndex revision 溢出"]
  let (canonical_count, version) ← calculate_index_version U blake3 files revision
  ensure (canonical_count = count) ["WorkspaceIndex 文件数量与规范 snapshot 不一致"]
  encode_u64 revision "WorkspaceIndex revision"
  encode_u64 count "WorkspaceIndex 文件数量"
  let table : IndexTable := ⟨current.format, revision, count, version.digest, files⟩
  return (version, { db with workspaces := db.workspaces.insert self.workspace_id table })

def SqliteIndexTxn.commit (U : UnicodeTables) (blake3 : Blake3) (self : SqliteIndexTxn)
    (db : Database) : Result IndexVersion × Database :=
  run_immediate (self.write_index U blake3) db

end NeoEngram.Local

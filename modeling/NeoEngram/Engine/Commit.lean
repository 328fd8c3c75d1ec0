import NeoEngram.Framework.Trees
import NeoEngram.Core.Canonical
import NeoEngram.Engine.Ports

/-! # Building a Commit graph

`build_commit_graph` reads an Index snapshot page by page, arranges its
files in a tree of pending Directories, and seals the tree bottom-up, equal
Directories once. `publish_commit` checks a graph again before it hands it to a
publisher. This file embeds both functions of `commit.rs`.
-/

namespace NeoEngram

open Checks Trees

variable {U : UnicodeTables}

/-! ## Requests and results -/

structure BuildCommitGraphRequest where
  expected_index_version : IndexVersion
  parent : Option CommitId
  message : Text
  created_at_unix_ms : UInt64

structure DirectoryObject (U : UnicodeTables) where
  id : DirectoryId
  directory : Directory U
  deriving DecidableEq

/-- A graph candidate; its Directories come child-first and without repetition. -/
structure BuildCommitGraphResult (U : UnicodeTables) where
  source_index_version : IndexVersion
  directories : List (DirectoryObject U)
  commit_id : CommitId
  commit : Commit
  file_count : UInt64
  deriving DecidableEq

structure PublishCommitRequest (U : UnicodeTables) where
  graph : BuildCommitGraphResult U
  expected_parent : Option CommitId

/-! ## Pending Directories -/

/-- A child of a Directory that is still being filled: a file, by its Manifest and size, or
another Directory. -/
abbrev PendingEntry (U : UnicodeTables) := Node (PathComponent U) (ManifestId × UInt64)

/-- A Directory that is still being filled: the ordered map of its children by name. -/
abbrev PendingDirectory (U : UnicodeTables) := Tree (PathComponent U) (ManifestId × UInt64)

@[match_pattern]
abbrev PendingEntry.File (manifest_id : ManifestId) (total_size : UInt64) : PendingEntry U :=
  .leaf (manifest_id, total_size)

@[match_pattern]
abbrev PendingEntry.Directory (directory : PendingDirectory U) : PendingEntry U := .branch directory

namespace PendingDirectory

def INSERT_ERRORS : Tree.InsertErrors EngineError where
  empty := ⟨.InvalidPath, "Index contains an empty logical path", []⟩
  taken := ⟨.IntegrityViolation, "Index contains a duplicate or prefix-conflicting path", []⟩
  blocked := ⟨.IntegrityViolation, "Index file path is also an ancestor of another path", []⟩

/-- Places the file at the given components, creating the Directories on the way. -/
def insert_components (self : PendingDirectory U) (components : List (PathComponent U))
    (file : FileRecord U) : EngineResult (PendingDirectory U) :=
  Tree.insert INSERT_ERRORS (file.manifest_id, file.total_size) components self

def insert (self : PendingDirectory U) (file : FileRecord U) :
    EngineResult (PendingDirectory U) := do
  let components ← lift_core (file.path.components.mapM (PathComponent.parse U))
  insert_components self components file

end PendingDirectory

/-! ## Sealing -/

/-- What sealing collects: the Directories in output order, and the same by identity. -/
structure Sealed (U : UnicodeTables) where
  output : List (DirectoryObject U)
  published : Std.ExtTreeMap DirectoryId (Directory U)

/-- The end of `seal`: the Directory gets its identity, and is put out unless an equal one was
before. -/
def publish_directory (blake3 : Blake3) (entries : List (DirectoryEntry U)) (out : Sealed U) :
    EngineResult (DirectoryId × Sealed U) := do
  let directory ← lift_core (Directory.new entries)
  let id ← lift_core (directory_id blake3 directory)
  match out.published[id]? with
  | some existing =>
    ensure (existing = directory) ⟨.IntegrityViolation, "canonical Directory ID collision", []⟩
    return (id, out)
  | none =>
    return (id, ⟨out.output ++ [⟨id, directory⟩], out.published.insert id directory⟩)

mutual

def PendingEntry.seal (blake3 : Blake3) (ordinal : UInt64) (name : PathComponent U) :
    PendingEntry U → Sealed U → EngineResult (DirectoryEntry U × Sealed U)
  | .File manifest_id total_size, out =>
    return (DirectoryEntry.file ordinal name manifest_id total_size, out)
  | .Directory directory, out => do
    let (entries, out) ← PendingDirectory.seal_entries blake3 0 directory out
    let (id, out) ← publish_directory blake3 entries out
    return (DirectoryEntry.directory ordinal name id, out)

/-- The loop of `seal` over the entries of one Directory, from position `ordinal` on. -/
def PendingDirectory.seal_entries (blake3 : Blake3) (ordinal : Nat) :
    PendingDirectory U → Sealed U → EngineResult (List (DirectoryEntry U) × Sealed U)
  | .nil, out => return ([], out)
  | .cons name entry rest, out => do
    let position ← ok_or (u64_try_from ordinal)
      ⟨.Internal, "Directory entry count exceeds u64", []⟩
    let (sealed_entry, out) ← PendingEntry.seal blake3 position name entry out
    let (entries, out) ← PendingDirectory.seal_entries blake3 (ordinal + 1) rest out
    return (sealed_entry :: entries, out)

end

def PendingDirectory.seal (blake3 : Blake3) (self : PendingDirectory U) (out : Sealed U) :
    EngineResult (DirectoryId × Sealed U) := do
  let (entries, out) ← self.seal_entries blake3 0 out
  publish_directory blake3 entries out

/-! ## Building -/

/-- The paging loop. `rounds` bounds the pages, since a reader may go on forever with advancing
cursors. -/
def read_pages (index : IndexSnapshotReader U) (progress : ProgressSink U) :
    Nat → PageRequest → List (FileRecord U) → EngineResult (List (FileRecord U))
  | 0, _, _ => .error ⟨.Internal, "page bound of the model exceeded", []⟩
  | rounds + 1, page_request, files => do
    let page ← index.scan_files none page_request
    ensure (page.items.length ≤ page_request.limit.toNat)
      ⟨.IntegrityViolation, "Index reader returned more records than requested", []⟩
    let files := files ++ page.items
    let count ← ok_or (u64_try_from files.length) ⟨.Internal, "Index file count exceeds u64", []⟩
    progress { phase := .BuildingCandidate, unit := .Files, completed := count }
    match page.next with
    | none => return files
    | some next => do
      ensure (page_request.after ≠ some next)
        ⟨.IntegrityViolation, "Index reader returned a non-advancing cursor", []⟩
      let page_request ← PageRequest.new (some next) MAX_PAGE_SIZE
      read_pages index progress rounds page_request files

def build_commit_graph (blake3 : Blake3) (rounds : Nat) (request : BuildCommitGraphRequest)
    (index : IndexSnapshotReader U) (progress : ProgressSink U) :
    EngineResult (BuildCommitGraphResult U) := do
  ensure (index.version = request.expected_index_version)
    ⟨.IndexVersionMismatch, "Index snapshot does not match the requested Commit base",
      [("expected_revision", toString request.expected_index_version.revision),
        ("actual_revision", toString index.version.revision)]⟩
  let page_request ← PageRequest.new none MAX_PAGE_SIZE
  let files ← read_pages index progress rounds page_request []
  lift_core (validate_index_snapshot files)
  let file_count ← ok_or (u64_try_from files.length)
    ⟨.Internal, "Index file count exceeds u64", []⟩
  let root ← files.foldlM PendingDirectory.insert .nil
  let (root_directory_id, out) ← root.seal blake3 ⟨[], ∅⟩
  let commit ← lift_core (Commit.new root_directory_id request.parent request.message
    request.created_at_unix_ms)
  let commit_id ← lift_core (commit_id blake3 commit)
  progress { phase := .Prepared, unit := .Files, completed := file_count }
  return ⟨request.expected_index_version, out.output, commit_id, commit, file_count⟩

/-! ## Publishing -/

/-- The loop of `publish_commit` that checks each Directory and collects the identities. -/
def collect_directory_ids (blake3 : Blake3) (directory_ids : Std.ExtTreeSet DirectoryId) :
    List (DirectoryObject U) → EngineResult (Std.ExtTreeSet DirectoryId)
  | [] => .ok directory_ids
  | object :: objects => do
    lift_core object.directory.validate
    let id ← lift_core (directory_id blake3 object.directory)
    ensure (id = object.id)
      ⟨.IntegrityViolation, "Directory graph object does not match its canonical ID",
        [("directory_id", toString object.id)]⟩
    ensure (object.id ∉ directory_ids)
      ⟨.IntegrityViolation, "Commit graph contains a duplicate Directory object",
        [("directory_id", toString object.id)]⟩
    collect_directory_ids blake3 (directory_ids.insert object.id) objects

/-- What `publish_commit` checks before it calls the publisher. -/
def validate_publication (blake3 : Blake3) (request : PublishCommitRequest U) :
    EngineResult Unit := do
  let graph := request.graph
  lift_core graph.commit.validate
  let id ← lift_core (commit_id blake3 graph.commit)
  ensure (id = graph.commit_id)
    ⟨.IntegrityViolation, "Commit graph ID does not match its canonical Commit", []⟩
  ensure (graph.commit.parent = request.expected_parent)
    ⟨.Conflict, "Commit graph parent does not match publication precondition", []⟩
  let directory_ids ← collect_directory_ids blake3 ∅ graph.directories
  ensure (graph.commit.root_directory_id ∈ directory_ids)
    ⟨.IntegrityViolation, "Commit graph does not contain its canonical root Directory", []⟩
  graph.directories.forM fun object => object.directory.entries.forM fun entry =>
    match entry.target_id with
    | .Directory child_id =>
      ensure (child_id ∈ directory_ids)
        ⟨.IntegrityViolation, "Commit graph references an absent child Directory",
          [("directory_id", toString child_id)]⟩
    | .Manifest _ => .ok ()

end NeoEngram

import NeoEngram.Central.Job

/-! # Differences of Index snapshots

Two canonical snapshots are compared in one pass. A path of the base only is
deleted, one of the candidate only is added. One added and one deleted file
with the same content are a rename, if no other added or deleted file has that
content.
-/

namespace NeoEngram.Central

open Checks OrderedKeys List UInt64

variable {U : UnicodeTables}

def conflict (message : String) : CentralError :=
  (CentralError.new .ConcurrentUpdate message).with_retryable false

def protocol_invalid (message : String) : CentralError :=
  (CentralError.new .ProtocolInvalid message).with_retryable false

structure CommitDiffSummary where
  files_added : UInt64 := 0
  files_modified : UInt64 := 0
  files_deleted : UInt64 := 0
  files_renamed : UInt64 := 0
  bytes_added : UInt64 := 0
  bytes_removed : UInt64 := 0
  deriving DecidableEq, Repr

inductive IndexSnapshotChangeKind where
  | Added
  | Modified
  | Deleted
  | Renamed
  deriving DecidableEq, Repr

structure IndexSnapshotChange (U : UnicodeTables) where
  kind : IndexSnapshotChangeKind
  path : LogicalPath U
  previous_path : Option (LogicalPath U)
  (old_size new_size : Option UInt64)
  deriving DecidableEq

structure IndexSnapshotDiff (U : UnicodeTables) where
  summary : CommitDiffSummary
  changes : List (IndexSnapshotChange U)
  deriving DecidableEq

/-! ### The pass over both snapshots -/

/-- What the pass has found. -/
structure Compared (U : UnicodeTables) where
  (added deleted : List (FileRecord U))
  changes : List (IndexSnapshotChange U)

def modification (old new : FileRecord U) : IndexSnapshotChange U :=
  ⟨.Modified, new.path, none, some old.total_size, some new.total_size⟩

/-- The `while` loop over the rest of the two snapshots. The number of records bounds the rounds. -/
def compare_snapshots : Nat → List (FileRecord U) → List (FileRecord U) → Compared U → Compared U
  | rounds + 1, old :: base, new :: candidate, found =>
    match compare old.path new.path with
    | .lt =>
      compare_snapshots rounds base (new :: candidate)
        { found with deleted := found.deleted ++ [old] }
    | .gt =>
      compare_snapshots rounds (old :: base) candidate { found with added := found.added ++ [new] }
    | .eq =>
      compare_snapshots rounds base candidate
        (if old ≠ new then { found with changes := found.changes ++ [modification old new] }
          else found)
  | rounds + 1, old :: base, [], found =>
    compare_snapshots rounds base [] { found with deleted := found.deleted ++ [old] }
  | rounds + 1, [], new :: candidate, found =>
    compare_snapshots rounds [] candidate { found with added := found.added ++ [new] }
  | _, _, _, found => found

/-! ### Renames -/

/-- The immutable content of a file. -/
def content_identity (record : FileRecord U) : ManifestId × UInt64 × UInt64 :=
  (record.manifest_id, record.total_size, record.chunk_count)

def only_with_content (records : List (FileRecord U)) (identity : ManifestId × UInt64 × UInt64) :
    Option (FileRecord U) :=
  match records.filter (content_identity · = identity) with
  | [record] => some record
  | _ => none

/-- The added and the deleted file that are one rename. -/
def renamed (added deleted : List (FileRecord U)) (identity : ManifestId × UInt64 × UInt64) :
    Option (FileRecord U × FileRecord U) := do
  let new ← only_with_content added identity
  let old ← only_with_content deleted identity
  return (new, old)

def addition (added deleted : List (FileRecord U)) (record : FileRecord U) :
    IndexSnapshotChange U :=
  match renamed added deleted (content_identity record) with
  | some (_, previous) =>
    ⟨.Renamed, record.path, some previous.path, some previous.total_size, some record.total_size⟩
  | none => ⟨.Added, record.path, none, none, some record.total_size⟩

def deletion (added deleted : List (FileRecord U)) (record : FileRecord U) :
    Option (IndexSnapshotChange U) :=
  match renamed added deleted (content_identity record) with
  | some _ => none
  | none => some ⟨.Deleted, record.path, none, some record.total_size, none⟩

/-! ### The summary -/

/-- `checked_add` of the summary. -/
def checked_total (left right : UInt64) : CentralResult UInt64 :=
  ok_or (checked_add left right)
    (CentralError.new .InvalidState "Index diff summary exceeds the supported unsigned range")

def count_change (summary : CommitDiffSummary) :
    IndexSnapshotChangeKind → CentralResult CommitDiffSummary
  | .Added => do return { summary with files_added := ← checked_total summary.files_added 1 }
  | .Modified =>
    do return { summary with files_modified := ← checked_total summary.files_modified 1 }
  | .Deleted => do return { summary with files_deleted := ← checked_total summary.files_deleted 1 }
  | .Renamed => do return { summary with files_renamed := ← checked_total summary.files_renamed 1 }

/-- One round of the loop over the changes. -/
def summarize_change (summary : CommitDiffSummary) (change : IndexSnapshotChange U) :
    CentralResult CommitDiffSummary := do
  let summary ← count_change summary change.kind
  let old_size := change.old_size.getD 0
  let new_size := change.new_size.getD 0
  if new_size ≥ old_size then
    return { summary with
      bytes_added := ← checked_total summary.bytes_added (new_size - old_size) }
  else
    return { summary with
      bytes_removed := ← checked_total summary.bytes_removed (old_size - new_size) }

def summarize_index_changes (changes : List (IndexSnapshotChange U)) :
    CentralResult CommitDiffSummary :=
  changes.foldlM summarize_change {}

/-- The changes from one snapshot to another, in the order of their paths. -/
def index_changes (base candidate : List (FileRecord U)) : List (IndexSnapshotChange U) :=
  let found := compare_snapshots (base.length + candidate.length) base candidate ⟨[], [], []⟩
  sort_by_key (·.path) (found.changes ++ found.added.map (addition found.added found.deleted) ++
    found.deleted.filterMap (deletion found.added found.deleted))

def diff_index_snapshots (base candidate : List (FileRecord U)) :
    CentralResult (IndexSnapshotDiff U) := do
  (validate_index_snapshot base).mapError fun error =>
    protocol_invalid s!"base Index snapshot is not canonical: {error.message}"
  (validate_index_snapshot candidate).mapError fun error =>
    protocol_invalid s!"candidate Index snapshot is not canonical: {error.message}"
  let changes := index_changes base candidate
  let summary ← summarize_index_changes changes
  return ⟨summary, changes⟩

/-! ### When a summary exists -/

namespace CommitDiffSummary

def files (summary : CommitDiffSummary) : IndexSnapshotChangeKind → UInt64
  | .Added => summary.files_added
  | .Modified => summary.files_modified
  | .Deleted => summary.files_deleted
  | .Renamed => summary.files_renamed

end CommitDiffSummary

variable {summary summary' : CommitDiffSummary} {change : IndexSnapshotChange U}

/-- The counters of a summary: one for each kind of change, and the bytes added and removed. -/
abbrev Counter := IndexSnapshotChangeKind ⊕ Bool

def CommitDiffSummary.total (summary : CommitDiffSummary) : Counter → Nat
  | .inl kind => (summary.files kind).toNat
  | .inr added => (if added then summary.bytes_added else summary.bytes_removed).toNat

variable {changes : List (IndexSnapshotChange U)}

variable {base candidate : List (FileRecord U)}

end NeoEngram.Central

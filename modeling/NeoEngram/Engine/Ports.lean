import NeoEngram.Framework.Framing
import NeoEngram.Core.Index

/-! # Engine errors and ports

The engine is written against ports: an Index that is read page by page,
a worktree, an object store with a state, and a sink for progress events. A
port is modelled by the results it gives.
-/

namespace NeoEngram

open Checks Framing

variable {U : UnicodeTables}

/-! ### Errors -/

inductive ErrorCode where
  | InvalidArgument
  | InvalidPath
  | ResourceNotFound
  | AlreadyExists
  | Conflict
  | IndexVersionMismatch
  | WorktreeChangedDuringScan
  | LeaseExpired
  | FenceRejected
  | RecoveryRequired
  | IntegrityViolation
  | ObjectMissing
  | ObjectCorrupt
  | StorageUnavailable
  | Io
  | InjectedFailure
  | Internal
  deriving DecidableEq, Repr

/-- An engine error: a category, a message and machine-readable context values. The retry
class is a function of the category. -/
structure EngineError where
  code : ErrorCode
  message : String
  context : List (String × String) := []
  deriving DecidableEq, Repr

abbrev EngineResult (α : Type) := Except EngineError α

/-- A validation error of the core, as the engine reports it. -/
def EngineError.from_validation (error : ValidationError) : EngineError where
  code := if error.kind = .InvalidPath then .InvalidPath else .InvalidArgument
  message := error.message

/-- A core computation inside the engine. -/
def lift_core {α : Type} (x : ValidationResult α) : EngineResult α :=
  x.mapError EngineError.from_validation

@[simp] theorem lift_core_eq_ok {α : Type} {x : ValidationResult α} {a : α} :
    lift_core x = .ok a ↔ x = .ok a :=
  mapError_eq_ok

/-! ### Pages -/

def MAX_PAGE_SIZE : UInt32 := 4096

/-- An opaque, non-empty cursor of the port that emitted it. -/
structure PageCursor where
  text : Text
  nonempty : text ≠ []
  deriving DecidableEq

structure PageRequest where
  after : Option PageCursor
  limit : UInt32
  deriving DecidableEq

def PageRequest.new (after : Option PageCursor) (limit : UInt32) : EngineResult PageRequest := do
  ensure (1 ≤ limit ∧ limit ≤ MAX_PAGE_SIZE)
    ⟨.InvalidArgument, s!"page limit must be in 1..={MAX_PAGE_SIZE}", []⟩
  return ⟨after, limit⟩

@[simp] theorem PageRequest.new_max (after : Option PageCursor) :
    PageRequest.new after MAX_PAGE_SIZE = .ok ⟨after, MAX_PAGE_SIZE⟩ := by
  rfl

structure Page (α : Type) where
  items : List α
  next : Option PageCursor

/-- A consistent snapshot of an Index, read in pages. -/
structure IndexSnapshotReader (U : UnicodeTables) where
  version : IndexVersion
  scan_files : Option (LogicalPath U) → PageRequest → EngineResult (Page (FileRecord U))

/-- `Serves index after pages`: reading on from `after` with the largest page size gives the pages
in turn, each within the limit and followed by an advancing cursor. -/
inductive IndexSnapshotReader.Serves (index : IndexSnapshotReader U) :
    Option PageCursor → List (List (FileRecord U)) → Prop
  | last {after : Option PageCursor} {items : List (FileRecord U)}
      (hscan : index.scan_files none ⟨after, MAX_PAGE_SIZE⟩ = .ok ⟨items, none⟩)
      (hlimit : items.length ≤ MAX_PAGE_SIZE.toNat) : Serves index after [items]
  | more {after : Option PageCursor} {next : PageCursor} {items : List (FileRecord U)}
      {pages : List (List (FileRecord U))}
      (hscan : index.scan_files none ⟨after, MAX_PAGE_SIZE⟩ = .ok ⟨items, some next⟩)
      (hlimit : items.length ≤ MAX_PAGE_SIZE.toNat) (hadvance : after ≠ some next)
      (hrest : Serves index (some next) pages) : Serves index after (items :: pages)

theorem IndexSnapshotReader.Serves.unique {index : IndexSnapshotReader U}
    {after : Option PageCursor} {pages pages' : List (List (FileRecord U))}
    (h : index.Serves after pages) (h' : index.Serves after pages') : pages = pages' := by
  induction h generalizing pages' with
  | last hscan _ =>
    cases h' with
    | last hscan' _ =>
      rw [hscan] at hscan'
      obtain ⟨rfl, -⟩ := Page.mk.inj (Except.ok.inj hscan')
      rfl
    | more hscan' _ _ _ =>
      rw [hscan] at hscan'
      simp at hscan'
  | more hscan _ _ _ ih =>
    cases h' with
    | last hscan' _ =>
      rw [hscan] at hscan'
      simp at hscan'
    | more hscan' _ _ hrest' =>
      rw [hscan] at hscan'
      obtain ⟨rfl, hnext⟩ := Page.mk.inj (Except.ok.inj hscan')
      obtain rfl := Option.some.inj hnext
      rw [ih hrest']

/-! ### Progress -/

inductive ProgressPhase where
  | Preparing
  | Scanning
  | Snapshotting
  | Chunking
  | PublishingObjects
  | BuildingCandidate
  | Prepared
  | Journaling
  | ApplyingMutation
  | Verifying
  | Recovering
  | Completed
  deriving DecidableEq, Repr

inductive ProgressUnit where
  | Items
  | Files
  | Objects
  | Bytes
  | Actions
  deriving DecidableEq, Repr

structure ProgressEvent (U : UnicodeTables) where
  phase : ProgressPhase
  unit : ProgressUnit
  completed : UInt64
  total : Option UInt64 := none
  logical_path : Option (LogicalPath U) := none
  deriving DecidableEq

abbrev ProgressSink (U : UnicodeTables) := ProgressEvent U → EngineResult Unit

/-! ### Object stores -/

inductive ObjectPutOutcome where
  | Created
  | AlreadyPresent
  deriving DecidableEq, Repr

/-! ### Failure injection -/

inductive FailurePoint where
  | BeforeScan
  | AfterScan
  | BeforeObjectPublication
  | AfterObjectPublication
  | BeforeCandidateSeal
  | BeforeJournalPublish
  | BeforeMutation
  | BeforeReceipt
  | Named (name : String)
  deriving DecidableEq, Repr

end NeoEngram

import NeoEngram.Agent.Inventory
import NeoEngram.Framework.Effects

/-! # The lifecycle executor of the Agent

The executor quarantines the trees of a deleted resource, and later restores
or purges them. It keeps a journal file for each deletion and can be killed at
any point. This file translates it to programs that call the `Volume`: the
managed trees, the directories above them, the journal, and the fence that
keeps deliveries of the resource from being mounted.
-/

namespace NeoEngram.Agent

open Checks Effects Framing
open Trees (Node Tree)

/-! ## Commands and the journal -/

inductive AgentResourceLifecycleScope where
  | StorageVolume (storage_volume_id : Text)
  | Artifact (project_id artifact_id storage_volume_id : Text)
  | Workspace (project_id artifact_id workspace_id storage_volume_id : Text)
  | Snapshot (project_id artifact_id snapshot_id storage_volume_id : Text)
  deriving DecidableEq

inductive ResourceLifecycleAction where
  | Quarantine
  | Restore
  | Purge
  deriving DecidableEq

/-- What the commands of one deletion have in common. The roots are the
`canonical_relative_roots` of the scope. -/
structure Deletion (U : UnicodeTables) where
  (deletion_id tenant_id : Text)
  resource_scope : AgentResourceLifecycleScope
  request_digest : ContentDigest
  roots : List (LogicalPath U)

inductive FilesystemLifecycleState where
  | Fenced
  | Quarantining
  | Quarantined
  | Restoring
  | Restored
  | Purging
  | Purged
  deriving DecidableEq, Repr

structure FilesystemRootJournal (U : UnicodeTables) where
  relative_root : LogicalPath U
  was_present : Option Bool
  (quarantine_evidence purge_evidence : Option TreeEvidence)
  deriving DecidableEq

structure FilesystemLifecycleJournal (U : UnicodeTables) where
  format : UInt32
  (deletion_id tenant_id : Text)
  resource_scope : AgentResourceLifecycleScope
  request_digest : ContentDigest
  state : FilesystemLifecycleState
  roots : List (FilesystemRootJournal U)
  deriving DecidableEq

def FILESYSTEM_JOURNAL_FORMAT : UInt32 := 1
def QUARANTINE_DIRECTORY : Text := ".neoengram-quarantine".toList

variable {U : UnicodeTables}

def canonical_relative_roots (U : UnicodeTables) (scope : AgentResourceLifecycleScope)
    (tenant_id : Text) : ValidationResult (List (LogicalPath U)) :=
  let roots : List Text := match scope with
    | .StorageVolume _ => ["objects".toList, "workspaces".toList, "snapshots".toList]
    | .Artifact project_id artifact_id _ =>
      ["objects/tenants/".toList ++ tenant_id ++ "/artifacts/".toList ++ artifact_id,
        "workspaces/".toList ++ project_id ++ '/' :: artifact_id,
        "snapshots/".toList ++ project_id ++ '/' :: artifact_id]
    | .Workspace project_id artifact_id workspace_id _ =>
      ["workspaces/".toList ++ project_id ++ '/' :: artifact_id ++ '/' :: workspace_id]
    | .Snapshot project_id artifact_id snapshot_id _ =>
      ["snapshots/".toList ++ project_id ++ '/' :: artifact_id ++ '/' :: snapshot_id]
  roots.mapM (LogicalPath.parse U)

/-! ## The volume -/

abbrev Location := List Text

def ancestors (location : Location) : List Location :=
  (List.range' 1 (location.length - 1)).map location.take

/-- The part of the volume that the executor works on. The managed trees are not nested. -/
structure Volume (U : UnicodeTables) where
  marker : Text
  directories : Location → Bool
  trees : Location → Option Entry
  journal : Option (FilesystemLifecycleJournal U)
  fence : Bool

inductive Call (U : UnicodeTables) where
  | read_marker
  | load
  | put (journal : FilesystemLifecycleJournal U)
  | resolve (location : Location)
  | is_dir (location : Location)
  | create_dir (location : Location)
  | rename (source destination : Location)
  | remove (location : Location) (path : List FileName)
  | lifecycle_fence
  | lifecycle_restore
  | lifecycle_purge

abbrev Call.Value : Call U → Type
  | .read_marker => Text
  | .load => Option (FilesystemLifecycleJournal U)
  | .resolve _ => Option Entry
  | .is_dir _ => Bool
  | _ => Unit

abbrev Call.Answer (c : Call U) : Type := Except AgentError c.Value

abbrev Program (U : UnicodeTables) (α : Type) := Fallible (Call U) Call.Answer AgentError α

def ask (c : Call U) : Program U c.Value := port c

def lifecycle_io (error : String) : AgentError :=
  ⟨.MountUnavailable, s!"resource lifecycle filesystem operation failed: {error}"⟩

namespace Volume

/-- What is found at a location, if all the directories on the way exist. -/
def resolve (self : Volume U) (location : Location) : Option Entry :=
  if (ancestors location).all self.directories then self.trees location else none

def set_tree (self : Volume U) (location : Location) (entry : Option Entry) : Volume U :=
  { self with trees := Function.update self.trees location entry }

/-- A rename within the volume takes effect at once. -/
def rename (self : Volume U) (source destination : Location) : Except AgentError Unit × Volume U :=
  match self.resolve source, self.resolve destination with
  | none, _ => (.error (lifecycle_io "No such file or directory"), self)
  | some _, some _ => (.error (lifecycle_io "Directory not empty"), self)
  | some entry, none =>
    if (ancestors destination).all self.directories then
      (.ok (), (self.set_tree source none).set_tree destination (some entry))
    else (.error (lifecycle_io "No such file or directory"), self)

/-- Removes the file or the empty directory at a path below a location. -/
def remove (self : Volume U) (location : Location) (path : List FileName) :
    Except AgentError Unit × Volume U :=
  match (self.trees location).bind fun entry => entry.find path with
  | none => (.error (lifecycle_io "No such file or directory"), self)
  | some (.branch (.cons ..)) => (.error (lifecycle_io "Directory not empty"), self)
  | some _ => (.ok (), self.set_tree location
      ((self.trees location).bind fun entry => entry.replace path none))

/-- The answers of a volume. `restores` says whether the deliveries can be restored, given whether
the fence exists. -/
def answer (restores : Bool → Bool) (self : Volume U) : (c : Call U) → c.Answer × Volume U
  | .read_marker => (.ok self.marker, self)
  | .load => (.ok self.journal, self)
  | .put journal => (.ok (), { self with journal := some journal })
  | .resolve location => (.ok (self.resolve location), self)
  | .is_dir location => (.ok (self.directories location), self)
  | .create_dir location =>
    (.ok (), { self with directories := Function.update self.directories location true })
  | .rename source destination => self.rename source destination
  | .remove location path => self.remove location path
  | .lifecycle_fence => (.ok (), { self with fence := true })
  | .lifecycle_restore =>
    if restores self.fence then (.ok (), { self with fence := false })
    else
      (.error (lifecycle_state_error "resource lifecycle restore has no durable no-remount fence"),
        self)
  | .lifecycle_purge => (.ok (), { self with fence := true })

end Volume

/-! ## Journal and paths -/

section Executor

variable (blake3 : Blake3) (expected_volume_marker : Text) (deletion : Deletion U)

def verify_live_volume_marker : Program U Unit := do
  let observed ← ask .read_marker
  checked (ensure (observed = expected_volume_marker)
    (scope_mismatch "managed Volume marker does not match the lifecycle assignment"))

def validate_journal (journal : FilesystemLifecycleJournal U) : AgentResult Unit :=
  ensure (journal.format = FILESYSTEM_JOURNAL_FORMAT ∧
      journal.deletion_id = deletion.deletion_id ∧ journal.tenant_id = deletion.tenant_id ∧
      journal.resource_scope = deletion.resource_scope ∧
      journal.request_digest = deletion.request_digest ∧
      journal.roots.map (·.relative_root) = deletion.roots)
    ⟨.AssignmentMismatch,
      "filesystem lifecycle journal does not match the signed deletion command"⟩

/-- The file is written beside the old one and renamed over it. -/
def put (journal : FilesystemLifecycleJournal U) : Program U Unit := do
  checked (validate_journal deletion journal)
  ask (.put journal)

def load : Program U (Option (FilesystemLifecycleJournal U)) := do
  match ← ask .load with
  | none => return none
  | some journal =>
    checked (validate_journal deletion journal)
    return some journal

def new_journal : FilesystemLifecycleJournal U :=
  ⟨FILESYSTEM_JOURNAL_FORMAT, deletion.deletion_id, deletion.tenant_id, deletion.resource_scope,
    deletion.request_digest, .Fenced, deletion.roots.map fun root => ⟨root, none, none, none⟩⟩

def load_or_create : Program U (FilesystemLifecycleJournal U) := do
  match ← load deletion with
  | some journal => return journal
  | none =>
    put deletion (new_journal deletion)
    return new_journal deletion

def require_journal : Program U (FilesystemLifecycleJournal U) := do
  match ← load deletion with
  | some journal => return journal
  | none => throw (lifecycle_state_error "lifecycle action has no durable quarantine journal")

def quarantine_path (relative : LogicalPath U) : AgentResult (LogicalPath U) :=
  (LogicalPath.parse U (QUARANTINE_DIRECTORY ++ '/' :: deletion.deletion_id ++
    '/' :: relative.text)).mapError fun error => lifecycle_error error.message

/-- The objects are kept in the hidden directory of the volume. -/
def managed_components (logical : LogicalPath U) : Location :=
  if logical.components.head? = some "objects".toList then
    REPOSITORY_DIRECTORY :: logical.components
  else logical.components

/-- The loops of `create_dir_all` and of `create_physical_destination`. -/
def create_directories : List Location → Program U Unit
  | [] => return ()
  | directory :: rest => do
    match ← ask (.is_dir directory) with
    | true => create_directories rest
    | false =>
      ask (.create_dir directory)
      create_directories rest

/-- A first scan, so that a symlink or a special entry blocks the move itself. -/
def validate_tree_root (U : UnicodeTables) : Entry → AgentResult Unit
  | .leaf _ => throw (scope_mismatch "managed lifecycle root is not an ordinary directory")
  | .branch directory => do
    let _ ← scan_stack U false directory.post_order.length ⟨0, 0, 0, []⟩ [(directory, [])]
    return ()

/-- `scan_tree` of what is at the location. -/
def scan_at (location : Location) (relative : LogicalPath U) : Program U TreeEvidence := do
  match ← ask (.resolve location) with
  | some entry => checked (scan_tree blake3 entry relative)
  | none => throw (lifecycle_io "No such file or directory")

/-! ## Quarantine -/

def move_to_quarantine (relative : LogicalPath U) (entry : Entry) (quarantine : LogicalPath U) :
    Program U TreeEvidence := do
  create_directories (ancestors quarantine.components)
  checked (validate_tree_root U entry)
  verify_live_volume_marker expected_volume_marker
  ask (.rename (managed_components relative) quarantine.components)
  scan_at blake3 quarantine.components relative

def quarantine_root (root : FilesystemRootJournal U) : Program U (FilesystemRootJournal U) := do
  let quarantine ← checked (quarantine_path deletion root.relative_root)
  let source ← ask (.resolve (managed_components root.relative_root))
  let destination ← ask (.resolve quarantine.components)
  match root.was_present, source, destination with
  | some true, none, some _ =>
    let evidence ← scan_at blake3 quarantine.components root.relative_root
    return { root with quarantine_evidence := some evidence }
  | some true, some _, some _ =>
    throw (lifecycle_state_error "managed resource exists in both active and quarantine locations")
  | some true, none, none =>
    throw (lifecycle_state_error "previously quarantined resource data is missing")
  | some true, some entry, none =>
    let evidence ← move_to_quarantine blake3 expected_volume_marker root.relative_root entry
      quarantine
    return { root with quarantine_evidence := some evidence }
  | some false, none, none => return root
  | some false, _, _ =>
    throw (lifecycle_state_error "resource appeared after an empty quarantine inventory was fenced")
  | none, none, none => return { root with was_present := some false }
  | none, none, some _ =>
    let evidence ← scan_at blake3 quarantine.components root.relative_root
    return { root with was_present := some true, quarantine_evidence := some evidence }
  | none, some _, some _ =>
    throw (lifecycle_state_error "managed resource exists in both active and quarantine locations")
  | none, some entry, none =>
    let evidence ← move_to_quarantine blake3 expected_volume_marker root.relative_root entry
      quarantine
    return { root with was_present := some true, quarantine_evidence := some evidence }

/-- The loop over the roots, with those that are done. -/
def quarantine_roots (journal : FilesystemLifecycleJournal U) :
    List (FilesystemRootJournal U) → List (FilesystemRootJournal U) →
      Program U (FilesystemLifecycleJournal U)
  | done, [] => return { journal with roots := done }
  | done, root :: rest => do
    let root ← quarantine_root blake3 expected_volume_marker deletion root
    put deletion { journal with roots := done ++ root :: rest }
    quarantine_roots journal (done ++ [root]) rest

/-! ## Evidence -/

structure ResourceLifecycleEvidence where
  volume_marker_id : Text
  (file_count object_count byte_count : UInt64)
  object_set_digest : ContentDigest
  deriving DecidableEq

/-- The variables of `aggregate_evidence`. -/
structure Totals where
  (files objects bytes : UInt64)
  hashed : Bytes

def aggregate_root (purge : Bool) (totals : Totals) (root : FilesystemRootJournal U) :
    AgentResult Totals :=
  match if purge then root.purge_evidence else root.quarantine_evidence with
  | none =>
    if root.was_present = some false then
      return { totals with
        hashed := totals.hashed ++ utf8 root.relative_root.text ++ utf8 "\x00absent\x00".toList }
    else throw (lifecycle_state_error "lifecycle proof inventory is incomplete")
  | some evidence => do
    let files ← ok_or (checked_add totals.files evidence.file_count)
      (lifecycle_error "deletion proof file count exceeds u64")
    let objects ← ok_or (checked_add totals.objects evidence.object_count)
      (lifecycle_error "deletion proof object count exceeds u64")
    let bytes ← ok_or (checked_add totals.bytes evidence.byte_count)
      (lifecycle_error "deletion proof byte count exceeds u64")
    return ⟨files, objects, bytes, totals.hashed ++ utf8 root.relative_root.text ++ [0] ++
      evidence.object_set_digest.as_bytes ++ u64_be evidence.file_count ++
      u64_be evidence.object_count ++ u64_be evidence.byte_count⟩

def aggregate_evidence (journal : FilesystemLifecycleJournal U) (purge : Bool) :
    AgentResult ResourceLifecycleEvidence := do
  let totals ← journal.roots.foldlM (aggregate_root purge)
    ⟨0, 0, 0, utf8 "neoengram.lifecycle.deletion-proof.v1\x00".toList⟩
  return ⟨expected_volume_marker, totals.files, totals.objects, totals.bytes, blake3 totals.hashed⟩

def quarantine : Program U ResourceLifecycleEvidence := do
  let journal ← load_or_create deletion
  match journal.state with
  | .Quarantined => checked (aggregate_evidence blake3 expected_volume_marker journal false)
  | .Restoring | .Restored | .Purging | .Purged =>
    throw (lifecycle_state_error "quarantine cannot run after restore or purge has started")
  | .Fenced | .Quarantining =>
    let journal := { journal with state := .Quarantining }
    put deletion journal
    let journal ← quarantine_roots blake3 expected_volume_marker deletion journal [] journal.roots
    let journal := { journal with state := .Quarantined }
    put deletion journal
    checked (aggregate_evidence blake3 expected_volume_marker journal false)

/-! ## Restore -/

/-- An absent root has nothing to restore. -/
def restore_root (root : FilesystemRootJournal U) :
    Program U (Option (FilesystemRootJournal U)) := do
  let quarantine ← checked (quarantine_path deletion root.relative_root)
  let source ← ask (.resolve (managed_components root.relative_root))
  let destination ← ask (.resolve quarantine.components)
  match root.was_present == some false, source, destination with
  | true, none, none => return none
  | true, _, _ =>
    throw (lifecycle_state_error "empty quarantined resource was recreated before restore")
  | false, some _, none =>
    let evidence ← scan_at blake3 (managed_components root.relative_root) root.relative_root
    return some { root with quarantine_evidence := some evidence }
  | false, none, some _ =>
    let evidence ← scan_at blake3 quarantine.components root.relative_root
    create_directories (ancestors (managed_components root.relative_root))
    verify_live_volume_marker expected_volume_marker
    ask (.rename quarantine.components (managed_components root.relative_root))
    return some { root with quarantine_evidence := some evidence }
  | false, some _, some _ =>
    throw (lifecycle_state_error
      "resource exists in both active and quarantine locations during restore")
  | false, none, none =>
    throw (lifecycle_state_error "quarantined resource disappeared before restore")

def restore_roots (journal : FilesystemLifecycleJournal U) :
    List (FilesystemRootJournal U) → List (FilesystemRootJournal U) →
      Program U (FilesystemLifecycleJournal U)
  | done, [] => return { journal with roots := done }
  | done, root :: rest => do
    match ← restore_root blake3 expected_volume_marker deletion root with
    | none => restore_roots journal (done ++ [root]) rest
    | some root =>
      put deletion { journal with roots := done ++ root :: rest }
      restore_roots journal (done ++ [root]) rest

def check_inventory (journal : FilesystemLifecycleJournal U) : AgentResult Unit :=
  ensure (∀ root ∈ journal.roots, root.was_present ≠ none)
    (lifecycle_state_error "resource quarantine inventory is incomplete")

def restore : Program U ResourceLifecycleEvidence := do
  let journal ← require_journal deletion
  match journal.state with
  | .Restored => checked (aggregate_evidence blake3 expected_volume_marker journal false)
  | .Purging | .Purged =>
    throw (lifecycle_state_error "resource cannot be restored after purge has started")
  | .Fenced | .Quarantining | .Quarantined | .Restoring =>
    checked (check_inventory journal)
    let journal := { journal with state := .Restoring }
    put deletion journal
    let journal ← restore_roots blake3 expected_volume_marker deletion journal [] journal.roots
    ask .lifecycle_restore
    let journal := { journal with state := .Restored }
    put deletion journal
    checked (aggregate_evidence blake3 expected_volume_marker journal false)

/-! ## Purge -/

mutual

/-- Removes an entry below a location: a directory after all of its entries. -/
def purge_entry (location : Location) (path : List FileName) : Entry → Program U Unit
  | .branch directory => do
    purge_entries location path directory
    verify_live_volume_marker expected_volume_marker
    ask (.remove location path)
  | .leaf (.file _) => do
    verify_live_volume_marker expected_volume_marker
    ask (.remove location path)
  | .leaf .symlink => throw (scope_mismatch "purge refused a symlink in managed data")
  | .leaf .special => throw (scope_mismatch "purge refused a special filesystem entry")

def purge_entries (location : Location) (path : List FileName) : Directory → Program U Unit
  | .nil => return ()
  | .cons name entry rest => do
    purge_entry location (path ++ [name]) entry
    purge_entries location path rest

end

def purge_tree (location : Location) : Program U Unit := do
  match ← ask (.resolve location) with
  | some (.branch directory) => purge_entry expected_volume_marker location [] (.branch directory)
  | some (.leaf _) => throw (scope_mismatch "purge root is not an ordinary directory")
  | none => throw (lifecycle_io "No such file or directory")

/-- The evidence of a tree is recorded before the first entry of it is removed. -/
def record_purge (journal : FilesystemLifecycleJournal U) (done : List (FilesystemRootJournal U))
    (root : FilesystemRootJournal U) (rest : List (FilesystemRootJournal U))
    (quarantine : LogicalPath U) : Program U (FilesystemRootJournal U) :=
  match root.purge_evidence with
  | some _ => return root
  | none => do
    let evidence ← scan_at blake3 quarantine.components root.relative_root
    let root := { root with purge_evidence := some evidence }
    put deletion { journal with roots := done ++ root :: rest }
    return root

def purge_roots (journal : FilesystemLifecycleJournal U) :
    List (FilesystemRootJournal U) → List (FilesystemRootJournal U) →
      Program U (FilesystemLifecycleJournal U)
  | done, [] => return { journal with roots := done }
  | done, root :: rest =>
    if root.was_present = some false then
      purge_roots journal (done ++ [root]) rest
    else do
      let quarantine ← checked (quarantine_path deletion root.relative_root)
      match ← ask (.resolve quarantine.components), root.purge_evidence with
      | some _, _ =>
        let root ← record_purge blake3 deletion journal done root rest quarantine
        purge_tree expected_volume_marker quarantine.components
        purge_roots journal (done ++ [root]) rest
      | none, some _ => purge_roots journal (done ++ [root]) rest
      | none, none =>
        throw (lifecycle_state_error
          "quarantined resource is missing without durable purge evidence")

def purge : Program U ResourceLifecycleEvidence := do
  let journal ← require_journal deletion
  match journal.state with
  | .Purged => checked (aggregate_evidence blake3 expected_volume_marker journal true)
  | .Restored =>
    throw (lifecycle_state_error
      "restored resource cannot be purged by its previous deletion operation")
  | .Fenced | .Quarantining | .Quarantined | .Restoring | .Purging =>
    checked (check_inventory journal)
    ask .lifecycle_purge
    let journal := { journal with state := .Purging }
    put deletion journal
    let journal ← purge_roots blake3 expected_volume_marker deletion journal [] journal.roots
    let journal := { journal with state := .Purged }
    put deletion journal
    checked (aggregate_evidence blake3 expected_volume_marker journal true)

/-! ## Commands -/

/-- A restore needs no fence of its own: it relies on the one that its quarantine has left. -/
def prepare_fence (action : ResourceLifecycleAction) : Program U Unit := do
  verify_live_volume_marker expected_volume_marker
  match action with
  | .Restore => return ()
  | .Quarantine | .Purge =>
    let _ ← load_or_create deletion
    ask .lifecycle_fence

def execute (action : ResourceLifecycleAction) : Program U ResourceLifecycleEvidence := do
  verify_live_volume_marker expected_volume_marker
  match action with
  | .Quarantine => quarantine blake3 expected_volume_marker deletion
  | .Restore => restore blake3 expected_volume_marker deletion
  | .Purge => purge blake3 expected_volume_marker deletion

/-- What the Agent does with a command that it has claimed. -/
def handle_lifecycle (action : ResourceLifecycleAction) : Program U ResourceLifecycleEvidence := do
  prepare_fence expected_volume_marker deletion action
  execute blake3 expected_volume_marker deletion action

end Executor

end NeoEngram.Agent

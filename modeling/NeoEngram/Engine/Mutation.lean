import NeoEngram.Framework.Effects
import NeoEngram.Engine.Add

/-! # Journaled worktree mutations

`execute_mutation` writes a journal record for the plan, moves it to
`Applying`, lets the worktree adapter apply the plan, and moves the record on
until it awaits its finalization; `finalize_mutation` closes it later. This
file embeds both functions of `engine/mutation.rs` as programs that call their
ports, and the journal store of `fs/local.rs`.
-/

namespace NeoEngram

open Checks Framing Effects

variable {U : UnicodeTables}

/-! ## Plans -/

structure JournalId where
  text : Text
  nonempty : text ≠ []

instance : DecidableEq JournalId := fun ⟨a, _⟩ ⟨b, _⟩ =>
  decidable_of_iff (a = b) (by simp)

def JournalId.new (value : Text) : EngineResult JournalId :=
  if h : value ≠ [] then .ok ⟨value, h⟩
  else .error ⟨.InvalidArgument, "journal id cannot be empty", []⟩

/-- Stable identity and fencing inputs attached to every managed mutation. -/
structure MutationIdentity where
  (tenant_id artifact_id workspace_id job_id storage_volume_id : Text)
  (owner_generation fencing_token : UInt64)
  deriving DecidableEq

def MutationIdentity.fields (self : MutationIdentity) : List (String × Text) :=
  [("tenant_id", self.tenant_id), ("artifact_id", self.artifact_id),
    ("workspace_id", self.workspace_id), ("job_id", self.job_id),
    ("storage_volume_id", self.storage_volume_id)]

def MutationIdentity.validate (self : MutationIdentity) : EngineResult Unit := do
  self.fields.forM fun (name, value) =>
    ensure (value ≠ []) ⟨.InvalidArgument, s!"{name} cannot be empty", []⟩
  ensure (self.owner_generation ≠ 0 ∧ self.fencing_token ≠ 0)
    ⟨.InvalidArgument, "mutation owner generation and fencing token must be greater than zero", []⟩

inductive MutationCheckpoint where
  | Start
  | BeforeJournalPublish
  | BeforeIrreversibleWrite
  | BeforeReceipt
  | Recovery
  deriving DecidableEq, Repr

inductive MutationAction (U : UnicodeTables) where
  | CreateDirectory (path : LogicalPath U)
  | WriteFile (path : LogicalPath U) (manifest_id : ManifestId) (total_size : UInt64)
  | RemoveFile (path : LogicalPath U)
  deriving DecidableEq

structure MutationPlan (U : UnicodeTables) where
  plan_id : Text
  identity : MutationIdentity
  expected_index_version : IndexVersion
  actions : List (MutationAction U)
  digest : ContentDigest
  deriving DecidableEq

def MUTATION_PLAN_HASH_DOMAIN : Bytes := utf8 "neoengram-runtime-mutation-plan-v1".toList

open CanonicalHasher

def write_action (hasher : CanonicalHasher) : MutationAction U → EngineResult CanonicalHasher
  | .CreateDirectory path => write_str (write_u8 hasher 1) path.text
  | .WriteFile path manifest_id total_size => do
    let hasher ← write_str (write_u8 hasher 2) path.text
    let hasher ← write_bytes hasher manifest_id.as_bytes
    return write_u64 hasher total_size
  | .RemoveFile path => write_str (write_u8 hasher 3) path.text

namespace MutationPlan

def compute_canonical_digest (blake3 : Blake3) (self : MutationPlan U) :
    EngineResult ContentDigest := do
  let hasher ← CanonicalHasher.new MUTATION_PLAN_HASH_DOMAIN
  let hasher ← write_str hasher self.plan_id
  let hasher ← (self.identity.fields.map (·.2)).foldlM write_str hasher
  let hasher := write_u64 hasher self.identity.owner_generation
  let hasher := write_u64 hasher self.identity.fencing_token
  let hasher := write_u64 hasher self.expected_index_version.revision
  let hasher ← write_digest hasher self.expected_index_version.digest
  let hasher ← write_len hasher self.actions.length
  let hasher ← self.actions.foldlM write_action hasher
  return blake3 hasher

def validate_content (self : MutationPlan U) : EngineResult Unit := do
  ensure (self.plan_id ≠ []) ⟨.InvalidArgument, "plan_id cannot be empty", []⟩
  self.identity.validate

def validate (blake3 : Blake3) (self : MutationPlan U) : EngineResult Unit := do
  self.validate_content
  let canonical_digest ← self.compute_canonical_digest blake3
  ensure (self.digest = canonical_digest)
    ⟨.IntegrityViolation, "mutation plan digest does not match its canonical content",
      [("stored_digest", toString self.digest),
        ("canonical_digest", toString canonical_digest)]⟩

end MutationPlan

/-! ## Journal records and their store -/

inductive JournalPhase where
  | Prepared
  | Applying
  | Applied
  | AwaitingFinalize
  | Finalized
  | RollingBack
  | RecoveryRequired
  deriving DecidableEq, Repr

def JournalPhase.is_active (self : JournalPhase) : Bool := self ≠ .Finalized

structure JournalRecord where
  id : JournalId
  revision : UInt64
  phase : JournalPhase
  identity : MutationIdentity
  plan_id : Text
  plan_digest : ContentDigest
  recovery_payload : Bytes
  updated_at_unix_ms : UInt64
  deriving DecidableEq

namespace JournalRecord

def validate (self : JournalRecord) : EngineResult Unit := do
  self.identity.validate
  ensure (self.plan_id ≠ []) ⟨.InvalidArgument, "journal plan_id cannot be empty", []⟩

def validate_successor (self previous : JournalRecord) : EngineResult Unit := do
  previous.validate
  self.validate
  let expected_revision ← ok_or (checked_add previous.revision 1)
    ⟨.Conflict, "journal revision cannot advance", []⟩
  ensure (self.id = previous.id ∧ self.identity = previous.identity ∧
      self.plan_id = previous.plan_id ∧ self.plan_digest = previous.plan_digest ∧
      self.revision = expected_revision)
    ⟨.Conflict, "journal successor changes immutable identity or skips a revision", []⟩

end JournalRecord

/-- The journal files, by the identity of their record. -/
abbrev Journals := JournalId → Option JournalRecord

/-- Where an operation fails: nowhere, before the file is published, or when the directory is
synchronized. -/
inductive StoreFault where
  | none
  | before (error : EngineError)
  | after (error : EngineError)

/-- What the caller sees of an operation that published its file. -/
def StoreFault.published : StoreFault → EngineResult Unit
  | .after error => .error error
  | _ => .ok ()

/-- An operation that fails before it publishes. -/
def StoreFault.check : StoreFault → EngineResult Unit
  | .before error => .error error
  | _ => .ok ()

namespace FileJournalStore

section

variable (fault : StoreFault) (journals : Journals)

def create (journal : JournalRecord) : EngineResult Unit × Journals :=
  let checks : EngineResult Unit := do
    journal.validate
    ensure (journal.revision = 0) ⟨.InvalidArgument, "new journal revision must be zero", []⟩
    fault.check
    ensure ((journals journal.id).isNone) ⟨.AlreadyExists, "journal already exists", []⟩
  match checks with
  | .error error => (.error error, journals)
  | .ok () => (fault.published, Function.update journals journal.id (some journal))

def load (id : JournalId) : EngineResult (Option JournalRecord) := do
  fault.check
  match journals id with
  | none => return none
  | some record => do
    record.validate
    ensure (record.id = id)
      ⟨.IntegrityViolation, "journal identity does not match its filename", []⟩
    return some record

def compare_exchange (expected_revision : UInt64)
    (journal : JournalRecord) : EngineResult Unit × Journals :=
  let checks : EngineResult Unit := do
    let current ← load fault journals journal.id
    let current ← ok_or current ⟨.ResourceNotFound, "journal is missing", []⟩
    ensure (current.revision = expected_revision)
      ⟨.Conflict, "journal revision compare-exchange failed", []⟩
    journal.validate_successor current
  match checks with
  | .error error => (.error error, journals)
  | .ok () => (fault.published, Function.update journals journal.id (some journal))

end

end FileJournalStore

/-! ## Ports -/

structure MutationApplication where
  (actions_applied bytes_written : UInt64)
  deriving DecidableEq

/-- The calls that the use cases make. -/
inductive PortCall (U : UnicodeTables) where
  | acquire (identity : MutationIdentity)
  | checkpoint (checkpoint : MutationCheckpoint)
  | check (point : FailurePoint)
  | now_unix_ms
  | emit (event : ProgressEvent U)
  | create (journal : JournalRecord)
  | load (id : JournalId)
  | compare_exchange (expected_revision : UInt64) (journal : JournalRecord)
  | apply_mutation (plan : MutationPlan U)
  deriving DecidableEq

/-- What a call gives if it succeeds; a lock gives a guard, with its identity. -/
abbrev PortCall.Value : PortCall U → Type
  | .acquire _ => MutationIdentity
  | .now_unix_ms => UInt64
  | .load _ => Option JournalRecord
  | .apply_mutation _ => MutationApplication
  | _ => Unit

abbrev PortProgram (U : UnicodeTables) (α : Type) :=
  Fallible (PortCall U) (fun c => EngineResult c.Value) EngineError α

namespace Port

abbrev acquire (identity : MutationIdentity) : PortProgram U MutationIdentity :=
  port (PortCall.acquire identity)

abbrev checkpoint (checkpoint : MutationCheckpoint) : PortProgram U Unit :=
  port (PortCall.checkpoint checkpoint)

abbrev check (point : FailurePoint) : PortProgram U Unit := port (PortCall.check point)

abbrev now_unix_ms : PortProgram U UInt64 := port PortCall.now_unix_ms

abbrev emit (event : ProgressEvent U) : PortProgram U Unit := port (PortCall.emit event)

abbrev create (journal : JournalRecord) : PortProgram U Unit := port (PortCall.create journal)

abbrev load (id : JournalId) : PortProgram U (Option JournalRecord) := port (PortCall.load id)

abbrev compare_exchange (expected_revision : UInt64) (journal : JournalRecord) :
    PortProgram U Unit :=
  port (PortCall.compare_exchange expected_revision journal)

abbrev apply_mutation (plan : MutationPlan U) : PortProgram U MutationApplication :=
  port (PortCall.apply_mutation plan)

end Port

/-- Every call may succeed or fail; the journals change as the store changes them. -/
def Behaves : Env (PortCall U) (fun c => EngineResult c.Value) Journals
  | journals, .create journal, r, journals' =>
    ∃ fault, (r, journals') = FileJournalStore.create fault journals journal
  | journals, .load id, r, journals' =>
    journals' = journals ∧ ∃ fault, r = FileJournalStore.load fault journals id
  | journals, .compare_exchange expected_revision journal, r, journals' =>
    ∃ fault, (r, journals') =
      FileJournalStore.compare_exchange fault journals expected_revision journal
  | journals, _, _, journals' => journals' = journals

/-! ## The use cases -/

inductive WorktreeReceiptStatus where
  | Applied
  | RolledBack
  | RecoveryRequired
  deriving DecidableEq, Repr

structure WorktreeReceipt where
  (plan_id job_id : Text)
  journal_id : JournalId
  status : WorktreeReceiptStatus
  (actions_applied bytes_written owner_generation fencing_token started_at_unix_ms : UInt64)
  finished_at_unix_ms : UInt64
  deriving DecidableEq

structure ExecuteMutationRequest (U : UnicodeTables) where
  plan : MutationPlan U
  recovery_payload : Bytes

structure ExecuteMutationResult where
  receipt : WorktreeReceipt

structure FinalizeMutationRequest where
  journal_id : JournalId
  plan_digest : ContentDigest

structure FinalizeMutationResult where
  journal_id : JournalId
  finalized_at_unix_ms : UInt64

/-- The record with the next revision, in another phase. -/
def advance_journal (journal : JournalRecord) (phase : JournalPhase) (updated_at_unix_ms : UInt64) :
    PortProgram U JournalRecord := do
  let revision ← checked (ok_or (checked_add journal.revision 1)
    ⟨.Internal, "mutation journal revision exceeds u64", []⟩)
  let next := { journal with revision, phase, updated_at_unix_ms }
  Port.compare_exchange journal.revision next
  return next

/-- Errors of the clock and of the store are dropped. -/
def mark_recovery_required (journal : JournalRecord) : PortProgram U Unit := do
  let now : EngineResult UInt64 ← outcome Port.now_unix_ms
  let timestamp := now.toOption.getD journal.updated_at_unix_ms
  let _ ← outcome (advance_journal journal .RecoveryRequired timestamp)
  return ()

section

variable (request : ExecuteMutationRequest U) (journal : JournalRecord)
  (started_at_unix_ms : UInt64)

/-- The part of `execute_mutation` after the plan was applied. -/
def seal_mutation
    (application : MutationApplication) :
    PortProgram U ExecuteMutationResult := do
  let now ← Port.now_unix_ms
  let journal ← advance_journal journal .Applied now
  let ready : EngineResult Unit ← outcome do
    Port.checkpoint .BeforeReceipt
    Port.check .BeforeReceipt
  match ready with
  | .error error => do
    mark_recovery_required journal
    throw error
  | .ok () => do
    let finished_at_unix_ms ← Port.now_unix_ms
    let journal ← advance_journal journal .AwaitingFinalize finished_at_unix_ms
    Port.emit { phase := .Completed, unit := .Actions, completed := application.actions_applied }
    return ⟨{ plan_id := request.plan.plan_id
              job_id := request.plan.identity.job_id
              journal_id := journal.id
              status := .Applied
              actions_applied := application.actions_applied
              bytes_written := application.bytes_written
              owner_generation := request.plan.identity.owner_generation
              fencing_token := request.plan.identity.fencing_token
              started_at_unix_ms
              finished_at_unix_ms }⟩

/-- The part of `execute_mutation` from the moment the record is in `Applying`. -/
def apply_journaled : PortProgram U ExecuteMutationResult := do
  let result : EngineResult MutationApplication ← outcome do
    Port.checkpoint .BeforeIrreversibleWrite
    Port.check .BeforeMutation
    Port.apply_mutation request.plan
  match result with
  | .error error => do
    mark_recovery_required journal
    throw error
  | .ok application => seal_mutation request journal started_at_unix_ms application

end

def execute_mutation (blake3 : Blake3) (request : ExecuteMutationRequest U) :
    PortProgram U ExecuteMutationResult := do
  checked (request.plan.validate blake3)
  let guard_identity ← Port.acquire request.plan.identity
  checked (ensure (guard_identity = request.plan.identity)
    ⟨.FenceRejected, "mutation lock returned a guard for a different identity", []⟩)
  Port.checkpoint .Start
  Port.check .BeforeJournalPublish
  Port.checkpoint .BeforeJournalPublish
  let started_at_unix_ms ← Port.now_unix_ms
  let journal_id ← checked (JournalId.new request.plan.plan_id)
  let journal : JournalRecord :=
    { id := journal_id
      revision := 0
      phase := .Prepared
      identity := request.plan.identity
      plan_id := request.plan.plan_id
      plan_digest := request.plan.digest
      recovery_payload := request.recovery_payload
      updated_at_unix_ms := started_at_unix_ms }
  Port.create journal
  Port.emit { phase := .Journaling, unit := .Actions, completed := 0 }
  let now ← Port.now_unix_ms
  let journal ← advance_journal journal .Applying now
  apply_journaled request journal started_at_unix_ms

def finalize_mutation (request : FinalizeMutationRequest) :
    PortProgram U FinalizeMutationResult := do
  let journal ← Port.load request.journal_id
  let journal ← checked (ok_or journal ⟨.ResourceNotFound, "mutation journal is missing", []⟩)
  checked (ensure (journal.plan_digest = request.plan_digest)
    ⟨.Conflict, "mutation finalization digest does not match the durable journal", []⟩)
  if journal.phase = .Finalized then
    return ⟨journal.id, journal.updated_at_unix_ms⟩
  else
    checked (ensure (journal.phase = .AwaitingFinalize)
      ⟨.RecoveryRequired, "mutation journal is not awaiting authoritative finalization", []⟩)
    let finalized_at_unix_ms ← Port.now_unix_ms
    let journal ← advance_journal journal .Finalized finalized_at_unix_ms
    return ⟨journal.id, finalized_at_unix_ms⟩

end NeoEngram

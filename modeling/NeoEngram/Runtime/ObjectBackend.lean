import NeoEngram.Core.Canonical
import NeoEngram.Core.Files
import NeoEngram.Core.Protocol
import NeoEngram.Engine.Ports
import NeoEngram.Framework.Effects

/-! # Object storage on a volume, and the transfer of objects

A volume backend keeps immutable objects, one file for each, and stages the
bytes of a transfer in a file of its own until the object is complete. The
transfer executor copies objects from a source into a backend, and resumes
where the staged file ends. A program holds an open file by its path. The
calls for directories have answers and no effect.
-/

namespace NeoEngram.Runtime

open Checks Effects Framing

/-! ## Ranges and tickets -/

def MAX_OBJECT_TRANSFER_CHUNK_BYTES : Nat := 1024 * 1024

/-- A byte range within an immutable object. -/
structure ObjectRange where
  (offset length : UInt64)
  deriving DecidableEq

def ObjectRange.new (offset length : UInt64) : EngineResult ObjectRange := do
  ensure (length ≠ 0) ⟨.InvalidArgument, "object range length must be greater than zero", []⟩
  ensure (length.toNat ≤ MAX_OBJECT_TRANSFER_CHUNK_BYTES) ⟨.InvalidArgument,
      s!"object range exceeds the {MAX_OBJECT_TRANSFER_CHUNK_BYTES} byte transfer chunk limit", []⟩
  ensure ((checked_add offset length).isSome) ⟨.InvalidArgument, "object range end exceeds u64", []⟩
  return ⟨offset, length⟩

structure TransferEndpoint where
  placement_id : PlacementId
  agent_id : AgentId
  gateway_pool_id : GatewayPoolId
  edge_cluster_id : EdgeClusterId
  deriving DecidableEq

def TransferEndpoint.validate (self : TransferEndpoint) : ProtocolResult Unit :=
  ensure (self.placement_id.as_str ≠ [] ∧ self.agent_id.as_str ≠ [] ∧
      self.gateway_pool_id.as_str ≠ [] ∧ self.edge_cluster_id.as_str ≠ [])
    (.InvalidField "transfer_endpoint" "endpoint identities must not be empty")

def MAX_TRANSFER_OBJECTS : Nat := 65535

/-- A short-lived capability for one transfer of an object set. -/
structure TransferTicket where
  transfer_id : TransferId
  tenant_id : TenantId
  (source target : TransferEndpoint)
  (source_session_generation source_mount_generation source_route_generation : UInt64)
  (session_generation mount_generation route_generation deadline_unix_ms max_bytes : UInt64)
  allowed_objects : List ObjectId
  deriving DecidableEq

namespace TransferTicket

def generations (self : TransferTicket) : List (String × UInt64) :=
  [("source_session_generation", self.source_session_generation),
    ("source_mount_generation", self.source_mount_generation),
    ("source_route_generation", self.source_route_generation),
    ("session_generation", self.session_generation),
    ("mount_generation", self.mount_generation),
    ("route_generation", self.route_generation)]

def validate (self : TransferTicket) : ProtocolResult Unit := do
  self.source.validate
  self.target.validate
  self.generations.forM fun (field, value) =>
    ensure (value ≠ 0) (.InvalidField field "must be greater than zero")
  ensure (self.deadline_unix_ms ≠ 0)
    (.InvalidField "deadline_unix_ms" "must be a positive Unix timestamp")
  ensure (self.allowed_objects.length ≤ MAX_TRANSFER_OBJECTS)
    (.LimitExceeded "allowed_objects" MAX_TRANSFER_OBJECTS self.allowed_objects.length)
  let sorted := self.allowed_objects.insertionSort (· ≤ ·)
  ensure sorted.Nodup (.InvalidField "allowed_objects" "object IDs must be unique")
  ensure (sorted = self.allowed_objects)
    (.InvalidField "allowed_objects" "object IDs must be in ascending canonical order")

/-- A binary search, made only after `validate` has found the list in ascending order. -/
def allows (self : TransferTicket) (object_id : ObjectId) : Bool :=
  self.allowed_objects.contains object_id

end TransferTicket

structure CommitObject where
  object_id : ObjectId
  size : UInt64
  deriving DecidableEq

def CommitObject.spec (self : CommitObject) : ObjectSpec := ⟨self.object_id, self.size⟩

/-! ## Files -/

/-- The components of a path from the root of the volume. -/
abbrev Location := List Text

/-- What a path can lead to, besides directories on the way to other paths. -/
inductive Entry where
  | file (content : FileContent)
  | symlink
  | other
  deriving DecidableEq

inductive FileType where
  | file
  | symlink
  | other
  deriving DecidableEq

structure Metadata where
  file_type : FileType
  len : UInt64
  deriving DecidableEq

def Entry.metadata : Entry → Metadata
  | .file content => ⟨.file, content.len⟩
  | .symlink => ⟨.symlink, 0⟩
  | .other => ⟨.other, 0⟩

/-- The kinds of I/O errors that the code tells apart. -/
inductive ErrorKind where
  | NotFound
  | AlreadyExists
  | Other
  deriving DecidableEq, Repr

abbrev IoResult (α : Type) := Except ErrorKind α

def io_error (message : String) : EngineError := ⟨.Io, message, []⟩

/-- An I/O result with the message of the place where it is used. -/
def io {α : Type} (message : String) (result : IoResult α) : EngineResult α :=
  result.mapError fun _ => io_error message

inductive FileCall where
  | now
  | verify_identity (path : Location)
  | ensure_directory_tree (path : Location)
  | ensure_directory (path : Location)
  | ensure_existing_directory (path : Location)
  | sync_directory (path : Location)
  | symlink_metadata (path : Location)
  | create (path : Location)
  | sync_all (path : Location)
  | open_for_writing (path : Location)
  | opened (path : Location)
  | same_file (path : Location)
  | seek (path : Location) (offset : UInt64)
  | write_all (path : Location) (offset : UInt64) (bytes : Bytes)
  | sync_data (path : Location)
  | open_for_reading (path : Location)
  | read_to_end (path : Location)
  | create_temporary (directory : Location)
  | write_temporary (bytes : Bytes)
  | sync_temporary
  | persist_noclobber (path : Location) (bytes : Bytes)
  | remove_file (path : Location)
  | open_object (tenant_id : TenantId) (expected : ObjectSpec) (range : ObjectRange)
  deriving DecidableEq

/-- The clock is `none` before the Unix epoch; a source answers with the number of bytes it reports
and the bytes it gives. -/
abbrev FileCall.Answer : FileCall → Type
  | .now => Option Nat
  | .verify_identity _ | .ensure_existing_directory _ | .sync_directory _ => EngineResult Unit
  | .ensure_directory_tree _ | .ensure_directory _ => EngineResult Bool
  | .symlink_metadata _ | .opened _ => IoResult Metadata
  | .same_file _ => Bool
  | .read_to_end _ => IoResult Bytes
  | .open_object _ _ _ => EngineResult (UInt64 × Bytes)
  | _ => IoResult Unit

abbrev Program (α : Type) := Fallible FileCall FileCall.Answer EngineError α

def verify_identity (path : Location) : Program Unit := do
  checked (← request (.verify_identity path))

def ensure_directory (path : Location) : Program Bool := do
  checked (← request (.ensure_directory path))

def sync_directory (path : Location) : Program Unit := do
  checked (← request (.sync_directory path))

def ordinary_file_metadata (path : Location) (description : String) :
    Program (Option Metadata) := do
  let answer : IoResult Metadata ← request (FileCall.symlink_metadata path)
  checked <| match answer with
    | .ok metadata =>
      if metadata.file_type = .symlink then
        .error ⟨.IntegrityViolation, s!"{description} path is a symbolic link", []⟩
      else .ok (some metadata)
    | .error .NotFound => .ok none
    | .error _ => .error (io_error s!"failed to inspect {description}")

/-- The two metadata are those of the open file and those of its path. -/
def ensure_opened_ordinary_file (path : Location) (expected_size : UInt64) (description : String) :
    Program Unit := do
  let opened ← checked (io s!"failed to inspect opened {description}" (← request (.opened path)))
  let path_metadata ← checked
    (io s!"failed to recheck {description} path" (← request (.symlink_metadata path)))
  checked <| ensure (opened.file_type = .file ∧ path_metadata.file_type = .file ∧
      opened.len = expected_size ∧ path_metadata.len = expected_size)
    ⟨.ObjectCorrupt, s!"{description} identity or size changed", []⟩
  checked <| ensure (← request (.same_file path))
    ⟨.IntegrityViolation, s!"{description} path no longer identifies the opened file", []⟩

def create_empty (path : Location) (message : String) : Program Unit := do
  checked (io message (← request (.create path)))
  checked (io message (← request (.sync_all path)))

/-- A directory is synchronized if something in it is new. -/
def sync_if (created : Bool) (path : Location) : Program Unit :=
  if created then sync_directory path else pure ()

/-- A file that has no bytes yet is created if it is missing. -/
def create_if_missing (size : UInt64) (directory path : Location) (message : String) :
    Program Unit := do
  if size = 0 then
    if (← ordinary_file_metadata path "staged object").isNone then
      create_empty path message
      sync_directory directory

/-! ## The loose object store -/

section

variable (blake3 : Blake3)

/-- The checks of `copy_and_hash_exact` on the bytes of the stream. -/
def check_exact (bytes : Bytes) (expected : ObjectSpec) (mismatch_code : ErrorCode) :
    EngineResult Unit := do
  ensure (bytes.length ≤ expected.size.toNat)
    ⟨mismatch_code, "object stream exceeds its declared size", []⟩
  ensure (bytes.length = expected.size.toNat ∧ (⟨blake3 bytes⟩ : ObjectId) = expected.id)
    ⟨mismatch_code, "object stream size or digest does not match its specification", []⟩

/-- Objects are the files of one directory. -/
structure LooseObjectStore where
  root : Location

namespace LooseObjectStore

variable (self : LooseObjectStore)

def temporary_dir : Location := self.root ++ [".tmp".toList]

def object_path (id : ObjectId) : Location := self.root ++ [id.digest.to_hex.toList]

def initialize_layout : Program Unit := do
  verify_identity self.root
  let created ← ensure_directory self.temporary_dir
  sync_if created self.root

def validate_layout : Program Unit := do
  verify_identity self.root
  checked (← request (.ensure_existing_directory self.temporary_dir))

/-- The size of the object, if it is present. -/
def stat (id : ObjectId) : Program (Option UInt64) := do
  verify_identity self.root
  let answer : IoResult Metadata ← request (FileCall.symlink_metadata (self.object_path id))
  checked <| match answer with
    | .ok metadata =>
      if metadata.file_type = .file then .ok (some metadata.len)
      else .error ⟨.ObjectCorrupt, "loose object is not an ordinary file", []⟩
    | .error .NotFound => .ok none
    | .error _ => .error (io_error "failed to inspect loose object")

/-- `copy_to` with a target that takes everything. -/
def verify (expected : ObjectSpec) : Program Unit := do
  self.validate_layout
  let path := self.object_path expected.id
  let answer : IoResult Metadata ← request (FileCall.symlink_metadata path)
  let metadata ← checked (answer.mapError fun kind =>
    if kind = .NotFound then ⟨.ObjectMissing, "loose object is missing", []⟩
    else io_error "failed to inspect loose object")
  checked <| ensure (metadata.file_type = .file ∧ metadata.len = expected.size)
    ⟨.ObjectCorrupt, "loose object metadata does not match its specification", []⟩
  checked (io "failed to open loose object" (← request (.open_for_reading path)))
  let bytes ← checked (io "failed to read object stream" (← request (.read_to_end path)))
  checked (check_exact blake3 bytes expected .ObjectCorrupt)

/-- The end of `put_from`: the temporary file gets the name of the object, unless there is one. -/
def persist (expected : ObjectSpec) (bytes : Bytes) : Program ObjectPutOutcome := do
  let answer : IoResult Unit ←
    request (FileCall.persist_noclobber (self.object_path expected.id) bytes)
  match answer with
  | .ok () =>
    return .Created
  | .error .AlreadyExists =>
    self.verify blake3 expected
    return .AlreadyPresent
  | .error _ =>
    throw (io_error "failed to publish loose object")

/-- The bytes come from an open file. -/
def put_from (expected : ObjectSpec) (source : Location) : Program ObjectPutOutcome := do
  self.initialize_layout
  if (← self.stat expected.id).isSome then
    self.verify blake3 expected
    return .AlreadyPresent
  else
    checked (io "failed to create temporary loose object"
      (← request (.create_temporary self.temporary_dir)))
    let bytes ← checked (io "failed to read object stream" (← request (.read_to_end source)))
    checked (io "failed to write object stream" (← request (.write_temporary bytes)))
    checked (check_exact blake3 bytes expected .InvalidArgument)
    checked (io "failed to synchronize temporary loose object" (← request .sync_temporary))
    self.persist blake3 expected bytes

def durability_barrier : Program Unit := do
  self.validate_layout
  sync_directory self.root

end LooseObjectStore

end

/-! ## The volume backend -/

def OBJECTS_DIRECTORY : Text := "objects".toList
def STAGING_DIRECTORY : Text := "staging".toList
def STAGED_OBJECT_SUFFIX : Text := ".partial".toList

/-- A backend for all tenants, or for one artifact of one tenant. -/
structure VolumeCasBackend where
  artifact_scope : Option (TenantId × ArtifactId)
  deriving DecidableEq

structure StageWriteOutcome where
  (accepted_bytes staged_size : UInt64)
  complete : Bool
  deriving DecidableEq

namespace VolumeCasBackend

section

variable (self : VolumeCasBackend) (transfer_id : TransferId) (tenant_id : TenantId)
  (object_id : ObjectId)

def validate_scope : EngineResult Unit :=
  match self.artifact_scope with
  | some (expected_tenant, _) =>
    ensure (expected_tenant = tenant_id)
      ⟨.InvalidArgument, "artifact-scoped object backend received another tenant", []⟩
  | none => .ok ()

def objects_root : Location :=
  match self.artifact_scope with
  | some (tenant_id, artifact_id) =>
    ["tenants".toList, tenant_id.as_str, "artifacts".toList, artifact_id.as_str, OBJECTS_DIRECTORY]
  | none => [OBJECTS_DIRECTORY]

def staging_root : Location := [STAGING_DIRECTORY]

def tenant_objects_path : Location :=
  if self.artifact_scope.isSome then self.objects_root
  else self.objects_root ++ [tenant_id.as_str]

def object_path : Location := self.tenant_objects_path tenant_id ++ [object_id.digest.to_hex.toList]

def transfer_staging_path : Location := staging_root ++ [tenant_id.as_str, transfer_id.as_str]

def staged_object_path : Location :=
  transfer_staging_path transfer_id tenant_id ++
    [object_id.digest.to_hex.toList ++ STAGED_OBJECT_SUFFIX]

def initialize_layout : Program Unit := do
  verify_identity []
  let objects_created ← checked (← request (.ensure_directory_tree self.objects_root))
  let staging_created ← ensure_directory staging_root
  sync_if (objects_created || staging_created) []

def validate_layout : Program Unit := do
  verify_identity []
  checked (← request (.ensure_existing_directory self.objects_root))
  checked (← request (.ensure_existing_directory staging_root))

def ensure_object_store : Program LooseObjectStore := do
  checked (self.validate_scope tenant_id)
  self.initialize_layout
  let path := self.tenant_objects_path tenant_id
  let _ ← ensure_directory path
  verify_identity path
  let store : LooseObjectStore := ⟨path⟩
  store.initialize_layout
  return store

def ensure_transfer_staging : Program Location := do
  checked (self.validate_scope tenant_id)
  self.initialize_layout
  let _ ← ensure_directory (staging_root ++ [tenant_id.as_str])
  let _ ← ensure_directory (transfer_staging_path transfer_id tenant_id)
  return transfer_staging_path transfer_id tenant_id

/-- The length of a staged file, if there is one. -/
def staged_length (path : Location) : Program (Option UInt64) := do
  checked <| match ← ordinary_file_metadata path "staged object" with
    | none => .ok none
    | some metadata =>
      if metadata.file_type = .file then .ok (some metadata.len)
      else .error ⟨.ObjectCorrupt, "staged object path is not an ordinary file", []⟩

def staged_size : Program (Option UInt64) := do
  checked (self.validate_scope tenant_id)
  self.validate_layout
  staged_length (staged_object_path transfer_id tenant_id object_id)

/-- The checks of `stage_write` on its arguments: the length of the chunk and the size of the
staged file with it. -/
def check_chunk (expected : ObjectSpec) (offset : UInt64) (bytes : Bytes) :
    EngineResult (UInt64 × UInt64) := do
  ensure (bytes ≠ []) ⟨.InvalidArgument, "staged object chunk cannot be empty", []⟩
  ensure (bytes.length ≤ MAX_OBJECT_TRANSFER_CHUNK_BYTES) ⟨.InvalidArgument,
      s!"staged object chunk exceeds the {MAX_OBJECT_TRANSFER_CHUNK_BYTES} byte limit", []⟩
  let accepted_bytes ← ok_or (u64_try_from bytes.length)
    ⟨.InvalidArgument, "staged object chunk length cannot fit u64", []⟩
  let staged_size ← ok_or (checked_add offset accepted_bytes)
    ⟨.InvalidArgument, "staged object offset exceeds u64", []⟩
  ensure (staged_size ≤ expected.size)
    ⟨.InvalidArgument, "staged object chunk exceeds the expected object size", []⟩
  return (accepted_bytes, staged_size)

/-- The branch of `stage_write` for a chunk that does not start at the end of the staged file. -/
def refuse_offset (staging_dir path : Location) (offset current_size : UInt64) :
    Program StageWriteOutcome := do
  create_if_missing current_size staging_dir path "failed to initialize staged object"
  throw ⟨.ObjectCorrupt, s!"staged object chunk offset {offset} does not match " ++
    s!"the durable resume offset {current_size}", []⟩

/-- The branch of `stage_write` that writes the chunk at the end of the staged file. -/
def append_chunk (expected : ObjectSpec) (staging_dir path : Location) (offset : UInt64)
    (bytes : Bytes) (accepted_bytes staged_size : UInt64) : Program StageWriteOutcome := do
  let existed := (← ordinary_file_metadata path "staged object").isSome
  checked (io "failed to open staged object" (← request (.open_for_writing path)))
  ensure_opened_ordinary_file path offset "staged object"
  checked (io "failed to seek staged object" (← request (.seek path offset)))
  checked (io "failed to write staged object" (← request (.write_all path offset bytes)))
  checked (io "failed to synchronize staged object" (← request (.sync_data path)))
  ensure_opened_ordinary_file path staged_size "staged object"
  sync_if (!existed) staging_dir
  return ⟨accepted_bytes, staged_size, staged_size == expected.size⟩

def stage_write (expected : ObjectSpec) (offset : UInt64) (bytes : Bytes) :
    Program StageWriteOutcome := do
  checked (self.validate_scope tenant_id)
  let (accepted_bytes, staged_size) ← checked (check_chunk expected offset bytes)
  let staging_dir ← self.ensure_transfer_staging transfer_id tenant_id
  let path := staged_object_path transfer_id tenant_id expected.id
  let current_size := (← staged_length path).getD 0
  if offset ≠ current_size then
    refuse_offset staging_dir path offset current_size
  else
    append_chunk expected staging_dir path offset bytes accepted_bytes staged_size

def discard_staged : Program Bool := do
  checked (self.validate_scope tenant_id)
  self.validate_layout
  let path := staged_object_path transfer_id tenant_id object_id
  if (← staged_length path).isNone then
    return false
  else
    checked (io "failed to discard staged object" (← request (.remove_file path)))
    sync_directory (transfer_staging_path transfer_id tenant_id)
    return true

end

variable (blake3 : Blake3)

/-- The digest check of `verify_and_publish` on the bytes of the staged file. -/
def verify_reader (bytes : Bytes) (expected : ObjectSpec) : EngineResult Unit :=
  ensure (bytes.length = expected.size.toNat ∧ (⟨blake3 bytes⟩ : ObjectId) = expected.id)
    ⟨.ObjectCorrupt, "staged object size or BLAKE3 identity does not match its specification", []⟩

/-- The branch of `verify_and_publish` for an object that is not yet present. -/
def publish_staged (store : LooseObjectStore) (expected : ObjectSpec)
    (staging_dir path : Location) : Program ObjectPutOutcome := do
  create_if_missing expected.size staging_dir path "failed to create empty staged object"
  let answer : IoResult Unit ← request (FileCall.open_for_reading path)
  checked (answer.mapError fun kind =>
    if kind = .NotFound then ⟨.ObjectMissing, "staged object is missing", []⟩
    else io_error "failed to open staged object for publication")
  ensure_opened_ordinary_file path expected.size "staged object"
  let bytes ← checked
    (io "failed to read staged object for verification" (← request (.read_to_end path)))
  checked (verify_reader blake3 bytes expected)
  checked (io "failed to rewind staged object" (← request (.seek path 0)))
  let outcome ← store.put_from blake3 expected path
  store.durability_barrier
  checked (io "failed to remove published staging file" (← request (.remove_file path)))
  sync_directory staging_dir
  return outcome

def verify_and_publish (self : VolumeCasBackend) (transfer_id : TransferId) (tenant_id : TenantId)
    (expected : ObjectSpec) : Program ObjectPutOutcome := do
  let store ← self.ensure_object_store tenant_id
  if (← store.stat expected.id).isSome then
    store.verify blake3 expected
    let _ ← self.discard_staged transfer_id tenant_id expected.id
    return .AlreadyPresent
  else
    let staging_dir ← self.ensure_transfer_staging transfer_id tenant_id
    publish_staged blake3 store expected staging_dir
      (staged_object_path transfer_id tenant_id expected.id)

def resume_offset (self : VolumeCasBackend) (transfer_id : TransferId) (tenant_id : TenantId)
    (object_id : ObjectId) : Program UInt64 := do
  return (← self.staged_size transfer_id tenant_id object_id).getD 0

end VolumeCasBackend

/-! ## The transfer executor -/

def validate_transfer_ticket (ticket : TransferTicket) : Program Unit := do
  checked (ticket.validate.mapError fun error => ⟨.InvalidArgument, error.to_string, []⟩)
  let now ← checked (ok_or (← request .now)
    ⟨.LeaseExpired, "system clock is before Unix epoch", []⟩)
  checked <| ensure (min now (2 ^ 64 - 1) < ticket.deadline_unix_ms.toNat)
    ⟨.LeaseExpired, "transfer ticket deadline has elapsed", []⟩

structure ObjectTransferOutcome where
  object_id : ObjectId
  (bytes_transferred resumed_from : UInt64)
  published : ObjectPutOutcome
  deriving DecidableEq

/-- The chunk size is that of `ObjectSetTransferExecutor::new`. -/
structure ObjectSetTransferExecutor where
  chunk_bytes : Nat
  positive : 0 < chunk_bytes
  bounded : chunk_bytes ≤ MAX_OBJECT_TRANSFER_CHUNK_BYTES

namespace ObjectSetTransferExecutor

variable (self : ObjectSetTransferExecutor) (backend : VolumeCasBackend)

/-- One round of the loop of `copy_object`: the next chunk and the offset after it. -/
def copy_chunk (tenant_id : TenantId) (transfer_id : TransferId) (expected : ObjectSpec)
    (offset bytes_transferred : UInt64) : Program (UInt64 × UInt64) := do
  let remaining := expected.size - offset
  let length := min remaining (UInt64.ofNat self.chunk_bytes)
  let range ← checked (ObjectRange.new offset length)
  let (copied, bytes) ← checked (← request (.open_object tenant_id expected range))
  checked <| ensure (copied = length ∧ bytes.length = length.toNat)
    ⟨.ObjectCorrupt, "transfer source returned a range with the wrong length", []⟩
  let staged ← backend.stage_write transfer_id tenant_id expected offset bytes
  let expected_offset ← checked (ok_or (checked_add offset length)
    ⟨.ObjectCorrupt, "transfer offset exceeds u64", []⟩)
  checked <| ensure (staged.accepted_bytes = length ∧ staged.staged_size = expected_offset)
    ⟨.ObjectCorrupt, "transfer sink acknowledged an unexpected staged offset", []⟩
  let bytes_transferred ← checked (ok_or (checked_add bytes_transferred length)
    ⟨.ObjectCorrupt, "transfer byte count exceeds u64", []⟩)
  return (expected_offset, bytes_transferred)

/-- The loop of `copy_object`. Every round copies a byte at least, so the bytes left bound the
rounds. -/
def copy_chunks (tenant_id : TenantId) (transfer_id : TransferId) (expected : ObjectSpec) :
    Nat → UInt64 → UInt64 → Program UInt64
  | 0, _, bytes_transferred => return bytes_transferred
  | rounds + 1, offset, bytes_transferred => do
    if offset < expected.size then
      let (offset, bytes_transferred) ←
        self.copy_chunk backend tenant_id transfer_id expected offset bytes_transferred
      copy_chunks tenant_id transfer_id expected rounds offset bytes_transferred
    else
      return bytes_transferred

variable (blake3 : Blake3)

def copy_object (ticket : TransferTicket) (tenant_id : TenantId) (transfer_id : TransferId)
    (object : CommitObject) : Program ObjectTransferOutcome := do
  validate_transfer_ticket ticket
  checked <| ensure (ticket.tenant_id = tenant_id ∧ ticket.transfer_id = transfer_id ∧
      ticket.allows object.object_id)
    ⟨.InvalidArgument, "transfer ticket does not authorize this object", []⟩
  let expected := object.spec
  let offset ← backend.resume_offset transfer_id tenant_id object.object_id
  checked <| ensure (offset ≤ expected.size)
    ⟨.ObjectCorrupt, "durable transfer offset exceeds the expected object size", []⟩
  let bytes_transferred ← self.copy_chunks backend tenant_id transfer_id expected
    (expected.size.toNat - offset.toNat) offset 0
  let published ← backend.verify_and_publish blake3 transfer_id tenant_id expected
  return ⟨object.object_id, bytes_transferred, offset, published⟩

/-- One round of the loop of `copy_object_set`, with the bytes transferred so far. -/
def copy_next (ticket : TransferTicket) (tenant_id : TenantId) (transfer_id : TransferId)
    (total : UInt64) (object : CommitObject) : Program (UInt64 × ObjectTransferOutcome) := do
  let expected := object.spec
  let resumed ← backend.resume_offset transfer_id tenant_id object.object_id
  checked <| ensure (resumed ≤ expected.size)
    ⟨.ObjectCorrupt, "durable transfer offset exceeds the expected object size", []⟩
  let remaining := expected.size - resumed
  let allowed ← checked (ok_or (checked_sub ticket.max_bytes total)
    ⟨.InvalidArgument, "transfer exceeded the ticket byte limit", []⟩)
  checked <| ensure (remaining ≤ allowed)
    ⟨.InvalidArgument, "transfer would exceed the ticket byte limit", []⟩
  let result ← self.copy_object backend blake3 ticket tenant_id transfer_id object
  let total ← checked (ok_or (checked_add total result.bytes_transferred)
    ⟨.InvalidArgument, "transfer byte count exceeds u64", []⟩)
  checked <| ensure (total ≤ ticket.max_bytes)
    ⟨.InvalidArgument, "transfer exceeded the ticket byte limit", []⟩
  return (total, result)

def copy_objects (ticket : TransferTicket) (tenant_id : TenantId) (transfer_id : TransferId) :
    List CommitObject → UInt64 → Program (List ObjectTransferOutcome)
  | [], _ => return []
  | object :: object_set, total => do
    let (total, result) ←
      self.copy_next backend blake3 ticket tenant_id transfer_id total object
    let results ← copy_objects ticket tenant_id transfer_id object_set total
    return result :: results

def copy_object_set (ticket : TransferTicket) (object_set : List CommitObject)
    (tenant_id : TenantId) (transfer_id : TransferId) : Program (List ObjectTransferOutcome) :=
  self.copy_objects backend blake3 ticket tenant_id transfer_id object_set 0

end ObjectSetTransferExecutor

end NeoEngram.Runtime

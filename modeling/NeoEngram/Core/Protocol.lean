import NeoEngram.Core.Path
import NeoEngram.Framework.Framing

/-! # Wire identifiers and protocol errors

Resources of the control plane are named by short ASCII identifiers with one
grammar; the kind of the resource is part of the type.
-/

namespace NeoEngram

open Checks Framing

/-! ### Protocol errors -/

inductive ProtocolError where
  | InvalidIdentifier (kind : String) (value : Text)
  | LimitExceeded (limit_name : String) (limit actual : Nat)
  | InvalidField (field reason : String)
  | InvalidDigest (message : String)
  deriving DecidableEq

abbrev ProtocolResult (α : Type) := Except ProtocolError α

/-- The text of an error. The value of an identifier is printed as it is. -/
def ProtocolError.to_string : ProtocolError → String
  | .InvalidIdentifier kind value => s!"invalid {kind}: {String.ofList value}"
  | .LimitExceeded limit_name limit actual =>
    s!"{limit_name} exceeds limit {limit}: observed {actual}"
  | .InvalidField field reason => s!"invalid field {field}: {reason}"
  | .InvalidDigest message => s!"invalid digest: {message}"

/-! ### Checks of fields -/

/-- The members of a JSON object that its type does not name, with the texts of their values. -/
abbrev Extensions := List (Text × Text)

def validate_extension_keys (extensions : Extensions) (reserved : List String) :
    ProtocolResult Unit :=
  match extensions.find? fun entry => String.ofList entry.1 ∈ reserved with
  | some (key, _) =>
    .error (.InvalidField "extensions"
      s!"extension key \"{String.ofList key}\" collides with a protocol member")
  | none => .ok ()

def validate_positive (field : String) (value : UInt64) : ProtocolResult Unit :=
  ensure (value ≠ 0) (.InvalidField field "must be greater than zero")

def validate_nonempty_limited (field : String) (value : Text) (limit : Nat) :
    ProtocolResult Unit := do
  ensure (value ≠ []) (.InvalidField field "must not be empty")
  ensure (value.length ≤ limit) (.LimitExceeded field limit value.length)

/-! ### Resource identifiers -/

inductive ResourceKind where
  | tenant
  | project
  | artifact
  | object_namespace
  | workspace
  | edge_cluster
  | agent
  | storage_volume
  | gateway_pool
  | job
  | assignment
  | request
  | placement
  | transfer
  | transfer_route
  | backend
  | archive
  | region
  | placement_set
  | replication
  | integrity_scan
  | operation_task
  deriving DecidableEq, Repr

/-- The name of the kind in error messages. -/
def ResourceKind.name : ResourceKind → String
  | .tenant => "tenant ID"
  | .project => "project ID"
  | .artifact => "artifact ID"
  | .object_namespace => "object namespace ID"
  | .workspace => "workspace ID"
  | .edge_cluster => "edge cluster ID"
  | .agent => "agent ID"
  | .storage_volume => "storage volume ID"
  | .gateway_pool => "gateway pool ID"
  | .job => "job ID"
  | .assignment => "assignment ID"
  | .request => "request ID"
  | .placement => "object placement ID"
  | .transfer => "transfer ID"
  | .transfer_route => "transfer route ID"
  | .backend => "storage backend ID"
  | .archive => "archive ID"
  | .region => "region ID"
  | .placement_set => "commit placement set ID"
  | .replication => "replication ID"
  | .integrity_scan => "integrity scan ID"
  | .operation_task => "operation task ID"

def MAX_RESOURCE_ID_BYTES : Nat := 128

def is_ascii_alphanumeric (byte : UInt8) : Bool :=
  (48 ≤ byte && byte ≤ 57) || (65 ≤ byte && byte ≤ 90) || (97 ≤ byte && byte ≤ 122)

/-- Letters, digits, and the characters `.`, `_`, `:` and `-`. -/
def is_resource_byte (byte : UInt8) : Bool :=
  is_ascii_alphanumeric byte || byte == 46 || byte == 95 || byte == 58 || byte == 45

def validate_resource_id (kind : ResourceKind) (value : Text) : ProtocolResult Unit :=
  let bytes := utf8 value
  let valid_length := bytes ≠ [] ∧ bytes.length ≤ MAX_RESOURCE_ID_BYTES
  let valid_first := bytes.head?.any is_ascii_alphanumeric
  let valid_rest := bytes.tail.all is_resource_byte
  ensure (valid_length ∧ valid_first ∧ valid_rest) (.InvalidIdentifier kind.name value)

structure ResourceId (kind : ResourceKind) where
  as_str : Text
  valid : validate_resource_id kind as_str = .ok ()
  deriving DecidableEq

namespace ResourceId

variable {kind : ResourceKind}

theorem as_str_injective {a b : ResourceId kind} (h : a.as_str = b.as_str) : a = b := by
  cases a
  cases b
  cases h
  rfl

instance : LinearOrder (ResourceId kind) := LinearOrder.lift' as_str fun _ _ => as_str_injective

def named (s : String) (h : validate_resource_id kind s.toList = .ok ()) : ResourceId kind :=
  ⟨s.toList, h⟩

end ResourceId

abbrev TenantId := ResourceId .tenant
abbrev ProjectId := ResourceId .project
abbrev ArtifactId := ResourceId .artifact
abbrev ObjectNamespaceId := ResourceId .object_namespace
abbrev WorkspaceId := ResourceId .workspace
abbrev EdgeClusterId := ResourceId .edge_cluster
abbrev AgentId := ResourceId .agent
abbrev StorageVolumeId := ResourceId .storage_volume
abbrev GatewayPoolId := ResourceId .gateway_pool
abbrev JobId := ResourceId .job
abbrev AssignmentId := ResourceId .assignment
abbrev RequestId := ResourceId .request
abbrev PlacementId := ResourceId .placement
abbrev TransferId := ResourceId .transfer
abbrev TransferRouteId := ResourceId .transfer_route
abbrev BackendId := ResourceId .backend
abbrev ArchiveId := ResourceId .archive
abbrev RegionId := ResourceId .region
abbrev PlacementSetId := ResourceId .placement_set
abbrev ReplicationId := ResourceId .replication
abbrev IntegrityScanId := ResourceId .integrity_scan
abbrev TaskId := ResourceId .operation_task

theorem validate_resource_id_of_kind {kind : ResourceKind} (kind' : ResourceKind) {value : Text}
    (h : validate_resource_id kind value = .ok ()) : validate_resource_id kind' value = .ok () := by
  simp only [validate_resource_id, ensure_eq_ok] at h ⊢
  exact h

/-- The namespace of the objects of an Artifact has the Artifact's name. -/
def ObjectNamespaceId.from_artifact (artifact_id : ArtifactId) : ObjectNamespaceId :=
  ⟨artifact_id.as_str, validate_resource_id_of_kind _ artifact_id.valid⟩

end NeoEngram

import NeoEngram.Agent.Inventory
import NeoEngram.Core.Materialization

/-! # The scrub of a Volume

The scanner of `volume_integrity.rs` walks the published objects of a Volume,
hashes every ordinary file, compares the result with the recorded placements,
and reports one observation for each placement to Central. The Volume does not
change during the scrub; directories are listed in the order of names.
-/

namespace NeoEngram.Agent

open Checks OrderedKeys
open Trees (Node Tree)
open Materialization (ObjectPlacementState PlacementHealthObservation PlacementHealthState
  IntegrityScanReport VolumeIntegrityScan UnixMillis MountGeneration)

/-! ## Issues and the scanner's report -/

inductive VolumeIntegrityIssueKind where
  | Missing
  | Corrupt
  | Orphan
  | Unknown
  deriving DecidableEq, Repr

/-- A path below the root of the mount. -/
abbrev MountPath := List FileName

/-- A component of a path that is given by its text. -/
def component (name : String) : FileName := .utf8 name.toList

structure VolumeIntegrityIssue where
  kind : VolumeIntegrityIssueKind
  path : MountPath
  object_namespace_id : Option ObjectNamespaceId
  object_id : Option ObjectId
  detail : String
  deriving DecidableEq

/-- The scanner's report for its own tenant and Volume. -/
structure VolumeIntegrityReport where
  (scanned_objects verified_objects : Nat)
  (missing corrupt orphan unknown : List VolumeIntegrityIssue)
  deriving DecidableEq

namespace VolumeIntegrityReport

def empty : VolumeIntegrityReport := ⟨0, 0, [], [], [], []⟩

def push (report : VolumeIntegrityReport) (issue : VolumeIntegrityIssue) : VolumeIntegrityReport :=
  match issue.kind with
  | .Missing => { report with missing := report.missing ++ [issue] }
  | .Corrupt => { report with corrupt := report.corrupt ++ [issue] }
  | .Orphan => { report with orphan := report.orphan ++ [issue] }
  | .Unknown => { report with unknown := report.unknown ++ [issue] }

end VolumeIntegrityReport

structure VolumeIntegrityScanner where
  tenant_id : TenantId
  storage_volume_id : StorageVolumeId
  deriving DecidableEq

/-- What names an object on a Volume: the namespace and the identity, in this order. -/
abbrev ObjectIdentity := ObjectNamespaceId ×ₗ ObjectId

instance : Std.TransOrd ObjectIdentity := inferInstance

instance : Std.TransOrd (ObjectIdentity ×ₗ Nat) := inferInstance

def identity (placement : Materialization.ObjectPlacement) : ObjectIdentity :=
  toLex (placement.object_namespace_id, placement.object_id)

def identity_namespace (key : ObjectIdentity) : ObjectNamespaceId := (ofLex key).1
def identity_object (key : ObjectIdentity) : ObjectId := (ofLex key).2

def METADATA_DIRECTORY : String := ".neoengram"
def OBJECTS_DIRECTORY : String := "objects"
def TENANTS_DIRECTORY : String := "tenants"
def ARTIFACTS_DIRECTORY : String := "artifacts"
def OBJECT_TEMP_DIRECTORY : String := ".tmp"

/-! ## The expected objects -/

/-- The variables of `collect_expected`. -/
structure Expected where
  placements : Std.ExtTreeMap ObjectIdentity (List Materialization.ObjectPlacement)
  seen : Std.ExtTreeSet (ObjectIdentity ×ₗ Nat)
  report : VolumeIntegrityReport

/-- The states in which a placement says that the object is on the Volume. -/
def is_active (state : ObjectPlacementState) : Bool := state = .Verified ∨ state = .Retiring

def on_volume (scanner : VolumeIntegrityScanner) (placement : Materialization.ObjectPlacement) :
    Bool :=
  placement.tenant_id = scanner.tenant_id ∧
    placement.storage_volume_id = some scanner.storage_volume_id ∧ placement.archive_id = none

/-- An object is expected once for each size. -/
def expect (expected : Expected) (placement : Materialization.ObjectPlacement) : Expected :=
  let key := identity placement
  let size := toLex (key, placement.size.toNat)
  if size ∈ expected.seen then expected
  else
    { expected with
      seen := expected.seen.insert size
      placements := expected.placements.insert key
        ((expected.placements[key]?).getD [] ++ [placement]) }

def collect_placement (scanner : VolumeIntegrityScanner) (expected : Expected)
    (placement : Materialization.ObjectPlacement) : Expected :=
  if placement.validate = .ok () ∧ on_volume scanner placement then
    if is_active placement.state then expect expected placement else expected
  else
    { expected with
      report := expected.report.push ⟨.Unknown, [component METADATA_DIRECTORY],
        some placement.object_namespace_id, some placement.object_id,
        "local placement evidence is malformed or outside this Agent Volume"⟩ }

def collect_expected (scanner : VolumeIntegrityScanner)
    (inventory : List Materialization.ObjectPlacement) (report : VolumeIntegrityReport) :
    Expected :=
  inventory.foldl (collect_placement scanner) ⟨∅, ∅, report⟩

/-! ## The walk -/

/-- The variables of the walk. -/
structure Walk where
  physical : Std.ExtTreeMap ObjectIdentity MountPath
  observed : Std.ExtTreeSet ObjectIdentity
  report : VolumeIntegrityReport

namespace Walk

def push (walk : Walk) (issue : VolumeIntegrityIssue) : Walk :=
  { walk with report := walk.report.push issue }

/-- `child_directory`, and what is done with the directory. -/
def child_directory (directory : Directory) (path : MountPath) (name : String)
    (visit : Directory → MountPath → Walk → Walk) (walk : Walk) : Walk :=
  match directory.get (component name) with
  | none => walk
  | some (.branch child) => visit child (path ++ [component name]) walk
  | some (.leaf _) =>
    walk.push ⟨.Corrupt, path ++ [component name], none, none,
      s!"{name} path is not an ordinary directory"⟩

/-- `ordinary_child_directory`, and what is done with the directory. -/
def ordinary_child_directory (entry : Entry) (path : MountPath) (description : String)
    (visit : Directory → MountPath → Walk → Walk) (walk : Walk) : Walk :=
  match entry with
  | .branch child => visit child path walk
  | .leaf _ =>
    walk.push ⟨.Corrupt, path, none, none, s!"{description} path is not an ordinary directory"⟩

variable (blake3 : Blake3)

/-- An entry whose name is an object identity. -/
def scan_object (ns : ObjectNamespaceId) (object_id : ObjectId) (path : MountPath)
    (entry : Entry) (walk : Walk) : Walk :=
  let walk := { walk with
    observed := walk.observed.insert (toLex (ns, object_id))
    report := { walk.report with scanned_objects := walk.report.scanned_objects + 1 } }
  match entry with
  | .leaf (.file content) =>
    let digest := blake3 content.bytes
    if digest = object_id.digest then
      { walk with
        report := { walk.report with verified_objects := walk.report.verified_objects + 1 }
        physical := walk.physical.insert (toLex (ns, object_id)) path }
    else
      walk.push ⟨.Corrupt, path, some ns, some object_id,
        s!"BLAKE3 digest does not match object filename: {digest}"⟩
  | _ =>
    walk.push ⟨.Corrupt, path, some ns, some object_id, "published object is not an ordinary file"⟩

def scan_object_entry (ns : ObjectNamespaceId) (directory_path : MountPath) (walk : Walk)
    (row : FileName × Entry) : Walk :=
  let path := directory_path ++ [row.1]
  match row.1 with
  | .raw _ =>
    walk.push ⟨.Unknown, path, some ns, none, "object entry is not valid UTF-8"⟩
  | .utf8 name =>
    if name = OBJECT_TEMP_DIRECTORY.toList then
      ordinary_child_directory row.2 path "object temporary" (fun _ _ walk => walk) walk
    else
      match ContentDigest.from_str name with
      | some digest => scan_object blake3 ns ⟨digest⟩ path row.2 walk
      | none =>
        walk.push ⟨.Unknown, path, some ns, none,
          s!"object filename is not a canonical BLAKE3 ID: {String.ofList name}"⟩

def scan_object_directory (ns : ObjectNamespaceId) (artifact_root : Directory) (path : MountPath)
    (walk : Walk) : Walk :=
  child_directory artifact_root path OBJECTS_DIRECTORY
    (fun objects path walk => objects.rows.foldl (scan_object_entry blake3 ns path) walk) walk

def scan_artifact_entry (directory_path : MountPath) (walk : Walk) (row : FileName × Entry) :
    Walk :=
  let path := directory_path ++ [row.1]
  match row.1 with
  | .raw _ =>
    walk.push ⟨.Unknown, path, none, none, "artifact directory entry is not valid UTF-8"⟩
  | .utf8 name =>
    if h : validate_resource_id .artifact name = .ok () then
      ordinary_child_directory row.2 path "artifact"
        (scan_object_directory blake3 (.from_artifact ⟨name, h⟩)) walk
    else
      walk.push ⟨.Unknown, path, none, none,
        s!"artifact directory name is invalid: {String.ofList name}"⟩

def scan_artifacts (tenant_root : Directory) (path : MountPath) (walk : Walk) : Walk :=
  child_directory tenant_root path ARTIFACTS_DIRECTORY
    (fun artifacts path walk => artifacts.rows.foldl (scan_artifact_entry blake3 path) walk) walk

def scan_tenant_entry (scanner : VolumeIntegrityScanner) (directory_path : MountPath)
    (walk : Walk) (row : FileName × Entry) : Walk :=
  let path := directory_path ++ [row.1]
  match row.1 with
  | .raw _ =>
    walk.push ⟨.Unknown, path, none, none, "tenant directory entry is not valid UTF-8"⟩
  | .utf8 name =>
    if name = scanner.tenant_id.as_str then
      ordinary_child_directory row.2 path "tenant" (scan_artifacts blake3) walk
    else
      walk.push ⟨.Unknown, path, none, none,
        s!"tenant directory is outside the configured tenant: {String.ofList name}"⟩

/-- The walk over an ordinary directory that is the root of the mount. -/
def scan_physical (scanner : VolumeIntegrityScanner) (mount : Directory) (walk : Walk) : Walk :=
  child_directory mount [] METADATA_DIRECTORY
    (fun metadata path walk => child_directory metadata path OBJECTS_DIRECTORY
      (fun objects path walk => child_directory objects path TENANTS_DIRECTORY
        (fun tenants path walk =>
          tenants.rows.foldl (scan_tenant_entry blake3 scanner path) walk) walk) walk) walk

end Walk

/-! ## The scan and the report for Central -/

namespace VolumeIntegrityScanner

variable (scanner : VolumeIntegrityScanner)

def object_path (key : ObjectIdentity) : MountPath :=
  [component METADATA_DIRECTORY, component OBJECTS_DIRECTORY, component TENANTS_DIRECTORY,
    .utf8 scanner.tenant_id.as_str, component ARTIFACTS_DIRECTORY,
    .utf8 (identity_namespace key).as_str, component OBJECTS_DIRECTORY,
    component (identity_object key).digest.to_hex]

/-- The first of the two loops over what was found: expected objects that are not there. -/
def report_missing (observed : Std.ExtTreeSet ObjectIdentity) (report : VolumeIntegrityReport)
    (entry : ObjectIdentity × List Materialization.ObjectPlacement) : VolumeIntegrityReport :=
  let (key, placements) := entry
  if key ∈ observed then report
  else
    let expected_size :=
      match placements.head? with
      | some placement => toString placement.size
      | none => "unknown"
    report.push ⟨.Missing, scanner.object_path key, some (identity_namespace key),
      some (identity_object key),
      s!"active placement has no published object (expected size {expected_size})"⟩

def metadata_len (mount : Directory) (path : MountPath) : UInt64 :=
  match (Node.branch mount).find path with
  | some (.leaf (.file content)) => content.len
  | _ => 0

/-- The second loop: files with the right digest that have another size than expected, or that
nobody expects. -/
def report_physical (mount : Directory)
    (expected : Std.ExtTreeMap ObjectIdentity (List Materialization.ObjectPlacement))
    (report : VolumeIntegrityReport) (entry : ObjectIdentity × MountPath) : VolumeIntegrityReport :=
  let (key, path) := entry
  match expected[key]? with
  | some placements =>
    let actual_size := metadata_len mount path
    if placements.any fun placement => placement.size = actual_size then report
    else
      let expected_sizes :=
        ", ".intercalate (placements.map fun placement => toString placement.size)
      report.push ⟨.Corrupt, path, some (identity_namespace key), some (identity_object key),
        s!"object size does not match placement evidence (expected one of [{expected_sizes}]" ++
          s!", actual {actual_size})"⟩
  | none =>
    report.push ⟨.Orphan, path, some (identity_namespace key), some (identity_object key),
      "published object has no active local placement evidence"⟩

section

variable (blake3 : Blake3) (inventory : List Materialization.ObjectPlacement) (mount : Entry)

def scan : AgentResult VolumeIntegrityReport :=
  match mount with
  | .leaf _ =>
    throw ⟨.MountUnavailable,
      "approved Agent mount is unavailable: path is not an ordinary directory"⟩
  | .branch mount =>
    let expected := collect_expected scanner inventory .empty
    let walk := Walk.scan_physical blake3 scanner mount ⟨∅, ∅, expected.report⟩
    let report := expected.placements.toList.foldl (scanner.report_missing walk.observed)
      walk.report
    return walk.physical.toList.foldl (report_physical mount expected.placements) report

/-- An issue is about the object of a placement. -/
def concerns (placement : Materialization.ObjectPlacement) (issue : VolumeIntegrityIssue) : Bool :=
  issue.object_namespace_id = some placement.object_namespace_id ∧
    issue.object_id = some placement.object_id

def observed_state (report : VolumeIntegrityReport) (placement : Materialization.ObjectPlacement) :
    PlacementHealthState :=
  if report.corrupt.any (concerns placement) then .Corrupt
  else if report.missing.any (concerns placement) then .Missing
  else .Healthy

def observation (report : VolumeIntegrityReport) (scan_id : IntegrityScanId)
    (observed_at_unix_ms : UnixMillis) (placement : Materialization.ObjectPlacement) :
    PlacementHealthObservation where
  scan_id := scan_id
  tenant_id := scanner.tenant_id
  object_namespace_id := placement.object_namespace_id
  placement_id := placement.placement_id
  object_id := placement.object_id
  storage_volume_id := scanner.storage_volume_id
  placement_generation := placement.placement_generation
  state := observed_state report placement
  observed_size := placement.size
  observed_digest := placement.verified_digest
  observed_at_unix_ms := observed_at_unix_ms
  detail := none

def count_state (observations : List PlacementHealthObservation) (state : PlacementHealthState) :
    Nat :=
  (observations.filter fun observation => observation.state = state).length

def report_to_integrity_report (inventory : List Materialization.ObjectPlacement)
    (report : VolumeIntegrityReport) (scan_id : IntegrityScanId)
    (mount_generation : MountGeneration) (observed_at_unix_ms : UnixMillis) : IntegrityScanReport :=
  let placement_generation := (inventory.map (·.placement_generation)).max?.getD 1
  let observations := (inventory.filter fun placement =>
    on_volume scanner placement ∧ is_active placement.state).map
      (scanner.observation report scan_id observed_at_unix_ms)
  { scan :=
      { scan_id := scan_id
        tenant_id := scanner.tenant_id
        storage_volume_id := scanner.storage_volume_id
        placement_generation := placement_generation
        state := .Complete
        checked_objects := report.scanned_objects
        healthy_objects := count_state observations .Healthy
        missing_objects := count_state observations .Missing
        corrupt_objects := count_state observations .Corrupt
        orphan_objects := report.orphan.length
        started_at_unix_ms := observed_at_unix_ms
        finished_at_unix_ms := some observed_at_unix_ms
        error := none }
    mount_generation := mount_generation
    observations := observations
    extensions := [] }

def scan_report
    (scan_id : IntegrityScanId) (mount_generation : MountGeneration)
    (observed_at_unix_ms : UnixMillis) : AgentResult IntegrityScanReport := do
  let report ← scanner.scan blake3 inventory mount
  return scanner.report_to_integrity_report inventory report scan_id mount_generation
    observed_at_unix_ms

end

end VolumeIntegrityScanner

end NeoEngram.Agent

import NeoEngram.Agent.VolumeIntegrity
import NeoEngram.Core.Concrete

/-! # What a scrub reports

The observations of a scrub against what is on the Volume. The walk is
described by what it finds at the path of an object (`has_scan_physical`).
Central refuses the report when more placements are missing, corrupt or
healthy than there are entries in the object directories, since the scanner
reports the number of entries as the number of checked objects.
-/

namespace NeoEngram.Agent

open Checks OrderedKeys List ContentDigest Walk FileName
open Std (ExtTreeMap ExtTreeSet)
open Trees (Node Tree)
open Materialization (ObjectPlacementState PlacementHealthObservation PlacementHealthState
  IntegrityScanReport VolumeIntegrityScan UnixMillis MountGeneration)
open VolumeIntegrityScanner (count_state metadata_len observed_state report_missing report_physical)

variable {blake3 : Blake3} {scanner : VolumeIntegrityScanner}

/-! ## What the walk finds -/

/-- An ordinary file with the content that its name says. -/
def Sound (blake3 : Blake3) (object_id : ObjectId) (entry : Entry) : Prop :=
  ∃ content, entry = .leaf (.file content) ∧ blake3 content.bytes = object_id.digest

/-- What the walk notes about an object: that something is there, and whether it is sound. -/
inductive Finding where
  | observed
  | corrupt
  | sound

/-- The entries of which a finding is noted. -/
def Finding.Of (blake3 : Blake3) : Finding → ObjectId → Entry → Prop
  | .observed, _, _ => True
  | .corrupt, object_id, entry => ¬ Sound blake3 object_id entry
  | .sound, object_id, entry => Sound blake3 object_id entry

/-- A report has a corruption of the object. -/
def Concerned (issues : List VolumeIntegrityIssue) (key : ObjectIdentity) : Prop :=
  ∃ issue ∈ issues, issue.object_namespace_id = some (identity_namespace key) ∧
    issue.object_id = some (identity_object key)

/-- The walk has noted a finding about an object. -/
def Walk.Has (walk : Walk) : Finding → ObjectIdentity → Prop
  | .observed, key => key ∈ walk.observed
  | .corrupt, key => Concerned walk.report.corrupt key
  | .sound, key => key ∈ walk.physical

variable {issue : VolumeIntegrityIssue} {issues : List VolumeIntegrityIssue} {key : ObjectIdentity}

theorem concerned_append :
    Concerned (issues ++ [issue]) key ↔ Concerned issues key ∨
      (issue.object_namespace_id = some (identity_namespace key) ∧
        issue.object_id = some (identity_object key)) := by
  simp only [Concerned, mem_append, mem_singleton, or_and_right, exists_or, exists_eq_left]

variable {object_id : ObjectId}

theorem identity_eq_iff {ns : ObjectNamespaceId} :
    key = toLex (ns, object_id) ↔ identity_namespace key = ns ∧
      identity_object key = object_id := by
  constructor
  · intro h
    rw [h]
    exact ⟨rfl, rfl⟩
  · intro ⟨hns, hid⟩
    rw [← hns, ← hid]
    rfl

/-- One more issue, which names the object `key'`. -/
theorem concerned_append_of (key' : ObjectIdentity)
    (hns : issue.object_namespace_id = some (identity_namespace key'))
    (hid : issue.object_id = some (identity_object key')) :
    Concerned (issues ++ [issue]) key ↔ Concerned issues key ∨ key = key' := by
  rw [concerned_append, hns, hid, Option.some.injEq, Option.some.injEq]
  apply or_congr_right
  exact (and_congr eq_comm eq_comm).trans identity_eq_iff.symm

namespace Walk

variable {walk : Walk} {finding : Finding} {key : ObjectIdentity}
  {entry : Entry} {ns : ObjectNamespaceId} {path : MountPath}

/-- Issues that name no object, and those that are not corruptions, are no findings. -/
theorem has_push (h : issue.kind ≠ .Corrupt ∨ issue.object_id = none) :
    (walk.push issue).Has finding key ↔ walk.Has finding key := by
  obtain ⟨kind, path, ns, object_id, detail⟩ := issue
  cases finding with
  | observed => rfl
  | sound => rfl
  | corrupt =>
    cases kind with
    | Corrupt =>
      simp only [ne_eq, not_true_eq_false, false_or] at h
      subst h
      show Concerned (_ ++ [_]) key ↔ Concerned _ key
      rw [concerned_append]
      simp
    | Missing => rfl
    | Orphan => rfl
    | Unknown => rfl

/-- An entry with the name of an object is observed. It is sound, or one corruption is pushed. -/
theorem scan_object_cases (blake3 : Blake3) (ns : ObjectNamespaceId) (object_id : ObjectId)
    (path : MountPath) (entry : Entry) (walk : Walk) :
    let observed : Walk := { walk with
      observed := walk.observed.insert (toLex (ns, object_id))
      report := { walk.report with scanned_objects := walk.report.scanned_objects + 1 } }
    (Sound blake3 object_id entry ∧ scan_object blake3 ns object_id path entry walk =
      { observed with
        report := { observed.report with
          verified_objects := observed.report.verified_objects + 1 }
        physical := observed.physical.insert (toLex (ns, object_id)) path }) ∨
      (¬ Sound blake3 object_id entry ∧ ∃ detail,
        scan_object blake3 ns object_id path entry walk =
          observed.push ⟨.Corrupt, path, some ns, some object_id, detail⟩) := by
  unfold scan_object
  split
  · next content =>
    by_cases hdigest : blake3 content.bytes = object_id.digest
    · exact .inl ⟨⟨content, rfl, hdigest⟩, if_pos hdigest⟩
    · refine .inr ⟨?_, _, if_neg hdigest⟩
      rintro ⟨_, ⟨⟩, hsound⟩
      exact hdigest hsound
  · next hother =>
    exact .inr ⟨fun ⟨content, hentry, _⟩ => hother content hentry, _, rfl⟩

/-- An entry with the name of an object gives the findings that hold of it. -/
theorem has_scan_object : (scan_object blake3 ns object_id path entry walk).Has finding key ↔
      walk.Has finding key ∨ (key = toLex (ns, object_id) ∧ finding.Of blake3 object_id entry) := by
  rcases scan_object_cases blake3 ns object_id path entry walk with
    ⟨hsound, hscan⟩ | ⟨hsound, detail, hscan⟩ <;> rw [hscan]
  · cases finding with
    | observed =>
      simp only [Has, Finding.Of, ExtTreeSet.mem_insert, compare_eq_iff_eq, and_true]
      rw [or_comm, eq_comm]
    | corrupt => simp only [Has, Finding.Of, hsound, not_true_eq_false, and_false, or_false]
    | sound =>
      simp only [Has, Finding.Of, hsound, and_true, ExtTreeMap.mem_insert, compare_eq_iff_eq]
      rw [or_comm, eq_comm]
  · cases finding with
    | observed =>
      simp only [Has, push, Finding.Of, ExtTreeSet.mem_insert, compare_eq_iff_eq, and_true]
      rw [or_comm, eq_comm]
    | corrupt =>
      show Concerned (_ ++ [_]) key ↔ _
      rw [concerned_append_of (toLex (ns, object_id)) rfl rfl]
      simp only [Has, Finding.Of, hsound, not_false_eq_true, and_true]
    | sound => simp only [Has, push, Finding.Of, hsound, and_false, or_false]

/-- The name of the entry in an object directory that is an object's. -/
def object_name (key : ObjectIdentity) : FileName := component (identity_object key).digest.to_hex

variable {name : FileName}

theorem has_scan_object_entry :
    (scan_object_entry blake3 ns path walk (name, entry)).Has finding key ↔
      walk.Has finding key ∨ (name = object_name key ∧ identity_namespace key = ns ∧
        finding.Of blake3 (identity_object key) entry) := by
  cases name with
  | raw bytes =>
    show (walk.push _).Has finding key ↔ _
    rw [has_push (.inl (by simp))]
    simp [object_name, component]
  | utf8 name =>
    simp only [scan_object_entry, object_name, component, utf8.injEq]
    by_cases htemp : name = OBJECT_TEMP_DIRECTORY.toList
    · -- the directory of temporary files has no object's name
      have hname : name ≠ (identity_object key).digest.to_hex.toList := by
        rw [htemp, ne_eq, ← from_str_eq_some]
        have hnone : from_str OBJECT_TEMP_DIRECTORY.toList = none := by decide
        rw [hnone]
        simp
      rw [if_pos htemp]
      simp only [hname, false_and, or_false]
      cases entry with
      | branch child => rfl
      | leaf leaf => exact has_push (.inr rfl)
    · rw [if_neg htemp]
      cases hparse : from_str name with
      | none =>
        have hname : name ≠ (identity_object key).digest.to_hex.toList := by
          rw [ne_eq, ← from_str_eq_some, hparse]
          simp
        simp only [hname, false_and, or_false]
        exact has_push (.inl (by simp))
      | some digest =>
        show (scan_object blake3 ns ⟨digest⟩ _ entry walk).Has finding key ↔ _
        rw [has_scan_object, identity_eq_iff]
        have hname : name = (identity_object key).digest.to_hex.toList ↔
            identity_object key = ⟨digest⟩ := by
          rw [← from_str_eq_some, hparse, Option.some.injEq]
          constructor
          · intro h
            rw [h]
          · intro h
            rw [h]
        rw [hname]
        constructor
        · intro h
          rcases h with h | ⟨⟨hns, hid⟩, hof⟩
          · exact .inl h
          · exact .inr ⟨hid, hns, hid ▸ hof⟩
        · intro h
          rcases h with h | ⟨hid, hns, hof⟩
          · exact .inl h
          · exact .inr ⟨⟨hns, hid⟩, hid ▸ hof⟩

/-- The finding holds of what is at a path. -/
def FoundAt (blake3 : Blake3) (finding : Finding) (key : ObjectIdentity) (entry : Entry)
    (path : MountPath) : Prop :=
  ∃ found, entry.find path = some found ∧ finding.Of blake3 (identity_object key) found

variable {directory : Directory} {visit : Directory → MountPath → Walk → Walk} {mount : Directory}

theorem foundAt_branch : FoundAt blake3 finding key (.branch directory) (name :: path) ↔
      ∃ entry, directory.get name = some entry ∧ FoundAt blake3 finding key entry path := by
  simp only [FoundAt, Node.find, Option.bind_eq_some_iff]
  constructor
  · rintro ⟨found, ⟨entry, hget, hfind⟩, hof⟩
    exact ⟨entry, hget, found, hfind, hof⟩
  · rintro ⟨entry, hget, found, hfind, hof⟩
    exact ⟨found, ⟨entry, hget, hfind⟩, hof⟩

theorem not_foundAt_leaf {leaf : Leaf} :
    ¬ FoundAt blake3 finding key (.leaf leaf) (name :: path) := by
  intro ⟨_, hfind, _⟩
  cases hfind

theorem foundAt_nil :
    FoundAt blake3 finding key entry [] ↔ finding.Of blake3 (identity_object key) entry := by
  simp [FoundAt, Node.find]

variable {description : String}

/-- What a visit of a directory finds below it, a visit of its entry finds as well. -/
theorem has_ordinary_child_directory {path rest : MountPath} (hentry : entry.Ordered)
    (hvisit : ∀ child : Directory, child.Ordered →
      ((visit child path walk).Has finding key ↔
        walk.Has finding key ∨ FoundAt blake3 finding key (.branch child) (name :: rest))) :
    (ordinary_child_directory entry path description visit walk).Has finding key ↔
      walk.Has finding key ∨ FoundAt blake3 finding key entry (name :: rest) := by
  cases entry with
  | branch child => exact hvisit child hentry
  | leaf leaf =>
    show (walk.push _).Has finding key ↔ _
    rw [has_push (.inr rfl)]
    simp only [not_foundAt_leaf, or_false]

theorem has_child_directory {path rest : MountPath} {child_name : String}
    (hdirectory : directory.Ordered)
    (hvisit : ∀ (child : Directory) (path : MountPath), child.Ordered →
      ((visit child path walk).Has finding key ↔
        walk.Has finding key ∨ FoundAt blake3 finding key (.branch child) (name :: rest))) :
    (child_directory directory path child_name visit walk).Has finding key ↔
      walk.Has finding key ∨
        FoundAt blake3 finding key (.branch directory) (component child_name :: name :: rest) := by
  rw [foundAt_branch]
  unfold child_directory
  cases hget : directory.get (component child_name) with
  | none => simp
  | some entry =>
    have hentry : entry.Ordered := hdirectory.get hget
    simp only [Option.some.injEq, exists_eq_left']
    cases entry with
    | branch child => exact hvisit child _ hentry
    | leaf leaf =>
      show (walk.push _).Has finding key ↔ _
      rw [has_push (.inr rfl)]
      simp only [not_foundAt_leaf, or_false]

/-- A fold over a directory in which only the entry of one name matters. -/
theorem has_foldl_rows (hdirectory : directory.Ordered) {rest : MountPath}
    {step : Walk → FileName × Entry → Walk}
    (hstep : ∀ (walk : Walk) (other : FileName) (entry : Entry), entry.Ordered →
      ((step walk (other, entry)).Has finding key ↔
        walk.Has finding key ∨ (other = name ∧ FoundAt blake3 finding key entry rest))) :
    (directory.rows.foldl step walk).Has finding key ↔
      walk.Has finding key ∨ FoundAt blake3 finding key (.branch directory) (name :: rest) := by
  rw [Tree.foldl_rows_iff (X := fun walk => walk.Has finding key) hdirectory
    (fun walk other entry hget => hstep walk other entry (hdirectory.get hget)), foundAt_branch]
  constructor
  · intro h
    rcases h with h | ⟨other, entry, hget, rfl, hfound⟩
    · exact .inl h
    · exact .inr ⟨entry, hget, hfound⟩
  · intro h
    rcases h with h | ⟨entry, hget, hfound⟩
    · exact .inl h
    · exact .inr ⟨name, entry, hget, rfl, hfound⟩

theorem has_scan_object_directory {artifact_root : Directory} (hordered : artifact_root.Ordered) :
    (scan_object_directory blake3 ns artifact_root path walk).Has finding key ↔
      walk.Has finding key ∨ (identity_namespace key = ns ∧
        FoundAt blake3 finding key (.branch artifact_root)
          [component OBJECTS_DIRECTORY, object_name key]) := by
  by_cases hns : identity_namespace key = ns
  · simp only [hns, true_and]
    apply has_child_directory hordered
    intro objects path hobjects
    apply has_foldl_rows hobjects
    intro walk other entry _
    rw [has_scan_object_entry, foundAt_nil]
    simp [hns]
  · simp only [hns, false_and, or_false]
    -- the entries of another namespace are no findings about the object
    unfold scan_object_directory child_directory
    split
    · rfl
    · next objects hget =>
      have hobjects : objects.Ordered := hordered.get hget
      have hfold := Tree.foldl_rows_iff (X := fun walk => walk.Has finding key)
        (f := scan_object_entry blake3 ns (path ++ [component OBJECTS_DIRECTORY]))
        (R := fun _ _ => False) hobjects
        (fun walk other entry _ => by rw [has_scan_object_entry]; simp [hns]) walk
      simpa using hfold
    · exact has_push (.inr rfl)

theorem has_scan_artifacts {tenant_root : Directory} (hordered : tenant_root.Ordered) :
    (scan_artifacts blake3 tenant_root path walk).Has finding key ↔
      walk.Has finding key ∨ FoundAt blake3 finding key (.branch tenant_root)
        [component ARTIFACTS_DIRECTORY, .utf8 (identity_namespace key).as_str,
          component OBJECTS_DIRECTORY, object_name key] := by
  apply has_child_directory hordered
  intro artifacts path hartifacts
  apply has_foldl_rows hartifacts
  intro walk other entry hentry
  cases other with
  | raw bytes =>
    show (walk.push _).Has finding key ↔ _
    rw [has_push (.inl (by simp))]
    simp
  | utf8 name =>
    simp only [scan_artifact_entry, utf8.injEq]
    by_cases hvalid : validate_resource_id .artifact name = .ok ()
    · rw [dif_pos hvalid]
      have hns : name = (identity_namespace key).as_str ↔
          identity_namespace key = .from_artifact ⟨name, hvalid⟩ := by
        constructor
        · intro h
          exact ResourceId.as_str_injective h.symm
        · intro h
          rw [h]
          rfl
      cases entry with
      | branch child =>
        show (scan_object_directory blake3 _ child _ walk).Has finding key ↔ _
        rw [has_scan_object_directory hentry, hns]
      | leaf leaf =>
        show (walk.push _).Has finding key ↔ _
        rw [has_push (.inr rfl)]
        simp only [not_foundAt_leaf, and_false, or_false]
    · rw [dif_neg hvalid, has_push (.inl (by simp))]
      have hne : name ≠ (identity_namespace key).as_str := by
        intro h
        exact hvalid (h ▸ validate_resource_id_of_kind _ (identity_namespace key).valid)
      simp [hne]

/-- **The walk finds what is at the path of an object.** -/
theorem has_scan_physical (hordered : mount.Ordered) :
    (scan_physical blake3 scanner mount walk).Has finding key ↔
      walk.Has finding key ∨
        FoundAt blake3 finding key (.branch mount) (scanner.object_path key) := by
  apply has_child_directory hordered
  intro metadata path hmetadata
  apply has_child_directory hmetadata
  intro objects path hobjects
  apply has_child_directory hobjects
  intro tenants path htenants
  apply has_foldl_rows htenants
  intro walk other entry hentry
  cases other with
  | raw bytes =>
    show (walk.push _).Has finding key ↔ _
    rw [has_push (.inl (by simp))]
    simp
  | utf8 name =>
    simp only [scan_tenant_entry, utf8.injEq]
    by_cases hname : name = scanner.tenant_id.as_str
    · rw [if_pos hname]
      simp only [hname, true_and]
      apply has_ordinary_child_directory hentry
      intro child hchild
      exact has_scan_artifacts hchild
    · rw [if_neg hname, has_push (.inl (by simp))]
      simp [hname]

/-! ### What the walk keeps -/

section Keeps

variable {P : Walk → Prop}
  (hpush : ∀ walk issue, issue.kind ≠ .Missing → P walk → P (push walk issue))

include hpush

variable {visit : Directory → MountPath → Walk → Walk}

theorem child_directory_keeps {name : String}
    (hvisit : ∀ child walk, P walk → P (visit child (path ++ [component name]) walk))
    (h : P walk) : P (child_directory directory path name visit walk) := by
  unfold child_directory
  split
  · exact h
  · exact hvisit _ _ h
  · exact hpush _ _ (by simp) h

theorem ordinary_child_directory_keeps
    (hvisit : ∀ child walk, P walk → P (visit child path walk)) (h : P walk) :
    P (ordinary_child_directory entry path description visit walk) := by
  cases entry with
  | branch child => exact hvisit child walk h
  | leaf leaf => exact hpush walk _ (by simp) h

/-- The directory of the objects of a namespace. -/
def objects_path (scanner : VolumeIntegrityScanner) (ns : ObjectNamespaceId) : MountPath :=
  [component METADATA_DIRECTORY, component OBJECTS_DIRECTORY, component TENANTS_DIRECTORY,
    .utf8 scanner.tenant_id.as_str, component ARTIFACTS_DIRECTORY, .utf8 ns.as_str,
    component OBJECTS_DIRECTORY]

variable (hobject : ∀ walk ns object_id entry, P walk → P (scan_object blake3 ns object_id
    (scanner.object_path (toLex (ns, object_id))) entry walk))

include hobject

theorem scan_object_entry_keeps {row : FileName × Entry} (h : P walk) :
    P (scan_object_entry blake3 ns (objects_path scanner ns) walk row) := by
  obtain ⟨name, entry⟩ := row
  cases name with
  | raw bytes => exact hpush walk _ (by simp) h
  | utf8 name =>
    simp only [scan_object_entry]
    by_cases htemp : name = OBJECT_TEMP_DIRECTORY.toList
    · rw [if_pos htemp]
      exact ordinary_child_directory_keeps hpush (fun _ _ h => h) h
    · rw [if_neg htemp]
      cases hparse : from_str name with
      | none => exact hpush walk _ (by simp) h
      | some digest =>
        rw [from_str_eq_some.mp hparse]
        exact hobject walk ns ⟨digest⟩ entry h

/-- What is kept by every push of an issue and by every object is kept by the walk. -/
theorem scan_physical_keeps (h : P walk) :
    P (scan_physical blake3 scanner mount walk) := by
  apply child_directory_keeps hpush _ h
  intro metadata walk h
  apply child_directory_keeps hpush _ h
  intro objects walk h
  apply child_directory_keeps hpush _ h
  intro tenants walk h
  apply foldl_keeps _ h
  intro walk ⟨name, entry⟩ h
  cases name with
  | raw bytes => exact hpush walk _ (by simp) h
  | utf8 name =>
    simp only [scan_tenant_entry]
    by_cases hname : name = scanner.tenant_id.as_str
    · subst hname
      rw [if_pos rfl]
      apply ordinary_child_directory_keeps hpush _ h
      intro tenant_root walk h
      apply child_directory_keeps hpush _ h
      intro artifacts walk h
      apply foldl_keeps _ h
      intro walk ⟨name, entry⟩ h
      cases name with
      | raw bytes => exact hpush walk _ (by simp) h
      | utf8 name =>
        simp only [scan_artifact_entry]
        by_cases hvalid : validate_resource_id .artifact name = .ok ()
        · rw [dif_pos hvalid]
          apply ordinary_child_directory_keeps hpush _ h
          intro artifact_root walk h
          apply child_directory_keeps hpush _ h
          intro objects walk h
          exact foldl_keeps (fun _ _ h => scan_object_entry_keeps hpush hobject h) h
        · rw [dif_neg hvalid]
          exact hpush walk _ (by simp) h
    · rw [if_neg hname]
      exact hpush walk _ (by simp) h

end Keeps

/-- Every sound object is noted with its own path. -/
def PathsKnown (scanner : VolumeIntegrityScanner) (walk : Walk) : Prop :=
  ∀ key path, walk.physical[key]? = some path → path = scanner.object_path key

theorem scan_physical_paths (h : PathsKnown scanner walk) :
    PathsKnown scanner (scan_physical blake3 scanner mount walk) := by
  apply scan_physical_keeps (fun _ _ _ h => h) _ h
  intro walk ns object_id entry h
  rcases scan_object_cases blake3 ns object_id _ entry walk with ⟨-, hscan⟩ | ⟨-, _, hscan⟩ <;>
    rw [hscan]
  · intro key found hfound
    rw [getElem?_insert_eq] at hfound
    by_cases hkey : toLex (ns, object_id) = key
    · rw [if_pos hkey] at hfound
      cases hfound
      rw [hkey]
    · rw [if_neg hkey] at hfound
      exact h key found hfound
  · exact h

theorem scan_physical_missing (h : walk.report.missing = []) :
    (scan_physical blake3 scanner mount walk).report.missing = [] := by
  apply scan_physical_keeps (P := fun walk => walk.report.missing = []) _ _ h
  · intro walk issue hkind h
    obtain ⟨kind, _, _, _, _⟩ := issue
    cases kind with
    | Missing => exact absurd rfl hkind
    | Corrupt => exact h
    | Orphan => exact h
    | Unknown => exact h
  · intro walk ns object_id entry h
    rcases scan_object_cases blake3 ns object_id _ entry walk with ⟨-, hscan⟩ | ⟨-, _, hscan⟩ <;>
      rw [hscan] <;> exact h

/-! ### The number of entries -/

/-- A number that belongs to a directory, taken below an entry of another directory. -/
def below (name : FileName) (count : Directory → Nat) (directory : Directory) : Nat :=
  match directory.get name with
  | some (.branch child) => count child
  | _ => 0

/-- Names of objects count, others do not. -/
def object_weight : FileName → Nat
  | .utf8 name =>
    match ContentDigest.from_str name with
    | some _ => 1
    | none => 0
  | .raw _ => 0

def is_artifact_name : FileName → Bool
  | .utf8 name => validate_resource_id .artifact name = .ok ()
  | .raw _ => false

/-- The entries of the object directory of an Artifact that have names of objects. -/
def artifact_entries (row : FileName × Entry) : Nat :=
  match row.2 with
  | .branch artifact_root =>
    if is_artifact_name row.1 then
      below (component OBJECTS_DIRECTORY) (fun objects =>
        (objects.rows.map fun row => object_weight row.1).sum) artifact_root
    else 0
  | .leaf _ => 0

/-- The same for the directory of the scanner's tenant. -/
def tenant_entries (scanner : VolumeIntegrityScanner) (row : FileName × Entry) : Nat :=
  if row.1 = .utf8 scanner.tenant_id.as_str then
    match row.2 with
    | .branch tenant_root => below (component ARTIFACTS_DIRECTORY)
        (fun artifacts => (artifacts.rows.map artifact_entries).sum) tenant_root
    | .leaf _ => 0
  else 0

/-- The entries of all object directories of the scanner's tenant that have names of objects. -/
def object_entries (scanner : VolumeIntegrityScanner) (mount : Directory) : Nat :=
  below (component METADATA_DIRECTORY) (below (component OBJECTS_DIRECTORY)
    (below (component TENANTS_DIRECTORY) (below (.utf8 scanner.tenant_id.as_str)
      (below (component ARTIFACTS_DIRECTORY)
        fun artifacts => (artifacts.rows.map artifact_entries).sum)))) mount

def scanned (walk : Walk) : Nat := walk.report.scanned_objects

variable {row : FileName × Entry}

@[simp] theorem scanned_push : (walk.push issue).scanned = walk.scanned := by
  obtain ⟨kind, _, _, _, _⟩ := issue
  cases kind <;> rfl

theorem scanned_child_directory {name : String} {count : Directory → Nat}
    (hvisit : ∀ child path, directory.get (component name) = some (.branch child) →
      (visit child path walk).scanned = walk.scanned + count child) :
    (child_directory directory path name visit walk).scanned =
      walk.scanned + below (component name) count directory := by
  unfold child_directory below
  cases hget : directory.get (component name) with
  | none => rfl
  | some entry =>
    cases entry with
    | branch child => exact hvisit child _ hget
    | leaf leaf => exact scanned_push

theorem scanned_scan_object :
    (scan_object blake3 ns object_id path entry walk).scanned = walk.scanned + 1 := by
  rcases scan_object_cases blake3 ns object_id path entry walk with ⟨-, hscan⟩ | ⟨-, _, hscan⟩ <;>
    rw [hscan]
  · rfl
  · exact scanned_push

theorem scanned_scan_object_entry :
    (scan_object_entry blake3 ns path walk row).scanned = walk.scanned + object_weight row.1 := by
  obtain ⟨name, entry⟩ := row
  cases name with
  | raw bytes => exact scanned_push
  | utf8 name =>
    simp only [scan_object_entry, object_weight]
    by_cases htemp : name = OBJECT_TEMP_DIRECTORY.toList
    · have hnone : from_str OBJECT_TEMP_DIRECTORY.toList = none := by decide
      rw [if_pos htemp, htemp, hnone]
      cases entry with
      | branch child => rfl
      | leaf leaf => exact scanned_push
    · rw [if_neg htemp]
      cases from_str name with
      | none => exact scanned_push
      | some digest => exact scanned_scan_object

theorem scanned_scan_artifact_entry :
    (scan_artifact_entry blake3 path walk row).scanned = walk.scanned + artifact_entries row := by
  obtain ⟨name, entry⟩ := row
  cases name with
  | raw bytes =>
    cases entry <;> exact scanned_push
  | utf8 name =>
    simp only [scan_artifact_entry, artifact_entries, is_artifact_name, decide_eq_true_eq]
    by_cases hvalid : validate_resource_id .artifact name = .ok ()
    · rw [dif_pos hvalid]
      cases entry with
      | leaf leaf => exact scanned_push
      | branch artifact_root =>
        simp only [if_pos hvalid]
        show (scan_object_directory blake3 _ artifact_root _ walk).scanned = _
        apply scanned_child_directory
        intro objects path _
        apply Tree.foldl_rows_count
        intro walk row
        exact scanned_scan_object_entry
    · rw [dif_neg hvalid]
      cases entry with
      | leaf leaf => exact scanned_push
      | branch artifact_root =>
        simp only [if_neg hvalid]
        exact scanned_push

theorem scanned_scan_tenant_entry : (scan_tenant_entry blake3 scanner path walk row).scanned =
      walk.scanned + tenant_entries scanner row := by
  obtain ⟨name, entry⟩ := row
  cases name with
  | raw bytes => exact scanned_push
  | utf8 name =>
    simp only [scan_tenant_entry, tenant_entries, utf8.injEq]
    by_cases hname : name = scanner.tenant_id.as_str
    · rw [if_pos hname, if_pos hname]
      cases entry with
      | leaf leaf => exact scanned_push
      | branch tenant_root =>
        show (scan_artifacts blake3 tenant_root _ walk).scanned = _
        apply scanned_child_directory
        intro artifacts path _
        apply Tree.foldl_rows_count
        intro walk row
        exact scanned_scan_artifact_entry
    · rw [if_neg hname, if_neg hname]
      exact scanned_push

/-- **The walk looks at every entry of the object directories.** -/
theorem scanned_scan_physical (walk : Walk) (hordered : mount.Ordered) :
    (scan_physical blake3 scanner mount walk).scanned =
      walk.scanned + object_entries scanner mount := by
  apply scanned_child_directory
  intro metadata path hmetadata
  apply scanned_child_directory
  intro objects path hobjects
  apply scanned_child_directory
  intro tenants path htenants
  have htenants : tenants.Ordered := ((hordered.get hmetadata).get hobjects).get htenants
  have hother : ∀ row : FileName × Entry, row.1 ≠ .utf8 scanner.tenant_id.as_str →
      tenant_entries scanner row = 0 := by
    intro row hne
    simp [tenant_entries, hne]
  have hcount : (tenants.rows.foldl (scan_tenant_entry blake3 scanner path) walk).scanned =
      walk.scanned + (tenants.rows.map (tenant_entries scanner)).sum := by
    apply Tree.foldl_rows_count
    intro walk row
    exact scanned_scan_tenant_entry
  rw [hcount, Tree.sum_rows_eq htenants hother]
  unfold below
  cases tenants.get (.utf8 scanner.tenant_id.as_str) with
  | none => rfl
  | some entry =>
    cases entry with
    | leaf leaf => simp [tenant_entries]
    | branch tenant_root =>
      simp only [tenant_entries, if_pos]
      rfl

end Walk

/-! ## What is expected -/

/-- The placements that a scrub has to account for. -/
def volume_placements (scanner : VolumeIntegrityScanner)
    (inventory : List Materialization.ObjectPlacement) : List Materialization.ObjectPlacement :=
  inventory.filter fun placement => on_volume scanner placement ∧ is_active placement.state

/-- An object is expected with a size. -/
def Expected.HasSize (expected : Expected) (key : ObjectIdentity) (size : UInt64) : Prop :=
  ∃ placements, expected.placements[key]? = some placements ∧
    ∃ placement ∈ placements, placement.size = size

/-- What was seen is expected, and nothing is expected without a size. -/
structure Expected.Consistent (expected : Expected) : Prop where
  seen : ∀ key size, toLex (key, UInt64.toNat size) ∈ expected.seen → expected.HasSize key size
  sized : ∀ (key : ObjectIdentity) (placements : List Materialization.ObjectPlacement),
    expected.placements[key]? = some placements → placements ≠ []

section Expecting

variable {expected : Expected} {key : ObjectIdentity} {size : UInt64}

theorem hasSize_expect (h : expected.Consistent) (placement : Materialization.ObjectPlacement)
    (key : ObjectIdentity) (size : UInt64) :
    (expect expected placement).Consistent ∧
      ((expect expected placement).HasSize key size ↔
        expected.HasSize key size ∨ (identity placement = key ∧ placement.size = size)) := by
  have hall : ∀ key size, (expect expected placement).HasSize key size ↔
      expected.HasSize key size ∨ (identity placement = key ∧ placement.size = size) := by
    intro key size
    unfold expect
    by_cases hseen : toLex (identity placement, placement.size.toNat) ∈ expected.seen
    · simp only [if_pos hseen]
      constructor
      · exact .inl
      · intro hor
        rcases hor with hhas | ⟨rfl, rfl⟩
        · exact hhas
        · exact h.seen _ _ hseen
    · simp only [if_neg hseen, Expected.HasSize, getElem?_insert_eq]
      by_cases hkey : identity placement = key
      · subst hkey
        simp only [if_pos, Option.some.injEq, exists_eq_left', mem_append,
          mem_singleton, or_and_right, exists_or, exists_eq_left, true_and]
        cases expected.placements[identity placement]? with
        | none => simp
        | some placements => simp
      · simp [hkey]
  refine ⟨⟨?_, ?_⟩, hall key size⟩
  · intro key size hmem
    rw [hall]
    unfold expect at hmem
    by_cases hseen : toLex (identity placement, placement.size.toNat) ∈ expected.seen
    · simp only [if_pos hseen] at hmem
      exact .inl (h.seen key size hmem)
    · simp only [if_neg hseen, ExtTreeSet.mem_insert, compare_eq_iff_eq] at hmem
      rcases hmem with heq | hmem
      · obtain ⟨hkey, hsize⟩ := Prod.mk.inj (toLex.injective heq)
        exact .inr ⟨hkey, UInt64.toNat_inj.mp hsize⟩
      · exact .inl (h.seen key size hmem)
  · intro key placements hget
    unfold expect at hget
    by_cases hseen : toLex (identity placement, placement.size.toNat) ∈ expected.seen
    · simp only [if_pos hseen] at hget
      exact h.sized key placements hget
    · simp only [if_neg hseen, getElem?_insert_eq] at hget
      by_cases hkey : identity placement = key
      · rw [if_pos hkey] at hget
        cases hget
        simp
      · rw [if_neg hkey] at hget
        exact h.sized key placements hget

/-- **Step**: a valid placement is expected if it is active and on the Volume. -/
theorem hasSize_collect_placement (h : expected.Consistent)
    {placement : Materialization.ObjectPlacement} (hvalid : placement.validate = .ok ())
    (key : ObjectIdentity) (size : UInt64) :
    (collect_placement scanner expected placement).Consistent ∧
      ((collect_placement scanner expected placement).HasSize key size ↔
        expected.HasSize key size ∨ ((on_volume scanner placement ∧ is_active placement.state) ∧
          identity placement = key ∧ placement.size = size)) := by
  unfold collect_placement
  split
  · next hboth =>
    split
    · next hstate =>
      simp only [hboth.2, hstate, and_self, true_and]
      exact hasSize_expect h placement key size
    · next hstate => exact ⟨h, by simp [hstate]⟩
  · next hneither =>
    have hvolume : ¬ on_volume scanner placement := fun hon => hneither ⟨hvalid, hon⟩
    exact ⟨⟨h.seen, h.sized⟩, by simp [hvolume, Expected.HasSize]⟩

variable {inventory : List Materialization.ObjectPlacement}

/-- An object is expected with the sizes that the active placements on the Volume give it. -/
theorem collect_expected_spec (hvalid : ∀ placement ∈ inventory, placement.validate = .ok ())
    {report : VolumeIntegrityReport} (key : ObjectIdentity) (size : UInt64) :
    (collect_expected scanner inventory report).Consistent ∧
      ((collect_expected scanner inventory report).HasSize key size ↔
        ∃ placement ∈ volume_placements scanner inventory,
          identity placement = key ∧ placement.size = size) := by
  have hfold : ∀ (l : List Materialization.ObjectPlacement) (expected : Expected),
      (∀ placement ∈ l, placement.validate = .ok ()) → expected.Consistent →
      (l.foldl (collect_placement scanner) expected).Consistent ∧
        ((l.foldl (collect_placement scanner) expected).HasSize key size ↔
          expected.HasSize key size ∨ ∃ placement ∈ volume_placements scanner l,
            identity placement = key ∧ placement.size = size) := by
    intro l
    induction l with
    | nil =>
      intro expected _ h
      simpa [volume_placements] using h
    | cons placement l ih =>
      intro expected hl h
      obtain ⟨hplacement, hrest⟩ := forall_mem_cons.mp hl
      obtain ⟨hconsistent, hsizes⟩ := hasSize_collect_placement h hplacement key size
      obtain ⟨hlast, hall⟩ := ih _ hrest hconsistent
      refine ⟨hlast, ?_⟩
      rw [foldl_cons, hall, hsizes, or_assoc]
      apply or_congr_right
      simp only [volume_placements, mem_filter, decide_eq_true_eq, and_assoc, mem_cons,
        or_and_right, exists_or, exists_eq_left]
  have hempty : (⟨∅, ∅, report⟩ : Expected).Consistent := by
    constructor
    · intro key size hmem
      simp at hmem
    · intro key placements hget
      simp at hget
  obtain ⟨hconsistent, hall⟩ := hfold inventory ⟨∅, ∅, report⟩ hvalid hempty
  refine ⟨hconsistent, ?_⟩
  rw [collect_expected, hall]
  simp [Expected.HasSize]

end Expecting

/-! ## The observations -/

/-- What a report says about the corruption and the absence of objects, before the last two
loops. -/
structure NoIssues (report : VolumeIntegrityReport) : Prop where
  missing : report.missing = []
  corrupt : ∀ key, ¬ Concerned report.corrupt key
  scanned : report.scanned_objects = 0

theorem collect_expected_noIssues (scanner : VolumeIntegrityScanner)
    (inventory : List Materialization.ObjectPlacement) :
    NoIssues (collect_expected scanner inventory .empty).report := by
  have hempty : NoIssues .empty := ⟨rfl, by simp [Concerned, VolumeIntegrityReport.empty], rfl⟩
  apply foldl_keeps (P := fun expected : Expected => NoIssues expected.report) _ hempty
  intro expected placement h
  unfold collect_placement
  split
  · split
    · unfold expect
      dsimp only
      split
      · exact h
      · exact h
    · exact h
  · exact ⟨h.missing, h.corrupt, h.scanned⟩

section Loops

variable {report : VolumeIntegrityReport} {key : ObjectIdentity} {mount : Directory}
  {expected : ExtTreeMap ObjectIdentity (List Materialization.ObjectPlacement)}

variable {physical : ExtTreeMap ObjectIdentity MountPath}

theorem mem_map_iff {ν : Type} {m : ExtTreeMap ObjectIdentity ν} :
    key ∈ m ↔ ∃ value, m[key]? = some value := by
  rw [← ExtTreeMap.isSome_getElem?_iff_mem, Option.isSome_iff_exists]

variable {observed : ExtTreeSet ObjectIdentity}

theorem concerned_report_missing :
    Concerned (expected.toList.foldl (scanner.report_missing observed) report).missing key ↔
      Concerned report.missing key ∨ (key ∈ expected ∧ key ∉ observed) := by
  rw [foldl_adds_iff (X := fun report : VolumeIntegrityReport => Concerned report.missing key)
    (R := fun entry => key = entry.1 ∧ entry.1 ∉ observed), mem_map_iff]
  · simp only [Prod.exists, ExtTreeMap.mem_toList_iff_getElem?_eq_some]
    apply or_congr_right
    constructor
    · intro ⟨key', placements, hget, heq, hnot⟩
      subst heq
      exact ⟨⟨placements, hget⟩, hnot⟩
    · intro ⟨⟨placements, hget⟩, hnot⟩
      exact ⟨key, placements, hget, rfl, hnot⟩
  · intro report entry _
    unfold report_missing
    by_cases hobserved : entry.1 ∈ observed
    · simp [hobserved]
    · simp only [if_neg hobserved]
      show Concerned (_ ++ [_]) key ↔ _
      rw [concerned_append_of entry.1 rfl rfl]
      simp only [hobserved, not_false_eq_true, and_true]

theorem report_missing_corrupt :
    (expected.toList.foldl (scanner.report_missing observed) report).corrupt = report.corrupt ∧
      (expected.toList.foldl (scanner.report_missing observed) report).scanned_objects =
        report.scanned_objects := by
  apply foldl_keeps (P := fun r : VolumeIntegrityReport =>
    r.corrupt = report.corrupt ∧ r.scanned_objects = report.scanned_objects) _ ⟨rfl, rfl⟩
  intro r entry h
  unfold report_missing
  by_cases hobserved : entry.1 ∈ observed
  · simp only [if_pos hobserved]
    exact h
  · simp only [if_neg hobserved]
    exact h

theorem concerned_report_physical :
    Concerned (physical.toList.foldl (report_physical mount expected) report).corrupt key ↔
      Concerned report.corrupt key ∨ ∃ path placements, physical[key]? = some path ∧
        expected[key]? = some placements ∧ ∀ placement ∈ placements,
          placement.size ≠ metadata_len mount path := by
  rw [foldl_adds_iff (X := fun report : VolumeIntegrityReport => Concerned report.corrupt key)
    (R := fun entry => key = entry.1 ∧ ∃ placements, expected[entry.1]? = some placements ∧
      ∀ placement ∈ placements,
        placement.size ≠ metadata_len mount entry.2)]
  · simp only [Prod.exists, ExtTreeMap.mem_toList_iff_getElem?_eq_some]
    apply or_congr_right
    constructor
    · intro ⟨key', path, hget, heq, placements, hplacements, hsizes⟩
      subst heq
      exact ⟨path, placements, hget, hplacements, hsizes⟩
    · intro ⟨path, placements, hget, hplacements, hsizes⟩
      exact ⟨key, path, hget, rfl, placements, hplacements, hsizes⟩
  · intro report entry _
    unfold report_physical
    cases hexpected : expected[entry.1]? with
    | none =>
      simp only [hexpected]
      simp [VolumeIntegrityReport.push]
    | some placements =>
      simp only [hexpected, Option.some.injEq, exists_eq_left']
      by_cases hany : placements.any fun placement =>
          placement.size = metadata_len mount entry.2
      · rw [if_pos hany]
        simp only [List.any_eq_true, decide_eq_true_eq] at hany
        obtain ⟨placement, hmem, hsize⟩ := hany
        constructor
        · exact .inl
        · intro hor
          rcases hor with h | ⟨_, hall⟩
          · exact h
          · exact absurd hsize (hall placement hmem)
      · rw [if_neg hany]
        show Concerned (_ ++ [_]) key ↔ _
        rw [concerned_append_of entry.1 rfl rfl]
        simp only [List.any_eq_true, decide_eq_true_eq, not_exists, not_and] at hany
        exact or_congr_right (and_iff_left hany).symm

theorem report_physical_missing :
    (physical.toList.foldl (report_physical mount expected) report).missing = report.missing ∧
      (physical.toList.foldl (report_physical mount expected)
        report).scanned_objects = report.scanned_objects := by
  apply foldl_keeps (P := fun r : VolumeIntegrityReport =>
    r.missing = report.missing ∧ r.scanned_objects = report.scanned_objects) _ ⟨rfl, rfl⟩
  intro r entry h
  unfold report_physical
  dsimp only
  split
  · split
    · exact h
    · exact h
  · exact h

end Loops

/-- Some placement on the Volume says that an object has a size. -/
def Claimed (scanner : VolumeIntegrityScanner)
    (inventory : List Materialization.ObjectPlacement) (key : ObjectIdentity) (size : UInt64) :
    Prop :=
  ∃ placement ∈ volume_placements scanner inventory, identity placement = key ∧
    placement.size = size

theorem mem_collect_expected (hvalid : ∀ placement ∈ inventory, placement.validate = .ok ())
    {report : VolumeIntegrityReport} :
    key ∈ (collect_expected scanner inventory report).placements ↔
      ∃ size, Claimed scanner inventory key size := by
  have hspec := @collect_expected_spec scanner inventory hvalid report key
  simp only [Claimed, ← (hspec _).2, Expected.HasSize, mem_map_iff]
  constructor
  · rintro ⟨placements, hget⟩
    obtain ⟨placement, hmem⟩ := exists_mem_of_ne_nil _ ((hspec 0).1.sized key placements hget)
    exact ⟨placement.size, placements, hget, placement, hmem, rfl⟩
  · rintro ⟨_, placements, hget, _⟩
    exact ⟨placements, hget⟩

/-- **What a scan reports about an object**: it is corrupt if something unsound is at its path, or
a sound file of a size that no placement gives; it is missing if nothing is at its path. -/
theorem scan_spec
    (hvalid : ∀ placement ∈ inventory, placement.validate = .ok ()) {mount : Directory}
    (hordered : mount.Ordered) :
    ∃ report, scanner.scan blake3 inventory (.branch mount) = .ok report ∧
      report.scanned_objects = object_entries scanner mount ∧
      (∀ key, Concerned report.missing key ↔
        (∃ size, Claimed scanner inventory key size) ∧
          (Node.branch mount).find (scanner.object_path key) = none) ∧
      ∀ key, Concerned report.corrupt key ↔
        ∃ entry, (Node.branch mount).find (scanner.object_path key) = some entry ∧
          (¬ Sound blake3 (identity_object key) entry ∨
            ((∃ size, Claimed scanner inventory key size) ∧
              ∀ content, entry = .leaf (.file content) →
                ¬ Claimed scanner inventory key content.len)) := by
  have hclean := collect_expected_noIssues scanner inventory
  let expected := collect_expected scanner inventory .empty
  let start : Walk := ⟨∅, ∅, expected.report⟩
  let walk := scan_physical blake3 scanner mount start
  -- what is expected
  have hsizes : ∀ key size, expected.HasSize key size ↔ Claimed scanner inventory key size :=
    fun key size => (collect_expected_spec hvalid key size).2
  have hexpected : ∀ key, key ∈ expected.placements ↔
      ∃ size, Claimed scanner inventory key size := fun _ => mem_collect_expected hvalid
  -- what the walk finds
  have hfound : ∀ finding key, walk.Has finding key ↔
      Walk.FoundAt blake3 finding key (.branch mount) (scanner.object_path key) := by
    intro finding key
    have hstart : ¬ start.Has finding key := by
      cases finding with
      | observed => simp [Walk.Has, start]
      | corrupt => exact hclean.corrupt key
      | sound => simp [Walk.Has, start]
    rw [has_scan_physical hordered]
    simp only [hstart, false_or]
  have hmissing : walk.report.missing = [] := scan_physical_missing hclean.missing
  have hscanned : walk.report.scanned_objects = object_entries scanner mount := by
    show (scan_physical blake3 scanner mount start).scanned = _
    rw [scanned_scan_physical start hordered, show start.scanned = 0 from hclean.scanned,
      Nat.zero_add]
  have hpaths : Walk.PathsKnown scanner walk :=
    scan_physical_paths (by intro key path h; simp [start] at h)
  refine ⟨_, rfl, ?_, ?_, ?_⟩
  · rw [report_physical_missing.2, report_missing_corrupt.2]
    exact hscanned
  · intro key
    have hnone : ¬ Concerned walk.report.missing key := by
      rw [hmissing]
      simp [Concerned]
    have hobserved : key ∉ walk.observed ↔
        (Node.branch mount).find (scanner.object_path key) = none := by
      show ¬ walk.Has .observed key ↔ _
      rw [hfound]
      simp only [Walk.FoundAt, Finding.Of, and_true, Option.eq_none_iff_forall_ne_some, not_exists,
        ne_eq]
    rw [report_physical_missing.1, concerned_report_missing]
    show Concerned walk.report.missing key ∨ (key ∈ expected.placements ∧ key ∉ walk.observed) ↔ _
    rw [hobserved, hexpected]
    simp only [hnone, false_or]
  · intro key
    rw [concerned_report_physical, report_missing_corrupt.1]
    show walk.Has .corrupt key ∨ (∃ path placements, walk.physical[key]? = some path ∧
      expected.placements[key]? = some placements ∧ _) ↔ _
    rw [hfound]
    constructor
    · intro h
      rcases h with ⟨entry, hfind, hunsound⟩ | ⟨path, placements, hphysical, hplacements, hother⟩
      · exact ⟨entry, hfind, .inl hunsound⟩
      · have hsound : walk.Has .sound key := mem_map_iff.mpr ⟨path, hphysical⟩
        obtain ⟨entry, hfind, content, rfl, _⟩ := (hfound .sound key).mp hsound
        have hclaimed : ∃ size, Claimed scanner inventory key size :=
          (hexpected key).mp (mem_map_iff.mpr ⟨placements, hplacements⟩)
        refine ⟨_, hfind, .inr ⟨hclaimed, ?_⟩⟩
        intro content' heq hclaim
        cases heq
        obtain ⟨placements', hplacements', placement, hmem, hsize⟩ := (hsizes key _).mpr hclaim
        cases hplacements.symm.trans hplacements'
        apply hother placement hmem
        rw [hsize, hpaths key path hphysical]
        simp only [metadata_len, hfind]
    · rintro ⟨entry, hfind, h⟩
      by_cases hsound : Sound blake3 (identity_object key) entry
      · rcases h with hunsound | ⟨hclaimed, hother⟩
        · exact absurd hsound hunsound
        · obtain ⟨content, rfl, hdigest⟩ := hsound
          have hphysical : walk.Has .sound key :=
            (hfound .sound key).mpr ⟨_, hfind, content, rfl, hdigest⟩
          obtain ⟨path, hpath⟩ := mem_map_iff.mp hphysical
          obtain ⟨placements, hplacements⟩ := mem_map_iff.mp ((hexpected key).mpr hclaimed)
          refine .inr ⟨path, placements, hpath, hplacements, ?_⟩
          intro placement hmem hsize
          rw [hpaths key path hpath] at hsize
          simp only [metadata_len, hfind] at hsize
          exact hother content rfl
            ((hsizes key _).mp ⟨placements, hplacements, placement, hmem, hsize⟩)
      · exact .inl ⟨entry, hfind, hsound⟩

/-! ## When the report is accepted -/

/-- The health of a copy, as it should be reported. -/
def health (blake3 : Blake3) (scanner : VolumeIntegrityScanner) (mount : Directory)
    (placement : Materialization.ObjectPlacement) : PlacementHealthState :=
  match (Node.branch mount).find (scanner.object_path (identity placement)) with
  | none => .Missing
  | some (.leaf (.file content)) =>
    if content.len = placement.size ∧ blake3 content.bytes = placement.object_id.digest then
      .Healthy
    else .Corrupt
  | some _ => .Corrupt

section

variable (blake3 : Blake3) (scanner : VolumeIntegrityScanner) (mount : Directory)
  (inventory : List Materialization.ObjectPlacement)

/-- Where a sound file has the size that one placement of its object gives, all placements of the
object give it. -/
def SizesAgree : Prop :=
  ∀ p ∈ volume_placements scanner inventory, ∀ q ∈ volume_placements scanner inventory,
    identity p = identity q → ∀ content,
      (Node.branch mount).find (scanner.object_path (identity p)) =
        some (.leaf (.file content)) →
      blake3 content.bytes = p.object_id.digest → content.len = q.size → p.size = q.size

/-- The copies that are in a state of health. -/
def copies_in (state : PlacementHealthState) : Nat :=
  ((volume_placements scanner inventory).filter fun placement =>
    health blake3 scanner mount placement = state).length

/-- When Central accepts the report of a scrub, and the report is right. -/
structure Reportable (mount_generation : MountGeneration)
    (observed_at_unix_ms : UnixMillis) : Prop where
  /-- The clock and the mount have been set. -/
  clock : observed_at_unix_ms ≠ 0
  mounted : mount_generation ≠ 0
  /-- There are not too many placements, and each has its own identifier. -/
  limit : (volume_placements scanner inventory).length ≤
    Materialization.MAX_MATERIALIZATION_BATCH_OBJECTS
  distinct : ((volume_placements scanner inventory).map (·.placement_id)).Nodup
  sizes : SizesAgree blake3 scanner mount inventory
  /-- There are at least as many entries as there are copies in one state of health. -/
  healthy : copies_in blake3 scanner mount inventory .Healthy ≤ Walk.object_entries scanner mount
  missing : copies_in blake3 scanner mount inventory .Missing ≤ Walk.object_entries scanner mount
  corrupt : copies_in blake3 scanner mount inventory .Corrupt ≤ Walk.object_entries scanner mount

end

theorem any_concerns_iff {placement : Materialization.ObjectPlacement} :
    issues.any (VolumeIntegrityScanner.concerns placement) = true ↔
      Concerned issues (identity placement) := by
  rw [List.any_eq_true]
  apply exists_congr
  intro issue
  apply and_congr_right
  intro _
  exact decide_eq_true_iff

section Report

variable {inventory : List Materialization.ObjectPlacement} {mount : Directory}
  {report : VolumeIntegrityReport} {placement : Materialization.ObjectPlacement}

/-- A placement is observed in its health unless its file is sound and has a size that another
placement of the object gives. -/
theorem observed_state_eq_health_iff
    (hmissing : ∀ key, Concerned report.missing key ↔
      (∃ size, Claimed scanner inventory key size) ∧
        (Node.branch mount).find (scanner.object_path key) = none)
    (hcorrupt : ∀ key, Concerned report.corrupt key ↔
      ∃ entry, (Node.branch mount).find (scanner.object_path key) = some entry ∧
        (¬ Sound blake3 (identity_object key) entry ∨
          ((∃ size, Claimed scanner inventory key size) ∧
            ∀ content, entry = .leaf (.file content) →
              ¬ Claimed scanner inventory key content.len)))
    (hplacement : placement ∈ volume_placements scanner inventory) :
    observed_state report placement = health blake3 scanner mount placement ↔
      ∀ content, (Node.branch mount).find (scanner.object_path (identity placement)) =
          some (.leaf (.file content)) → blake3 content.bytes = placement.object_id.digest →
        Claimed scanner inventory (identity placement) content.len →
        content.len = placement.size := by
  have hclaimed : Claimed scanner inventory (identity placement) placement.size :=
    ⟨placement, hplacement, rfl, rfl⟩
  unfold observed_state health
  classical
  simp only [any_concerns_iff, hmissing, hcorrupt]
  cases hfind : (Node.branch mount).find (scanner.object_path (identity placement)) with
  | none =>
    have hexists : ∃ size, Claimed scanner inventory (identity placement) size := ⟨_, hclaimed⟩
    simp [hexists]
  | some entry =>
    by_cases hsound : Sound blake3 placement.object_id entry
    · obtain ⟨content, rfl, hdigest⟩ := hsound
      have hsound : Sound blake3 (identity_object (identity placement)) (.leaf (.file content)) :=
        ⟨content, rfl, hdigest⟩
      have hexists : ∃ size, Claimed scanner inventory (identity placement) size := ⟨_, hclaimed⟩
      by_cases hclaim : Claimed scanner inventory (identity placement) content.len
      · simp [hsound, hexists, hclaim, hdigest]
      · -- a size that nobody claims is not the one of this placement
        have hne : content.len ≠ placement.size := fun heq => hclaim (heq ▸ hclaimed)
        simp [hsound, hexists, hclaim, hne]
    · have hnot : ¬ Sound blake3 (identity_object (identity placement)) entry := hsound
      have hbad : ∀ content, entry = .leaf (.file content) →
          blake3 content.bytes ≠ placement.object_id.digest :=
        fun content heq hdigest => hsound ⟨content, heq, hdigest⟩
      have hleft : ∃ found, some entry = some found ∧
          (¬ Sound blake3 (identity_object (identity placement)) found ∨
            ((∃ size, Claimed scanner inventory (identity placement) size) ∧
              ∀ content, found = .leaf (.file content) →
                ¬ Claimed scanner inventory (identity placement) content.len)) :=
        ⟨entry, rfl, .inl hnot⟩
      rw [if_pos hleft]
      constructor
      · intro _ content heq hdigest
        exact absurd hdigest (hbad content (Option.some.inj heq))
      · intro _
        split
        · next heq => cases heq
        · next content heq =>
          cases heq
          rw [if_neg (fun h => hbad content rfl h.2)]
        · rfl

theorem sizesAgree_iff : SizesAgree blake3 scanner mount inventory ↔
      ∀ p ∈ volume_placements scanner inventory, ∀ content,
        (Node.branch mount).find (scanner.object_path (identity p)) = some (.leaf (.file content)) →
        blake3 content.bytes = p.object_id.digest →
        Claimed scanner inventory (identity p) content.len → content.len = p.size := by
  constructor
  · intro h p hp content hfind hdigest ⟨q, hq, hsame, hsize⟩
    rw [← hsize]
    exact (h p hp q hq hsame.symm content hfind hdigest hsize.symm).symm
  · intro h p hp q hq hsame content hfind hdigest hsize
    have hlen := h p hp content hfind hdigest ⟨q, hq, hsame.symm, hsize.symm⟩
    exact hlen.symm.trans hsize

theorem max_generation_ne_zero (hvalid : ∀ placement ∈ inventory, placement.validate = .ok ()) :
    (inventory.map (·.placement_generation)).max?.getD 1 ≠ 0 := by
  cases hmax : (inventory.map (·.placement_generation)).max? with
  | none => decide
  | some generation =>
    have : Std.MaxEqOr UInt64 := ⟨fun a b => by
      show (if a ≤ b then b else a) = a ∨ (if a ≤ b then b else a) = b
      split
      · exact .inr rfl
      · exact .inl rfl⟩
    have hmem := max?_mem hmax
    obtain ⟨placement, hplacement, rfl⟩ := mem_map.mp hmem
    have h := hvalid placement hplacement
    simp only [Materialization.ObjectPlacement.validate, validate_positive, ok_iff] at h
    exact h.2.1

/-- Central accepts the report if the counts do not exceed the number of scanned objects. -/
theorem report_validate_eq_ok (hvalid : ∀ placement ∈ inventory, placement.validate = .ok ())
    {scan_id : IntegrityScanId} {mount_generation : MountGeneration}
    {observed_at_unix_ms : UnixMillis} :
    (scanner.report_to_integrity_report inventory report scan_id mount_generation
        observed_at_unix_ms).validate = .ok () ↔ observed_at_unix_ms ≠ 0 ∧ mount_generation ≠ 0 ∧
      (volume_placements scanner inventory).length ≤
        Materialization.MAX_MATERIALIZATION_BATCH_OBJECTS ∧
      ((volume_placements scanner inventory).map (·.placement_id)).Nodup ∧
      ∀ state ∈ [PlacementHealthState.Healthy, .Missing, .Corrupt],
        ((volume_placements scanner inventory).filter fun placement =>
          observed_state report placement = state).length ≤
            report.scanned_objects := by
  have hgeneration := max_generation_ne_zero hvalid
  set observations := (volume_placements scanner inventory).map
    (scanner.observation report scan_id observed_at_unix_ms) with hmap
  have hcount : ∀ state, count_state observations state =
      ((volume_placements scanner inventory).filter fun placement =>
        observed_state report placement = state).length := by
    intro state
    unfold count_state
    rw [hmap, List.filter_map, length_map]
    rfl
  have hobservations : ∀ placement ∈ volume_placements scanner inventory, observed_at_unix_ms ≠ 0 →
      (scanner.observation report scan_id observed_at_unix_ms placement).validate = .ok () := by
    intro placement hplacement hclock
    have h := hvalid placement (mem_of_mem_filter hplacement)
    simp only [Materialization.ObjectPlacement.validate, validate_positive, ok_iff] at h
    obtain ⟨_, hpositive, hdigest, _⟩ := h
    simp only [PlacementHealthObservation.validate, validate_positive, ok_iff]
    exact ⟨hpositive, hclock, fun _ => hdigest, rfl⟩
  have hseen : ∀ seen : PlacementId, seen ∉ (∅ : ExtTreeSet PlacementId) :=
    fun _ => ExtTreeSet.not_mem_empty
  simp only [IntegrityScanReport.validate, ok_iff, validate_positive,
    Materialization.validate_observations_eq_ok]
  rw [VolumeIntegrityScan.validate_eq_ok rfl rfl]
  show ((inventory.map (·.placement_generation)).max?.getD 1 ≠ 0 ∧ observed_at_unix_ms ≠ 0 ∧
      count_state observations .Healthy ≤ _ ∧
      count_state observations .Missing ≤ _ ∧
      count_state observations .Corrupt ≤ _) ∧
    mount_generation ≠ 0 ∧ observations.length ≤ _ ∧
    ((∀ o ∈ observations, _) ∧ (observations.map (·.placement_id)).Nodup) ∧ _ ↔ _
  rw [hcount, hcount, hcount, hmap, length_map, List.map_map]
  constructor
  · rintro ⟨⟨_, hclock, hhealthy, hmissing, hcorrupt⟩, hmounted, hlimit, ⟨_, hnodup⟩, _⟩
    refine ⟨hclock, hmounted, hlimit, hnodup, ?_⟩
    simp only [forall_mem_cons, not_mem_nil, false_implies, implies_true, and_true]
    exact ⟨hhealthy, hmissing, hcorrupt⟩
  · rintro ⟨hclock, hmounted, hlimit, hnodup, hcounts⟩
    simp only [forall_mem_cons, not_mem_nil, false_implies, implies_true, and_true] at hcounts
    refine ⟨⟨hgeneration, hclock, hcounts⟩, hmounted, hlimit, ⟨?_, hnodup⟩, rfl⟩
    intro o ho
    obtain ⟨placement, hplacement, rfl⟩ := mem_map.mp ho
    exact ⟨hobservations placement hplacement hclock, rfl, rfl, rfl, hseen _⟩

/-- **The report of a scrub**: it has the health of every active copy on the Volume and Central
accepts it exactly if the number of entries in the object directories bounds the number of
copies in each state of health, and no two placements of one object disagree about the size of
a sound file. -/
theorem volume_scrub_report (blake3 : Blake3) (scanner : VolumeIntegrityScanner)
    (inventory : List Materialization.ObjectPlacement)
    (hvalid : ∀ placement ∈ inventory, placement.validate = .ok ()) (mount : Directory)
    (hordered : mount.Ordered) (scan_id : IntegrityScanId) (mount_generation : MountGeneration)
    (observed_at_unix_ms : UnixMillis) :
    (∃ report, scanner.scan_report blake3 inventory (.branch mount) scan_id mount_generation
        observed_at_unix_ms = .ok report ∧ report.validate = .ok () ∧
      report.observations.map (fun observation =>
          (observation.placement_id, observation.object_namespace_id, observation.object_id,
            observation.placement_generation, observation.state)) =
        (volume_placements scanner inventory).map fun placement =>
          (placement.placement_id, placement.object_namespace_id, placement.object_id,
            placement.placement_generation, health blake3 scanner mount placement)) ↔
      Reportable blake3 scanner mount inventory mount_generation observed_at_unix_ms := by
  obtain ⟨report, hscan, hscanned, hmissing, hcorrupt⟩ :
      ∃ report, scanner.scan blake3 inventory (.branch mount) = .ok report ∧ _ :=
    scan_spec hvalid hordered
  have hreport : scanner.scan_report blake3 inventory (.branch mount) scan_id mount_generation
      observed_at_unix_ms = .ok (scanner.report_to_integrity_report inventory report scan_id
        mount_generation observed_at_unix_ms) := by
    unfold VolumeIntegrityScanner.scan_report
    rw [hscan]
    rfl
  have hobserved : (∀ placement ∈ volume_placements scanner inventory,
      observed_state report placement =
        health blake3 scanner mount placement) ↔ SizesAgree blake3 scanner mount inventory := by
    rw [sizesAgree_iff]
    apply forall₂_congr
    intro placement hplacement
    exact observed_state_eq_health_iff hmissing hcorrupt hplacement
  have hright : (((volume_placements scanner inventory).map
        (scanner.observation report scan_id observed_at_unix_ms)).map fun observation =>
          (observation.placement_id, observation.object_namespace_id, observation.object_id,
            observation.placement_generation, observation.state)) =
        ((volume_placements scanner inventory).map fun placement =>
          (placement.placement_id, placement.object_namespace_id, placement.object_id,
            placement.placement_generation, health blake3 scanner mount placement)) ↔
      SizesAgree blake3 scanner mount inventory := by
    rw [List.map_map, map_inj_left, ← hobserved]
    simp only [Function.comp, VolumeIntegrityScanner.observation, Prod.mk.injEq, true_and]
  -- where the states are right, the counts are those of the copies
  have hcounts : SizesAgree blake3 scanner mount inventory → ∀ state,
      ((volume_placements scanner inventory).filter fun placement =>
        observed_state report placement = state).length =
      copies_in blake3 scanner mount inventory state := by
    intro hsizes state
    unfold copies_in
    congr 1
    apply filter_congr
    intro placement hplacement
    rw [hobserved.mpr hsizes placement hplacement]
  constructor
  · intro ⟨found, hfound, haccepted, hobservations⟩
    cases hreport.symm.trans hfound
    have hsizes := hright.mp hobservations
    obtain ⟨hclock, hmounted, hlimit, hdistinct, hbounds⟩ :=
      (report_validate_eq_ok hvalid).mp haccepted
    simp only [forall_mem_cons, not_mem_nil, false_implies, implies_true, and_true,
      hcounts hsizes, hscanned] at hbounds
    exact ⟨hclock, hmounted, hlimit, hdistinct, hsizes, hbounds.1, hbounds.2.1, hbounds.2.2⟩
  · intro h
    refine ⟨_, hreport, ?_, hright.mpr h.sizes⟩
    apply (report_validate_eq_ok hvalid).mpr
    refine ⟨h.clock, h.mounted, h.limit, h.distinct, ?_⟩
    simp only [forall_mem_cons, not_mem_nil, false_implies, implies_true, and_true,
      hcounts h.sizes, hscanned]
    exact ⟨h.healthy, h.missing, h.corrupt⟩

end Report

namespace ScrubSample

def volume : VolumeIntegrityScanner := ⟨.named "b" (by decide), .named "f" (by decide)⟩
def scan_id : IntegrityScanId := .named "i" (by decide)

def placement : Materialization.ObjectPlacement :=
  ⟨.named "g" (by decide), volume.tenant_id, .named "h" (by decide), ⟨digest_of_nat 0⟩, 0, .Raw,
    digest_of_nat 0, some volume.storage_volume_id, none, 1, .Verified, ['z']⟩

def nest (entry : Entry) : MountPath → Entry
  | [] => entry
  | name :: path => .branch (.cons name (nest entry path) .nil)

def mount : Directory :=
  .cons (component METADATA_DIRECTORY)
    (nest (.leaf (.file .empty)) (volume.object_path (identity placement)).tail) .nil

theorem placement_valid : ∀ p ∈ [placement], p.validate = .ok () := by
  decide +kernel

theorem nest_ordered {entry : Entry} (h : entry.Ordered) (path : MountPath) :
    (nest entry path).Ordered := by
  induction path with
  | nil => exact h
  | cons name path ih => exact ⟨ih, fun _ hmem => absurd hmem not_mem_nil, trivial⟩

theorem mount_ordered : mount.Ordered :=
  nest_ordered (show (Node.leaf (.file .empty) : Entry).Ordered from trivial)
    (volume.object_path (identity placement))

theorem mount_reportable : Reportable poly_hash volume mount [placement] 1 1 where
  clock := by decide
  mounted := by decide
  limit := by decide +kernel
  distinct := by decide +kernel
  sizes := by
    intro p hp q hq
    have hone : ∀ p ∈ volume_placements volume [placement], p = placement := by
      intro p hp
      exact mem_singleton.mp (mem_of_mem_filter hp)
    rw [hone p hp, hone q hq]
    intros
    rfl
  healthy := by decide +kernel
  missing := by decide +kernel
  corrupt := by decide +kernel

end ScrubSample

open ScrubSample in
theorem volume_scrub_report_sample : Reportable poly_hash volume mount [placement] 1 1 ∧
      ∃ report, volume.scan_report poly_hash [placement] (.branch mount) scan_id 1 1 =
          .ok report ∧ report.validate = .ok () := by
  obtain ⟨report, hscan, haccepted, _⟩ := (volume_scrub_report poly_hash volume [placement]
    placement_valid mount mount_ordered scan_id 1 1).mpr mount_reportable
  exact ⟨mount_reportable, report, hscan, haccepted⟩

open ScrubSample in
/-- A lost object, with all directories: Central rejects the report, as no object was checked and
one is missing. -/
theorem lost_object_report_rejected : (∀ p ∈ [placement], p.validate = .ok ()) ∧
      ∃ report, volume.scan_report poly_hash [placement] (.branch .nil) scan_id 1 1 =
          .ok report ∧
        report.validate =
          .error (.InvalidField "missing_objects" "cannot exceed checked_objects") :=
  ⟨placement_valid, _, rfl, by decide +kernel⟩

end NeoEngram.Agent

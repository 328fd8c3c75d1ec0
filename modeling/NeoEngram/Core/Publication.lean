import NeoEngram.Framework.Tables
import NeoEngram.Core.Injectivity

/-! # The identity of a publication

A managed Add proposes an Index delta together with the Manifests of its
upserts and the payload objects of these Manifests. `add_publication_digest`
checks that the three form one closed graph (`Closed`,
`publication_closure_eq_ok`) and hashes one text, in which identities stand in
their order (`add_publication_digest_eq_ok`).
-/

namespace NeoEngram

open Checks Framing Tables List UInt64 ChunkRef Manifest
open Std (ExtTreeMap ExtTreeSet)

variable {U : UnicodeTables}

/-! ## The closure checks -/

def invalid_publication (message : String) : ValidationError := ⟨.InvalidPublication, message⟩

/-- What the loop over the Manifests collects. -/
structure ManifestTables where
  manifests : ExtTreeMap ManifestId Manifest
  referenced_objects : ExtTreeMap ObjectId UInt64

/-- One round of the Manifest loop of `add_publication_digest`. -/
def collect_manifest (blake3 : Blake3) (tables : ManifestTables) (manifest : Manifest) :
    ValidationResult ManifestTables := do
  manifest.validate
  let id ← manifest_id blake3 manifest
  ensure (tables.manifests[id]?.isNone) (invalid_publication s!"publication repeats Manifest {id}")
  let referenced_objects ← manifest.chunks.foldlM
    (insert_agreeing ChunkRef.object_id ChunkRef.size fun chunk =>
      invalid_publication s!"publication Manifests disagree about object {chunk.object_id} size")
    tables.referenced_objects
  return ⟨tables.manifests.insert id manifest, referenced_objects⟩

/-- One round of a mutation loop: the Manifest of an upsert has to be there and to fit its record.
The engine and the core have this loop with different errors. -/
def reference_upsert {ε : Type} (lift : ValidationError → ε) (absent differs : FileRecord U → ε)
    (manifests : ExtTreeMap ManifestId Manifest) (referenced : ExtTreeSet ManifestId) :
    IndexMutation U → Except ε (ExtTreeSet ManifestId)
  | .Delete _ => return referenced
  | .Upsert record => do
    let manifest ← ok_or manifests[record.manifest_id]? (absent record)
    ensure (manifest.total_size = record.total_size) (differs record)
    let chunk_count ← manifest.chunk_count.mapError lift
    ensure (chunk_count = record.chunk_count) (differs record)
    return referenced.insert record.manifest_id

/-- One round of the mutation loop of `add_publication_digest`. -/
def reference_manifest (canonical_manifests : ExtTreeMap ManifestId Manifest)
    (referenced : ExtTreeSet ManifestId) (mutation : IndexMutation U) :
    ValidationResult (ExtTreeSet ManifestId) :=
  reference_upsert id
    (fun record =>
      invalid_publication s!"Index upsert references absent Manifest {record.manifest_id}")
    (fun record =>
      invalid_publication s!"Index upsert metadata differs from Manifest {record.manifest_id}")
    canonical_manifests referenced mutation

instance instLawfulEqOrdTypedId {kind : IdKind} : Std.LawfulEqOrd (TypedId kind) := inferInstance

section

variable (blake3 : Blake3) (tenant_id project_id artifact_id workspace_id job_id : Text)
  (base_index_version : IndexVersion) (index_delta : IndexDelta U)

/-- `add_publication_digest` up to its hasher: the Manifests and objects by identity. -/
def publication_closure
    (manifests : List Manifest)
    (object_specs : List ObjectSpec) :
    ValidationResult (ExtTreeMap ManifestId Manifest × ExtTreeMap ObjectId UInt64) := do
  [("tenant_id", tenant_id), ("project_id", project_id), ("artifact_id", artifact_id),
    ("workspace_id", workspace_id), ("job_id", job_id)].forM fun (field, value) =>
      ensure (value ≠ []) (invalid_publication s!"publication {field} cannot be empty")
  ensure (index_delta.base_version = base_index_version) (invalid_publication
    "publication IndexDelta base differs from its declared base IndexVersion")
  index_delta.validate
  let tables ← manifests.foldlM (collect_manifest blake3) ⟨∅, ∅⟩
  let referenced_manifests ← index_delta.iter.foldlM (reference_manifest tables.manifests) ∅
  ensure (ExtTreeSet.ofList tables.manifests.keys = referenced_manifests) (invalid_publication
    "publication Manifests are not the exact set referenced by Index upserts")
  let canonical_objects ← object_specs.foldlM
    (insert_new ObjectSpec.id ObjectSpec.size fun object =>
      invalid_publication s!"publication repeats ObjectSpec {object.id}") ∅
  ensure (canonical_objects = tables.referenced_objects) (invalid_publication
    "publication ObjectSpecs are not the exact Manifest object set")
  return (tables.manifests, canonical_objects)

def object_bytes (object : ObjectId × UInt64) : Bytes := object.1.as_bytes ++ u64_le object.2

def add_publication_digest
    (manifests : List Manifest)
    (object_specs : List ObjectSpec) : ValidationResult ContentDigest := do
  let (canonical_manifests, canonical_objects) ← publication_closure blake3 tenant_id project_id
    artifact_id workspace_id job_id base_index_version index_delta manifests object_specs
  let hasher ← [tenant_id, project_id, artifact_id, workspace_id, job_id].foldlM
    (fun hasher value => update_bytes_with_len hasher (utf8 value))
    (canonical_hasher ADD_PUBLICATION_HASH_DOMAIN)
  let delta_digest ← index_delta_digest blake3 index_delta
  let hasher := hasher ++ u64_le base_index_version.revision
    ++ base_index_version.digest.as_bytes ++ delta_digest.as_bytes
  let manifest_count ← ok_or (u64_try_from canonical_manifests.size)
    ⟨.Overflow, "publication Manifest count exceeds u64"⟩
  let hasher := hasher ++ u64_le manifest_count
    ++ canonical_manifests.keys.flatMap TypedId.as_bytes
  let object_count ← ok_or (u64_try_from canonical_objects.size)
    ⟨.Overflow, "publication ObjectSpec count exceeds u64"⟩
  return blake3 (hasher ++ u64_le object_count ++ canonical_objects.toList.flatMap object_bytes)

end

/-! ## Closed graphs -/

/-- The identity of a Manifest that has one. -/
def Manifest.identity (blake3 : Blake3) (manifest : Manifest) : ManifestId :=
  ⟨blake3 (manifest_preimage manifest)⟩

/-- Every upsert's Manifest is there once and fits the record, every chunk's object is there once
and fits the chunk, and nothing else is there. -/
structure Closed (blake3 : Blake3) (mutations : List (IndexMutation U)) (manifests : List Manifest)
    (object_specs : List ObjectSpec) : Prop where
  valid : ∀ m ∈ manifests, m.validate = .ok () ∧ m.chunks.length < 2 ^ 64
  manifests_once : manifests.Pairwise fun a b => a.identity blake3 ≠ b.identity blake3
  objects_once : object_specs.Pairwise fun a b => a.id ≠ b.id
  upserts : ∀ r, IndexMutation.Upsert r ∈ mutations → ∃ m ∈ manifests,
    m.identity blake3 = r.manifest_id ∧ m.total_size = r.total_size ∧
      m.chunks.length = r.chunk_count.toNat
  manifests_used : ∀ m ∈ manifests, ∃ r, IndexMutation.Upsert r ∈ mutations ∧
    r.manifest_id = m.identity blake3
  objects_exact : ∀ spec, spec ∈ object_specs ↔ ∃ m ∈ manifests, ∃ c ∈ m.chunks,
    c.object_spec = spec

theorem manifest_id_identity {blake3 : Blake3} {manifest : Manifest} {id : ManifestId} :
    manifest_id blake3 manifest = .ok id ↔
      (manifest.validate = .ok () ∧ manifest.chunks.length < 2 ^ 64) ∧
        id = manifest.identity blake3 := by
  rw [manifest_id_eq_ok, and_assoc]
  rfl

section Loops

variable {blake3 : Blake3} {ε : Type}

/-- A Manifest loop whose rounds check the Manifest (`P`) and enter it and its chunks. -/
theorem foldlM_tables_eq_ok {step : ManifestTables → Manifest → Except ε ManifestTables}
    {P : Manifest → Prop}
    (hstep : ∀ t m t', step t m = .ok t' ↔ P m ∧
      insert_new (identity blake3) id (fun _ => ()) t.manifests m = .ok t'.manifests ∧
      m.chunks.foldlM (insert_agreeing object_id size fun _ => ())
        t.referenced_objects = .ok t'.referenced_objects)
    {manifests : List Manifest} {t t' : ManifestTables} :
    manifests.foldlM step t = .ok t' ↔ (∀ m ∈ manifests, P m) ∧
      manifests.foldlM (insert_new (identity blake3) id fun _ => ()) t.manifests =
        .ok t'.manifests ∧
      (manifests.flatMap chunks).foldlM
        (insert_agreeing object_id size fun _ => ())
        t.referenced_objects = .ok t'.referenced_objects := by
  induction manifests generalizing t with
  | nil =>
    cases t
    cases t'
    simp
  | cons m manifests ih =>
    simp only [foldlM_cons, bind_eq_ok, hstep, ih, forall_mem_cons, flatMap_cons,
      foldlM_append_eq_ok]
    constructor
    · intro ⟨t₁, ⟨hp, hnew, hchunks⟩, hall, hmanifests, hobjects⟩
      exact ⟨⟨hp, hall⟩, ⟨_, hnew, hmanifests⟩, _, hchunks, hobjects⟩
    · intro ⟨⟨hp, hall⟩, ⟨ms, hnew, hmanifests⟩, os, hchunks, hobjects⟩
      exact ⟨⟨ms, os⟩, ⟨hp, hnew, hchunks⟩, hall, hmanifests, hobjects⟩

theorem collect_manifest_eq_ok {t t' : ManifestTables} {m : Manifest} :
    collect_manifest blake3 t m = .ok t' ↔ (m.validate = .ok () ∧ m.chunks.length < 2 ^ 64) ∧
      insert_new (identity blake3) id (fun _ => ()) t.manifests m = .ok t'.manifests ∧
      m.chunks.foldlM (insert_agreeing object_id size fun _ => ())
        t.referenced_objects = .ok t'.referenced_objects := by
  simp only [collect_manifest, insert_new, ok_iff, manifest_id_identity,
    foldlM_insert_agreeing_eq_ok]
  constructor
  · rintro ⟨-, _, ⟨hvalid, rfl⟩, hnew, objects, hobjects, rfl⟩
    exact ⟨hvalid, ⟨hnew, rfl⟩, hobjects⟩
  · rintro ⟨hvalid, ⟨hnew, hinsert⟩, hobjects⟩
    refine ⟨hvalid.1, _, ⟨hvalid, rfl⟩, hnew, _, hobjects, ?_⟩
    cases t'
    exact congrArg (fun ms => ManifestTables.mk ms _) hinsert

/-- The loop over the mutations collects the identities of the upserts. -/
theorem foldlM_reference_eq_ok {lift : ValidationError → ε} {absent differs : FileRecord U → ε}
    {manifests : ExtTreeMap ManifestId Manifest} {mutations : List (IndexMutation U)}
    {referenced referenced' : ExtTreeSet ManifestId} :
    mutations.foldlM (reference_upsert lift absent differs manifests) referenced = .ok referenced' ↔
      (∀ r, IndexMutation.Upsert r ∈ mutations → ∃ m : Manifest,
        manifests[r.manifest_id]? = some m ∧ m.total_size = r.total_size ∧
          m.chunks.length = r.chunk_count.toNat) ∧
      ∀ id, id ∈ referenced' ↔ id ∈ referenced ∨
        ∃ r, IndexMutation.Upsert r ∈ mutations ∧ r.manifest_id = id := by
  induction mutations generalizing referenced with
  | nil =>
    simp only [foldlM_nil, pure_eq_ok, not_mem_nil, false_implies, implies_true,
      false_and, exists_false, or_false, true_and]
    exact ⟨fun h => h ▸ fun _ => Iff.rfl, fun h => ExtTreeSet.ext_mem fun id => (h id).symm⟩
  | cons mutation mutations ih =>
    rw [foldlM_cons, bind_eq_ok]
    cases mutation with
    | Delete path =>
      simp only [reference_upsert, pure_eq_ok, exists_eq_left', ih, mem_cons, reduceCtorEq,
        false_or]
    | Upsert record =>
      have hids : ∀ id, (id ∈ referenced.insert record.manifest_id ∨
          ∃ r, IndexMutation.Upsert r ∈ mutations ∧ r.manifest_id = id) ↔
          (id ∈ referenced ∨
            ∃ r, (r = record ∨ IndexMutation.Upsert r ∈ mutations) ∧ r.manifest_id = id) := by
        intro id
        simp only [ExtTreeSet.mem_insert, compare_eq_iff_eq, or_and_right, exists_or,
          exists_eq_left]
        tauto
      simp only [reference_upsert, ok_iff, mapError_eq_ok, chunk_count,
        u64_try_from_eq_some, ih, mem_cons, IndexMutation.Upsert.injEq, forall_eq_or_imp]
      constructor
      · rintro ⟨_, ⟨m, hm, hsize, count, hcount, rfl, rfl⟩, hall, hreferenced⟩
        exact ⟨⟨⟨m, hm, hsize, hcount.symm⟩, hall⟩, fun id => (hreferenced id).trans (hids id)⟩
      · rintro ⟨⟨⟨m, hm, hsize, hcount⟩, hall⟩, hreferenced⟩
        exact ⟨_, ⟨m, hm, hsize, _, hcount.symm, rfl, rfl⟩, hall,
          fun id => (hreferenced id).trans (hids id).symm⟩

end Loops

/-- The tables of a closed graph. -/
structure ClosedTables (blake3 : Blake3) (mutations : List (IndexMutation U))
    (manifests : List Manifest) (object_specs : List ObjectSpec)
    (by_id : ExtTreeMap ManifestId Manifest) (sizes : ExtTreeMap ObjectId UInt64) :
    Prop where
  valid : ∀ m ∈ manifests, m.validate = .ok () ∧ m.chunks.length < 2 ^ 64
  manifests_once : manifests.Pairwise fun a b => a.identity blake3 ≠ b.identity blake3
  by_identity : Adds (Manifest.identity blake3) id ∅ manifests by_id
  objects_once : object_specs.Pairwise fun a b => a.id ≠ b.id
  listed : Adds ObjectSpec.id ObjectSpec.size ∅ object_specs sizes
  referenced : Adds ChunkRef.object_id ChunkRef.size ∅ (manifests.flatMap Manifest.chunks) sizes
  upserts : ∀ r, IndexMutation.Upsert r ∈ mutations → ∃ m : Manifest,
    by_id[r.manifest_id]? = some m ∧ m.total_size = r.total_size ∧
      m.chunks.length = r.chunk_count.toNat
  used : ∀ id, id ∈ ExtTreeSet.ofList by_id.keys ↔
    ∃ r, IndexMutation.Upsert r ∈ mutations ∧ r.manifest_id = id

section Tables

variable {blake3 : Blake3} {mutations : List (IndexMutation U)} {manifests : List Manifest}
  {object_specs : List ObjectSpec} {by_id : ExtTreeMap ManifestId Manifest}
  {sizes : ExtTreeMap ObjectId UInt64}

theorem mem_ofList_keys {id : ManifestId} :
    id ∈ ExtTreeSet.ofList by_id.keys ↔ ∃ m, by_id[id]? = some m := by
  rw [ExtTreeSet.mem_ofList, contains_iff_mem, ExtTreeMap.mem_keys,
    ExtTreeMap.mem_iff_isSome_getElem?, Option.isSome_iff_exists]

section

variable (h : ClosedTables blake3 mutations manifests object_specs by_id sizes)

include h

theorem ClosedTables.getElem?_by_id {id : ManifestId}
    {m : Manifest} : by_id[id]? = some m ↔ m ∈ manifests ∧ m.identity blake3 = id := by
  rw [h.by_identity id m]
  constructor
  · rintro (hnone | ⟨a, ha, hid, rfl⟩)
    · simp at hnone
    · exact ⟨ha, hid⟩
  · rintro ⟨hm, hid⟩
    exact .inr ⟨m, hm, hid, rfl⟩

theorem ClosedTables.getElem?_sizes {id : ObjectId}
    {size : UInt64} : sizes[id]? = some size ↔ (⟨id, size⟩ : ObjectSpec) ∈ object_specs := by
  rw [h.listed id size]
  constructor
  · rintro (hnone | ⟨a, ha, rfl, rfl⟩)
    · simp at hnone
    · exact ha
  · intro hmem
    exact .inr ⟨_, hmem, rfl, rfl⟩

theorem ClosedTables.closed : Closed blake3 mutations manifests object_specs where
  valid := h.valid
  manifests_once := h.manifests_once
  objects_once := h.objects_once
  upserts := by
    intro r hr
    obtain ⟨m, hm, hsize, hcount⟩ := h.upserts r hr
    obtain ⟨hmem, hid⟩ := h.getElem?_by_id.mp hm
    exact ⟨m, hmem, hid, hsize, hcount⟩
  manifests_used := by
    intro m hm
    apply (h.used (m.identity blake3)).mp
    exact mem_ofList_keys.mpr ⟨m, h.getElem?_by_id.mpr ⟨hm, rfl⟩⟩
  objects_exact := by
    intro spec
    rw [← h.getElem?_sizes, h.referenced spec.id spec.size]
    constructor
    · rintro (hnone | ⟨c, hc, hid, hsize⟩)
      · simp at hnone
      · obtain ⟨m, hm, hc⟩ := mem_flatMap.mp hc
        refine ⟨m, hm, c, hc, ?_⟩
        unfold object_spec
        rw [hid, hsize]
    · rintro ⟨m, hm, c, hc, rfl⟩
      exact .inr ⟨c, mem_flatMap.mpr ⟨m, hm, hc⟩, rfl, rfl⟩

end

theorem Closed.exists_tables (h : Closed blake3 mutations manifests object_specs) :
    ∃ by_id sizes, ClosedTables blake3 mutations manifests object_specs by_id sizes := by
  obtain ⟨by_id, hby_id⟩ := @exists_foldlM_insert_new ManifestId Manifest Manifest Unit _
    (identity blake3) id (fun _ => ()) manifests ∅ (by simp) h.manifests_once
  obtain ⟨sizes, hsizes⟩ := @exists_foldlM_insert_new ObjectId UInt64 ObjectSpec Unit _
    ObjectSpec.id ObjectSpec.size (fun _ => ()) object_specs ∅ (by simp) h.objects_once
  obtain ⟨-, -, hbyadds⟩ := foldlM_insert_new_eq_ok.mp hby_id
  obtain ⟨-, -, hlisted⟩ := foldlM_insert_new_eq_ok.mp hsizes
  have hget : ∀ id m, by_id[id]? = some m ↔ m ∈ manifests ∧ m.identity blake3 = id := by
    intro id m
    rw [hbyadds id m]
    simp [and_comm]
  refine ⟨by_id, sizes, h.valid, h.manifests_once, hbyadds, h.objects_once, hlisted, ?_, ?_, ?_⟩
  · -- the objects listed are those of the chunks
    intro id size
    rw [hlisted id size]
    apply or_congr Iff.rfl
    constructor
    · rintro ⟨spec, hspec, rfl, rfl⟩
      obtain ⟨m, hm, c, hc, rfl⟩ := (h.objects_exact spec).mp hspec
      exact ⟨c, mem_flatMap.mpr ⟨m, hm, hc⟩, rfl, rfl⟩
    · rintro ⟨c, hc, rfl, rfl⟩
      obtain ⟨m, hm, hc⟩ := mem_flatMap.mp hc
      exact ⟨c.object_spec, (h.objects_exact _).mpr ⟨m, hm, c, hc, rfl⟩, rfl, rfl⟩
  · intro r hr
    obtain ⟨m, hm, hid, hsize, hcount⟩ := h.upserts r hr
    exact ⟨m, (hget _ _).mpr ⟨hm, hid⟩, hsize, hcount⟩
  · intro id
    rw [mem_ofList_keys]
    constructor
    · rintro ⟨m, hm⟩
      obtain ⟨hmem, rfl⟩ := (hget _ _).mp hm
      exact h.manifests_used m hmem
    · rintro ⟨r, hr, rfl⟩
      obtain ⟨m, hm, hid, -, -⟩ := h.upserts r hr
      exact ⟨m, (hget _ _).mpr ⟨hm, hid⟩⟩

end Tables

/-! ## The digest -/

/-- The text that is hashed for a publication: the scope, the base, the digest of the delta, and the
ordered identities of the Manifests and objects. -/
def publication_preimage (scope : List Text) (base : IndexVersion) (delta_digest : ContentDigest)
    (ids : List ManifestId) (objects : List (ObjectId × UInt64)) : Bytes :=
  canonical_hasher ADD_PUBLICATION_HASH_DOMAIN ++ scope.flatMap (fun v => framed u64_le (utf8 v))
    ++ u64_le base.revision ++ base.digest.as_bytes ++ delta_digest.as_bytes
    ++ u64_le (UInt64.ofNat ids.length) ++ ids.flatMap TypedId.as_bytes
    ++ u64_le (UInt64.ofNat objects.length) ++ objects.flatMap object_bytes

section Digest

variable {blake3 : Blake3} {tenant_id project_id artifact_id workspace_id job_id : Text}
  {base : IndexVersion} {delta : IndexDelta U} {manifests : List Manifest}
  {object_specs : List ObjectSpec}

/-- The closure checks accept exactly the closed graphs. -/
theorem publication_closure_eq_ok {by_id : ExtTreeMap ManifestId Manifest}
    {sizes : ExtTreeMap ObjectId UInt64} :
    publication_closure blake3 tenant_id project_id artifact_id workspace_id job_id base delta
        manifests object_specs = .ok (by_id, sizes) ↔
      (∀ value ∈ [tenant_id, project_id, artifact_id, workspace_id, job_id], value ≠ []) ∧
      delta.base_version = base ∧ delta.validate = .ok () ∧
      ClosedTables blake3 delta.iter manifests object_specs by_id sizes := by
  have hloop := @foldlM_tables_eq_ok blake3 ValidationError (collect_manifest blake3)
    (fun m => m.validate = .ok () ∧ m.chunks.length < 2 ^ 64) fun _ _ _ => collect_manifest_eq_ok
  unfold publication_closure reference_manifest
  simp only [ok_iff, forM_eq_ok, hloop, foldlM_insert_new_eq_ok,
    foldlM_insert_agreeing_eq_ok, foldlM_reference_eq_ok, forall_mem_cons, Prod.mk.injEq,
    not_mem_nil, false_implies, implies_true, and_true]
  constructor
  · rintro ⟨hscope, hbase, hdelta, tables, ⟨hvalid, ⟨_, hmonce, hby_id⟩, hreferenced⟩, set,
      ⟨hupserts, hset⟩, hused, objects, ⟨_, hoonce, hlisted⟩, hobjects, hfirst, hsecond⟩
    subst hobjects hfirst hsecond
    refine ⟨hscope, hbase, hdelta, hvalid, hmonce, hby_id, hoonce, hlisted, hreferenced, hupserts,
      fun id => ?_⟩
    rw [hused, hset id]
    simp
  · rintro ⟨hscope, hbase, hdelta, h⟩
    refine ⟨hscope, hbase, hdelta, ⟨by_id, sizes⟩,
      ⟨h.valid, ⟨by simp, h.manifests_once, h.by_identity⟩, h.referenced⟩, _, ⟨h.upserts, ?_⟩, rfl,
      sizes, ⟨by simp, h.objects_once, h.listed⟩, rfl, rfl, rfl⟩
    intro id
    rw [h.used id]
    simp

theorem foldlM_update_texts_eq_ok {values : List Text} {hasher hasher' : Bytes} :
    values.foldlM (fun hasher value => update_bytes_with_len hasher (utf8 value)) hasher =
        .ok hasher' ↔ (∀ value ∈ values, TextFits value) ∧
      hasher' = hasher ++ values.flatMap fun v => framed u64_le (utf8 v) :=
  foldlM_extends_eq_ok fun _ _ _ => update_bytes_with_len_eq_ok

/-- A publication has a digest exactly when its graph is closed and its lengths fit. -/
theorem add_publication_digest_eq_ok {d : ContentDigest} :
    add_publication_digest blake3 tenant_id project_id artifact_id workspace_id job_id base delta
        manifests object_specs = .ok d ↔
      ∃ by_id sizes,
        ((∀ value ∈ [tenant_id, project_id, artifact_id, workspace_id, job_id], value ≠ []) ∧
          delta.base_version = base ∧ delta.validate = .ok () ∧
          ClosedTables blake3 delta.iter manifests object_specs by_id sizes) ∧
        (∀ value ∈ [tenant_id, project_id, artifact_id, workspace_id, job_id], TextFits value) ∧
        (delta.iter.length < 2 ^ 64 ∧ ∀ m ∈ delta.iter, TextFits m.path.text) ∧
        (by_id.size < 2 ^ 64 ∧ sizes.size < 2 ^ 64) ∧
        d = blake3 (publication_preimage [tenant_id, project_id, artifact_id, workspace_id, job_id]
          base (blake3 (index_delta_preimage delta)) by_id.keys sizes.toList) := by
  unfold add_publication_digest publication_preimage
  simp only [ok_iff, Prod.exists, publication_closure_eq_ok, foldlM_update_texts_eq_ok,
    index_delta_digest_eq_ok, ExtTreeMap.length_keys, ExtTreeMap.length_toList]
  constructor
  · rintro ⟨by_id, sizes, hclosed, h, ⟨htexts, rfl⟩, dd, ⟨-, hlength, hfits, rfl⟩, mc, hmc, oc, hoc,
      rfl⟩
    have hids := u64_try_from_eq_some.mp hmc
    have hobjects := u64_try_from_eq_some.mp hoc
    refine ⟨by_id, sizes, hclosed, htexts, ⟨hlength, hfits⟩,
      ⟨hids ▸ mc.toNat_lt, hobjects ▸ oc.toNat_lt⟩, ?_⟩
    rw [← hids, ← hobjects, UInt64.ofNat_toNat, UInt64.ofNat_toNat]
  · rintro ⟨by_id, sizes, hclosed, htexts, ⟨hlength, hfits⟩, ⟨hids, hobjects⟩, rfl⟩
    exact ⟨by_id, sizes, hclosed, _, ⟨htexts, rfl⟩, _, ⟨hclosed.2.2.1, hlength, hfits, rfl⟩, _,
      u64_try_from_eq_some.mpr (toNat_ofNat_of_lt' hids), _,
      u64_try_from_eq_some.mpr (toNat_ofNat_of_lt' hobjects), rfl⟩

end Digest

theorem object_selfDelimiting : SelfDelimiting (fun _ => True) object_bytes := by
  intro a b _ _ s t h
  exact (@id_selfDelimiting .object).pair u64_le_selfDelimiting a b ⟨trivial, trivial⟩
    ⟨trivial, trivial⟩ s t h

theorem eq_of_ofNat_eq {n m : Nat} (hn : n < 2 ^ 64) (hm : m < 2 ^ 64)
    (h : UInt64.ofNat n = UInt64.ofNat m) : n = m := by
  have hnat := congrArg UInt64.toNat h
  rwa [toNat_ofNat_of_lt' hn, toNat_ofNat_of_lt' hm] at hnat

/-- Everything that is written for a publication can be read back. -/
theorem publication_preimage_inj {scope scope' : List Text} {base base' : IndexVersion}
    {dd dd' : ContentDigest} {ids ids' : List ManifestId}
    {objects objects' : List (ObjectId × UInt64)}
    (hscope : scope.length = scope'.length) (hfits : ∀ v ∈ scope, TextFits v)
    (hfits' : ∀ v ∈ scope', TextFits v) (hids : ids.length < 2 ^ 64) (hids' : ids'.length < 2 ^ 64)
    (hobjects : objects.length < 2 ^ 64) (hobjects' : objects'.length < 2 ^ 64)
    (h : publication_preimage scope base dd ids objects =
      publication_preimage scope' base' dd' ids' objects') :
    scope = scope' ∧ base = base' ∧ dd = dd' ∧ ids = ids' ∧ objects = objects' := by
  unfold publication_preimage at h
  simp only [append_assoc, append_cancel_left_eq] at h
  obtain ⟨htexts, h⟩ := counted_injective (text_selfDelimiting u64_le_selfDelimiting) hscope hfits
    hfits' h
  obtain ⟨hrevision, h⟩ := u64_le_selfDelimiting _ _ trivial trivial _ _ h
  obtain ⟨hdigest, h⟩ := digest_selfDelimiting _ _ trivial trivial _ _ h
  obtain ⟨hdelta, h⟩ := digest_selfDelimiting _ _ trivial trivial _ _ h
  -- each list is read by its length, which stands in front of it
  obtain ⟨hcount, h⟩ := u64_le_selfDelimiting _ _ trivial trivial _ _ h
  obtain ⟨hlist, h⟩ := counted_injective id_selfDelimiting (eq_of_ofNat_eq hids hids' hcount)
    (fun _ _ => trivial) (fun _ _ => trivial) h
  obtain ⟨hcount, h⟩ := u64_le_selfDelimiting _ _ trivial trivial _ _ h
  obtain ⟨hspecs, -⟩ := @counted_injective _ _ _ object_selfDelimiting _ _
    (eq_of_ofNat_eq hobjects hobjects' hcount) (fun _ _ => trivial) (fun _ _ => trivial) [] []
    (by rw [h])
  refine ⟨htexts, ?_, hdelta, hlist, hspecs⟩
  cases base
  cases base'
  simp_all

end NeoEngram

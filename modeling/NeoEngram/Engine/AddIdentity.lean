import NeoEngram.Engine.Add

/-! # The two identities of a prepared Add

A candidate is checked twice, by the Agent (`validate_content`) and where it
is published (`add_publication_digest`), and has two digests. This file
relates the four.
-/

namespace NeoEngram

open Checks Framing Tables OrderedKeys List PreparedAdd Manifest ManagedResource ChunkRef
open Std (ExtTreeMap)

variable {U : UnicodeTables} {blake3 : Blake3}

/-! ## The content checks -/

variable {objects : ExtTreeMap ObjectId UInt64}

theorem collect_prepared_chunk_eq_ok {referenced referenced' : ExtTreeMap ObjectId UInt64}
    {chunk : ChunkRef} :
    collect_prepared_chunk objects referenced chunk = .ok referenced' ↔
      insert_agreeing object_id size (fun _ => ()) referenced chunk =
        .ok referenced' ∧ objects[chunk.object_id]? = some chunk.size := by
  simp only [collect_prepared_chunk, insert_agreeing, ok_iff]
  constructor
  · rintro ⟨_, ⟨hagree, rfl⟩, hobject, rfl⟩
    exact ⟨⟨hagree, rfl⟩, hobject⟩
  · rintro ⟨⟨hagree, rfl⟩, hobject⟩
    exact ⟨_, ⟨hagree, rfl⟩, hobject, rfl⟩

/-- What the Manifest loop of the Agent asks of one Manifest: the chunks have to be listed with
their sizes. -/
def ManifestListed (objects : ExtTreeMap ObjectId UInt64) (m : Manifest) : Prop :=
  (m.validate = .ok () ∧ m.chunks.length < 2 ^ 64) ∧
    ∀ c ∈ m.chunks, objects[c.object_id]? = some c.size

theorem collect_prepared_manifest_eq_ok {t t' : ManifestTables} {m : Manifest} :
    collect_prepared_manifest blake3 objects t m = .ok t' ↔ ManifestListed objects m ∧
      insert_new (identity blake3) id (fun _ => ()) t.manifests m = .ok t'.manifests ∧
      m.chunks.foldlM (insert_agreeing object_id size fun _ => ())
        t.referenced_objects = .ok t'.referenced_objects := by
  have hloop := fun l b c =>
    foldlM_and_eq_ok (f := collect_prepared_chunk objects) (l := l) (b := b)
    (c := c) (P := fun c => objects[c.object_id]? = some c.size)
    fun _ _ _ => collect_prepared_chunk_eq_ok
  simp only [collect_prepared_manifest, ManifestListed, insert_new, ok_iff, lift_core_eq_ok,
    manifest_id_identity, hloop]
  constructor
  · rintro ⟨-, _, ⟨hvalid, rfl⟩, hnew, objects, ⟨hobjects, hlisted⟩, rfl⟩
    exact ⟨⟨hvalid, hlisted⟩, ⟨hnew, rfl⟩, hobjects⟩
  · rintro ⟨⟨hvalid, hlisted⟩, ⟨hnew, hinsert⟩, hobjects⟩
    refine ⟨hvalid.1, _, ⟨hvalid, rfl⟩, hnew, _, ⟨hobjects, hlisted⟩, ?_⟩
    cases t'
    exact congrArg (fun ms => ManifestTables.mk ms _) hinsert

/-- The Agent accepts exactly the closed graphs. -/
theorem validate_content_eq_ok {c : PreparedAdd U} :
    c.validate_content blake3 = .ok () ↔ c.resource.validate = .ok () ∧ c.candidate_batch_id ≠ [] ∧
      c.index_delta.base_version = c.base_index_version ∧ c.index_delta.validate = .ok () ∧
      ∃ by_id sizes, ClosedTables blake3 c.index_delta.iter c.manifests c.object_specs by_id
        sizes := by
  have hloop := fun objects => @foldlM_tables_eq_ok blake3 EngineError
    (collect_prepared_manifest blake3 objects) (ManifestListed objects)
    fun _ _ _ => collect_prepared_manifest_eq_ok
  unfold validate_content reference_prepared_manifest
  simp only [ok_iff, lift_core_eq_ok, hloop, foldlM_insert_new_eq_ok, foldlM_insert_agreeing_eq_ok,
    foldlM_reference_eq_ok]
  constructor
  · rintro ⟨hresource, hbatch, hbase, hdelta, objects, ⟨_, hoonce, hlisted⟩, tables,
      ⟨hvalid, ⟨_, hmonce, hby_id⟩, hreferenced⟩, set, ⟨hupserts, hset⟩, hused, hobjects⟩
    subst hobjects
    refine ⟨hresource, hbatch, hbase, hdelta, _, _, fun m hm => (hvalid m hm).1, hmonce, hby_id,
      hoonce, hlisted, hreferenced, hupserts, fun id => ?_⟩
    rw [hused, hset id]
    simp
  · rintro ⟨hresource, hbatch, hbase, hdelta, by_id, sizes, h⟩
    -- the extra check of the chunk loop follows from the comparison at the end
    have hvalid : ∀ m ∈ c.manifests, ManifestListed sizes m := by
      intro m hm
      refine ⟨h.valid m hm, fun chunk hchunk => ?_⟩
      exact (h.referenced _ _).mpr (.inr ⟨chunk, mem_flatMap.mpr ⟨m, hm, hchunk⟩, rfl, rfl⟩)
    refine ⟨hresource, hbatch, hbase, hdelta, sizes, ⟨by simp, h.objects_once, h.listed⟩,
      ⟨by_id, sizes⟩, ⟨hvalid, ⟨by simp, h.manifests_once, h.by_identity⟩, h.referenced⟩, _,
      ⟨h.upserts, ?_⟩, rfl, rfl⟩
    intro id
    rw [h.used id]
    simp

/-! ## Rearranged candidates -/

theorem publication_closure_iff {c : PreparedAdd U} (hresource : c.resource.validate = .ok ()) :
    (∃ tables, publication_closure blake3 c.resource.tenant_id c.resource.project_id
        c.resource.artifact_id c.resource.workspace_id c.resource.job_id c.base_index_version
        c.index_delta c.manifests c.object_specs = .ok tables) ↔
      c.index_delta.base_version = c.base_index_version ∧ c.index_delta.validate = .ok () ∧
      Closed blake3 c.index_delta.iter c.manifests c.object_specs := by
  have hscope : ∀ value ∈ [c.resource.tenant_id, c.resource.project_id, c.resource.artifact_id,
      c.resource.workspace_id, c.resource.job_id], value ≠ [] := by
    have hfields := forM_eq_ok.mp hresource
    simp only [fields, forall_mem_cons, ensure_eq_ok] at hfields
    simpa using hfields
  constructor
  · rintro ⟨⟨by_id, sizes⟩, h⟩
    obtain ⟨-, hbase, hdelta, htables⟩ := publication_closure_eq_ok.mp h
    exact ⟨hbase, hdelta, htables.closed⟩
  · rintro ⟨hbase, hdelta, hclosed⟩
    obtain ⟨by_id, sizes, htables⟩ := hclosed.exists_tables
    exact ⟨(by_id, sizes), publication_closure_eq_ok.mpr ⟨hscope, hbase, hdelta, htables⟩⟩

/-- The candidates propose the same in other pages, and list Manifests and objects in another order.
-/
structure PreparedAdd.Rearranged (c c' : PreparedAdd U) : Prop where
  resource : c.resource = c'.resource
  base_index_version : c.base_index_version = c'.base_index_version
  candidate_batch_id : c.candidate_batch_id = c'.candidate_batch_id
  base_version : c.index_delta.base_version = c'.index_delta.base_version
  mutations : c.index_delta.iter = c'.index_delta.iter
  result_digest : c.index_delta.result_digest = c'.index_delta.result_digest
  pages : c.index_delta.validate = .ok () ↔ c'.index_delta.validate = .ok ()
  manifests : c.manifests.Perm c'.manifests
  object_specs : c.object_specs.Perm c'.object_specs
  statistics : c.statistics = c'.statistics
  prepared_at_unix_ms : c.prepared_at_unix_ms = c'.prepared_at_unix_ms

variable {c c' : PreparedAdd U} {d : ContentDigest}

theorem PreparedAdd.Rearranged.symm (h : c.Rearranged c') : c'.Rearranged c :=
  ⟨h.resource.symm, h.base_index_version.symm, h.candidate_batch_id.symm, h.base_version.symm,
    h.mutations.symm, h.result_digest.symm, h.pages.symm, h.manifests.symm, h.object_specs.symm,
    h.statistics.symm, h.prepared_at_unix_ms.symm⟩

/-- The tables of a graph do not depend on the order of its parts. -/
theorem ClosedTables.perm {mutations : List (IndexMutation U)} {ms ms' : List Manifest}
    {os os' : List ObjectSpec} {by_id : ExtTreeMap ManifestId Manifest}
    {sizes : ExtTreeMap ObjectId UInt64} (hm : ms.Perm ms') (ho : os.Perm os')
    (h : ClosedTables blake3 mutations ms os by_id sizes) :
    ClosedTables blake3 mutations ms' os' by_id sizes where
  valid m hmem := h.valid m (hm.mem_iff.mpr hmem)
  manifests_once := h.manifests_once.perm hm Ne.symm
  by_identity := h.by_identity.congr fun _ => hm.mem_iff
  objects_once := h.objects_once.perm ho Ne.symm
  listed := h.listed.congr fun _ => ho.mem_iff
  referenced := h.referenced.congr fun _ => (hm.flatMap_right _).mem_iff
  upserts := h.upserts
  used := h.used

theorem validate_content_of_rearranged (h : c.Rearranged c')
    (hc : c.validate_content blake3 = .ok ()) : c'.validate_content blake3 = .ok () := by
  obtain ⟨hresource, hbatch, hbase, hdelta, by_id, sizes, htables⟩ := validate_content_eq_ok.mp hc
  apply validate_content_eq_ok.mpr
  rw [← h.resource, ← h.candidate_batch_id, ← h.base_version, ← h.base_index_version, ← h.mutations]
  exact ⟨hresource, hbatch, hbase, h.pages.mp hdelta, by_id, sizes,
    htables.perm h.manifests h.object_specs⟩

theorem mapM_manifest_id {manifests : List Manifest}
    (h : ∀ m ∈ manifests, m.validate = .ok () ∧ m.chunks.length < 2 ^ 64) :
    (manifests.mapM fun manifest => do
      let id ← lift_core (manifest_id blake3 manifest)
      return (id, manifest)) = .ok (manifests.map fun m => (m.identity blake3, m)) := by
  rw [mapM_eq_ok, forall₂_map_right_iff, forall₂_same]
  intro m hm
  simp only [ok_iff, lift_core_eq_ok, manifest_id_identity]
  exact ⟨_, ⟨h m hm, rfl⟩, rfl⟩

theorem write_delta_congr {delta delta' : IndexDelta U}
    (hbase : delta.base_version = delta'.base_version)
    (hiter : delta.iter = delta'.iter) (hresult : delta.result_digest = delta'.result_digest)
    (hasher : CanonicalHasher) :
    write_delta hasher delta = write_delta hasher delta' := by
  unfold write_delta
  rw [IndexDelta.mutation_count_eq, IndexDelta.mutation_count_eq, hbase, hiter, hresult]

theorem compute_canonical_digest_of_rearranged (h : c.Rearranged c')
    (hc : c.validate_content blake3 = .ok ()) :
    c.compute_canonical_digest blake3 = c'.compute_canonical_digest blake3 := by
  obtain ⟨-, -, -, -, by_id, sizes, htables⟩ := validate_content_eq_ok.mp hc
  have htables' := htables.perm h.manifests h.object_specs
  -- both lists are sorted by distinct keys before they are written
  have hmanifests : sort_by_key Prod.fst (c.manifests.map fun m => (m.identity blake3, m)) =
      sort_by_key Prod.fst (c'.manifests.map fun m => (m.identity blake3, m)) :=
    sort_by_key_eq_of_perm (h.manifests.map _) (pairwise_map.mpr htables.manifests_once)
  have hobjects : sort_by_key ObjectSpec.id c.object_specs =
      sort_by_key ObjectSpec.id c'.object_specs :=
    sort_by_key_eq_of_perm h.object_specs htables.objects_once
  unfold compute_canonical_digest
  rw [mapM_manifest_id htables.valid, mapM_manifest_id htables'.valid]
  simp only [h.resource, h.base_index_version, h.candidate_batch_id, h.statistics,
    h.prepared_at_unix_ms, write_delta_congr h.base_version h.mutations h.result_digest, hobjects,
    hmanifests, bind, Except.bind]

theorem canonical_digest_of_rearranged (h : c.Rearranged c')
    (hd : c.canonical_digest blake3 = .ok d) : c'.canonical_digest blake3 = .ok d := by
  simp only [canonical_digest, ok_iff] at hd ⊢
  refine ⟨validate_content_of_rearranged h hd.1, ?_⟩
  rw [← compute_canonical_digest_of_rearranged h hd.1]
  exact hd.2

/-- The logical scope of a resource. -/
def ManagedResource.texts (self : ManagedResource) : List Text :=
  [self.tenant_id, self.project_id, self.artifact_id, self.workspace_id, self.job_id]

/-- The text that is hashed for the publication of a candidate. -/
def PreparedAdd.publication_text (blake3 : Blake3) (self : PreparedAdd U) : Bytes :=
  publication_preimage self.resource.texts self.base_index_version
    (blake3 (index_delta_preimage self.index_delta))
    (sort_by_key id (self.manifests.map (Manifest.identity blake3)))
    ((sort_by_key ObjectSpec.id self.object_specs).map fun object => (object.id, object.size))

/-- The lengths that are written for the publication are below 2^64. -/
structure PreparedAdd.Fits (c : PreparedAdd U) : Prop where
  scope : ∀ value ∈ c.resource.texts, TextFits value
  mutations : c.index_delta.iter.length < 2 ^ 64
  paths : ∀ m ∈ c.index_delta.iter, TextFits m.path.text
  manifests : c.manifests.length < 2 ^ 64
  object_specs : c.object_specs.length < 2 ^ 64

section Text

variable {mutations : List (IndexMutation U)} {manifests : List Manifest}
  {object_specs : List ObjectSpec} {by_id : ExtTreeMap ManifestId Manifest}
  {sizes : ExtTreeMap ObjectId UInt64}

theorem ClosedTables.keys_eq
    (h : ClosedTables blake3 mutations manifests object_specs by_id sizes) :
    by_id.keys = sort_by_key id (manifests.map (identity blake3)) := by
  apply @eq_of_sorted_by _ _ _ id
  · have hsorted : by_id.keys.Pairwise (· < ·) :=
      by_id.ordered_keys.imp fun hlt => compare_lt_iff_lt.mp hlt
    exact hsorted
  · exact sorted_sort_by_key (pairwise_map.mpr h.manifests_once)
  · intro id
    rw [mem_sort_by_key, ExtTreeMap.mem_keys, ExtTreeMap.mem_iff_isSome_getElem?,
      Option.isSome_iff_exists, mem_map]
    exact exists_congr fun m => h.getElem?_by_id

theorem ClosedTables.toList_eq
    (h : ClosedTables blake3 mutations manifests object_specs by_id sizes) :
    sizes.toList =
      (sort_by_key ObjectSpec.id object_specs).map fun object => (object.id, object.size) := by
  apply @eq_of_sorted_by _ _ _ Prod.fst
  · have hsorted : sizes.toList.Pairwise fun a b => a.1 < b.1 :=
      sizes.ordered_keys_toList.imp fun hlt => compare_lt_iff_lt.mp hlt
    exact hsorted
  · exact pairwise_map.mpr (sorted_sort_by_key h.objects_once)
  · rintro ⟨id, size⟩
    rw [ExtTreeMap.mem_toList_iff_getElem?_eq_some, h.getElem?_sizes, mem_map]
    simp only [mem_sort_by_key, Prod.mk.injEq]
    constructor
    · intro hmem
      exact ⟨_, hmem, rfl, rfl⟩
    · rintro ⟨object, hmem, rfl, rfl⟩
      exact hmem

end Text

/-- The publication digest of an accepted candidate is the hash of its text. -/
theorem publication_digest_eq_ok : c.publication_digest blake3 = .ok d ↔
      c.validate_content blake3 = .ok () ∧ c.Fits ∧ d = blake3 (c.publication_text blake3) := by
  simp only [publication_digest, ok_iff, lift_core_eq_ok, add_publication_digest_eq_ok]
  apply and_congr_right
  intro hc
  obtain ⟨hresource, -, hbase, hdelta, by_id, sizes, htables⟩ := validate_content_eq_ok.mp hc
  have hsizes : by_id.size = c.manifests.length ∧ sizes.size = c.object_specs.length := by
    rw [← ExtTreeMap.length_keys, ← ExtTreeMap.length_toList, htables.keys_eq,
      htables.toList_eq, (sort_by_key_perm _ _).length_eq, length_map, length_map,
      (sort_by_key_perm _ _).length_eq]
    exact ⟨rfl, rfl⟩
  unfold publication_text
  constructor
  · rintro ⟨by_id', sizes', ⟨-, -, -, htables'⟩, hscope, ⟨hlength, hpaths⟩, ⟨hms, hos⟩, rfl⟩
    obtain rfl := htables'.by_identity.unique htables.by_identity
    obtain rfl := htables'.listed.unique htables.listed
    rw [hsizes.1] at hms
    rw [hsizes.2] at hos
    exact ⟨⟨hscope, hlength, hpaths, hms, hos⟩, by rw [htables.keys_eq, htables.toList_eq]; rfl⟩
  · rintro ⟨hfits, rfl⟩
    obtain ⟨⟨by_id', sizes'⟩, hclosure⟩ := (publication_closure_iff hresource).mpr
      ⟨hbase, hdelta, htables.closed⟩
    have hchecks := publication_closure_eq_ok.mp hclosure
    obtain rfl := hchecks.2.2.2.by_identity.unique htables.by_identity
    obtain rfl := hchecks.2.2.2.listed.unique htables.listed
    refine ⟨by_id', sizes', hchecks, hfits.scope, ⟨hfits.mutations, hfits.paths⟩,
      ⟨hsizes.1 ▸ hfits.manifests, hsizes.2 ▸ hfits.object_specs⟩, ?_⟩
    rw [htables.keys_eq, htables.toList_eq]
    rfl

theorem publication_digest_of_rearranged (h : c.Rearranged c')
    (hd : c.publication_digest blake3 = .ok d) : c'.publication_digest blake3 = .ok d := by
  obtain ⟨hc, hfits, rfl⟩ := publication_digest_eq_ok.mp hd
  obtain ⟨-, -, -, -, by_id, sizes, htables⟩ := validate_content_eq_ok.mp hc
  refine publication_digest_eq_ok.mpr ⟨validate_content_of_rearranged h hc,
    ⟨h.resource ▸ hfits.scope, h.mutations ▸ hfits.mutations, h.mutations ▸ hfits.paths,
      h.manifests.length_eq ▸ hfits.manifests, h.object_specs.length_eq ▸ hfits.object_specs⟩, ?_⟩
  have hdelta : index_delta_preimage c.index_delta = index_delta_preimage c'.index_delta := by
    unfold index_delta_preimage
    rw [h.base_version, h.mutations, h.result_digest]
  have hids : sort_by_key id (c.manifests.map (identity blake3)) =
      sort_by_key id (c'.manifests.map (identity blake3)) :=
    sort_by_key_eq_of_perm (h.manifests.map _) (pairwise_map.mpr htables.manifests_once)
  have hobjects : sort_by_key ObjectSpec.id c.object_specs =
      sort_by_key ObjectSpec.id c'.object_specs :=
    sort_by_key_eq_of_perm h.object_specs htables.objects_once
  unfold publication_text
  rw [h.resource, h.base_index_version, hdelta, hids, hobjects]

/-! ## What the publication digest fixes -/

/-- The texts that are hashed for the publication of a candidate. -/
def PreparedAdd.publication_texts (blake3 : Blake3) (self : PreparedAdd U) : List Bytes :=
  self.publication_text blake3 :: index_delta_preimage self.index_delta ::
    self.manifests.map manifest_preimage

/-- Lists without repetitions whose keys are permutations are so too when the key determines the
element. -/
theorem perm_of_map_perm {α κ : Type} {key : α → κ} {l l' : List α}
    (hinj : ∀ a ∈ l ++ l', ∀ b ∈ l ++ l', key a = key b → a = b) (hl : l.Nodup) (hl' : l'.Nodup)
    (h : (l.map key).Perm (l'.map key)) : l.Perm l' := by
  rw [perm_ext_iff_of_nodup hl hl']
  intro a
  have hkeys := @List.Perm.mem_iff _ (key a) _ _ h
  rw [mem_map, mem_map] at hkeys
  constructor
  · intro ha
    obtain ⟨b, hb, hkey⟩ := hkeys.mp ⟨a, ha, rfl⟩
    rwa [hinj a (mem_append_left _ ha) b (mem_append_right _ hb) hkey.symm]
  · intro ha
    obtain ⟨b, hb, hkey⟩ := hkeys.mpr ⟨a, ha, rfl⟩
    rwa [hinj a (mem_append_right _ ha) b (mem_append_left _ hb) hkey.symm]

theorem ManagedResource.texts_injective : Function.Injective texts := by
  intro a b h
  cases a
  cases b
  simpa [texts] using h

theorem object_pair_injective :
    Function.Injective fun object : ObjectSpec => (object.id, object.size) := by
  intro a b h
  cases a
  cases b
  simpa using h

theorem PreparedAdd.Fits.manifests_sorted (h : c.Fits) :
    (sort_by_key id (c.manifests.map (identity blake3))).length < 2 ^ 64 := by
  rw [(sort_by_key_perm _ _).length_eq, length_map]
  exact h.manifests

theorem PreparedAdd.Fits.objects_sorted (h : c.Fits) :
    ((sort_by_key ObjectSpec.id c.object_specs).map fun object =>
      (object.id, object.size)).length < 2 ^ 64 := by
  rw [length_map, (sort_by_key_perm _ _).length_eq]
  exact h.object_specs

/-- The candidates propose the same publication. -/
structure PreparedAdd.SamePublication (c c' : PreparedAdd U) : Prop where
  resource : c.resource = c'.resource
  base_index_version : c.base_index_version = c'.base_index_version
  mutations : c.index_delta.iter = c'.index_delta.iter
  result_digest : c.index_delta.result_digest = c'.index_delta.result_digest
  manifests : c.manifests.Perm c'.manifests
  object_specs : c.object_specs.Perm c'.object_specs

theorem samePublication_of_digest_eq
    (hinj : Set.InjOn blake3 {t | t ∈ c.publication_texts blake3 ∨ t ∈ c'.publication_texts blake3})
    (hd : c.publication_digest blake3 = .ok d) (hd' : c'.publication_digest blake3 = .ok d) :
    c.SamePublication c' := by
  obtain ⟨hc, hfits, rfl⟩ := publication_digest_eq_ok.mp hd
  obtain ⟨hc', hfits', hsame⟩ := publication_digest_eq_ok.mp hd'
  obtain ⟨-, -, -, -, by_id, sizes, htables⟩ := validate_content_eq_ok.mp hc
  obtain ⟨-, -, -, -, by_id', sizes', htables'⟩ := validate_content_eq_ok.mp hc'
  -- the texts of the publications agree, so everything written in them does
  have htext := hinj (.inl mem_cons_self) (.inr mem_cons_self) hsame
  have hcount : c.resource.texts.length = c'.resource.texts.length := rfl
  obtain ⟨hscope, hbase, hdelta, hids, hobjects⟩ := publication_preimage_inj hcount hfits.scope
    hfits'.scope hfits.manifests_sorted hfits'.manifests_sorted hfits.objects_sorted
    hfits'.objects_sorted htext
  -- the digest of the delta stands for the delta
  have hpreimage := hinj (.inl (mem_cons_of_mem _ mem_cons_self))
    (.inr (mem_cons_of_mem _ mem_cons_self)) hdelta
  obtain ⟨-, hmutations, hresult⟩ :=
    CanonicalModel.index_delta_preimage_inj hfits.paths hfits'.paths hpreimage
  refine ⟨texts_injective hscope, hbase, hmutations, hresult, ?_, ?_⟩
  · -- and each identity stands for its Manifest
    have hperm : (c.manifests.map (identity blake3)).Perm
        (c'.manifests.map (identity blake3)) :=
      (sort_by_key_perm id _).symm.trans (hids ▸ sort_by_key_perm id _)
    have hne : ∀ {a b : Manifest}, a.identity blake3 ≠ b.identity blake3 → a ≠ b :=
      fun h he => h (congrArg _ he)
    have htexts : ∀ m ∈ c.manifests ++ c'.manifests, manifest_preimage m ∈
        c.publication_texts blake3 ∨ manifest_preimage m ∈ c'.publication_texts blake3 := by
      intro m hm
      unfold publication_texts
      rcases mem_append.mp hm with hm | hm
      · exact .inl (mem_cons_of_mem _ (mem_cons_of_mem _ (mem_map_of_mem hm)))
      · exact .inr (mem_cons_of_mem _ (mem_cons_of_mem _ (mem_map_of_mem hm)))
    refine perm_of_map_perm ?_ (htables.manifests_once.imp hne) (htables'.manifests_once.imp hne)
      hperm
    intro a ha b hb hid
    exact CanonicalModel.manifest_preimage_inj
      (hinj (htexts a ha) (htexts b hb) (congrArg TypedId.digest hid))
  · have hsorted := map_injective_iff.mpr object_pair_injective hobjects
    exact (sort_by_key_perm ObjectSpec.id c.object_specs).symm.trans
      (hsorted ▸ sort_by_key_perm ObjectSpec.id c'.object_specs)

/-- A candidate with a valid resource and batch id is accepted by the Agent exactly when the
closure checks of the publication accept it, that is, when it is closed. Both digests are
the same for all arrangements of a candidate. And the publication digest fixes what is
published, as long as the hash does not collide on the texts at hand. -/
theorem publication_identity (blake3 : Blake3) :
    (∀ c : PreparedAdd U, c.resource.validate = .ok () → c.candidate_batch_id ≠ [] →
      (c.validate_content blake3 = .ok () ↔
        ∃ tables, publication_closure blake3 c.resource.tenant_id c.resource.project_id
          c.resource.artifact_id c.resource.workspace_id c.resource.job_id c.base_index_version
          c.index_delta c.manifests c.object_specs = .ok tables) ∧
      (c.validate_content blake3 = .ok () ↔
        c.index_delta.base_version = c.base_index_version ∧ c.index_delta.validate = .ok () ∧
        Closed blake3 c.index_delta.iter c.manifests c.object_specs)) ∧
    (∀ c c' : PreparedAdd U, c.Rearranged c' → ∀ d,
      (c.canonical_digest blake3 = .ok d ↔ c'.canonical_digest blake3 = .ok d) ∧
      (c.publication_digest blake3 = .ok d ↔ c'.publication_digest blake3 = .ok d)) ∧
    (∀ (c c' : PreparedAdd U) (d : ContentDigest),
      Set.InjOn blake3 {t | t ∈ c.publication_texts blake3 ∨ t ∈ c'.publication_texts blake3} →
      c.publication_digest blake3 = .ok d → c'.publication_digest blake3 = .ok d →
      c.SamePublication c') := by
  refine ⟨?_, ?_, fun c c' d => samePublication_of_digest_eq⟩
  · intro c hresource hbatch
    rw [publication_closure_iff hresource, and_self]
    constructor
    · intro hc
      obtain ⟨-, -, hbase, hdelta, by_id, sizes, htables⟩ := validate_content_eq_ok.mp hc
      exact ⟨hbase, hdelta, htables.closed⟩
    · intro ⟨hbase, hdelta, hclosed⟩
      exact validate_content_eq_ok.mpr ⟨hresource, hbatch, hbase, hdelta, hclosed.exists_tables⟩
  · intro c c' h d
    exact ⟨⟨canonical_digest_of_rearranged h, canonical_digest_of_rearranged h.symm⟩,
      ⟨publication_digest_of_rearranged h, publication_digest_of_rearranged h.symm⟩⟩

def one_object_manifest (n : Nat) : Manifest :=
  ⟨UInt64.ofNat n, .WholeFile, [⟨⟨digest_of_nat n⟩, 0, UInt64.ofNat n⟩]⟩

def upsert_object (path : LogicalPath asciiTables) (n : Nat) : IndexMutation asciiTables :=
  .Upsert ⟨path, (one_object_manifest n).identity poly_hash, UInt64.ofNat n, 1⟩

def two_file_candidate (pages : List (IndexDeltaPage asciiTables)) (sizes : List Nat) :
    PreparedAdd asciiTables where
  resource := ⟨['t'], ['p'], ['r'], ['w'], ['j']⟩
  base_index_version := ⟨7, digest_of_nat 0⟩
  candidate_batch_id := ['c']
  index_delta := ⟨⟨7, digest_of_nat 0⟩, pages, digest_of_nat 1⟩
  manifests := sizes.map one_object_manifest
  object_specs := sizes.map fun n => ⟨⟨digest_of_nat n⟩, UInt64.ofNat n⟩
  statistics := { files_scanned := 2 }
  candidate_digest := digest_of_nat 0
  prepared_at_unix_ms := 0

/-- The two files in one page, and in two pages with the Manifests and objects swapped. -/
theorem two_file_candidate_identity :
    let a := upsert_object (ascii_path "a" (by decide)) 2
    let b := upsert_object (ascii_path "b" (by decide)) 5
    let c := two_file_candidate [⟨0, [a, b]⟩] [2, 5]
    let c' := two_file_candidate [⟨0, [a]⟩, ⟨1, [b]⟩] [5, 2]
    Closed poly_hash c.index_delta.iter c.manifests c.object_specs ∧
      (∃ d, c.canonical_digest poly_hash = .ok d ∧
        c'.canonical_digest poly_hash = .ok d) ∧
      (∃ d, c.publication_digest poly_hash = .ok d ∧
        c'.publication_digest poly_hash = .ok d) ∧
      c.SamePublication c' := by
  intro a b c c'
  obtain ⟨hcontent, hrearranged, hsame⟩ := @publication_identity asciiTables poly_hash
  have hmoved : c.Rearranged c' :=
    ⟨rfl, rfl, rfl, rfl, rfl, rfl, by decide +kernel, by decide +kernel, by decide +kernel,
      rfl, rfl⟩
  obtain ⟨-, hclosed⟩ := hcontent c (by decide) (by decide)
  obtain ⟨d, hd⟩ : ∃ d, c.canonical_digest poly_hash = .ok d :=
    exists_ok_iff.mpr (by decide +kernel)
  obtain ⟨p, hp⟩ : ∃ p, c.publication_digest poly_hash = .ok p :=
    exists_ok_iff.mpr (by decide +kernel)
  have hp' := (hrearranged c c' hmoved p).2.mp hp
  have hinj : ∀ s ∈ c.publication_texts poly_hash ++ c'.publication_texts poly_hash,
      ∀ t ∈ c.publication_texts poly_hash ++ c'.publication_texts poly_hash,
      poly_hash s = poly_hash t → s = t := by
    decide +kernel
  refine ⟨(hclosed.mp (by decide +kernel)).2.2, ⟨d, hd, (hrearranged c c' hmoved d).1.mp hd⟩,
    ⟨p, hp, hp'⟩, hsame c c' p ?_ hp hp'⟩
  intro s hs t ht
  exact hinj s (mem_append.mpr hs) t (mem_append.mpr ht)

end NeoEngram

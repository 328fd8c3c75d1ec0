import NeoEngram.Central.IndexPublication

/-! # The chain of published Index versions

Both publishers are seen as an authority: the current Index of each Workspace,
the catalogue of Manifests and the book of outcomes. A call changes it in one
of four ways (`Authority.Step`), from which follows what holds over every
sequence of calls.
-/

namespace NeoEngram.Central

open Checks OrderedKeys Runs List Function IndexPublisher FileRecord Option
open Std (ExtTreeMap ExtTreeSet)

variable {U : UnicodeTables} {blake3 : Blake3}

/-! ## Decisions -/

variable {manifest : Manifest} {id : ManifestId}

theorem add_manifests_ok {l : List Manifest} {manifests : ManifestMap}
    (h : l.foldlM (add_manifest blake3) ∅ = .ok manifests)
    (hid : manifests[id]? = some manifest) : manifest_id blake3 manifest = .ok id := by
  have hall : ∀ id manifest, manifests[id]? = some manifest →
      manifest_id blake3 manifest = .ok id := by
    refine foldlM_invariant (I := fun _ (m : ManifestMap) => ∀ id manifest,
      m[id]? = some manifest → manifest_id blake3 manifest = .ok id) (by simp) ?_ h
    intro _ a m m' _ hm hround
    simp only [add_manifest, ok_iff, mapError_eq_ok] at hround
    obtain ⟨new, hnew, -, rfl⟩ := hround
    intro id manifest hid
    rw [getElem?_insert_eq] at hid
    by_cases heq : new = id
    · rw [if_pos heq] at hid
      cases hid
      exact heq ▸ hnew
    · rw [if_neg heq] at hid
      exact hm id manifest hid
  exact hall id manifest hid

/-- The Manifest that an Upsert names has the size and chunk count of the Upsert. -/
def Described (manifest : Manifest) (total_size chunk_count : UInt64) : Prop :=
  manifest.total_size = total_size ∧ manifest.chunk_count = .ok chunk_count

/-- An Upsert has been looked at: its Manifest is noted, and fits if it is there. -/
def Noted (manifests : ManifestMap) (mutation : IndexDeltaRecord U)
    (referenced : ExtTreeSet ManifestId) : Prop :=
  match mutation with
  | .Delete _ _ => True
  | .Upsert _ id total_size chunk_count _ => id ∈ referenced ∧
    ∀ manifest, manifests[id]? = some manifest → Described manifest total_size chunk_count

variable {load_manifest : ManifestId → CentralResult (Option Manifest)}
  {mutation : IndexDeltaRecord U}

theorem check_upsert_ok {manifests : ManifestMap} {referenced referenced' : ExtTreeSet ManifestId}
    (h : check_upsert manifests referenced mutation = .ok referenced') :
    Noted manifests mutation referenced' ∧ ∀ id, id ∈ referenced → id ∈ referenced' := by
  cases mutation with
  | Delete path extensions =>
    cases h
    exact ⟨trivial, fun _ hid => hid⟩
  | Upsert path id total_size chunk_count extensions =>
    unfold check_upsert at h
    cases hmanifest : manifests[id]? with
    | none =>
      simp only [hmanifest] at h
      cases h
      refine ⟨⟨by simp, ?_⟩, fun _ hid => by simp [hid]⟩
      intro manifest hsome
      cases hmanifest.symm.trans hsome
    | some manifest =>
      simp only [hmanifest, ok_iff, mapError_eq_ok] at h
      obtain ⟨observed, hcount, ⟨hsize, rfl⟩, rfl⟩ := h
      refine ⟨⟨by simp, ?_⟩, fun _ hid => by simp [hid]⟩
      intro manifest' hsome
      cases hmanifest.symm.trans hsome
      exact ⟨hsize, hcount⟩

theorem check_catalogue_ok {l : List (ManifestId × Manifest)}
    (h : check_catalogue load_manifest l = .ok ()) (hmem : (id, manifest) ∈ l) :
    ∃ existing, load_manifest id = .ok existing ∧ ∀ value ∈ existing, value = manifest := by
  induction l with
  | nil => cases hmem
  | cons entry rest ih =>
    simp only [check_catalogue, ok_iff, mapError_eq_ok] at h
    obtain ⟨existing, hload, hsame, hrest⟩ := h
    rcases mem_cons.mp hmem with heq | hmem
    · cases heq
      exact ⟨existing, hload, hsame⟩
    · exact ih hrest hmem

variable {records : IndexMap U}

theorem apply_mutation_eq_ok {records' : IndexMap U}
    (h : apply_mutation records mutation = .ok records') :
    records' = apply_change IndexMutation.path IndexMutation.effect records mutation.mutation := by
  cases mutation with
  | Delete path extensions =>
    cases h
    rfl
  | Upsert path id total_size chunk_count extensions =>
    simp only [apply_mutation, new, ok_iff, mapError_eq_ok] at h
    obtain ⟨record, ⟨-, rfl⟩, rfl⟩ := h
    rfl

theorem foldlM_apply_mutation {mutations : List (IndexDeltaRecord U)} {records' : IndexMap U}
    (h : mutations.foldlM apply_mutation records = .ok records') :
    records' = apply_mutations records (mutations.map IndexDeltaRecord.mutation) := by
  induction mutations generalizing records with
  | nil =>
    rw [foldlM_nil, pure_eq_ok] at h
    exact h.symm
  | cons mutation mutations ih =>
    rw [foldlM_cons, bind_eq_ok] at h
    obtain ⟨next, hfirst, hrest⟩ := h
    rw [ih hrest, apply_mutation_eq_ok hfirst]
    rfl

theorem keyedBy_apply_mutations (h : KeyedBy path records)
    (mutations : List (IndexMutation U)) :
    KeyedBy path (apply_mutations records mutations) := by
  induction mutations generalizing records with
  | nil => exact h
  | cons mutation mutations ih =>
    apply ih
    cases mutation with
    | Upsert record => exact h.insert record
    | Delete path => exact h.erase path

/-- One Index is replaced by the next, as a request asks. -/
structure Replaces (blake3 : Blake3) (request : IndexPublishRequest U)
    (current next : IndexSnapshot U) : Prop where
  expected : current.version.revision = request.expected_index_version.revision ∧
    current.version.digest = request.expected_index_version.digest
  revision : current.version.revision.toNat + 1 = next.version.revision.toNat
  records : next.records =
    apply_mutations current.records (request.mutations.map IndexDeltaRecord.mutation)
  digest : index_snapshot_digest blake3 (values next.records) = .ok next.version.digest
  result : next.version.digest = request.expected_result_digest

/-- Every file that a request adds has its Manifest among these, with its size and chunk count. -/
def Catalogued (blake3 : Blake3) (catalogue : ManifestKey → Option Manifest)
    (request : IndexPublishRequest U) : Prop :=
  ∀ record : FileRecord U, IndexMutation.Upsert record ∈
      request.mutations.map IndexDeltaRecord.mutation →
    ∃ manifest, catalogue (request.manifest_key record.manifest_id) = some manifest ∧
      manifest_id blake3 manifest = .ok record.manifest_id ∧
      Described manifest record.total_size record.chunk_count

/-- **What a decision to publish has checked.** -/
structure Decided (blake3 : Blake3) (request : IndexPublishRequest U) (current : IndexSnapshot U)
    (load_manifest : ManifestId → CentralResult (Option Manifest)) (publication : Publication U) :
    Prop where
  replaces : Replaces blake3 request current ⟨publication.version, publication.records⟩
  version : publication.version.extensions = []
  manifests : ∀ record : FileRecord U, IndexMutation.Upsert record ∈
      request.mutations.map IndexDeltaRecord.mutation →
    ∃ manifest, publication.manifests[record.manifest_id]? = some manifest ∧
      manifest_id blake3 manifest = .ok record.manifest_id ∧
      Described manifest record.total_size record.chunk_count
  catalogue : ∀ id manifest, publication.manifests[id]? = some manifest →
    ∃ existing, load_manifest id = .ok existing ∧ ∀ value ∈ existing, value = manifest

variable {request : IndexPublishRequest U} {current : IndexSnapshot U} {publication : Publication U}

theorem decide_publication_ok
    (h : decide_publication blake3 current load_manifest request = .ok publication)
    (hexpected : same_index_version current.version request.expected_index_version = true) :
    Decided blake3 request current load_manifest publication := by
  simp only [decide_publication, ok_iff, mapError_eq_ok, checked_add_eq_some] at h
  obtain ⟨manifests, hmanifests, referenced, hreferenced, hkeys, hcatalogue, records, hrecords,
    revision, hrevision, version, hversion, hdigest, rfl⟩ := h
  obtain ⟨rfl, hsnapshot⟩ := from_snapshot_eq_ok.mp hversion
  refine ⟨⟨same_index_version_iff.mp hexpected, hrevision, foldlM_apply_mutation hrecords,
    hsnapshot,
    hdigest⟩, rfl, ?_, ?_⟩
  · intro record hrecord
    obtain ⟨mutation, hmem, hmutation⟩ := mem_map.mp hrecord
    obtain ⟨hnoted, -⟩ := foldlM_covers (A := Noted manifests)
      (K := fun id (referenced : ExtTreeSet ManifestId) => id ∈ referenced)
      (fun _ _ _ => check_upsert_ok) (fun mutation _ _ hmono hnoted => by
        cases mutation with
        | Delete => trivial
        | Upsert path id => exact ⟨hmono id hnoted.1, hnoted.2⟩) hreferenced
    have hthis := hnoted mutation hmem
    cases mutation with
    | Delete => cases hmutation
    | Upsert path id total_size chunk_count =>
      cases hmutation
      have hkey : id ∈ manifests.keys := by
        rw [hkeys]
        exact ExtTreeSet.mem_toList.mpr hthis.1
      have hin : id ∈ manifests := ExtTreeMap.mem_keys.mp hkey
      obtain ⟨manifest, hmanifest⟩ := isSome_iff_exists.mp
        (ExtTreeMap.isSome_getElem?_iff_mem.mpr hin)
      exact ⟨manifest, hmanifest, add_manifests_ok hmanifests hmanifest, hthis.2 _ hmanifest⟩
  · intro id manifest hmanifest
    exact check_catalogue_ok hcatalogue (ExtTreeMap.mem_toList_iff_getElem?_eq_some.mpr hmanifest)

theorem catalogue_with_keeps {catalogue : ManifestKey → Option Manifest}
    (request : IndexPublishRequest U) (manifests : ManifestMap) {key : ManifestKey}
    (h : catalogue key = some manifest) :
    catalogue_with catalogue request manifests key = some manifest := by
  rw [catalogue_with, h, some_or]

theorem catalogue_with_manifest_key (catalogue : ManifestKey → Option Manifest)
    (request : IndexPublishRequest U) (manifests : ManifestMap) (id : ManifestId) :
    catalogue_with catalogue request manifests (request.manifest_key id) =
      (catalogue (request.manifest_key id)).or manifests[id]? := by
  show or _ (if request.manifest_key id = request.manifest_key id then manifests[id]?
    else none) = _
  rw [if_pos rfl]

theorem Decided.catalogued (h : Decided blake3 request current load_manifest publication)
    {catalogue : ManifestKey → Option Manifest}
    (hload : ∀ id existing, load_manifest id = .ok existing →
      catalogue (request.manifest_key id) = existing) :
    Catalogued blake3 (catalogue_with catalogue request publication.manifests) request := by
  intro record hrecord
  obtain ⟨manifest, hmanifest, hid, hdescribed⟩ := h.manifests record hrecord
  obtain ⟨existing, hexisting, hsame⟩ := h.catalogue _ _ hmanifest
  refine ⟨manifest, ?_, hid, hdescribed⟩
  rw [catalogue_with_manifest_key, hload _ _ hexisting, hmanifest]
  cases existing with
  | none => rfl
  | some value => rw [some_or, hsame value rfl]

/-! ## The authority -/

/-- What the publishers keep: the Index of each Workspace, the catalogue of Manifests and the book.
-/
structure Authority (U : UnicodeTables) where
  index : IndexKey → CentralResult (IndexSnapshot U)
  catalogue : ManifestKey → Option Manifest
  book : Book JobKey (IndexPublishRequest U) IndexPublishOutcome

namespace Authority

def enter (a : Authority U) (request : IndexPublishRequest U) (outcome : IndexPublishOutcome) :
    Authority U :=
  { a with book := update a.book request.job_key (some (request, outcome)) }

/-- The four ways in which a call changes the authority. -/
inductive Step (blake3 : Blake3) (a : Authority U) (request : IndexPublishRequest U) :
    CentralResult IndexPublishOutcome → Authority U → Prop
  | failed (error : CentralError)
      (h : ∀ outcome, a.book request.job_key ≠ some (request, outcome)) :
      Step blake3 a request (.error error) a
  | replay {outcome : IndexPublishOutcome}
      (h : a.book request.job_key = some (request, outcome)) :
      Step blake3 a request (.ok outcome) a
  | refused {outcome : IndexPublishOutcome} (h : a.book request.job_key = none)
      (hrefused : ∀ version, outcome ≠ .Published version) :
      Step blake3 a request (.ok outcome) (a.enter request outcome)
  | published {current next : IndexSnapshot U} {catalogue : ManifestKey → Option Manifest}
      (h : a.book request.job_key = none) (hcurrent : a.index request.index_key = .ok current)
      (hreplaces : Replaces blake3 request current next)
      (hkeeps : ∀ key manifest, a.catalogue key = some manifest → catalogue key = some manifest)
      (hcatalogued : Catalogued blake3 catalogue request) :
      Step blake3 a request (.ok (.Published next.version))
        (enter ⟨update a.index request.index_key (.ok next), catalogue, a.book⟩ request
          (.Published next.version))

/-- Requests are entered for their own job, and only if their tenants agree. -/
def Proper (a : Authority U) : Prop :=
  ∀ job request outcome, a.book job = some (request, outcome) →
    request.job_key = job ∧ request.job_key.tenant_id = request.index_key.tenant_id

theorem Proper.enter {a : Authority U} (h : a.Proper)
    (htenant : request.job_key.tenant_id = request.index_key.tenant_id)
    (outcome : IndexPublishOutcome) : (a.enter request outcome).Proper := by
  intro job other outcome' hentry
  by_cases hjob : job = request.job_key
  · subst hjob
    simp only [Authority.enter, update_self, some.injEq, Prod.mk.injEq] at hentry
    obtain ⟨rfl, -⟩ := hentry
    exact ⟨rfl, htenant⟩
  · simp only [Authority.enter, update_of_ne hjob] at hentry
    exact h job other outcome' hentry

end Authority

/-- A publisher seen as an authority. -/
def IndexPublisher.authority {Store : Type} (publisher : IndexPublisher U Store)
    (catalogue : Store → ManifestKey → Option Manifest) (store : Store) : Authority U :=
  ⟨publisher.load_index store, catalogue store, publisher.book store⟩

/-- What is written is read back, and nothing else is changed. -/
structure IndexPublisher.Lawful {Store : Type} (blake3 : Blake3)
    (publisher : IndexPublisher U Store)
    (catalogue : Store → ManifestKey → Option Manifest) : Prop where
  load_manifest : ∀ store key existing, publisher.load_manifest store key = .ok existing →
    catalogue store key = existing
  store_publication : ∀ store request outcome,
    publisher.authority catalogue (publisher.store_publication store request outcome) =
      (publisher.authority catalogue store).enter request outcome
  store_index : ∀ store request current publication,
    publisher.load_index store request.index_key = .ok current →
    Decided blake3 request current
      (fun id => publisher.load_manifest store (request.manifest_key id)) publication →
    publisher.authority catalogue (publisher.store_index store request publication) =
      ⟨update (publisher.load_index store) request.index_key
          (.ok ⟨publication.version, publication.records⟩),
        catalogue_with (catalogue store) request publication.manifests, publisher.book store⟩

/-! ## The publishers -/

section Step

variable {Store : Type} {publisher : IndexPublisher U Store}
  {catalogue : Store → ManifestKey → Option Manifest} {store : Store}

/-- **Step**: a call changes the authority in one of the four ways. -/
theorem IndexPublisher.Lawful.step (h : publisher.Lawful blake3 catalogue)
    (hproper : (publisher.authority catalogue store).Proper) (request : IndexPublishRequest U) :
    Authority.Step blake3 (publisher.authority catalogue store) request
        (publisher.compare_and_swap blake3 store request).1
        (publisher.authority catalogue (publisher.compare_and_swap blake3 store request).2) ∧
      (publisher.authority catalogue
        (publisher.compare_and_swap blake3 store request).2).Proper := by
  unfold compare_and_swap
  by_cases htenant : request.job_key.tenant_id ≠ request.index_key.tenant_id
  · rw [if_pos htenant]
    exact ⟨.failed _ fun outcome hentry => htenant (hproper _ _ _ hentry).2, hproper⟩
  · rw [if_neg htenant]
    have hsame := not_not.mp htenant
    cases hbook : publisher.book store request.job_key with
    | some entry =>
      obtain ⟨existing, outcome⟩ := entry
      by_cases hexisting : existing ≠ request
      · simp only [if_pos hexisting]
        refine ⟨.failed _ fun outcome hentry => hexisting ?_, hproper⟩
        cases hbook.symm.trans hentry
        rfl
      · simp only [if_neg hexisting]
        exact ⟨.replay (not_not.mp hexisting ▸ hbook), hproper⟩
    | none =>
      have hnew : ∀ outcome, (publisher.authority catalogue store).book request.job_key ≠
          some (request, outcome) := fun outcome hentry => nomatch hbook.symm.trans hentry
      cases hindex : publisher.load_index store request.index_key with
      | error error => exact ⟨.failed _ hnew, hproper⟩
      | ok current =>
        by_cases hversion :
            ¬ same_index_version current.version request.expected_index_version = true
        · simp only [if_pos hversion]
          rw [h.store_publication]
          exact ⟨.refused hbook fun _ => nofun, hproper.enter hsame _⟩
        · simp only [if_neg hversion]
          split
          · exact ⟨.failed _ hnew, hproper⟩
          · rw [h.store_publication]
            exact ⟨.refused hbook fun _ => nofun, hproper.enter hsame _⟩
          · next publication hdecide =>
            have hdecided := decide_publication_ok hdecide (not_not.mp hversion)
            rw [h.store_publication,
              h.store_index store request current publication hindex hdecided]
            refine ⟨.published hbook hindex hdecided.replaces
              (fun _ _ => catalogue_with_keeps _ _) ?_, ?_⟩
            · exact hdecided.catalogued fun id existing => h.load_manifest _ _ _
            · exact Authority.Proper.enter (fun job other outcome =>
                hproper job other outcome) hsame _

theorem IndexPublisher.compare_and_swap_error {error : CentralError}
    (h : (publisher.compare_and_swap blake3 store request).1 = .error error) :
    (publisher.compare_and_swap blake3 store request).2 = store := by
  unfold compare_and_swap at h ⊢
  repeat' split
  all_goals simp_all

variable {outcome : IndexPublishOutcome}

theorem IndexPublisher.compare_and_swap_replay
    (h : publisher.book store request.job_key = some (request, outcome))
    (htenant : request.job_key.tenant_id = request.index_key.tenant_id) :
    publisher.compare_and_swap blake3 store request = (.ok outcome, store) := by
  simp [compare_and_swap, htenant, h]

theorem IndexPublisher.compare_and_swap_reused {request other : IndexPublishRequest U}
    (h : publisher.book store request.job_key = some (other, outcome)) (hne : other ≠ request) :
    ∃ error, publisher.compare_and_swap blake3 store request = (.error error, store) := by
  unfold compare_and_swap
  by_cases htenant : request.job_key.tenant_id ≠ request.index_key.tenant_id
  · exact ⟨_, if_pos htenant⟩
  · exact ⟨job_id_reused request, by simp [htenant, h, hne]⟩

end Step

variable {record : FileRecord U}

namespace SqliteAuthorityStore

variable {store : SqliteAuthorityStore U}

theorem read_row_row (h : record.validate = .ok ()) : read_row U (row record) = .ok record := by
  simp only [read_row, row, new, ok_iff, mapError_eq_ok, LogicalPath.parse_eq_ok]
  exact ⟨record.path, rfl, h, rfl⟩

theorem foldlM_read_row {records : List (FileRecord U)}
    (h : ∀ record ∈ records, record.validate = .ok ()) (m : IndexMap U) :
    (records.map row).foldlM (fun m row => do
        let record ← read_row U row
        return m.insert record.path record) m =
      .ok (records.foldl (fun m record => m.insert record.path record) m) := by
  induction records generalizing m with
  | nil => rfl
  | cons record records ih =>
    obtain ⟨hfirst, hrest⟩ := forall_mem_cons.mp h
    rw [map_cons, foldlM_cons, read_row_row hfirst]
    exact ih hrest _

/-- **Round trip of the rows**: the Index is read back from the rows of its records. -/
theorem read_rows_values (hkeyed : KeyedBy path records)
    (hvalid : ∀ record ∈ values records, record.validate = .ok ()) :
    read_rows ((values records).map row) = .ok records := by
  have hsame : keyed path (values records) = records := by
    have hdistinct := hkeyed.sorted.imp fun hab => hab.ne
    apply ExtTreeMap.ext_getElem?
    intro path
    apply ext
    intro record
    rw [getElem?_keyed hdistinct, hkeyed.mem_values]
    constructor
    · intro ⟨hrecord, hpath⟩
      exact hpath ▸ hrecord
    · intro hrecord
      have hpath := hkeyed path record hrecord
      exact ⟨hpath.symm ▸ hrecord, hpath⟩
  unfold read_rows
  rw [foldlM_read_row hvalid]
  exact congrArg Except.ok hsame

theorem keyedBy_of_read_rows {rows : List IndexRow}
    (h : read_rows rows = .ok records) : KeyedBy path records := by
  refine foldlM_invariant (I := fun _ (m : IndexMap U) => KeyedBy path m) .empty ?_ h
  intro _ row m m' _ hm hround
  simp only [ok_iff] at hround
  obtain ⟨record, -, rfl⟩ := hround
  exact hm.insert record

theorem keyedBy_of_load_index {key : IndexKey} {snapshot : IndexSnapshot U}
    (h : store.load_index blake3 key = .ok snapshot) :
    KeyedBy path snapshot.records := by
  unfold load_index at h
  split at h
  · simp only [empty_snapshot, ok_iff, mapError_eq_ok] at h
    obtain ⟨_, -, rfl⟩ := h
    exact .empty
  · simp only [ok_iff, mapError_eq_ok] at h
    obtain ⟨records, hrecords, _, -, -, rfl⟩ := h
    exact keyedBy_of_read_rows hrecords

/-- **Round trip of a publication**: the Index that is read is the one that was written. -/
theorem load_store_index {load : ManifestId → CentralResult (Option Manifest)}
    (hcurrent : store.load_index blake3 request.index_key = .ok current)
    (h : Decided blake3 request current load publication) :
    (store.store_index request publication).load_index blake3 =
      update (store.load_index blake3) request.index_key
        (.ok ⟨publication.version, publication.records⟩) := by
  funext key
  by_cases hkey : key = request.index_key
  · subst hkey
    have hdigest := h.replaces.digest
    obtain ⟨hsnapshot, -⟩ := index_snapshot_digest_eq_ok.mp hdigest
    have hkeyed : KeyedBy path publication.records := by
      rw [show publication.records = _ from h.replaces.records]
      exact keyedBy_apply_mutations (keyedBy_of_load_index hcurrent) _
    have hread := read_rows_values hkeyed (validate_index_snapshot_eq_ok.mp hsnapshot).1
    have hversion : publication.version =
        .of ⟨publication.version.revision, publication.version.digest⟩ := by
      unfold WireIndexVersion.of
      rw [← h.version]
    rw [update_self]
    unfold load_index
    simp only [store_index, update_self, ok_iff, mapError_eq_ok, from_snapshot_eq_ok]
    exact ⟨_, hread, ⟨publication.version.revision, publication.version.digest⟩,
      ⟨rfl, hdigest⟩, rfl,
      by rw [← hversion]⟩
  · rw [update_of_ne hkey]
    unfold load_index
    simp only [store_index, update_of_ne hkey]

theorem load_manifest_eq_ok {key : ManifestKey} {existing : Option Manifest}
    (h : store.load_manifest blake3 key = .ok existing) :
    store.immutable_manifests key = existing := by
  unfold load_manifest at h
  split at h
  · next hnone =>
    cases h
    exact hnone
  · next manifest hsome =>
    simp only [ok_iff, mapError_eq_ok] at h
    obtain ⟨_, -, -, rfl⟩ := h
    exact hsome

theorem lawful (blake3 : Blake3) :
    (publisher blake3 : IndexPublisher U (SqliteAuthorityStore U)).Lawful blake3
      immutable_manifests where
  load_manifest := fun _ _ _ => load_manifest_eq_ok
  store_publication := fun _ _ _ => rfl
  store_index := by
    intro store request current publication hcurrent hdecided
    exact congrArg (Authority.mk · (catalogue_with store.immutable_manifests request _)
      store.index_publications) (load_store_index hcurrent hdecided)

end SqliteAuthorityStore

namespace InMemoryIndexPublisher

theorem snapshot_publish {store : InMemoryIndexPublisher U}
    (hcurrent : store.snapshot blake3 request.index_key = .ok current)
    (publication : Publication U) :
    (store.publish request publication).snapshot blake3 =
      update (store.snapshot blake3) request.index_key
        (.ok ⟨publication.version, publication.records⟩) := by
  funext key
  by_cases hkey : key = request.index_key
  · subst hkey
    simp only [snapshot, ok_iff] at hcurrent
    obtain ⟨empty, hempty, -⟩ := hcurrent
    rw [update_self]
    unfold snapshot
    rw [hempty]
    simp only [publish, update_self]
    rfl
  · rw [update_of_ne hkey]
    unfold snapshot
    simp only [publish, update_of_ne hkey]

theorem lawful (blake3 : Blake3) :
    (publisher blake3 : IndexPublisher U (InMemoryIndexPublisher U)).Lawful blake3 manifests where
  load_manifest := fun _ _ _ h => Except.ok.inj h
  store_publication := fun _ _ _ => rfl
  store_index := by
    intro store request current publication hcurrent _
    exact congrArg (Authority.mk · (catalogue_with store.manifests request _) store.publications)
      (snapshot_publish hcurrent publication)

end InMemoryIndexPublisher

/-! ## Sequences of calls -/

/-- A call as its caller sees it: the answer, unless it is lost. -/
abbrev CallLabel (U : UnicodeTables) :=
  IndexPublishRequest U × Option (CentralResult IndexPublishOutcome)

/-- A call is answered, or its answer is lost, or the transaction is not committed. -/
inductive IndexPublisher.Calls {Store : Type} (blake3 : Blake3)
    (publisher : IndexPublisher U Store) :
    Store → CallLabel U → Store → Prop
  | answered (store : Store) (request : IndexPublishRequest U) :
      Calls blake3 publisher store
        (request, some (publisher.compare_and_swap blake3 store request).1)
        (publisher.compare_and_swap blake3 store request).2
  | lost (store : Store) (request : IndexPublishRequest U) :
      Calls blake3 publisher store (request, none)
        (publisher.compare_and_swap blake3 store request).2
  | aborted (store : Store) (request : IndexPublishRequest U) :
      Calls blake3 publisher store (request, none) store

/-- The Index goes through these publications, one after the other. -/
inductive Chain (blake3 : Blake3) (key : IndexKey) (first : CentralResult (IndexSnapshot U)) :
    List (IndexPublishRequest U × WireIndexVersion) → CentralResult (IndexSnapshot U) → Prop
  | refl : Chain blake3 key first [] first
  | publish {links : List (IndexPublishRequest U × WireIndexVersion)}
      {request : IndexPublishRequest U} {current next : IndexSnapshot U}
      (hchain : Chain blake3 key first links (.ok current)) (hkey : request.index_key = key)
      (hreplaces : Replaces blake3 request current next) :
      Chain blake3 key first (links ++ [(request, next.version)]) (.ok next)

/-- The Index went through exactly the publications that were entered, each for another job. -/
structure Accounted (blake3 : Blake3) (key : IndexKey) (first last : Authority U)
    (links : List (IndexPublishRequest U × WireIndexVersion)) : Prop where
  chain : Chain blake3 key (first.index key) links (last.index key)
  jobs : (links.map (·.1.job_key)).Nodup
  entered : ∀ request version, (request, version) ∈ links ↔ request.index_key = key ∧
    first.book request.job_key = none ∧
    last.book request.job_key = some (request, .Published version)

/-- A record of the Index was there at first, or its Manifest is catalogued with its size and
chunk count. -/
def Backed (blake3 : Blake3) (key : IndexKey) (first last : Authority U) : Prop :=
  ∀ snapshot, last.index key = .ok snapshot → ∀ (path : LogicalPath U) (record : FileRecord U),
    snapshot.records[path]? = some record →
    (∃ old, first.index key = .ok old ∧ old.records[path]? = some record) ∨
      ∃ manifest, last.catalogue (key.tenant_id, key.artifact_id, record.manifest_id) =
          some manifest ∧ manifest_id blake3 manifest = .ok record.manifest_id ∧
        Described manifest record.total_size record.chunk_count

section Steps

variable {key : IndexKey} {first a a' : Authority U} {request : IndexPublishRequest U}
  {result : CentralResult IndexPublishOutcome}

theorem Authority.Step.book_call (h : Authority.Step blake3 a request result a') :
    Book.Call IndexPublishRequest.job_key a.book request result a'.book := by
  cases h with
  | failed error hnot => exact .failed error hnot
  | replay hentry => exact .replay hentry
  | refused hnone => exact .record hnone
  | published hnone => exact .record hnone

theorem Accounted.step {links : List (IndexPublishRequest U × WireIndexVersion)}
    (haccounted : Accounted blake3 key first a links)
    (hkeeps : ∀ job entry, first.book job = some entry → a.book job = some entry)
    (h : Authority.Step blake3 a request result a') :
    ∃ links', Accounted blake3 key first a' links' := by
  obtain ⟨hchain, hjobs, hentered⟩ := haccounted
  cases h with
  | failed => exact ⟨links, hchain, hjobs, hentered⟩
  | replay => exact ⟨links, hchain, hjobs, hentered⟩
  | @refused outcome hnone hrefused =>
    refine ⟨links, hchain, hjobs, ?_⟩
    intro other version
    rw [hentered]
    simp only [Authority.enter, Book.update_iff hnone]
    have hnot : ¬ (other = request ∧ IndexPublishOutcome.Published version = outcome) :=
      fun heq => hrefused version heq.2.symm
    simp only [hnot, false_or]
  | @published current next catalogue hnone hcurrent hreplaces =>
    -- entries are never dropped, so the job had none at the start either
    have hfirst : first.book request.job_key = none := by
      by_contra hsome
      obtain ⟨entry, hentry⟩ := ne_none_iff_exists'.mp hsome
      cases hnone.symm.trans (hkeeps _ _ hentry)
    by_cases hkey : request.index_key = key
    · subst hkey
      refine ⟨links ++ [(request, next.version)], ?_, ?_, ?_⟩
      · simp only [Authority.enter, update_self]
        exact .publish (hcurrent ▸ hchain) rfl hreplaces
      · rw [map_append, nodup_append]
        refine ⟨hjobs, by simp, ?_⟩
        intro job hjob job' hjob' heq
        obtain ⟨⟨other, version⟩, hmem, rfl⟩ := mem_map.mp hjob
        simp only [map_cons, map_nil, mem_singleton] at hjob'
        have hsome := ((hentered other version).mp hmem).2.2
        rw [show other.job_key = request.job_key from heq.trans hjob', hnone] at hsome
        cases hsome
      · intro other version
        rw [mem_append, hentered]
        simp only [Authority.enter, Book.update_iff hnone, mem_singleton, Prod.mk.injEq,
          IndexPublishOutcome.Published.injEq]
        constructor
        · rintro (⟨hkey, hbefore, hentry⟩ | ⟨rfl, rfl⟩)
          · exact ⟨hkey, hbefore, .inr hentry⟩
          · exact ⟨rfl, hfirst, .inl ⟨rfl, rfl⟩⟩
        · rintro ⟨hkey, hbefore, ⟨rfl, rfl⟩ | hentry⟩
          · exact .inr ⟨rfl, rfl⟩
          · exact .inl ⟨hkey, hbefore, hentry⟩
    · -- a publication under another key leaves this chain as it is
      refine ⟨links, ?_, hjobs, ?_⟩
      · simp only [Authority.enter, update_of_ne (Ne.symm hkey)]
        exact hchain
      · intro other version
        rw [hentered]
        simp only [Authority.enter, Book.update_iff hnone]
        constructor
        · intro ⟨hother, hbefore, hentry⟩
          exact ⟨hother, hbefore, .inr hentry⟩
        · rintro ⟨hother, hbefore, ⟨rfl, -⟩ | hentry⟩
          · exact absurd hother hkey
          · exact ⟨hother, hbefore, hentry⟩

theorem getElem?_apply_mutations {mutations : List (IndexMutation U)} {path : LogicalPath U}
    (h : (apply_mutations records mutations)[path]? = some record) :
    IndexMutation.Upsert record ∈ mutations ∨ records[path]? = some record := by
  induction mutations generalizing records with
  | nil => exact .inr h
  | cons mutation mutations ih =>
    rcases ih h with hlater | hbefore
    · exact .inl (mem_cons_of_mem _ hlater)
    · rw [getElem?_apply_change] at hbefore
      split at hbefore
      · cases mutation with
        | Upsert record' =>
          cases hbefore
          exact .inl mem_cons_self
        | Delete => cases hbefore
      · exact .inr hbefore

theorem Backed.step (hbacked : Backed blake3 key first a)
    (h : Authority.Step blake3 a request result a') : Backed blake3 key first a' := by
  cases h with
  | failed => exact hbacked
  | replay => exact hbacked
  | refused => exact hbacked
  | @published current next catalogue _ hcurrent hreplaces hkeeps hcatalogued =>
    have hold : ∀ snapshot, a.index key = .ok snapshot → ∀ (path : LogicalPath U)
        (record : FileRecord U), snapshot.records[path]? = some record →
        (∃ old, first.index key = .ok old ∧ old.records[path]? = some record) ∨
          ∃ manifest, catalogue (key.tenant_id, key.artifact_id, record.manifest_id) =
              some manifest ∧ manifest_id blake3 manifest = .ok record.manifest_id ∧
            Described manifest record.total_size record.chunk_count := by
      intro snapshot hsnapshot path record hrecord
      rcases hbacked snapshot hsnapshot path record hrecord with hfirst | ⟨manifest,
        hmanifest, hrest⟩
      · exact .inl hfirst
      · exact .inr ⟨manifest, hkeeps _ _ hmanifest, hrest⟩
    intro snapshot hsnapshot path record hrecord
    by_cases hkey : request.index_key = key
    · subst hkey
      simp only [Authority.enter, update_self, Except.ok.injEq] at hsnapshot
      subst hsnapshot
      rw [hreplaces.records] at hrecord
      rcases getElem?_apply_mutations hrecord with hupsert | hbefore
      · exact .inr (hcatalogued record hupsert)
      · exact hold current hcurrent path record hbefore
    · simp only [Authority.enter, update_of_ne (Ne.symm hkey)] at hsnapshot
      exact hold snapshot hsnapshot path record hrecord

end Steps

/-! ### Runs -/

/-- What holds between the first and the last authority of a sequence of calls. -/
structure Since (blake3 : Blake3) (first last : Authority U) : Prop where
  proper : last.Proper
  kept : ∀ job entry, first.book job = some entry → last.book job = some entry
  accounted : ∀ key, ∃ links, Accounted blake3 key first last links
  backed : ∀ key, Backed blake3 key first last

theorem Since.refl {a : Authority U} (h : a.Proper) : Since blake3 a a where
  proper := h
  kept := fun _ _ hentry => hentry
  accounted := by
    intro key
    refine ⟨[], .refl, by simp, ?_⟩
    intro request version
    constructor
    · intro hmem
      cases hmem
    · intro ⟨_, hnone, hsome⟩
      cases hnone.symm.trans hsome
  backed := fun _ snapshot hsnapshot _ _ hrecord => .inl ⟨snapshot, hsnapshot, hrecord⟩

theorem Since.step {first a a' : Authority U} {result : CentralResult IndexPublishOutcome}
    (h : Since blake3 first a) (hstep : Authority.Step blake3 a request result a')
    (hproper : a'.Proper) : Since blake3 first a' where
  proper := hproper
  kept := fun job entry hentry => hstep.book_call.keeps (h.kept job entry hentry)
  accounted := by
    intro key
    obtain ⟨links, hlinks⟩ := h.accounted key
    exact hlinks.step h.kept hstep
  backed := fun key => (h.backed key).step hstep

/-- **Run**: every sequence of calls to a lawful publisher. -/
theorem IndexPublisher.Lawful.run {Store : Type} {publisher : IndexPublisher U Store}
    {catalogue : Store → ManifestKey → Option Manifest} (h : publisher.Lawful blake3 catalogue)
    {start store : Store} (hstart : (publisher.authority catalogue start).Proper)
    {log : List (CallLabel U)} (hrun : Run (publisher.Calls blake3) start log store) :
    Since blake3 (publisher.authority catalogue start) (publisher.authority catalogue store) := by
  refine hrun.invariant (I := fun store => Since blake3 (publisher.authority catalogue start)
    (publisher.authority catalogue store)) ?_ (.refl hstart)
  intro m l m' hcall hm
  cases hcall with
  | answered request =>
    obtain ⟨hstep, hproper⟩ := h.step hm.proper request
    exact hm.step hstep hproper
  | lost request =>
    obtain ⟨hstep, hproper⟩ := h.step hm.proper request
    exact hm.step hstep hproper
  | aborted request => exact hm

inductive Backend where
  | sqlite
  | in_memory
  deriving DecidableEq

namespace Backend

abbrev Store (U : UnicodeTables) : Backend → Type
  | .sqlite => SqliteAuthorityStore U
  | .in_memory => InMemoryIndexPublisher U

def publisher (blake3 : Blake3) : (backend : Backend) → IndexPublisher U (backend.Store U)
  | .sqlite => SqliteAuthorityStore.publisher blake3
  | .in_memory => InMemoryIndexPublisher.publisher blake3

def catalogue : (backend : Backend) → backend.Store U → ManifestKey → Option Manifest
  | .sqlite => SqliteAuthorityStore.immutable_manifests
  | .in_memory => InMemoryIndexPublisher.manifests

/-- The Index, the catalogue and the book of a store. -/
def authority (blake3 : Blake3) (backend : Backend) (store : backend.Store U) : Authority U :=
  (backend.publisher blake3).authority backend.catalogue store

theorem lawful (blake3 : Blake3) (backend : Backend) :
    (backend.publisher blake3 : IndexPublisher U (backend.Store U)).Lawful blake3
      backend.catalogue := by
  cases backend with
  | sqlite => exact SqliteAuthorityStore.lawful blake3
  | in_memory => exact InMemoryIndexPublisher.lawful blake3

end Backend

/-- **The publication chain.** After any sequence of calls, by any jobs and with answers lost or
transactions not committed, from a store whose book is in order:

- the Index of each Workspace went through exactly the publications that were entered
  meanwhile, one per job; each replaced the version that its request expected by the next
  revision, with the mutations applied and the digest that the request expected;
- a record that was not there at first has its Manifest in the catalogue, with the same size
  and chunk count;
- what was in the book is still there, the same request gets its outcome again and changes
  nothing, and another request of the same job fails and changes nothing;
- a call that fails changes nothing, and the answer of any other is in the book after it;
  one that ends in a conflict or a rejection changes neither an Index nor the catalogue. -/
theorem index_publication_chain (blake3 : Blake3) (backend : Backend)
    {start store : backend.Store U}
    (hstart : (backend.authority blake3 start).Proper) {log : List (CallLabel U)}
    (hrun : Run ((backend.publisher blake3).Calls blake3) start log store) :
    (∀ key, ∃ links, Accounted blake3 key (backend.authority blake3 start)
      (backend.authority blake3 store) links) ∧
    (∀ key, Backed blake3 key (backend.authority blake3 start) (backend.authority blake3 store)) ∧
    (∀ job entry, (backend.authority blake3 start).book job = some entry →
      (backend.authority blake3 store).book job = some entry) ∧
    ∀ request : IndexPublishRequest U,
      (∀ outcome, (backend.authority blake3 store).book request.job_key = some (request, outcome) →
        (backend.publisher blake3).compare_and_swap blake3 store request = (.ok outcome, store)) ∧
      (∀ other outcome, (backend.authority blake3 store).book request.job_key =
          some (other, outcome) → other ≠ request →
        ∃ error, (backend.publisher blake3).compare_and_swap blake3 store request =
          (.error error, store)) ∧
      (∀ error,
        ((backend.publisher blake3).compare_and_swap blake3 store request).1 = .error error →
        ((backend.publisher blake3).compare_and_swap blake3 store request).2 = store) ∧
      (∀ outcome,
        ((backend.publisher blake3).compare_and_swap blake3 store request).1 = .ok outcome →
        ∀ after, after = ((backend.publisher blake3).compare_and_swap blake3 store request).2 →
          (backend.authority blake3 after).book request.job_key = some (request, outcome) ∧
          ((∀ version, outcome ≠ .Published version) →
            (backend.authority blake3 after).index = (backend.authority blake3 store).index ∧
            (backend.authority blake3 after).catalogue =
              (backend.authority blake3 store).catalogue)) := by
  have hlawful := backend.lawful (U := U) blake3
  have hsince := hlawful.run hstart hrun
  refine ⟨hsince.accounted, hsince.backed, hsince.kept, ?_⟩
  intro request
  refine ⟨?_, ?_, ?_, ?_⟩
  · intro outcome hentry
    exact IndexPublisher.compare_and_swap_replay hentry (hsince.proper _ _ _ hentry).2
  · intro other outcome hentry hne
    exact IndexPublisher.compare_and_swap_reused hentry hne
  · intro error herror
    exact IndexPublisher.compare_and_swap_error herror
  · intro outcome hresult after hafter
    subst hafter
    have hstep := (hlawful.step hsince.proper request).1
    rw [hresult] at hstep
    generalize hlast : (backend.publisher blake3).authority backend.catalogue
      ((backend.publisher blake3).compare_and_swap blake3 store request).2 = last at hstep
    rw [Backend.authority, hlast]
    cases hstep with
    | replay hentry => exact ⟨hentry, fun _ => ⟨rfl, rfl⟩⟩
    | refused => exact ⟨update_self .., fun _ => ⟨rfl, rfl⟩⟩
    | published => exact ⟨update_self .., fun hrefused => absurd rfl (hrefused _)⟩

/-! ### Two jobs on an empty store -/

def sample_index_key : IndexKey :=
  ⟨.named "c" (by decide), .named "q" (by decide), .named "k" (by decide), .named "y" (by decide)⟩

def sample_job_key (job : String) (h : validate_resource_id .job job.toList = .ok ()) : JobKey :=
  ⟨.named "c" (by decide), .named job h⟩

def sample_manifest : Manifest := ⟨0, .WholeFile, []⟩

def sample_manifest_id : ManifestId :=
  ((manifest_id poly_hash sample_manifest).toOption).getD ⟨digest_of_nat 0⟩

def sample_record : FileRecord asciiTables := ⟨ascii_path "f" (by decide), sample_manifest_id, 0, 0⟩

def snapshot_digest (records : List (FileRecord asciiTables)) : ContentDigest :=
  ((index_snapshot_digest poly_hash records).toOption).getD (digest_of_nat 0)

def sample_publish (job_key : JobKey) : IndexPublishRequest asciiTables where
  job_key := job_key
  index_key := sample_index_key
  expected_index_version := ⟨0, snapshot_digest [], []⟩
  expected_result_digest := snapshot_digest [sample_record]
  manifests := [sample_manifest]
  mutations := [.Upsert sample_record.path sample_manifest_id 0 0 []]

def sample_store : SqliteAuthorityStore asciiTables :=
  ⟨fun _ => none, fun _ => [], fun _ => none, fun _ => none⟩

def sample_first := sample_publish (sample_job_key "j" (by decide))

def sample_second := sample_publish (sample_job_key "k" (by decide))

def sample_published : SqliteAuthorityStore asciiTables :=
  (sample_store.compare_and_swap poly_hash sample_first).2

theorem sample_answer : (sample_store.compare_and_swap poly_hash sample_first).1 =
    .ok (.Published ⟨1, snapshot_digest [sample_record], []⟩) := by
  decide +kernel

theorem sample_publish_run :
    Run ((Backend.sqlite.publisher poly_hash).Calls poly_hash) sample_store
      [(sample_first, some (.ok (.Published ⟨1, snapshot_digest [sample_record], []⟩)))]
      sample_published := by
  rw [← sample_answer]
  exact Run.refl.step (.answered sample_store sample_first)

/-- The first job publishes revision 1. The same changes by a second job are a conflict, which
is entered and changes no Index. -/
theorem index_publication_chain_sample :
    (∀ job, (Backend.sqlite.authority poly_hash sample_store).book job = none) ∧
    (sample_store.compare_and_swap poly_hash sample_first).1 =
      .ok (.Published ⟨1, snapshot_digest [sample_record], []⟩) ∧
    (sample_published.compare_and_swap poly_hash sample_second).1 =
      .ok (.Conflict ⟨1, snapshot_digest [sample_record], []⟩) ∧
    ∀ after, after = (sample_published.compare_and_swap poly_hash sample_second).2 →
      (Backend.sqlite.authority poly_hash after).book sample_second.job_key =
        some (sample_second, .Conflict ⟨1, snapshot_digest [sample_record], []⟩) ∧
      (Backend.sqlite.authority poly_hash after).index =
        (Backend.sqlite.authority poly_hash sample_published).index := by
  have hconflict : (sample_published.compare_and_swap poly_hash sample_second).1 =
      .ok (.Conflict ⟨1, snapshot_digest [sample_record], []⟩) := by decide +kernel
  have hproper : (Backend.sqlite.authority poly_hash sample_store).Proper :=
    fun _ _ _ hentry => nomatch hentry
  have hchain := index_publication_chain poly_hash .sqlite hproper sample_publish_run
  refine ⟨fun _ => rfl, sample_answer, hconflict, fun after hafter => ?_⟩
  obtain ⟨hentered, hsame⟩ := (hchain.2.2.2 sample_second).2.2.2 _ hconflict after hafter
  exact ⟨hentered, (hsame fun _ => nofun).1⟩

end NeoEngram.Central

import NeoEngram.Local.IndexTransaction

/-! # Committing an Index transaction

`commit` repeats the changes of a transaction on the table, under the writer
lock. It writes the map that the transaction showed, with its count and digest,
and nothing once another transaction has changed the Index.
-/

namespace NeoEngram.Local

open Checks Words OrderedKeys Paging List UInt64 Option SqliteIndexTxn IndexSnapshotHasher
open Std (ExtTreeMap)

variable {U : UnicodeTables} {blake3 : Blake3}

/-! ## Rows -/

theorem row_map_filter (files : IndexRows) (keep : Text → Bool) :
    row_map (files.filter fun path _ => keep path) =
      (row_map files).filter fun path _ => keep path := by
  apply ExtTreeMap.ext_getElem?
  intro path
  rw [getElem?_filter_eq, getElem?_row_map, getElem?_row_map, getElem?_filter_eq]
  split <;> rfl

theorem row_map_insert (files : IndexRows) (file : FileRecord) (digest : ContentDigest) :
    row_map (files.insert file.path ⟨file.total_size, file.chunk_count, file.manifest_id, digest⟩) =
      (row_map files).insert file.path file := by
  apply ExtTreeMap.ext_getElem?
  intro path
  rw [getElem?_row_map, getElem?_insert_eq, getElem?_insert_eq, getElem?_row_map]
  split
  · next hpath => rw [← hpath]; rfl
  · rfl

/-- The count of rows is kept with the rows. -/
def Counted (rows : IndexRows × UInt64) : Prop := rows.2.toNat = rows.1.size

variable {rows : IndexRows × UInt64}

theorem kept_eq (rows : IndexRows) (scope : Text) :
    (if scope.isEmpty then ∅ else rows.filter fun path _ => !matches_scope scope path) =
      rows.filter fun path _ => !path_is_in_scope path scope := by
  by_cases hempty : scope = []
  · subst hempty
    have hall : ∀ path, path_is_in_scope path [] = true := fun path =>
      path_is_in_scope_iff.mpr (.inl rfl)
    apply ExtTreeMap.ext_getElem?
    intro path
    rw [@SqliteIndexTxn.getElem?_filter_eq _ rows (fun path => !path_is_in_scope path []) path]
    simp [hall path]
  · have hsame : (fun path (_ : IndexRow) => !matches_scope scope path) =
        fun path _ => !path_is_in_scope path scope := by
      funext path _
      rw [matches_scope_iff hempty]
    simp [hempty, hsame]

theorem apply_index_delete_ok (h : Counted rows) (scope : Text) :
    ∃ count, apply_index_delete rows scope =
        .ok (rows.1.filter fun path _ => !path_is_in_scope path scope, count) ∧
      Counted (rows.1.filter fun path _ => !path_is_in_scope path scope, count) := by
  have hle : (rows.1.filter fun path _ => !path_is_in_scope path scope).size ≤ rows.1.size :=
    ExtTreeMap.size_filter_le_size
  have hbound := rows.2.toNat_lt
  have hcounted : rows.2.toNat = rows.1.size := h
  unfold apply_index_delete
  rw [kept_eq]
  generalize rows.1.filter (fun path _ => !path_is_in_scope path scope) = kept at *
  have hfits : rows.1.size - kept.size < 2 ^ 64 := by omega
  have hfits' : kept.size < 2 ^ 64 := by omega
  have hremoved : u64_try_from (rows.1.size - kept.size) =
      some (ofNat (rows.1.size - kept.size)) := if_pos hfits
  have hsub : checked_sub rows.2 (ofNat (rows.1.size - kept.size)) =
      some (ofNat kept.size) := by
    rw [checked_sub_eq_some, toNat_ofNat_of_lt' hfits, toNat_ofNat_of_lt' hfits']
    omega
  refine ⟨ofNat kept.size, ?_, toNat_ofNat_of_lt' hfits'⟩
  show (ok_or (u64_try_from (rows.1.size - kept.size)) _ >>= fun removed =>
    ok_or (checked_sub rows.2 removed) _ >>= fun count => pure (kept, count)) = _
  rw [hremoved]
  show (ok_or (checked_sub rows.2 _) _ >>= fun count => pure (kept, count)) = _
  rw [hsub]
  rfl

/-- The deletions remove what one of their scopes covers. -/
theorem foldlM_delete_ok (rows : IndexRows × UInt64) (h : Counted rows) (scopes : List Text) :
    ∃ count, scopes.foldlM apply_index_delete rows =
        .ok (rows.1.filter fun path _ => !scopes.any (path_is_in_scope path), count) ∧
      Counted (rows.1.filter fun path _ => !scopes.any (path_is_in_scope path), count) := by
  induction scopes generalizing rows with
  | nil =>
    have hall : (rows.1.filter fun path _ => !([] : List Text).any (path_is_in_scope path)) =
        rows.1 := by
      apply ExtTreeMap.ext_getElem?
      intro path
      rw [getElem?_filter_eq]
      rfl
    rw [hall]
    exact ⟨rows.2, rfl, h⟩
  | cons scope scopes ih =>
    obtain ⟨count, hdelete, hcounted⟩ := apply_index_delete_ok h scope
    obtain ⟨count', hrest, hcounted'⟩ := ih _ hcounted
    have htwice : ((rows.1.filter fun path _ => !path_is_in_scope path scope).filter
          fun path _ => !scopes.any (path_is_in_scope path)) =
        rows.1.filter fun path _ => !(scope :: scopes).any (path_is_in_scope path) := by
      apply ExtTreeMap.ext_getElem?
      intro path
      rw [getElem?_filter_eq, getElem?_filter_eq, getElem?_filter_eq, any_cons]
      cases scopes.any (path_is_in_scope path) <;> cases path_is_in_scope path scope <;> rfl
    simp only [htwice] at hrest hcounted'
    refine ⟨count', ?_, hcounted'⟩
    rw [foldlM_cons, hdelete]
    exact hrest

/-- The Manifest of a record is published with the record's sizes. -/
def Referenced (manifests : ManifestTable) (file : FileRecord) : Prop :=
  (manifests[file.manifest_id]?.any fun stored =>
    stored.total_size = file.total_size ∧ stored.chunk_count = file.chunk_count) = true

/-- What has to hold for a record to be written. -/
def Writable (U : UnicodeTables) (blake3 : Blake3) (manifests : ManifestTable) (file : FileRecord) :
    Prop :=
  SqliteIndexTxn.validate_file_record file = .ok () ∧ Referenced manifests file ∧
    ∃ digest, stored_record_digest U blake3 file = .ok digest

variable {manifests : ManifestTable}

theorem count_with_eq_ok {path : Text} {row : IndexRow} {count : UInt64} (h : Counted rows) :
    count_with rows path = .ok count ↔ Counted (rows.1.insert path row, count) := by
  have hcounted : rows.2.toNat = rows.1.size := h
  rw [Counted, ExtTreeMap.size_insert, count_with]
  split
  · rw [Except.ok.injEq, ← hcounted, ← UInt64.toNat_inj]
    exact eq_comm
  · rw [ok_or_eq_ok, checked_add_eq_some, hcounted, toNat_one]
    exact eq_comm

/-- Writing one record: its row is set, and the count follows. -/
theorem apply_index_upsert_eq_ok {rows rows' : IndexRows × UInt64} {file : FileRecord}
    (h : Counted rows) :
    apply_index_upsert U blake3 manifests rows file = .ok rows' ↔
      Writable U blake3 manifests file ∧ Counted rows' ∧
        ∃ digest, stored_record_digest U blake3 file = .ok digest ∧
          rows'.1 = rows.1.insert file.path
          ⟨file.total_size, file.chunk_count, file.manifest_id, digest⟩ := by
  simp only [apply_index_upsert, ok_iff]
  constructor
  · rintro ⟨hvalid, count, hadd, digest, hdigest, hreferenced, rfl⟩
    exact ⟨⟨hvalid, hreferenced, digest, hdigest⟩, (count_with_eq_ok h).mp hadd, digest, hdigest,
      rfl⟩
  · rintro ⟨⟨hvalid, hreferenced, -⟩, hcounted, digest, hdigest, hrows⟩
    have hcount : Counted (rows.1.insert file.path
        ⟨file.total_size, file.chunk_count, file.manifest_id, digest⟩, rows'.2) := by
      rw [← hrows]
      exact hcounted
    refine ⟨hvalid, rows'.2, (count_with_eq_ok h).mpr hcount, digest, hdigest, hreferenced, ?_⟩
    rw [← hrows]

def set_all (m : TextMap FileRecord) (files : List FileRecord) : TextMap FileRecord :=
  files.foldl (fun m file => m.insert file.path file) m

variable {files : List FileRecord}

theorem foldlM_upsert_ok {rows rows' : IndexRows × UInt64} (h : Counted rows)
    (hfold : files.foldlM (apply_index_upsert U blake3 manifests) rows = .ok rows') :
    (∀ file ∈ files, Writable U blake3 manifests file) ∧ Counted rows' ∧
      row_map rows'.1 = set_all (row_map rows.1) files := by
  induction files generalizing rows with
  | nil =>
    rw [foldlM_nil, pure_eq_ok] at hfold
    exact ⟨by simp, hfold ▸ h, hfold ▸ rfl⟩
  | cons file files ih =>
    rw [foldlM_cons, bind_eq_ok] at hfold
    obtain ⟨rows₁, hfirst, hrest⟩ := hfold
    obtain ⟨hwritable, hcounted, digest, -, hrows⟩ := (apply_index_upsert_eq_ok h).mp hfirst
    obtain ⟨hall, hcounted', hmap⟩ := ih hcounted hrest
    refine ⟨forall_mem_cons.mpr ⟨hwritable, hall⟩, hcounted', ?_⟩
    rw [hmap, hrows, row_map_insert]
    rfl

theorem size_le_set_all (m : TextMap FileRecord) (files : List FileRecord) :
    m.size ≤ (set_all m files).size := by
  induction files generalizing m with
  | nil => exact le_rfl
  | cons file files ih =>
    exact le_trans ExtTreeMap.size_le_size_insert (ih (m.insert file.path file))

theorem exists_foldlM_upsert (h : Counted rows)
    (hall : ∀ file ∈ files, Writable U blake3 manifests file)
    (hsize : (set_all (row_map rows.1) files).size < 2 ^ 64) :
    ∃ rows', files.foldlM (apply_index_upsert U blake3 manifests) rows = .ok rows' := by
  induction files generalizing rows with
  | nil => exact ⟨rows, rfl⟩
  | cons file files ih =>
    obtain ⟨hwritable, hall⟩ := forall_mem_cons.mp hall
    obtain ⟨digest, hdigest⟩ := hwritable.2.2
    let row : IndexRow := ⟨file.total_size, file.chunk_count, file.manifest_id, digest⟩
    have hmap : row_map (rows.1.insert file.path row) = (row_map rows.1).insert file.path file :=
      row_map_insert rows.1 file digest
    have hfits : (rows.1.insert file.path row).size < 2 ^ 64 := by
      rw [← size_row_map, hmap]
      exact lt_of_le_of_lt (size_le_set_all _ files) hsize
    have hcounted : Counted (rows.1.insert file.path row,
        ofNat (rows.1.insert file.path row).size) := toNat_ofNat_of_lt' hfits
    have hfirst : apply_index_upsert U blake3 manifests rows file = .ok
        (rows.1.insert file.path row, ofNat (rows.1.insert file.path row).size) :=
      (apply_index_upsert_eq_ok h).mpr ⟨hwritable, hcounted, digest, hdigest, rfl⟩
    obtain ⟨rows', hrest⟩ := ih hcounted hall (by rw [hmap]; exact hsize)
    exact ⟨rows', by rw [foldlM_cons, hfirst]; exact hrest⟩

/-! ## Versions -/

/-- The canonical digest of the records of a map. -/
def snapshot_digest (U : UnicodeTables) (blake3 : Blake3) (m : TextMap FileRecord) :
    Result ContentDigest := do
  let records ← (values m).mapM (core_file_record U)
  of_core (index_snapshot_digest blake3 records)

theorem values_row_map (files : IndexRows) :
    values (row_map files) = files.toList.map fun row => file_from_row row.1 row.2 := by
  rw [values, row_map, ExtTreeMap.toList_map, List.map_map]
  rfl

theorem foldlM_push_row_eq_ok {rows : List (Text × IndexRow)} {h h' : IndexSnapshotHasher U} :
    rows.foldlM push_row h = .ok h' ↔
      ∃ records, (rows.map fun row => file_from_row row.1 row.2).mapM (core_file_record U) =
        .ok records ∧ records.foldlM push h = .ok h' := by
  induction rows generalizing h with
  | nil => simp
  | cons row rows ih =>
    simp only [foldlM_cons, push_row, ok_iff, of_core_eq_ok, map_cons, mapM_cons]
    constructor
    · rintro ⟨h₁, ⟨record, hrecord, hpush⟩, hrest⟩
      obtain ⟨records, hrecords, hfold⟩ := ih.mp hrest
      refine ⟨record :: records, ⟨record, hrecord, records, hrecords, rfl⟩, ?_⟩
      rw [foldlM_cons, bind_eq_ok]
      exact ⟨h₁, hpush, hfold⟩
    · rintro ⟨_, ⟨record, hrecord, records, hrecords, rfl⟩, hfold⟩
      rw [foldlM_cons, bind_eq_ok] at hfold
      obtain ⟨h₁, hpush, hfold⟩ := hfold
      exact ⟨h₁, ⟨record, hrecord, hpush⟩, ih.mpr ⟨records, hrecords, hfold⟩⟩

/-- The version of the rows is the digest of their map, and their number. -/
theorem calculate_index_version_eq_ok {files : IndexRows} {revision count : UInt64}
    {version : IndexVersion} :
    calculate_index_version U blake3 files revision = .ok (count, version) ↔
      ∃ digest, snapshot_digest U blake3 (row_map files) = .ok digest ∧
        version = ⟨revision, digest⟩ ∧ count.toNat = files.size := by
  have hlength : ∀ {records : List (NeoEngram.FileRecord U)} {h : IndexSnapshotHasher U},
      (files.toList.map fun row => file_from_row row.1 row.2).mapM (core_file_record U) =
        .ok records → records.foldlM push .new = .ok h →
      h.record_count.toNat = files.size := by
    intro records h hrecords hfold
    have hcount := (foldlM_push_eq_ok.mp hfold).2.2.1
    have hsame := (mapM_eq_ok.mp hrecords).length_eq
    rw [length_map, ExtTreeMap.length_toList] at hsame
    rw [← hcount, ← hsame]
    simp [new]
  simp only [calculate_index_version, snapshot_digest, index_snapshot_digest, values_row_map,
    ok_iff, of_core_eq_ok, foldlM_push_row_eq_ok, Prod.mk.injEq]
  constructor
  · rintro ⟨h, ⟨records, hrecords, hfold⟩, rfl, rfl⟩
    exact ⟨_, ⟨records, hrecords, h, hfold, rfl⟩, rfl, hlength hrecords hfold⟩
  · rintro ⟨_, ⟨records, hrecords, h, hfold, rfl⟩, rfl, hcount⟩
    refine ⟨h, ⟨records, hrecords, hfold⟩, ?_, rfl⟩
    rw [← UInt64.toNat_inj, hlength hrecords hfold, hcount]

theorem mem_of_snapshot_digest {m : TextMap FileRecord} {digest : ContentDigest}
    (h : snapshot_digest U blake3 m = .ok digest) {file : FileRecord} (hfile : file ∈ values m) :
    ∃ digest, stored_record_digest U blake3 file = .ok digest := by
  simp only [snapshot_digest, bind_eq_ok, of_core_eq_ok] at h
  obtain ⟨records, hrecords, hdigest⟩ := h
  obtain ⟨hvalid, -, hfits, -⟩ := index_snapshot_digest_eq_ok.mp hdigest
  obtain ⟨record, hmem, hrecord⟩ := forall₂_exists_left (mapM_eq_ok.mp hrecords) hfile
  refine ⟨blake3 (index_record_preimage record), ?_⟩
  simp only [stored_record_digest, bind_eq_ok, of_core_eq_ok]
  exact ⟨record, hrecord, index_record_digest_eq_ok.mpr
    ⟨(validate_index_snapshot_eq_ok.mp hvalid).1 record hmem, hfits record hmem, rfl⟩⟩

/-! ## Commit -/

def IndexTable.version (table : IndexTable) : IndexVersion := ⟨table.revision, table.digest⟩

def IndexTable.IsCounted (table : IndexTable) : Prop := table.count.toNat = table.files.size

/-- What a commit of a map needs beyond an unchanged Index. -/
structure Committable (U : UnicodeTables) (blake3 : Blake3) (db : Database) (table : IndexTable)
    (upserts : List FileRecord) (m : TextMap FileRecord) : Prop where
  /-- The Manifests of the new records are still published. -/
  referenced : ∀ file ∈ upserts, Referenced db.manifests file
  /-- The records are a valid Index. -/
  digest : ∃ digest, snapshot_digest U blake3 m = .ok digest
  revision : table.revision.toNat + 1 < 2 ^ 63
  count : m.size < 2 ^ 63

/-- The table of the map, as the next revision of `table`. -/
structure IndexTable.Holds (U : UnicodeTables) (blake3 : Blake3) (table table' : IndexTable)
    (m : TextMap FileRecord) : Prop where
  files : row_map table'.files = m
  count : table'.count.toNat = m.size
  digest : snapshot_digest U blake3 m = .ok table'.digest
  revision : table'.revision.toNat = table.revision.toNat + 1
  format : table'.format = table.format

variable {workspace_id : WorkspaceId} {table : IndexTable} {db : Database}

namespace SqliteIndexTxn

variable {txn : SqliteIndexTxn} {m : TextMap FileRecord}

/-- The changes of the transaction, applied to its base, give the map that it shows. -/
theorem Shows.set_all_eq (h : txn.Shows m) :
    set_all ((row_map txn.base).filter fun path _ =>
      !txn.deleted_prefixes.any (path_is_in_scope path))
      (values txn.upserts) = m := by
  apply ExtTreeMap.ext_getElem?
  intro path
  apply Option.ext
  intro file
  have hdistinct : (values txn.upserts).Pairwise fun a b => a.path ≠ b.path :=
    h.keyed.sorted.imp fun hlt => hlt.ne
  have hout : (∀ a ∈ values txn.upserts, a.path ≠ path) ↔ path ∉ txn.upserts := by
    constructor
    · intro hall hmem
      obtain ⟨a, ha⟩ := mem_iff_exists.mp hmem
      exact hall a (mem_values.mpr ⟨path, ha⟩) (h.keyed path a ha)
    · rintro hnot a ha rfl
      exact hnot (mem_iff_exists.mpr ⟨a, h.keyed.mem_values.mp ha⟩)
  have hin : (file ∈ values txn.upserts ∧ file.path = path) ↔ txn.upserts[path]? = some file := by
    constructor
    · rintro ⟨hmem, rfl⟩
      exact h.keyed.mem_values.mp hmem
    · intro hfile
      exact ⟨mem_values.mpr ⟨path, hfile⟩, h.keyed path file hfile⟩
  rw [h.lookup, get_file_eq_some, set_all, getElem?_foldl_insert hdistinct, hin, hout,
    @getElem?_filter_eq _ (row_map txn.base)
      (fun path => !txn.deleted_prefixes.any (path_is_in_scope path)) path]
  show _ ↔ _ ∨ (_ ∧ txn.deleted_prefixes.any (path_is_in_scope path) = false ∧ _)
  cases txn.deleted_prefixes.any (path_is_in_scope path) <;> simp

theorem read_index_state_eq_ok {state : StoredIndexState} :
    read_index_state db workspace_id = .ok state ↔
      ∃ table, db.workspaces[workspace_id]? = some table ∧
        table.format = WORKSPACE_INDEX_FORMAT_VERSION ∧
        state = ⟨table.format, table.revision, table.count, table.version⟩ := by
  simp only [read_index_state, ok_iff]
  constructor
  · rintro ⟨table, htable, hformat, rfl⟩
    exact ⟨table, htable, hformat, rfl⟩
  · rintro ⟨table, htable, hformat, rfl⟩
    exact ⟨table, htable, hformat, rfl⟩

section

variable (h : txn.Shows m) (htable : db.workspaces[txn.workspace_id]? = some table)
  (hfiles : table.files = txn.base) (hcounted : table.IsCounted)

include h htable hfiles hcounted

theorem Shows.of_write_index {db' : Database} {version : IndexVersion}
    (hwrite : txn.write_index U blake3 db = .ok (version, db')) :
    table.format = WORKSPACE_INDEX_FORMAT_VERSION ∧ table.version = txn.state.version ∧
      Committable U blake3 db table (values txn.upserts) m ∧
      ∃ table', table.Holds U blake3 table' m ∧ version = table'.version ∧
        db' = { db with workspaces := db.workspaces.insert txn.workspace_id table' } := by
  simp only [write_index, ok_iff, encode_u64_eq_ok, read_index_state_eq_ok, checked_add_eq_some,
    Prod.exists, htable, Option.some.injEq, map_some, getD_some, Prod.mk.injEq,
    calculate_index_version_eq_ok] at hwrite
  obtain ⟨_, ⟨_, rfl, hformat, rfl⟩, hversion, rows, count₀, hdeletes, files, count, hupserts,
    revision, hrevision, canonical_count, _, ⟨digest, hdigest, rfl, hcanonical⟩, rfl, hrev63,
    hcount63, rfl, rfl⟩ := hwrite
  obtain ⟨count', hdeleted, hcounted'⟩ :=
    foldlM_delete_ok (table.files, table.count) hcounted txn.deleted_prefixes
  obtain ⟨rfl, rfl⟩ := Prod.mk.inj (Except.ok.inj (hdeletes.symm.trans hdeleted))
  obtain ⟨hwritable, -, hmap⟩ := foldlM_upsert_ok hcounted' hupserts
  have hshown : row_map files = m := by
    rw [hmap, hfiles, row_map_filter]
    exact h.set_all_eq
  have hsize : files.size = m.size := by rw [← hshown, size_row_map]
  rw [hshown] at hdigest
  refine ⟨hformat, hversion,
    ⟨fun file hfile => (hwritable file hfile).2.1, ⟨digest, hdigest⟩, ?_, ?_⟩,
    ⟨table.format, revision, canonical_count, digest, files⟩,
    ⟨hshown, hcanonical.trans hsize, hdigest, hrevision.symm, rfl⟩, rfl, rfl⟩
  · exact hrevision ▸ hrev63
  · rw [← hsize, ← hcanonical]
    exact hcount63

/-- A committable transaction over an unchanged Index is committed. -/
theorem Shows.exists_write_index (hformat : table.format = WORKSPACE_INDEX_FORMAT_VERSION)
    (hversion : table.version = txn.state.version)
    (hcommittable : Committable U blake3 db table (values txn.upserts) m) :
    ∃ version db', txn.write_index U blake3 db = .ok (version, db') := by
  obtain ⟨count₀, hdeletes, hcounted₀⟩ :=
    foldlM_delete_ok (table.files, table.count) hcounted txn.deleted_prefixes
  obtain ⟨digest, hdigest⟩ := hcommittable.digest
  have hshown : set_all (row_map (table.files.filter fun path _ =>
      !txn.deleted_prefixes.any (path_is_in_scope path))) (values txn.upserts) = m := by
    rw [hfiles, row_map_filter]
    exact h.set_all_eq
  have hwritable : ∀ file ∈ values txn.upserts, Writable U blake3 db.manifests file := by
    intro file hfile
    have hlookup : txn.upserts[file.path]? = some file := h.keyed.mem_values.mp hfile
    have hmem : file ∈ values m := by
      rw [h.map_keyed.mem_values, h.lookup, get_file_eq_some]
      exact .inl hlookup
    exact ⟨h.valid file.path file hlookup, hcommittable.referenced file hfile,
      mem_of_snapshot_digest hdigest hmem⟩
  have hfits : m.size < 2 ^ 64 := by
    have := hcommittable.count
    omega
  obtain ⟨⟨files, count⟩, hupserts⟩ := exists_foldlM_upsert hcounted₀ hwritable (hshown ▸ hfits)
  obtain ⟨-, hcounted', hmap⟩ := foldlM_upsert_ok hcounted₀ hupserts
  have hfiles' : row_map files = m := hmap.trans hshown
  have hcount : count.toNat = m.size := by
    rw [← hfiles', size_row_map]
    exact hcounted'
  have hnext : table.revision.toNat + 1 < 2 ^ 64 := by
    have := hcommittable.revision
    omega
  have hrevision : (ofNat (table.revision.toNat + 1)).toNat = table.revision.toNat + 1 :=
    toNat_ofNat_of_lt' hnext
  refine ⟨⟨ofNat (table.revision.toNat + 1), digest⟩,
    ⟨db.manifests, db.workspaces.insert txn.workspace_id
      ⟨table.format, ofNat (table.revision.toNat + 1), count, digest, files⟩⟩, ?_⟩
  simp only [write_index, ok_iff, encode_u64_eq_ok, read_index_state_eq_ok, checked_add_eq_some,
    Prod.exists, htable, Option.some.injEq, map_some, getD_some, Prod.mk.injEq,
    calculate_index_version_eq_ok]
  refine ⟨_, ⟨table, rfl, hformat, rfl⟩, hversion, _, count₀, hdeletes, files, count, hupserts, _,
    hrevision.symm, count, _, ⟨digest, hfiles'.symm ▸ hdigest, rfl, hcounted'⟩, rfl, ?_, ?_, rfl,
    rfl⟩
  · rw [hrevision]
    exact hcommittable.revision
  · rw [hcount]
    exact hcommittable.count

end

/-- A commit that succeeds moves the revision and stores the number of rows; one that fails does
nothing. -/
theorem commit_cases (txn : SqliteIndexTxn) (db : Database) : (txn.commit U blake3 db).2 = db ∨
      ∃ table table', db.workspaces[txn.workspace_id]? = some table ∧
        table.revision.toNat < table'.revision.toNat ∧ table'.IsCounted ∧
        (txn.commit U blake3 db).2 =
          { db with workspaces := db.workspaces.insert txn.workspace_id table' } := by
  unfold commit run_immediate
  cases hwrite : txn.write_index U blake3 db with
  | error e => exact .inl rfl
  | ok result =>
    obtain ⟨version, db'⟩ := result
    simp only [write_index, ok_iff, encode_u64_eq_ok, read_index_state_eq_ok, checked_add_eq_some,
      Prod.exists, Prod.mk.injEq, calculate_index_version_eq_ok] at hwrite
    obtain ⟨_, ⟨table, htable, -, rfl⟩, -, _, _, -, files, count, -, revision, hrevision, _, _,
      ⟨_, -, -, hcanonical⟩, rfl, -, -, -, rfl⟩ := hwrite
    refine .inr ⟨table, _, htable, ?_, ?_, rfl⟩
    · show table.revision.toNat < revision.toNat
      have hnext : table.revision.toNat + 1 = revision.toNat := hrevision
      omega
    · exact hcanonical

end SqliteIndexTxn

/-! ## Other changes -/

/-- What can happen to the database, seen from one workspace: changes that leave its Index alone,
commits, and its removal. Workspace ids are not used again. -/
inductive Evolves (U : UnicodeTables) (blake3 : Blake3) (workspace_id : WorkspaceId)
    (db : Database) : Database → Prop where
  | refl : Evolves U blake3 workspace_id db db
  | elsewhere {db₁ db₂ : Database} : Evolves U blake3 workspace_id db db₁ →
      db₂.workspaces[workspace_id]? = db₁.workspaces[workspace_id]? →
      Evolves U blake3 workspace_id db db₂
  | removed {db₁ db₂ : Database} : Evolves U blake3 workspace_id db db₁ →
      db₂.workspaces[workspace_id]? = none → Evolves U blake3 workspace_id db db₂
  | commit {db₁ : Database} (txn : SqliteIndexTxn) : Evolves U blake3 workspace_id db db₁ →
      Evolves U blake3 workspace_id db (txn.commit U blake3 db₁).2

/-- The Index stays as it is as long as its revision does. -/
theorem Evolves.index {db' : Database} {table' : IndexTable}
    (h : Evolves U blake3 workspace_id db db') (htable : db.workspaces[workspace_id]? = some table)
    (htable' : db'.workspaces[workspace_id]? = some table') :
    table' = table ∨ table.revision.toNat < table'.revision.toNat := by
  induction h generalizing table' with
  | refl =>
    rw [htable] at htable'
    exact .inl (Option.some.inj htable').symm
  | elsewhere _ hsame ih => exact ih (hsame ▸ htable')
  | removed _ hnone _ =>
    rw [hnone] at htable'
    cases htable'
  | @commit db₁ txn _ ih =>
    rcases @SqliteIndexTxn.commit_cases U blake3 txn db₁ with hsame | ⟨old, new, hold, hlt, -, hnew⟩
    · exact ih (hsame ▸ htable')
    · rw [hnew, getElem?_insert_eq] at htable'
      split at htable'
      · next hid =>
        -- a commit to this workspace
        cases htable'
        rcases ih (hid ▸ hold) with rfl | hgt
        · exact .inr hlt
        · exact .inr (hgt.trans hlt)
      · exact ih htable'

theorem begin_index_transaction_ok {expected : Option IndexVersion} {txn : SqliteIndexTxn}
    (htable : db.workspaces[workspace_id]? = some table)
    (h : begin_index_transaction db workspace_id expected = .ok txn) :
    txn.workspace_id = workspace_id ∧ txn.base = table.files ∧
      txn.state.version = table.version ∧ table.format = WORKSPACE_INDEX_FORMAT_VERSION ∧
      txn.Shows (row_map table.files) := by
  simp only [begin_index_transaction, ok_iff, read_index_state_eq_ok, htable,
    Option.some.injEq] at h
  obtain ⟨_, ⟨_, rfl, hformat, rfl⟩, -, rfl⟩ := h
  exact ⟨rfl, rfl, rfl, hformat, shows_begin⟩

/-- An Index transaction is a map. Whatever calls are made, their answers, the lookups and the
paged scans are those of the map from path to record that the calls change; a commit writes
this map, its size and its digest as the next revision; and once the version of the Index has
changed, a commit does nothing. -/
theorem index_transaction_is_map {db : Database} {workspace_id : WorkspaceId} {table : IndexTable}
    {expected : Option IndexVersion} {opened : SqliteIndexTxn}
    (htable : db.workspaces[workspace_id]? = some table) (hcounted : table.IsCounted)
    (hopened : begin_index_transaction db workspace_id expected = .ok opened)
    (calls : List IndexCall) {txn : SqliteIndexTxn} {m : TextMap FileRecord}
    (htxn : (run_calls SqliteIndexTxn.call opened calls).2 = txn)
    (hm : (run_calls map_call (row_map table.files) calls).2 = m) :
    (run_calls SqliteIndexTxn.call opened calls).1 =
        (run_calls map_call (row_map table.files) calls).1 ∧
    (∀ path : Text, txn.get_file path = m[path]?) ∧
    (∀ scope request, request.limit ≤ MAX_PAGE_SIZE →
      txn.scan_current_files scope request =
          .ok (page_of request.limit.toNat (listing m scope request.after)) ∧
        ∀ rounds, (listing m scope request.after).length < rounds →
          txn.read_pages scope rounds request = .ok (listing m scope request.after)) ∧
    ∀ db', Evolves U blake3 workspace_id db db' →
      ((∀ table', db'.workspaces[workspace_id]? = some table' → table'.version ≠ table.version) →
        ∃ e, txn.commit U blake3 db' = (.error e, db')) ∧
      ((∃ table', db'.workspaces[workspace_id]? = some table' ∧ table'.version = table.version) →
        (¬ Committable U blake3 db' table (values txn.upserts) m →
          ∃ e, txn.commit U blake3 db' = (.error e, db')) ∧
        (Committable U blake3 db' table (values txn.upserts) m →
          ∃ table', table.Holds U blake3 table' m ∧ txn.commit U blake3 db' =
            (.ok table'.version,
              { db' with workspaces := db'.workspaces.insert workspace_id table' }))) := by
  obtain ⟨hid, hbase, hversion, hformat, hshows⟩ := begin_index_transaction_ok htable hopened
  obtain ⟨hanswers, hend, hid', hbase', hstate'⟩ := hshows.run_calls calls
  rw [htxn, hm] at hend
  rw [htxn] at hid' hbase' hstate'
  rw [hid] at hid'
  have hfiles : table.files = txn.base := by rw [hbase', hbase]
  have hstate : txn.state.version = table.version := by rw [hstate', hversion]
  refine ⟨hanswers, fun path => (hend.lookup path).symm, fun scope request hlimit => ?_,
    fun db' hevolves => ⟨fun hchanged => ?_, fun hsame => ?_⟩⟩
  · exact ⟨hend.scan_current_files_eq scope _ hlimit, fun rounds hrounds =>
      hend.read_pages_eq _ hlimit hrounds⟩
  · -- the version check fails
    cases hwrite : txn.write_index U blake3 db' with
    | error e => exact ⟨e, by rw [SqliteIndexTxn.commit, run_immediate, hwrite]⟩
    | ok result =>
      exfalso
      simp only [SqliteIndexTxn.write_index, ok_iff,
        SqliteIndexTxn.read_index_state_eq_ok] at hwrite
      obtain ⟨_, ⟨table', htable', -, rfl⟩, hcheck, -⟩ := hwrite
      exact hchanged table' (hid' ▸ htable') (hcheck.trans hstate)
  · -- the Index is the one the transaction was opened on
    obtain ⟨table', htable', hsame⟩ := hsame
    -- revisions only grow, so an equal version is the same table
    have hunchanged : table' = table := by
      rcases hevolves.index htable htable' with heq | hlt
      · exact heq
      · have hrevision : table'.revision = table.revision := congrArg IndexVersion.revision hsame
        rw [hrevision] at hlt
        omega
    subst hunchanged
    have hat : db'.workspaces[txn.workspace_id]? = some table' := hid'.symm ▸ htable'
    refine ⟨fun hnot => ?_, fun hcommittable => ?_⟩
    · cases hwrite : txn.write_index U blake3 db' with
      | error e => exact ⟨e, by rw [SqliteIndexTxn.commit, run_immediate, hwrite]⟩
      | ok result =>
        exact absurd (hend.of_write_index hat hfiles hcounted hwrite).2.2.1 hnot
    · obtain ⟨version, db'', hwrite⟩ :=
        hend.exists_write_index hat hfiles hcounted hformat hstate.symm hcommittable
      obtain ⟨-, -, -, written, hholds, rfl, rfl⟩ := hend.of_write_index hat hfiles hcounted hwrite
      refine ⟨written, hholds, ?_⟩
      rw [SqliteIndexTxn.commit, run_immediate, hwrite, hid']

/-! ### Replacing a directory by a file -/

def bare_record (path : String) : FileRecord := ⟨path.toList, 0, 0, ⟨digest_of_nat 1⟩⟩

def bare_manifests : ManifestTable :=
  (∅ : ManifestTable).insert ⟨digest_of_nat 1⟩ ⟨0, .FastCdc, 0, []⟩

/-- An Index with the files `a/b` and `a-c`. -/
def two_file_table : IndexTable where
  format := WORKSPACE_INDEX_FORMAT_VERSION
  revision := 4
  count := 2
  digest := digest_of_nat 7
  files := ((∅ : IndexRows).insert "a/b".toList ⟨0, 0, ⟨digest_of_nat 1⟩, digest_of_nat 8⟩).insert
    "a-c".toList ⟨0, 0, ⟨digest_of_nat 1⟩, digest_of_nat 9⟩

def two_file_database : Database :=
  ⟨bare_manifests, (∅ : ExtTreeMap WorkspaceId IndexTable).insert 0 two_file_table⟩

def two_file_transaction : SqliteIndexTxn where
  workspace_id := 0
  base := two_file_table.files
  state := ⟨WORKSPACE_INDEX_FORMAT_VERSION, 4, 2, ⟨4, digest_of_nat 7⟩⟩
  deleted_prefixes := []
  upserts := ∅

/-- Deletes the directory `a`, and records a file of its name. -/
def replace_calls : List IndexCall :=
  IndexCall.delete_prefix "a".toList :: [.upsert_file bare_manifests (bare_record "a")]

/-- The directory is replaced by the file and its sibling stays, in the transaction and after a
commit. -/
theorem directory_replaced : (run_calls SqliteIndexTxn.call two_file_transaction replace_calls).1 =
        [.ok (some 1), .ok none] ∧
    (run_calls SqliteIndexTxn.call two_file_transaction replace_calls).2.get_file "a/b".toList =
      none ∧
    ∃ table', (run_calls SqliteIndexTxn.call two_file_transaction replace_calls).2.commit
        asciiTables poly_hash two_file_database =
      (.ok table'.version, ⟨bare_manifests, two_file_database.workspaces.insert 0 table'⟩) := by
  have htable : two_file_database.workspaces[(0 : WorkspaceId)]? = some two_file_table := by
    simp [two_file_database]
  have hcounted : two_file_table.IsCounted := by
    unfold IndexTable.IsCounted
    decide +kernel
  have hopened : begin_index_transaction two_file_database 0 none = .ok two_file_transaction := by
    simp only [begin_index_transaction, read_index_state, htable]
    rfl
  obtain ⟨hanswers, hlookup, -, hcommit⟩ := @index_transaction_is_map asciiTables poly_hash
    _ _ _ _ _ htable hcounted hopened replace_calls _ _ rfl rfl
  refine ⟨?_, ?_, ?_⟩
  · rw [hanswers]
    decide +kernel
  · rw [hlookup]
    decide +kernel
  · have hcommittable : Committable asciiTables poly_hash two_file_database two_file_table
        (values (run_calls SqliteIndexTxn.call two_file_transaction replace_calls).2.upserts)
        (run_calls map_call (row_map two_file_table.files) replace_calls).2 := by
      refine ⟨?_, ?_, by decide +kernel, by decide +kernel⟩
      · unfold Referenced
        decide +kernel
      · rw [exists_ok_iff]
        decide +kernel
    obtain ⟨table', -, hwritten⟩ :=
      ((hcommit two_file_database .refl).2 ⟨two_file_table, htable, rfl⟩).2 hcommittable
    exact ⟨table', hwritten⟩

end NeoEngram.Local

import NeoEngram.Local.StoredGraph

/-! # Reading a Commit back

`read_directory_files` walks the stored Directories depth-first, by component
names, and then validates what it found as a file list, ordered by whole paths.
The orders differ where a name continues a directory name with a letter below
`/` (`a-b` against `a/c`), so a snapshot is read back exactly when no path
undercuts another one in this way (`read_directory_files_iff`).
-/

namespace NeoEngram.Local

open Checks Trees Words OrderedKeys List PendingDirectory PathComponent Tree PendingEntry UInt64

variable {U : UnicodeTables} {blake3 : Blake3}

/-! ## The walk -/

section

variable (store : MetadataStore)

/-- One round of the loop of `collect_directory`. -/
def collect_entry (depth : Nat) (dir : Text)
    (state : List DirectoryId × List WorkspaceFileRecord) (entry : DirectoryEntry) :
    Result (List DirectoryId × List WorkspaceFileRecord) :=
  match entry.kind with
  | .File => do
    let file ← read_file store (child_path dir entry.name) entry
    return (state.1, state.2 ++ [file])
  | .Directory => collect_directory store depth ⟨entry.target_id⟩ (child_path dir entry.name)
      state.1 state.2

theorem collect_directory_succ (depth : Nat) (id : DirectoryId) (dir : Text)
    (visiting : List DirectoryId) (files : List WorkspaceFileRecord) :
    collect_directory store (depth + 1) id dir visiting files = (do
      ensure (id ∉ visiting) [s!"Directory DAG 包含环: {id}"]
      let entries ← read_entries store id
      let state ← entries.foldlM (collect_entry store depth dir) (id :: visiting, files)
      return (state.1.erase id, state.2)) := by
  rfl

/-- The path that the walk builds from the names below a directory path. -/
def path_below (dir : Text) (names : List (PathComponent U)) : Text :=
  names.foldl (fun dir name => child_path dir name.text) dir

/-- The file that the walk reads for a leaf, below a directory path. -/
structure FileAt (dir : Text) (leaf : TreeFile U) (file : WorkspaceFileRecord) : Prop where
  path : file.path = path_below dir leaf.1
  size : file.total_size = leaf.2.2
  content : ∃ row, store.manifests[leaf.2.1]? = some row ∧ file.chunking = row.chunking ∧
    file.chunks = row.chunks

/-- Every leaf has a Manifest that can be read. -/
def LeavesReadable (leaves : List (TreeFile U)) : Prop :=
  ∀ f ∈ leaves, ∃ row, store.manifests[f.2.1]? = some row ∧ row.Readable

/-- The Directories being visited are stored and distinct, and the depth left is enough for all
others. -/
structure Visiting (depth : Nat) (visiting : List DirectoryId) : Prop where
  nodup : visiting.Nodup
  stored : ∀ id ∈ visiting, id ∈ store.directories
  depth : store.directories.size < depth + visiting.length

end

variable {store : MetadataStore} {visiting : List DirectoryId} {d : PendingDirectory U}
  {files : List WorkspaceFileRecord} {root : PendingDirectory U}

variable {depth : Nat}

/-- Not all of the depth is used up while only some of the Directories are being visited. -/
theorem Visiting.depth_pos (h : Visiting store depth visiting) : 0 < depth := by
  have hsub : visiting ⊆ store.directories.keys := fun id hid =>
    Std.ExtTreeMap.mem_keys.mpr (h.stored id hid)
  have hle := (h.nodup.subperm hsub).length_le
  rw [Std.ExtTreeMap.length_keys] at hle
  have := h.depth
  omega

theorem Visiting.enter {id : DirectoryId} (h : Visiting store (depth + 1) visiting)
    (hid : id ∈ store.directories)
    (hnew : id ∉ visiting) : Visiting store depth (id :: visiting) where
  nodup := nodup_cons.mpr ⟨hnew, h.nodup⟩
  stored := forall_mem_cons.mpr ⟨hid, h.stored⟩
  depth := by
    have := h.depth
    rw [length_cons]
    omega

variable {ordinal : Nat}

theorem ordinalsFrom_entry_row (h : d.keys ≠ [] → ordinal + d.keys.length ≤ 2 ^ 64) :
    OrdinalsFrom ordinal ((d.sealed_entries blake3 ordinal).map entry_row) := by
  induction d using Tree.row_induction generalizing ordinal with
  | nil => trivial
  | cons name entry rest ih =>
    have hlength := h (by simp [Tree.keys])
    simp only [Tree.keys, length_cons] at hlength
    have hordinal : (entry_row (PendingEntry.sealed_entry blake3 (ofNat ordinal) name
        entry)).ordinal.toNat = ordinal := by
      have : (ofNat ordinal).toNat = ordinal :=
        toNat_ofNat_of_lt' (by simp only [size]; omega)
      cases entry <;> exact this
    exact ⟨hordinal, ih fun _ => by omega⟩

variable {row : DirectoryRow}

section

variable (hrow : store.directories[d.sealed_id blake3]? = some row)
  (hrepresents : row.Represents store (d.directory blake3))

include hrow hrepresents

theorem read_entries_sealed :
    read_entries store (d.sealed_id blake3) = .ok ((d.sealed_entries blake3 0).map entry_row) := by
  have hshort : d.keys.length < 2 ^ 63 := by
    simpa [directory] using hrepresents.short
  rw [show (d.sealed_entries blake3 0).map entry_row = row.entries from hrepresents.entries.symm]
  refine read_entries_of_row hrow ?_ ?_ ?_
  · rw [hrepresents.entries]
    exact ordinalsFrom_entry_row fun _ => by omega
  · rw [hrepresents.entries, length_map]
    exact hrepresents.short.le
  · rw [hrepresents.counted, hrepresents.entries, length_map]

/-- A stored tree is visited by going through its entries. -/
theorem collect_directory_of_fold {dir : Text}
    {files files' : List WorkspaceFileRecord} (hnew : d.sealed_id blake3 ∉ visiting)
    (hfold : ((d.sealed_entries blake3 0).map entry_row).foldlM (collect_entry store depth dir)
      (d.sealed_id blake3 :: visiting, files) = .ok (d.sealed_id blake3 :: visiting, files')) :
    collect_directory store (depth + 1) (d.sealed_id blake3) dir visiting files =
      .ok (visiting, files') := by
  simp only [collect_directory_succ, ok_iff, read_entries_sealed hrow hrepresents, Except.ok.injEq,
    exists_eq_left', hfold, erase_cons_head, and_true]
  exact hnew

end

/-- The walk over one Directory reads the files of its tree, in tree order. -/
theorem foldlM_collect {ordinal depth : Nat} {dir : Text}
    (hstored : TreesStored blake3 store d.subtrees)
    (hpresent : ∀ entry ∈ d.sealed_entries blake3 ordinal, EntryPresent store entry)
    (hread : LeavesReadable store d.leaves)
    (hfree : ∀ s ∈ d.subtrees, CollisionFree blake3 s.post_order)
    (hnew : ∀ s ∈ d.subtrees, sealed_id blake3 s ∉ visiting)
    (hvisiting : Visiting store depth visiting) :
    ∃ read, ((d.sealed_entries blake3 ordinal).map entry_row).foldlM (collect_entry store depth dir)
        (visiting, files) = .ok (visiting, files ++ read) ∧
      Forall₂ (FileAt store dir) d.leaves read := by
  induction d using tree_induction generalizing ordinal depth dir visiting files with
  | nil => exact ⟨[], by simp [sealed_entries, pure_eq_ok], .nil⟩
  | leaf name value rest ih =>
    obtain ⟨hfile, hrest⟩ := forall_mem_cons.mp hpresent
    obtain ⟨row, hrow, hsize⟩ := hfile
    obtain ⟨row', hrow', hreadable⟩ := hread _ mem_cons_self
    obtain rfl : row' = row := Option.some.inj (hrow'.symm.trans hrow)
    have hfile : read_file store (child_path dir name.text) (entry_row (sealed_entry
        blake3 (ofNat ordinal) name (.leaf value))) =
        .ok ⟨child_path dir name.text, value.2, row'.chunking, row'.chunks⟩ :=
      read_file_of_row hrow hreadable hsize
    obtain ⟨read, hfold, hall⟩ := @ih visiting
      (files ++ [⟨child_path dir name.text, value.2, row'.chunking, row'.chunks⟩]) (ordinal + 1)
      depth dir hstored hrest
      (fun f hf => hread f (mem_cons_of_mem _ hf)) hfree hnew hvisiting
    refine ⟨⟨child_path dir name.text, value.2, row'.chunking, row'.chunks⟩ :: read, ?_,
      .cons ⟨rfl, rfl, row', hrow, rfl, rfl⟩ hall⟩
    rw [append_cons, ← hfold, sealed_entries, map_cons, foldlM_cons]
    show (do let file ← read_file store (child_path dir name.text) _; return _) >>= _ = _
    rw [hfile]
    rfl
  | branch name sub rest ihsub ih =>
    obtain ⟨-, hrest⟩ := forall_mem_cons.mp hpresent
    have hsub : sub ∈ (cons name (.branch sub) rest).subtrees :=
      mem_append_left _ (mem_append_right _ mem_cons_self)
    have hbelow : ∀ s ∈ sub.subtrees, s ∈ (cons name (.branch sub) rest).subtrees :=
      fun s hs => mem_append_left _ (mem_append_left _ hs)
    have hnext : ∀ s ∈ rest.subtrees, s ∈ (cons name (.branch sub) rest).subtrees :=
      fun s hs => mem_append_right _ hs
    obtain ⟨row, hrow, hrepresents⟩ := hstored sub hsub
    obtain ⟨depth, rfl⟩ : ∃ n, depth = n + 1 := ⟨depth - 1, by have := hvisiting.depth_pos; omega⟩
    -- the walk below the name, with its Directory among the visited ones
    have hmem : sealed_id blake3 sub ∈ store.directories :=
      Std.ExtTreeMap.mem_iff_isSome_getElem?.mpr (by rw [hrow]; rfl)
    obtain ⟨inner, hinner, hinnerall⟩ := @ihsub (sealed_id blake3 sub :: visiting)
      files 0 depth (child_path dir name.text) (fun s hs => hstored s (hbelow s hs))
      hrepresents.present
      (fun f hf => hread (under name f) (mem_append_left _ (List.mem_map_of_mem hf)))
      (fun s hs => hfree s (hbelow s hs))
      (fun s hs => by
        rw [mem_cons, not_or]
        exact ⟨id_ne_of_mem_subtrees (hfree sub hsub) hs, hnew s (hbelow s hs)⟩)
      (hvisiting.enter hmem (hnew sub hsub))
    have hcollect : collect_directory store (depth + 1) (sealed_id blake3 sub)
        (child_path dir name.text) visiting files = .ok (visiting, files ++ inner) :=
      collect_directory_of_fold hrow hrepresents (hnew sub hsub) hinner
    obtain ⟨read, hfold, hall⟩ := @ih visiting (files ++ inner) (ordinal + 1) (depth + 1) dir
      (fun s hs => hstored s (hnext s hs)) hrest
      (fun f hf => hread f (mem_append_right _ hf)) (fun s hs => hfree s (hnext s hs))
      (fun s hs => hnew s (hnext s hs)) hvisiting
    refine ⟨inner ++ read, ?_, rel_append ?_ hall⟩
    · rw [← append_assoc, ← hfold, sealed_entries, map_cons,
        foldlM_cons]
      show collect_directory store (depth + 1) (sealed_id blake3 sub)
        (child_path dir name.text) visiting files >>= _ = _
      rw [hcollect]
      rfl
    · rw [Node.leaves, forall₂_map_left_iff]
      exact hinnerall.imp fun f file hf => ⟨hf.path, hf.size, hf.content⟩

/-- **The walk**: from the root of a stored tree it reads the files of the tree. -/
theorem collect_directory_root (hstored : TreesStored blake3 store root.post_order)
    (hread : LeavesReadable store root.leaves) (hfree : CollisionFree blake3 root.post_order) :
    ∃ read, collect_directory store (store.directories.size + 1) (root.sealed_id blake3) [] [] [] =
        .ok ([], read) ∧ Forall₂ (FileAt store []) root.leaves read := by
  have hroot : root ∈ root.post_order := mem_post_order.mpr (.inr rfl)
  have hbelow : ∀ s ∈ root.subtrees, s ∈ root.post_order := fun s hs =>
    mem_post_order.mpr (.inl hs)
  obtain ⟨row, hrow, hrepresents⟩ := hstored root hroot
  have hvisiting : Visiting store (store.directories.size + 1) [] := ⟨.nil, by simp, by simp⟩
  obtain ⟨read, hfold, hall⟩ := @foldlM_collect U blake3 store [root.sealed_id blake3] root []
    0 store.directories.size [] (fun s hs => hstored s (hbelow s hs)) hrepresents.present hread
    (fun s hs u hu v hv => hfree u (post_order_subset (hbelow s hs) hu) v
      (post_order_subset (hbelow s hs) hv))
    (fun s hs => by
      rw [mem_singleton]
      exact id_ne_of_mem_subtrees hfree hs)
    (hvisiting.enter (Std.ExtTreeMap.mem_iff_isSome_getElem?.mpr (by rw [hrow]; rfl)) (by simp))
  exact ⟨read, collect_directory_of_fold hrow hrepresents (by simp) hfold, hall⟩

/-! ## Hashing again -/

/-- The entries of a tree have the kinds of their targets, and Directories have no size. -/
theorem core_directory_entry_sealed (ordinal : UInt64) (name : PathComponent U)
    (entry : PendingEntry U) :
    core_directory_entry U (entry_row (sealed_entry blake3 ordinal name entry)) =
      .ok (sealed_entry blake3 ordinal name entry) := by
  have hparse : parse U name.text = .ok name := parse_eq_ok.mpr rfl
  cases entry with
  | leaf value =>
    simp [core_directory_entry, entry_row, sealed_entry, DirectoryEntry.file, hparse,
      with_context_eq_ok, of_core_eq_ok, DirectoryEntryTarget.kind, target_digest]
  | branch sub =>
    simp [core_directory_entry, entry_row, sealed_entry, DirectoryEntry.directory,
      hparse, with_context_eq_ok, of_core_eq_ok, bind_eq_ok, DirectoryEntryTarget.kind,
      target_digest]

theorem exists_hasher_of_encodable (h : (d.directory blake3).Encodable) :
    ∃ hasher, (d.sealed_entries blake3 0).foldlM DirectoryHasher.push .new = .ok hasher ∧
      hasher.finish blake3 = d.sealed_id blake3 := by
  have hid : NeoEngram.directory_id blake3 (d.directory blake3) = .ok (d.sealed_id blake3) :=
    directory_id_eq_ok.mpr ⟨h.1, h.2.1, h.2.2, rfl⟩
  simp only [NeoEngram.directory_id, ok_iff] at hid
  obtain ⟨-, hasher, hfold, hfinish⟩ := hid
  exact ⟨hasher, hfold, hfinish⟩

theorem hash_entries_cons {name : PathComponent U} {entry : PendingEntry U}
    {rest : PendingDirectory U} (hordinal : ordinal < 2 ^ 64)
    {hasher : DirectoryHasher U}
    (hnode : hash_node U blake3 (entry.map_keys text) =
      .ok ((entry_row (sealed_entry blake3 0 name entry)).kind,
        (entry_row (sealed_entry blake3 0 name entry)).target_id,
        (entry_row (sealed_entry blake3 0 name entry)).total_size)) :
    hash_entries U blake3 ordinal ((cons name entry rest).map_keys text) hasher =
      (do
        let hasher ← of_core (hasher.push
          (sealed_entry blake3 (ofNat ordinal) name entry))
        hash_entries U blake3 (ordinal + 1) (rest.map_keys text) hasher) := by
  have hposition : u64_try_from ordinal = some (ofNat ordinal) :=
    u64_try_from_eq_some.mpr (toNat_ofNat_of_lt' hordinal)
  have hrow : (⟨ofNat ordinal, name.text,
      (entry_row (sealed_entry blake3 0 name entry)).kind,
      (entry_row (sealed_entry blake3 0 name entry)).target_id,
      (entry_row (sealed_entry blake3 0 name entry)).total_size⟩ : DirectoryEntry) =
      entry_row (sealed_entry blake3 (ofNat ordinal) name entry) := by
    cases entry <;> rfl
  rw [map_keys, hash_entries, hnode]
  simp only [hposition, push_entry, ok_or, bind, Except.bind, hrow, core_directory_entry_sealed]

theorem hash_entries_sealed {hasher hasher' : DirectoryHasher U}
    (hencodable : ∀ s ∈ d.subtrees, (directory blake3 s).Encodable)
    (hlength : d.keys ≠ [] → ordinal + d.keys.length ≤ 2 ^ 64)
    (hfold : (d.sealed_entries blake3 ordinal).foldlM DirectoryHasher.push hasher = .ok hasher') :
    hash_entries U blake3 ordinal (d.map_keys text) hasher = .ok hasher' := by
  induction d using Tree.tree_induction generalizing ordinal hasher hasher' with
  | nil => simpa [Tree.map_keys, hash_entries, sealed_entries] using hfold
  | leaf name value rest ih =>
    have hle := hlength (by simp [Tree.keys])
    simp only [Tree.keys, length_cons] at hle
    rw [sealed_entries, foldlM_cons, bind_eq_ok] at hfold
    obtain ⟨h, hpush, hrest⟩ := hfold
    rw [hash_entries_cons (by omega) rfl, hpush]
    exact ih hencodable (fun _ => by omega) hrest
  | branch name sub rest ihsub ih =>
    have hle := hlength (by simp [Tree.keys])
    simp only [Tree.keys, length_cons] at hle
    rw [sealed_entries, foldlM_cons, bind_eq_ok] at hfold
    obtain ⟨h, hpush, hrest⟩ := hfold
    have hsub := hencodable sub (mem_append_left _ (mem_append_right _ mem_cons_self))
    obtain ⟨inner, hinner, hfinish⟩ := exists_hasher_of_encodable hsub
    have hshort : sub.keys.length < 2 ^ 64 := by
      simpa [directory] using hsub.2.1
    have hnode : hash_node U blake3 ((Node.branch sub).map_keys text) =
        .ok (.Directory, (sealed_id blake3 sub).digest, 0) := by
      rw [Node.map_keys, hash_node, ihsub (fun s hs => hencodable s
        (mem_append_left _ (mem_append_left _ hs))) (fun _ => by omega) hinner]
      exact congrArg (fun id : DirectoryId => Except.ok (_, id.digest, _)) hfinish
    rw [hash_entries_cons (by omega) hnode, hpush]
    exact ih (fun s hs => hencodable s (mem_append_right _ hs)) (fun _ => by omega) hrest

/-- The record that a file has in the Index of the engine, once its Manifest is stored. -/
structure IndexedAs (blake3 : Blake3) (store : MetadataStore) (file : WorkspaceFileRecord)
    (record : NeoEngram.FileRecord U) : Prop where
  path : record.path.text = file.path
  size : record.total_size = file.total_size
  manifest : ∃ manifest, describe_manifest blake3 file.total_size file.chunking file.chunks =
    .ok manifest ∧ record.manifest_id = manifest.id ∧
    store.manifests[record.manifest_id]? =
      some ⟨file.total_size, file.chunking, manifest.chunk_count, file.chunks⟩

/-- A record of the engine is about the same file. -/
structure SameFile (blake3 : Blake3) (file : WorkspaceFileRecord)
    (record : NeoEngram.FileRecord U) : Prop where
  path : record.path.text = file.path
  size : record.total_size = file.total_size
  manifest : ∃ manifest, describe_manifest blake3 file.total_size file.chunking file.chunks =
    .ok manifest ∧ record.manifest_id = manifest.id

variable {records : List (NeoEngram.FileRecord U)} {record : NeoEngram.FileRecord U}
  {file : WorkspaceFileRecord}

theorem IndexedAs.sameFile (h : IndexedAs blake3 store file record) :
    SameFile blake3 file record := by
  obtain ⟨manifest, hdescribe, hid, -⟩ := h.manifest
  exact ⟨h.path, h.size, manifest, hdescribe, hid⟩

theorem RecordOf.indexedAs {store store' : MetadataStore} {local_record : FileRecord}
    (h : RecordOf blake3 store file local_record) (hextends : store'.Extends store)
    (hcore : core_file_record U local_record = .ok record) :
    IndexedAs blake3 store' file record := by
  simp only [core_file_record, NeoEngram.FileRecord.new, ok_iff, of_core_eq_ok,
    LogicalPath.parse_eq_ok] at hcore
  obtain ⟨path, hpath, -, rfl⟩ := hcore
  obtain ⟨manifest, hdescribe, hid, -, hrow⟩ := h.manifest
  exact ⟨hpath.trans h.path, h.size, manifest, hdescribe, hid, hid ▸ hextends.manifests hrow⟩

theorem text_strictMono : StrictMono (text (U := U)) :=
  fun _ _ hlt => hlt

/-- The second tree builder builds the tree of the first, with texts for names. -/
theorem foldlM_add_hash_file (h : Forall₂ (SameFile blake3) files records)
    (hinsert : records.foldlM insert d = .ok root) :
    files.foldlM (add_hash_file blake3) (d.map_keys text) =
      .ok (root.map_keys text) := by
  induction h generalizing d with
  | nil =>
    simp only [foldlM_nil, pure_eq_ok] at hinsert
    subst hinsert
    rfl
  | @cons file record files records hfile _ ih =>
    rw [foldlM_cons, bind_eq_ok] at hinsert
    obtain ⟨d', hstep, hrest⟩ := hinsert
    rw [insert_eq] at hstep
    obtain ⟨manifest, hdescribe, hid⟩ := hfile.manifest
    have hnames : record.path.names.map text = split '/' file.path := by
      rw [LogicalPath.names_map_text, LogicalPath.components, hfile.path]
    have hadd : add_hash_file blake3 (d.map_keys text) file =
        .ok (d'.map_keys text) := by
      rw [add_hash_file, hdescribe]
      show insert_hash_file _ file.path manifest.id file.total_size = _
      rw [insert_hash_file, ← hnames, ← hid, ← hfile.size]
      exact insert_map_keys text_strictMono hstep
    rw [foldlM_cons, hadd]
    exact ih hrest

/-- Hashing the files again gives the identity of the tree. -/
theorem directory_id_for_files_eq (h : Forall₂ (SameFile blake3) files records)
    (hinsert : records.foldlM insert .nil = .ok root)
    (hencodable : ∀ s ∈ root.post_order, (directory blake3 s).Encodable) :
    directory_id_for_files U blake3 files = .ok (root.sealed_id blake3) := by
  have hroot := hencodable root (mem_post_order.mpr (.inr rfl))
  have hshort : root.keys.length < 2 ^ 64 := by
    simpa [directory] using hroot.2.1
  obtain ⟨hasher, hfold, hfinish⟩ := exists_hasher_of_encodable hroot
  have hfiles : files.foldlM (add_hash_file blake3) .nil =
      .ok (root.map_keys text) := foldlM_add_hash_file h hinsert
  have hhash : hash_entries U blake3 0 (root.map_keys text) .new = .ok hasher :=
    hash_entries_sealed (fun s hs => hencodable s (mem_post_order.mpr (.inl hs)))
      (fun _ => by omega) hfold
  simp only [directory_id_for_files, hash_directory, hfiles, hhash, ok_iff, Except.ok.injEq,
    exists_eq_left']
  exact hfinish

/-! ## The two orders -/

theorem path_below_eq {dir : Text} (hdir : dir ≠ []) (names : List (PathComponent U)) :
    path_below dir names = joined '/' (dir :: names.map text) := by
  induction names generalizing dir with
  | nil => simp [path_below]
  | cons name names ih =>
    have hchild : child_path dir name.text = dir ++ '/' :: name.text := if_neg hdir
    show path_below (child_path dir name.text) names = _
    rw [hchild, ih (by simp), map_cons, joined_cons_cons]
    cases names with
    | nil => simp
    | cons n names => simp

/-- The walk builds the path back from its components. -/
theorem path_below_names (path : LogicalPath U) : path_below [] path.names = path.text := by
  rw [← path.joined_components, ← path.names_map_text]
  obtain ⟨name, names, hnames⟩ := exists_cons_of_ne_nil path.names_ne_nil
  rw [hnames, map_cons, ← path_below_eq name.ne_nil]
  rfl

theorem FileAt.eq_of_indexedAs {file file' : WorkspaceFileRecord}
    (h : FileAt store [] record.tree_file file)
    (h' : IndexedAs blake3 store file' record) : file = file' := by
  obtain ⟨row, hrow, hchunking, hchunks⟩ := h.content
  obtain ⟨manifest, -, -, hrow'⟩ := h'.manifest
  obtain rfl : row = _ := Option.some.inj (hrow.symm.trans hrow')
  have hpath : file.path = file'.path := h.path.trans ((path_below_names record.path).trans h'.path)
  have hsize : file.total_size = file'.total_size := h.size.trans h'.size
  cases file
  cases file'
  simp_all

/-- The walk reads exactly the indexed files. -/
theorem mem_read_iff {files read : List WorkspaceFileRecord} (hfiles : HasFiles root records)
    (h : Forall₂ (IndexedAs blake3 store) files records)
    (hread : Forall₂ (FileAt store []) root.leaves read) (file : WorkspaceFileRecord) :
    file ∈ read ↔ file ∈ files := by
  constructor
  · intro hmem
    obtain ⟨leaf, hleaf, hat⟩ := forall₂_exists_right hread hmem
    obtain ⟨record, hrecord, rfl⟩ := (hfiles leaf).mp hleaf
    obtain ⟨file', hfile', hindexed⟩ := forall₂_exists_right h hrecord
    exact hat.eq_of_indexedAs hindexed ▸ hfile'
  · intro hmem
    obtain ⟨record, hrecord, hindexed⟩ := forall₂_exists_left h hmem
    obtain ⟨file', hfile', hat⟩ := forall₂_exists_left hread ((hfiles _).mpr ⟨record, hrecord, rfl⟩)
    exact hat.eq_of_indexedAs hindexed ▸ hfile'

theorem validate_files_from_sorted {previous_path : Option Text}
    {portable_paths : Std.ExtTreeSet PortableKey}
    (h : validate_files_from U previous_path portable_paths files = .ok ()) :
    files.Pairwise (·.path < ·.path) ∧ ∀ p ∈ previous_path, ∀ file ∈ files, p < file.path := by
  induction files generalizing previous_path portable_paths with
  | nil => simp
  | cons file files ih =>
    simp only [validate_files_from, ok_iff] at h
    obtain ⟨-, hprevious, -, -, -, -, -, hrest⟩ := h
    obtain ⟨hsorted, hfirst⟩ := ih hrest
    have hafter := hfirst file.path rfl
    refine ⟨pairwise_cons.mpr ⟨hafter, hsorted⟩, fun p hp => ?_⟩
    obtain rfl : previous_path = some p := hp
    have hlt : p < file.path := by simpa using hprevious
    exact forall_mem_cons.mpr ⟨hlt, fun f hf => hlt.trans (hafter f hf)⟩

/-- Some path continues the name of a directory of another one with a letter below `/`, as `a-b`
does to `a/c`. -/
def HasUndercut (files : List WorkspaceFileRecord) : Prop :=
  ∃ f ∈ files, ∃ g ∈ files, Undercuts '/' (split '/' g.path) (split '/' f.path)

theorem not_undercuts_of_lt {a b : Text} (hwords : split '/' a < split '/' b) (h : a < b) :
    ¬ Undercuts '/' (split '/' a) (split '/' b) ∧ ¬ Undercuts '/' (split '/' b) (split '/' a) := by
  constructor
  · intro hcut
    exact hwords.asymm (joined_lt_of_undercuts '/' hcut).2
  · intro hcut
    have hlt := (joined_lt_of_undercuts '/' hcut).1
    rw [joined_split, joined_split] at hlt
    exact h.asymm hlt

/-- A list in the order of the walk is in path order exactly when no path undercuts another. -/
theorem sorted_iff_not_hasUndercut
    (h : files.Pairwise fun a b => split '/' a.path < split '/' b.path) :
    files.Pairwise (·.path < ·.path) ↔ ¬ HasUndercut files := by
  constructor
  · intro hsorted ⟨f, hf, g, hg, hcut⟩
    have hpair := (h.and hsorted).imp fun hab => not_undercuts_of_lt hab.1 hab.2
    have hall : ∀ a ∈ files, ∀ b ∈ files, ¬ Undercuts '/' (split '/' a.path) (split '/' b.path) :=
      List.Pairwise.forall_of_forall_of_flip
        (fun a _ hcut => (joined_lt_of_undercuts '/' hcut).2.ne rfl)
        (hpair.imp And.left) (hpair.imp And.right)
    exact hall g hg f hf hcut
  · intro hcut
    refine h.imp_of_mem fun {a b} ha hb hab => ?_
    have hlt := joined_lt_of_lt '/' hab (split_ne_nil '/' a.path) (sepFree_split '/' b.path)
      fun hu => hcut ⟨a, ha, b, hb, hu⟩
    rwa [joined_split, joined_split] at hlt

theorem read_sorted {read : List WorkspaceFileRecord} (hordered : root.Ordered)
    (hfiles : HasFiles root records) (hread : Forall₂ (FileAt store []) root.leaves read) :
    read.Pairwise fun a b => split '/' a.path < split '/' b.path := by
  have hmap : read.map (fun file => split '/' file.path) =
      root.leaves.map fun leaf => leaf.1.map text := by
    rw [← forall₂_eq_eq_eq, forall₂_map_left_iff, forall₂_map_right_iff]
    refine ((forall₂_and_left _ _).mpr ⟨fun leaf hleaf => hleaf, hread⟩).flip.imp ?_
    rintro file leaf ⟨hleaf, hat⟩
    obtain ⟨record, -, rfl⟩ := (hfiles leaf).mp hleaf
    rw [hat.path]
    exact (congrArg (split '/') (path_below_names record.path)).trans
      record.path.names_map_text.symm
  have hsorted : (read.map fun file => split '/' file.path).Pairwise (· < ·) := by
    rw [hmap]
    exact pairwise_map.mpr ((leaves_sorted hordered).imp fun hab =>
      List.map_lt (fun _ _ hlt => text_strictMono hlt) hab)
  exact pairwise_map.mp hsorted

/-! ## The round trip -/

variable {local_records : List FileRecord}

theorem indexedAs_of_records {store store' : MetadataStore}
    (h : Forall₂ (RecordOf blake3 store) files local_records) (hextends : store'.Extends store)
    (hcore : Forall₂ (fun l r => core_file_record U l = .ok r) local_records records) :
    Forall₂ (IndexedAs blake3 store') files records := by
  induction h generalizing records with
  | nil =>
    cases hcore
    exact .nil
  | cons hrecord _ ih =>
    obtain _ | ⟨hfirst, hrest⟩ := hcore
    exact .cons (hrecord.indexedAs hextends hfirst) (ih hrest)

/-- What publishing an Index leaves: a valid file list whose files are all indexed. -/
theorem publish_index_manifests_ok {repository repository' : Repository} {index : WorkspaceIndex}
    (h : publish_index_manifests U blake3 repository index = .ok (local_records, repository'))
    (hcore : local_records.mapM (core_file_record U) = .ok records)
    (hextends : store.Extends repository'.metadata_store) :
    validate_files U index.files = .ok () ∧
      validate_chunking_files repository'.chunking_policy index.files = .ok () ∧
      Forall₂ (IndexedAs blake3 store) index.files records := by
  simp only [publish_index_manifests, validate_index_snapshot, validate_index, ok_iff, Prod.exists,
    Prod.mk.injEq] at h
  obtain ⟨⟨⟨-, hvalid⟩, hchunking⟩, local_records, store', hfold, rfl, rfl⟩ := h
  obtain ⟨-, published, hpublished, hall⟩ := foldlM_publish_ok hfold
  simp only [nil_append] at hpublished
  subst hpublished
  exact ⟨hvalid, hchunking, indexedAs_of_records hall hextends (mapM_eq_ok.mp hcore)⟩

theorem leavesReadable_of_indexed (hfiles : HasFiles root records)
    (h : Forall₂ (IndexedAs blake3 store) files records) :
    LeavesReadable store root.leaves := by
  intro leaf hleaf
  obtain ⟨record, hrecord, rfl⟩ := (hfiles leaf).mp hleaf
  obtain ⟨file, -, hindexed⟩ := forall₂_exists_right h hrecord
  obtain ⟨manifest, hdescribe, -, hrow⟩ := hindexed.manifest
  exact ⟨_, hrow, (describe_manifest_ok hdescribe).1⟩

variable {reader : IndexSnapshotReader U} {pages : List (List (NeoEngram.FileRecord U))}
  {rounds : Nat} {request : BuildCommitGraphRequest} {progress : ProgressSink U}
  {graph : BuildCommitGraphResult U}

/-- **The round trip**: an Index that was written, built and persisted is read back from the root
of its Commit exactly when no path undercuts another one. -/
theorem read_directory_files_iff {repository repository₁ repository₂ : Repository}
    {index : WorkspaceIndex} {local_records : List FileRecord}
    {records : List (NeoEngram.FileRecord U)}
    (hpublish : publish_index_manifests U blake3 repository index =
      .ok (local_records, repository₁))
    (hcore : local_records.mapM (core_file_record U) = .ok records)
    (hserves : reader.Serves none pages) (hpages : pages.flatten = records)
    (hbuild : build_commit_graph blake3 rounds request reader progress = .ok graph)
    {expected_head : RepositoryHead}
    (hpersist : persist_engine_graph blake3 repository₁ graph expected_head = .ok repository₂) :
    read_directory_files U blake3 repository₂ graph.commit.root_directory_id = .ok index.files ↔
      ¬ HasUndercut index.files := by
  obtain ⟨root, hgraph⟩ := exists_isGraphOf hserves hpages hbuild
  obtain ⟨published, hs⟩ := hgraph.sound
  obtain ⟨hpolicy, hextends, -⟩ := persist_engine_graph_ok hpersist
  obtain ⟨hvalid, hchunking, hindexed⟩ := publish_index_manifests_ok hpublish hcore hextends
  -- the walk reads the indexed files, in tree order
  have hstored := treesStored_of_persist hgraph hpersist
  obtain ⟨read, hcollect, hread⟩ := collect_directory_root hstored
    (leavesReadable_of_indexed hgraph.files hindexed) hs.collisionFree
  have hmem := mem_read_iff hgraph.files hindexed hread
  have hwords := read_sorted hgraph.ordered hgraph.files hread
  have hsorted := (validate_files_from_sorted hvalid).1
  obtain ⟨row, hrow, -, hcount, -⟩ := row_totals hstored
  have hlength : u64_try_from read.length = some row.file_count :=
    u64_try_from_eq_some.mpr (hcount.trans hread.length_eq)
  have hid := directory_id_for_files_eq (hindexed.imp fun _ _ h => h.sameFile) hgraph.inserted
    hs.encodable
  have hundercut : HasUndercut read ↔ HasUndercut index.files := by
    simp only [HasUndercut, hmem]
  rw [← hundercut, ← sorted_iff_not_hasUndercut hwords]
  simp only [read_directory_files, hgraph.root_directory_id, hrow, hcollect, hlength, ok_iff,
    Option.some.injEq, Except.ok.injEq, exists_eq_left', true_and]
  constructor
  · rintro ⟨-, _, -, -, hfiles⟩
    rw [hfiles]
    exact hsorted
  · intro hreadsorted
    obtain rfl : read = index.files := eq_of_sorted_by hreadsorted hsorted hmem
    refine ⟨hvalid, root.sealed_id blake3, ?_, rfl, rfl⟩
    simp only [directory_id, ok_iff]
    exact ⟨hvalid, hpolicy ▸ hchunking, hid⟩

/-! ### Two Indexes -/

def empty_repository : Repository where
  metadata_store := ⟨∅, ∅, ∅, ∅, .Attached "refs/heads/main".toList⟩
  chunking_policy := .Mixed

def empty_files_index (paths : List String) : WorkspaceIndex where
  format_version := WORKSPACE_INDEX_FORMAT_VERSION
  files := paths.map fun path => ⟨path.toList, 0, .FastCdc, []⟩

/-- What the first Commit of an Index goes through. -/
structure FirstCommit where
  local_records : List FileRecord
  repository₁ : Repository
  records : List (NeoEngram.FileRecord asciiTables)
  graph : BuildCommitGraphResult asciiTables
  repository₂ : Repository

def FirstCommit.read (c : FirstCommit) : Result (List WorkspaceFileRecord) :=
  read_directory_files asciiTables poly_hash c.repository₂ c.graph.commit.root_directory_id

/-- The Index is written, its graph is built and persisted. -/
def first_commit (index : WorkspaceIndex) : Result FirstCommit := do
  let (local_records, repository₁) ←
    publish_index_manifests asciiTables poly_hash empty_repository index
  let records ← local_records.mapM (core_file_record asciiTables)
  let graph ← (build_commit_graph poly_hash 1 initial_commit_request (one_page_reader records)
    fun _ => .ok ()).mapError fun e => [e.message]
  let repository₂ ← persist_engine_graph poly_hash repository₁ graph
    ⟨.Attached "refs/heads/main".toList, none⟩
  return ⟨local_records, repository₁, records, graph, repository₂⟩

/-- The steps of a first Commit. -/
theorem first_commit_ok {index : WorkspaceIndex} {c : FirstCommit}
    (h : first_commit index = .ok c) :
    publish_index_manifests asciiTables poly_hash empty_repository index =
      .ok (c.local_records, c.repository₁) ∧
    c.local_records.mapM (core_file_record asciiTables) = .ok c.records ∧
    initial_graph c.records = .ok c.graph ∧
    persist_engine_graph poly_hash c.repository₁ c.graph
      ⟨.Attached "refs/heads/main".toList, none⟩ = .ok c.repository₂ ∧
    c.records.length = index.files.length := by
  simp only [first_commit, ok_iff, mapError_eq_ok, Prod.exists] at h
  obtain ⟨_, _, hpublish, _, hcore, _, hbuild, _, hpersist, rfl⟩ := h
  have hindexed := (publish_index_manifests_ok hpublish hcore (.refl _)).2.2
  exact ⟨hpublish, hcore, hbuild, hpersist, hindexed.length_eq.symm⟩

/-- **The two hashers agree**: what `directory_id_for_files` computes for the files of a graph is
the identity of the root of the graph. Unless the hash collides, no graph of other files has it. -/
theorem directory_hashers_agree (hserves : reader.Serves none pages)
    (hsame : Forall₂ (SameFile blake3) files pages.flatten)
    (hbuild : build_commit_graph blake3 rounds request reader progress = .ok graph)
    {id : DirectoryId} (hlocal : directory_id_for_files U blake3 files = .ok id) :
    id = graph.commit.root_directory_id ∧
      ∀ (reader' : IndexSnapshotReader U) pages' rounds' request' progress' graph',
        reader'.Serves none pages' →
        build_commit_graph blake3 rounds' request' reader' progress' = .ok graph' →
        (∀ s ∈ graph.texts ++ graph'.texts, ∀ t ∈ graph.texts ++ graph'.texts,
          blake3 s = blake3 t → s = t) →
        id = graph'.commit.root_directory_id →
          ∀ f, (∃ r ∈ pages.flatten, f = r.tree_file) ↔ ∃ r ∈ pages'.flatten, f = r.tree_file := by
  obtain ⟨root, hgraph⟩ := exists_isGraphOf hserves rfl hbuild
  obtain ⟨published, hs⟩ := hgraph.sound
  have hagree : id = graph.commit.root_directory_id := by
    rw [directory_id_for_files_eq hsame hgraph.inserted hs.encodable] at hlocal
    rw [hgraph.root_directory_id]
    exact (Except.ok.inj hlocal).symm
  refine ⟨hagree, fun _ _ _ _ _ _ hserves' hbuild' hfree hid => ?_⟩
  obtain ⟨root', hgraph'⟩ := exists_isGraphOf hserves' rfl hbuild'
  exact hgraph.same_files hgraph' hfree (hagree ▸ hid)

/-- The Index of two files has the identity of its Commit, and not that of the Commit of one. -/
theorem nested_index_hashed_alike : ∃ c c' id,
    first_commit (empty_files_index ["a/x", "b"]) = .ok c ∧
    first_commit (empty_files_index ["a/x"]) = .ok c' ∧
    directory_id_for_files asciiTables poly_hash (empty_files_index ["a/x", "b"]).files =
      .ok id ∧
    id = c.graph.commit.root_directory_id ∧ id ≠ c'.graph.commit.root_directory_id := by
  obtain ⟨_, hrun⟩ := exists_ok_iff.mpr (show (do
    let c ← first_commit (empty_files_index ["a/x", "b"])
    let c' ← first_commit (empty_files_index ["a/x"])
    let _ ← directory_id_for_files asciiTables poly_hash
      (empty_files_index ["a/x", "b"]).files
    ensure (∀ s ∈ c.graph.texts ++ c'.graph.texts, ∀ t ∈ c.graph.texts ++ c'.graph.texts,
      poly_hash s = poly_hash t → s = t) []
    ensure (∃ r ∈ c.records, ¬ ∃ r' ∈ c'.records, r.tree_file = r'.tree_file) []).isOk by
    decide +kernel)
  simp only [ok_iff] at hrun
  obtain ⟨c, hc, c', hc', id, hid, hfree, r, hr, hother⟩ := hrun
  obtain ⟨hpublish, hcore, hbuild, -, hlength⟩ := first_commit_ok hc
  obtain ⟨-, -, hbuild', -, hlength'⟩ := first_commit_ok hc'
  have hindexed := (publish_index_manifests_ok hpublish hcore (.refl _)).2.2
  obtain ⟨hagree, hexact⟩ := directory_hashers_agree
    (one_page_reader_serves (hlength.trans_le (by decide)))
    (flatten_singleton ▸ hindexed.imp fun _ _ h => h.sameFile) hbuild hid
  refine ⟨c, c', id, hc, hc', hid, hagree, fun hid' => hother ?_⟩
  have hfiles :=
    hexact _ _ _ _ _ _ (one_page_reader_serves (hlength'.trans_le (by decide))) hbuild' hfree hid'
  simp only [flatten_singleton] at hfiles
  exact (hfiles _).mp ⟨r, hr, rfl⟩

theorem nested_index_read_back : ∃ c, first_commit (empty_files_index ["a/x", "a/y", "b"]) = .ok c ∧
      c.read = .ok (empty_files_index ["a/x", "a/y", "b"]).files := by
  obtain ⟨c, hc⟩ : ∃ c, first_commit (empty_files_index ["a/x", "a/y", "b"]) = .ok c :=
    exists_ok_iff.mpr (by decide +kernel)
  obtain ⟨hpublish, hcore, hbuild, hpersist, hlength⟩ := first_commit_ok hc
  refine ⟨c, hc, (read_directory_files_iff hpublish hcore
    (one_page_reader_serves (hlength.trans_le (by decide))) flatten_singleton hbuild
      hpersist).mpr ?_⟩
  exact (sorted_iff_not_hasUndercut (by decide)).mp (by decide)

/-- The files `a-b` and `a/c` can be committed and not be read back: the walk finds `a/c` first. -/
theorem undercut_index_not_read_back :
    ∃ c, first_commit (empty_files_index ["a-b", "a/c"]) = .ok c ∧
      c.read = .error ["文件路径必须严格升序且唯一: a-b"] :=
  map_eq_ok.mp (by decide +kernel)

end NeoEngram.Local

import NeoEngram.Core.Injectivity
import NeoEngram.Engine.Sealability

/-! # What a Commit graph contains

`flatten` reads a graph that was built from its root, by identities, and finds
the files of the snapshot. The Directories come child-first, each once, the
root last, and `publish_commit` accepts the graph. No assumption on the hash
is needed: sealing compares a Directory with the one that already has its
identity. Two graphs need one: then a Commit ID names one Commit and its files
(`commit_id_names_snapshot`).
-/

namespace NeoEngram

open Checks Trees List PendingDirectory Tree

variable {U : UnicodeTables} {blake3 : Blake3}

/-! ## Flattening -/

/-- The files at or below an entry, seen from its Directory. -/
def flatten_entry (below : DirectoryId → Option (List (TreeFile U))) (entry : DirectoryEntry U) :
    Option (List (TreeFile U)) :=
  match entry.target_id with
  | .Manifest manifest_id => some [([entry.name], manifest_id, entry.total_size)]
  | .Directory child => (below child).map (List.map (under entry.name))

/-- The files below a Directory of the set, found by following identities up to a depth. -/
def flatten (objects : List (DirectoryObject U)) : Nat → DirectoryId → Option (List (TreeFile U))
  | 0, _ => none
  | depth + 1, id => do
    let object ← objects.find? (·.id = id)
    let parts ← object.directory.entries.mapM (flatten_entry (flatten objects depth))
    return parts.flatten

theorem flatten_sealed_entries {below : DirectoryId → Option (List (TreeFile U))}
    {d : PendingDirectory U} {ordinal : Nat}
    (hbelow : ∀ s ∈ d.subtrees, below (sealed_id blake3 s) = some s.leaves) :
    ∃ parts, (d.sealed_entries blake3 ordinal).mapM (flatten_entry below) = some parts ∧
      parts.flatten = d.leaves := by
  induction d using tree_induction generalizing ordinal with
  | nil => exact ⟨[], rfl, rfl⟩
  | leaf name value rest ih =>
    obtain ⟨parts, hparts, hleaves⟩ := @ih (ordinal + 1) hbelow
    refine ⟨[([name], value)] :: parts, ?_, ?_⟩
    · simp only [sealed_entries, mapM_cons, hparts]
      rfl
    · simp only [flatten_cons, hleaves, leaves, Node.leaves]
      rfl
  | branch name sub rest _ ih =>
    obtain ⟨parts, hparts, hleaves⟩ := @ih (ordinal + 1) fun s hs =>
      hbelow s (mem_append_right _ hs)
    have hsub := hbelow sub (mem_append_left _ (mem_append_right _ (by simp)))
    refine ⟨sub.leaves.map (under name) :: parts, ?_, ?_⟩
    · have hhead : flatten_entry below (PendingEntry.sealed_entry blake3 (UInt64.ofNat ordinal) name
          (.branch sub)) = some (sub.leaves.map (under name)) := by
        show (below (sealed_id blake3 sub)).map (List.map (under name)) = _
        rw [hsub]
        rfl
      simp only [sealed_entries, mapM_cons, hhead, hparts]
      rfl
    · simp only [flatten_cons, hleaves, leaves, Node.leaves]

section Collected

variable {out : Sealed U} {root : PendingDirectory U} {s : PendingDirectory U}

section

variable (hs : out.Sound blake3 root.post_order)

include hs

theorem Sealed.Sound.find?_object (h : s.object blake3 ∈ out.output) :
    out.output.find? (·.id = s.sealed_id blake3) = some (s.object blake3) := by
  obtain ⟨object, hfind⟩ : ∃ object, out.output.find? (·.id = s.sealed_id blake3) =
    some object := by
    rw [← Option.isSome_iff_exists, find?_isSome]
    exact ⟨_, h, by simp [object]⟩
  have hid : object.id = s.sealed_id blake3 := by simpa using find?_some hfind
  have hobject := (hs.listed object.id object.directory).mpr (mem_of_find?_eq_some hfind)
  have hsame := (hs.listed _ _).mpr h
  rw [hid, show s.sealed_id blake3 = (s.object blake3).id from rfl] at hobject
  rw [hfind, show object = s.object blake3 from ?_]
  cases object
  simp only [object, DirectoryObject.mk.injEq]
  exact ⟨hid, Option.some.inj (hobject.symm.trans hsame)⟩

variable {before after : List (DirectoryObject U)}

/-- The objects of the trees below a tree are put out before its own. -/
theorem Sealed.Sound.subtrees_before (hmem : s ∈ root.post_order)
    (h : out.output = before ++ s.object blake3 :: after) :
    ∀ u ∈ s.subtrees, object blake3 u ∈ before := by
  obtain ⟨earlier, d, later, hdone, hobject, hearlier⟩ := hs.in_order _ _ _ h
  have hd : d ∈ root.post_order := by rw [hdone]; simp
  -- the two trees are sealed to one Directory, so they are the same tree
  have heq : s = d := eq_of_sealed_entries_eq hs.collisionFree
    (fun u hu => post_order_subset hmem (mem_post_order.mpr (.inl hu)))
    (fun u hu => post_order_subset hd (mem_post_order.mpr (.inl hu)))
    (congrArg (fun o : DirectoryObject U => o.directory.entries) hobject)
  intro u hu
  exact hearlier u (childFirst_post_order root earlier d later hdone (heq ▸ hu))

/-- Every tree whose object is among the first `depth` is flattened within that depth. -/
theorem Sealed.Sound.flatten_take {depth : Nat}
    (hmem : s ∈ root.post_order) (h : s.object blake3 ∈ out.output.take depth) :
    flatten out.output depth (s.sealed_id blake3) = some s.leaves := by
  induction depth generalizing s with
  | zero => simp at h
  | succ depth ih =>
    obtain ⟨before, after, hsplit⟩ := append_of_mem h
    have hfull : out.output =
      before ++ s.object blake3 :: (after ++ out.output.drop (depth + 1)) := by
      rw [← cons_append, ← append_assoc, ← hsplit, take_append_drop]
    have hshort : before <+: out.output.take depth := by
      have hlength : before.length ≤ depth := by
        have := congrArg List.length hsplit
        simp only [length_take, length_append, length_cons] at this
        omega
      refine prefix_of_prefix_length_le ⟨_, hfull.symm⟩ (List.take_prefix depth _) ?_
      rw [length_take, hfull, length_append]
      omega
    obtain ⟨parts, hparts, hleaves⟩ := @flatten_sealed_entries U blake3 (flatten out.output depth)
      s 0 fun u hu => ih (post_order_subset hmem (mem_post_order.mpr (.inl hu)))
        (hshort.subset (hs.subtrees_before hmem hfull u hu))
    have hfind := hs.find?_object (mem_of_mem_take h)
    have hstep : flatten out.output (depth + 1) (s.sealed_id blake3) =
        ((s.sealed_entries blake3 0).mapM (flatten_entry (flatten out.output depth))).map
          List.flatten := by
      rw [flatten, hfind]
      show (Option.bind _ _) = _
      rw [Option.map_eq_bind]
      rfl
    rw [hstep, hparts, ← hleaves]
    rfl

theorem Sealed.Sound.flatten_eq (hmem : s ∈ root.post_order) :
    flatten out.output out.output.length (s.sealed_id blake3) = some s.leaves := by
  refine hs.flatten_take hmem ?_
  rw [take_length]
  exact (hs.listed _ _).mp (hs.published s hmem)

/-! ## Order and closure -/

/-- Every Directory an entry refers to is put out before the Directory of the entry. -/
theorem Sealed.Sound.children_before {object : DirectoryObject U}
    (h : out.output = before ++ object :: after) {entry : DirectoryEntry U}
    (hentry : entry ∈ object.directory.entries) {child : DirectoryId}
    (htarget : entry.target_id = .Directory child) : child ∈ before.map (·.id) := by
  obtain ⟨earlier, d, later, hdone, hobject, -⟩ := hs.in_order _ _ _ h
  have hd : d ∈ root.post_order := by rw [hdone]; simp
  rw [hobject] at hentry h
  obtain ⟨s, hsub, hid⟩ := exists_subtree_of_target hentry htarget
  exact mem_map.mpr ⟨_, hs.subtrees_before hd h s hsub, hid⟩

theorem Sealed.Sound.root_last : ∃ before, out.output = before ++ [root.object blake3] := by
  have hroot : root ∈ root.post_order := mem_post_order.mpr (.inr rfl)
  have hmem := (hs.listed _ _).mp (hs.published root hroot)
  obtain ⟨before, after, hsplit⟩ := append_of_mem hmem
  cases after with
  | nil => exact ⟨before, hsplit⟩
  | cons object after =>
    -- an object after the root's would belong to a tree below the root, and was put out before
    exfalso
    obtain ⟨d, hd, hobject⟩ := hs.exists_tree (show object ∈ out.output by rw [hsplit]; simp)
    have hnodup := hs.nodup
    rw [hsplit] at hnodup
    simp only [map_append, map_cons, nodup_append, nodup_cons, mem_cons] at hnodup
    obtain ⟨-, ⟨hfresh, -⟩, hdisjoint⟩ := hnodup
    rcases mem_post_order.mp hd with hsub | rfl
    · have hearly := hs.subtrees_before hroot hsplit d hsub
      rw [hobject] at hearly
      exact hdisjoint _ (List.mem_map_of_mem hearly) _ (.inr (.inl rfl)) rfl
    · exact hfresh (.inl (congrArg DirectoryObject.id hobject))

end

end Collected

/-! ## Publication -/

/-- The identities are collected when every object has its own and none comes twice. -/
theorem exists_collect_directory_ids {objects : List (DirectoryObject U)}
    {ids : Std.ExtTreeSet DirectoryId}
    (hvalid : ∀ o ∈ objects, o.directory.Encodable ∧
      o.id = ⟨blake3 (directory_preimage o.directory)⟩)
    (hnodup : (objects.map (·.id)).Nodup) (hfresh : ∀ o ∈ objects, o.id ∉ ids) :
    ∃ ids', collect_directory_ids blake3 ids objects = .ok ids' ∧
      ∀ id, id ∈ ids' ↔ id ∈ ids ∨ id ∈ objects.map (·.id) := by
  induction objects generalizing ids with
  | nil => exact ⟨ids, rfl, by simp⟩
  | cons object objects ih =>
    obtain ⟨⟨⟨hdir, hlength, hfits⟩, hid⟩, hrest⟩ := forall_mem_cons.mp hvalid
    obtain ⟨hnew, hrest_fresh⟩ := forall_mem_cons.mp hfresh
    rw [map_cons, nodup_cons] at hnodup
    obtain ⟨hnot, hnodup⟩ := hnodup
    obtain ⟨ids', hcollect, hmem⟩ := @ih (ids.insert object.id) hrest hnodup (by
      intro o ho
      rw [Std.ExtTreeSet.mem_insert]
      rintro (heq | hin)
      · exact hnot (Std.LawfulEqOrd.eq_of_compare heq ▸ List.mem_map_of_mem ho)
      · exact hrest_fresh o ho hin)
    refine ⟨ids', ?_, ?_⟩
    · simp only [collect_directory_ids, ok_iff, lift_core_eq_ok, directory_id_eq_ok]
      exact ⟨hdir, object.id, ⟨hdir, hlength, hfits, hid⟩, rfl, hnew, hcollect⟩
    · intro id
      rw [hmem, Std.ExtTreeSet.mem_insert, map_cons, mem_cons, or_assoc]
      have hcompare : compare object.id id = .eq ↔ id = object.id :=
        ⟨fun h => (Std.LawfulEqOrd.eq_of_compare h).symm,
          fun h => h ▸ Std.ReflCmp.compare_self⟩
      rw [hcompare]
      tauto

/-! ## Graphs of snapshots -/

/-- The graph is the one of these records, sealed from the tree `root`. -/
structure BuildCommitGraphResult.IsGraphOf (blake3 : Blake3) (request : BuildCommitGraphRequest)
    (records : List (FileRecord U)) (root : PendingDirectory U) (graph : BuildCommitGraphResult U) :
    Prop where
  valid : validate_index_snapshot records = .ok ()
  inserted : records.foldlM PendingDirectory.insert .nil = .ok root
  ordered : root.Ordered
  files : HasFiles root records
  sound : ∃ published, Sealed.Sound blake3 ⟨graph.directories, published⟩ root.post_order
  commit : graph.commit = request.commit (root.sealed_id blake3)
  commit_valid : graph.commit.validate = .ok () ∧ TextFits graph.commit.message
  commit_id : graph.commit_id = ⟨blake3 (commit_preimage graph.commit)⟩
  file_count : graph.file_count.toNat = records.length

/-- Whatever is built is the graph of the records that were served. -/
theorem exists_isGraphOf {records : List (FileRecord U)} {index : IndexSnapshotReader U}
    {pages : List (List (FileRecord U))} (hserves : index.Serves none pages)
    (hpages : pages.flatten = records) {rounds : Nat} {request : BuildCommitGraphRequest}
    {progress : ProgressSink U} {graph : BuildCommitGraphResult U}
    (hbuild : build_commit_graph blake3 rounds request index progress = .ok graph) :
    ∃ root, graph.IsGraphOf blake3 request records root := by
  obtain ⟨-, records', root, out, hread, hvalid, hlength, hroot, hseal, hcommit, hfits, -, rfl⟩ :=
    build_commit_graph_eq_ok.mp hbuild
  obtain ⟨pages', hserves', hrecords⟩ := read_pages_ok hread
  rw [hserves'.unique hserves, nil_append, hpages] at hrecords
  subst hrecords
  obtain ⟨hordered, hfiles⟩ := foldlM_insert_ok (d := .nil) trivial hroot
  exact ⟨root, hvalid, hroot, hordered, by simpa [HasFiles, leaves] using hfiles,
    ⟨out.published, Sealed.sound_nil.foldlM_publish hseal⟩, rfl, ⟨hcommit, hfits⟩, rfl,
    UInt64.toNat_ofNat_of_lt' hlength⟩

/-- The texts hashed for a graph. -/
def BuildCommitGraphResult.texts (graph : BuildCommitGraphResult U) : List Framing.Bytes :=
  commit_preimage graph.commit :: graph.directories.map (directory_preimage ·.directory)

namespace BuildCommitGraphResult.IsGraphOf

variable {request request' : BuildCommitGraphRequest} {records records' : List (FileRecord U)}
  {root root' : PendingDirectory U} {graph graph' : BuildCommitGraphResult U}

section

variable (h : graph.IsGraphOf blake3 request records root)

include h

theorem root_directory_id : graph.commit.root_directory_id = root.sealed_id blake3 := by
  rw [h.commit]
  rfl

theorem length_leaves : root.leaves.length = records.length := by
  obtain ⟨-, hsorted, -⟩ := validate_index_snapshot_eq_ok.mp h.valid
  have hnodup : (records.map FileRecord.tree_file).Nodup := by
    refine pairwise_map.mpr (hsorted.imp fun hab heq => ?_)
    exact hab.ne (LogicalPath.names_injective (congrArg Prod.fst heq))
  have hsub : records.map FileRecord.tree_file ⊆ root.leaves := by
    intro f hf
    obtain ⟨r, hr, rfl⟩ := mem_map.mp hf
    exact (h.files _).mpr ⟨r, hr, rfl⟩
  have hge : records.length ≤ root.leaves.length := by
    simpa using (hnodup.subperm hsub).length_le
  exact Nat.le_antisymm (h.files.length_le h.ordered) hge

/-- `publish_commit` accepts a graph that was built, for the parent it was built on. -/
theorem validate_publication_ok : validate_publication blake3 ⟨graph, request.parent⟩ = .ok () := by
  obtain ⟨published, hs⟩ := h.sound
  have hobjects : ∀ o ∈ graph.directories, o.directory.Encodable ∧
      o.id = ⟨blake3 (directory_preimage o.directory)⟩ := by
    intro o ho
    obtain ⟨d, hd, rfl⟩ := hs.exists_tree ho
    exact ⟨hs.encodable d hd, rfl⟩
  obtain ⟨ids, hcollect, hmem⟩ := @exists_collect_directory_ids U blake3 _ ∅ hobjects hs.nodup
    (by simp)
  have hroot : graph.commit.root_directory_id ∈ ids := by
    obtain ⟨before, hlast⟩ := hs.root_last
    rw [h.root_directory_id, hmem]
    refine .inr (mem_map.mpr ⟨root.object blake3, ?_, rfl⟩)
    rw [show graph.directories = _ from hlast]
    simp
  simp only [validate_publication, ok_iff, lift_core_eq_ok, commit_id_eq_ok, forM_eq_ok]
  refine ⟨h.commit_valid.1, graph.commit_id, ⟨h.commit_valid.1, h.commit_valid.2, h.commit_id⟩,
    rfl, by rw [h.commit]; rfl, ids, hcollect, hroot, ?_⟩
  intro object hobject entry hentry
  split
  · next child htarget =>
    obtain ⟨before, after, hsplit⟩ := append_of_mem hobject
    have hbefore := hs.children_before hsplit hentry htarget
    rw [ensure_eq_ok, hmem, hsplit, map_append]
    exact .inr (mem_append_left _ hbefore)
  · rfl

theorem encodable_text {d : PendingDirectory U} (hd : d ∈ root.post_order) :
    (d.directory blake3).Encodable ∧ directory_preimage (d.directory blake3) ∈ graph.texts := by
  obtain ⟨published, hs⟩ := h.sound
  have hobject := (hs.listed _ _).mp (hs.published d hd)
  exact ⟨hs.encodable d hd, mem_cons_of_mem _ (mem_map.mpr ⟨_, hobject, rfl⟩)⟩

end

/-- Unless the hash collides on what was hashed, two graphs with one root have the same files. -/
theorem same_files (h : graph.IsGraphOf blake3 request records root)
    (h' : graph'.IsGraphOf blake3 request' records' root')
    (hfree : ∀ s ∈ graph.texts ++ graph'.texts, ∀ t ∈ graph.texts ++ graph'.texts,
      blake3 s = blake3 t → s = t)
    (hids : graph.commit.root_directory_id = graph'.commit.root_directory_id) (f : TreeFile U) :
    (∃ r ∈ records, f = r.tree_file) ↔ ∃ r ∈ records', f = r.tree_file := by
  have htexts : ∀ d : PendingDirectory U, d ∈ root.post_order ++ root'.post_order →
      (d.directory blake3).Encodable ∧
        directory_preimage (d.directory blake3) ∈ graph.texts ++ graph'.texts := by
    intro d hd
    rcases mem_append.mp hd with hd | hd
    · exact (h.encodable_text hd).imp_right (mem_append_left _)
    · exact (h'.encodable_text hd).imp_right (mem_append_right _)
  have htrees : CollisionFree blake3 (root.post_order ++ root'.post_order) := fun d hd e he h =>
    CanonicalModel.directory_preimage_inj (htexts d hd).1 (htexts e he).1
      (hfree _ (htexts d hd).2 _ (htexts e he).2 (TypedId.mk.inj h))
  rw [h.root_directory_id, h'.root_directory_id] at hids
  obtain rfl : root = root' := by
    refine eq_of_sealed_entries_eq htrees ?_ ?_ (congrArg Directory.entries
      (htrees _ ?_ _ ?_ hids)) <;> grind [post_order]
  exact (h.files f).symm.trans (h'.files f)

end BuildCommitGraphResult.IsGraphOf

/-- **A Commit ID names a Commit and its files**: unless the hash collides on what was hashed, two
builds end in one ID exactly when they end in one Commit, of the same files. -/
theorem commit_id_names_snapshot {index index' : IndexSnapshotReader U}
    {pages pages' : List (List (FileRecord U))} (hserves : index.Serves none pages)
    (hserves' : index'.Serves none pages') {rounds rounds' : Nat}
    {request request' : BuildCommitGraphRequest} {progress progress' : ProgressSink U}
    {graph graph' : BuildCommitGraphResult U}
    (hbuild : build_commit_graph blake3 rounds request index progress = .ok graph)
    (hbuild' : build_commit_graph blake3 rounds' request' index' progress' = .ok graph')
    (hfree : ∀ s ∈ graph.texts ++ graph'.texts, ∀ t ∈ graph.texts ++ graph'.texts,
      blake3 s = blake3 t → s = t) :
    graph.commit_id = graph'.commit_id ↔ graph.commit = graph'.commit ∧
      ∀ f, (∃ r ∈ pages.flatten, f = r.tree_file) ↔ ∃ r ∈ pages'.flatten, f = r.tree_file := by
  obtain ⟨root, hgraph⟩ := exists_isGraphOf hserves rfl hbuild
  obtain ⟨root', hgraph'⟩ := exists_isGraphOf hserves' rfl hbuild'
  rw [hgraph.commit_id, hgraph'.commit_id]
  refine ⟨fun hid => ?_, fun h => by rw [h.1]⟩
  have hcommit : graph.commit = graph'.commit :=
    CanonicalModel.commit_preimage_inj hgraph.commit_valid.2 hgraph'.commit_valid.2 (hfree _
      (mem_append_left _ mem_cons_self) _ (mem_append_right _ mem_cons_self) (TypedId.mk.inj hid))
  exact ⟨hcommit, hgraph.same_files hgraph' hfree (congrArg Commit.root_directory_id hcommit)⟩

/-- The graph of a first Commit. -/
def initial_graph (records : List (FileRecord asciiTables)) :
    EngineResult (BuildCommitGraphResult asciiTables) :=
  build_commit_graph poly_hash 1 initial_commit_request (one_page_reader records)
    fun _ => .ok ()

theorem nested_snapshot_named : ∃ graph graph', initial_graph nested_snapshot = .ok graph ∧
      initial_graph nested_snapshot.tail = .ok graph' ∧ graph.commit_id ≠ graph'.commit_id := by
  obtain ⟨_, hrun⟩ := exists_ok_iff.mpr (show (do
    let graph ← initial_graph nested_snapshot
    let graph' ← initial_graph nested_snapshot.tail
    ensure (∀ s ∈ graph.texts ++ graph'.texts, ∀ t ∈ graph.texts ++ graph'.texts,
      poly_hash s = poly_hash t → s = t) ⟨.InvalidArgument, "", []⟩).isOk by
    decide +kernel)
  simp only [ok_iff] at hrun
  obtain ⟨graph, hbuild, graph', hbuild', hfree⟩ := hrun
  refine ⟨graph, graph', hbuild, hbuild', fun hid => ?_⟩
  have hfiles := ((commit_id_names_snapshot (one_page_reader_serves (by decide))
    (one_page_reader_serves (by decide)) hbuild hbuild' hfree).mp hid).2
  exact absurd ((hfiles _).mp ⟨_, mem_cons_self, rfl⟩) (by decide)

end NeoEngram

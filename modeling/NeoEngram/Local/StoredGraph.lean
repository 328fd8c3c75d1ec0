import NeoEngram.Engine.CommitGraph
import NeoEngram.Local.Store

/-! # A Commit graph in the store

The writer of the store adds up, for each Directory, the stored files and sizes
of its children. Since the Directories of a graph come child-first, the sums
are those of the flattened subtrees (`commit_graph_sound`).
-/

namespace NeoEngram.Local

open Checks Trees List

variable {U : UnicodeTables} {blake3 : Blake3}

/-- The Directories of these trees are stored. -/
def TreesStored (blake3 : Blake3) (store : MetadataStore) (trees : List (PendingDirectory U)) :
    Prop :=
  ∀ s ∈ trees, ∃ row, store.directories[s.sealed_id blake3]? = some row ∧
    row.Represents store (s.directory blake3)

/-- The files and the size at or below the entries of a tree are those of its leaves. -/
theorem entry_totals_sealed {store : MetadataStore} {d : PendingDirectory U} {ordinal : Nat}
    (h : TreesStored blake3 store d.subtrees) :
    ((d.sealed_entries blake3 ordinal).map fun e => (entry_totals store e).1).sum =
        d.leaves.length ∧
      ((d.sealed_entries blake3 ordinal).map fun e => (entry_totals store e).2).sum =
        (d.leaves.map fun f => f.2.2.toNat).sum := by
  induction d using Tree.tree_induction generalizing ordinal with
  | nil => exact ⟨rfl, rfl⟩
  | leaf name value rest ih =>
    obtain ⟨hfiles, hsize⟩ := @ih (ordinal + 1) h
    simp only [PendingDirectory.sealed_entries, map_cons, sum_cons, hfiles, hsize,
      Tree.leaves, Node.leaves, map_nil, singleton_append, length_cons, under]
    exact ⟨Nat.add_comm _ _, rfl⟩
  | branch name sub rest ihsub ih =>
    obtain ⟨hfiles, hsize⟩ := @ih (ordinal + 1) fun s hs => h s (mem_append_right _ hs)
    obtain ⟨hsubfiles, hsubsize⟩ := @ihsub 0 fun s hs =>
      h s (mem_append_left _ (mem_append_left _ hs))
    -- the entry counts what the row of the Directory below it has
    obtain ⟨row, hrow, hrepresents⟩ := h sub (mem_append_left _ (mem_append_right _ (by simp)))
    have htotals : entry_totals store (PendingEntry.sealed_entry blake3 (UInt64.ofNat ordinal) name
        (.branch sub)) = (sub.leaves.length, (sub.leaves.map fun f => f.2.2.toNat).sum) := by
      show (store.directories[PendingDirectory.sealed_id blake3 sub]?).elim (0, 0) _ = _
      rw [hrow, Option.elim_some, hrepresents.files, hrepresents.size]
      exact Prod.ext hsubfiles hsubsize
    simp only [PendingDirectory.sealed_entries, map_cons, sum_cons, hfiles, hsize,
      htotals, Tree.leaves, Node.leaves, length_append, length_map, map_append,
      sum_append, List.map_map]
    exact ⟨trivial, rfl⟩

theorem row_totals {store : MetadataStore} {s : PendingDirectory U}
    (h : TreesStored blake3 store s.post_order) :
    ∃ row, store.directories[s.sealed_id blake3]? = some row ∧
      row.Represents store (s.directory blake3) ∧ row.file_count.toNat = s.leaves.length ∧
      row.total_size.toNat = (s.leaves.map fun f => f.2.2.toNat).sum := by
  obtain ⟨row, hrow, hrepresents⟩ := h s (Tree.mem_post_order.mpr (.inr rfl))
  obtain ⟨hfiles, hsize⟩ := @entry_totals_sealed U blake3 store s 0 fun u hu =>
    h u (Tree.mem_post_order.mpr (.inl hu))
  exact ⟨row, hrow, hrepresents, hrepresents.files.trans hfiles, hrepresents.size.trans hsize⟩

/-- Persisting the graph of a snapshot stores the trees it was sealed from. -/
theorem treesStored_of_persist {request : BuildCommitGraphRequest}
    {records : List (NeoEngram.FileRecord U)} {root : PendingDirectory U}
    {graph : BuildCommitGraphResult U} (hgraph : graph.IsGraphOf blake3 request records root)
    {repository repository' : Repository} {expected_head : RepositoryHead}
    (hpersist : persist_engine_graph blake3 repository graph expected_head = .ok repository') :
    TreesStored blake3 repository'.metadata_store root.post_order := by
  obtain ⟨-, -, hall⟩ := persist_engine_graph_ok hpersist
  obtain ⟨published, hs⟩ := hgraph.sound
  intro s hmem
  exact hall (s.object blake3) ((hs.listed _ _).mp (hs.published s hmem))

/-- **Graph soundness**: whatever `build_commit_graph` returns for a served snapshot

- flattens from the root to exactly the files of the snapshot
- has every child Directory before its parents, the root last and no identity twice
- gives every stored Directory the file count and size of its flattened subtree
- passes the checks of `publish_commit` -/
theorem commit_graph_sound {records : List (NeoEngram.FileRecord U)}
    {index : IndexSnapshotReader U} {pages : List (List (NeoEngram.FileRecord U))}
    (hserves : index.Serves none pages) (hpages : pages.flatten = records) {rounds : Nat}
    {request : BuildCommitGraphRequest} {progress : ProgressSink U}
    {graph : BuildCommitGraphResult U}
    (hbuild : build_commit_graph blake3 rounds request index progress = .ok graph) :
    (∃ files, flatten graph.directories graph.directories.length graph.commit.root_directory_id =
        some files ∧ files.Nodup ∧ (∀ f, f ∈ files ↔ ∃ r ∈ records, f = r.tree_file) ∧
        graph.file_count.toNat = files.length) ∧
      (∀ before object after, graph.directories = before ++ object :: after →
        ∀ entry ∈ object.directory.entries, ∀ child, entry.target_id = .Directory child →
          child ∈ before.map (·.id)) ∧
      (∃ before object, graph.directories = before ++ [object] ∧
        object.id = graph.commit.root_directory_id) ∧ (graph.directories.map (·.id)).Nodup ∧
      (∀ repository expected_head repository',
        persist_engine_graph blake3 repository graph expected_head = .ok repository' →
        ∀ object ∈ graph.directories, ∃ row files,
          repository'.metadata_store.directories[object.id]? = some row ∧
          flatten graph.directories graph.directories.length object.id = some files ∧
          row.file_count.toNat = files.length ∧
          row.total_size.toNat = (files.map fun f => f.2.2.toNat).sum) ∧
      validate_publication blake3 ⟨graph, request.parent⟩ = .ok () := by
  obtain ⟨root, hgraph⟩ := exists_isGraphOf hserves hpages hbuild
  obtain ⟨published, hs⟩ := hgraph.sound
  have hroot : root ∈ root.post_order := Tree.mem_post_order.mpr (.inr rfl)
  refine ⟨⟨root.leaves, ?_, Tree.leaves_nodup hgraph.ordered, hgraph.files, ?_⟩, ?_, ?_, hs.nodup,
    ?_, hgraph.validate_publication_ok⟩
  · rw [hgraph.root_directory_id]
    exact hs.flatten_eq hroot
  · rw [hgraph.file_count, hgraph.length_leaves]
  · exact fun _ _ _ hsplit _ hentry _ htarget => hs.children_before hsplit hentry htarget
  · obtain ⟨before, hlast⟩ := hs.root_last
    exact ⟨before, _, hlast, hgraph.root_directory_id.symm⟩
  · intro repository expected_head repository' hpersist object hobject
    have hstored := treesStored_of_persist hgraph hpersist
    obtain ⟨s, hmem, rfl⟩ := hs.exists_tree hobject
    obtain ⟨row, hrow, -, hfiles, hsize⟩ := row_totals fun u hu =>
      hstored u (Tree.post_order_subset hmem hu)
    exact ⟨row, s.leaves, hrow, hs.flatten_eq hmem, hfiles, hsize⟩

/-- The graph of the nested snapshot, flattened: three files in two Directories. -/
theorem nested_snapshot_flattened :
    ∃ graph, build_commit_graph poly_hash 1 initial_commit_request
        (one_page_reader nested_snapshot) (fun _ => .ok ()) = .ok graph ∧
      graph.directories.length = 2 ∧
      ∃ files, flatten graph.directories 2 graph.commit.root_directory_id = some files ∧
        files.length = 3 ∧ ∀ f, f ∈ files ↔ ∃ r ∈ nested_snapshot, f = r.tree_file := by
  obtain ⟨graph, hgraph⟩ : ∃ graph, build_commit_graph poly_hash 1 initial_commit_request
      (one_page_reader nested_snapshot) (fun _ => .ok ()) = .ok graph :=
    exists_ok_iff.mpr (by decide +kernel)
  have hcounts : ∀ g, build_commit_graph poly_hash 1 initial_commit_request
      (one_page_reader nested_snapshot) (fun _ => .ok ()) = .ok g →
      g.directories.length = 2 ∧ g.file_count = 3 := by
    intro g hg
    have : (build_commit_graph poly_hash 1 initial_commit_request
      (one_page_reader nested_snapshot) (fun _ => .ok ())).toOption.all
        (fun g => g.directories.length = 2 ∧ g.file_count = 3) = true := by decide +kernel
    rw [hg] at this
    simpa [Except.toOption] using this
  obtain ⟨hlength, hcount⟩ := hcounts graph hgraph
  have hserves : (one_page_reader nested_snapshot).Serves none [nested_snapshot] :=
    one_page_reader_serves (by decide)
  obtain ⟨⟨files, hflatten, -, hfiles, hfile_count⟩, -⟩ :=
    commit_graph_sound hserves (flatten_singleton) hgraph
  rw [hlength] at hflatten
  exact ⟨graph, hgraph, hlength, files, hflatten, by rw [← hfile_count, hcount]; rfl, hfiles⟩

end NeoEngram.Local

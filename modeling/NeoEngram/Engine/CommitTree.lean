import NeoEngram.Engine.Commit

/-! # The tree of an Index snapshot

The pending Directories of `build_commit_graph` form a tree of ordered maps.
The records of a valid snapshot always form such a tree, and its leaves are
exactly the files of the snapshot.
-/

namespace NeoEngram

open Checks Trees PendingDirectory List Tree

variable {U : UnicodeTables}

/-- A file of a tree: the components that lead to it, its Manifest and its size. -/
abbrev TreeFile (U : UnicodeTables) := List (PathComponent U) × ManifestId × UInt64

def FileRecord.tree_file (record : FileRecord U) : TreeFile U :=
  (record.path.names, record.manifest_id, record.total_size)

def HasFiles (root : PendingDirectory U) (records : List (FileRecord U)) : Prop :=
  ∀ f, f ∈ root.leaves ↔ ∃ r ∈ records, f = r.tree_file

variable {records : List (FileRecord U)}

namespace PendingDirectory

/-- The components of a path always parse again. -/
theorem insert_eq (d : PendingDirectory U) (file : FileRecord U) : insert d file =
      Tree.insert INSERT_ERRORS (file.manifest_id, file.total_size) file.path.names d := by
  rw [insert, file.path.mapM_parse_components]
  rfl

theorem foldlM_insert_ok {d root : PendingDirectory U}
    (hd : d.Ordered) (h : records.foldlM PendingDirectory.insert d = .ok root) :
    root.Ordered ∧ ∀ f, f ∈ root.leaves ↔ f ∈ d.leaves ∨ ∃ r ∈ records, f = r.tree_file := by
  induction records generalizing d with
  | nil =>
    simp only [List.foldlM_nil, pure_eq_ok] at h
    subst h
    exact ⟨hd, by simp⟩
  | cons record records ih =>
    simp only [List.foldlM_cons, bind_eq_ok, insert_eq] at h
    obtain ⟨d', hinsert, hrest⟩ := h
    obtain ⟨hd', hmem⟩ := Tree.insert_ok hd hinsert
    obtain ⟨hroot, hfiles⟩ := ih hd' hrest
    refine ⟨hroot, fun f => ?_⟩
    rw [hfiles, hmem, List.exists_mem_cons_iff, or_assoc]
    rfl

theorem exists_foldlM_insert {d : PendingDirectory U} (hd : d.Ordered) (hpop : d.Populated)
    (hfree : ∀ r ∈ records, ∀ f ∈ d.leaves, ¬ r.path.names <+: f.1 ∧ ¬ f.1 <+: r.path.names)
    (hpair : records.Pairwise fun a b =>
      ¬ a.path.names <+: b.path.names ∧ ¬ b.path.names <+: a.path.names) :
    ∃ root, records.foldlM insert d = .ok root ∧ root.Populated := by
  induction records generalizing d with
  | nil => exact ⟨d, rfl, hpop⟩
  | cons record records ih =>
    obtain ⟨hhead, htail⟩ := pairwise_cons.mp hpair
    obtain ⟨d', hinsert, hpop', -⟩ := @Tree.exists_insert _ _ _ _ d INSERT_ERRORS
      (record.manifest_id, record.total_size) _ hd hpop record.path.names_ne_nil
      (hfree record mem_cons_self)
    obtain ⟨hd', hmem⟩ := insert_ok hd hinsert
    obtain ⟨root, hroot, hrootpop⟩ := ih hd' hpop' (fun r hr f hf => by
      rcases (hmem f).mp hf with hold | hnew
      · exact hfree r (mem_cons_of_mem _ hr) f hold
      · rw [hnew]
        exact (hhead r hr).symm) htail
    exact ⟨root, by rw [foldlM_cons, insert_eq, hinsert]; exact hroot, hrootpop⟩

end PendingDirectory

/-- Paths that do not conflict under portable keys are not beginnings of one another. -/
theorem not_prefix_of_not_conflict {a b : LogicalPath U} (h : ¬ PathsConflict a b) :
    ¬ a.names <+: b.names ∧ ¬ b.names <+: a.names := by
  constructor
  · intro hab
    refine h (.inl ?_)
    rw [a.portable_words_eq, b.portable_words_eq]
    exact hab.map _
  · intro hba
    refine h (.inr ?_)
    rw [a.portable_words_eq, b.portable_words_eq]
    exact hba.map _

theorem exists_tree_of_snapshot (h : validate_index_snapshot records = .ok ()) :
    ∃ root, records.foldlM insert .nil = .ok root ∧ root.Ordered ∧
      root.Populated ∧ HasFiles root records := by
  obtain ⟨-, -, hpair⟩ := validate_index_snapshot_eq_ok.mp h
  obtain ⟨root, hroot, hpop⟩ := @PendingDirectory.exists_foldlM_insert U
    records .nil trivial trivial (by simp [leaves]) (hpair.imp not_prefix_of_not_conflict)
  obtain ⟨hordered, hfiles⟩ := foldlM_insert_ok (d := .nil) trivial hroot
  exact ⟨root, hroot, hordered, hpop, by simpa [HasFiles, leaves] using hfiles⟩

theorem HasFiles.length_le {root : PendingDirectory U}
    (h : HasFiles root records) (hordered : root.Ordered) :
    root.leaves.length ≤ records.length := by
  have hsub : root.leaves ⊆ records.map FileRecord.tree_file := by
    intro f hf
    obtain ⟨r, hr, rfl⟩ := (h f).mp hf
    exact mem_map_of_mem hr
  simpa using ((leaves_nodup hordered).subperm hsub).length_le

end NeoEngram

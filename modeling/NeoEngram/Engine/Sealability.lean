import NeoEngram.Core.Concrete
import NeoEngram.Engine.CommitSeal

/-! # When a snapshot can be committed

An Index snapshot compares whole paths by portable key, a Directory the names
of its children. A valid snapshot can therefore hold two paths that go through
one directory under two spellings, which collide there.
`build_commit_graph_succeeds_iff`: this is the only obstacle.
-/

namespace NeoEngram

open Checks Trees PendingDirectory List Tree UInt64 PageRequest

variable {U : UnicodeTables} {blake3 : Blake3}

/-! ## Encodable trees -/

variable {d : PendingDirectory U}

namespace PendingDirectory

theorem ordinalsFrom_sealed_entries (d : PendingDirectory U) {ordinal : Nat}
    (h : ordinal + d.keys.length ≤ 2 ^ 64) :
    Directory.OrdinalsFrom ordinal (d.sealed_entries blake3 ordinal) := by
  induction d using row_induction generalizing ordinal with
  | nil => trivial
  | cons name entry rest ih =>
    simp only [Tree.keys, List.length_cons] at h
    refine ⟨?_, ih (by omega)⟩
    have hordinal : (PendingEntry.sealed_entry blake3 (ofNat ordinal) name entry).ordinal =
        ofNat ordinal := by
      cases entry <;> rfl
    rw [hordinal]
    exact toNat_ofNat_of_lt' (by simp only [size]; omega)

theorem validate_of_mem_sealed_entries {ordinal : Nat}
    {entry : DirectoryEntry U} (h : entry ∈ d.sealed_entries blake3 ordinal) :
    entry.validate = .ok () := by
  induction d using row_induction generalizing ordinal with
  | nil => simp [sealed_entries] at h
  | cons name e rest ih =>
    simp only [sealed_entries, mem_cons] at h
    rcases h with rfl | h
    · cases e <;> rfl
    · exact ih h

/-- The Directory of an ordered tree has an identity exactly when its names fit and differ
under portable keys. -/
theorem encodable_iff (hd : d.Ordered) : (d.directory blake3).Encodable ↔
      d.keys.length < 2 ^ 64 ∧ (∀ name ∈ d.keys, TextFits name.text) ∧
      d.keys.Pairwise fun a b => a.portable_key ≠ b.portable_key := by
  have hnames : (d.directory blake3).entries.map (·.name) = d.keys := map_name_sealed_entries d 0
  have hfits : (∀ entry ∈ (d.directory blake3).entries, TextFits entry.name.text) ↔
      ∀ name ∈ d.keys, TextFits name.text := by
    rw [← hnames]
    simp
  have hkeys : ((d.directory blake3).entries.Pairwise fun a b =>
      a.name.portable_key ≠ b.name.portable_key) ↔
      d.keys.Pairwise fun a b => a.portable_key ≠ b.portable_key := by
    rw [← hnames, pairwise_map]
  rw [Directory.Encodable, Directory.validate_eq_ok, hnames, hfits, hkeys, length_entries_directory]
  constructor
  · intro ⟨⟨_, _, _, hpair⟩, hlength, hall⟩
    exact ⟨hlength, hall, hpair⟩
  · intro ⟨hlength, hall, hpair⟩
    refine ⟨⟨fun entry he => validate_of_mem_sealed_entries he, ?_, keys_sorted hd, hpair⟩,
      hlength, hall⟩
    exact ordinalsFrom_sealed_entries d (by omega)

end PendingDirectory

/-! ## Reading the snapshot -/

variable {index : IndexSnapshotReader U} {progress : ProgressSink U}

/-- A reader that serves the pages is read to the end, if it may be read that often. -/
theorem read_pages_of_serves (hprogress : ∀ event, progress event = .ok ())
    {after : Option PageCursor} {pages : List (List (FileRecord U))}
    (hserves : index.Serves after pages) {rounds : Nat} (hrounds : pages.length ≤ rounds)
    {files : List (FileRecord U)} (hlength : (files ++ pages.flatten).length < 2 ^ 64) :
    read_pages index progress rounds ⟨after, MAX_PAGE_SIZE⟩ files =
      .ok (files ++ pages.flatten) := by
  induction hserves generalizing rounds files with
  | @last after items hscan hlimit =>
    obtain ⟨rounds, rfl⟩ : ∃ n, rounds = n + 1 := ⟨rounds - 1, by simp at hrounds; omega⟩
    simp only [read_pages, ok_iff, u64_try_from_eq_some_iff]
    exact ⟨_, hscan, hlimit, _, ⟨by simpa using hlength, rfl⟩, hprogress _, by simp⟩
  | @more after next items pages hscan hlimit hadvance hrest ih =>
    obtain ⟨rounds, rfl⟩ : ∃ n, rounds = n + 1 := ⟨rounds - 1, by simp at hrounds; omega⟩
    have hlength' : (files ++ items ++ pages.flatten).length < 2 ^ 64 := by simpa using hlength
    have hcount : (files ++ items).length < 2 ^ 64 := by
      rw [length_append] at hlength'
      omega
    have hnext := ih (Nat.le_of_succ_le_succ hrounds) hlength'
    simp only [read_pages, ok_iff, u64_try_from_eq_some_iff]
    refine ⟨_, hscan, hlimit, _, ⟨hcount, rfl⟩, hprogress _, ?_⟩
    simp only [ok_iff, new_max, Except.ok.injEq, exists_eq_left']
    exact ⟨hadvance, by simpa using hnext⟩

/-- What `read_pages` returns was served: the pages read, in order. -/
theorem read_pages_ok {rounds : Nat} {after : Option PageCursor}
    {files records : List (FileRecord U)}
    (h : read_pages index progress rounds ⟨after, MAX_PAGE_SIZE⟩ files = .ok records) :
    ∃ pages, index.Serves after pages ∧ records = files ++ pages.flatten := by
  induction rounds generalizing after files with
  | zero => cases h
  | succ rounds ih =>
    simp only [read_pages, ok_iff] at h
    obtain ⟨page, hscan, hlimit, count, -, -, hmatch⟩ := h
    split at hmatch
    · next hnone =>
      simp only [pure_eq_ok] at hmatch
      refine ⟨[page.items], .last ?_ hlimit, by simp [← hmatch]⟩
      rw [hscan, ← hnone]
    · next next hsome =>
      simp only [ok_iff, new_max, Except.ok.injEq, exists_eq_left'] at hmatch
      obtain ⟨hadvance, hrest⟩ := hmatch
      obtain ⟨pages, hserves, hrecords⟩ := ih hrest
      refine ⟨page.items :: pages, .more ?_ hlimit hadvance hserves, by simp [hrecords]⟩
      rw [hscan, ← hsome]

/-! ## Building -/

def BuildCommitGraphRequest.commit (request : BuildCommitGraphRequest) (root : DirectoryId) :
    Commit :=
  ⟨root, request.parent, request.message, request.created_at_unix_ms⟩

/-- A successful run of `build_commit_graph`, taken apart. -/
theorem build_commit_graph_eq_ok {rounds : Nat} {request : BuildCommitGraphRequest}
    {graph : BuildCommitGraphResult U} :
    build_commit_graph blake3 rounds request index progress = .ok graph ↔
      index.version = request.expected_index_version ∧
      ∃ records root out, read_pages index progress rounds ⟨none, MAX_PAGE_SIZE⟩ [] = .ok records ∧
        validate_index_snapshot records = .ok () ∧ records.length < 2 ^ 64 ∧
        records.foldlM insert .nil = .ok root ∧
        root.post_order.foldlM (publish_tree blake3) ⟨[], ∅⟩ = .ok out ∧
        (request.commit (root.sealed_id blake3)).validate = .ok () ∧ TextFits request.message ∧
        progress { phase := .Prepared, unit := .Files,
                   completed := ofNat records.length } = .ok () ∧
        graph = ⟨request.expected_index_version, out.output,
          ⟨blake3 (commit_preimage (request.commit (root.sealed_id blake3)))⟩,
          request.commit (root.sealed_id blake3), ofNat records.length⟩ := by
  unfold build_commit_graph Commit.new BuildCommitGraphRequest.commit
  simp only [ok_iff, lift_core_eq_ok, u64_try_from_eq_some_iff, new_max,
    Except.ok.injEq, exists_eq_left', Prod.exists, seal_eq_ok, commit_id_eq_ok]
  constructor
  · rintro ⟨hversion, records, hread, hvalid, count, ⟨hlength, hcount⟩, root, hroot, id, out,
      ⟨hid, hseal⟩, commit, ⟨hcommit, hc⟩, cid, ⟨_, hfits, hcid⟩, hprogress, hgraph⟩
    subst hcount hid hc hcid
    exact ⟨hversion, records, root, out, hread, hvalid, hlength, hroot, hseal, hcommit, hfits,
      hprogress, hgraph.symm⟩
  · rintro ⟨hversion, records, root, out, hread, hvalid, hlength, hroot, hseal, hcommit, hfits,
      hprogress, hgraph⟩
    exact ⟨hversion, records, hread, hvalid, _, ⟨hlength, rfl⟩, root, hroot, _, out,
      ⟨rfl, hseal⟩, _, ⟨hcommit, rfl⟩, _, ⟨hcommit, hfits, rfl⟩, hprogress, hgraph.symm⟩

/-! ## Respelled directories -/

/-- The paths go through one directory under two spellings: below a common path they continue with
components that differ but have one portable key, and neither ends there. -/
def DirectoryRespelled (a b : LogicalPath U) : Prop :=
  ∃ path x y s t, a.names = path ++ x :: s ∧ b.names = path ++ y :: t ∧ s ≠ [] ∧ t ≠ [] ∧
    x ≠ y ∧ x.portable_key = y.portable_key

/-- Some directory of the snapshot is respelled. -/
def HasRespelledDirectory (records : List (FileRecord U)) : Prop :=
  ∃ a ∈ records, ∃ b ∈ records, DirectoryRespelled a.path b.path

variable {records : List (FileRecord U)} {root : PendingDirectory U}

theorem ne_nil_of_not_conflict {a b : LogicalPath U} {path s t : List (PathComponent U)}
    {x y : PathComponent U} (ha : a.names = path ++ x :: s) (hb : b.names = path ++ y :: t)
    (hkey : x.portable_key = y.portable_key) (h : ¬ PathsConflict a b) : s ≠ [] := by
  intro hs
  refine h (.inl ?_)
  rw [a.portable_words_eq, b.portable_words_eq, ha, hb, hs]
  simp only [map_append, map_cons, map_nil, hkey]
  exact (prefix_append_right_inj _).mpr ⟨t.map PathComponent.portable_key, rfl⟩

/-- In the tree of a valid snapshot, two names have one portable key exactly when a directory is
respelled. -/
theorem hasRespelledDirectory_iff (hvalid : validate_index_snapshot records = .ok ())
    (hordered : root.Ordered) (hpop : root.Populated) (hfiles : HasFiles root records) :
    HasRespelledDirectory records ↔
      ∃ s ∈ root.post_order, ∃ x ∈ s.keys, ∃ y ∈ s.keys, x ≠ y ∧
        x.portable_key = y.portable_key := by
  constructor
  · intro ⟨a, ha, b, hb, path, x, y, s, t, hapath, hbpath, _, _, hne, hkey⟩
    have hfa := (hfiles a.tree_file).mpr ⟨a, ha, rfl⟩
    have hfb := (hfiles b.tree_file).mpr ⟨b, hb, rfl⟩
    rw [FileRecord.tree_file, hapath] at hfa
    rw [FileRecord.tree_file, hbpath] at hfb
    obtain ⟨d, hd, hx, hy⟩ := exists_common_subtree hordered hfa hfb
    exact ⟨d, hd, x, hx, y, hy, hne, hkey⟩
  · intro ⟨d, hd, x, hx, y, hy, hne, hkey⟩
    -- the path of the Directory, and a file below each of the two names
    obtain ⟨path, hpath⟩ := exists_path_of_mem_post_order hd
    have hdpop := hpop.subtree hd
    obtain ⟨s, m, hfx⟩ := hdpop.exists_leaf_of_mem_keys hx
    obtain ⟨t, n, hfy⟩ := hdpop.exists_leaf_of_mem_keys hy
    obtain ⟨a, ha, hfa⟩ := (hfiles _).mp (hpath _ hfx)
    obtain ⟨b, hb, hfb⟩ := (hfiles _).mp (hpath _ hfy)
    have hapath : a.path.names = path ++ x :: s := (congrArg Prod.fst hfa).symm
    have hbpath : b.path.names = path ++ y :: t := (congrArg Prod.fst hfb).symm
    have hab : a.path ≠ b.path := by
      intro h
      rw [h, hbpath] at hapath
      exact hne (cons.inj (append_cancel_left hapath)).1.symm
    have hfree := not_conflict_of_mem hvalid ha hb hab
    refine ⟨a, ha, b, hb, path, x, y, s, t, hapath, hbpath, ?_, ?_, hne, hkey⟩
    · exact ne_nil_of_not_conflict hapath hbpath hkey hfree
    · exact ne_nil_of_not_conflict hbpath hapath hkey.symm fun h => hfree h.symm

/-- Lengths fit in every Directory of the tree, as they do in the snapshot. -/
theorem names_fit (hlength : records.length < 2 ^ 64) (hfits : ∀ r ∈ records, TextFits r.path.text)
    (hordered : root.Ordered) (hpop : root.Populated) (hfiles : HasFiles root records)
    (hd : d ∈ root.post_order) : d.keys.length < 2 ^ 64 ∧ ∀ name ∈ d.keys, TextFits name.text := by
  have hcount := hfiles.length_le hordered
  have hle := length_leaves_le hd
  have hdpop := hpop.subtree hd
  obtain ⟨path, hpath⟩ := exists_path_of_mem_post_order hd
  refine ⟨?_, ?_⟩
  · have := hdpop.length_keys_le
    omega
  · intro name hname
    obtain ⟨rest, data, hf⟩ := hdpop.exists_leaf_of_mem_keys hname
    obtain ⟨r, hr, heq⟩ := (hfiles _).mp (hpath _ hf)
    have hmem : name ∈ r.path.names := by
      rw [show r.path.names = path ++ name :: rest from (congrArg Prod.fst heq).symm]
      simp
    exact (hfits r hr).name hmem

/-- Every Directory of the tree has an identity exactly when no directory is respelled. -/
theorem encodable_tree_iff (hvalid : validate_index_snapshot records = .ok ())
    (hlength : records.length < 2 ^ 64) (hfits : ∀ r ∈ records, TextFits r.path.text)
    (hordered : root.Ordered) (hpop : root.Populated) (hfiles : HasFiles root records) :
    (∀ d ∈ root.post_order, (directory blake3 d).Encodable) ↔
      ¬ HasRespelledDirectory records := by
  have hord : ∀ d ∈ root.post_order, d.Ordered := fun d hd => hordered.subtree hd
  rw [hasRespelledDirectory_iff hvalid hordered hpop hfiles]
  constructor
  · intro hall ⟨d, hd, x, hx, y, hy, hne, hkey⟩
    obtain ⟨-, -, hpair⟩ := (encodable_iff (hord d hd)).mp (hall d hd)
    have : Std.Symm fun a b : PathComponent U => a.portable_key ≠ b.portable_key :=
      ⟨fun _ _ h => h.symm⟩
    exact hpair.forall hx hy hne hkey
  · intro hnone d hd
    obtain ⟨hcount, htexts⟩ := names_fit hlength hfits hordered hpop hfiles hd
    refine (encodable_iff (hord d hd)).mpr ⟨hcount, htexts, ?_⟩
    refine (keys_sorted (hord d hd)).imp_of_mem fun hx hy hlt hkey => ?_
    exact hnone ⟨d, hd, _, hx, _, hy, hlt.ne, hkey⟩

/-- **Sealability**: the graph of a valid snapshot is built, by any reader, exactly when no
directory is respelled. -/
theorem build_commit_graph_succeeds_iff {records : List (FileRecord U)}
    (hvalid : validate_index_snapshot records = .ok ()) (hlength : records.length < 2 ^ 64)
    (hfits : ∀ r ∈ records, TextFits r.path.text)
    {index : IndexSnapshotReader U} {pages : List (List (FileRecord U))}
    (hserves : index.Serves none pages) (hpages : pages.flatten = records)
    {rounds : Nat} (hrounds : pages.length ≤ rounds)
    {request : BuildCommitGraphRequest} (hversion : index.version = request.expected_index_version)
    (hmessage : ¬ request.message.all is_whitespace) (hmessage_fits : TextFits request.message)
    {progress : ProgressSink U} (hprogress : ∀ event, progress event = .ok ())
    (hfree : ∀ root, records.foldlM PendingDirectory.insert .nil = .ok root →
      CollisionFree blake3 root.post_order) :
    (∃ graph, build_commit_graph blake3 rounds request index progress = .ok graph) ↔
      ¬ HasRespelledDirectory records := by
  obtain ⟨root, hroot, hordered, hpop, hfiles⟩ := exists_tree_of_snapshot hvalid
  rw [← @encodable_tree_iff U blake3 _ _ hvalid hlength hfits hordered hpop hfiles]
  have hread : read_pages index progress rounds ⟨none, MAX_PAGE_SIZE⟩ [] = .ok records := by
    have := @read_pages_of_serves U _ _ hprogress _ _ hserves _ hrounds [] (by simpa [hpages])
    simpa [hpages] using this
  constructor
  · intro ⟨graph, hgraph⟩
    obtain ⟨-, records', root', out, hread', -, -, hroot', hseal, -⟩ :=
      build_commit_graph_eq_ok.mp hgraph
    rw [hread] at hread'
    obtain rfl := Except.ok.inj hread'
    rw [hroot] at hroot'
    obtain rfl := Except.ok.inj hroot'
    exact (Sealed.sound_nil.foldlM_publish hseal).encodable
  · intro hencodable
    obtain ⟨out, hseal⟩ := exists_foldlM_publish Sealed.sound_nil hencodable (hfree root hroot)
    refine ⟨_, build_commit_graph_eq_ok.mpr ⟨hversion, records, root, out, hread, hvalid, hlength,
      hroot, hseal, ?_, hmessage_fits, hprogress _, rfl⟩⟩
    exact ensure_eq_ok.mpr hmessage

/-! ### Two snapshots -/

def one_page_reader (records : List (FileRecord U)) : IndexSnapshotReader U where
  version := ⟨7, digest_of_nat 0⟩
  scan_files := fun _ _ => .ok ⟨records, none⟩

theorem one_page_reader_serves
    (h : records.length ≤ MAX_PAGE_SIZE.toNat) : (one_page_reader records).Serves none [records] :=
  .last rfl h

def initial_commit_request : BuildCommitGraphRequest where
  expected_index_version := ⟨7, digest_of_nat 0⟩
  parent := none
  message := "initial".toList
  created_at_unix_ms := 123

def nested_snapshot : List (FileRecord asciiTables) :=
  [empty_file (ascii_path "a/x" (by decide)) 3, empty_file (ascii_path "a/y" (by decide)) 3,
    empty_file (ascii_path "b" (by decide)) 3]

theorem nested_snapshot_not_respelled : ¬ HasRespelledDirectory nested_snapshot := by
  have hiff := @build_commit_graph_succeeds_iff asciiTables poly_hash nested_snapshot
    (by decide) (by decide) (by decide) (one_page_reader nested_snapshot) [nested_snapshot]
    (one_page_reader_serves (by decide)) (by decide) 1 (by decide) initial_commit_request rfl
    (by decide) (by decide) (fun _ => .ok ()) (fun _ => rfl)
    (fun root h => by cases h; decide +kernel)
  refine hiff.mp (exists_ok_iff.mpr ?_)
  decide +kernel

def respelled_snapshot : List (FileRecord asciiTables) :=
  [empty_file (ascii_path "A/y" (by decide)) 3, empty_file (ascii_path "a/x" (by decide)) 3]

/-- A valid snapshot that cannot be sealed: `A` and `a` are names of one Directory. -/
theorem respelled_snapshot_not_sealed : validate_index_snapshot respelled_snapshot = .ok () ∧
      (one_page_reader respelled_snapshot).Serves none [respelled_snapshot] ∧
      build_commit_graph poly_hash 1 initial_commit_request
        (one_page_reader respelled_snapshot) (fun _ => .ok ()) =
          .error
            ⟨.InvalidArgument, "Directory entry names collide under portable case rules: a", []⟩ :=
  ⟨by decide, one_page_reader_serves (by decide), by decide +kernel⟩

end NeoEngram

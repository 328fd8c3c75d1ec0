import NeoEngram.Core.Concrete
import NeoEngram.Local.Validation

/-! # Comparing snapshots

`diff` compares two snapshots path by path, and counts for every path that has
changed which of its chunks were there before.
-/

namespace NeoEngram.Local

open Checks OrderedKeys Multiset

/-! ## Chunks -/

structure ChunkDelta where
  reused : Nat := 0
  added : Nat := 0
  added_bytes : Nat := 0
  removed : Nat := 0
  deriving DecidableEq

abbrev ChunkKey := ObjectId × UInt64

def chunk_key (chunk : Chunk) : ChunkKey := (chunk.object_id, chunk.size)

/-- How many chunks are left under a key. The source has no entry for some that are 0. -/
abbrev Available := ChunkKey → Nat

def count_chunk (available : Available) (chunk : Chunk) : Available :=
  Function.update available (chunk_key chunk) (saturating_add (available (chunk_key chunk)) 1)

def match_chunk (state : Available × ChunkDelta) (chunk : Chunk) : Available × ChunkDelta :=
  let (available, delta) := state
  if 0 < available (chunk_key chunk) then
    (Function.update available (chunk_key chunk) (available (chunk_key chunk) - 1),
      { delta with reused := saturating_add delta.reused 1 })
  else
    (available, { delta with
      added := saturating_add delta.added 1
      added_bytes := saturating_add delta.added_bytes chunk.size.toNat })

def chunks_of (file : Option WorkspaceFileRecord) : List Chunk := file.elim [] (·.chunks)

def chunk_delta (before after : Option WorkspaceFileRecord) : ChunkDelta :=
  let available := (chunks_of before).foldl count_chunk fun _ => 0
  let delta := ((chunks_of after).foldl match_chunk (available, {})).2
  { delta with
    removed := before.elim 0 fun before => min before.chunks.length (2 ^ 64 - 1) - delta.reused }

/-- The chunks of a list by their keys, each as often as it occurs. -/
def chunk_keys (chunks : List Chunk) : Multiset ChunkKey := chunks.map chunk_key

variable {chunk : Chunk} {chunks : List Chunk} {available : Available} {keys : Multiset ChunkKey}

theorem chunk_keys_cons :
    chunk_keys (chunk :: chunks) = chunk_key chunk ::ₘ chunk_keys chunks := rfl

theorem foldl_count_chunk (h : ∀ key, available key = keys.count key)
    (hfits : keys.card + chunks.length < 2 ^ 64) (key : ChunkKey) :
    chunks.foldl count_chunk available key = (keys + chunk_keys chunks).count key := by
  induction chunks generalizing available keys with
  | nil => simp [h, chunk_keys]
  | cons chunk chunks ih =>
    rw [List.length_cons] at hfits
    have hnext : ∀ key, count_chunk available chunk key = (chunk_key chunk ::ₘ keys).count key := by
      intro key
      -- a count is at most the number of chunks, so it does not saturate
      have hcount := keys.count_le_card (chunk_key chunk)
      rw [count_chunk, Function.update_apply, count_cons, h, h, saturating_add,
        min_eq_left (by omega)]
      split
      next hkey => rw [hkey]
      next => rfl
    rw [List.foldl_cons, ih hnext (by rw [card_cons]; omega), chunk_keys_cons,
      cons_add, add_cons]

/-- The counts after some more chunks, of which some are reused. -/
structure Tallied (delta delta' : ChunkDelta) (reused total : Nat) : Prop where
  reused : delta'.reused = delta.reused + reused
  total : delta'.reused + delta'.added = delta.reused + delta.added + total

/-- **Loop**: a chunk that is left is reused, and every other one is added. -/
theorem foldl_match_chunk {delta : ChunkDelta} (h : ∀ key, available key = keys.count key)
    (hfits : delta.reused + delta.added + chunks.length < 2 ^ 64) :
    Tallied delta (chunks.foldl match_chunk (available, delta)).2 (chunk_keys chunks ∩ keys).card
      chunks.length := by
  induction chunks generalizing available delta keys with
  | nil => exact ⟨by simp [chunk_keys], rfl⟩
  | cons chunk chunks ih =>
    rw [List.length_cons] at hfits
    rw [List.foldl_cons, match_chunk, chunk_keys_cons, h]
    split
    next hleft =>
      rw [count_pos] at hleft
      -- one chunk of this key is used up
      have hnext : ∀ key, Function.update available (chunk_key chunk)
          (keys.count (chunk_key chunk) - 1) key = (keys.erase (chunk_key chunk)).count key := by
        intro key
        rw [Function.update_apply]
        split
        next hkey => rw [hkey, count_erase_self]
        next hkey => rw [count_erase_of_ne hkey, h]
      have hrest : Tallied { delta with reused := delta.reused + 1 } _ _ chunks.length :=
        ih hnext (show delta.reused + 1 + delta.added + chunks.length < _ by omega)
      rw [saturating_add, min_eq_left (by omega), cons_inter_of_pos _ hleft,
        card_cons]
      exact ⟨hrest.reused.trans (Nat.add_right_comm ..), hrest.total.trans (by simp; omega)⟩
    next hnone =>
      rw [count_pos] at hnone
      rw [saturating_add, min_eq_left (by omega), cons_inter_of_neg _ hnone]
      have hrest : Tallied { delta with
          added := delta.added + 1
          added_bytes := saturating_add delta.added_bytes chunk.size.toNat } _ _ chunks.length :=
        ih h (show delta.reused + (delta.added + 1) + chunks.length < _ by omega)
      exact ⟨hrest.reused, hrest.total.trans (by simp; omega)⟩

/-- What the counts of two files say about their chunks. -/
structure ChunkDelta.Accounts (delta : ChunkDelta) (before after : List Chunk) : Prop where
  reused : delta.reused = (chunk_keys after ∩ chunk_keys before).card
  after : delta.reused + delta.added = after.length
  before : delta.reused + delta.removed = before.length

variable {before after : Option WorkspaceFileRecord}

theorem chunk_delta_accounts
    (hbefore : (chunks_of before).length < 2 ^ 64) (hafter : (chunks_of after).length < 2 ^ 64) :
    (chunk_delta before after).Accounts (chunks_of before) (chunks_of after) := by
  have hcount := foldl_count_chunk (fun _ => (count_zero _).symm)
    (show card 0 + (chunks_of before).length < _ by simpa using hbefore)
  rw [zero_add] at hcount
  obtain ⟨hreused, htotal⟩ : Tallied {} _ _ (chunks_of after).length :=
    foldl_match_chunk hcount (by simpa using hafter)
  -- no more chunks are reused than there were
  have hle := card_le_card (inter_le_right (s := chunk_keys (chunks_of after))
    (t := chunk_keys (chunks_of before)))
  have hcard : (chunk_keys (chunks_of before)).card = (chunks_of before).length := by
    simp [chunk_keys]
  have hr : (chunk_delta before after).reused = 0 + _ := hreused
  have hremoved : (chunk_delta before after).removed =
      (chunks_of before).length - (chunk_delta before after).reused := by
    cases before with
    | none => exact (Nat.zero_sub _).symm
    | some before => exact congrArg (· - _) (min_eq_left (Nat.le_pred_of_lt hbefore))
  exact ⟨hr.trans (Nat.zero_add _), htotal.trans (by simp), by omega⟩

/-! ## Files -/

inductive FileChangeKind where
  | Added
  | Modified
  | Deleted
  deriving DecidableEq

structure FileStats where
  bytes : UInt64
  chunks : Nat
  deriving DecidableEq

structure DiffEntry where
  path : Text
  kind : FileChangeKind
  (before after : Option FileStats)
  chunks : ChunkDelta
  deriving DecidableEq

def file_stats (node : WorkspaceFileRecord) : FileStats :=
  ⟨node.total_size, min node.chunks.length (2 ^ 64 - 1)⟩

/-- The `match` of `compare_snapshots`. -/
def change_kind : Option WorkspaceFileRecord → Option WorkspaceFileRecord → Option FileChangeKind
  | none, some _ => some .Added
  | some _, none => some .Deleted
  | some before, some after => if before ≠ after then some .Modified else none
  | none, none => none

def compare_snapshots (base current : List WorkspaceFileRecord) : List DiffEntry :=
  let base := keyed (·.path) base
  let current := keyed (·.path) current
  let paths := Std.ExtTreeSet.ofList (base.keys ++ current.keys) (@compare Text LinearOrder.toOrd)
  paths.toList.filterMap fun path =>
    (change_kind base[path]? current[path]?).map fun kind =>
      ⟨path, kind, base[path]?.map file_stats, current[path]?.map file_stats,
        chunk_delta base[path]? current[path]?⟩

/-- What has become of a path. -/
inductive Changed (base current : List WorkspaceFileRecord) (path : Text) : FileChangeKind → Prop
  | added {after : WorkspaceFileRecord} (hbefore : ∀ file ∈ base, file.path ≠ path)
      (hafter : after ∈ current ∧ after.path = path) : Changed base current path .Added
  | deleted {before : WorkspaceFileRecord} (hbefore : before ∈ base ∧ before.path = path)
      (hafter : ∀ file ∈ current, file.path ≠ path) : Changed base current path .Deleted
  | modified {before after : WorkspaceFileRecord} (hbefore : before ∈ base ∧ before.path = path)
      (hafter : after ∈ current ∧ after.path = path) (hne : before ≠ after) :
      Changed base current path .Modified

variable {base current : List WorkspaceFileRecord} {path : Text}

theorem change_kind_iff {kind : FileChangeKind}
    (hbefore : ∀ file, before = some file ↔ file ∈ base ∧ file.path = path)
    (hafter : ∀ file, after = some file ↔ file ∈ current ∧ file.path = path) :
    change_kind before after = some kind ↔ Changed base current path kind := by
  have hnone : ∀ {files : List WorkspaceFileRecord} {file? : Option WorkspaceFileRecord},
      (∀ file, file? = some file ↔ file ∈ files ∧ file.path = path) →
      (file? = none ↔ ∀ file ∈ files, file.path ≠ path) := by
    intro files file? h
    rw [Option.eq_none_iff_forall_ne_some]
    exact forall_congr' fun file => by rw [Ne, h, not_and]
  constructor
  · intro h
    rw [change_kind.eq_def] at h
    split at h
    next after =>
      obtain rfl := Option.some.inj h
      exact .added ((hnone hbefore).mp rfl) ((hafter after).mp rfl)
    next before =>
      obtain rfl := Option.some.inj h
      exact .deleted ((hbefore before).mp rfl) ((hnone hafter).mp rfl)
    next before after =>
      split at h
      next hne =>
        obtain rfl := Option.some.inj h
        exact .modified ((hbefore before).mp rfl) ((hafter after).mp rfl) hne
      next => simp at h
    next => simp at h
  · intro h
    cases h with
    | added hno hyes => rw [(hnone hbefore).mpr hno, (hafter _).mpr hyes]; rfl
    | deleted hyes hno => rw [(hbefore _).mpr hyes, (hnone hafter).mpr hno]; rfl
    | modified hold hnew hne => rw [(hbefore _).mpr hold, (hafter _).mpr hnew]; exact if_pos hne

/-- **Main result**: a comparison lists every path that has changed once, in order, with its
change, and the chunks of two files are counted by the intersection of their multisets of
keys. A `Vec` has fewer than `2^64` elements. -/
theorem snapshots_compared_exactly {before after : Option WorkspaceFileRecord}
    (hbase : base.Pairwise (·.path < ·.path)) (hcurrent : current.Pairwise (·.path < ·.path))
    (hbefore : (chunks_of before).length < 2 ^ 64) (hafter : (chunks_of after).length < 2 ^ 64) :
    ((compare_snapshots base current).map (·.path)).Pairwise (· < ·) ∧
    (∀ path kind, (∃ entry ∈ compare_snapshots base current, entry.path = path ∧
      entry.kind = kind) ↔ Changed base current path kind) ∧
    (chunk_delta before after).Accounts (chunks_of before) (chunks_of after) := by
  refine ⟨?_, fun path kind => ?_, chunk_delta_accounts hbefore hafter⟩
  · rw [List.pairwise_map]
    refine Std.ExtTreeSet.ordered_toList.filterMap _ fun a b hlt entry hentry entry' hentry' => ?_
    obtain ⟨kind, -, rfl⟩ := Option.map_eq_some_iff.mp hentry
    obtain ⟨kind', -, rfl⟩ := Option.map_eq_some_iff.mp hentry'
    exact compare_lt_iff_lt.mp hlt
  · have hfind : ∀ {files : List WorkspaceFileRecord}, files.Pairwise (·.path < ·.path) →
        ∀ file, (keyed (·.path) files)[path]? = some file ↔ file ∈ files ∧ file.path = path :=
      fun hsorted file => getElem?_keyed (hsorted.imp fun h => h.ne)
    rw [← change_kind_iff (hfind hbase) (hfind hcurrent)]
    simp only [compare_snapshots, List.mem_filterMap, Option.map_eq_some_iff]
    constructor
    · rintro ⟨entry, ⟨path, -, kind, h, rfl⟩, rfl, rfl⟩
      exact h
    · intro h
      refine ⟨_, ⟨path, ?_, kind, h, rfl⟩, rfl, rfl⟩
      -- a path of neither snapshot has not changed
      by_contra hpath
      simp only [Std.ExtTreeSet.mem_toList, Std.ExtTreeSet.mem_ofList, List.contains_iff_mem,
        List.mem_append, Std.ExtTreeMap.mem_keys, not_or] at hpath
      rw [Std.ExtTreeMap.getElem?_eq_none hpath.1, Std.ExtTreeMap.getElem?_eq_none hpath.2] at h
      simp [change_kind] at h

/-! ### Two snapshots -/

/-- A file with chunks of one byte each. -/
def chunked (path : String) (bytes : List UInt8) : WorkspaceFileRecord where
  path := path.toList
  total_size := UInt64.ofNat bytes.length
  chunking := .FastCdc
  chunks := bytes.mapIdx fun offset byte => ⟨⟨digest_of_nat byte.toNat⟩, UInt64.ofNat offset, 1⟩

def compared_base : List WorkspaceFileRecord :=
  [chunked "d" [4], chunked "m" [1, 1, 1, 2], chunked "s" [5]]

def compared_current : List WorkspaceFileRecord :=
  [chunked "a" [4], chunked "m" [1, 1, 3], chunked "s" [5]]

/-- One file is added, one is deleted, one is modified and one stays. Of the chunks `1 1 1 2`, two
are reused for `1 1 3`. -/
theorem four_files_compared :
    let entries := compare_snapshots compared_base compared_current
    let delta := chunk_delta (some (chunked "m" [1, 1, 1, 2])) (some (chunked "m" [1, 1, 3]))
    (∃ entry ∈ entries, entry.path = ['a'] ∧ entry.kind = .Added) ∧
    (∃ entry ∈ entries, entry.path = ['d'] ∧ entry.kind = .Deleted) ∧
    (∃ entry ∈ entries, entry.path = ['m'] ∧ entry.kind = .Modified) ∧
    (∀ entry ∈ entries, entry.path ≠ ['s']) ∧
    delta.reused = 2 ∧ 2 + delta.added = 3 ∧ 2 + delta.removed = 4 := by
  intro entries delta
  obtain ⟨-, hkinds, haccounts⟩ := @snapshots_compared_exactly compared_base compared_current
    (some (chunked "m" [1, 1, 1, 2])) (some (chunked "m" [1, 1, 3])) (by decide) (by decide)
    (by decide) (by decide)
  have hreused : delta.reused = 2 := haccounts.reused.trans (by decide +kernel)
  refine ⟨(hkinds _ _).mpr ?_, (hkinds _ _).mpr ?_, (hkinds _ _).mpr ?_, ?_, hreused,
    hreused ▸ haccounts.after, hreused ▸ haccounts.before⟩
  · exact .added (by decide) ⟨.head _, rfl⟩
  · exact .deleted ⟨.head _, rfl⟩ (by decide)
  · exact .modified ⟨.tail _ (.head _), rfl⟩ ⟨.tail _ (.head _), rfl⟩ (by decide)
  · intro entry hentry hpath
    have hchanged := (hkinds ['s'] entry.kind).mp ⟨entry, hentry, hpath, rfl⟩
    generalize entry.kind = kind at hchanged
    cases hchanged with
    | added hbefore => exact absurd hbefore (by decide)
    | deleted _ hafter => exact absurd hafter (by decide)
    | modified hbefore hafter hne =>
      have hsame : ∀ before ∈ compared_base, ∀ after ∈ compared_current,
          before.path = ['s'] → after.path = ['s'] → before = after := by decide
      exact hne (hsame _ hbefore.1 _ hafter.1 hbefore.2 hafter.2)

end NeoEngram.Local

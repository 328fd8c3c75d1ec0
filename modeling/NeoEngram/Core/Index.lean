import NeoEngram.Core.Manifest

/-! # Index snapshots and deltas

An Index snapshot is a sorted list of file records, one per path. A delta
turns one snapshot into another: a list of mutations in path order, carried
in bounded pages. This file embeds `models/index.rs`. A snapshot has no path
that is an ancestor of another one; a delta may have such a pair, to replace a
file by a directory or a directory by a file.
-/

namespace NeoEngram

open Checks

variable {U : UnicodeTables}

def WORKSPACE_INDEX_FORMAT_VERSION : UInt32 := 9

def MAX_INDEX_MUTATIONS_PER_PAGE : Nat := 4096

/-- The version of an Index snapshot: a revision and the digest of its content. -/
structure IndexVersion where
  revision : UInt64
  digest : ContentDigest
  deriving DecidableEq

/-! ## Snapshots -/

/-- Accepts a complete Index snapshot in path order. -/
def validate_index_snapshot (records : List (FileRecord U)) : ValidationResult Unit := do
  records.forM FileRecord.validate
  (validate_path_set (records.map (·.path))).mapError fun error =>
    ⟨.InvalidIndex, s!"invalid Index snapshot: {error.message}"⟩

variable {records : List (FileRecord U)}

theorem validate_index_snapshot_eq_ok :
    validate_index_snapshot records = .ok () ↔ (∀ record ∈ records, record.validate = .ok ()) ∧
      records.Pairwise (fun a b => a.path < b.path) ∧
      records.Pairwise fun a b => ¬ PathsConflict a.path b.path := by
  unfold validate_index_snapshot
  simp only [ok_iff, forM_eq_ok, mapError_eq_ok, validate_path_set_eq_ok, List.pairwise_map]

theorem not_conflict_of_mem
    (hvalid : validate_index_snapshot records = .ok ()) {a b : FileRecord U} (ha : a ∈ records)
    (hb : b ∈ records) (hne : a.path ≠ b.path) : ¬ PathsConflict a.path b.path := by
  obtain ⟨-, -, hpair⟩ := validate_index_snapshot_eq_ok.mp hvalid
  have : Std.Symm fun x y : FileRecord U => ¬ PathsConflict x.path y.path :=
    ⟨fun _ _ h hc => h hc.symm⟩
  exact hpair.forall ha hb fun hab => hne (congrArg FileRecord.path hab)

/-! ## Mutations -/

inductive IndexMutation (U : UnicodeTables) where
  | Upsert (record : FileRecord U)
  | Delete (path : LogicalPath U)
  deriving DecidableEq

namespace IndexMutation

def path : IndexMutation U → LogicalPath U
  | .Upsert record => record.path
  | .Delete path => path

def validate : IndexMutation U → ValidationResult Unit
  | .Upsert record => record.validate
  | .Delete _ => .ok ()

end IndexMutation

def validate_index_mutation_paths_from (previous : Option (LogicalPath U))
    (portable_paths : Std.ExtTreeSet PortableKey) : List (LogicalPath U) → ValidationResult Unit
  | [] => .ok ()
  | path :: paths => do
    ensure (previous.all (· < path))
      ⟨.InvalidIndex, s!"Index mutations must be strictly ordered by path: {path}"⟩
    ensure (path.portable_key ∉ portable_paths)
      ⟨.InvalidIndex, s!"Index mutations collide under portable case rules: {path}"⟩
    validate_index_mutation_paths_from (some path) (portable_paths.insert path.portable_key) paths

/-- Accepts strictly ordered, portable-unique paths; ancestors are allowed. -/
def validate_index_mutation_paths (paths : List (LogicalPath U)) : ValidationResult Unit :=
  validate_index_mutation_paths_from none ∅ paths

variable {paths : List (LogicalPath U)}

theorem validate_index_mutation_paths_from_eq_ok {previous : Option (LogicalPath U)}
    {keys : Std.ExtTreeSet PortableKey} :
    validate_index_mutation_paths_from previous keys paths = .ok () ↔
      (previous.toList ++ paths).IsChain (· < ·) ∧ (∀ path ∈ paths, path.portable_key ∉ keys) ∧
      paths.Pairwise fun a b => a.portable_key ≠ b.portable_key := by
  induction paths generalizing previous keys with
  | nil => cases previous <;> simp [validate_index_mutation_paths_from]
  | cons path paths ih =>
    have hkeys : (∀ p ∈ paths, p.portable_key ∉ keys.insert path.portable_key) ↔
        (∀ p ∈ paths, p.portable_key ∉ keys) ∧
          ∀ p ∈ paths, path.portable_key ≠ p.portable_key := by
      simp only [Std.ExtTreeSet.mem_insert, compare_eq_iff_eq, not_or]
      exact ⟨fun h => ⟨fun p hp => (h p hp).2, fun p hp => (h p hp).1⟩,
        fun h p hp => ⟨h.2 p hp, h.1 p hp⟩⟩
    simp only [validate_index_mutation_paths_from, ok_iff, ih, hkeys, isChain_cons_iff,
      List.forall_mem_cons, List.pairwise_cons]
    tauto

/-- The mutation paths accepted are the strictly sorted ones with distinct portable keys. -/
theorem validate_index_mutation_paths_eq_ok : validate_index_mutation_paths paths = .ok () ↔
      paths.Pairwise (· < ·) ∧ paths.Pairwise fun a b => a.portable_key ≠ b.portable_key := by
  rw [validate_index_mutation_paths, validate_index_mutation_paths_from_eq_ok]
  simp [List.isChain_iff_pairwise]

/-! ## Deltas and their pages -/

structure IndexDeltaPage (U : UnicodeTables) where
  page_number : UInt32
  mutations : List (IndexMutation U)
  deriving DecidableEq

def IndexDeltaPage.validate (self : IndexDeltaPage U) : ValidationResult Unit := do
  ensure (self.mutations ≠ [])
    ⟨.InvalidIndex, s!"Index delta page {self.page_number} cannot be empty"⟩
  ensure (self.mutations.length ≤ MAX_INDEX_MUTATIONS_PER_PAGE)
    ⟨.InvalidIndex, s!"Index delta page {self.page_number} contains more than " ++
      s!"{MAX_INDEX_MUTATIONS_PER_PAGE} mutations"⟩
  self.mutations.forM IndexMutation.validate
  validate_index_mutation_paths (self.mutations.map IndexMutation.path)

/-- A sequence of mutations in bounded pages, with the versions it leads from and to. -/
structure IndexDelta (U : UnicodeTables) where
  base_version : IndexVersion
  pages : List (IndexDeltaPage U)
  result_digest : ContentDigest
  deriving DecidableEq

namespace IndexDelta

def iter (self : IndexDelta U) : List (IndexMutation U) := self.pages.flatMap (·.mutations)

/-- The page loop of `IndexDelta::validate`, from page number `expected` on. -/
def validate_pages_from (expected : Nat) : List (IndexDeltaPage U) → ValidationResult Unit
  | [] => .ok ()
  | page :: pages => do
    let number ← ok_or (u32_try_from expected) ⟨.Overflow, "Index delta page count exceeds u32"⟩
    ensure (page.page_number = number)
      ⟨.InvalidIndex, s!"Index delta pages must be consecutive from zero: expected {number}, " ++
        s!"observed {page.page_number}"⟩
    page.validate
    validate_pages_from (expected + 1) pages

def validate (self : IndexDelta U) : ValidationResult Unit := do
  validate_pages_from 0 self.pages
  validate_index_mutation_paths (self.iter.map IndexMutation.path)

def from_pages (base_version : IndexVersion) (pages : List (IndexDeltaPage U))
    (result_digest : ContentDigest) : ValidationResult (IndexDelta U) := do
  let delta : IndexDelta U := ⟨base_version, pages, result_digest⟩
  delta.validate
  return delta

/-- The paging loop of `IndexDelta::new`. Each round takes a mutation, so their number bounds the
rounds. -/
def cut_pages : Nat → Nat → List (IndexMutation U) → ValidationResult (List (IndexDeltaPage U))
  | 0, _, _ => .ok []
  | rounds + 1, page_count, mutations =>
    if mutations = [] then .ok []
    else do
      let page_number ← ok_or (u32_try_from page_count)
        ⟨.Overflow, "Index delta page count exceeds u32"⟩
      let pages ← cut_pages rounds (page_count + 1) (mutations.drop MAX_INDEX_MUTATIONS_PER_PAGE)
      return ⟨page_number, mutations.take MAX_INDEX_MUTATIONS_PER_PAGE⟩ :: pages

def new (base_version : IndexVersion) (mutations : List (IndexMutation U))
    (result_digest : ContentDigest) : ValidationResult (IndexDelta U) := do
  let pages ← cut_pages mutations.length 0 mutations
  from_pages base_version pages result_digest

end IndexDelta

end NeoEngram

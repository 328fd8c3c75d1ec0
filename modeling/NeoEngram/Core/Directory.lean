import NeoEngram.Core.Path

/-! # Directories and Commits

A Directory is an immutable list of children in name order, each a file
Manifest or another Directory, named by its identity. A Commit names a root
Directory.
-/

namespace NeoEngram

open Checks

variable {U : UnicodeTables}

/-! ### Directory entries -/

inductive DirectoryEntryKind where
  | File
  | Directory
  deriving DecidableEq, Repr

inductive DirectoryEntryTarget where
  | Manifest (id : ManifestId)
  | Directory (id : DirectoryId)
  deriving DecidableEq

namespace DirectoryEntryTarget

def kind : DirectoryEntryTarget → DirectoryEntryKind
  | .Manifest _ => .File
  | .Directory _ => .Directory

def as_bytes : DirectoryEntryTarget → List UInt8
  | .Manifest id => id.as_bytes
  | .Directory id => id.as_bytes

end DirectoryEntryTarget

structure DirectoryEntry (U : UnicodeTables) where
  ordinal : UInt64
  name : PathComponent U
  kind : DirectoryEntryKind
  target_id : DirectoryEntryTarget
  total_size : UInt64
  deriving DecidableEq

namespace DirectoryEntry

def file (ordinal : UInt64) (name : PathComponent U) (manifest_id : ManifestId)
    (total_size : UInt64) : DirectoryEntry U :=
  ⟨ordinal, name, .File, .Manifest manifest_id, total_size⟩

def directory (ordinal : UInt64) (name : PathComponent U) (directory_id : DirectoryId) :
    DirectoryEntry U :=
  ⟨ordinal, name, .Directory, .Directory directory_id, 0⟩

def validate (self : DirectoryEntry U) : ValidationResult Unit := do
  ensure (self.kind = self.target_id.kind)
    ⟨.InvalidDirectory, s!"Directory entry kind and target disagree: {self.name}"⟩
  ensure (¬ (self.kind = .Directory ∧ self.total_size ≠ 0))
    ⟨.InvalidDirectory, s!"child Directory entry carries a file size: {self.name}"⟩

end DirectoryEntry

/-! ### Directories -/

structure Directory (U : UnicodeTables) where
  entries : List (DirectoryEntry U)
  deriving DecidableEq

namespace Directory

/-- The loop of `Directory::validate`, from position `expected_ordinal` on. -/
def validate_from (expected_ordinal : Nat) (previous_name : Option (PathComponent U))
    (portable_names : Std.ExtTreeSet PortableKey) : List (DirectoryEntry U) → ValidationResult Unit
  | [] => .ok ()
  | entry :: entries => do
    entry.validate
    let expected ← ok_or (u64_try_from expected_ordinal)
      ⟨.Overflow, "Directory entry count exceeds u64"⟩
    ensure (entry.ordinal = expected)
      ⟨.InvalidDirectory, s!"Directory entry ordinal is not contiguous: {entry.name}"⟩
    ensure (previous_name.all (· < entry.name))
      ⟨.InvalidDirectory, s!"Directory entries must be strictly ordered by name: {entry.name}"⟩
    ensure (⟨entry.name.portable_key⟩ ∉ portable_names) ⟨.InvalidDirectory,
        s!"Directory entry names collide under portable case rules: {entry.name}"⟩
    validate_from (expected_ordinal + 1) (some entry.name)
      (portable_names.insert ⟨entry.name.portable_key⟩) entries

def validate (self : Directory U) : ValidationResult Unit := validate_from 0 none ∅ self.entries

def new (entries : List (DirectoryEntry U)) : ValidationResult (Directory U) := do
  let directory : Directory U := ⟨entries⟩
  directory.validate
  return directory

/-- Entries carry their positions, counted from `first`. -/
def OrdinalsFrom : Nat → List (DirectoryEntry U) → Prop
  | _, [] => True
  | first, entry :: entries => entry.ordinal.toNat = first ∧ OrdinalsFrom (first + 1) entries

theorem validate_from_eq_ok {first : Nat} {previous_name : Option (PathComponent U)}
    {names : Std.ExtTreeSet PortableKey} {entries : List (DirectoryEntry U)} :
    validate_from first previous_name names entries = .ok () ↔
      (∀ entry ∈ entries, entry.validate = .ok ()) ∧ OrdinalsFrom first entries ∧
      (previous_name.toList ++ entries.map (·.name)).IsChain (· < ·) ∧
      (∀ entry ∈ entries, (⟨entry.name.portable_key⟩ : PortableKey) ∉ names) ∧
      entries.Pairwise fun a b => a.name.portable_key ≠ b.name.portable_key := by
  induction entries generalizing first previous_name names with
  | nil => cases previous_name <;> simp [validate_from, OrdinalsFrom]
  | cons entry entries ih =>
    have hnames : (∀ e ∈ entries, (⟨e.name.portable_key⟩ : PortableKey) ∉
          names.insert ⟨entry.name.portable_key⟩) ↔
        (∀ e ∈ entries, (⟨e.name.portable_key⟩ : PortableKey) ∉ names) ∧
          ∀ e ∈ entries, entry.name.portable_key ≠ e.name.portable_key := by
      simp only [Std.ExtTreeSet.mem_insert, compare_eq_iff_eq, PortableKey.mk.injEq, not_or]
      constructor
      · intro h
        exact ⟨fun e he => (h e he).2, fun e he => (h e he).1⟩
      · rintro ⟨hold, hnew⟩ e he
        exact ⟨hnew e he, hold e he⟩
    simp only [validate_from, ok_iff, u64_try_from_eq_some, ih, hnames, List.map_cons,
      isChain_cons_iff, OrdinalsFrom, List.forall_mem_cons, List.pairwise_cons]
    constructor
    · rintro ⟨hvalid, expected, hexpected, hordinal, hlt, hfresh, hvalids, hordinals, hsorted,
        ⟨hold, hhead⟩, htail⟩
      exact ⟨⟨hvalid, hvalids⟩, ⟨by rw [hordinal, hexpected], hordinals⟩, ⟨hlt, hsorted⟩,
        ⟨hfresh, hold⟩, hhead, htail⟩
    · rintro ⟨⟨hvalid, hvalids⟩, ⟨hordinal, hordinals⟩, ⟨hlt, hsorted⟩, ⟨hfresh, hold⟩, hhead,
        htail⟩
      exact ⟨hvalid, entry.ordinal, hordinal, rfl, hlt, hfresh, hvalids, hordinals, hsorted,
        ⟨hold, hhead⟩, htail⟩

/-- `Directory::validate` accepts exactly the lists of valid entries at their positions, strictly
ordered by name, with distinct portable names. -/
theorem validate_eq_ok {self : Directory U} : self.validate = .ok () ↔
      (∀ entry ∈ self.entries, entry.validate = .ok ()) ∧ OrdinalsFrom 0 self.entries ∧
      (self.entries.map (·.name)).Pairwise (· < ·) ∧
      self.entries.Pairwise fun a b => a.name.portable_key ≠ b.name.portable_key := by
  rw [validate, validate_from_eq_ok]
  simp [List.isChain_iff_pairwise]

end Directory

/-! ### Commits -/

structure Commit where
  root_directory_id : DirectoryId
  parent : Option CommitId
  message : Text
  created_at_unix_ms : UInt64
  deriving DecidableEq

/-- The characters with the Unicode property White_Space. -/
def is_whitespace (c : Char) : Bool :=
  ('\u0009' ≤ c && c ≤ '\u000d') || ('\u2000' ≤ c && c ≤ '\u200a') ||
    c ∈ [' ', '\u0085', '\u00a0', '\u1680', '\u2028', '\u2029', '\u202f', '\u205f', '\u3000']

namespace Commit

def validate (self : Commit) : ValidationResult Unit :=
  -- a trimmed message is empty exactly when every character is white space
  ensure (¬ self.message.all is_whitespace)
    ⟨.InvalidCommit, "Commit message must not be empty or whitespace"⟩

def new (root_directory_id : DirectoryId) (parent : Option CommitId) (message : Text)
    (created_at_unix_ms : UInt64) : ValidationResult Commit := do
  let commit : Commit := ⟨root_directory_id, parent, message, created_at_unix_ms⟩
  commit.validate
  return commit

end Commit

end NeoEngram

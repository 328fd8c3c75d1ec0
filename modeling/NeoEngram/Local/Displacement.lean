import NeoEngram.Core.Strings

/-! # Displacement roots of a forced checkout

Before a forced checkout writes its targets, the files and directories in
their way are moved aside as a whole (`worktree/checkout.rs`). The set of the
paths to move holds no path together with one below it.
-/

namespace NeoEngram.Local

open List
open Std (ExtTreeSet)

abbrev PathSet := ExtTreeSet Text (@compare Text LinearOrder.toOrd)

def path_is_same_or_descendant (path root : Text) : Bool :=
  path = root || (strip_front root path).any (·.head? = some '/')

def insert_displacement (displacements : PathSet) (candidate : Text) : PathSet :=
  if displacements.toList.any (path_is_same_or_descendant candidate ·) then displacements
  else (displacements.filter fun root =>
    !path_is_same_or_descendant root candidate).insert candidate

/-- `path` is `root` or lies below it, with a `/` between them. -/
def Covers (root path : Text) : Prop := path = root ∨ ∃ rest, path = root ++ '/' :: rest

variable {root path other : Text}

theorem path_is_same_or_descendant_iff :
    path_is_same_or_descendant path root = true ↔ Covers root path := by
  simp only [path_is_same_or_descendant, Bool.or_eq_true, decide_eq_true_eq, Option.any_eq_true,
    strip_front_eq_some, head?_eq_some_iff, Covers]
  constructor
  · rintro (h | ⟨_, rfl, rest, rfl⟩)
    · exact .inl h
    · exact .inr ⟨rest, rfl⟩
  · rintro (h | ⟨rest, rfl⟩)
    · exact .inl h
    · exact .inr ⟨_, rfl, rest, rfl⟩

theorem Covers.trans (h : Covers root path) (h' : Covers path other) : Covers root other := by
  rcases h with rfl | ⟨rest, rfl⟩
  · exact h'
  · rcases h' with rfl | ⟨rest', rfl⟩
    · exact .inr ⟨rest, rfl⟩
    · exact .inr ⟨rest ++ '/' :: rest', by simp⟩

theorem Covers.antisymm (h : Covers root path) (h' : Covers path root) : path = root := by
  rcases h with h | ⟨rest, rfl⟩
  · exact h
  · rcases h' with h' | ⟨rest', h'⟩
    · exact h'.symm
    · have hlength := congrArg List.length h'
      simp only [length_append, length_cons] at hlength
      omega

/-- The roots of the paths seen so far: an antichain of them that covers them all. -/
structure Roots (seen : List Text) (roots : PathSet) : Prop where
  listed : ∀ root ∈ roots, root ∈ seen
  apart : ∀ root ∈ roots, ∀ other ∈ roots, Covers root other → other = root
  covers : ∀ path ∈ seen, ∃ root ∈ roots, Covers root path

variable {seen : List Text} {roots : PathSet}

theorem Roots.mem_iff (h : Roots seen roots) :
    path ∈ roots ↔ path ∈ seen ∧ ∀ other ∈ seen, Covers other path → other = path := by
  constructor
  · intro hpath
    refine ⟨h.listed path hpath, fun other hother hcovers => ?_⟩
    -- the root that covers `other` covers `path` as well, and so is `path`
    obtain ⟨root, hroot, hcovers'⟩ := h.covers other hother
    obtain rfl := h.apart root hroot path hpath (hcovers'.trans hcovers)
    exact hcovers'.antisymm hcovers
  · intro ⟨hpath, hminimal⟩
    obtain ⟨root, hroot, hcovers⟩ := h.covers path hpath
    exact hminimal root (h.listed root hroot) hcovers ▸ hroot

theorem mem_insert_displacement (h : ∀ root ∈ roots, ¬ Covers root path) :
    other ∈ insert_displacement roots path ↔ other = path ∨ other ∈ roots ∧
      ¬ Covers path other := by
  have hnone : roots.toList.any (path_is_same_or_descendant path ·) = false := by
    simpa [← path_is_same_or_descendant_iff] using h
  rw [insert_displacement, hnone, if_neg Bool.false_ne_true, ExtTreeSet.mem_insert,
    compare_eq_iff_eq, eq_comm, ExtTreeSet.mem_filter]
  simp [ExtTreeSet.get_eq, ← path_is_same_or_descendant_iff]

/-- **Step**: the roots after one more candidate. -/
theorem Roots.insert (h : Roots seen roots) (path : Text) :
    Roots (seen ++ [path]) (insert_displacement roots path) := by
  by_cases hcovered : ∃ root ∈ roots, Covers root path
  · have hsame : insert_displacement roots path = roots := by
      rw [insert_displacement, if_pos]
      simpa [← path_is_same_or_descendant_iff] using hcovered
    rw [hsame]
    refine ⟨fun root hroot => mem_append_left _ (h.listed root hroot), h.apart, ?_⟩
    intro other hother
    rcases mem_append.mp hother with hother | hother
    · exact h.covers other hother
    · rw [mem_singleton.mp hother]
      exact hcovered
  · simp only [not_exists, not_and] at hcovered
    have hmem : ∀ {other}, other ∈ insert_displacement roots path ↔
        other = path ∨ other ∈ roots ∧ ¬ Covers path other := mem_insert_displacement hcovered
    constructor
    · intro root hroot
      rcases hmem.mp hroot with rfl | ⟨hroot, -⟩
      · simp
      · exact mem_append_left _ (h.listed root hroot)
    · intro root hroot other hother hcovers
      rcases hmem.mp hroot with rfl | ⟨hold, -⟩
      · exact (hmem.mp hother).elim id fun hother => absurd hcovers hother.2
      · rcases hmem.mp hother with rfl | ⟨hother, -⟩
        · exact absurd hcovers (hcovered root hold)
        · exact h.apart root hold other hother hcovers
    · intro other hother
      rcases mem_append.mp hother with hother | hother
      · obtain ⟨root, hroot, hcovers⟩ := h.covers other hother
        by_cases hevicted : Covers path root
        · exact ⟨path, hmem.mpr (.inl rfl), hevicted.trans hcovers⟩
        · exact ⟨root, hmem.mpr (.inr ⟨hroot, hevicted⟩), hcovers⟩
      · exact ⟨path, hmem.mpr (.inl rfl), .inl (mem_singleton.mp hother)⟩

/-- **Run**: the roots of all the candidates. -/
theorem Roots.foldl (h : Roots seen roots) (candidates : List Text) :
    Roots (seen ++ candidates) (candidates.foldl insert_displacement roots) := by
  induction candidates generalizing seen roots with
  | nil => simpa using h
  | cons path candidates ih => simpa using ih (h.insert path)

/-- **Displacement roots**: the candidates that no other candidate covers, whatever their order. -/
theorem displacement_roots (candidates : List Text) :
    (∀ path, path ∈ candidates.foldl insert_displacement ∅ ↔
      path ∈ candidates ∧ ∀ other ∈ candidates, Covers other path → other = path) ∧
    (∀ root ∈ candidates.foldl insert_displacement ∅,
      ∀ other ∈ candidates.foldl insert_displacement ∅, Covers root other → other = root) ∧
    (∀ path ∈ candidates, ∃ root ∈ candidates.foldl insert_displacement ∅, Covers root path) ∧
    ∀ reordered : List Text, reordered.Perm candidates →
      reordered.foldl insert_displacement ∅ = candidates.foldl insert_displacement ∅ := by
  have hroots : ∀ l : List Text, Roots l (l.foldl insert_displacement ∅) := by
    have hempty : Roots [] ∅ := ⟨by simp, by simp, by simp⟩
    exact hempty.foldl
  refine ⟨fun _ => (hroots candidates).mem_iff, (hroots candidates).apart,
    (hroots candidates).covers, fun reordered hperm => ?_⟩
  refine ExtTreeSet.ext_mem fun path => ?_
  simp only [(hroots _).mem_iff, hperm.mem_iff]

end NeoEngram.Local

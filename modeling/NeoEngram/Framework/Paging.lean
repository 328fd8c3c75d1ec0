import NeoEngram.Framework.OrderedKeys

/-! # Pages of sorted data

A sorted list is read in pages: a page is cut after `limit` elements, and
the key of its last element is the cursor of the next page.
-/

namespace Paging

open Std (ExtTreeMap)
open OrderedKeys List Option

variable {κ α : Type} [LinearOrder κ] {key : α → κ}

/-! ## Cursors -/

def after_cursor (key : α → κ) (after : Option κ) (l : List α) : List α :=
  l.filter fun a => after.all (· < key a)

/-- The cursor of the page after the first `limit` elements, if there are more of them. -/
def next_cursor (key : α → κ) (limit : Nat) (l : List α) : Option κ :=
  if limit < l.length then (l.take limit).getLast?.map key else none

variable {a : α} {l : List α}

@[simp] theorem after_cursor_none (l : List α) : after_cursor key none l = l := by
  simp [after_cursor]

variable {after : Option κ}

theorem mem_after_cursor : a ∈ after_cursor key after l ↔ a ∈ l ∧ ∀ c ∈ after, c < key a := by
  simp [after_cursor, Option.all_eq_true]

theorem after_cursor_sorted (after : Option κ) (h : l.Pairwise (key · < key ·)) :
    (after_cursor key after l).Pairwise (key · < key ·) :=
  h.sublist filter_sublist

theorem after_cursor_append {before rest : List α}
    (h : (before ++ a :: rest).Pairwise (key · < key ·)) :
    after_cursor key (some (key a)) (before ++ a :: rest) = rest := by
  obtain ⟨-, hrest, hbefore⟩ := pairwise_append.mp h
  have hlow : ∀ b ∈ before, key b < key a := fun b hb => hbefore b hb a mem_cons_self
  have hhigh : ∀ b ∈ rest, key a < key b := (pairwise_cons.mp hrest).1
  have hnone : before.filter (fun b => decide (key a < key b)) = [] := by
    simpa [filter_eq_nil_iff] using fun b hb => (hlow b hb).le
  have hall : rest.filter (fun b => decide (key a < key b)) = rest := by
    simpa [filter_eq_self] using hhigh
  simp [after_cursor, hnone, hall]

variable {limit : Nat}

/-- The next cursor leaves what the page has cut off. -/
theorem after_cursor_next {next : κ} (h : l.Pairwise (key · < key ·))
    (hnext : next_cursor key limit (after_cursor key after l) = some next) :
    after_cursor key (some next) l = (after_cursor key after l).drop limit := by
  unfold next_cursor at hnext
  split at hnext
  · next hmore =>
    obtain ⟨a, ha, rfl⟩ := map_eq_some_iff.mp hnext
    obtain ⟨before, hbefore⟩ := getLast?_eq_some_iff.mp ha
    have hsplit := take_append_drop limit (after_cursor key after l)
    rw [hbefore, append_assoc, singleton_append] at hsplit
    have hbehind : ∀ c ∈ after, c < key a := by
      have hmem : a ∈ after_cursor key after l := by rw [← hsplit]; simp
      exact (mem_after_cursor.mp hmem).2
    -- the two cursors together are the later one
    have htwice : after_cursor key (some (key a)) (after_cursor key after l) =
        after_cursor key (some (key a)) l := by
      simp only [after_cursor, List.filter_filter, all_some]
      refine filter_congr fun b _ => ?_
      rw [Bool.and_eq_left_iff_imp]
      intro hb
      simp only [Option.all_eq_true, decide_eq_true_eq] at hb ⊢
      exact fun c hc => (hbehind c hc).trans hb
    have hsorted := after_cursor_sorted after h
    rw [← htwice]
    nth_rewrite 1 [← hsplit]
    rw [← hsplit] at hsorted
    exact after_cursor_append hsorted
  · cases hnext

omit [LinearOrder κ] in
/-- A page with a cursor is full, and leaves less to read. -/
theorem length_of_next_cursor {next : κ}
    (hnext : next_cursor key limit l = some next) : limit < l.length := by
  unfold next_cursor at hnext
  split at hnext
  · assumption
  · cases hnext

omit [LinearOrder κ] in
theorem length_le_of_no_next (hlimit : 0 < limit)
    (hnext : next_cursor key limit l = none) : l.length ≤ limit := by
  by_contra hmore
  have hmore : limit < l.length := by omega
  rw [next_cursor, if_pos hmore, map_eq_none_iff, getLast?_eq_none_iff] at hnext
  have hlength := congrArg List.length hnext
  simp only [length_take, length_nil] at hlength
  omega

/-! ## The least entries -/

def pop_last {ν : Type} (t : ExtTreeMap κ ν) : ExtTreeMap κ ν :=
  match t.maxKey? with
  | some k => t.erase k
  | none => t

/-- `t` holds the least `bound` of the elements seen, each under its key. -/
structure Keeps (key : α → κ) (bound : Nat) (seen : α → Prop) (t : ExtTreeMap κ α) : Prop where
  keyed : KeyedBy key t
  sound : ∀ a, t[key a]? = some a → seen a
  /-- An element is left out only for `bound` smaller ones. -/
  above : ∀ a, seen a → t[key a]? ≠ some a → t.size = bound ∧ ∀ k ∈ t, k < key a
  size_le : t.size ≤ bound

variable {t : ExtTreeMap κ α}

theorem le_of_maxKey? {top : κ} (h : t.maxKey? = some top) : top ∈ t ∧ ∀ k ∈ t, k ≤ top := by
  obtain ⟨hmem, hmax⟩ := ExtTreeMap.maxKey?_eq_some_iff_mem_and_forall.mp h
  exact ⟨hmem, fun k hk => compare_le_iff_le.mp (Ordering.isLE_iff_ne_gt.mp (hmax k hk))⟩

theorem exists_maxKey? (h : 0 < t.size) : ∃ top, t.maxKey? = some top := by
  cases hmax : t.maxKey? with
  | some top => exact ⟨top, rfl⟩
  | none =>
    rw [ExtTreeMap.maxKey?_eq_none_iff] at hmax
    simp [hmax] at h

theorem mem_iff_exists {k : κ} : k ∈ t ↔ ∃ a, t[k]? = some a := by
  rw [ExtTreeMap.mem_iff_isSome_getElem?, isSome_iff_exists]

/-- A new element is inserted, and the last one dropped if there are too many. -/
def insert_least (bound : Nat) (t : ExtTreeMap κ α) (k : κ) (a : α) : ExtTreeMap κ α :=
  let t := t.insert k a
  if bound < t.size then pop_last t else t

variable {bound : Nat}

theorem size_insert_new {k : κ} (h : k ∉ t) : (t.insert k a).size = t.size + 1 := by
  have hcontains : ¬ t.contains k = true := fun hc => h (ExtTreeMap.mem_iff_contains.mpr hc)
  rw [ExtTreeMap.size_insert, if_neg hcontains]

theorem mem_insert_iff {j k : κ} : j ∈ t.insert k a ↔ j = k ∨ j ∈ t := by
  rw [ExtTreeMap.mem_insert, compare_eq_iff_eq, eq_comm]

theorem Keeps.empty (bound : Nat) : Keeps key bound (fun _ => False) ∅ where
  keyed := .empty
  sound := by simp
  above := by simp
  size_le := by simp

variable {seen : α → Prop}

/-- Elements above a full map can be left out. -/
theorem Keeps.extend {seen' : α → Prop} (h : Keeps key bound seen t) (hmore : ∀ a, seen a → seen' a)
    (hnew : ∀ a, seen' a → ¬ seen a → t.size = bound ∧ ∀ k ∈ t, k < key a) :
    Keeps key bound seen' t where
  keyed := h.keyed
  sound := fun a ha => hmore a (h.sound a ha)
  above := by
    intro a ha hout
    by_cases hseen : seen a
    · exact h.above a hseen hout
    · exact hnew a ha hseen
  size_le := h.size_le

section

variable (h : Keeps key bound seen t) (hfresh : ∀ b, seen b → key b ≠ key a)

include h hfresh

theorem Keeps.not_mem : key a ∉ t := by
  intro hmem
  obtain ⟨b, hb⟩ := mem_iff_exists.mp hmem
  have hkey := h.keyed _ _ hb
  exact hfresh b (h.sound b (hkey ▸ hb)) hkey

theorem Keeps.insert_room (hroom : t.size < bound) :
    Keeps key bound (fun b => b = a ∨ seen b) (t.insert (key a) a) := by
  have hsize := size_insert_new (a := a) (h.not_mem hfresh)
  refine ⟨h.keyed.insert a, ?_, ?_, by omega⟩
  · intro b hb
    rw [getElem?_insert_eq] at hb
    split at hb
    · exact .inl (Option.some.inj hb).symm
    · exact .inr (h.sound b hb)
  · intro b hb hnot
    -- nothing was left out so far
    exfalso
    apply hnot
    rw [getElem?_insert_eq]
    rcases hb with rfl | hb
    · exact if_pos rfl
    · rw [if_neg (hfresh b hb).symm]
      by_contra hleft
      have hfull := (h.above b hb hleft).1
      omega

/-- One step of the merge: the least of what was seen and the new element. -/
theorem Keeps.insert :
    Keeps key bound (fun b => b = a ∨ seen b) (insert_least bound t (key a) a) := by
  have hsize := size_insert_new (a := a) (h.not_mem hfresh)
  by_cases hroom : t.size < bound
  · have hkeep : insert_least bound t (key a) a = t.insert (key a) a := by
      simp only [insert_least, if_neg (show ¬ bound < (t.insert (key a) a).size by omega)]
    rw [hkeep]
    exact h.insert_room hfresh hroom
  · have hfull : t.size = bound := by have := h.size_le; omega
    obtain ⟨top, htop⟩ := exists_maxKey? (show 0 < (t.insert (key a) a).size by omega)
    have hpop : insert_least bound t (key a) a = (t.insert (key a) a).erase top := by
      simp only [insert_least, pop_last, htop,
        if_pos (show bound < (t.insert (key a) a).size by omega)]
    obtain ⟨hmem, hmax⟩ := le_of_maxKey? htop
    have hcount : ((t.insert (key a) a).erase top).size = bound := by
      rw [ExtTreeMap.size_erase, if_pos (ExtTreeMap.mem_iff_contains.mp hmem)]
      omega
    rw [hpop]
    refine ⟨(h.keyed.insert a).erase top, ?_, ?_, by omega⟩
    · intro b hb
      rw [getElem?_erase_eq, getElem?_insert_eq] at hb
      split at hb
      · cases hb
      · split at hb
        · exact .inl (Option.some.inj hb).symm
        · exact .inr (h.sound b hb)
    · intro b hb hnot
      refine ⟨hcount, fun k hk => ?_⟩
      have hne : k ≠ top := by
        rintro rfl
        simp at hk
      have hk' : k ∈ t.insert (key a) a := ExtTreeMap.mem_of_mem_erase hk
      have hlt : k < top := lt_of_le_of_ne (hmax k hk') hne
      -- the element left out is the last one, or was above the full map
      by_cases hb_top : key b = top
      · exact hb_top ▸ hlt
      · have hnot' : (t.insert (key a) a)[key b]? ≠ some b := by
          rwa [getElem?_erase_eq, if_neg (Ne.symm hb_top)] at hnot
        rcases hb with rfl | hb
        · exact absurd (by rw [getElem?_insert_eq, if_pos rfl]) hnot'
        · have hbelow : ∀ j ∈ t, j < key b := by
            rw [getElem?_insert_eq, if_neg (hfresh b hb).symm] at hnot'
            exact (h.above b hb hnot').2
          rcases mem_insert_iff.mp hk' with rfl | hk'
          · rcases mem_insert_iff.mp hmem with rfl | hmem
            · exact absurd rfl hne
            · exact hlt.trans (hbelow top hmem)
          · exact hbelow k hk'

end

/-- A sorted part of a sorted list that leaves out only larger elements begins the list. -/
theorem prefix_of_sorted {part l : List α} (hpart : part.Pairwise (key · < key ·))
    (hl : l.Pairwise (key · < key ·)) (hsub : ∀ a ∈ part, a ∈ l)
    (hlow : ∀ a ∈ l, a ∉ part → ∀ b ∈ part, key b < key a) : part <+: l := by
  induction l generalizing part with
  | nil =>
    have hnil : part = [] := eq_nil_iff_forall_not_mem.mpr fun a ha => by simpa using hsub a ha
    exact hnil ▸ prefix_refl _
  | cons a l ih =>
    cases part with
    | nil => exact nil_prefix
    | cons b part =>
      obtain ⟨hb, hpart'⟩ := pairwise_cons.mp hpart
      obtain ⟨ha, hl'⟩ := pairwise_cons.mp hl
      have hhead : b = a := by
        by_contra hne
        have hbl : b ∈ l := (mem_cons.mp (hsub b mem_cons_self)).resolve_left hne
        have hab : key a < key b := ha b hbl
        by_cases hmem : a ∈ part
        · exact (hb a hmem).asymm hab
        · refine (hlow a mem_cons_self ?_ b mem_cons_self).asymm hab
          simpa [Ne.symm hne] using hmem
      subst hhead
      rw [cons_prefix_cons]
      refine ⟨rfl, ih hpart' hl' ?_ ?_⟩
      · intro c hc
        refine (mem_cons.mp (hsub c (mem_cons_of_mem b hc))).resolve_left ?_
        intro heq
        exact (heq ▸ hb c hc).ne rfl
      · intro c hc hnot d hd
        refine hlow c (mem_cons_of_mem b hc) ?_ d (mem_cons_of_mem b hd)
        simp only [mem_cons, not_or]
        exact ⟨fun heq => (heq ▸ ha c hc).ne rfl, hnot⟩

theorem length_values : (values t).length = t.size := by
  rw [values, length_map, ExtTreeMap.length_toList]

/-- A map that keeps the least elements of a sorted list lists its first ones. -/
theorem Keeps.values_eq (h : Keeps key bound (· ∈ l) t) (hl : l.Pairwise (key · < key ·)) :
    values t = l.take bound := by
  have hmem : ∀ a, a ∈ values t ↔ t[key a]? = some a := fun a => h.keyed.mem_values
  have hbegins : values t <+: l := by
    refine prefix_of_sorted h.keyed.sorted hl (fun a ha => h.sound a ((hmem a).mp ha)) ?_
    intro a ha hout b hb
    have habove := (h.above a ha fun hin => hout ((hmem a).mpr hin)).2
    exact habove (key b) (mem_iff_exists.mpr ⟨b, (hmem b).mp hb⟩)
  by_cases hfull : t.size = bound
  · rw [prefix_iff_eq_take, length_values, hfull] at hbegins
    exact hbegins
  · -- a map that is not full has left nothing out
    have hall : ∀ a ∈ l, a ∈ values t := by
      intro a ha
      by_contra hout
      exact hfull (h.above a ha fun hin => hout ((hmem a).mpr hin)).1
    have heq : values t = l :=
      eq_of_sorted_by h.keyed.sorted hl fun a => ⟨fun ha => hbegins.subset ha, hall a⟩
    have hlength : l.length ≤ bound := by
      rw [← heq, length_values]
      exact h.size_le
    rw [take_of_length_le hlength, heq]

end Paging

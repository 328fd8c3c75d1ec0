import Mathlib

/-! # Ordered maps and sets

`Std.ExtTreeMap` and `Std.ExtTreeSet` are the ordered maps and sets of the
development. This file makes every linear order usable as a key type.
-/

namespace OrderedKeys

open Std (ExtTreeMap ExtTreeSet LawfulEqOrd)

variable {κ ν : Type} [LinearOrder κ]

instance instLawfulEqOrdOfLinearOrder : LawfulEqOrd κ where
  eq_of_compare h := compare_eq_iff_eq.mp h

instance instTransCmpOfLinearOrder : Std.TransCmp (compare : κ → κ → Ordering) := inferInstance

/-! ## Sorted lists -/

/-- Two lists that are strictly sorted by key and have the same elements are equal. -/
theorem eq_of_sorted_by {α : Type} {key : α → κ} {l₁ l₂ : List α}
    (h₁ : l₁.Pairwise (key · < key ·)) (h₂ : l₂.Pairwise (key · < key ·))
    (h : ∀ a, a ∈ l₁ ↔ a ∈ l₂) : l₁ = l₂ := by
  refine List.Perm.eq_of_pairwise (fun a b _ _ hab hba => absurd hab hba.asymm) h₁ h₂ ?_
  have hne : ∀ a b : α, key a < key b → a ≠ b := fun a b hab he => (he ▸ hab).ne rfl
  rw [List.perm_ext_iff_of_nodup (h₁.imp (hne _ _)) (h₂.imp (hne _ _))]
  exact h

/-- The elements in the order of their keys; elements with one key keep their order. -/
def sort_by_key {α : Type} (key : α → κ) (l : List α) : List α :=
  l.insertionSort fun a b => key a ≤ key b

variable {α : Type} {key : α → κ}

theorem sort_by_key_perm (key : α → κ) (l : List α) : (sort_by_key key l).Perm l :=
  List.perm_insertionSort _ l

@[simp] theorem mem_sort_by_key {l : List α} {a : α} :
    a ∈ sort_by_key key l ↔ a ∈ l :=
  (sort_by_key_perm key l).mem_iff

theorem sorted_sort_by_key {l : List α}
    (h : l.Pairwise fun a b => key a ≠ key b) : (sort_by_key key l).Pairwise (key · < key ·) := by
  have : Std.Total fun a b : α => key a ≤ key b := ⟨fun a b => le_total (key a) (key b)⟩
  have : IsTrans α fun a b : α => key a ≤ key b := ⟨fun _ _ _ => le_trans⟩
  have hle : (sort_by_key key l).Pairwise (key · ≤ key ·) := List.pairwise_insertionSort _ l
  have hne := h.perm (sort_by_key_perm key l).symm Ne.symm
  exact (hle.and hne).imp fun hab => lt_of_le_of_ne hab.1 hab.2

/-- The order in which elements with distinct keys come does not matter. -/
theorem sort_by_key_eq_of_perm {l₁ l₂ : List α} (hperm : l₁.Perm l₂)
    (h : l₁.Pairwise fun a b => key a ≠ key b) : sort_by_key key l₁ = sort_by_key key l₂ := by
  apply eq_of_sorted_by (sorted_sort_by_key h) (sorted_sort_by_key (h.perm hperm Ne.symm))
  intro a
  rw [mem_sort_by_key, mem_sort_by_key, hperm.mem_iff]

/-! ## Maps of keyed values -/

variable {m : ExtTreeMap κ ν} {k : κ}

section Keyed

variable {key : ν → κ} {v : ν}

theorem getElem?_insert_eq {k' : κ} : (m.insert k v)[k']? = if k = k' then some v else m[k']? := by
  rw [ExtTreeMap.getElem?_insert]
  simp only [compare_eq_iff_eq]

theorem getElem?_erase_eq {k' : κ} : (m.erase k)[k']? = if k = k' then none else m[k']? := by
  rw [ExtTreeMap.getElem?_erase]
  simp only [compare_eq_iff_eq]

def values (m : ExtTreeMap κ ν) : List ν := m.toList.map Prod.snd

theorem mem_values : v ∈ values m ↔ ∃ k : κ, m[k]? = some v := by
  simp only [values, List.mem_map, Prod.exists, exists_eq_right,
    ExtTreeMap.mem_toList_iff_getElem?_eq_some]

/-- Every value stands under its own key. -/
def KeyedBy (key : ν → κ) (m : ExtTreeMap κ ν) : Prop := ∀ k v, m[k]? = some v → key v = k

theorem KeyedBy.empty : KeyedBy key (∅ : ExtTreeMap κ ν) := by
  intro k v h
  simp at h

theorem KeyedBy.insert (h : KeyedBy key m) (v : ν) : KeyedBy key (m.insert (key v) v) := by
  intro k w hw
  rw [getElem?_insert_eq] at hw
  by_cases hk : key v = k
  · rw [if_pos hk] at hw
    exact Option.some.inj hw ▸ hk
  · rw [if_neg hk] at hw
    exact h k w hw

theorem KeyedBy.erase (h : KeyedBy key m) (k : κ) : KeyedBy key (m.erase k) := by
  intro k' w hw
  rw [getElem?_erase_eq] at hw
  by_cases hk : k = k'
  · rw [if_pos hk] at hw
    cases hw
  · rw [if_neg hk] at hw
    exact h k' w hw

theorem KeyedBy.mem_values (h : KeyedBy key m) : v ∈ values m ↔ m[key v]? = some v := by
  rw [OrderedKeys.mem_values]
  constructor
  · intro ⟨k, hk⟩
    rw [h k v hk]
    exact hk
  · intro hv
    exact ⟨key v, hv⟩

theorem KeyedBy.mem_values_insert (h : KeyedBy key m) {w : ν} :
    w ∈ values (m.insert (key v) v) ↔ w = v ∨ (w ∈ values m ∧ key w ≠ key v) := by
  rw [(h.insert v).mem_values, h.mem_values, getElem?_insert_eq]
  by_cases hk : key v = key w
  · simp [hk, eq_comm]
  · have hne : w ≠ v := fun heq => hk (by rw [heq])
    have hkey : key w ≠ key v := fun heq => hk heq.symm
    simp [hk, hne, hkey]

theorem KeyedBy.sorted (h : KeyedBy key m) : (values m).Pairwise (key · < key ·) := by
  have hordered := ExtTreeMap.ordered_keys_toList (t := m)
  refine List.pairwise_map.mpr (hordered.imp_of_mem fun {a b} ha hb hab => ?_)
  rw [h a.1 a.2 (ExtTreeMap.mem_toList_iff_getElem?_eq_some.mp ha),
    h b.1 b.2 (ExtTreeMap.mem_toList_iff_getElem?_eq_some.mp hb)]
  exact compare_lt_iff_lt.mp hab

/-- The map of a list of values. -/
def keyed (key : ν → κ) (l : List ν) : ExtTreeMap κ ν := l.foldl (fun m v => m.insert (key v) v) ∅

variable {l : List ν}

theorem foldl_insert_keyedBy (h : KeyedBy key m) :
    KeyedBy key (l.foldl (fun m v => m.insert (key v) v) m) := by
  induction l generalizing m with
  | nil => exact h
  | cons v l ih => exact ih (h.insert v)

theorem keyedBy_keyed (l : List ν) : KeyedBy key (keyed key l) := foldl_insert_keyedBy .empty

theorem getElem?_foldl_insert (hl : l.Pairwise fun a b => key a ≠ key b) :
    (l.foldl (fun m v => m.insert (key v) v) m)[k]? = some v ↔
      (v ∈ l ∧ key v = k) ∨ ((∀ a ∈ l, key a ≠ k) ∧ m[k]? = some v) := by
  induction l generalizing m with
  | nil => simp
  | cons a l ih =>
    obtain ⟨ha, hrest⟩ := List.pairwise_cons.mp hl
    rw [List.foldl_cons, ih hrest, getElem?_insert_eq]
    by_cases hk : key a = k
    · -- the rest has no value under this key
      have hnone : ¬ (v ∈ l ∧ key v = k) := fun hv => ha v hv.1 (hk.trans hv.2.symm)
      have hall : ∀ b ∈ l, key b ≠ k := fun b hb he => ha b hb (hk.trans he.symm)
      simp only [hnone, if_pos hk, List.mem_cons, false_or, Option.some.injEq]
      constructor
      · rintro ⟨-, rfl⟩
        exact .inl ⟨.inl rfl, hk⟩
      · rintro (⟨hv | hv, he⟩ | ⟨hno, -⟩)
        · exact ⟨fun b hb => hall b hb, hv.symm⟩
        · exact absurd he (hall v hv)
        · exact absurd hk (hno a (.inl rfl))
    · rw [if_neg hk]
      simp only [List.mem_cons, forall_eq_or_imp]
      constructor
      · rintro (⟨hv, he⟩ | ⟨hno, hm⟩)
        · exact .inl ⟨.inr hv, he⟩
        · exact .inr ⟨⟨hk, hno⟩, hm⟩
      · rintro (⟨rfl | hv, he⟩ | ⟨⟨-, hno⟩, hm⟩)
        · exact absurd he hk
        · exact .inl ⟨hv, he⟩
        · exact .inr ⟨hno, hm⟩

theorem getElem?_keyed (hl : l.Pairwise fun a b => key a ≠ key b) :
    (keyed key l)[k]? = some v ↔ v ∈ l ∧ key v = k := by
  unfold keyed
  rw [getElem?_foldl_insert hl]
  simp

/-- Inserting values makes a map larger by their number only if all their keys are new. -/
theorem size_foldl_insert : (l.foldl (fun m v => m.insert (key v) v) m).size ≤ m.size + l.length ∧
      ((l.foldl (fun m v => m.insert (key v) v) m).size = m.size + l.length →
        (l.Pairwise fun a b => key a ≠ key b) ∧ ∀ a ∈ l, key a ∉ m) := by
  induction l generalizing m with
  | nil => simp
  | cons a l ih =>
    obtain ⟨hle, hdistinct⟩ := ih (m := m.insert (key a) a)
    have hsize : (m.insert (key a) a).size = if key a ∈ m then m.size else m.size + 1 :=
      ExtTreeMap.size_insert
    rw [List.foldl_cons, List.length_cons]
    by_cases hmem : key a ∈ m
    · rw [if_pos hmem] at hsize
      constructor
      · omega
      · intro heq
        omega
    · rw [if_neg hmem] at hsize
      constructor
      · omega
      · intro heq
        obtain ⟨hpairwise, hnew⟩ := hdistinct (by omega)
        simp only [ExtTreeMap.mem_insert, compare_eq_iff_eq, not_or] at hnew
        rw [List.pairwise_cons, List.forall_mem_cons]
        exact ⟨⟨fun b hb => (hnew b hb).1, hpairwise⟩, hmem, fun b hb => (hnew b hb).2⟩

/-- A map of as many values as were put in: their keys are distinct. -/
theorem distinct_of_size_keyed (h : (keyed key l).size = l.length) :
    l.Pairwise fun a b => key a ≠ key b := by
  have hsize : (∅ : ExtTreeMap κ ν).size = 0 := ExtTreeMap.size_empty
  apply (size_foldl_insert (m := ∅)).2 _ |>.1
  rw [hsize, Nat.zero_add]
  exact h

theorem mem_values_keyed (hl : l.Pairwise fun a b => key a ≠ key b) :
    v ∈ values (keyed key l) ↔ v ∈ l := by
  rw [(keyedBy_keyed l).mem_values, getElem?_keyed hl]
  simp

theorem values_keyed (hl : l.Pairwise (key · < key ·)) : values (keyed key l) = l :=
  eq_of_sorted_by (keyedBy_keyed l).sorted hl fun _ => mem_values_keyed (hl.imp fun h => h.ne)

end Keyed

/-! ## Changes -/

section Changes

variable {μ : Type} {target : μ → κ} {effect : μ → Option ν}

/-- Sets or clears the key that a change is about. -/
def apply_change (target : μ → κ) (effect : μ → Option ν) (m : ExtTreeMap κ ν) (change : μ) :
    ExtTreeMap κ ν :=
  match effect change with
  | some v => m.insert (target change) v
  | none => m.erase (target change)

def apply_changes (target : μ → κ) (effect : μ → Option ν) (m : ExtTreeMap κ ν)
    (changes : List μ) : ExtTreeMap κ ν :=
  changes.foldl (apply_change target effect) m

theorem getElem?_apply_change {change : μ} : (apply_change target effect m change)[k]? =
      if target change = k then effect change else m[k]? := by
  unfold apply_change
  cases effect change with
  | some v => exact getElem?_insert_eq
  | none => exact getElem?_erase_eq

variable {changes : List μ}

theorem getElem?_apply_of_not_mem
    (h : ∀ c ∈ changes, target c ≠ k) : (apply_changes target effect m changes)[k]? = m[k]? := by
  induction changes generalizing m with
  | nil => rfl
  | cons c changes ih =>
    obtain ⟨hc, hrest⟩ := List.forall_mem_cons.mp h
    show (apply_changes target effect (apply_change target effect m c) changes)[k]? = _
    rw [ih hrest, getElem?_apply_change, if_neg hc]

/-- With one change for a key, the key has what the change sets. -/
theorem getElem?_apply_of_mem
    (h : changes.Pairwise fun a b => target a ≠ target b) {c : μ} (hc : c ∈ changes) :
    (apply_changes target effect m changes)[target c]? = effect c := by
  induction changes generalizing m with
  | nil => simp at hc
  | cons a changes ih =>
    obtain ⟨ha, hrest⟩ := List.pairwise_cons.mp h
    show (apply_changes target effect (apply_change target effect m a) changes)[target c]? = _
    rcases List.mem_cons.mp hc with rfl | hc
    · rw [getElem?_apply_of_not_mem (fun b hb => (ha b hb).symm), getElem?_apply_change, if_pos rfl]
    · exact ih hrest hc

/-- Changes to distinct keys lead to the map that has their effects, and everything else as
before. -/
theorem apply_changes_eq {r : ExtTreeMap κ ν} (h : changes.Pairwise fun a b => target a ≠ target b)
    (hset : ∀ c ∈ changes, r[target c]? = effect c)
    (hframe : ∀ k, (∀ c ∈ changes, target c ≠ k) → r[k]? = m[k]?) :
    apply_changes target effect m changes = r := by
  apply ExtTreeMap.ext_getElem?
  intro k
  by_cases hk : ∃ c ∈ changes, target c = k
  · obtain ⟨c, hc, rfl⟩ := hk
    rw [getElem?_apply_of_mem h hc, hset c hc]
  · have hno : ∀ c ∈ changes, target c ≠ k := fun c hc he => hk ⟨c, hc, he⟩
    rw [getElem?_apply_of_not_mem hno, hframe k hno]

end Changes

end OrderedKeys

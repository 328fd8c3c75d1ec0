import NeoEngram.Framework.Checks
import NeoEngram.Framework.OrderedKeys

/-! # Loops that fill an ordered map

A validator often enters each element of a list into a map, under a key that
has to be free (`insert_new`) or that may only be taken by the same value
(`insert_agreeing`). The map then has what was there before and the elements of
the list, and nothing else (`Adds`).
-/

namespace Tables

open Std (ExtTreeMap)
open Checks OrderedKeys

variable {κ ν α ε : Type} [LinearOrder κ] [DecidableEq ν] {key : α → κ} {value : α → ν}

/-- The map has what was there before and the elements of the list, and nothing else. -/
def Adds (key : α → κ) (value : α → ν) (m : ExtTreeMap κ ν) (l : List α) (m' : ExtTreeMap κ ν) :
    Prop :=
  ∀ k v, m'[k]? = some v ↔ m[k]? = some v ∨ ∃ a ∈ l, key a = k ∧ value a = v

variable {m m' : ExtTreeMap κ ν} {l : List α}

omit [DecidableEq ν] in
theorem Adds.unique {m m₁ m₂ : ExtTreeMap κ ν} (h₁ : Adds key value m l m₁)
    (h₂ : Adds key value m l m₂) : m₁ = m₂ := by
  apply ExtTreeMap.ext_getElem?
  intro k
  apply Option.ext
  intro v
  exact (h₁ k v).trans (h₂ k v).symm

omit [DecidableEq ν] in
theorem Adds.congr {l' : List α} (h : Adds key value m l m')
    (hmem : ∀ a, a ∈ l ↔ a ∈ l') : Adds key value m l' m' := by
  intro k v
  rw [h k v]
  simp only [hmem]

omit [DecidableEq ν] in
theorem Adds.nil : Adds key value m [] m' ↔ m' = m := by
  constructor
  · intro h
    exact h.unique fun k v => by simp
  · intro h k v
    simp [h]

omit [DecidableEq ν] in
/-- An element can be entered first when its key is free or has its value already. -/
theorem Adds.cons {a : α} (hfree : ∀ v, m[key a]? = some v → v = value a) :
    Adds key value m (a :: l) m' ↔ Adds key value (m.insert (key a) (value a)) l m' := by
  have hstep : ∀ (k : κ) (v : ν), (m.insert (key a) (value a))[k]? = some v ↔
      m[k]? = some v ∨ (key a = k ∧ value a = v) := by
    intro k v
    rw [getElem?_insert_eq]
    by_cases hk : key a = k
    · subst hk
      rw [if_pos rfl, Option.some.injEq]
      constructor
      · intro hv
        exact .inr ⟨rfl, hv⟩
      · rintro (hv | ⟨-, hv⟩)
        · exact (hfree v hv).symm
        · exact hv
    · rw [if_neg hk]
      simp [hk]
  unfold Adds
  simp only [hstep, List.exists_mem_cons_iff, or_assoc]

/-! ### Keys that have to be free -/

def insert_new (key : α → κ) (value : α → ν) (taken : α → ε) (m : ExtTreeMap κ ν) (a : α) :
    Except ε (ExtTreeMap κ ν) := do
  ensure (m[key a]?.isNone) (taken a)
  return m.insert (key a) (value a)

omit [DecidableEq ν] in
/-- **Run**: the loop succeeds exactly when all keys are free and distinct. -/
theorem foldlM_insert_new_eq_ok {taken : α → ε} :
    l.foldlM (insert_new key value taken) m = .ok m' ↔
      (∀ a ∈ l, m[key a]? = none) ∧ l.Pairwise (fun a b => key a ≠ key b) ∧
        Adds key value m l m' := by
  induction l generalizing m with
  | nil =>
    rw [List.foldlM_nil, pure_eq_ok, Adds.nil]
    simp [eq_comm]
  | cons a l ih =>
    simp only [List.foldlM_cons, insert_new, ok_iff]
    constructor
    · rintro ⟨m₁, ⟨hfree, rfl⟩, hrest⟩
      have hnone : m[key a]? = none := Option.isNone_iff_eq_none.mp hfree
      obtain ⟨hall, hdistinct, hadds⟩ := ih.mp hrest
      have hsplit : ∀ b ∈ l, key a ≠ key b ∧ m[key b]? = none := by
        intro b hb
        have hb := hall b hb
        rw [getElem?_insert_eq] at hb
        by_cases hab : key a = key b
        · rw [if_pos hab] at hb
          cases hb
        · rw [if_neg hab] at hb
          exact ⟨hab, hb⟩
      refine ⟨List.forall_mem_cons.mpr ⟨hnone, fun b hb => (hsplit b hb).2⟩,
        List.pairwise_cons.mpr ⟨fun b hb => (hsplit b hb).1, hdistinct⟩, (Adds.cons ?_).mpr hadds⟩
      intro v hv
      rw [hnone] at hv
      cases hv
    · rintro ⟨hall, hdistinct, hadds⟩
      obtain ⟨hnone, hrest⟩ := List.forall_mem_cons.mp hall
      obtain ⟨hfirst, hdistinct⟩ := List.pairwise_cons.mp hdistinct
      have hfree : ∀ v, m[key a]? = some v → v = value a := by
        intro v hv
        rw [hnone] at hv
        cases hv
      refine ⟨_, ⟨by rw [hnone]; rfl, rfl⟩, ih.mpr ⟨?_, hdistinct, (Adds.cons hfree).mp hadds⟩⟩
      intro b hb
      rw [getElem?_insert_eq, if_neg (hfirst b hb)]
      exact hrest b hb

omit [DecidableEq ν] in
theorem exists_foldlM_insert_new {taken : α → ε} {l : List α} {m : ExtTreeMap κ ν}
    (hfree : ∀ a ∈ l, m[key a]? = none) (hdistinct : l.Pairwise fun a b => key a ≠ key b) :
    ∃ m', l.foldlM (insert_new key value taken) m = .ok m' := by
  induction l generalizing m with
  | nil => exact ⟨m, rfl⟩
  | cons a l ih =>
    obtain ⟨hnone, hrest⟩ := List.forall_mem_cons.mp hfree
    obtain ⟨hfirst, hdistinct⟩ := List.pairwise_cons.mp hdistinct
    have hstep : insert_new key value taken m a = .ok (m.insert (key a) (value a)) := by
      simp [insert_new, hnone, ensure]
    obtain ⟨m', hm'⟩ := @ih (m.insert (key a) (value a)) (fun b hb => by
      rw [getElem?_insert_eq, if_neg (hfirst b hb)]
      exact hrest b hb) hdistinct
    exact ⟨m', by rw [List.foldlM_cons, hstep]; exact hm'⟩

/-! ### Keys that may be taken by the same value -/

def insert_agreeing (key : α → κ) (value : α → ν) (differs : α → ε) (m : ExtTreeMap κ ν) (a : α) :
    Except ε (ExtTreeMap κ ν) := do
  ensure (m[key a]?.all (· = value a)) (differs a)
  return m.insert (key a) (value a)

/-- **Run**: the loop succeeds exactly when there is one value for each key. -/
theorem foldlM_insert_agreeing_eq_ok {differs : α → ε} :
    l.foldlM (insert_agreeing key value differs) m = .ok m' ↔ Adds key value m l m' := by
  induction l generalizing m with
  | nil =>
    rw [List.foldlM_nil, pure_eq_ok, Adds.nil, eq_comm]
  | cons a l ih =>
    simp only [List.foldlM_cons, insert_agreeing, ok_iff]
    constructor
    · rintro ⟨m₁, ⟨hagree, rfl⟩, hrest⟩
      refine (Adds.cons fun v hv => ?_).mpr (ih.mp hrest)
      simpa [hv] using hagree
    · intro hadds
      -- the value under the key at the end is the one there before and the one entered
      have hvalue := (hadds (key a) (value a)).mpr (.inr ⟨a, List.mem_cons_self, rfl, rfl⟩)
      have hfree : ∀ v, m[key a]? = some v → v = value a := by
        intro v hv
        have hkept := (hadds (key a) v).mpr (.inl hv)
        exact Option.some.inj (hkept.symm.trans hvalue)
      refine ⟨_, ⟨?_, rfl⟩, ih.mpr ((Adds.cons hfree).mp hadds)⟩
      cases hm : m[key a]? with
      | none => rfl
      | some v => simp [hfree v hm]

end Tables

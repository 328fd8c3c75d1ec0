import Mathlib

/-! # Fallible computations

Validation code is a sequence of checks, each of which either continues or
stops with an error. This file has the vocabulary for such code in the
`Except` monad (`ensure`, 64-bit arithmetic that reports overflow), and the
inversion lemmas that peel a successful run apart (`bind_eq_ok`, `forM_eq_ok`,
`mapM_eq_ok`).
-/

namespace Checks

open List

variable {ε ε' α β : Type}

/-! ## Checks and sequencing -/

/-- Continue when `c` holds, stop with the error `e` otherwise. -/
def ensure (c : Prop) [Decidable c] (e : ε) : Except ε Unit :=
  if c then .ok () else .error e

/-- The value of an option, or the error `e` when there is none. -/
def ok_or (x : Option α) (e : ε) : Except ε α :=
  match x with
  | some a => .ok a
  | none => .error e

variable {x : Except ε α} {e : ε}

@[simp] theorem ensure_eq_ok {c : Prop} [Decidable c] {r : Unit} : ensure c e = .ok r ↔ c := by
  unfold ensure
  split <;> simp [*]

variable {a : α}

@[simp] theorem ok_or_eq_ok {x : Option α} : ok_or x e = .ok a ↔ x = some a := by
  cases x <;> simp [ok_or]

/-- A sequence succeeds exactly when its first part does and the rest does on its value. -/
theorem bind_eq_ok {f : α → Except ε β} {b : β} :
    (x >>= f) = .ok b ↔ ∃ a, x = .ok a ∧ f a = .ok b := by
  cases x with
  | error e => simp [bind, Except.bind]
  | ok a => simp [bind, Except.bind]

theorem exists_ok_iff : (∃ a, x = .ok a) ↔ x.isOk = true := by
  cases x <;> simp [Except.isOk, Except.toBool]

@[simp] theorem exists_unit {p : Unit → Prop} : (∃ u, p u) ↔ p () := Unique.exists_iff

@[simp] theorem pure_eq_ok {b : α} : (pure a : Except ε α) = .ok b ↔ a = b := by
  simp [pure, Except.pure]

/-- The rules that take a successful run apart, as one set for `simp only`. -/
theorem ok_iff :
    (∀ {ε α β : Type} {x : Except ε α} {f : α → Except ε β} {b : β},
      (x >>= f) = .ok b ↔ ∃ a, x = .ok a ∧ f a = .ok b) ∧ (∀ {p : Unit → Prop}, (∃ u, p u) ↔ p ()) ∧
    (∀ {ε : Type} {e : ε} {c : Prop} [Decidable c] {r : Unit}, ensure c e = .ok r ↔ c) ∧
    (∀ {ε α : Type} {e : ε} {x : Option α} {a : α}, ok_or x e = .ok a ↔ x = some a) ∧
    ∀ {ε α : Type} {a b : α}, (pure a : Except ε α) = .ok b ↔ a = b :=
  ⟨bind_eq_ok, exists_unit, ensure_eq_ok, ok_or_eq_ok, pure_eq_ok⟩

@[simp] theorem throw_ne_ok : (throw e : Except ε α) ≠ .ok a := by
  simp [throw, throwThe, MonadExceptOf.throw]

@[simp] theorem mapError_eq_ok {f : ε → ε'} : x.mapError f = .ok a ↔ x = .ok a := by
  cases x <;> simp [Except.mapError]

@[simp] theorem map_eq_ok {f : α → β} {b : β} : (f <$> x) = .ok b ↔ ∃ a, x = .ok a ∧ f a = b := by
  cases x <;> simp [Functor.map, Except.map]

/-! ## Loops -/

variable {l : List α} {b c : β} {f : β → α → Except ε β}

/-- A loop of checks succeeds exactly when every check does. -/
@[simp] theorem forM_eq_ok {f : α → Except ε Unit} {r : Unit} :
    l.forM f = .ok r ↔ ∀ a ∈ l, f a = .ok () := by
  induction l with
  | nil => simp [List.forM, pure, Except.pure]
  | cons a l ih =>
    simp only [List.forM, bind_eq_ok, ih, forall_mem_cons, exists_unit]

variable {r : List β} {R : α → β → Prop}

theorem forall₂_exists_right (h : Forall₂ R l r) {b : β} (hb : b ∈ r) : ∃ a ∈ l, R a b := by
  induction h with
  | nil => simp at hb
  | cons hab _ ih =>
    rcases mem_cons.mp hb with rfl | hb
    · exact ⟨_, mem_cons_self, hab⟩
    · obtain ⟨a, ha, hr⟩ := ih hb
      exact ⟨a, mem_cons_of_mem _ ha, hr⟩

theorem forall₂_exists_left (h : Forall₂ R l r) (ha : a ∈ l) : ∃ b ∈ r, R a b :=
  forall₂_exists_right h.flip ha

theorem mapM_eq_ok {f : α → Except ε β} :
    l.mapM f = .ok r ↔ Forall₂ (fun a b => f a = .ok b) l r := by
  induction l generalizing r with
  | nil => simp [mapM_nil, eq_comm (a := ([] : List β))]
  | cons a l ih =>
    simp only [mapM_cons, bind_eq_ok, pure_eq_ok, forall₂_cons_left_iff, ih]
    constructor
    · rintro ⟨b, hb, bs, hbs, rfl⟩
      exact ⟨b, bs, hb, hbs, rfl⟩
    · rintro ⟨b, bs, hb, hbs, rfl⟩
      exact ⟨b, hb, bs, hbs, rfl⟩

/-- A fold that can only add a property has it at the end if it had it at the start or an element
has added it. -/
theorem foldl_adds_iff {X : β → Prop} {f : β → α → β} {R : α → Prop}
    (hstep : ∀ b, ∀ a ∈ l, (X (f b a) ↔ X b ∨ R a)) (b : β) :
    X (l.foldl f b) ↔ X b ∨ ∃ a ∈ l, R a := by
  induction l generalizing b with
  | nil => simp
  | cons a l ih =>
    have hrest : ∀ b, ∀ a ∈ l, (X (f b a) ↔ X b ∨ R a) :=
      fun b a ha => hstep b a (mem_cons_of_mem _ ha)
    rw [foldl_cons, ih hrest, hstep b a mem_cons_self, or_assoc, exists_mem_cons_iff]

theorem foldl_keeps {P : β → Prop} {f : β → α → β} (hstep : ∀ b a, P b → P (f b a)) {b : β}
    (h : P b) : P (l.foldl f b) := by
  induction l generalizing b with
  | nil => exact h
  | cons a l ih => exact ih (hstep b a h)

theorem foldlM_append_eq_ok {l₁ l₂ : List α} :
    (l₁ ++ l₂).foldlM f b = .ok c ↔ ∃ a, l₁.foldlM f b = .ok a ∧ l₂.foldlM f a = .ok c := by
  rw [foldlM_append, bind_eq_ok]

theorem foldlM_singleton_eq_ok : [a].foldlM f b = .ok c ↔ f b a = .ok c := by
  simp [foldlM_cons, foldlM_nil]

/-- **Invariant rule**: what holds of the empty list and the first state, and is kept by every
round, holds at the end. -/
theorem foldlM_invariant {I : List α → β → Prop} (hinit : I [] b)
    (hstep : ∀ done a b b', done ++ [a] <+: l → I done b → f b a = .ok b' → I (done ++ [a]) b')
    (h : l.foldlM f b = .ok c) : I l c := by
  -- by induction on the part that is left
  suffices hrun : ∀ rest done b, done ++ rest = l → I done b → rest.foldlM f b = .ok c → I l c from
    hrun l [] b rfl hinit h
  intro rest
  induction rest with
  | nil =>
    intro done b hdone hb h
    rw [append_nil] at hdone
    rw [foldlM_nil, pure_eq_ok] at h
    exact hdone ▸ h ▸ hb
  | cons a rest ih =>
    intro done b hdone hb h
    rw [foldlM_cons, bind_eq_ok] at h
    obtain ⟨b', hfirst, hrest⟩ := h
    have hsplit : (done ++ [a]) ++ rest = l := by
      rw [append_assoc]
      exact hdone
    exact ih (done ++ [a]) b' hsplit (hstep done a b b' ⟨rest, hsplit⟩ hb hfirst) hrest

/-- A loop whose rounds add something each and keep what is there. -/
theorem foldlM_covers {γ : Type} {A : α → β → Prop} {K : γ → β → Prop}
    (hstep : ∀ b a b', f b a = .ok b' → A a b' ∧ ∀ k, K k b → K k b')
    (hkeep : ∀ a b b', (∀ k, K k b → K k b') → A a b → A a b')
    (h : l.foldlM f b = .ok c) : (∀ a ∈ l, A a c) ∧ ∀ k, K k b → K k c := by
  refine foldlM_invariant (I := fun done s => (∀ a ∈ done, A a s) ∧ ∀ k, K k b → K k s)
    ⟨by simp, fun _ hk => hk⟩ ?_ h
  intro done a s s' _ ⟨hdone, hkept⟩ hround
  obtain ⟨hadd, hmono⟩ := hstep s a s' hround
  refine ⟨?_, fun k hk => hmono k (hkept k hk)⟩
  intro x hx
  rcases mem_append.mp hx with hx | hx
  · exact hkeep x s s' hmono (hdone x hx)
  · rw [mem_singleton.mp hx]
    exact hadd

variable {g : β → α → Except ε' β} {P : α → Prop}

/-- A loop whose rounds do what another loop does and also check the element they take. -/
theorem foldlM_and_eq_ok (h : ∀ b a b', f b a = .ok b' ↔ g b a = .ok b' ∧ P a) :
    l.foldlM f b = .ok c ↔ l.foldlM g b = .ok c ∧ ∀ a ∈ l, P a := by
  induction l generalizing b with
  | nil => simp
  | cons a l ih =>
    simp only [foldlM_cons, bind_eq_ok, h, ih, forall_mem_cons]
    constructor
    · rintro ⟨b', ⟨hg, hp⟩, hrest, hall⟩
      exact ⟨⟨b', hg, hrest⟩, hp, hall⟩
    · rintro ⟨⟨b', hg, hrest⟩, hp, hall⟩
      exact ⟨b', ⟨hg, hp⟩, hrest, hall⟩

/-- A loop whose rounds check the element they take and append its text. -/
theorem foldlM_extends_eq_ok {γ : Type} {f : List γ → α → Except ε (List γ)} {text : α → List γ}
    {b c : List γ} (h : ∀ b a b', f b a = .ok b' ↔ P a ∧ b' = b ++ text a) :
    l.foldlM f b = .ok c ↔ (∀ a ∈ l, P a) ∧ c = b ++ l.flatMap text := by
  induction l generalizing b with
  | nil =>
    simp only [foldlM_nil, pure_eq_ok, flatMap_nil, append_nil]
    exact ⟨fun h => ⟨by simp, h.symm⟩, fun h => h.2.symm⟩
  | cons a l ih =>
    simp only [foldlM_cons, bind_eq_ok, h, ih, forall_mem_cons, flatMap_cons]
    constructor
    · rintro ⟨_, ⟨hp, rfl⟩, hall, rfl⟩
      exact ⟨⟨hp, hall⟩, by rw [append_assoc]⟩
    · rintro ⟨⟨hp, hall⟩, rfl⟩
      exact ⟨_, ⟨hp, rfl⟩, hall, by rw [append_assoc]⟩

/-- 64-bit addition that reports overflow. -/
def checked_add (a b : UInt64) : Option UInt64 :=
  if a.toNat + b.toNat < 2 ^ 64 then some (a + b) else none

/-- 64-bit addition that stops at the greatest number. -/
def saturating_add (a b : Nat) : Nat := min (a + b) (2 ^ 64 - 1)

/-- The difference, when it is not negative. -/
def checked_sub (a b : UInt64) : Option UInt64 :=
  if b ≤ a then some (a - b) else none

/-- A length as a 64-bit number, when it fits. -/
def u64_try_from (n : Nat) : Option UInt64 :=
  if n < 2 ^ 64 then some (UInt64.ofNat n) else none

/-- A length as a 32-bit number, when it fits. -/
def u32_try_from (n : Nat) : Option UInt32 :=
  if n < 2 ^ 32 then some (UInt32.ofNat n) else none

theorem checked_add_eq_some {a b c : UInt64} :
    checked_add a b = some c ↔ a.toNat + b.toNat = c.toNat := by
  unfold checked_add
  constructor
  · intro h
    split at h
    · next hlt =>
      cases h
      rw [UInt64.toNat_add, Nat.mod_eq_of_lt hlt]
    · cases h
  · intro h
    have hlt : a.toNat + b.toNat < 2 ^ 64 := h ▸ c.toNat_lt
    rw [if_pos hlt]
    congr 1
    apply UInt64.toNat_inj.mp
    rw [UInt64.toNat_add, Nat.mod_eq_of_lt hlt, h]

theorem checked_sub_eq_some {a b c : UInt64} :
    checked_sub a b = some c ↔ b.toNat + c.toNat = a.toNat := by
  unfold checked_sub
  constructor
  · intro h
    split at h
    · next hle =>
      cases h
      rw [UInt64.toNat_sub_of_le _ _ hle]
      have := UInt64.le_iff_toNat_le.mp hle
      omega
    · cases h
  · intro h
    have hle : b ≤ a := UInt64.le_iff_toNat_le.mpr (by omega)
    rw [if_pos hle]
    congr 1
    apply UInt64.toNat_inj.mp
    rw [UInt64.toNat_sub_of_le _ _ hle]
    omega

variable {n : Nat}

theorem u64_try_from_eq_some {c : UInt64} : u64_try_from n = some c ↔ c.toNat = n := by
  unfold u64_try_from
  constructor
  · intro h
    split at h
    · next hlt =>
      cases h
      exact UInt64.toNat_ofNat_of_lt' hlt
    · cases h
  · rintro rfl
    rw [if_pos c.toNat_lt, UInt64.ofNat_toNat]

theorem u64_try_from_eq_some_iff {c : UInt64} :
    u64_try_from n = some c ↔ n < 2 ^ 64 ∧ c = UInt64.ofNat n := by
  unfold u64_try_from
  by_cases h : n < 2 ^ 64
  · rw [if_pos h, Option.some.injEq]
    exact ⟨fun hc => ⟨h, hc.symm⟩, fun hc => hc.2.symm⟩
  · rw [if_neg h]
    exact ⟨fun hc => absurd hc (by simp), fun hc => absurd hc.1 h⟩

theorem u32_try_from_eq_some {c : UInt32} : u32_try_from n = some c ↔ c.toNat = n := by
  unfold u32_try_from
  constructor
  · intro h
    split at h
    · next hlt =>
      cases h
      exact UInt32.toNat_ofNat_of_lt' hlt
    · cases h
  · rintro rfl
    rw [if_pos c.toNat_lt, UInt32.ofNat_toNat]

end Checks

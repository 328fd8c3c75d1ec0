import Mathlib

/-! # Byte encodings that can be taken apart again

The fields of canonical encodings (fixed-width integers, length-prefixed
strings), and what makes a sequence of them readable: `SelfDelimiting P e`,
whatever follows, an encoding under `e` of a value in `P` ends where it ends.

The encoders treated here write the number of elements of a list after the
elements. `stream_injective`: self-delimiting, non-empty elements followed by a
tail of fixed length nevertheless determine both.
-/

namespace Framing

open List Function

abbrev Bytes := List UInt8

/-! ## Integers -/

/-- The `width` low bytes of `n`, least significant first. -/
def le_bytes : Nat → Nat → Bytes
  | 0, _ => []
  | width + 1, n => UInt8.ofNat n :: le_bytes width (n / 256)

@[simp] theorem length_le_bytes (width n : Nat) : (le_bytes width n).length = width := by
  induction width generalizing n with
  | zero => rfl
  | succ width ih => simp [le_bytes, ih]

theorem le_bytes_injective {width n m : Nat} (hn : n < 256 ^ width) (hm : m < 256 ^ width)
    (h : le_bytes width n = le_bytes width m) : n = m := by
  induction width generalizing n m with
  | zero => omega
  | succ width ih =>
    have hlow : n % 256 = m % 256 := by
      have := congrArg UInt8.toNat (List.cons.inj h).1
      simpa using this
    have hhigh : n / 256 = m / 256 := by
      refine ih ?_ ?_ (List.cons.inj h).2
      · rw [pow_succ] at hn; omega
      · rw [pow_succ] at hm; omega
    omega

/-- `to_le_bytes` of a 64-bit number. -/
def u64_le (n : UInt64) : Bytes := le_bytes 8 n.toNat

/-- `to_le_bytes` of a 32-bit number. -/
def u32_le (n : UInt32) : Bytes := le_bytes 4 n.toNat

/-- `to_be_bytes` of a 64-bit number. -/
def u64_be (n : UInt64) : Bytes := (le_bytes 8 n.toNat).reverse

@[simp] theorem length_u64_le (n : UInt64) : (u64_le n).length = 8 := length_le_bytes _ _

theorem u64_le_injective : Injective u64_le := by
  intro n m h
  have hn : n.toNat < 256 ^ 8 := n.toNat_lt
  have hm : m.toNat < 256 ^ 8 := m.toNat_lt
  exact UInt64.toNat_inj.mp (le_bytes_injective hn hm h)

/-! ## Self-delimiting encoders -/

variable {α : Type} {e : α → Bytes}

/-- On the values in `P`, an encoding under `e` ends where it ends, whatever follows. -/
def SelfDelimiting (P : α → Prop) (e : α → Bytes) : Prop :=
  ∀ a b, P a → P b → ∀ s t, e a ++ s = e b ++ t → a = b ∧ s = t

theorem selfDelimiting_of_length (width : Nat) (hlen : ∀ a, (e a).length = width)
    (hinj : Injective e) : SelfDelimiting (fun _ => True) e := by
  intro a b _ _ s t h
  obtain ⟨hab, hst⟩ := append_inj h (by rw [hlen, hlen])
  exact ⟨hinj hab, hst⟩

theorem u64_le_selfDelimiting : SelfDelimiting (fun _ => True) u64_le :=
  selfDelimiting_of_length 8 length_u64_le u64_le_injective

/-- A string after its length, which is written with `len`. -/
def framed (len : UInt64 → Bytes) (b : Bytes) : Bytes := len (UInt64.ofNat b.length) ++ b

variable {len : UInt64 → Bytes} {P : α → Prop}

/-- A string after its length is self-delimiting as long as the length fits. -/
theorem framed_selfDelimiting (hlen : SelfDelimiting (fun _ => True) len) :
    SelfDelimiting (fun b => b.length < 2 ^ 64) (framed len) := by
  intro a b ha hb s t h
  rw [framed, framed, append_assoc, append_assoc] at h
  obtain ⟨hl, hrest⟩ := hlen _ _ trivial trivial _ _ h
  have hcount : a.length = b.length := by
    have := congrArg UInt64.toNat hl
    rwa [UInt64.toNat_ofNat_of_lt' ha, UInt64.toNat_ofNat_of_lt' hb] at this
  exact append_inj hrest hcount

theorem SelfDelimiting.pair {β : Type} {Q : β → Prop} {e₁ : α → Bytes}
    {e₂ : β → Bytes} (h₁ : SelfDelimiting P e₁) (h₂ : SelfDelimiting Q e₂) :
    SelfDelimiting (fun p : α × β => P p.1 ∧ Q p.2) fun p => e₁ p.1 ++ e₂ p.2 := by
  intro a b ha hb s t h
  rw [append_assoc, append_assoc] at h
  obtain ⟨hfirst, hrest⟩ := h₁ _ _ ha.1 hb.1 _ _ h
  obtain ⟨hsecond, htail⟩ := h₂ _ _ ha.2 hb.2 _ _ hrest
  exact ⟨Prod.ext hfirst hsecond, htail⟩

/-- Values are encoded through an injective view of them. -/
theorem SelfDelimiting.comap {β : Type} (h : SelfDelimiting P e) {f : β → α} (hf : Injective f) :
    SelfDelimiting (fun b => P (f b)) fun b => e (f b) := by
  intro a b ha hb s t heq
  obtain ⟨hab, hst⟩ := h _ _ ha hb _ _ heq
  exact ⟨hf hab, hst⟩

theorem byte_selfDelimiting : SelfDelimiting (fun _ => True) fun b : UInt8 => [b] := by
  intro a b _ _ s t h
  exact List.cons.inj h

/-! ## Streams -/

/-- Where elements can be taken off the front of a text up to a view, non-empty elements followed by
a tail of fixed length are determined up to that view. -/
theorem stream_view_injective {β : Type} {P : α → Prop} {e : α → Bytes} {view : α → β}
    (he : ∀ a b, P a → P b → ∀ s t, e a ++ s = e b ++ t → view a = view b ∧ s = t)
    (hne : ∀ a, e a ≠ []) {xs ys : List α} (hxs : ∀ a ∈ xs, P a) (hys : ∀ a ∈ ys, P a)
    {s t : Bytes} (hlen : s.length = t.length)
    (h : xs.flatMap e ++ s = ys.flatMap e ++ t) : xs.map view = ys.map view ∧ s = t := by
  induction xs generalizing ys with
  | nil =>
    cases ys with
    | nil => exact ⟨rfl, h⟩
    | cons y ys =>
      -- the tail on the left is too short to hold the first element on the right
      have hpos := length_pos_iff.mpr (hne y)
      have hcount := congrArg List.length h
      simp only [flatMap_cons, flatMap_nil, length_append, nil_append] at hcount
      omega
  | cons x xs ih =>
    cases ys with
    | nil =>
      have hpos := length_pos_iff.mpr (hne x)
      have hcount := congrArg List.length h
      simp only [flatMap_cons, flatMap_nil, length_append, nil_append] at hcount
      omega
    | cons y ys =>
      rw [flatMap_cons, flatMap_cons, append_assoc, append_assoc] at h
      obtain ⟨hview, hrest⟩ := he x y (hxs x mem_cons_self) (hys y mem_cons_self) _ _ h
      obtain ⟨hviews, htail⟩ := ih (fun a ha => hxs a (mem_cons_of_mem _ ha))
        (fun a ha => hys a (mem_cons_of_mem _ ha)) hrest
      exact ⟨by rw [map_cons, map_cons, hview, hviews], htail⟩

/-- A list of self-delimiting, non-empty elements followed by a tail of fixed length is
determined by the bytes. -/
theorem stream_injective (he : SelfDelimiting P e)
    (hne : ∀ a, e a ≠ []) {xs ys : List α} (hxs : ∀ a ∈ xs, P a) (hys : ∀ a ∈ ys, P a)
    {s t : Bytes} (hlen : s.length = t.length)
    (h : xs.flatMap e ++ s = ys.flatMap e ++ t) : xs = ys ∧ s = t := by
  have hviews := @stream_view_injective α α P e id he hne xs ys hxs hys s t hlen h
  simpa using hviews

/-- A list whose length is known is determined by the bytes, whatever follows. -/
theorem counted_injective {P : α → Prop} {e : α → Bytes} (he : SelfDelimiting P e) {xs ys : List α}
    (hlen : xs.length = ys.length) (hxs : ∀ a ∈ xs, P a) (hys : ∀ a ∈ ys, P a) {s t : Bytes}
    (h : xs.flatMap e ++ s = ys.flatMap e ++ t) : xs = ys ∧ s = t := by
  induction xs generalizing ys with
  | nil =>
    obtain rfl : ys = [] := length_eq_zero_iff.mp hlen.symm
    exact ⟨rfl, h⟩
  | cons x xs ih =>
    cases ys with
    | nil => simp at hlen
    | cons y ys =>
      rw [flatMap_cons, flatMap_cons, append_assoc, append_assoc] at h
      obtain ⟨hx, hxs'⟩ := forall_mem_cons.mp hxs
      obtain ⟨hy, hys'⟩ := forall_mem_cons.mp hys
      obtain ⟨hxy, hrest⟩ := he x y hx hy _ _ h
      obtain ⟨hxys, htail⟩ := ih (by simpa using hlen) hxs' hys' hrest
      exact ⟨by rw [hxy, hxys], htail⟩

/-! ## Text -/

/-- The UTF-8 bytes of a text. -/
def utf8 (t : List Char) : Bytes := t.flatMap String.utf8EncodeChar

theorem utf8_injective : Injective utf8 := by
  intro a b h
  have hbytes : (String.ofList a).toByteArray = (String.ofList b).toByteArray := by
    simp only [String.toByteArray_ofList, utf8Encode]
    exact congrArg toByteArray h
  have hstring : String.ofList a = String.ofList b := String.toByteArray_inj.mp hbytes
  exact String.ofList_injective hstring

theorem text_selfDelimiting (hlen : SelfDelimiting (fun _ => True) len) :
    SelfDelimiting (fun t => (utf8 t).length < 2 ^ 64) fun t => framed len (utf8 t) :=
  (framed_selfDelimiting hlen).comap utf8_injective

end Framing

import NeoEngram.Framework.Framing

/-! # Percent-encoding

A byte of a chosen set stands for itself, every other byte is a percent sign
with two hexadecimal digits. Reading is lenient: a percent sign that is not
followed by two digits stands for itself, and small letters are digits too.
-/

namespace PercentEncoding

open Framing

/-! ## UTF-8 text -/

/-- The text of a byte string that is UTF-8. -/
def decode_utf8 (bytes : Bytes) : Option (List Char) :=
  bytes.toByteArray.utf8Decode?.map Array.toList

@[simp] theorem utf8_append (s t : List Char) : utf8 (s ++ t) = utf8 s ++ utf8 t :=
  List.flatMap_append

theorem utf8_cons (c : Char) (t : List Char) : utf8 (c :: t) = utf8 [c] ++ utf8 t := by
  simp [utf8]

variable {c : Char}

theorem utf8_ascii (h : c.toNat < 128) : utf8 [c] = [UInt8.ofNat c.toNat] := by
  have hval : c.val.toNat < 128 := h
  simp only [utf8, List.flatMap_cons, List.flatMap_nil, List.append_nil, String.utf8EncodeChar]
  rw [if_pos (by omega)]
  rfl

theorem utf8_map_ascii {t : List Char} (h : ∀ c ∈ t, c.toNat < 128) :
    utf8 t = t.map fun c => UInt8.ofNat c.toNat := by
  induction t with
  | nil => rfl
  | cons c t ih =>
    obtain ⟨hc, ht⟩ := List.forall_mem_cons.mp h
    rw [utf8_cons, utf8_ascii hc, ih ht]
    rfl

/-! ## Hexadecimal digits -/

/-- One hexadecimal digit, as a capital letter from ten on. -/
def hex_digit (n : Nat) : Char := Char.ofNat (if n < 10 then 48 + n else 65 + (n - 10))

/-- The value of a hexadecimal digit, in capital or small letters. -/
def hex_value (b : UInt8) : Option Nat :=
  let n := b.toNat
  if 48 ≤ n ∧ n ≤ 57 then some (n - 48)
  else if 65 ≤ n ∧ n ≤ 70 then some (n - 55)
  else if 97 ≤ n ∧ n ≤ 102 then some (n - 87)
  else none

/-- The capital hexadecimal digits. -/
def IsHexDigit (c : Char) : Prop := 48 ≤ c.toNat ∧ c.toNat ≤ 57 ∨ 65 ≤ c.toNat ∧ c.toNat ≤ 70

theorem isHexDigit_hex_digit {n : Nat} (h : n < 16) : IsHexDigit (hex_digit n) := by
  have hall : ∀ n < 16, 48 ≤ (hex_digit n).toNat ∧ (hex_digit n).toNat ≤ 57 ∨
      65 ≤ (hex_digit n).toNat ∧ (hex_digit n).toNat ≤ 70 := by decide
  exact hall n h

theorem hex_value_hex_digit {n : Nat} (h : n < 16) :
    hex_value (UInt8.ofNat (hex_digit n).toNat) = some n := by
  have hall : ∀ n < 16, hex_value (UInt8.ofNat (hex_digit n).toNat) = some n := by decide
  exact hall n h

theorem IsHexDigit.ascii (h : IsHexDigit c) : c.toNat < 128 := by
  unfold IsHexDigit at h
  omega

/-! ## Encoding and decoding -/

/-- A byte as text: itself, if it is kept, or its number. -/
def encode_byte (keep : UInt8 → Bool) (b : UInt8) : List Char :=
  if keep b then [Char.ofNat b.toNat]
  else ['%', hex_digit (b.toNat / 16), hex_digit (b.toNat % 16)]

def percent_encode (keep : UInt8 → Bool) (bytes : Bytes) : List Char :=
  bytes.flatMap (encode_byte keep)

def percent_decode : Bytes → Bytes
  | [] => []
  | [b] => [b]
  | [b, c] => [b, c]
  | b :: high :: low :: rest =>
    if b = 37 then
      match hex_value high, hex_value low with
      | some h, some l => UInt8.ofNat (16 * h + l) :: percent_decode rest
      | _, _ => b :: percent_decode (high :: low :: rest)
    else b :: percent_decode (high :: low :: rest)

/-- A set of bytes that can stand for themselves: plain, and without the percent sign. -/
def Plain (keep : UInt8 → Bool) : Prop := ∀ b, keep b = true → b.toNat < 128 ∧ b ≠ 37

/-! ## Reading what was written -/

variable {keep : UInt8 → Bool}

@[simp] theorem percent_encode_cons (b : UInt8) (bytes : Bytes) :
    percent_encode keep (b :: bytes) = encode_byte keep b ++ percent_encode keep bytes :=
  rfl

variable {b : UInt8}

theorem toNat_ofNat_byte : (Char.ofNat b.toNat).toNat = b.toNat := by
  have hb := b.toNat_lt
  have hvalid : b.toNat.isValidChar := .inl (by omega)
  rw [Char.ofNat, dif_pos hvalid]
  exact Char.toNat_ofNatAux hvalid

theorem mem_encode_byte (h : c ∈ encode_byte keep b) :
    (keep b = true ∧ c = Char.ofNat b.toNat) ∨ c = '%' ∨ IsHexDigit c := by
  have hb := b.toNat_lt
  unfold encode_byte at h
  split at h
  · next hkeep => exact .inl ⟨hkeep, List.mem_singleton.mp h⟩
  · simp only [List.mem_cons, List.not_mem_nil, or_false] at h
    rcases h with rfl | rfl | rfl
    · exact .inr (.inl rfl)
    · exact .inr (.inr (isHexDigit_hex_digit (by omega)))
    · exact .inr (.inr (isHexDigit_hex_digit (by omega)))

theorem mem_percent_encode {bytes : Bytes} (h : c ∈ percent_encode keep bytes) :
    (∃ b ∈ bytes, keep b = true ∧ c = Char.ofNat b.toNat) ∨ c = '%' ∨ IsHexDigit c := by
  obtain ⟨b, hb, hc⟩ := List.mem_flatMap.mp h
  rcases mem_encode_byte hc with ⟨hkeep, hchar⟩ | hother
  · exact .inl ⟨b, hb, hkeep, hchar⟩
  · exact .inr hother

/-- A character that is not kept, is no digit and is no percent sign does not occur. -/
theorem not_mem_percent_encode {bytes : Bytes}
    (hkept : keep (UInt8.ofNat c.toNat) = false) (hpercent : c ≠ '%') (hdigit : ¬ IsHexDigit c) :
    c ∉ percent_encode keep bytes := by
  intro hc
  rcases mem_percent_encode hc with ⟨b, _, hb, rfl⟩ | rfl | h
  · rw [toNat_ofNat_byte, UInt8.ofNat_toNat] at hkept
    exact Bool.false_ne_true (hkept.symm.trans hb)
  · exact hpercent rfl
  · exact hdigit h

theorem percent_decode_cons (h : b ≠ 37) (rest : Bytes) :
    percent_decode (b :: rest) = b :: percent_decode rest := by
  match rest with
  | [] => rfl
  | [c] => rfl
  | high :: low :: rest => rw [percent_decode, if_neg h]

theorem percent_decode_encode_byte (hkeep : Plain keep) (b : UInt8) (rest : Bytes) :
    percent_decode (utf8 (encode_byte keep b) ++ rest) = b :: percent_decode rest := by
  have hb := b.toNat_lt
  unfold encode_byte
  split
  · next hkept =>
    obtain ⟨hplain, hpercent⟩ := hkeep b hkept
    rw [utf8_ascii (by rw [toNat_ofNat_byte]; exact hplain), toNat_ofNat_byte, UInt8.ofNat_toNat]
    exact percent_decode_cons hpercent rest
  · have hhigh : b.toNat / 16 < 16 := by omega
    have hlow : b.toNat % 16 < 16 := by omega
    have hascii : ∀ c ∈ ['%', hex_digit (b.toNat / 16), hex_digit (b.toNat % 16)],
        c.toNat < 128 := by
      simp only [List.forall_mem_cons, List.not_mem_nil, false_implies, implies_true, and_true]
      exact ⟨by decide, (isHexDigit_hex_digit hhigh).ascii, (isHexDigit_hex_digit hlow).ascii⟩
    rw [utf8_map_ascii hascii]
    show percent_decode (37 :: _ :: _ :: rest) = _
    rw [percent_decode, if_pos rfl, hex_value_hex_digit hhigh, hex_value_hex_digit hlow]
    show UInt8.ofNat (16 * (b.toNat / 16) + b.toNat % 16) :: _ = _
    rw [show 16 * (b.toNat / 16) + b.toNat % 16 = b.toNat by omega, UInt8.ofNat_toNat]

/-- **What was encoded is read back**, whatever follows. -/
theorem percent_decode_encode (hkeep : Plain keep) (bytes rest : Bytes) :
    percent_decode (utf8 (percent_encode keep bytes) ++ rest) = bytes ++ percent_decode rest := by
  induction bytes with
  | nil => rfl
  | cons b bytes ih =>
    rw [percent_encode_cons, utf8_append, List.append_assoc, percent_decode_encode_byte hkeep, ih]
    rfl

theorem percent_encode_injective (hkeep : Plain keep) {a b : Bytes}
    (h : percent_encode keep a = percent_encode keep b) : a = b := by
  have hread : ∀ bytes, percent_decode (utf8 (percent_encode keep bytes)) = bytes := by
    intro bytes
    have hdecode := percent_decode_encode hkeep bytes []
    rw [List.append_nil] at hdecode
    rw [hdecode]
    exact List.append_nil bytes
  rw [← hread a, h, hread b]

end PercentEncoding

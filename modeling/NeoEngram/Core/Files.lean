import NeoEngram.Framework.Framing

/-! # The content of files -/

namespace NeoEngram

open Framing

/-- The content of a file; its length is a `u64`. -/
structure FileContent where
  bytes : Bytes
  fits : bytes.length < 2 ^ 64
  deriving DecidableEq

namespace FileContent

def len (content : FileContent) : UInt64 := UInt64.ofNat content.bytes.length

@[simp] theorem toNat_len (content : FileContent) : content.len.toNat = content.bytes.length :=
  UInt64.toNat_ofNat_of_lt' content.fits

theorem len_eq_iff {content : FileContent} {size : UInt64} :
    content.len = size ↔ content.bytes.length = size.toNat := by
  rw [← UInt64.toNat_inj, toNat_len]

def empty : FileContent := ⟨[], by decide⟩

end FileContent

end NeoEngram

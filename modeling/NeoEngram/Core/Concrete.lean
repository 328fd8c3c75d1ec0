import NeoEngram.Core.Canonical

/-! # Parameters for running the model

Values for the parameters of the model: Unicode tables that are right on ASCII
text, and a polynomial hash.
-/

namespace NeoEngram

open Framing

theorem toLower_eq_of_not_lower {c d : Char} (h : c.toLower = d)
    (hd : d.toNat < 97 ∨ 122 < d.toNat) : c = d := by
  unfold Char.toLower at h
  split at h
  · next hupper =>
    -- an upper case letter is mapped to a lower case letter
    have hval : c.val + ('a'.val - 'A'.val) = d.val := congrArg Char.val h
    have hlow := UInt32.le_iff_toNat_le.mp hupper.1
    have hhigh := UInt32.le_iff_toNat_le.mp hupper.2
    have hsum : (c.val + ('a'.val - 'A'.val)).toNat = d.toNat := congrArg UInt32.toNat hval
    rw [UInt32.toNat_add] at hsum
    simp at hlow hhigh hsum
    omega
  · exact h

theorem toLower_eq_slash {c : Char} (h : c.toLower = '/') : c = '/' :=
  toLower_eq_of_not_lower h (by decide)

/-- On ASCII text: every text is composed, and folding is the lower case. -/
def asciiTables : UnicodeTables where
  nfc := fun t => t
  case_fold := fun t => t.map Char.toLower
  to_lowercase := fun c => [c.toLower]
  fold_slash_free := by
    intro t ht hmem
    obtain ⟨c, hc, hlower⟩ := List.mem_map.mp hmem
    exact ht (toLower_eq_slash hlower ▸ hc)

/-- A long text, given in pieces: a piece is read in time quadratic in its length. -/
def pieces (parts : List String) : Text := parts.flatMap String.toList

/-- The digest whose bytes are those of a number. -/
def digest_of_nat (n : Nat) : ContentDigest := ⟨⟨⟨le_bytes 32 n⟩, by simp⟩⟩

/-- A polynomial hash of the bytes. -/
def poly_hash : Blake3 := fun bytes =>
  digest_of_nat (bytes.foldl (fun h b => (h * 257 + b.toNat + 1) % 2 ^ 256) 0)

def ascii_path (s : String) (h : validate_logical_path asciiTables s.toList = .ok ()) :
    LogicalPath asciiTables :=
  ⟨s.toList, h⟩

/-- The record of an empty file with a Manifest identity given by a number. -/
def empty_file (path : LogicalPath asciiTables) (manifest : Nat) : FileRecord asciiTables :=
  ⟨path, ⟨digest_of_nat manifest⟩, 0, 0⟩

end NeoEngram

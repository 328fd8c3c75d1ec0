import NeoEngram.Framework.Checks
import NeoEngram.Framework.OrderedKeys

/-! # Content identities and validation errors

Every immutable object is named by a 256-bit digest of its canonical
encoding. The identities of payload objects, Manifests, Directories and
Commits are one digest under four types.
-/

namespace NeoEngram

/-! ### Validation errors -/

inductive ValidationErrorKind where
  | InvalidDigest
  | InvalidPath
  | InvalidObject
  | InvalidManifest
  | InvalidDirectory
  | InvalidCommit
  | InvalidPublication
  | InvalidIndex
  | Overflow
  deriving DecidableEq, Repr

structure ValidationError where
  kind : ValidationErrorKind
  message : String
  deriving DecidableEq, Repr

abbrev ValidationResult (α : Type) := Except ValidationError α

/-! ### Digests -/

structure ContentDigest where
  bytes : Vector UInt8 32
  deriving DecidableEq

namespace ContentDigest

def hex_digit (n : Nat) : Char :=
  Char.ofNat (if n < 10 then '0'.toNat + n else 'a'.toNat + (n - 10))

/-- The 64 lowercase hexadecimal characters of the digest. -/
def to_hex (d : ContentDigest) : String :=
  String.ofList (d.bytes.toList.flatMap fun b =>
    [hex_digit (b.toNat / 16), hex_digit (b.toNat % 16)])

instance : ToString ContentDigest := ⟨to_hex⟩

theorem hex_digit_injective {m n : Nat} (hm : m < 16) (hn : n < 16)
    (h : hex_digit m = hex_digit n) : m = n := by
  have hall : ∀ m < 16, ∀ n < 16, hex_digit m = hex_digit n → m = n := by decide
  exact hall m hm n hn h

theorem flatMap_hex_injective {a b : List UInt8}
    (h : a.flatMap (fun x => [hex_digit (x.toNat / 16), hex_digit (x.toNat % 16)]) =
      b.flatMap fun x => [hex_digit (x.toNat / 16), hex_digit (x.toNat % 16)]) : a = b := by
  induction a generalizing b with
  | nil =>
    cases b with
    | nil => rfl
    | cons y b => simp at h
  | cons x a ih =>
    cases b with
    | nil => simp at h
    | cons y b =>
      simp only [List.flatMap_cons, List.cons_append, List.nil_append, List.cons.injEq] at h
      obtain ⟨hhigh, hlow, hrest⟩ := h
      have hx := x.toNat_lt
      have hy := y.toNat_lt
      have hdiv := hex_digit_injective (by omega) (by omega) hhigh
      have hmod := hex_digit_injective (Nat.mod_lt _ (by decide)) (Nat.mod_lt _ (by decide)) hlow
      have hxy : x = y := UInt8.toNat_inj.mp (by omega)
      rw [hxy, ih hrest]

theorem to_hex_injective {a b : ContentDigest} (h : a.to_hex = b.to_hex) : a = b := by
  have hlist := flatMap_hex_injective (String.ofList_inj.mp h)
  have hbytes : a.bytes = b.bytes := Vector.toList_inj.mp hlist
  cases a
  cases b
  cases hbytes
  rfl

def hex_value (c : Char) : Option Nat :=
  if '0' ≤ c ∧ c ≤ '9' then some (c.toNat - '0'.toNat)
  else if 'a' ≤ c ∧ c ≤ 'f' then some (c.toNat - 'a'.toNat + 10)
  else none

theorem hex_value_hex_digit {n : Nat} (hn : n < 16) : hex_value (hex_digit n) = some n := by
  have hall : ∀ n < 16, hex_value (hex_digit n) = some n := by decide
  exact hall n hn

theorem hex_value_eq_some {c : Char} {n : Nat} (h : hex_value c = some n) :
    n < 16 ∧ hex_digit n = c := by
  unfold hex_value at h
  split at h
  · next hdigit =>
    have hlow : 48 ≤ c.toNat := hdigit.1
    have hhigh : c.toNat ≤ 57 := hdigit.2
    have hn : c.toNat - 48 = n := Option.some.inj h
    refine ⟨by omega, ?_⟩
    rw [hex_digit, if_pos (by omega), show '0'.toNat + n = c.toNat by show 48 + n = _; omega]
    exact Char.ofNat_toNat c
  · split at h
    · next hletter =>
      have hlow : 97 ≤ c.toNat := hletter.1
      have hhigh : c.toNat ≤ 102 := hletter.2
      have hn : c.toNat - 97 + 10 = n := Option.some.inj h
      refine ⟨by omega, ?_⟩
      rw [hex_digit, if_neg (by omega),
        show 'a'.toNat + (n - 10) = c.toNat by show 97 + (n - 10) = _; omega]
      exact Char.ofNat_toNat c
    · cases h

def hex_bytes : List Char → Option (List UInt8)
  | [] => some []
  | [_] => none
  | high :: low :: rest => do
    let h ← hex_value high
    let l ← hex_value low
    let bytes ← hex_bytes rest
    return UInt8.ofNat (16 * h + l) :: bytes

theorem hex_bytes_eq_some {t : List Char} {bytes : List UInt8} : hex_bytes t = some bytes ↔
      t = bytes.flatMap fun b => [hex_digit (b.toNat / 16), hex_digit (b.toNat % 16)] := by
  induction t using hex_bytes.induct generalizing bytes with
  | case1 =>
    cases bytes with
    | nil => simp [hex_bytes]
    | cons b bytes => simp [hex_bytes]
  | case2 c =>
    cases bytes with
    | nil => simp [hex_bytes]
    | cons b bytes => simp [hex_bytes]
  | case3 high low rest ih =>
    constructor
    · intro h
      simp only [hex_bytes, bind, Option.bind_eq_some_iff, pure, Option.some.injEq] at h
      obtain ⟨x, hx, y, hy, r, hr, rfl⟩ := h
      obtain ⟨hxlt, hhigh⟩ := hex_value_eq_some hx
      obtain ⟨hylt, hlow⟩ := hex_value_eq_some hy
      have hbyte : (UInt8.ofNat (16 * x + y)).toNat = 16 * x + y := by
        rw [UInt8.toNat_ofNat']
        omega
      rw [List.flatMap_cons, hbyte, show (16 * x + y) / 16 = x by omega,
        show (16 * x + y) % 16 = y by omega, hhigh, hlow, ← ih.mp hr]
      rfl
    · intro h
      cases bytes with
      | nil => simp at h
      | cons b bytes =>
        simp only [List.flatMap_cons, List.cons_append, List.nil_append, List.cons.injEq] at h
        obtain ⟨hhigh, hlow, hrest⟩ := h
        have hb := b.toNat_lt
        have hbyte : UInt8.ofNat (16 * (b.toNat / 16) + b.toNat % 16) = b := by
          rw [show 16 * (b.toNat / 16) + b.toNat % 16 = b.toNat by omega]
          exact UInt8.ofNat_toNat
        simp only [hex_bytes, hhigh, hlow, hex_value_hex_digit (show b.toNat / 16 < 16 by omega),
          hex_value_hex_digit (show b.toNat % 16 < 16 by omega), ih.mpr hrest, bind,
          Option.bind_some, hbyte, pure]

/-- `ContentDigest::from_str`: 64 lowercase hexadecimal characters. -/
def from_str (t : List Char) : Option ContentDigest := do
  let bytes ← hex_bytes t
  if h : bytes.length = 32 then return ⟨⟨bytes.toArray, by simp [h]⟩⟩ else none

theorem from_str_eq_some {t : List Char} {d : ContentDigest} :
    from_str t = some d ↔ t = d.to_hex.toList := by
  have hlist : d.to_hex.toList = d.bytes.toList.flatMap fun b =>
      [hex_digit (b.toNat / 16), hex_digit (b.toNat % 16)] := String.toList_ofList
  rw [hlist, ← hex_bytes_eq_some]
  constructor
  · intro h
    simp only [from_str, bind, Option.bind_eq_some_iff] at h
    obtain ⟨bytes, hbytes, h⟩ := h
    split at h
    · next hlength =>
      cases h
      exact hbytes
    · cases h
  · intro h
    simp only [from_str, bind, h, Option.bind_some]
    rw [dif_pos (by simp)]
    rfl

/-- The bytes of the digest, as the canonical encoders write them. -/
def as_bytes (d : ContentDigest) : List UInt8 := d.bytes.toList

@[simp] theorem length_as_bytes (d : ContentDigest) : d.as_bytes.length = 32 := by
  simp [as_bytes]

theorem as_bytes_injective {a b : ContentDigest} (h : a.as_bytes = b.as_bytes) : a = b := by
  have hbytes : a.bytes = b.bytes := Vector.toList_inj.mp h
  cases a; cases b; simp_all

/-- Digests are ordered by their bytes. -/
instance : LinearOrder ContentDigest :=
  LinearOrder.lift' (fun d => d.as_bytes.map UInt8.toNat) fun _ _ h =>
    as_bytes_injective (List.map_injective_iff.mpr (fun _ _ => UInt8.toNat_inj.mp) h)

end ContentDigest

/-! ### Typed identities -/

inductive IdKind where
  | object
  | manifest
  | directory
  | commit
  deriving DecidableEq, Repr

/-- A digest that names an object of one kind. -/
structure TypedId (kind : IdKind) where
  digest : ContentDigest
  deriving DecidableEq

abbrev ObjectId := TypedId .object
abbrev ManifestId := TypedId .manifest
abbrev DirectoryId := TypedId .directory
abbrev CommitId := TypedId .commit

namespace TypedId

variable {kind : IdKind}

instance : ToString (TypedId kind) := ⟨fun id => id.digest.to_hex⟩

def as_bytes (id : TypedId kind) : List UInt8 := id.digest.as_bytes

@[simp] theorem length_as_bytes (id : TypedId kind) : id.as_bytes.length = 32 :=
  id.digest.length_as_bytes

theorem as_bytes_injective {a b : TypedId kind} (h : a.as_bytes = b.as_bytes) : a = b := by
  have hdigest : a.digest = b.digest := ContentDigest.as_bytes_injective h
  cases a; cases b; simp_all

instance : LinearOrder (TypedId kind) :=
  LinearOrder.lift' digest fun a b h => by cases a; cases b; simp_all

instance : Std.TransOrd (TypedId kind) := inferInstance

end TypedId

end NeoEngram

import NeoEngram.Core.Directory
import NeoEngram.Framework.PercentEncoding

/-! # Functions of strings

The functions of Rust's `str` that the wire formats use, on texts: trimming,
letters of either case, splitting off the ends, and decimal numbers.
-/

namespace NeoEngram

open Framing List

/-- The length of a string is its number of bytes. -/
def str_len (t : Text) : Nat := (utf8 t).length

/-! ## Trimming and white space -/

def trim (t : Text) : Text := ((t.dropWhile is_whitespace).reverse.dropWhile is_whitespace).reverse

variable {c : Char}

theorem is_whitespace_of_range (h : 45 ≤ c.toNat ∧ c.toNat ≤ 122) : is_whitespace c = false := by
  rw [← Bool.not_eq_true]
  intro hspace
  simp only [is_whitespace, Bool.or_eq_true, Bool.and_eq_true, decide_eq_true_eq, mem_cons,
    not_mem_nil, or_false] at hspace
  rcases hspace with (⟨-, h₂⟩ | ⟨h₁, -⟩) | hspace
  · have : c.toNat ≤ 13 := h₂
    omega
  · have : 0x2000 ≤ c.toNat := h₁
    omega
  · rcases hspace with rfl | rfl | rfl | rfl | rfl | rfl | rfl | rfl | rfl <;> revert h <;> decide

variable {t : Text}

theorem trim_eq_self (h : ∀ c ∈ t, is_whitespace c = false) : trim t = t := by
  have hdrop : ∀ u : Text, (∀ c ∈ u, is_whitespace c = false) → u.dropWhile is_whitespace = u := by
    intro u hu
    cases u with
    | nil => rfl
    | cons c u => rw [dropWhile_cons_of_neg]; simp [hu c mem_cons_self]
  rw [trim, hdrop t h, hdrop t.reverse (fun c hc => h c (mem_reverse.mp hc)), reverse_reverse]

def is_ascii_whitespace (c : Char) : Bool := c ∈ [' ', '\t', '\n', '\u000c', '\r']

/-- The words between white space. -/
def split_ascii_whitespace (t : Text) : List Text :=
  (t.splitOnP is_ascii_whitespace).filter (· ≠ [])

theorem splitOnP_free {p : Char → Bool} (t : Text) :
    ∀ word ∈ t.splitOnP p, ∀ c ∈ word, p c = false := by
  induction t with
  | nil => simp
  | cons d t ih =>
    rw [splitOnP_cons_eq_if_modifyHead]
    by_cases hd : p d = true
    · simp only [hd, if_true]
      intro word hword
      rcases mem_cons.mp hword with rfl | hword
      · exact fun c hc => absurd hc not_mem_nil
      · exact ih word hword
    · -- the letter is put in front of the first word of the rest
      obtain ⟨first, rest, hsplit⟩ := exists_cons_of_ne_nil (splitOnP_ne_nil p t)
      rw [hsplit] at ih ⊢
      simp only [hd, if_false, modifyHead_cons, Bool.false_eq_true]
      obtain ⟨hfirst, hrest⟩ := forall_mem_cons.mp ih
      intro word hword
      rcases mem_cons.mp hword with rfl | hword
      · intro c hc
        rcases mem_cons.mp hc with rfl | hc
        · exact Bool.not_eq_true _ ▸ hd
        · exact hfirst c hc
      · exact hrest word hword

theorem split_ascii_whitespace_free {word : Text} (h : word ∈ split_ascii_whitespace t)
    (hc : is_ascii_whitespace c = true) : c ∉ word := by
  intro hmem
  have hfree := splitOnP_free t word (mem_of_mem_filter h) c hmem
  rw [hc] at hfree
  cases hfree

/-! ## Letters of either case -/

def eq_ignore_ascii_case (a b : Text) : Bool := to_ascii_lowercase a = to_ascii_lowercase b

/-! ## The ends of a text -/

theorem strip_front_eq_some {lead rest : Text} :
    strip_front lead t = some rest ↔ t = lead ++ rest := by
  unfold strip_front
  split
  · next h =>
    obtain ⟨r, rfl⟩ := List.isPrefixOf_iff_prefix.mp h
    simp
  · next h =>
    constructor
    · intro h
      cases h
    · intro heq
      exact absurd (List.isPrefixOf_iff_prefix.mpr ⟨rest, heq.symm⟩) h

def trim_start_matches (c : Char) (t : Text) : Text := t.dropWhile (· = c)

theorem trim_start_matches_eq_self (h : t.head? ≠ some c) : trim_start_matches c t = t := by
  cases t with
  | nil => rfl
  | cons d t =>
    have hne : d ≠ c := fun heq => h (congrArg some heq)
    unfold trim_start_matches
    rw [dropWhile_cons_of_neg (by simpa using hne)]

/-! ## Decimal numbers -/

/-- The number of a text of decimal digits. -/
def parse_digits (t : Text) : Option Nat :=
  if t ≠ [] ∧ t.all Char.isDigit then some (Nat.ofDigitChars 10 t 0) else none

/-- `str::parse` for an unsigned integer below a bound. -/
def parse_unsigned (bound : Nat) (t : Text) : Option Nat := do
  let digits := match t with
    | '+' :: digits => digits
    | _ => t
  let n ← parse_digits digits
  if n < bound then some n else none

theorem parse_unsigned_lt {bound n : Nat} (h : parse_unsigned bound t = some n) : n < bound := by
  simp only [parse_unsigned, bind, Option.bind_eq_some_iff] at h
  obtain ⟨m, _, h⟩ := h
  split at h
  · next hlt =>
    cases h
    exact hlt
  · cases h

/-- `str::parse` for `i32` -/
def parse_i32 (t : Text) : Option Int := do
  let n ← match t with
    | '+' :: digits => (parse_digits digits).map Int.ofNat
    | '-' :: digits => (parse_digits digits).map fun n => -(n : Int)
    | _ => (parse_digits t).map Int.ofNat
  if -2147483648 ≤ n ∧ n ≤ 2147483647 then some n else none

end NeoEngram

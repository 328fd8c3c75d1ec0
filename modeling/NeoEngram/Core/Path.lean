import NeoEngram.Framework.Words
import NeoEngram.Core.Ids

/-! # Logical paths

A logical path is a repository-relative UTF-8 text whose components are
separated by `/`. This file embeds `path.rs`: the validated types
`PathComponent` and `LogicalPath`, the case-folded `portable_key`, and
`validate_path_set`, which accepts a strictly sorted list of paths none of
which is, under portable keys, equal to or an ancestor of another one.

A Rust `String` is a list of characters here; UTF-8 keeps their order. The
Unicode tables of the external crates are a parameter.
-/

namespace NeoEngram

open Checks Words List

/-- A text, as its characters. -/
abbrev Text := List Char

instance : LawfulBEq Text := inferInstance

instance : Std.TransCmp (@compare Text LinearOrder.toOrd) := inferInstance

/-- The tables of the Unicode crates: canonical composition, full case folding and the
lower case of one character. -/
structure UnicodeTables where
  (nfc case_fold : Text → Text)
  to_lowercase : Char → Text
  /-- No folding and no composition produces a slash. -/
  fold_slash_free : ∀ t : Text, '/' ∉ t → '/' ∉ nfc (case_fold t)

variable {U : UnicodeTables}

/-! ## Components -/

def REPOSITORY_DIRECTORY : Text := ".neoengram".toList
def STORAGE_TEMP_PREFIX : Text := ".neoengram-tmp-".toList

def invalid_path (message : String) : ValidationError := ⟨.InvalidPath, message⟩

/-- The text without `lead` at its front, when it begins with `lead`. -/
def strip_front (lead t : Text) : Option Text :=
  if lead.isPrefixOf t then some (t.drop lead.length) else none

def to_ascii_lowercase (t : Text) : Text := t.map Char.toLower
def to_ascii_uppercase (t : Text) : Text := t.map Char.toUpper

def is_reserved_device_number (suffix : Text) : Bool :=
  suffix ∈ [['1'], ['2'], ['3'], ['4'], ['5'], ['6'], ['7'], ['8'], ['9'], ['¹'], ['²'], ['³']]

/-- The device name is what stands before the first period, in upper case; some names take
a number. -/
def is_device_name (is_number : Text → Bool) (component : Text) : Bool :=
  let device_name := to_ascii_uppercase (component.takeWhile (· ≠ '.'))
  device_name ∈ ["CON".toList, "PRN".toList, "AUX".toList, "NUL".toList, "CLOCK$".toList,
      "CONIN$".toList, "CONOUT$".toList]
    || (strip_front "COM".toList device_name).any is_number
    || (strip_front "LPT".toList device_name).any is_number

def is_reserved_device_name (component : Text) : Bool :=
  is_device_name is_reserved_device_number component

/-- The source compares the first bytes with the reserved texts; these are ASCII, so they are
characters. -/
def is_reserved_name (component : Text) : Bool :=
  to_ascii_lowercase component = REPOSITORY_DIRECTORY
    || to_ascii_lowercase (component.take STORAGE_TEMP_PREFIX.length) = STORAGE_TEMP_PREFIX

def is_non_portable (character : Char) : Bool :=
  character ≤ '\u001f' || character ∈ ['<', '>', ':', '"', '|', '?', '*']

def validate_component (U : UnicodeTables) (component : Text) : ValidationResult Unit := do
  let shown := String.ofList component
  ensure (component ≠ [] ∧ component ≠ ['.'] ∧ component ≠ ['.', '.'])
    (invalid_path "path component must not be empty, '.' or '..'")
  ensure ('/' ∉ component ∧ '\\' ∉ component ∧ '\u0000' ∉ component)
    (invalid_path s!"path component contains a separator or NUL: {shown}")
  ensure (U.nfc component = component)
    (invalid_path s!"path component must use Unicode NFC: {shown}")
  ensure (component.getLast? ≠ some ' ' ∧ component.getLast? ≠ some '.')
    (invalid_path s!"path component must not end with a space or period: {shown}")
  ensure (component.any is_non_portable = false)
    (invalid_path s!"path component contains a non-portable character: {shown}")
  ensure (is_reserved_name component = false)
    (invalid_path s!"path component uses a reserved NeoEngram name: {shown}")
  ensure (is_reserved_device_name component = false)
    (invalid_path s!"path component uses a reserved Windows device name: {shown}")

def portable_component_key (U : UnicodeTables) (component : Text) : Text :=
  U.nfc (U.case_fold component)

structure PathComponent (U : UnicodeTables) where
  text : Text
  valid : validate_component U text = .ok ()
  deriving DecidableEq

namespace PathComponent

def parse (U : UnicodeTables) (value : Text) : ValidationResult (PathComponent U) :=
  match h : validate_component U value with
  | .ok () => .ok ⟨value, h⟩
  | .error e => .error e

def portable_key (self : PathComponent U) : Text := portable_component_key U self.text

instance : ToString (PathComponent U) := ⟨fun c => String.ofList c.text⟩

theorem ext_text {a b : PathComponent U} (h : a.text = b.text) : a = b := by
  cases a; cases b; simp_all

instance : LinearOrder (PathComponent U) := LinearOrder.lift' text fun _ _ => ext_text

theorem parse_eq_ok {value : Text} {c : PathComponent U} :
    parse U value = .ok c ↔ c.text = value := by
  unfold parse
  constructor
  · intro h
    split at h
    · cases h; rfl
    · cases h
  · intro h
    subst h
    split
    · rfl
    · next e he => exact absurd (he.symm.trans c.valid) (by simp)

theorem ne_nil (c : PathComponent U) : c.text ≠ [] := by
  have h := c.valid
  simp only [validate_component, ok_iff] at h
  exact h.1.1

theorem slash_free (c : PathComponent U) : '/' ∉ c.text := by
  have h := c.valid
  simp only [validate_component, ok_iff] at h
  exact h.2.1.1

theorem portable_key_slash_free (c : PathComponent U) : '/' ∉ c.portable_key :=
  U.fold_slash_free _ c.slash_free

end PathComponent

/-! ## Logical paths -/

/-- The checks of `LogicalPath::parse`. -/
def validate_logical_path (U : UnicodeTables) (value : Text) : ValidationResult Unit := do
  let shown := String.ofList value
  ensure (value ≠ []) (invalid_path "logical path must not be empty")
  ensure (value.head? ≠ some '/')
    (invalid_path s!"logical path must be repository-relative: {shown}")
  ensure ('\\' ∉ value) (invalid_path s!"logical path must use '/' separators: {shown}")
  (split '/' value).forM fun component =>
    (validate_component U component).mapError fun error =>
      invalid_path s!"invalid logical path {shown}: {error.message}"

/-- A non-empty, repository-relative path with `/` separators. -/
structure LogicalPath (U : UnicodeTables) where
  text : Text
  valid : validate_logical_path U text = .ok ()
  deriving DecidableEq

/-- The text of a portable key, the element of the collision sets. -/
structure PortableKey where
  text : Text
  deriving DecidableEq

instance : LinearOrder PortableKey :=
  LinearOrder.lift' PortableKey.text fun a b h => by cases a; cases b; simp_all

namespace LogicalPath

def parse (U : UnicodeTables) (value : Text) : ValidationResult (LogicalPath U) :=
  match h : validate_logical_path U value with
  | .ok () => .ok ⟨value, h⟩
  | .error e => .error e

def components (self : LogicalPath U) : List Text :=
  split '/' self.text

def portable_words (self : LogicalPath U) : List Text :=
  self.components.map (portable_component_key U)

def portable_key (self : LogicalPath U) : PortableKey := ⟨joined '/' self.portable_words⟩

instance : ToString (LogicalPath U) := ⟨fun p => String.ofList p.text⟩

variable {a b : LogicalPath U}

theorem ext_text (h : a.text = b.text) : a = b := by
  cases a; cases b; simp_all

instance : LinearOrder (LogicalPath U) := LinearOrder.lift' text fun _ _ => ext_text

instance : Std.TransOrd (LogicalPath U) := inferInstance

theorem parse_eq_ok {value : Text} {p : LogicalPath U} :
    parse U value = .ok p ↔ p.text = value := by
  unfold parse
  constructor
  · intro h
    split at h
    · cases h; rfl
    · cases h
  · intro h
    subst h
    split
    · rfl
    · next e he => exact absurd (he.symm.trans p.valid) (by simp)

section

variable (p : LogicalPath U)

theorem components_ne_nil : p.components ≠ [] := split_ne_nil '/' p.text

theorem joined_components : joined '/' p.components = p.text := joined_split '/' p.text

theorem components_injective (h : a.components = b.components) : a = b :=
  ext_text (split_injective '/' h)

theorem validate_of_mem_components {component : Text}
    (h : component ∈ p.components) : validate_component U component = .ok () := by
  have hvalid := p.valid
  simp only [validate_logical_path, ok_iff, forM_eq_ok, mapError_eq_ok] at hvalid
  obtain ⟨-, -, -, hall⟩ := hvalid
  exact hall component h

def names : List (PathComponent U) :=
  p.components.attach.map fun c => ⟨c.1, p.validate_of_mem_components c.2⟩

@[simp] theorem names_map_text : p.names.map PathComponent.text = p.components := by
  simp [names, Function.comp_def]

theorem names_ne_nil : p.names ≠ [] := by
  intro h
  exact p.components_ne_nil (by rw [← names_map_text, h, map_nil])

theorem names_injective (h : a.names = b.names) : a = b :=
  components_injective (by rw [← names_map_text, h, names_map_text])

theorem mapM_parse_components : p.components.mapM (PathComponent.parse U) = .ok p.names := by
  rw [mapM_eq_ok, ← names_map_text, forall₂_map_left_iff]
  exact forall₂_same.mpr fun c _ => PathComponent.parse_eq_ok.mpr rfl

theorem portable_words_eq : p.portable_words = p.names.map PathComponent.portable_key := by
  rw [portable_words, ← names_map_text, List.map_map]
  rfl

theorem portable_words_ne_nil : p.portable_words ≠ [] := by
  simpa [portable_words] using p.components_ne_nil

theorem portable_words_sepFree : SepFree '/' p.portable_words := by
  intro w hw
  rw [portable_words_eq] at hw
  obtain ⟨c, -, rfl⟩ := mem_map.mp hw
  exact c.portable_key_slash_free

end

theorem portable_key_eq_iff :
    a.portable_key = b.portable_key ↔ a.portable_words = b.portable_words := by
  constructor
  · intro h
    exact joined_injective '/' a.portable_words_sepFree b.portable_words_sepFree
      a.portable_words_ne_nil b.portable_words_ne_nil (congrArg PortableKey.text h)
  · intro h
    rw [portable_key, portable_key, h]

end LogicalPath

/-! ## Path sets -/

/-- The parts of a text that stand before one of its slashes, shortest first. -/
def slash_fronts : Text → List Text
  | [] => []
  | c :: t =>
    if c = '/' then [] :: (slash_fronts t).map (c :: ·) else (slash_fronts t).map (c :: ·)

theorem mem_slash_fronts {p t : Text} : p ∈ slash_fronts t ↔ ∃ r, t = p ++ '/' :: r := by
  induction t generalizing p with
  | nil => simp [slash_fronts]
  | cons c t ih =>
    have hmap : p ∈ (slash_fronts t).map (c :: ·) ↔ ∃ q, p = c :: q ∧ ∃ r, t = q ++ '/' :: r := by
      simp only [List.mem_map, ih]
      constructor
      · rintro ⟨q, ⟨r, hr⟩, rfl⟩
        exact ⟨q, rfl, r, hr⟩
      · rintro ⟨q, rfl, r, hr⟩
        exact ⟨q, ⟨r, hr⟩, rfl⟩
    -- the front is empty exactly when the text starts with the slash
    cases p with
    | nil =>
      by_cases hc : c = '/'
      · simp [slash_fronts, hc]
      · simp [slash_fronts, hc]
    | cons d p =>
      have hcons : d :: p ∈ slash_fronts (c :: t) ↔ d :: p ∈ (slash_fronts t).map (c :: ·) := by
        by_cases hc : c = '/'
        · simp [slash_fronts, hc]
        · simp [slash_fronts, hc]
      rw [hcons, hmap]
      constructor
      · rintro ⟨q, hq, r, rfl⟩
        obtain ⟨rfl, rfl⟩ := List.cons.inj hq
        exact ⟨r, rfl⟩
      · rintro ⟨r, hr⟩
        obtain ⟨rfl, rfl⟩ := List.cons.inj hr
        exact ⟨p, rfl, r, rfl⟩

/-- The first element of the set that is not below `least`. -/
def first_from (keys : Std.ExtTreeSet PortableKey) (least : PortableKey) : Option PortableKey :=
  keys.toList.find? fun candidate => least ≤ candidate

/-- The texts of the three path errors; the path is shown after each of them. -/
structure PathSetErrors where
  kind : ValidationErrorKind
  (unordered collision ancestor : String)

/-- What is checked of the next portable key: it is new, and no descendant or ancestor of a key seen
so far. -/
def validate_next_key {ε : Type} (collision ancestor : ε)
    (portable_paths : Std.ExtTreeSet PortableKey) (portable_path : PortableKey) :
    Except ε Unit := do
  ensure (portable_path ∉ portable_paths) collision
  ensure (∀ front ∈ slash_fronts portable_path.text, ⟨front⟩ ∉ portable_paths) ancestor
  let descendant_prefix : Text := portable_path.text ++ ['/']
  ensure (¬ (first_from portable_paths ⟨ descendant_prefix⟩).any
      fun candidate => descendant_prefix.isPrefixOf candidate.text) ancestor

/-- What a sorted path list checks of its next path, after `previous` and with the portable
keys seen so far. -/
def validate_next_path (errors : PathSetErrors) (previous : Option (LogicalPath U))
    (portable_paths : Std.ExtTreeSet PortableKey) (path : LogicalPath U) :
    ValidationResult Unit := do
  ensure (previous.all (· < path)) ⟨errors.kind, s!"{errors.unordered}: {path}"⟩
  validate_next_key ⟨errors.kind, s!"{errors.collision}: {path}"⟩
    ⟨errors.kind, s!"{errors.ancestor}: {path}"⟩ portable_paths path.portable_key

def PATH_SET_ERRORS : PathSetErrors where
  kind := .InvalidPath
  unordered := "logical paths must be strictly sorted and unique"
  collision := "logical paths collide under portable case rules"
  ancestor := "a file path is also an ancestor of another path"

def validate_path_set_from (previous : Option (LogicalPath U))
    (portable_paths : Std.ExtTreeSet PortableKey) : List (LogicalPath U) → ValidationResult Unit
  | [] => .ok ()
  | path :: paths => do
    validate_next_path PATH_SET_ERRORS previous portable_paths path
    validate_path_set_from (some path) (portable_paths.insert path.portable_key) paths

/-- Accepts strictly sorted paths that are portable-unique and free of prefix conflicts. -/
def validate_path_set (paths : List (LogicalPath U)) : ValidationResult Unit :=
  validate_path_set_from none ∅ paths

/-- One key is the other one or an ancestor of it. -/
def KeysConflict (a b : PortableKey) : Prop :=
  a = b ∨ (∃ r, b.text = a.text ++ '/' :: r) ∨ ∃ r, a.text = b.text ++ '/' :: r

variable {keys : Std.ExtTreeSet PortableKey} {paths : List (LogicalPath U)}

theorem first_from_le {least first k : PortableKey} (hfirst : first_from keys least = some first)
    (hk : k ∈ keys) (hle : least ≤ k) : first ≤ k := by
  obtain ⟨-, before, after, hsplit, hbefore⟩ := find?_eq_some_iff_append.mp hfirst
  have hsorted : (before ++ first :: after).Pairwise fun a b => compare a b = .lt :=
    hsplit ▸ Std.ExtTreeSet.ordered_toList
  have hmem : k ∈ before ++ first :: after := hsplit ▸ Std.ExtTreeSet.mem_toList.mpr hk
  rcases mem_append.mp hmem with hb | ha
  · -- everything before the first hit is below the range
    have hlow := hbefore k hb
    simp only [Bool.not_eq_true', decide_eq_false_iff_not] at hlow
    exact absurd hle hlow
  · rcases mem_cons.mp ha with rfl | ha
    · exact le_rfl
    · have hlt := (pairwise_cons.mp (pairwise_append.mp hsorted).2.1).1 k ha
      exact (compare_lt_iff_lt.mp hlt).le

variable {key : PortableKey}

/-- The range query finds a descendant of `key` exactly when there is one: descendants are
consecutive. -/
theorem first_from_descendant :
    ((first_from keys ⟨key.text ++ ['/']⟩).any
        fun candidate => (key.text ++ ['/']).isPrefixOf candidate.text) = true ↔
      ∃ k : PortableKey, k ∈ keys ∧ ∃ r, k.text = key.text ++ '/' :: r := by
  have hbegins : ∀ k : PortableKey, (key.text ++ ['/']) <+: k.text ↔
      ∃ r, k.text = key.text ++ '/' :: r := by
    intro k
    constructor
    · rintro ⟨r, hr⟩
      exact ⟨r, by simp [← hr]⟩
    · rintro ⟨r, hr⟩
      exact ⟨r, by simp [hr]⟩
  simp only [Option.any_eq_true, isPrefixOf_iff_prefix, hbegins]
  constructor
  · rintro ⟨k, hk, hr⟩
    exact ⟨k, Std.ExtTreeSet.mem_toList.mp (mem_of_find?_eq_some hk), hr⟩
  · rintro ⟨k, hk, hr⟩
    have hle : (⟨key.text ++ ['/']⟩ : PortableKey) ≤ k := le_of_prefix ((hbegins k).mpr hr)
    obtain ⟨first, hfirst⟩ : ∃ first, first_from keys ⟨key.text ++ ['/']⟩ = some first := by
      rw [first_from, ← Option.isSome_iff_exists, find?_isSome]
      exact ⟨k, Std.ExtTreeSet.mem_toList.mpr hk, by simpa using hle⟩
    refine ⟨first, hfirst, ?_⟩
    have hge : (⟨key.text ++ ['/']⟩ : PortableKey) ≤ first := by
      simpa using find?_some hfirst
    have hfirst_le : first ≤ k := first_from_le hfirst hk hle
    exact (hbegins first).mp (prefix_of_between hge hfirst_le ((hbegins k).mpr hr))

theorem validate_next_key_eq_ok {ε : Type} {collision ancestor : ε} :
    validate_next_key collision ancestor keys key = .ok () ↔ ∀ k ∈ keys, ¬ KeysConflict k key := by
  simp only [validate_next_key, ok_iff, first_from_descendant]
  constructor
  · rintro ⟨hnew, hfronts, hdesc⟩ k hk (rfl | ⟨r, hr⟩ | ⟨r, hr⟩)
    · exact hnew hk
    · exact hfronts k.text (mem_slash_fronts.mpr ⟨r, hr⟩) hk
    · exact hdesc ⟨k, hk, r, hr⟩
  · intro h
    refine ⟨fun hk => h _ hk (.inl rfl), fun front hfront hk => ?_, ?_⟩
    · obtain ⟨r, hr⟩ := mem_slash_fronts.mp hfront
      exact h _ hk (.inr (.inl ⟨r, hr⟩))
    · rintro ⟨k, hk, r, hr⟩
      exact h k hk (.inr (.inr ⟨r, hr⟩))

variable {previous : Option (LogicalPath U)}

theorem validate_next_path_eq_ok {errors : PathSetErrors} {path : LogicalPath U} :
    validate_next_path errors previous keys path = .ok () ↔
      previous.all (· < path) ∧ ∀ k ∈ keys, ¬ KeysConflict k path.portable_key := by
  simp only [validate_next_path, ok_iff, validate_next_key_eq_ok]

theorem no_conflict_insert_iff {β : Type} {l : List β} {f : β → PortableKey} :
    (∀ p ∈ l, ∀ k ∈ keys.insert key, ¬ KeysConflict k (f p)) ↔
      (∀ p ∈ l, ∀ k ∈ keys, ¬ KeysConflict k (f p)) ∧ ∀ p ∈ l, ¬ KeysConflict key (f p) := by
  simp only [Std.ExtTreeSet.mem_insert, compare_eq_iff_eq]
  constructor
  · intro h
    exact ⟨fun p hp k hk => h p hp k (.inr hk), fun p hp => h p hp _ (.inl rfl)⟩
  · rintro ⟨hold, hnew⟩ p hp k (rfl | hk)
    · exact hnew p hp
    · exact hold p hp k hk

theorem isChain_cons_iff {κ : Type} [LinearOrder κ] {previous : Option κ} {a : κ} {l : List κ} :
    (previous.toList ++ a :: l).IsChain (· < ·) ↔
      previous.all (· < a) ∧ ((some a).toList ++ l).IsChain (· < ·) := by
  cases previous <;> simp [isChain_cons_cons]

/-- What the rest of the loop accepts, by induction on the paths still to come. -/
theorem validate_path_set_from_eq_ok : validate_path_set_from previous keys paths = .ok () ↔
      (previous.toList ++ paths).IsChain (· < ·) ∧
      (∀ path ∈ paths, ∀ k ∈ keys, ¬ KeysConflict k path.portable_key) ∧
      paths.Pairwise fun a b => ¬ KeysConflict a.portable_key b.portable_key := by
  induction paths generalizing previous keys with
  | nil => cases previous <;> simp [validate_path_set_from]
  | cons path paths ih =>
    simp only [validate_path_set_from, ok_iff, validate_next_path_eq_ok, ih, no_conflict_insert_iff,
      isChain_cons_iff, forall_mem_cons, pairwise_cons]
    constructor
    · rintro ⟨⟨hlt, hnew⟩, hsorted, ⟨hold, hhead⟩, htail⟩
      exact ⟨⟨hlt, hsorted⟩, ⟨hnew, hold⟩, hhead, htail⟩
    · rintro ⟨⟨hlt, hsorted⟩, ⟨hnew, hold⟩, hhead, htail⟩
      exact ⟨⟨hlt, hnew⟩, hsorted, ⟨hold, hhead⟩, htail⟩

/-- Under portable keys, one path is the other one or an ancestor of it. -/
def PathsConflict (a b : LogicalPath U) : Prop :=
  a.portable_words <+: b.portable_words ∨ b.portable_words <+: a.portable_words

theorem PathsConflict.symm {a b : LogicalPath U} (h : PathsConflict a b) : PathsConflict b a :=
  h.elim .inr .inl

/-- A key made of words continues another one exactly when its words do. -/
theorem key_continues_iff {v w : List Text} (hv : SepFree '/' v) (hw : SepFree '/' w)
    (hvn : v ≠ []) (hwn : w ≠ []) :
    ((⟨joined '/' v⟩ : PortableKey) = ⟨joined '/' w⟩ ∨
      ∃ r, joined '/' w = joined '/' v ++ '/' :: r) ↔ v <+: w := by
  constructor
  · rintro (h | ⟨r, hr⟩)
    · have hvw : v = w := joined_injective '/' hv hw hvn hwn (congrArg PortableKey.text h)
      exact hvw ▸ prefix_refl _
    · exact ⟨split '/' r, (joined_append_cons_eq '/' hv hw hvn hwn hr.symm).symm⟩
  · rintro ⟨rest, rfl⟩
    by_cases hnil : rest = []
    · exact .inl (by rw [hnil, append_nil])
    · exact .inr ⟨joined '/' rest, joined_append '/' hvn hnil⟩

/-- Two keys made of words conflict when the words of one begin the words of the other. -/
theorem keysConflict_joined {v w : List Text} (hv : SepFree '/' v) (hw : SepFree '/' w)
    (hvn : v ≠ []) (hwn : w ≠ []) :
    KeysConflict ⟨joined '/' v⟩ ⟨joined '/' w⟩ ↔ v <+: w ∨ w <+: v := by
  rw [← key_continues_iff hv hw hvn hwn, ← key_continues_iff hw hv hwn hvn, KeysConflict]
  constructor
  · rintro (h | h | h)
    · exact .inl (.inl h)
    · exact .inl (.inr h)
    · exact .inr (.inr h)
  · rintro ((h | h) | (h | h))
    · exact .inl h
    · exact .inr (.inl h)
    · exact .inl h.symm
    · exact .inr (.inr h)

theorem keysConflict_iff {a b : LogicalPath U} :
    KeysConflict a.portable_key b.portable_key ↔ PathsConflict a b :=
  keysConflict_joined a.portable_words_sepFree b.portable_words_sepFree
    a.portable_words_ne_nil b.portable_words_ne_nil

/-- `validate_path_set` accepts exactly the strictly sorted lists in which no path is, under
portable keys, equal to or an ancestor of another one. -/
theorem validate_path_set_eq_ok : validate_path_set paths = .ok () ↔
      paths.Pairwise (· < ·) ∧ paths.Pairwise fun a b => ¬ PathsConflict a b := by
  rw [validate_path_set, validate_path_set_from_eq_ok]
  simp [isChain_iff_pairwise, keysConflict_iff]

end NeoEngram

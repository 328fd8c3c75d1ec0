import NeoEngram.Core.Concrete
import NeoEngram.Local.Validation

/-! # The two path validators

Paths are checked twice: `validate_files` of the local repository works on
plain texts, `LogicalPath::parse` and `validate_path_set` of the core on typed
paths. This file compares them on every finite set of texts. The core also
reserves the device names that end in a superscript digit (`COM¹`), and its
portable key folds the case, which identifies more texts than lowering every
character does.
-/

namespace NeoEngram

/-- What is used of the Unicode tables: the lower case of a character other than the slash has no
slash, and folding forgets at least what lowering does. -/
structure UnicodeTables.Standard (U : UnicodeTables) : Prop where
  lower_slash_free : ∀ c, c ≠ '/' → '/' ∉ U.to_lowercase c
  fold_of_lower : ∀ a b : Text, U.nfc a = a → U.nfc b = b →
    a.flatMap U.to_lowercase = b.flatMap U.to_lowercase →
      portable_component_key U a = portable_component_key U b

namespace Local

open Checks Words List LogicalPath

variable {U : UnicodeTables}

/-! ## The component grammar -/

def is_superscript_number (suffix : Text) : Bool := suffix ∈ [['¹'], ['²'], ['³']]

/-- A device name that only the core reserves, such as `COM¹` and `lpt³.txt`. -/
def is_superscript_device (component : Text) : Bool :=
  (strip_front "COM".toList (to_ascii_uppercase (component.takeWhile (· ≠ '.')))).any
      is_superscript_number
    || (strip_front "LPT".toList (to_ascii_uppercase (component.takeWhile (· ≠ '.')))).any
      is_superscript_number

/-- The rules for one component that both validators have. -/
structure SharedGrammar (U : UnicodeTables) (component : Text) : Prop where
  normal : component ≠ [] ∧ component ≠ ['.'] ∧ component ≠ ['.', '.']
  backslash_free : '\\' ∉ component
  nul_free : '\u0000' ∉ component
  composed : U.nfc component = component
  ending : component.getLast? ≠ some ' ' ∧ component.getLast? ≠ some '.'
  portable : component.any is_non_portable = false
  unreserved : is_reserved_name component = false
  not_device : is_device_name is_device_number component = false

/-- Every component of the path follows the shared rules. -/
def FollowsGrammar (U : UnicodeTables) (path : Text) : Prop :=
  ∀ component ∈ split '/' path, SharedGrammar U component

def NamesSuperscriptDevice (path : Text) : Prop :=
  ∃ component ∈ split '/' path, is_superscript_device component = true

theorem is_reserved_device_number_eq (suffix : Text) : is_reserved_device_number suffix =
      (is_device_number suffix || is_superscript_number suffix) := by
  simp [is_reserved_device_number, is_device_number, is_superscript_number, Bool.decide_or,
    Bool.or_assoc]

theorem any_or (o : Option Text) (p q : Text → Bool) :
    (o.any fun t => p t || q t) = (o.any p || o.any q) := by
  cases o <;> rfl

/-- The core reserves what the local rules do, and the superscript devices. -/
theorem is_reserved_device_name_eq (component : Text) : is_reserved_device_name component =
      (is_device_name is_device_number component || is_superscript_device component) := by
  have hnumber : is_reserved_device_number =
      fun t => is_device_number t || is_superscript_number t :=
    funext is_reserved_device_number_eq
  simp only [is_reserved_device_name, is_device_name, is_superscript_device, hnumber, any_or]
  grind

variable {path : Text}

theorem relative_of_components (h : ∀ component ∈ split '/' path, component ≠ []) :
    path ≠ [] ∧ path.head? ≠ some '/' := by
  constructor
  · intro hnil
    exact h [] (by simp [hnil, split]) rfl
  · intro hhead
    obtain ⟨rest, rfl⟩ : ∃ rest, path = '/' :: rest := head?_eq_some_iff.mp hhead
    exact h [] (by rw [show '/' :: rest = [] ++ '/' :: rest from rfl,
      split_append_cons]; simp [split])
      rfl

/-- The local path rules are the shared grammar. -/
theorem validate_repository_path_eq_ok :
    validate_repository_path U path = .ok () ↔ FollowsGrammar U path := by
  simp only [validate_repository_path, validate_portable_component, ok_iff, forM_eq_ok]
  constructor
  · intro h component hcomponent
    obtain ⟨-, -, hbackslash, hnul, hall⟩ := h
    obtain ⟨hnormal, hunreserved, hcomposed, hending, hportable, hdevice⟩ :=
      hall component hcomponent
    exact ⟨hnormal, fun hc => hbackslash (mem_of_mem_split '/' hcomponent hc),
      fun hc => hnul (mem_of_mem_split '/' hcomponent hc), hcomposed, hending, hportable,
        hunreserved,
      hdevice⟩
  · intro h
    obtain ⟨hne, hhead⟩ := relative_of_components fun component hc => (h component hc).normal.1
    refine ⟨hne, hhead, ?_, ?_, ?_⟩
    · intro hc
      obtain ⟨component, hcomponent, hc⟩ := mem_split_of_mem '/' (by decide) hc
      exact (h component hcomponent).backslash_free hc
    · intro hc
      obtain ⟨component, hcomponent, hc⟩ := mem_split_of_mem '/' (by decide) hc
      exact (h component hcomponent).nul_free hc
    · intro component hcomponent
      have hrules := h component hcomponent
      exact ⟨hrules.normal, hrules.unreserved, hrules.composed, hrules.ending, hrules.portable,
        hrules.not_device⟩

/-- A component of the core follows the shared grammar and names no superscript device. -/
theorem validate_component_eq_ok {component : Text} (hslash : '/' ∉ component) :
    validate_component U component = .ok () ↔
      SharedGrammar U component ∧ is_superscript_device component = false := by
  simp only [validate_component, ok_iff, is_reserved_device_name_eq, Bool.or_eq_false_iff]
  constructor
  · intro h
    obtain ⟨hnormal, ⟨-, hbackslash, hnul⟩, hcomposed, hending, hportable, hunreserved, hdevice,
      hsuper⟩ := h
    exact ⟨⟨hnormal, hbackslash, hnul, hcomposed, hending, hportable, hunreserved, hdevice⟩, hsuper⟩
  · intro h
    obtain ⟨h, hsuper⟩ := h
    exact ⟨h.normal, ⟨hslash, h.backslash_free, h.nul_free⟩, h.composed, h.ending, h.portable,
      h.unreserved, h.not_device, hsuper⟩

/-- The core path rules are the shared grammar without the superscript devices. -/
theorem validate_logical_path_eq_ok : validate_logical_path U path = .ok () ↔
      FollowsGrammar U path ∧ ¬ NamesSuperscriptDevice path := by
  have hcomponents : (∀ component ∈ split '/' path, validate_component U component = .ok ()) ↔
      FollowsGrammar U path ∧ ¬ NamesSuperscriptDevice path := by
    simp only [FollowsGrammar, NamesSuperscriptDevice, not_exists, not_and, Bool.not_eq_true,
      ← forall₂_and]
    exact forall₂_congr fun component hcomponent =>
      validate_component_eq_ok (sepFree_split '/' path component hcomponent)
  simp only [validate_logical_path, ok_iff, forM_eq_ok, mapError_eq_ok, hcomponents]
  constructor
  · intro h
    exact h.2.2.2
  · intro h
    obtain ⟨hne, hhead⟩ := relative_of_components fun component hc => (h.1 component hc).normal.1
    refine ⟨hne, hhead, ?_, h⟩
    intro hc
    obtain ⟨component, hcomponent, hc⟩ := mem_split_of_mem '/' (by decide) hc
    exact (h.1 component hcomponent).backslash_free hc

/-! ## Conflicts -/

def lowered_words (U : UnicodeTables) (path : Text) : List Text :=
  (split '/' path).map fun component => (U.nfc component).flatMap U.to_lowercase

def folded_words (U : UnicodeTables) (path : Text) : List Text :=
  (split '/' path).map (portable_component_key U)

/-- Under the given keys, one path is the other one or an ancestor of it. -/
def Conflict (words : Text → List Text) (a b : Text) : Prop :=
  words a <+: words b ∨ words b <+: words a

/-- No two paths of the set conflict. -/
def ConflictFree (words : Text → List Text) (paths : Finset Text) : Prop :=
  ∀ a ∈ paths, ∀ b ∈ paths, a ≠ b → ¬ Conflict words a b

variable {paths : Finset Text} {words : Text → List Text} {a b : Text}

theorem Conflict.symm (h : Conflict words a b) : Conflict words b a := Or.symm h

theorem conflictFree_iff :
    ConflictFree words paths ↔ paths.sort.Pairwise fun a b => ¬ Conflict words a b := by
  have hsymm : Std.Symm fun a b => ¬ Conflict words a b := ⟨fun _ _ h hba => h hba.symm⟩
  rw [← (Finset.sort_nodup paths (· ≤ ·)).pairwise_coe]
  simp only [Finset.mem_sort]
  exact Iff.rfl

theorem lowered_words_sepFree (hU : U.Standard) (h : FollowsGrammar U path) :
    SepFree '/' (lowered_words U path) := by
  intro w hw
  obtain ⟨component, hcomponent, rfl⟩ := mem_map.mp hw
  rw [(h component hcomponent).composed]
  intro hslash
  obtain ⟨c, hc, hslash⟩ := mem_flatMap.mp hslash
  have hne : c ≠ '/' := by
    intro heq
    exact sepFree_split '/' path component hcomponent (heq ▸ hc)
  exact hU.lower_slash_free c hne hslash

theorem lowered_words_ne_nil (path : Text) : lowered_words U path ≠ [] := by
  simpa [lowered_words] using split_ne_nil '/' path

theorem keysConflict_portable_path_key (hU : U.Standard) (ha : FollowsGrammar U a)
    (hb : FollowsGrammar U b) :
    KeysConflict (portable_path_key U a) (portable_path_key U b) ↔ Conflict (lowered_words U) a b :=
  keysConflict_joined (lowered_words_sepFree hU ha) (lowered_words_sepFree hU hb)
    (lowered_words_ne_nil a) (lowered_words_ne_nil b)

/-- Images that agree under `f` agree under `g`, so a common front of the first is one of the
second. -/
theorem map_prefix_of_map_prefix {α β γ : Type} {f : α → β} {g : α → γ} {as bs : List α}
    (h : ∀ a ∈ as, ∀ b ∈ bs, f a = f b → g a = g b) (hpre : as.map f <+: bs.map f) :
    as.map g <+: bs.map g := by
  induction as generalizing bs with
  | nil => exact nil_prefix
  | cons a as ih =>
    cases bs with
    | nil => simp at hpre
    | cons b bs =>
      rw [map_cons, map_cons, cons_prefix_cons] at hpre
      rw [map_cons, map_cons, cons_prefix_cons]
      refine ⟨h a mem_cons_self b mem_cons_self hpre.1, ih ?_ hpre.2⟩
      exact fun x hx y hy => h x (mem_cons_of_mem a hx) y (mem_cons_of_mem b hy)

theorem Conflict.folded (hU : U.Standard) (ha : FollowsGrammar U a)
    (hb : FollowsGrammar U b) (h : Conflict (lowered_words U) a b) :
    Conflict (folded_words U) a b := by
  have hstep : ∀ p q, FollowsGrammar U p → FollowsGrammar U q →
      lowered_words U p <+: lowered_words U q → folded_words U p <+: folded_words U q := by
    intro p q hp hq hpre
    refine map_prefix_of_map_prefix (fun v hv w hw heq => ?_) hpre
    have hcv := (hp v hv).composed
    have hcw := (hq w hw).composed
    rw [hcv, hcw] at heq
    exact hU.fold_of_lower v w hcv hcw heq
  rcases h with h | h
  · exact .inl (hstep a b ha hb h)
  · exact .inr (hstep b a hb ha h)

/-! ## File lists -/

/-- The rules of `validate_files` about the content of one file. -/
def ValidContent (file : WorkspaceFileRecord) : Prop :=
  validate_file_chunks file.path 0 file.chunks = .ok file.total_size ∧
    (file.chunking = .WholeFile → is_whole_file file)

variable {files : List WorkspaceFileRecord}

theorem validate_files_from_eq_ok {previous : Option Text} {keys : Std.ExtTreeSet PortableKey} :
    validate_files_from U previous keys files = .ok () ↔
      (∀ file ∈ files, FollowsGrammar U file.path ∧ ValidContent file) ∧
      (previous.toList ++ files.map (·.path)).IsChain (· < ·) ∧
      (∀ file ∈ files, ∀ k ∈ keys, ¬ KeysConflict k (portable_path_key U file.path)) ∧
      files.Pairwise fun a b =>
        ¬ KeysConflict (portable_path_key U a.path) (portable_path_key U b.path) := by
  induction files generalizing previous keys with
  | nil => cases previous <;> simp [validate_files_from]
  | cons file files ih =>
    simp only [validate_files_from, ok_iff, validate_repository_path_eq_ok, validate_next_key_eq_ok,
      ih, no_conflict_insert_iff, map_cons, isChain_cons_iff, forall_mem_cons, pairwise_cons,
      Option.all_eq_true, decide_eq_true_eq]
    constructor
    · rintro ⟨hgrammar, hlt, hnew, offset, hchunks, rfl, hwhole, hall, hsorted, ⟨hold, hhead⟩,
        htail⟩
      exact ⟨⟨⟨hgrammar, hchunks, hwhole⟩, hall⟩, ⟨hlt, hsorted⟩, ⟨hnew, hold⟩, hhead, htail⟩
    · rintro ⟨⟨⟨hgrammar, hchunks, hwhole⟩, hall⟩, ⟨hlt, hsorted⟩, ⟨hnew, hold⟩, hhead, htail⟩
      exact ⟨hgrammar, hlt, hnew, _, hchunks, rfl, hwhole, hall, hsorted, ⟨hold, hhead⟩, htail⟩

/-- `validate_files` accepts exactly the strictly sorted lists of valid files whose paths follow
the grammar and do not conflict in lower case. -/
theorem validate_files_eq_ok (hU : U.Standard) : validate_files U files = .ok () ↔
      (∀ file ∈ files, FollowsGrammar U file.path ∧ ValidContent file) ∧
      (files.map (·.path)).Pairwise (· < ·) ∧
      (files.map (·.path)).Pairwise fun a b => ¬ Conflict (lowered_words U) a b := by
  rw [validate_files, validate_files_from_eq_ok]
  simp only [pairwise_map, Option.toList_none, nil_append, isChain_iff_pairwise,
    Std.ExtTreeSet.not_mem_empty, false_imp_iff, implies_true, true_and]
  refine and_congr_right fun hall => and_congr_right fun _ => ?_
  refine List.Pairwise.iff_of_mem fun {a b} ha hb => not_congr ?_
  exact keysConflict_portable_path_key hU (hall a ha).1 (hall b hb).1

/-! ## Agreement on path sets -/

/-- A file without content, for which only the path rules matter. -/
def bare_file (path : Text) : WorkspaceFileRecord := ⟨path, 0, .FastCdc, []⟩

def LocalAccepts (U : UnicodeTables) (paths : Finset Text) : Prop :=
  validate_files U (paths.sort.map bare_file) = .ok ()

/-- Every path of the set parses, and the core accepts the sorted list. -/
def CoreAccepts (U : UnicodeTables) (paths : Finset Text) : Prop :=
  ∃ parsed, paths.sort.mapM (LogicalPath.parse U) = .ok parsed ∧
    validate_path_set parsed = .ok ()

theorem localAccepts_iff (hU : U.Standard) : LocalAccepts U paths ↔
      (∀ path ∈ paths, FollowsGrammar U path) ∧ ConflictFree (lowered_words U) paths := by
  have hpath : (fun file : WorkspaceFileRecord => file.path) ∘ bare_file = id := rfl
  have hvalid : ∀ path, ValidContent (bare_file path) := by
    intro path
    exact ⟨rfl, fun h => nomatch h⟩
  rw [LocalAccepts, validate_files_eq_ok hU, List.map_map, hpath, List.map_id, conflictFree_iff]
  simp only [List.forall_mem_map, hvalid, and_true, Finset.mem_sort]
  exact and_congr_right fun _ => and_iff_right paths.sortedLT_sort.pairwise

theorem mapM_parse_eq_ok {texts : List Text} {parsed : List (LogicalPath U)} :
    texts.mapM (parse U) = .ok parsed ↔ parsed.map text = texts := by
  rw [mapM_eq_ok]
  simp only [parse_eq_ok]
  constructor
  · intro h
    induction h with
    | nil => rfl
    | cons htext _ ih => rw [map_cons, htext, ih]
  · intro h
    subst h
    exact forall₂_map_left_iff.mpr (forall₂_same.mpr fun p _ => rfl)

theorem exists_parsed_iff {texts : List Text} :
    (∃ parsed : List (LogicalPath U), parsed.map text = texts) ↔
      ∀ path ∈ texts, validate_logical_path U path = .ok () := by
  constructor
  · rintro ⟨parsed, rfl⟩ path hpath
    obtain ⟨p, -, rfl⟩ := mem_map.mp hpath
    exact p.valid
  · intro h
    exact ⟨texts.attach.map fun path => ⟨path.1, h path.1 path.2⟩, by simp [Function.comp_def]⟩

theorem coreAccepts_iff : CoreAccepts U paths ↔
      (∀ path ∈ paths, FollowsGrammar U path ∧ ¬ NamesSuperscriptDevice path) ∧
        ConflictFree (folded_words U) paths := by
  have hset : ∀ parsed : List (LogicalPath U), parsed.map text = paths.sort →
      (validate_path_set parsed = .ok () ↔ ConflictFree (folded_words U) paths) := by
    intro parsed hparsed
    have hsorted : (parsed.map text).Pairwise (· < ·) :=
      hparsed ▸ paths.sortedLT_sort.pairwise
    rw [conflictFree_iff, ← hparsed, validate_path_set_eq_ok, pairwise_map]
    have hlt : parsed.Pairwise fun a b => a.text < b.text := pairwise_map.mp hsorted
    exact and_iff_right hlt
  simp only [← validate_logical_path_eq_ok, CoreAccepts, mapM_parse_eq_ok]
  have hparses := @exists_parsed_iff U paths.sort
  simp only [Finset.mem_sort] at hparses
  rw [← hparses]
  constructor
  · rintro ⟨parsed, hparsed, hok⟩
    exact ⟨⟨parsed, hparsed⟩, (hset parsed hparsed).mp hok⟩
  · rintro ⟨⟨parsed, hparsed⟩, hfree⟩
    exact ⟨parsed, hparsed, (hset parsed hparsed).mpr hfree⟩

/-- No rule of the core applies alone: paths in the shared grammar that do not conflict in lower
case name no superscript device and do not conflict under folding. -/
def NoCoreOnlyRule (U : UnicodeTables) (paths : Finset Text) : Prop :=
  (∀ path ∈ paths, FollowsGrammar U path) → ConflictFree (lowered_words U) paths →
    (∀ path ∈ paths, ¬ NamesSuperscriptDevice path) ∧ ConflictFree (folded_words U) paths

theorem CoreAccepts.localAccepts (hU : U.Standard)
    (h : CoreAccepts U paths) : LocalAccepts U paths := by
  obtain ⟨hall, hfree⟩ := coreAccepts_iff.mp h
  have hgrammar : ∀ path ∈ paths, FollowsGrammar U path := fun path hpath => (hall path hpath).1
  refine (localAccepts_iff hU).mpr ⟨hgrammar, ?_⟩
  intro a ha b hb hne hconflict
  exact hfree a ha b hb hne (hconflict.folded hU (hgrammar a ha) (hgrammar b hb))

/-- The two validators agree on a set of paths exactly when no rule of the core applies alone. -/
theorem validators_agree_iff (hU : U.Standard) (paths : Finset Text) :
    (LocalAccepts U paths ↔ CoreAccepts U paths) ↔ NoCoreOnlyRule U paths := by
  constructor
  · intro hagree hgrammar hfree
    have hlocal : LocalAccepts U paths := (localAccepts_iff hU).mpr ⟨hgrammar, hfree⟩
    obtain ⟨hall, hfolded⟩ := coreAccepts_iff.mp (hagree.mp hlocal)
    exact ⟨fun path hpath => (hall path hpath).2, hfolded⟩
  · intro hrule
    refine ⟨fun hlocal => ?_, CoreAccepts.localAccepts hU⟩
    obtain ⟨hgrammar, hfree⟩ := (localAccepts_iff hU).mp hlocal
    obtain ⟨hdevice, hfolded⟩ := hrule hgrammar hfree
    exact coreAccepts_iff.mpr ⟨fun path hpath => ⟨hgrammar path hpath, hdevice path hpath⟩, hfolded⟩

/-! ### Two sets -/

/-- The case folding of a character of `latinTables`. -/
def latin_fold (c : Char) : Text :=
  if c = 'ß' then ['s', 's'] else [c.toLower]

/-- The tables for ASCII and `ß`, whose lower case is itself and whose folding is `ss`. -/
def latinTables : UnicodeTables where
  nfc := fun t => t
  case_fold := fun t => t.flatMap latin_fold
  to_lowercase := fun c => [c.toLower]
  fold_slash_free := by
    intro t ht hmem
    obtain ⟨c, hc, hfold⟩ := mem_flatMap.mp hmem
    by_cases hsharp : c = 'ß'
    · simp [latin_fold, hsharp] at hfold
    · have hlower : c.toLower = '/' := by simpa [latin_fold, hsharp, eq_comm] using hfold
      exact ht (toLower_eq_slash hlower ▸ hc)

theorem latin_fold_of_lower {c d : Char} (h : c.toLower = d.toLower) :
    latin_fold c = latin_fold d := by
  by_cases hc : c = 'ß'
  · have hd : d = 'ß' := toLower_eq_of_not_lower (h.symm.trans (by rw [hc]; decide)) (by decide)
    rw [hc, hd]
  · by_cases hd : d = 'ß'
    · exact absurd (toLower_eq_of_not_lower (h.trans (by rw [hd]; decide)) (by decide)) hc
    · rw [latin_fold, latin_fold, if_neg hc, if_neg hd, h]

theorem flatMap_latin_fold {a b : Text} (h : a.map Char.toLower = b.map Char.toLower) :
    a.flatMap latin_fold = b.flatMap latin_fold := by
  induction a generalizing b with
  | nil => rw [map_eq_nil_iff.mp h.symm]
  | cons c a ih =>
    cases b with
    | nil => simp at h
    | cons d b =>
      obtain ⟨hcd, hrest⟩ := List.cons.inj h
      rw [flatMap_cons, flatMap_cons, latin_fold_of_lower hcd, ih hrest]

theorem latinTables_standard : latinTables.Standard where
  lower_slash_free := by
    intro c hc hmem
    have hlower : c.toLower = '/' := by simpa [latinTables, eq_comm] using hmem
    exact hc (toLower_eq_slash hlower)
  fold_of_lower := by
    intro a b _ _ h
    show a.flatMap latin_fold = b.flatMap latin_fold
    replace h : (a.flatMap fun c => [c.toLower]) = b.flatMap fun c => [c.toLower] := h
    rw [← map_eq_flatMap, ← map_eq_flatMap] at h
    exact flatMap_latin_fold h

/-- Two ordinary paths, one in a directory, are accepted by both validators. -/
theorem ordinary_paths_agree :
    latinTables.Standard ∧ NoCoreOnlyRule latinTables {"a/b".toList, "a-c".toList} ∧
      (LocalAccepts latinTables {"a/b".toList, "a-c".toList} ↔
        CoreAccepts latinTables {"a/b".toList, "a-c".toList}) := by
  have hrule : NoCoreOnlyRule latinTables {"a/b".toList, "a-c".toList} := by
    intro _ _
    unfold NamesSuperscriptDevice ConflictFree Conflict
    decide +kernel
  exact ⟨latinTables_standard, hrule, (validators_agree_iff latinTables_standard _).mpr hrule⟩

/-- The local validator accepts a superscript device name, and two names that only folding
identifies. -/
theorem core_only_rules_apply :
    (LocalAccepts latinTables {"COM¹".toList} ∧ ¬ CoreAccepts latinTables {"COM¹".toList}) ∧
    (LocalAccepts latinTables {"strasse".toList, "straße".toList} ∧
      ¬ CoreAccepts latinTables {"strasse".toList, "straße".toList}) := by
  simp only [localAccepts_iff latinTables_standard, coreAccepts_iff,
    ← validate_repository_path_eq_ok]
  unfold ConflictFree Conflict NamesSuperscriptDevice
  refine ⟨⟨?_, ?_⟩, ?_, ?_⟩ <;> decide +kernel

end Local
end NeoEngram

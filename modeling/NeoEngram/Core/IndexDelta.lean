import NeoEngram.Core.Concrete

/-! # What deltas express

A delta is applied to the map of an Index snapshot, mutation by mutation. The
file settles which lists of paths a snapshot can have
(`path_sets_validated_exactly`), which mutations are accepted in the pages that
`IndexDelta.new` cuts (`IndexDelta.exists_new_iff`), and which pairs of snapshots
have a delta between them (`minimal_delta_iff`).
-/

namespace NeoEngram

open Checks OrderedKeys List

variable {U : UnicodeTables}

/-! ## Path sets -/

/-- `validate_next_index_path` on one path after the other. -/
def validate_index_paths_from (previous : Option (LogicalPath U))
    (portable_paths : Std.ExtTreeSet PortableKey) : List (LogicalPath U) → ValidationResult Unit
  | [] => .ok ()
  | path :: paths => do
    validate_next_index_path previous portable_paths path
    validate_index_paths_from (some path) (portable_paths.insert path.portable_key) paths

def PortableKey.IsAncestor (a b : PortableKey) : Prop := ∃ r, b.text = a.text ++ '/' :: r

/-- The portable keys are distinct, and none is an ancestor of another. -/
def PortablyApart (paths : List (LogicalPath U)) : Prop :=
  (paths.map (·.portable_key)).Nodup ∧
    ∀ a ∈ paths, ∀ b ∈ paths, ¬ a.portable_key.IsAncestor b.portable_key

variable {paths : List (LogicalPath U)}

theorem portablyApart_iff : PortablyApart paths ↔
      paths.Pairwise fun a b => ¬ KeysConflict a.portable_key b.portable_key := by
  have hself : ∀ k : PortableKey, ¬ k.IsAncestor k := by
    rintro k ⟨r, hr⟩
    simpa using congrArg List.length hr
  rw [PortablyApart, Nodup, pairwise_map]
  constructor
  · rintro ⟨hnodup, hapart⟩
    refine hnodup.imp_of_mem fun {a b} ha hb hne => ?_
    rintro (h | h | h)
    · exact hne h
    · exact hapart a ha b hb h
    · exact hapart b hb a ha h
  · intro h
    refine ⟨h.imp fun hab he => hab (.inl he), ?_⟩
    have hboth : paths.Pairwise fun a b => ¬ a.portable_key.IsAncestor b.portable_key ∧
        ¬ b.portable_key.IsAncestor a.portable_key :=
      h.imp fun hab => ⟨fun ha => hab (.inr (.inl ha)), fun hb => hab (.inr (.inr hb))⟩
    have hsymm : Std.Symm fun a b : LogicalPath U => ¬ a.portable_key.IsAncestor b.portable_key ∧
        ¬ b.portable_key.IsAncestor a.portable_key := ⟨fun _ _ => And.symm⟩
    intro a ha b hb
    exact (hboth.forall_of_forall (fun _ _ => ⟨hself _, hself _⟩) ha hb).1

/-- The two validators differ only in the texts of their errors. -/
theorem validate_index_paths_from_eq_ok {previous : Option (LogicalPath U)}
    {keys : Std.ExtTreeSet PortableKey} :
    validate_index_paths_from previous keys paths = .ok () ↔
      validate_path_set_from previous keys paths = .ok () := by
  induction paths generalizing previous keys with
  | nil => rfl
  | cons path paths ih =>
    simp only [validate_index_paths_from, validate_path_set_from, validate_next_index_path, ok_iff,
      validate_next_path_eq_ok, ih]

/-- **Main result**: both validators accept exactly the strictly increasing lists of paths whose
portable keys are distinct and not above each other. -/
theorem path_sets_validated_exactly (paths : List (LogicalPath U)) :
    (validate_path_set paths = .ok () ↔ paths.Pairwise (· < ·) ∧ PortablyApart paths) ∧
      (validate_index_paths_from none ∅ paths = .ok () ↔
        paths.Pairwise (· < ·) ∧ PortablyApart paths) := by
  have hset : validate_path_set paths = .ok () ↔ paths.Pairwise (· < ·) ∧ PortablyApart paths := by
    simp only [validate_path_set_eq_ok, portablyApart_iff, keysConflict_iff]
  exact ⟨hset, validate_index_paths_from_eq_ok.trans hset⟩

/-- The paths `b` and `a` are apart, and are refused for their order. -/
theorem unsorted_path_set_refused :
    let paths := [ascii_path "b" (by decide), ascii_path "a" (by decide)]
    PortablyApart paths ∧ validate_path_set paths ≠ .ok () := by
  intro paths
  refine ⟨portablyApart_iff.mpr ?_, by decide⟩
  simp only [keysConflict_iff, PathsConflict]
  decide

/-! ## Accepted deltas -/

namespace IndexDelta

def NumberedFrom : Nat → List (IndexDeltaPage U) → Prop
  | _, [] => True
  | first, page :: pages => page.page_number.toNat = first ∧ NumberedFrom (first + 1) pages

/-- A page is not empty and not above the bound. -/
def Bounded (pages : List (IndexDeltaPage U)) : Prop :=
  ∀ page ∈ pages, page.mutations ≠ [] ∧ page.mutations.length ≤ MAX_INDEX_MUTATIONS_PER_PAGE

/-- Mutations that a delta may carry: valid records, in path order, with distinct keys. -/
structure Acceptable (mutations : List (IndexMutation U)) : Prop where
  valid : ∀ m ∈ mutations, m.validate = .ok ()
  sorted : mutations.Pairwise (·.path < ·.path)
  distinct : mutations.Pairwise fun a b => a.path.portable_key ≠ b.path.portable_key

variable {pages : List (IndexDeltaPage U)}

theorem Acceptable.sublist {l₁ l₂ : List (IndexMutation U)} (h : Acceptable l₂)
    (hsub : l₁.Sublist l₂) : Acceptable l₁ where
  valid := fun m hm => h.valid m (hsub.subset hm)
  sorted := h.sorted.sublist hsub
  distinct := h.distinct.sublist hsub

theorem page_validate_eq_ok {page : IndexDeltaPage U} : page.validate = .ok () ↔
      (page.mutations ≠ [] ∧ page.mutations.length ≤ MAX_INDEX_MUTATIONS_PER_PAGE) ∧
        Acceptable page.mutations := by
  unfold IndexDeltaPage.validate
  simp only [ok_iff, forM_eq_ok, validate_index_mutation_paths_eq_ok, pairwise_map]
  constructor
  · rintro ⟨hne, hlength, hvalid, hsorted, hdistinct⟩
    exact ⟨⟨hne, hlength⟩, hvalid, hsorted, hdistinct⟩
  · rintro ⟨⟨hne, hlength⟩, h⟩
    exact ⟨hne, hlength, h.valid, h.sorted, h.distinct⟩

theorem validate_pages_from_eq_ok {first : Nat} : validate_pages_from first pages = .ok () ↔
      NumberedFrom first pages ∧ ∀ page ∈ pages, page.validate = .ok () := by
  induction pages generalizing first with
  | nil => simp [validate_pages_from, NumberedFrom]
  | cons page pages ih =>
    simp only [validate_pages_from, NumberedFrom, ok_iff, u32_try_from_eq_some, ih, forall_mem_cons]
    constructor
    · rintro ⟨number, hnumber, rfl, hpage, hnumbered, hpages⟩
      exact ⟨⟨hnumber, hnumbered⟩, hpage, hpages⟩
    · rintro ⟨⟨hnumber, hnumbered⟩, hpage, hpages⟩
      exact ⟨page.page_number, hnumber, rfl, hpage, hnumbered, hpages⟩

variable {delta : IndexDelta U}

/-- A delta is accepted when its pages are numbered and bounded and its mutations, taken
together, are acceptable. -/
theorem validate_eq_ok : delta.validate = .ok () ↔
      NumberedFrom 0 delta.pages ∧ Bounded delta.pages ∧ Acceptable delta.iter := by
  unfold IndexDelta.validate
  simp only [ok_iff, validate_pages_from_eq_ok, page_validate_eq_ok,
    validate_index_mutation_paths_eq_ok, pairwise_map]
  constructor
  · rintro ⟨⟨hnumbered, hpages⟩, hsorted, hdistinct⟩
    refine ⟨hnumbered, fun page hpage => (hpages page hpage).1, ?_, hsorted, hdistinct⟩
    intro m hm
    obtain ⟨page, hpage, hmem⟩ := mem_flatMap.mp hm
    exact (hpages page hpage).2.valid m hmem
  · rintro ⟨hnumbered, hbounded, h⟩
    refine ⟨⟨hnumbered, fun page hpage => ⟨hbounded page hpage, ?_⟩⟩, h.sorted, h.distinct⟩
    -- a page is a part of the whole sequence
    obtain ⟨before, after, hsplit⟩ := append_of_mem hpage
    apply h.sublist
    unfold iter
    rw [hsplit, flatMap_append, flatMap_cons]
    exact (sublist_append_left _ _).trans (sublist_append_right _ _)

/-! ## Cutting pages -/

variable {mutations : List (IndexMutation U)} {base_version : IndexVersion}
  {result_digest : ContentDigest}

/-- **Run**: the pages that are cut carry the mutations, numbered on and bounded. -/
theorem cut_pages_ok {rounds count : Nat} (hrounds : mutations.length ≤ rounds)
    (h : cut_pages rounds count mutations = .ok pages) :
    pages.flatMap (·.mutations) = mutations ∧ NumberedFrom count pages ∧ Bounded pages := by
  induction rounds generalizing count mutations pages with
  | zero =>
    obtain rfl : mutations = [] := length_eq_zero_iff.mp (by omega)
    obtain rfl := Except.ok.inj h
    exact ⟨rfl, trivial, by simp [Bounded]⟩
  | succ rounds ih =>
    unfold cut_pages at h
    by_cases hnil : mutations = []
    · rw [if_pos hnil] at h
      obtain rfl := Except.ok.inj h
      exact ⟨hnil.symm, trivial, by simp [Bounded]⟩
    · rw [if_neg hnil] at h
      simp only [ok_iff, u32_try_from_eq_some] at h
      obtain ⟨number, hnumber, rest, hrest, rfl⟩ := h
      have hpos := length_pos_iff.mpr hnil
      obtain ⟨hflat, hnumbered, hbounded⟩ := ih (by
        rw [length_drop]
        unfold MAX_INDEX_MUTATIONS_PER_PAGE
        omega) hrest
      refine ⟨?_, ⟨hnumber, hnumbered⟩, forall_mem_cons.mpr ⟨⟨?_, ?_⟩, hbounded⟩⟩
      · rw [flatMap_cons, hflat, take_append_drop]
      · intro htake
        rcases take_eq_nil_iff.mp htake with hzero | hnone
        · exact absurd hzero (by decide)
        · exact hnil hnone
      · exact length_take_le _ _

theorem exists_cut_pages {rounds count : Nat}
    (hfits : count * MAX_INDEX_MUTATIONS_PER_PAGE + mutations.length ≤
      2 ^ 32 * MAX_INDEX_MUTATIONS_PER_PAGE) :
    ∃ pages, cut_pages rounds count mutations = .ok pages := by
  induction rounds generalizing count mutations with
  | zero => exact ⟨[], rfl⟩
  | succ rounds ih =>
    unfold cut_pages
    by_cases hnil : mutations = []
    · exact ⟨[], if_pos hnil⟩
    · have hpos := length_pos_iff.mpr hnil
      have hcount : count < 2 ^ 32 := by
        unfold MAX_INDEX_MUTATIONS_PER_PAGE at hfits
        omega
      obtain ⟨number, hnumber⟩ : ∃ number, u32_try_from count = some number :=
        ⟨UInt32.ofNat count, u32_try_from_eq_some.mpr (UInt32.toNat_ofNat_of_lt' hcount)⟩
      by_cases hshort : mutations.length ≤ MAX_INDEX_MUTATIONS_PER_PAGE
      · -- this page is the last one
        have hdrop : mutations.drop MAX_INDEX_MUTATIONS_PER_PAGE = [] := drop_eq_nil_of_le hshort
        have hend : cut_pages rounds (count + 1) (mutations.drop MAX_INDEX_MUTATIONS_PER_PAGE) =
            .ok [] := by
          rw [hdrop]
          cases rounds <;> rfl
        exact ⟨_, by rw [if_neg hnil, hnumber, hend]; rfl⟩
      · have hsame : (count + 1) * MAX_INDEX_MUTATIONS_PER_PAGE +
            (mutations.drop MAX_INDEX_MUTATIONS_PER_PAGE).length =
            count * MAX_INDEX_MUTATIONS_PER_PAGE + mutations.length := by
          rw [length_drop, Nat.succ_mul]
          omega
        obtain ⟨pages, hpages⟩ := ih (le_of_eq_of_le hsame hfits)
        exact ⟨_, by rw [if_neg hnil, hnumber, hpages]; rfl⟩

theorem new_ok (h : new base_version mutations result_digest = .ok delta) :
    delta.base_version = base_version ∧ delta.result_digest = result_digest ∧
      delta.iter = mutations ∧ delta.validate = .ok () := by
  simp only [new, from_pages, ok_iff] at h
  obtain ⟨pages, hcut, hvalid, rfl⟩ := h
  exact ⟨rfl, rfl, (cut_pages_ok le_rfl hcut).1, hvalid⟩

/-- Pages that were cut are accepted exactly when the mutations are acceptable. -/
theorem validate_cut_pages (hcut : cut_pages mutations.length 0 mutations = .ok pages) :
    (⟨base_version, pages, result_digest⟩ : IndexDelta U).validate = .ok () ↔
      Acceptable mutations := by
  obtain ⟨hflat, hnumbered, hbounded⟩ := cut_pages_ok le_rfl hcut
  have hiter : (⟨base_version, pages, result_digest⟩ : IndexDelta U).iter = mutations := hflat
  rw [validate_eq_ok, hiter]
  exact ⟨fun h => h.2.2, fun h => ⟨hnumbered, hbounded, h⟩⟩

theorem exists_new_iff (hcut : cut_pages mutations.length 0 mutations = .ok pages) :
    (∃ delta, new base_version mutations result_digest = .ok delta) ↔ Acceptable mutations := by
  rw [← @validate_cut_pages U _ _ base_version result_digest hcut]
  simp only [new, from_pages, hcut, ok_iff, Except.ok.injEq, exists_eq_left']
  exact ⟨fun h => h.elim fun _ h => h.1, fun h => ⟨_, h, rfl⟩⟩

end IndexDelta

/-! ## Applying a delta -/

/-- What a mutation leaves at its path. -/
def IndexMutation.effect : IndexMutation U → Option (FileRecord U)
  | .Upsert record => some record
  | .Delete _ => none

/-- The Index as a map from paths to records. -/
abbrev IndexMap (U : UnicodeTables) := Std.ExtTreeMap (LogicalPath U) (FileRecord U)

def index_map (records : List (FileRecord U)) : IndexMap U := keyed FileRecord.path records

/-- An Upsert sets the record at its path, a Delete removes the path. -/
def apply_mutations (base : IndexMap U) (mutations : List (IndexMutation U)) : IndexMap U :=
  apply_changes IndexMutation.path IndexMutation.effect base mutations

variable {records : List (FileRecord U)}

theorem distinct_paths_of_valid (h : validate_index_snapshot records = .ok ()) :
    records.Pairwise fun a b => a.path ≠ b.path :=
  (validate_index_snapshot_eq_ok.mp h).2.1.imp fun hab => hab.ne

theorem getElem?_index_map
    (h : validate_index_snapshot records = .ok ()) {path : LogicalPath U} {record : FileRecord U} :
    (index_map records)[path]? = some record ↔ record ∈ records ∧ record.path = path :=
  getElem?_keyed (distinct_paths_of_valid h)

theorem conflict_of_key_eq {a b : LogicalPath U} (h : a.portable_key = b.portable_key) :
    PathsConflict a b := by
  apply Or.inl
  rw [LogicalPath.portable_key_eq_iff.mp h]

/-! ## The minimal delta between two snapshots -/

/-- One Delete for each path that is gone, one Upsert for each record that is new or changed, in
path order. -/
def minimal_mutations (base result : List (FileRecord U)) : List (IndexMutation U) :=
  let upserts := (result.filter fun r => r ∉ base).map IndexMutation.Upsert
  let deletes := (base.filter fun b => ∀ r ∈ result, r.path ≠ b.path).map
    fun b => IndexMutation.Delete b.path
  values (keyed IndexMutation.path (upserts ++ deletes))

/-- A path of the base is in the result under another spelling. -/
def Respelled (base result : List (FileRecord U)) : Prop :=
  ∃ b ∈ base, ∃ r ∈ result, b.path.portable_key = r.path.portable_key ∧ b.path ≠ r.path

/-- Every new path lies above or below a path of the base. -/
def OnlyReplaces (base result : List (FileRecord U)) : Prop :=
  ∀ r ∈ result, (∀ b ∈ base, b.path ≠ r.path) →
    ∃ b ∈ base, PathsConflict b.path r.path ∧ b.path.portable_key ≠ r.path.portable_key

section Minimal

variable {base result : List (FileRecord U)} (hbase : validate_index_snapshot base = .ok ())
  (hresult : validate_index_snapshot result = .ok ())

include hbase hresult

theorem distinct_upserts_deletes :
    ((result.filter fun r => r ∉ base).map IndexMutation.Upsert ++
      (base.filter fun b => ∀ r ∈ result, r.path ≠ b.path).map
        fun b => IndexMutation.Delete b.path).Pairwise fun a b => a.path ≠ b.path := by
  refine pairwise_append.mpr ⟨?_, ?_, ?_⟩
  · exact pairwise_map.mpr ((distinct_paths_of_valid hresult).filter _)
  · exact pairwise_map.mpr ((distinct_paths_of_valid hbase).filter _)
  · -- what is deleted is not in the result
    intro u hu d hd
    obtain ⟨r, hr, rfl⟩ := mem_map.mp hu
    obtain ⟨b, hb, rfl⟩ := mem_map.mp hd
    have hgone : ∀ r ∈ result, r.path ≠ b.path := by simpa using (mem_filter.mp hb).2
    exact hgone r (mem_filter.mp hr).1

theorem mem_minimal_mutations {m : IndexMutation U} :
    m ∈ minimal_mutations base result ↔
      (∃ r ∈ result, r ∉ base ∧ m = .Upsert r) ∨
        ∃ b ∈ base, (∀ r ∈ result, r.path ≠ b.path) ∧ m = .Delete b.path := by
  unfold minimal_mutations
  rw [mem_values_keyed (distinct_upserts_deletes hbase hresult)]
  simp only [mem_append, List.mem_map, mem_filter, decide_eq_true_eq, and_assoc, eq_comm (a := m)]

/-- The minimal mutations are acceptable exactly when no path is respelled. -/
theorem acceptable_minimal_iff :
    IndexDelta.Acceptable (minimal_mutations base result) ↔ ¬ Respelled base result := by
  have hmem := @mem_minimal_mutations U base result hbase hresult
  constructor
  · intro h ⟨b, hb, r, hr, hkey, hne⟩
    -- neither spelling is in the other snapshot, so both paths are mutated
    have hdelete : IndexMutation.Delete b.path ∈ minimal_mutations base result := by
      refine hmem.mpr (.inr ⟨b, hb, fun r' hr' he => ?_, rfl⟩)
      refine not_conflict_of_mem hresult hr' hr (he ▸ hne) (conflict_of_key_eq ?_)
      rw [he, hkey]
    have hupsert : IndexMutation.Upsert r ∈ minimal_mutations base result := by
      refine hmem.mpr (.inl ⟨r, hr, fun hrb => ?_, rfl⟩)
      exact not_conflict_of_mem hbase hb hrb hne (conflict_of_key_eq hkey)
    have heq := inj_on_of_nodup_map (pairwise_map.mpr h.distinct) hdelete hupsert hkey
    cases heq
  · intro hfree
    have hsorted : (minimal_mutations base result).Pairwise (·.path < ·.path) :=
      (keyedBy_keyed _).sorted
    refine ⟨?_, hsorted, ?_⟩
    · intro m hm
      rcases hmem.mp hm with ⟨r, hr, -, rfl⟩ | ⟨b, -, -, rfl⟩
      · exact (validate_index_snapshot_eq_ok.mp hresult).1 r hr
      · rfl
    · refine hsorted.imp_of_mem fun {m n} hm hn hlt hkey => ?_
      have hne : m.path ≠ n.path := hlt.ne
      rcases hmem.mp hm with ⟨r, hr, -, rfl⟩ | ⟨b, hb, -, rfl⟩
      · rcases hmem.mp hn with ⟨r', hr', -, rfl⟩ | ⟨b, hb, -, rfl⟩
        · exact not_conflict_of_mem hresult hr hr' hne (conflict_of_key_eq hkey)
        · exact hfree ⟨b, hb, r, hr, hkey.symm, hne.symm⟩
      · rcases hmem.mp hn with ⟨r, hr, -, rfl⟩ | ⟨b', hb', -, rfl⟩
        · exact hfree ⟨b, hb, r, hr, hkey, hne⟩
        · exact not_conflict_of_mem hbase hb hb' hne (conflict_of_key_eq hkey)

theorem apply_minimal_mutations :
    apply_mutations (index_map base) (minimal_mutations base result) = index_map result := by
  have hmem := @mem_minimal_mutations U base result hbase hresult
  apply apply_changes_eq
  · exact (keyedBy_keyed _).sorted.imp fun hab => hab.ne
  · intro m hm
    rcases hmem.mp hm with ⟨r, hr, -, rfl⟩ | ⟨b, -, hgone, rfl⟩
    · exact (getElem?_index_map hresult).mpr ⟨hr, rfl⟩
    · apply Option.eq_none_iff_forall_ne_some.mpr
      intro r hr
      obtain ⟨hr, hpath⟩ := (getElem?_index_map hresult).mp hr
      exact hgone r hr hpath
  · intro path hno
    -- a record at a path without a mutation is in both snapshots
    have hboth : ∀ r ∈ result, r.path = path → r ∈ base := by
      intro r hr hpath
      by_contra hnew
      exact hno _ (hmem.mpr (.inl ⟨r, hr, hnew, rfl⟩)) hpath
    apply Option.ext
    intro r
    rw [getElem?_index_map hresult, getElem?_index_map hbase]
    constructor
    · intro ⟨hr, hpath⟩
      exact ⟨hboth r hr hpath, hpath⟩
    · intro ⟨hr, hpath⟩
      have hkept : ∃ r' ∈ result, r'.path = r.path := by
        by_contra hgone
        push Not at hgone
        exact hno _ (hmem.mpr (.inr ⟨r, hr, hgone, rfl⟩)) hpath
      obtain ⟨r', hr', hpath'⟩ := hkept
      have hsame : r' = r := inj_on_of_nodup_map
        (pairwise_map.mpr (distinct_paths_of_valid hbase)) (hboth r' hr' (hpath'.trans hpath))
        hr hpath'
      exact ⟨hsame ▸ hr', hpath⟩

omit hresult in
/-- A replacement of files by directories or of directories by files respells no path. -/
theorem not_respelled_of_onlyReplaces (h : OnlyReplaces base result) : ¬ Respelled base result := by
  intro ⟨b, hb, r, hr, hkey, hne⟩
  have hnew : ∀ b' ∈ base, b'.path ≠ r.path := by
    intro b' hb' he
    exact not_conflict_of_mem hbase hb hb' (he ▸ hne) (conflict_of_key_eq (he ▸ hkey))
  obtain ⟨b', hb', hconflict, hkey'⟩ := h r hr hnew
  have hother : b'.path ≠ b.path := fun he => hkey' (he ▸ hkey)
  refine not_conflict_of_mem hbase hb' hb hother ?_
  unfold PathsConflict at hconflict ⊢
  rw [LogicalPath.portable_key_eq_iff.mp hkey]
  exact hconflict

end Minimal

/-- **Deltas between snapshots**: the minimal mutations that turn one valid snapshot into another
are accepted, in maximal pages, exactly when no path is respelled. Replacements of files by
directories and of directories by files are always accepted. What is accepted leads from the
base to the result. -/
theorem minimal_delta_iff {base result : List (FileRecord U)}
    (hbase : validate_index_snapshot base = .ok ())
    (hresult : validate_index_snapshot result = .ok ())
    (hpages : ((minimal_mutations base result).length + (MAX_INDEX_MUTATIONS_PER_PAGE - 1)) /
      MAX_INDEX_MUTATIONS_PER_PAGE < 2 ^ 32)
    (base_version : IndexVersion) (result_digest : ContentDigest) :
    ((∃ delta, IndexDelta.new base_version (minimal_mutations base result) result_digest =
        .ok delta) ↔ ¬ Respelled base result) ∧
      (∃ pages, IndexDelta.cut_pages (minimal_mutations base result).length 0
          (minimal_mutations base result) = .ok pages ∧
        ((⟨base_version, pages, result_digest⟩ : IndexDelta U).validate = .ok () ↔
          ¬ Respelled base result)) ∧ (OnlyReplaces base result → ¬ Respelled base result) ∧
      ∀ delta, IndexDelta.new base_version (minimal_mutations base result) result_digest =
        .ok delta → apply_mutations (index_map base) delta.iter = index_map result ∧
          values (index_map result) = result := by
  have hfits : 0 * MAX_INDEX_MUTATIONS_PER_PAGE + (minimal_mutations base result).length ≤
      2 ^ 32 * MAX_INDEX_MUTATIONS_PER_PAGE := by
    unfold MAX_INDEX_MUTATIONS_PER_PAGE at *
    omega
  obtain ⟨pages, hcut⟩ := IndexDelta.exists_cut_pages hfits
  refine ⟨?_, ⟨pages, hcut, ?_⟩, not_respelled_of_onlyReplaces hbase, fun delta hdelta => ?_⟩
  · rw [IndexDelta.exists_new_iff hcut, acceptable_minimal_iff hbase hresult]
  · rw [IndexDelta.validate_cut_pages hcut, acceptable_minimal_iff hbase hresult]
  · obtain ⟨-, -, hiter, -⟩ := IndexDelta.new_ok hdelta
    rw [hiter, apply_minimal_mutations hbase hresult]
    exact ⟨rfl, values_keyed (validate_index_snapshot_eq_ok.mp hresult).2.1⟩

/-- The file `a` is replaced by the directory of `a/b`, and `c` stays as it is. -/
theorem file_replaced_by_directory :
    let base :=
      [empty_file (ascii_path "a" (by decide)) 3, empty_file (ascii_path "c" (by decide)) 3]
    let result :=
      [empty_file (ascii_path "a/b" (by decide)) 3, empty_file (ascii_path "c" (by decide)) 3]
    ¬ Respelled base result ∧
      ∃ delta, IndexDelta.new ⟨7, digest_of_nat 0⟩ (minimal_mutations base result)
          (digest_of_nat 1) = .ok delta ∧
        delta.iter.length = 2 ∧ apply_mutations (index_map base) delta.iter = index_map result := by
  intro base result
  obtain ⟨hiff, -, -, happly⟩ := @minimal_delta_iff asciiTables base result (by decide) (by decide)
    (by decide +kernel) ⟨7, digest_of_nat 0⟩ (digest_of_nat 1)
  obtain ⟨delta, hdelta⟩ : ∃ delta, IndexDelta.new ⟨7, digest_of_nat 0⟩
      (minimal_mutations base result) (digest_of_nat 1) = .ok delta :=
    exists_ok_iff.mpr (by decide +kernel)
  obtain ⟨-, -, hiter, -⟩ := IndexDelta.new_ok hdelta
  refine ⟨hiff.mp ⟨delta, hdelta⟩, delta, hdelta, ?_, (happly delta hdelta).1⟩
  rw [hiter]
  decide +kernel

end NeoEngram

import NeoEngram.Local.History

/-! # What the metadata store returns

The store never changes a published row (`MetadataStore.Extends`), pages that
are consecutive slices of a list add up to it (`collect_pages_of_slices`), and
what was written (`put_manifest_ok`, `persist_directory_ok`) is read back whole
(`read_entries_of_row`, `read_file_of_row`).
-/

namespace NeoEngram.Local

open Checks List UInt64 Option DirectoryWriter Manifest ManifestRow PathComponent

variable {U : UnicodeTables} {blake3 : Blake3}

/-! ## Pages -/

def cursor_at : Nat → Option UInt64
  | 0 => none
  | position + 1 => some (UInt64.ofNat position)

theorem cursor_at_ne {a b : Nat} (hb : b < 2 ^ 64) (h : a < b) : cursor_at a ≠ cursor_at b := by
  obtain ⟨b, rfl⟩ : ∃ n, b = n + 1 := ⟨b - 1, by omega⟩
  cases a with
  | zero => simp [cursor_at]
  | succ a =>
    intro heq
    have htoNat := congrArg toNat (some.inj heq)
    rw [toNat_ofNat_of_lt' (by simp only [size]; omega),
      toNat_ofNat_of_lt' (by simp only [size]; omega)] at htoNat
    omega

/-- The reader serves the list in slices of the page size. -/
def ServesSlices {α : Type} (scan : PageRequest → Result (Page α)) (l : List α) : Prop :=
  ∀ start ≤ l.length, scan ⟨cursor_at start, STORAGE_SCAN_PAGE_SIZE⟩ =
    .ok ⟨(l.drop start).take STORAGE_SCAN_PAGE_SIZE.toNat,
      if start + STORAGE_SCAN_PAGE_SIZE.toNat < l.length then
        cursor_at (start + STORAGE_SCAN_PAGE_SIZE.toNat) else none⟩

theorem limit_usize_scan (after : Option UInt64) :
    (⟨after, STORAGE_SCAN_PAGE_SIZE⟩ : PageRequest).limit_usize =
      .ok STORAGE_SCAN_PAGE_SIZE.toNat := by
  have hle : STORAGE_SCAN_PAGE_SIZE ≤ MAX_PAGE_SIZE := by decide
  simp only [PageRequest.limit_usize, PageRequest.validate, ok_iff]
  exact ⟨hle, trivial⟩

theorem page_size_toNat : STORAGE_SCAN_PAGE_SIZE.toNat = 1024 := rfl

theorem first_scan : PageRequest.first STORAGE_SCAN_PAGE_SIZE =
    .ok ⟨cursor_at 0, STORAGE_SCAN_PAGE_SIZE⟩ := by
  have hle : STORAGE_SCAN_PAGE_SIZE ≤ MAX_PAGE_SIZE := by decide
  simp only [PageRequest.first, PageRequest.new, PageRequest.validate, ok_iff]
  exact ⟨by decide, hle, rfl⟩

variable {start : Nat} {α : Type} {scan : PageRequest → Result (Page α)}

theorem collect_pages_from_of_slices {l : List α} (hscan : ServesSlices scan l)
    (hlength : l.length < 2 ^ 64) {rounds : Nat}
    (hstart : start ≤ l.length) (hrounds : l.length < start + rounds) (items : List α) :
    collect_pages_from scan rounds ⟨cursor_at start, STORAGE_SCAN_PAGE_SIZE⟩ items =
      .ok (items ++ l.drop start) := by
  have hsize := page_size_toNat
  induction rounds generalizing start items with
  | zero => omega
  | succ rounds ih =>
    simp only [collect_pages_from, ok_iff, hscan start hstart, limit_usize_scan, Except.ok.injEq,
      exists_eq_left']
    refine ⟨by simp, ?_⟩
    by_cases hmore : start + STORAGE_SCAN_PAGE_SIZE.toNat < l.length
    · -- the next page starts where this one ends
      have hnext := ih hmore.le (by omega)
        (items ++ (l.drop start).take STORAGE_SCAN_PAGE_SIZE.toNat)
      have hcursor : cursor_at (start + STORAGE_SCAN_PAGE_SIZE.toNat) =
          some (ofNat (start + 1023)) := rfl
      have hne : cursor_at start ≠ cursor_at (start + STORAGE_SCAN_PAGE_SIZE.toNat) :=
        cursor_at_ne (by omega) (by omega)
      rw [hcursor] at hnext hne
      rw [if_pos hmore, hcursor]
      simp only [ok_iff]
      refine ⟨hne, ?_⟩
      rw [hnext, append_assoc, ← drop_drop, take_append_drop]
    · rw [if_neg hmore, take_of_length_le (by rw [length_drop]; omega)]
      rfl

/-- Consecutive slices of a list add up to the list. -/
theorem collect_pages_of_slices {l : List α} (hscan : ServesSlices scan l)
    (hlength : l.length < 2 ^ 64) {rounds : Nat}
    (hrounds : l.length < rounds) : collect_pages rounds scan = .ok l := by
  have hread : collect_pages_from scan rounds ⟨cursor_at 0, STORAGE_SCAN_PAGE_SIZE⟩ [] =
      .ok ([] ++ l.drop 0) :=
    collect_pages_from_of_slices hscan hlength (Nat.zero_le _) (by omega) []
  simp only [collect_pages, first_scan, bind_eq_ok, Except.ok.injEq, exists_eq_left']
  simpa using hread

/-! ## Directory readers -/

/-- Entries carry their positions, counted from `first`. -/
def OrdinalsFrom : Nat → List DirectoryEntry → Prop
  | _, [] => True
  | first, entry :: entries => entry.ordinal.toNat = first ∧ OrdinalsFrom (first + 1) entries

theorem all_cursor_at (hstart : start ≤ 2 ^ 64) (ordinal : UInt64) :
    (cursor_at start).all (· < ordinal) = decide (start ≤ ordinal.toNat) := by
  cases start with
  | zero => simp [cursor_at]
  | succ position =>
    have hposition : (ofNat position).toNat = position :=
      toNat_ofNat_of_lt' (by simp only [size]; omega)
    simp only [cursor_at, all_some, lt_iff_toNat_lt, hposition]
    rfl

variable {entries : List DirectoryEntry}

/-- The entries from a position on are those with an ordinal from there on. -/
theorem filter_ordinal_eq_drop {first : Nat} (h : OrdinalsFrom first entries) (start : Nat) :
    (entries.filter fun entry => decide (start ≤ entry.ordinal.toNat)) =
      entries.drop (start - first) := by
  induction entries generalizing first with
  | nil => simp
  | cons entry entries ih =>
    obtain ⟨hordinal, hrest⟩ := h
    rw [filter_cons, ih hrest, hordinal]
    by_cases hle : start ≤ first
    · rw [show start - (first + 1) = 0 by omega, show start - first = 0 by omega]
      simp [hle]
    · rw [show start - first = start - (first + 1) + 1 by omega]
      simp [hle]

theorem OrdinalsFrom.getElem? {first i : Nat}
    (h : OrdinalsFrom first entries) {entry : DirectoryEntry} (hi : entries[i]? = some entry) :
    entry.ordinal.toNat = first + i := by
  induction entries generalizing first i with
  | nil => simp at hi
  | cons e entries ih =>
    obtain ⟨hordinal, hrest⟩ := h
    cases i with
    | zero =>
      obtain rfl := some.inj hi
      exact hordinal
    | succ i =>
      rw [ih hrest hi]
      omega

variable {row : DirectoryRow}

theorem servesSlices_scan_entries (hordinals : OrdinalsFrom 0 row.entries)
    (hlength : row.entries.length ≤ 2 ^ 63) : ServesSlices row.scan_entries row.entries := by
  intro start hstart
  have hsize := page_size_toNat
  have hselect : (row.entries.filter fun entry => (cursor_at start).all (· < entry.ordinal)) =
      row.entries.drop start := by
    simp only [all_cursor_at (show start ≤ 2 ^ 64 by omega)]
    exact filter_ordinal_eq_drop hordinals start
  have hencode : encode_cursor (cursor_at start) = .ok () := by
    cases start with
    | zero => rfl
    | succ position =>
      simp only [cursor_at, encode_cursor, encode_u64_eq_ok]
      rw [toNat_ofNat_of_lt' (by simp only [size]; omega)]
      omega
  simp only [DirectoryRow.scan_entries, limit_usize_scan, hselect, hencode, bind, Except.bind,
    length_take, length_drop, take_take]
  by_cases hmore : start + STORAGE_SCAN_PAGE_SIZE.toNat < row.entries.length
  · -- the last entry of the page carries the position before the next one
    rw [if_pos (by omega), if_pos hmore]
    have hlast : (row.entries.drop start)[1023]? =
      some (row.entries.get ⟨start + 1023, by omega⟩) := by
      rw [getElem?_drop, getElem?_eq_getElem]
      rfl
    have hordinal : (row.entries.get ⟨start + 1023, by omega⟩).ordinal.toNat = 0 + (start + 1023) :=
      hordinals.getElem? (getElem?_eq_getElem _)
    have hcursor : cursor_at (start + STORAGE_SCAN_PAGE_SIZE.toNat) =
        some (ofNat (start + 1023)) := rfl
    have hnext : (ofNat (start + 1023)) =
      (row.entries.get ⟨start + 1023, by omega⟩).ordinal := by
      apply UInt64.toNat_inj.mp
      rw [hordinal, toNat_ofNat_of_lt' (by simp only [UInt64.size]; omega), Nat.zero_add]
    simp only [hsize, pure, Except.pure, show min 1024 (1024 + 1) = 1024 from rfl,
      getLast?_take, hlast] at hcursor ⊢
    rw [hcursor, hnext]
    simp
  · rw [if_neg (by omega), if_neg hmore, take_of_length_le (by rw [length_drop]; omega),
      take_of_length_le (by rw [length_drop]; omega)]
    rfl

theorem read_entries_of_row {store : MetadataStore} {id : DirectoryId}
    (hrow : store.directories[id]? = some row) (hordinals : OrdinalsFrom 0 row.entries)
    (hlength : row.entries.length ≤ 2 ^ 63) (hcount : row.entry_count.toNat = row.entries.length) :
    read_entries store id = .ok row.entries := by
  have hcollect := collect_pages_of_slices (servesSlices_scan_entries hordinals hlength)
    (by omega) (Nat.lt_succ_self _)
  simp only [read_entries, open_directory, hrow, ok_iff, some.injEq, exists_eq_left',
    u64_try_from_eq_some]
  exact ⟨row.entries, hcollect, row.entry_count, hcount, rfl, rfl⟩

/-! ## Manifest readers -/

/-- A Manifest row whose chunks cover the file and whose header counts them. -/
structure ManifestRow.Readable (row : ManifestRow) : Prop where
  covers : Manifest.validate_chunks 0 row.chunks = .ok row.total_size
  counted : row.chunk_count.toNat = row.chunks.length

variable {chunks : List Chunk}

/-- The reader checks no more than the validator did. -/
theorem check_chunks_of_validate {offset next : UInt64}
    (h : validate_chunks offset chunks = .ok next) :
    check_chunks offset chunks = .ok next := by
  induction chunks generalizing offset with
  | nil => simpa [validate_chunks, check_chunks] using h
  | cons chunk chunks ih =>
    simp only [validate_chunks, ChunkRef.validate, ok_iff, mapError_eq_ok] at h
    obtain ⟨⟨hsize, -⟩, hoffset, m, hm, hrest⟩ := h
    simp only [check_chunks, ok_iff]
    exact ⟨hoffset, UInt64.pos_iff_ne_zero.mpr hsize, m, hoffset ▸ hm, ih hrest⟩

theorem end_before_of_validate {row : ManifestRow} {next : UInt64}
    (hstart : start ≤ row.chunks.length)
    (h : validate_chunks 0 (row.chunks.take start) = .ok next) :
    row.end_before start = .ok next := by
  cases start with
  | zero => simpa [validate_chunks, end_before] using h
  | succ position =>
    have hget : row.chunks[position]? = some (row.chunks.get ⟨position, hstart⟩) :=
      getElem?_eq_getElem hstart
    rw [take_add_one, hget, toList_some, validate_chunks_append] at h
    obtain ⟨m, -, hlast⟩ := h
    simp only [validate_chunks, ok_iff, Except.ok.injEq, exists_eq_right] at hlast
    obtain ⟨-, hoffset, hadd⟩ := hlast
    simp only [end_before, hget, ok_iff, some.injEq, exists_eq_left']
    exact hoffset ▸ hadd

theorem servesSlices_scan_chunks {row : ManifestRow} (h : row.Readable) :
    ServesSlices row.scan_chunks row.chunks := by
  intro start hstart
  have hsize := page_size_toNat
  have hcount := row.chunk_count.toNat_lt
  rw [h.counted] at hcount
  -- the page and what is checked of it: a part of the chunks between two others
  have hsplit : row.chunks = row.chunks.take start ++ ((row.chunks.drop start).take 1025 ++
      (row.chunks.drop start).drop 1025) := by
    rw [take_append_drop, take_append_drop]
  obtain ⟨m, hfront, hback⟩ := validate_chunks_append.mp (hsplit ▸ h.covers)
  obtain ⟨e, hpage, hlast⟩ := validate_chunks_append.mp hback
  have hend := end_before_of_validate hstart hfront
  have hcheck := check_chunks_of_validate hpage
  have hafter : (cursor_at start).all (· < row.chunk_count) = true := by
    rw [all_cursor_at (by omega), h.counted]
    simpa using hstart
  have hfirst : (cursor_at start).elim 0 (fun after => after.toNat + 1) = start := by
    cases start with
    | zero => rfl
    | succ position =>
      simp only [cursor_at, elim_some]
      rw [toNat_ofNat_of_lt' (by simp only [size]; omega)]
  simp only [scan_chunks, limit_usize_scan, hafter, hfirst, ensure, if_true, bind,
    Except.bind, hsize, hend, hcheck, length_take, length_drop, take_take]
  by_cases hmore : start + 1024 < row.chunks.length
  · rw [if_pos (by omega), if_pos hmore]
    rfl
  · rw [if_neg (by omega), if_neg hmore]
    -- nothing is left after the page, so it ends at the total size
    have hnil : (row.chunks.drop start).drop 1025 = [] := by
      rw [drop_drop]
      exact drop_eq_nil_of_le (by omega)
    rw [hnil] at hlast
    have htotal : e = row.total_size := by simpa [validate_chunks] using hlast
    have hlength : start + min (1024 + 1) (row.chunks.length - start) = row.chunk_count.toNat := by
      rw [h.counted]
      omega
    rw [if_pos hlength, if_pos htotal, take_of_length_le (by rw [length_drop]; omega),
      take_of_length_le (by rw [length_drop]; omega)]
    rfl

theorem read_file_of_row {store : MetadataStore} {path : Text} {entry : DirectoryEntry}
    {row : ManifestRow} (hrow : store.manifests[(⟨entry.target_id⟩ : ManifestId)]? = some row)
    (hread : row.Readable) (hsize : row.total_size = entry.total_size) :
    read_file store path entry = .ok ⟨path, entry.total_size, row.chunking, row.chunks⟩ := by
  have hlt := row.chunk_count.toNat_lt
  rw [hread.counted] at hlt
  have hcollect := collect_pages_of_slices (servesSlices_scan_chunks hread) hlt (Nat.lt_succ_self _)
  simp only [read_file, open_manifest, hrow, ok_iff, some.injEq, exists_eq_left',
    u64_try_from_eq_some]
  exact ⟨hsize, row.chunks, hcollect, row.chunk_count, hread.counted, rfl, rfl⟩

/-! ## Writing Manifests -/

/-- Published rows stay as they are. -/
structure MetadataStore.Extends (new old : MetadataStore) : Prop where
  manifests : ∀ {id : ManifestId} {row : ManifestRow}, old.manifests[id]? = some row →
    new.manifests[id]? = some row
  directories : ∀ {id : DirectoryId} {row : DirectoryRow}, old.directories[id]? = some row →
    new.directories[id]? = some row

variable {store store' : MetadataStore}

theorem MetadataStore.Extends.refl (store : MetadataStore) : store.Extends store := ⟨id, id⟩

theorem MetadataStore.Extends.trans {s₁ s₂ s₃ : MetadataStore} (h : s₂.Extends s₁)
    (h' : s₃.Extends s₂) : s₃.Extends s₁ :=
  ⟨fun hrow => h'.manifests (h.manifests hrow), fun hrow => h'.directories (h.directories hrow)⟩

theorem getElem?_insert_of_free {κ β : Type} [Ord κ] [Std.TransOrd κ] [Std.LawfulEqOrd κ]
    {rows : Std.ExtTreeMap κ β} {key k : κ} {row r : β} (hfree : rows[key]? = none)
    (h : rows[k]? = some r) : (rows.insert key row)[k]? = some r := by
  rw [Std.ExtTreeMap.getElem?_insert, if_neg, h]
  intro hk
  rw [← Std.LawfulEqOrd.eq_of_compare hk, hfree] at h
  cases h

/-- Pushing chunks to the hasher of the store pushes them to the canonical one. -/
theorem foldlM_push_ok {h h' : ManifestHasher}
    (hfold : chunks.foldlM ManifestHasher.push h = .ok h') :
    chunks.foldlM NeoEngram.ManifestHasher.push h.hasher = .ok h'.hasher ∧
      h.chunk_count.toNat + chunks.length = h'.chunk_count.toNat ∧ h'.chunking = h.chunking := by
  induction chunks generalizing h with
  | nil =>
    simp only [foldlM_nil, pure_eq_ok] at hfold
    subst hfold
    simp
  | cons chunk chunks ih =>
    simp only [foldlM_cons, ok_iff, ManifestHasher.push, of_core_eq_ok] at hfold
    obtain ⟨g, ⟨-, core, hcore, count, hcount, rfl⟩, hrest⟩ := hfold
    obtain ⟨hpush, hlength, hchunking⟩ := ih hrest
    have hone := checked_add_eq_some.mp hcount
    simp only [toNat_one] at hone
    simp only at hlength
    refine ⟨?_, by simp only [length_cons]; omega, hchunking⟩
    rw [foldlM_cons, hcore]
    exact hpush

variable {chunking : ChunkingStrategy} {manifest : ManifestRef} {total_size : UInt64}

theorem describe_manifest_ok
    (h : describe_manifest blake3 total_size chunking chunks = .ok manifest) :
    (mk total_size chunking manifest.chunk_count chunks).Readable ∧
      manifest.chunking = chunking := by
  simp only [describe_manifest, ManifestHasher.finish, ok_iff, of_core_eq_ok] at h
  obtain ⟨hasher, hfold, id, hfinish, rfl⟩ := h
  obtain ⟨hcore, hlength, hchunking⟩ := foldlM_push_ok hfold
  obtain ⟨hvalid, -, -, htotal, -⟩ := NeoEngram.ManifestHasher.foldlM_push_eq_ok.mp hcore
  simp only [NeoEngram.ManifestHasher.finish, ok_iff] at hfinish
  obtain ⟨hend, -, -⟩ := hfinish
  refine ⟨⟨?_, ?_⟩, hchunking⟩
  · show validate_chunks 0 chunks = .ok total_size
    rw [hend, htotal] at hvalid
    exact hvalid
  · simpa [ManifestHasher.new] using hlength.symm

theorem foldlM_push_of_staged {h h' : ManifestHasher}
    (hfold : chunks.foldlM push_staged h = .ok h') :
    chunks.foldlM ManifestHasher.push h = .ok h' := by
  induction chunks generalizing h with
  | nil => exact hfold
  | cons chunk chunks ih =>
    simp only [foldlM_cons, ok_iff, push_staged] at hfold
    obtain ⟨g, ⟨g', hpush, -, -, rfl⟩, hrest⟩ := hfold
    rw [foldlM_cons, hpush]
    exact ih hrest

/-- A stored Manifest is described as before and can be read back. -/
theorem put_manifest_ok
    (h : put_manifest blake3 store total_size chunking chunks = .ok (manifest, store')) :
    describe_manifest blake3 total_size chunking chunks = .ok manifest ∧
      store'.manifests[manifest.id]? = some ⟨total_size, chunking, manifest.chunk_count, chunks⟩ ∧
      store'.Extends store := by
  simp only [put_manifest, ok_iff, Prod.mk.injEq] at h
  obtain ⟨-, hasher, hfold, -, written, -, ref, hfinish, -, store₁, hpublish, rfl, rfl⟩ := h
  have hdescribe : describe_manifest blake3 total_size chunking chunks = .ok ref := by
    simp only [describe_manifest, bind_eq_ok]
    exact ⟨hasher, foldlM_push_of_staged hfold, hfinish⟩
  obtain ⟨-, hchunking⟩ := describe_manifest_ok hdescribe
  refine ⟨hdescribe, ?_⟩
  simp only [publish_manifest_set, ok_iff, hchunking] at hpublish
  obtain ⟨-, hmatch⟩ := hpublish
  split at hmatch
  · next existing hget =>
    simp only [ok_iff] at hmatch
    obtain ⟨rfl, rfl⟩ := hmatch
    exact ⟨hget, .refl store⟩
  · next hget =>
    simp only [pure_eq_ok] at hmatch
    subst hmatch
    exact ⟨by simp, getElem?_insert_of_free hget, id⟩

/-! ## Writing Directories -/

def target_digest : DirectoryEntryTarget → ContentDigest
  | .Manifest id => id.digest
  | .Directory id => id.digest

def entry_row (entry : NeoEngram.DirectoryEntry U) : DirectoryEntry :=
  ⟨entry.ordinal, entry.name.text, entry.target_id.kind, target_digest entry.target_id,
    entry.total_size⟩

variable {entry : NeoEngram.DirectoryEntry U}

theorem stored_entry_ok {row : DirectoryEntry} (h : stored_entry entry = .ok row) :
    row = entry_row entry ∧ entry.kind = entry.target_id.kind := by
  obtain ⟨ordinal, name, kind, target, size⟩ := entry
  cases target with
  | Manifest id =>
    simp only [stored_entry, ok_iff] at h
    obtain ⟨hkind, rfl⟩ := h
    exact ⟨rfl, hkind.symm⟩
  | Directory id =>
    simp only [stored_entry, ok_iff] at h
    obtain ⟨hkind, rfl⟩ := h
    exact ⟨rfl, hkind.symm⟩

theorem core_directory_entry_row {entry core : NeoEngram.DirectoryEntry U}
    (hkind : entry.kind = entry.target_id.kind)
    (h : core_directory_entry U (entry_row entry) = .ok core) : core = entry := by
  obtain ⟨ordinal, name, kind, target, size⟩ := entry
  cases target with
  | Manifest id =>
    obtain rfl : kind = .File := hkind
    simp only [core_directory_entry, entry_row, ok_iff, with_context_eq_ok, of_core_eq_ok,
      parse_eq_ok, DirectoryEntryTarget.kind] at h
    obtain ⟨n, hn, rfl⟩ := h
    rw [ext_text hn]
    rfl
  | Directory id =>
    obtain rfl : kind = .Directory := hkind
    simp only [core_directory_entry, entry_row, ok_iff, with_context_eq_ok, of_core_eq_ok,
      parse_eq_ok, DirectoryEntryTarget.kind] at h
    obtain ⟨n, hn, hensure, rfl⟩ := h
    have hsize : size = 0 := ensure_eq_ok.mp hensure
    rw [ext_text hn, hsize]
    rfl

def EntryPresent (store : MetadataStore) (entry : NeoEngram.DirectoryEntry U) : Prop :=
  match entry.target_id with
  | .Manifest id => ∃ row, store.manifests[id]? = some row ∧ row.total_size = entry.total_size
  | .Directory id => ∃ row, store.directories[id]? = some row

/-- How many files there are at or below an entry, and their size together. -/
def entry_totals (store : MetadataStore) (entry : NeoEngram.DirectoryEntry U) : Nat × Nat :=
  match entry.target_id with
  | .Manifest _ => (1, entry.total_size.toNat)
  | .Directory id => (store.directories[id]?).elim (0, 0) fun row =>
      (row.file_count.toNat, row.total_size.toNat)

/-- The row of a Directory whose children are stored. -/
structure DirectoryRow.Represents (store : MetadataStore) (directory : Directory U)
    (row : DirectoryRow) : Prop where
  entries : row.entries = directory.entries.map entry_row
  counted : row.entry_count.toNat = directory.entries.length
  short : directory.entries.length < 2 ^ 63
  valid : directory.validate = .ok ()
  present : ∀ entry ∈ directory.entries, EntryPresent store entry
  files : row.file_count.toNat = (directory.entries.map fun e => (entry_totals store e).1).sum
  size : row.total_size.toNat = (directory.entries.map fun e => (entry_totals store e).2).sum

theorem EntryPresent.mono (h : store'.Extends store) (hp : EntryPresent store entry) :
    EntryPresent store' entry ∧ entry_totals store' entry = entry_totals store entry := by
  unfold EntryPresent entry_totals at *
  cases htarget : entry.target_id with
  | Manifest id =>
    rw [htarget] at hp
    obtain ⟨row, hrow, hsize⟩ := hp
    exact ⟨⟨row, h.manifests hrow, hsize⟩, rfl⟩
  | Directory id =>
    rw [htarget] at hp
    obtain ⟨row, hrow⟩ := hp
    exact ⟨⟨row, h.directories hrow⟩, by simp only [hrow, h.directories hrow]⟩

theorem DirectoryRow.Represents.mono (h : store'.Extends store) {directory : Directory U}
    (hr : row.Represents store directory) : row.Represents store' directory where
  entries := hr.entries
  counted := hr.counted
  short := hr.short
  valid := hr.valid
  present := fun entry he => (hr.present entry he).mono h |>.1
  files := by
    rw [hr.files]
    congr 1
    exact map_congr_left fun e he => by rw [((hr.present e he).mono h).2]
  size := by
    rw [hr.size]
    congr 1
    exact map_congr_left fun e he => by rw [((hr.present e he).mono h).2]

variable {writer writer' : DirectoryWriter U}

theorem append_entry_ok (h : (do writer.append_entry store (← stored_entry entry)) = .ok writer') :
    writer.hasher.push entry = .ok writer'.hasher ∧
      writer'.batch = writer.batch ++ [entry_row entry] ∧ EntryPresent store entry ∧
      writer'.file_count.toNat = writer.file_count.toNat + (entry_totals store entry).1 ∧
      writer'.total_size.toNat = writer.total_size.toNat + (entry_totals store entry).2 := by
  simp only [bind_eq_ok] at h
  obtain ⟨row, hrow, happend⟩ := h
  obtain ⟨rfl, hkind⟩ := stored_entry_ok hrow
  simp only [append_entry, push_entry, ok_iff, of_core_eq_ok, Prod.exists,
    checked_add_eq_some] at happend
  obtain ⟨files, size, hvalidate, -, hasher, ⟨core, hcore, hpush⟩, count, hcount, total, htotal,
    rfl⟩ := happend
  rw [core_directory_entry_row hkind hcore] at hpush
  have hstored : EntryPresent store entry ∧ files.toNat = (entry_totals store entry).1 ∧
      size.toNat = (entry_totals store entry).2 := by
    unfold EntryPresent entry_totals
    obtain ⟨ordinal, name, kind, target, total_size⟩ := entry
    cases target with
    | Manifest id =>
      simp only [validate_stored_directory_entry, entry_row, DirectoryEntryTarget.kind,
        target_digest, ok_iff, Prod.mk.injEq] at hvalidate
      obtain ⟨-, -, row, hrow, hensure, rfl, rfl⟩ := hvalidate
      have hsize : row.total_size = total_size := ensure_eq_ok.mp hensure
      exact ⟨⟨row, hrow, hsize⟩, rfl, by rw [hsize]⟩
    | Directory id =>
      simp only [validate_stored_directory_entry, entry_row, DirectoryEntryTarget.kind,
        target_digest, ok_iff, Prod.mk.injEq] at hvalidate
      obtain ⟨-, -, row, hrow, rfl, rfl⟩ := hvalidate
      exact ⟨⟨row, hrow⟩, by simp [hrow], by simp [hrow]⟩
  obtain ⟨hpresent, hfiles, hsize⟩ := hstored
  exact ⟨hpush, rfl, hpresent, by rw [← hcount, hfiles], by rw [← htotal, hsize]⟩

/-- **Run**: appending entries pushes them all and adds up what is below them. -/
theorem foldlM_append_ok {entries : List (NeoEngram.DirectoryEntry U)}
    (h : entries.foldlM (fun (writer : DirectoryWriter U) entry => do
      writer.append_entry store (← stored_entry entry)) writer = .ok writer') :
    entries.foldlM DirectoryHasher.push writer.hasher = .ok writer'.hasher ∧
      writer'.batch = writer.batch ++ entries.map entry_row ∧
      (∀ entry ∈ entries, EntryPresent store entry) ∧
      writer'.file_count.toNat =
        writer.file_count.toNat + (entries.map fun e => (entry_totals store e).1).sum ∧
      writer'.total_size.toNat =
        writer.total_size.toNat + (entries.map fun e => (entry_totals store e).2).sum := by
  induction entries generalizing writer with
  | nil =>
    simp only [foldlM_nil, pure_eq_ok] at h
    subst h
    simp
  | cons entry entries ih =>
    rw [foldlM_cons, bind_eq_ok] at h
    obtain ⟨w, hstep, hrest⟩ := h
    obtain ⟨hpush, hbatch, hpresent, hfiles, hsize⟩ := append_entry_ok hstep
    obtain ⟨hpushes, hbatches, hall, hcount, htotal⟩ := ih hrest
    refine ⟨?_, by simp [hbatches, hbatch], forall_mem_cons.mpr ⟨hpresent, hall⟩, ?_, ?_⟩
    · rw [foldlM_cons, hpush]
      exact hpushes
    · rw [hcount, hfiles, map_cons, sum_cons]
      omega
    · rw [htotal, hsize, map_cons, sum_cons]
      omega

theorem persist_directory_ok {object : DirectoryObject U}
    (h : persist_directory blake3 store object = .ok store') :
    store'.Extends store ∧ ∃ row, store'.directories[object.id]? = some row ∧
      row.Represents store' object.directory := by
  simp only [persist_directory, finish, publish_directory_set,
    insert_directory_batch, ok_iff, encode_u64_eq_ok, Prod.exists, Prod.mk.injEq] at h
  obtain ⟨writer, hfold, ref, store₁, ⟨-, store₂, ⟨hshort, -, -, hmatch⟩, rfl, rfl⟩, hid, rfl⟩ := h
  obtain ⟨hpush, hbatch, hpresent, hfiles, hsize⟩ := foldlM_append_ok hfold
  obtain ⟨hvalid, hlength, -⟩ := DirectoryHasher.foldlM_push_eq_ok.mp hpush
  have hcount : writer.hasher.entry_count.toNat = object.directory.entries.length := by
    simpa [new, DirectoryHasher.new] using hlength.symm
  have hrepresents : DirectoryRow.Represents store object.directory
      ⟨writer.hasher.entry_count, writer.file_count, writer.total_size, writer.batch⟩ :=
    ⟨by simpa [new] using hbatch, hcount, hcount ▸ hshort, hvalid, hpresent,
      by simpa [new] using hfiles, by simpa [new] using hsize⟩
  split at hmatch
  · next existing hget =>
    simp only [ok_iff] at hmatch
    obtain ⟨rfl, rfl⟩ := hmatch
    exact ⟨.refl store, _, hid ▸ hget, hrepresents⟩
  · next hget =>
    simp only [pure_eq_ok] at hmatch
    subst hmatch
    have hextends : MetadataStore.Extends { store with
        directories := store.directories.insert (writer.hasher.finish blake3)
          ⟨writer.hasher.entry_count, writer.file_count, writer.total_size, writer.batch⟩ } store :=
      ⟨id, getElem?_insert_of_free hget⟩
    exact ⟨hextends, _, by rw [← hid]; simp, hrepresents.mono hextends⟩

theorem foldlM_persist_ok {objects : List (DirectoryObject U)}
    (h : objects.foldlM (persist_directory blake3) store = .ok store') :
    store'.Extends store ∧ ∀ object ∈ objects, ∃ row, store'.directories[object.id]? = some row ∧
      row.Represents store' object.directory := by
  induction objects generalizing store with
  | nil =>
    simp only [foldlM_nil, pure_eq_ok] at h
    subst h
    exact ⟨.refl store, by simp⟩
  | cons object objects ih =>
    rw [foldlM_cons, bind_eq_ok] at h
    obtain ⟨store₁, hstep, hrest⟩ := h
    obtain ⟨hextends, row, hrow, hrepresents⟩ := persist_directory_ok hstep
    obtain ⟨hlater, hall⟩ := ih hrest
    refine ⟨hextends.trans hlater, forall_mem_cons.mpr ⟨?_, hall⟩⟩
    exact ⟨row, hlater.directories hrow, hrepresents.mono hlater⟩

/-! ## Commits and Indexes -/

theorem put_commit_extends {id : CommitId} {commit : Commit}
    (h : put_commit blake3 store id commit = .ok store') : store'.Extends store := by
  simp only [put_commit, ok_iff] at h
  obtain ⟨-, canonical_id, -, -, hmatch⟩ := h
  split at hmatch
  · simp only [ok_iff] at hmatch
    exact hmatch.2 ▸ .refl store
  · simp only [pure_eq_ok] at hmatch
    exact hmatch ▸ ⟨fun h => h, fun h => h⟩

theorem advance_head_extends {expected : RepositoryHead} {id : CommitId}
    (h : advance_head store expected id = .ok store') : store'.Extends store := by
  unfold advance_head at h
  split at h
  · simp only [ok_iff] at h
    obtain ⟨-, cas, hcas, hmatch⟩ := h
    cases cas with
    | Mismatch actual => simp at hmatch
    | Updated store₁ =>
      simp only [pure_eq_ok] at hmatch
      subst hmatch
      simp only [compare_exchange_reference, ok_iff] at hcas
      obtain ⟨-, hif⟩ := hcas
      split at hif
      · simp at hif
      · simp only [pure_eq_ok, Cas.Updated.injEq] at hif
        exact hif ▸ ⟨fun h => h, fun h => h⟩
  · simp only [ok_iff] at h
    obtain ⟨-, cas, hcas, hmatch⟩ := h
    cases cas with
    | Mismatch actual => simp at hmatch
    | Updated store₁ =>
      simp only [pure_eq_ok] at hmatch
      subst hmatch
      simp only [compare_exchange_head, ok_iff] at hcas
      obtain ⟨-, -, hif⟩ := hcas
      split at hif
      · simp at hif
      · simp only [pure_eq_ok, Cas.Updated.injEq] at hif
        exact hif ▸ ⟨fun h => h, fun h => h⟩

theorem persist_engine_graph_ok {repository repository' : Repository}
    {graph : BuildCommitGraphResult U} {expected_head : RepositoryHead}
    (h : persist_engine_graph blake3 repository graph expected_head = .ok repository') :
    repository'.chunking_policy = repository.chunking_policy ∧
      repository'.metadata_store.Extends repository.metadata_store ∧
      ∀ object ∈ graph.directories, ∃ row,
        repository'.metadata_store.directories[object.id]? = some row ∧
        row.Represents repository'.metadata_store object.directory := by
  simp only [persist_engine_graph, store_commit, ok_iff, Prod.exists, Prod.mk.injEq] at h
  obtain ⟨-, store₁, hfold, id, store₂, ⟨-, cid, -, store₃, hput, -, rfl⟩, -, store₄, hadvance,
    rfl⟩ := h
  obtain ⟨hextends, hall⟩ := foldlM_persist_ok hfold
  have hlater := (put_commit_extends hput).trans (advance_head_extends hadvance)
  refine ⟨rfl, hextends.trans hlater, fun object hobject => ?_⟩
  obtain ⟨row, hrow, hrepresents⟩ := hall object hobject
  exact ⟨row, hlater.directories hrow, hrepresents.mono hlater⟩

/-- The record of a file whose Manifest is stored. -/
structure RecordOf (blake3 : Blake3) (store : MetadataStore) (file : WorkspaceFileRecord)
    (record : FileRecord) : Prop where
  path : record.path = file.path
  size : record.total_size = file.total_size
  manifest : ∃ manifest, describe_manifest blake3 file.total_size file.chunking file.chunks =
    .ok manifest ∧ record.manifest_id = manifest.id ∧ record.chunk_count = manifest.chunk_count ∧
    store.manifests[manifest.id]? =
      some ⟨file.total_size, file.chunking, manifest.chunk_count, file.chunks⟩

theorem foldlM_publish_ok {done done' : List FileRecord × MetadataStore}
    {files : List WorkspaceFileRecord}
    (h : files.foldlM (publish_file_manifest blake3) done = .ok done') :
    done'.2.Extends done.2 ∧ ∃ records, done'.1 = done.1 ++ records ∧
      Forall₂ (RecordOf blake3 done'.2) files records := by
  induction files generalizing done with
  | nil =>
    simp only [foldlM_nil, pure_eq_ok] at h
    subst h
    exact ⟨.refl done.2, [], by simp, .nil⟩
  | cons file files ih =>
    simp only [foldlM_cons, publish_file_manifest, ok_iff, Prod.exists] at h
    obtain ⟨records₁, store₁, ⟨manifest, store₂, hput, hdone⟩, hrest⟩ := h
    obtain ⟨rfl, rfl⟩ := Prod.mk.inj hdone
    obtain ⟨hdescribe, hrow, hextends⟩ := put_manifest_ok hput
    obtain ⟨hlater, records, hrecords, hall⟩ := ih hrest
    refine ⟨hextends.trans hlater, .from_manifest file.path file.total_size manifest :: records,
      by simp [hrecords], .cons ?_ hall⟩
    exact ⟨rfl, rfl, manifest, hdescribe, rfl, rfl, hlater.manifests hrow⟩

end NeoEngram.Local

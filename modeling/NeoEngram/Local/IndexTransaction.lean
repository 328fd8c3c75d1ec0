import NeoEngram.Core.Concrete
import NeoEngram.Local.IndexTable

/-! # Index transactions are maps

An Index transaction shows a map from path to record: the base, changed by
the calls made so far. Every read, every count and the committed table are
those of the map.
-/

namespace NeoEngram.Local

open Checks Words OrderedKeys Paging List UInt64 SqliteIndexTxn FilePageRequest
open Std (ExtTreeMap)

/-! ## Scopes -/

theorem path_is_in_scope_iff {path front : Text} : path_is_in_scope path front = true ↔
      front = [] ∨ path = front ∨ ∃ rest, path = front ++ '/' :: rest := by
  have hsuffix : (strip_front front path).any (fun suffix => suffix.head? = some '/') = true ↔
      ∃ rest, path = front ++ '/' :: rest := by
    simp only [Option.any_eq_true, strip_front_eq_some, decide_eq_true_eq]
    constructor
    · rintro ⟨suffix, rfl, hhead⟩
      obtain ⟨rest, rfl⟩ := head?_eq_some_iff.mp hhead
      exact ⟨rest, rfl⟩
    · rintro ⟨rest, rfl⟩
      exact ⟨'/' :: rest, rfl, rfl⟩
  simp only [path_is_in_scope, Bool.or_eq_true, hsuffix, List.isEmpty_iff, decide_eq_true_eq,
    or_assoc]

theorem path_is_in_scope_trans {path middle front : Text}
    (h₁ : path_is_in_scope path middle = true) (h₂ : path_is_in_scope middle front = true) :
    path_is_in_scope path front = true := by
  rw [path_is_in_scope_iff] at h₁ h₂ ⊢
  rcases h₂ with h | rfl | ⟨rest, rfl⟩
  · exact .inl h
  · exact h₁
  · rcases h₁ with h | rfl | ⟨rest', rfl⟩
    · simp at h
    · exact .inr (.inr ⟨rest, rfl⟩)
    · exact .inr (.inr ⟨rest ++ '/' :: rest', by simp⟩)

theorem eq_slash_of_between {c : Char} (h : '/' ≤ c) (h' : c < '0') : c = '/' := by
  have hlow : '/'.toNat ≤ c.toNat := h
  have hhigh : c.toNat < '0'.toNat := h'
  have hnat : c.toNat = '/'.toNat := by
    have : '/'.toNat = 47 := rfl
    have : '0'.toNat = 48 := rfl
    omega
  exact Char.toNat_inj.mp hnat

/-- The texts between the bounds are the descendants. -/
theorem between_bounds_iff {front path : Text} :
    (front ++ ['/'] ≤ path ∧ path < front ++ ['0']) ↔ ∃ rest, path = front ++ '/' :: rest := by
  constructor
  · rintro ⟨hlow, hhigh⟩
    obtain ⟨rest, rfl⟩ := prefix_of_between_letters (fun _ => eq_slash_of_between) hlow hhigh
    exact ⟨rest, by simp⟩
  · rintro ⟨rest, rfl⟩
    constructor
    · exact le_of_prefix ⟨rest, by simp⟩
    · exact append_cons_lt front (by decide) rest []

theorem matches_scope_iff {front path : Text} (h : front ≠ []) :
    matches_scope front path = path_is_in_scope path front := by
  rw [Bool.eq_iff_iff, path_is_in_scope_iff, matches_scope, Bool.or_eq_true, Bool.and_eq_true,
    ← between_bounds_iff, or_iff_right h]
  exact or_congr ⟨of_decide_eq_true, fun h => decide_eq_true h⟩
    (and_congr ⟨of_decide_eq_true, fun h => decide_eq_true h⟩
      ⟨of_decide_eq_true, fun h => decide_eq_true h⟩)

theorem all_lt_iff {after : Option Text} {path : Text} :
    after.all (· < path) = true ↔ ∀ c ∈ after, c < path := by
  rw [Option.all_eq_true]
  exact forall₂_congr fun c _ => ⟨of_decide_eq_true, fun h => decide_eq_true h⟩

/-! ## Pages -/

def row_map (files : IndexRows) : TextMap FileRecord := files.map file_from_row

variable {files : IndexRows}

theorem getElem?_row_map {path : Text} :
    (row_map files)[path]? = files[path]?.map (file_from_row path) :=
  ExtTreeMap.getElem?_map

theorem keyedBy_row_map (files : IndexRows) : KeyedBy (·.path) (row_map files) := by
  intro path file h
  rw [getElem?_row_map] at h
  obtain ⟨row, -, rfl⟩ := Option.map_eq_some_iff.mp h
  rfl

/-- The records of a map in a scope and behind a cursor, in path order. -/
def listing (m : TextMap FileRecord) (scope after : Option Text) : List FileRecord :=
  after_cursor (·.path) after
    ((values m).filter fun file => scope.all (path_is_in_scope file.path))

variable {m : TextMap FileRecord}

theorem filtered_sorted (h : KeyedBy (·.path) m) (scope : Option Text) :
    ((values m).filter fun file => scope.all (path_is_in_scope file.path)).Pairwise
      (·.path < ·.path) :=
  h.sorted.sublist filter_sublist

theorem listing_sorted (h : KeyedBy (·.path) m) (scope after : Option Text) :
    (listing m scope after).Pairwise (·.path < ·.path) :=
  after_cursor_sorted _ (filtered_sorted h scope)

variable {scope : Option Text}

theorem mem_listing (h : KeyedBy (·.path) m) {after : Option Text} {file : FileRecord} :
    file ∈ listing m scope after ↔ m[file.path]? = some file ∧
      (∀ front ∈ scope, path_is_in_scope file.path front = true) ∧ ∀ c ∈ after, c < file.path := by
  rw [listing, mem_after_cursor, mem_filter, h.mem_values, Option.all_eq_true]
  exact and_assoc

def page_of (limit : Nat) (files : List FileRecord) : FilePage :=
  ⟨files.take limit, next_cursor (·.path) limit files⟩

/-- One record more than the page holds tells whether there is another page. -/
theorem page_of_retained_take (limit : Nat) (files : List FileRecord) :
    page_of_retained limit (files.take (limit + 1)) = page_of limit files := by
  by_cases hmore : limit < files.length
  · have hlong : limit < (files.take (limit + 1)).length := by
      rw [length_take]
      omega
    have hdrop : (files.take (limit + 1)).dropLast = files.take limit := by
      rw [dropLast_eq_take, length_take, take_take]
      congr 1
      omega
    simp only [page_of_retained, if_pos hlong, hdrop, page_of, next_cursor, if_pos hmore]
  · have hall : files.take (limit + 1) = files := take_of_length_le (by omega)
    have hall' : files.take limit = files := take_of_length_le (by omega)
    simp only [page_of_retained, hall, page_of, next_cursor, if_neg hmore, hall']

theorem scope_filter_iff {path : Text} :
    ((scope.filter fun front => !front.isEmpty).all fun front => matches_scope front path) = true ↔
      ∀ front ∈ scope, path_is_in_scope path front = true := by
  cases scope with
  | none => simp
  | some front =>
    by_cases hempty : front = []
    · have hall : path_is_in_scope path [] = true := path_is_in_scope_iff.mpr (.inl rfl)
      simp [hempty, hall]
    · have hfilter : (some front).filter (fun front => !front.isEmpty) = some front := by
        simp [hempty]
      rw [hfilter, Option.all_some, matches_scope_iff hempty]
      simp

theorem mem_rows_iff {file : FileRecord} :
    file ∈ files.toList.map (fun row => file_from_row row.1 row.2) ↔
      (row_map files)[file.path]? = some file := by
  rw [getElem?_row_map, Option.map_eq_some_iff]
  simp only [List.mem_map, Prod.exists, ExtTreeMap.mem_toList_iff_getElem?_eq_some]
  constructor
  · rintro ⟨path, row, hrow, rfl⟩
    exact ⟨row, hrow, rfl⟩
  · rintro ⟨row, hrow, hfile⟩
    exact ⟨file.path, row, hrow, hfile⟩

theorem select_files_eq (files : IndexRows) (after scope : Option Text) :
    select_files files after scope = listing (row_map files) scope after := by
  have hrows : (files.toList.map fun row => file_from_row row.1 row.2).Pairwise
      (·.path < ·.path) := by
    rw [pairwise_map]
    exact ExtTreeMap.ordered_keys_toList.imp fun h => compare_lt_iff_lt.mp h
  refine eq_of_sorted_by (hrows.sublist filter_sublist)
    (listing_sorted (keyedBy_row_map files) scope after) fun file => ?_
  rw [mem_listing (keyedBy_row_map files), select_files, mem_filter, mem_rows_iff,
    Bool.and_eq_true, all_lt_iff, scope_filter_iff]
  exact and_congr_right fun _ => and_comm

theorem scan_files_from_table_eq (files : IndexRows) (scope : Option Text)
    (request : FilePageRequest) (hlimit : request.limit ≤ MAX_PAGE_SIZE) :
    scan_files_from_table files scope request =
      .ok (page_of request.limit.toNat (listing (row_map files) scope request.after)) := by
  have hlimit_usize : request.limit_usize = .ok request.limit.toNat := by
    simp [limit_usize, ensure_eq_ok, hlimit]
  simp only [scan_files_from_table, hlimit_usize, select_files_eq]
  exact congrArg Except.ok (page_of_retained_take _ _)

namespace SqliteIndexTxn

variable {txn : SqliteIndexTxn} {m : TextMap FileRecord}

/-- The transaction shows the map: this is what it answers to a lookup. -/
structure Shows (txn : SqliteIndexTxn) (m : TextMap FileRecord) : Prop where
  keyed : KeyedBy (·.path) txn.upserts
  valid : ∀ (path : Text) (file : FileRecord), txn.upserts[path]? = some file →
    validate_file_record file = .ok ()
  lookup : ∀ path : Text, m[path]? = txn.get_file path

/-- A record of the base that is neither deleted nor overwritten. -/
def IsLive (txn : SqliteIndexTxn) (file : FileRecord) : Prop :=
  txn.base_file_deleted file.path = false ∧ file.path ∉ txn.upserts

variable {file : FileRecord} {retained : TextMap FileRecord}

theorem get_file_eq_some {path : Text} :
    txn.get_file path = some file ↔ txn.upserts[path]? = some file ∨
      (path ∉ txn.upserts ∧ txn.base_file_deleted path = false ∧
        (row_map txn.base)[path]? = some file) := by
  unfold get_file
  rw [getElem?_row_map]
  cases hup : txn.upserts[path]? with
  | some file' =>
    have hmem : path ∈ txn.upserts := mem_iff_exists.mpr ⟨file', hup⟩
    simp [hmem]
  | none =>
    have hmem : path ∉ txn.upserts := by
      intro hmem
      obtain ⟨file', hfile⟩ := mem_iff_exists.mp hmem
      rw [hup] at hfile
      cases hfile
    cases hdel : txn.base_file_deleted path <;> simp [hmem]

theorem Shows.map_keyed (h : txn.Shows m) : KeyedBy (·.path) m := by
  intro path file hfile
  rw [h.lookup, get_file_eq_some] at hfile
  rcases hfile with hfile | ⟨-, -, hfile⟩
  · exact h.keyed path file hfile
  · exact keyedBy_row_map txn.base path file hfile

/-- A listing of the map is merged from the upserts and the live part of the base. -/
theorem Shows.mem_listing_iff (h : txn.Shows m) {after : Option Text} :
    file ∈ listing m scope after ↔ file ∈ listing txn.upserts scope after ∨
      (file ∈ listing (row_map txn.base) scope after ∧ txn.IsLive file) := by
  rw [mem_listing h.map_keyed, mem_listing h.keyed, mem_listing (keyedBy_row_map txn.base),
    h.lookup, get_file_eq_some]
  constructor
  · rintro ⟨hup | ⟨hout, hlive, hbase⟩, hscope⟩
    · exact .inl ⟨hup, hscope⟩
    · exact .inr ⟨⟨hbase, hscope⟩, hlive, hout⟩
  · rintro (⟨hup, hscope⟩ | ⟨⟨hbase, hscope⟩, hlive, hout⟩)
    · exact ⟨.inl hup, hscope⟩
    · exact ⟨.inr ⟨hout, hlive, hbase⟩, hscope⟩

theorem candidates_eq (h : txn.Shows m) (scope after : Option Text) :
    ((values txn.upserts).filter fun file =>
      after.all (· < file.path) && scope.all (path_is_in_scope file.path)) =
      listing txn.upserts scope after := by
  refine eq_of_sorted_by (h.keyed.sorted.sublist filter_sublist)
    (listing_sorted h.keyed scope after) fun file => ?_
  rw [mem_listing h.keyed, mem_filter, h.keyed.mem_values, Bool.and_eq_true, all_lt_iff,
    Option.all_eq_true]
  exact and_congr_right fun _ => and_comm

variable {bound : Nat}

/-- The first loop retains the least upserts; it stops when no later one can be among them. -/
theorem retain_upserts_keeps {done files : List FileRecord}
    (h : Keeps (·.path) bound (· ∈ done) retained)
    (hsorted : (done ++ files).Pairwise (·.path < ·.path)) (hroom : retained.size < bound) :
    Keeps (·.path) bound (· ∈ done ++ files) (retain_upserts bound files retained) := by
  induction files generalizing done retained with
  | nil => simpa [retain_upserts] using h
  | cons file files ih =>
    obtain ⟨-, hrest, hbelow⟩ := pairwise_append.mp hsorted
    have hfresh : ∀ f ∈ done, f.path ≠ file.path := fun f hf =>
      (hbelow f hf file mem_cons_self).ne
    have hstep := h.insert_room (a := file) hfresh hroom
    have hsame : ∀ f, (f = file ∨ f ∈ done) ↔ f ∈ done ++ [file] := by
      intro f
      rw [mem_append, mem_singleton, or_comm]
    simp only [hsame] at hstep
    have hcons : done ++ file :: files = (done ++ [file]) ++ files := by simp
    rw [retain_upserts, hcons]
    by_cases hfull : (retained.insert file.path file).size = bound
    · rw [if_pos hfull]
      refine hstep.extend (fun f hf => mem_append_left _ hf) fun f hf hnew => ⟨hfull, ?_⟩
      have hlater : f ∈ files := (mem_append.mp hf).resolve_left hnew
      intro k hk
      obtain ⟨g, hg⟩ := mem_iff_exists.mp hk
      have hgk := hstep.keyed k g hg
      have hgdone : g ∈ done ++ [file] := hstep.sound g (hgk ▸ hg)
      rw [hcons] at hsorted
      exact hgk ▸ (pairwise_append.mp hsorted).2.2 g hgdone f hlater
    · rw [if_neg hfull]
      have hle := hstep.size_le
      exact ih hstep (hcons ▸ hsorted) (by omega)

/-- What has been seen after `done` of the base: the upserts, and what is live of `done`. -/
def Seen (txn : SqliteIndexTxn) (upserts done : List FileRecord) (file : FileRecord) : Prop :=
  file ∈ upserts ∨ (file ∈ done ∧ txn.IsLive file)

theorem retain_base_file_keeps {upserts done : List FileRecord}
    (hup : ∀ f ∈ upserts, f.path ∈ txn.upserts) (hfresh : ∀ f ∈ done, f.path ≠ file.path)
    (h : Keeps (·.path) bound (txn.Seen upserts done) retained) :
    Keeps (·.path) bound (txn.Seen upserts (done ++ [file]))
      (txn.retain_base_file bound retained file) := by
  by_cases hlive : txn.IsLive file
  · have hstep := h.insert (a := file) fun f hf => by
      rcases hf with hf | ⟨hf, -⟩
      · intro heq
        exact hlive.2 (heq ▸ hup f hf)
      · exact hfresh f hf
    have hskip : (txn.base_file_deleted file.path || txn.upserts.contains file.path) = false := by
      rw [Bool.or_eq_false_iff, hlive.1]
      refine ⟨rfl, ?_⟩
      rw [← Bool.not_eq_true, ← ExtTreeMap.mem_iff_contains]
      exact hlive.2
    have hsame : txn.Seen upserts (done ++ [file]) =
        fun f => f = file ∨ txn.Seen upserts done f := by
      funext f
      apply propext
      simp only [Seen, mem_append, mem_singleton]
      grind
    rw [hsame, retain_base_file, if_neg (by simp [hskip])]
    exact hstep
  · -- a deleted or overwritten record adds nothing
    have hskip : (txn.base_file_deleted file.path || txn.upserts.contains file.path) = true := by
      by_contra hno
      rw [Bool.not_eq_true, Bool.or_eq_false_iff] at hno
      refine hlive ⟨hno.1, fun hmem => ?_⟩
      rw [ExtTreeMap.mem_iff_contains, hno.2] at hmem
      cases hmem
    have hsame : txn.Seen upserts (done ++ [file]) = txn.Seen upserts done := by
      funext f
      apply propext
      simp only [Seen, mem_append, mem_singleton]
      grind
    rw [hsame, retain_base_file, if_pos hskip]
    exact h

theorem foldl_retain_keeps {upserts done files : List FileRecord}
    (hup : ∀ f ∈ upserts, f.path ∈ txn.upserts)
    (hsorted : (done ++ files).Pairwise (·.path < ·.path))
    (h : Keeps (·.path) bound (txn.Seen upserts done) retained) :
    Keeps (·.path) bound (txn.Seen upserts (done ++ files))
      (files.foldl (txn.retain_base_file bound) retained) := by
  induction files generalizing done retained with
  | nil => simpa using h
  | cons file files ih =>
    have hcons : done ++ file :: files = (done ++ [file]) ++ files := by simp
    have hfresh : ∀ f ∈ done, f.path ≠ file.path := fun f hf =>
      ((pairwise_append.mp hsorted).2.2 f hf file mem_cons_self).ne
    rw [foldl_cons, hcons]
    exact ih (hcons ▸ hsorted) (retain_base_file_keeps hup hfresh h)

/-- The base has been read up to the end of what is retained. -/
def PassedEnd (bound : Nat) (retained : TextMap FileRecord) (items : List FileRecord) : Prop :=
  bound ≤ retained.size ∧
    ((items.getLast?.map (·.path)).any fun last_scanned =>
      retained.maxKey?.any (· ≤ last_scanned)) = true

theorem PassedEnd.below {items : List FileRecord}
    (h : PassedEnd bound retained items) : ∃ last ∈ items, ∀ path ∈ retained, path ≤ last.path := by
  have hany := h.2
  simp only [Option.any_eq_true, Option.map_eq_some_iff] at hany
  obtain ⟨_, ⟨last, hlast, rfl⟩, top, htop, hle⟩ := hany
  refine ⟨last, mem_of_getLast? hlast, fun path hpath => ?_⟩
  exact ((le_of_maxKey? htop).2 path hpath).trans (of_decide_eq_true hle)

theorem retain_base_round {bound rounds : Nat} {scope : Option Text} {request : FilePageRequest}
    {retained merged : TextMap FileRecord} {page : FilePage}
    (hscan : scan_files_from_table txn.base scope request = .ok page)
    (hmerged : page.items.foldl (txn.retain_base_file bound) retained = merged) :
    (page.next = none ∨ PassedEnd bound merged page.items →
      txn.retain_base scope bound (rounds + 1) request retained = .ok merged) ∧
    (¬ (page.next = none ∨ PassedEnd bound merged page.items) →
      txn.retain_base scope bound (rounds + 1) request retained =
        txn.retain_base scope bound rounds { request with after := page.next } merged) := by
  subst hmerged
  constructor
  · intro hstop
    rw [retain_base, hscan]
    exact if_pos hstop
  · intro hmore
    rw [retain_base, hscan]
    exact if_neg hmore

variable {rounds : Nat}

/-- The second loop merges the records of the base behind a cursor into what is retained. The
induction is on the pages; the loop stops at the last page, or when the rest is above everything
retained. -/
theorem retain_base_keeps {upserts done : List FileRecord} (request : FilePageRequest)
    (hlimit : request.limit = MAX_PAGE_SIZE) (hup : ∀ f ∈ upserts, f.path ∈ txn.upserts)
    (hsorted : (done ++ listing (row_map txn.base) scope request.after).Pairwise (·.path < ·.path))
    (h : Keeps (·.path) bound (txn.Seen upserts done) retained)
    (hrounds : (listing (row_map txn.base) scope request.after).length < rounds) :
    ∃ retained', txn.retain_base scope bound rounds request retained = .ok retained' ∧
      Keeps (·.path) bound
        (txn.Seen upserts (done ++ listing (row_map txn.base) scope request.after)) retained' := by
  induction rounds generalizing done request retained with
  | zero => omega
  | succ rounds ih =>
    have hscan := scan_files_from_table_eq txn.base scope request (hlimit ▸ UInt32.le_refl _)
    have hpos : 0 < request.limit.toNat := by rw [hlimit]; decide
    have hmove : ∀ next, next_cursor (·.path) request.limit.toNat
        (listing (row_map txn.base) scope request.after) = some next →
        listing (row_map txn.base) scope (some next) =
          (listing (row_map txn.base) scope request.after).drop request.limit.toNat :=
      fun next hnext => after_cursor_next (filtered_sorted (keyedBy_row_map txn.base) scope) hnext
    generalize listing (row_map txn.base) scope request.after = rest at *
    have hsplit : rest.take request.limit.toNat ++ rest.drop request.limit.toNat = rest :=
      take_append_drop request.limit.toNat rest
    have hpage : Keeps (·.path) bound (txn.Seen upserts (done ++ rest.take request.limit.toNat))
        ((rest.take request.limit.toNat).foldl (txn.retain_base_file bound) retained) :=
      foldl_retain_keeps hup
        (hsorted.sublist (List.Sublist.append_left (take_sublist _ _) done)) h
    have hround := @retain_base_round txn bound rounds scope request retained _ _ hscan rfl
    simp only [page_of] at hround
    generalize (rest.take request.limit.toNat).foldl (txn.retain_base_file bound) retained
      = merged at *
    cases hnext : next_cursor (·.path) request.limit.toNat rest with
    | none =>
      -- the last page
      have hall : rest.take request.limit.toNat = rest :=
        take_of_length_le (length_le_of_no_next hpos hnext)
      exact ⟨merged, hround.1 (.inl hnext), hall ▸ hpage⟩
    | some next =>
      by_cases hpassed : PassedEnd bound merged (rest.take request.limit.toNat)
      · refine ⟨merged, hround.1 (.inr hpassed), ?_⟩
        obtain ⟨last, hlast, hbelow⟩ := hpassed.below
        have hfull : merged.size = bound := le_antisymm hpage.size_le hpassed.1
        have hrest : rest.Pairwise (·.path < ·.path) := (pairwise_append.mp hsorted).2.1
        rw [← hsplit] at hrest
        refine hpage.extend (fun file hfile => ?_) fun file hfile hnew => ⟨hfull, fun k hk => ?_⟩
        · refine hfile.imp_right fun hold => ⟨?_, hold.2⟩
          exact (List.Sublist.append_left (take_sublist _ _) done).subset hold.1
        · -- only records behind the page are missing
          have hlater : file ∈ rest.drop request.limit.toNat := by
            rcases hfile with hup | ⟨hmem, hlive⟩
            · exact absurd (.inl hup) hnew
            · by_contra hnot
              refine hnew (.inr ⟨?_, hlive⟩)
              rw [← hsplit] at hmem
              simp only [mem_append] at hmem ⊢
              tauto
          exact (hbelow k hk).trans_lt ((pairwise_append.mp hrest).2.2 last hlast file hlater)
      · have hstep : ¬ (next_cursor (·.path) request.limit.toNat rest = none ∨
            PassedEnd bound merged (rest.take request.limit.toNat)) := by
          simp [hnext, hpassed]
        have hdrop := hmove next hnext
        have hmore := length_of_next_cursor hnext
        rw [hround.2 hstep, hnext]
        have hassoc : done ++ rest = (done ++ rest.take request.limit.toNat) ++
            listing (row_map txn.base) scope (some next) := by
          rw [hdrop, append_assoc, hsplit]
        rw [hassoc] at hsorted ⊢
        refine ih { request with after := some next } hlimit hsorted hpage ?_
        show (listing (row_map txn.base) scope (some next)).length < rounds
        rw [hdrop, length_drop]
        omega

theorem length_listing_le (m : TextMap FileRecord) (scope after : Option Text) :
    (listing m scope after).length ≤ m.size := by
  calc (listing m scope after).length
      ≤ ((values m).filter fun file => scope.all (path_is_in_scope file.path)).length :=
        length_filter_le _ _
    _ ≤ (values m).length := length_filter_le _ _
    _ = m.size := length_values

theorem size_row_map (files : IndexRows) : (row_map files).size = files.size := ExtTreeMap.size_map

/-- A paged read of the transaction is a page of the map. -/
theorem Shows.scan_current_files_eq (h : txn.Shows m) (scope : Option Text)
    (request : FilePageRequest) (hlimit : request.limit ≤ MAX_PAGE_SIZE) :
    txn.scan_current_files scope request =
      .ok (page_of request.limit.toNat (listing m scope request.after)) := by
  have hlimit_usize : request.limit_usize = .ok request.limit.toNat := by
    simp [limit_usize, ensure_eq_ok, hlimit]
  have hfirst : Keeps (·.path) (request.limit.toNat + 1)
      (· ∈ [] ++ listing txn.upserts scope request.after)
      (retain_upserts (request.limit.toNat + 1) (listing txn.upserts scope request.after) ∅) := by
    refine retain_upserts_keeps ?_ (listing_sorted h.keyed scope request.after) (by simp)
    simpa using Keeps.empty (request.limit.toNat + 1)
  have hseen : txn.Seen (listing txn.upserts scope request.after) [] =
      (· ∈ [] ++ listing txn.upserts scope request.after) := by
    funext file
    simp [Seen]
  have hlength := length_listing_le (row_map txn.base) scope request.after
  rw [size_row_map] at hlength
  obtain ⟨retained, hretained, hkeeps⟩ := retain_base_keeps (.largest request.after) rfl
    (fun file hfile => mem_iff_exists.mpr ⟨file, ((mem_listing h.keyed).mp hfile).1⟩)
    (listing_sorted (keyedBy_row_map txn.base) scope request.after) (hseen ▸ hfirst)
    (Nat.lt_succ_of_le hlength)
  have hall : txn.Seen (listing txn.upserts scope request.after)
      ([] ++ listing (row_map txn.base) scope request.after) =
        (· ∈ listing m scope request.after) := by
    funext file
    exact propext h.mem_listing_iff.symm
  have hvalues := (hall ▸ hkeeps).values_eq (listing_sorted h.map_keyed scope request.after)
  simp only [scan_current_files, hlimit_usize, candidates_eq h]
  show (do let retained ← retain_base txn scope _ _ _ _; _) = _
  rw [hretained]
  show Except.ok (page_of_retained _ (values retained)) = _
  rw [hvalues, page_of_retained_take]

/-- The pages from a request on, concatenated. `rounds` bounds how many pages are read. -/
def read_pages (txn : SqliteIndexTxn) (scope : Option Text) :
    Nat → FilePageRequest → Result (List FileRecord)
  | 0, _ => .error ["page bound of the model exceeded"]
  | rounds + 1, request => do
    let page ← txn.scan_current_files scope request
    match page.next with
    | none => return page.items
    | some next => do
      let rest ← txn.read_pages scope rounds { request with after := some next }
      return page.items ++ rest

/-- The pages of a scan are the listing of the map, cut in pieces. -/
theorem Shows.read_pages_eq (h : txn.Shows m)
    (request : FilePageRequest) (hlimit : request.limit ≤ MAX_PAGE_SIZE)
    (hrounds : (listing m scope request.after).length < rounds) :
    txn.read_pages scope rounds request = .ok (listing m scope request.after) := by
  induction rounds generalizing request with
  | zero => omega
  | succ rounds ih =>
    have hpos : 0 < request.limit.toNat := UInt32.lt_iff_toNat_lt.mp request.limit_pos
    rw [read_pages, h.scan_current_files_eq scope request hlimit]
    cases hnext : next_cursor (·.path) request.limit.toNat (listing m scope request.after) with
    | none =>
      have hall := take_of_length_le (length_le_of_no_next hpos hnext)
      simp only [page_of, hnext, hall]
      rfl
    | some next =>
      have hmore := length_of_next_cursor hnext
      have hdrop : listing m scope (some next) =
          (listing m scope request.after).drop request.limit.toNat :=
        after_cursor_next (filtered_sorted h.map_keyed scope) hnext
      have hshorter : (listing m scope (some next)).length < rounds := by
        rw [hdrop, length_drop]
        omega
      have hrest := ih { request with after := some next } hlimit hshorter
      simp only [page_of, hnext]
      show (txn.read_pages scope rounds { request with after := some next } >>= fun rest =>
        pure ((listing m scope request.after).take request.limit.toNat ++ rest)) = _
      rw [hrest]
      show Except.ok (_ ++ listing m scope (some next)) = _
      rw [hdrop, take_append_drop]

theorem count_files_round {scope : Text} {request : FilePageRequest}
    {deleted : UInt64} {page : FilePage}
    (hscan : txn.scan_current_files (some scope) request = .ok page)
    (hitems : page.items.length < 2 ^ 64) :
    txn.count_files scope (rounds + 1) request deleted =
      ok_or (u64_try_from (deleted.toNat + page.items.length)) ["WorkspaceIndex 删除计数溢出"] >>=
        fun deleted => match page.next with
          | none => .ok deleted
          | some next =>
            txn.count_files scope rounds { request with after := some next } deleted := by
  have hlength : u64_try_from page.items.length = some (UInt64.ofNat page.items.length) :=
    if_pos hitems
  have hadd : checked_add deleted (UInt64.ofNat page.items.length) =
      u64_try_from (deleted.toNat + page.items.length) := by
    have hnat : (UInt64.ofNat page.items.length).toNat = page.items.length :=
      toNat_ofNat_of_lt' hitems
    rw [checked_add, u64_try_from, hnat, ofNat_add, UInt64.ofNat_toNat]
  rw [count_files, hscan]
  show (ok_or (u64_try_from page.items.length) _ >>= fun length =>
    ok_or (checked_add deleted length) _ >>= _) = _
  rw [hlength]
  show (ok_or (checked_add deleted _) _ >>= _) = _
  rw [hadd]
  rfl

/-- The loop of `delete_prefix` counts the records in scope behind its cursor. -/
theorem Shows.count_files_eq (h : txn.Shows m) (scope : Text)
    (request : FilePageRequest) (deleted : UInt64) (hlimit : request.limit = MAX_PAGE_SIZE)
    (hrounds : (listing m (some scope) request.after).length < rounds) :
    txn.count_files scope rounds request deleted =
      ok_or (u64_try_from (deleted.toNat + (listing m (some scope) request.after).length))
        ["WorkspaceIndex 删除计数溢出"] := by
  induction rounds generalizing request deleted with
  | zero => omega
  | succ rounds ih =>
    have hscan := h.scan_current_files_eq (some scope) request (hlimit ▸ UInt32.le_refl _)
    have hmove : ∀ next, next_cursor (·.path) request.limit.toNat
        (listing m (some scope) request.after) = some next →
        listing m (some scope) (some next) =
          (listing m (some scope) request.after).drop request.limit.toNat :=
      fun next hnext => after_cursor_next (filtered_sorted h.map_keyed (some scope)) hnext
    have hsize : request.limit.toNat = 4096 := by rw [hlimit]; rfl
    -- one round counts a page of what is left and goes on after it
    generalize listing m (some scope) request.after = rest at *
    have hitems : (rest.take request.limit.toNat).length < 2 ^ 64 := by
      rw [length_take]
      omega
    have hpos : 0 < request.limit.toNat := by omega
    have htake : (rest.take request.limit.toNat).length ≤ rest.length := by
      rw [length_take]
      omega
    rw [count_files_round hscan hitems]
    simp only [page_of]
    by_cases hfits : deleted.toNat + (rest.take request.limit.toNat).length < 2 ^ 64
    · rw [u64_try_from, if_pos hfits]
      cases hnext : next_cursor (·.path) request.limit.toNat rest with
      | none =>
        have hall : rest.take request.limit.toNat = rest :=
          take_of_length_le (length_le_of_no_next hpos hnext)
        rw [hall] at hfits ⊢
        rw [u64_try_from, if_pos hfits]
        rfl
      | some next =>
        have hdrop := hmove next hnext
        have hmore := length_of_next_cursor hnext
        have hshorter : (listing m (some scope) (some next)).length < rounds := by
          rw [hdrop, length_drop]
          omega
        have hrest := ih { request with after := some next }
          (UInt64.ofNat (deleted.toNat + (rest.take request.limit.toNat).length))
          hlimit hshorter
        simp only [hdrop] at hrest
        rw [toNat_ofNat_of_lt' hfits, Nat.add_assoc, ← length_append, take_append_drop] at hrest
        exact hrest
    · rw [u64_try_from, if_neg hfits, u64_try_from, if_neg (by omega)]
      rfl

/-! ## Calls -/

theorem shows_begin {workspace_id : WorkspaceId} {state : StoredIndexState} :
    Shows ⟨workspace_id, files, state, [], ∅⟩ (row_map files) where
  keyed := .empty
  valid := by simp
  lookup := by
    intro path
    rw [getElem?_row_map]
    simp [get_file, base_file_deleted]

theorem Shows.upsert (h : txn.Shows m) (hvalid : validate_file_record file = .ok ()) :
    Shows { txn with upserts := txn.upserts.insert file.path file } (m.insert file.path file) where
  keyed := h.keyed.insert file
  valid := by
    intro path file' hfile
    rw [getElem?_insert_eq] at hfile
    split at hfile
    · cases hfile
      exact hvalid
    · exact h.valid path file' hfile
  lookup := by
    intro path
    rw [getElem?_insert_eq, h.lookup]
    simp only [get_file, getElem?_insert_eq]
    by_cases hpath : file.path = path
    · simp [hpath]
    · simp [hpath, base_file_deleted]

theorem getElem?_filter_eq {ν : Type} {t : TextMap ν} {keep : Text → Bool} {path : Text} :
    (t.filter fun path _ => keep path)[path]? = if keep path = true then t[path]? else none := by
  rw [ExtTreeMap.getElem?_filter']
  cases keep path <;> cases t[path]? <;> simp

/-- The deleted prefixes after a deletion cover what they did and the new scope. -/
theorem any_deleted_prefixes {deleted : List Text} {scope path : Text} :
    (if deleted.any (path_is_in_scope scope) then deleted
      else deleted.filter (fun existing => !path_is_in_scope existing scope) ++ [scope]).any
        (path_is_in_scope path) = true ↔
      deleted.any (path_is_in_scope path) = true ∨ path_is_in_scope path scope = true := by
  split
  · next hcovered =>
    -- the scope is covered already
    obtain ⟨existing, hmem, hscope⟩ := any_eq_true.mp hcovered
    constructor
    · exact .inl
    · rintro (h | h)
      · exact h
      · exact any_eq_true.mpr ⟨existing, hmem, path_is_in_scope_trans h hscope⟩
  · simp only [any_append, List.any_filter, Bool.or_eq_true, List.any_eq_true,
      Bool.and_eq_true, Bool.not_eq_true', any_cons, any_nil, Bool.or_false]
    constructor
    · rintro (⟨existing, hmem, -, h⟩ | h)
      · exact .inl ⟨existing, hmem, h⟩
      · exact .inr h
    · rintro (⟨existing, hmem, h⟩ | h)
      · by_cases hdropped : path_is_in_scope existing scope = true
        · exact .inr (path_is_in_scope_trans h hdropped)
        · exact .inl ⟨existing, hmem, by simpa using hdropped, h⟩
      · exact .inr h

/-- The transaction after a deletion. -/
def without (txn : SqliteIndexTxn) (scope : Text) : SqliteIndexTxn :=
  { txn with
    upserts := txn.upserts.filter fun path _ => !path_is_in_scope path scope
    deleted_prefixes :=
      if txn.deleted_prefixes.any (path_is_in_scope scope) then txn.deleted_prefixes
      else txn.deleted_prefixes.filter (fun existing => !path_is_in_scope existing scope)
        ++ [scope] }

theorem base_file_deleted_without {scope path : Text} : (txn.without scope).base_file_deleted path =
      (txn.base_file_deleted path || path_is_in_scope path scope) := by
  rw [Bool.eq_iff_iff, Bool.or_eq_true]
  exact any_deleted_prefixes

theorem Shows.delete (h : txn.Shows m) (scope : Text) :
    (txn.without scope).Shows (m.filter fun path _ => !path_is_in_scope path scope) where
  keyed := by
    intro path file hfile
    rw [without, getElem?_filter_eq] at hfile
    split at hfile
    · exact h.keyed path file hfile
    · cases hfile
  valid := by
    intro path file hfile
    rw [without, getElem?_filter_eq] at hfile
    split at hfile
    · exact h.valid path file hfile
    · cases hfile
  lookup := by
    intro path
    rw [getElem?_filter_eq, h.lookup]
    unfold get_file
    rw [base_file_deleted_without]
    simp only [without, getElem?_filter_eq]
    cases hscope : path_is_in_scope path scope <;> simp

/-- The records in a scope are as many as a deletion of the scope removes. -/
theorem length_listing_scope (hkeyed : KeyedBy (·.path) m) (scope : Text) :
    (listing m (some scope) none).length =
      (m.filter fun path _ => path_is_in_scope path scope).size := by
  have hrows : ((m.filter fun path _ => path_is_in_scope path scope).toList.map Prod.snd) =
      (values m).filter fun file => path_is_in_scope file.path scope := by
    rw [ExtTreeMap.toList_filter, values, List.filter_map]
    refine congrArg _ (filter_congr fun entry hentry => ?_)
    have hkey := hkeyed entry.1 entry.2 (ExtTreeMap.mem_toList_iff_getElem?_eq_some.mp hentry)
    simp only [Function.comp_apply, hkey]
  have hlength := congrArg List.length hrows
  rw [length_map, ExtTreeMap.length_toList] at hlength
  rw [hlength]
  simp [listing]

end SqliteIndexTxn

/-- The changing calls of a transaction. The manifests are those published at the time. -/
inductive IndexCall where
  | upsert_file (manifests : ManifestTable) (file : FileRecord)
  | delete_prefix (scope : Text)

/-- A call that fails keeps the state. -/
def attempt {α σ : Type} (state : σ) (result : Result (α × σ)) : Result α × σ :=
  match result with
  | .ok (value, state') => (.ok value, state')
  | .error error => (.error error, state)

/-- A deletion answers how many files it deleted. -/
def SqliteIndexTxn.call (txn : SqliteIndexTxn) : IndexCall → Result (Option UInt64) × SqliteIndexTxn
  | .upsert_file manifests file => attempt txn do
    let txn' ← txn.upsert_file manifests file
    return (none, txn')
  | IndexCall.delete_prefix scope => attempt txn do
    let (deleted, txn') ← txn.delete_prefix scope
    return (some deleted, txn')

def map_call (m : TextMap FileRecord) : IndexCall → Result (Option UInt64) × TextMap FileRecord
  | .upsert_file manifests file => attempt m do
    SqliteIndexTxn.validate_stored_file_record manifests file
    return (none, m.insert file.path file)
  | IndexCall.delete_prefix scope => attempt m do
    let deleted ← ok_or (u64_try_from (m.filter fun path _ => path_is_in_scope path scope).size)
      ["WorkspaceIndex 删除计数溢出"]
    return (some deleted, m.filter fun path _ => !path_is_in_scope path scope)

/-- The answers of a sequence of calls, and the state after it. -/
def run_calls {σ : Type} (call : σ → IndexCall → Result (Option UInt64) × σ) :
    σ → List IndexCall → List (Result (Option UInt64)) × σ
  | state, [] => ([], state)
  | state, c :: calls =>
    let first := call state c
    let rest := run_calls call first.2 calls
    (first.1 :: rest.1, rest.2)

namespace SqliteIndexTxn

variable {txn : SqliteIndexTxn} {m : TextMap FileRecord}

theorem upsert_file_eq (manifests : ManifestTable) (file : FileRecord) :
    txn.upsert_file manifests file = (validate_stored_file_record manifests file).map
      fun _ => { txn with upserts := txn.upserts.insert file.path file } := by
  unfold upsert_file
  cases validate_stored_file_record manifests file <;> rfl

theorem Shows.delete_prefix_eq (h : txn.Shows m) (scope : Text) : txn.delete_prefix scope =
      (ok_or (u64_try_from (m.filter fun path _ => path_is_in_scope path scope).size)
        ["WorkspaceIndex 删除计数溢出"]).map fun deleted => (deleted, txn.without scope) := by
  have hbound : (listing m (some scope) none).length < txn.base.size + txn.upserts.size + 1 := by
    have hsub : listing m (some scope) none ⊆
        listing (row_map txn.base) (some scope) none ++ listing txn.upserts (some scope) none := by
      intro file hfile
      rcases h.mem_listing_iff.mp hfile with hup | ⟨hbase, -⟩
      · exact mem_append_right _ hup
      · exact mem_append_left _ hbase
    have hnodup : (listing m (some scope) none).Nodup :=
      (listing_sorted h.map_keyed (some scope) none).imp fun hlt heq => (heq ▸ hlt).ne rfl
    have hlength := (hnodup.subperm hsub).length_le
    have hbase := length_listing_le (row_map txn.base) (some scope) none
    have hup := length_listing_le txn.upserts (some scope) none
    rw [length_append] at hlength
    rw [size_row_map] at hbase
    omega
  have hcount := h.count_files_eq scope (.largest none) 0 rfl hbound
  have hlength := length_listing_scope h.map_keyed scope
  have hnone : (largest none).after = none := rfl
  rw [hnone, hlength, UInt64.toNat_zero, Nat.zero_add] at hcount
  unfold delete_prefix
  rw [hcount]
  cases u64_try_from (m.filter fun path _ => path_is_in_scope path scope).size <;> rfl

theorem validate_file_record_of_stored {manifests : ManifestTable} {file : FileRecord}
    (h : validate_stored_file_record manifests file = .ok ()) :
    validate_file_record file = .ok () := by
  simp only [validate_stored_file_record, ok_iff] at h
  exact h.1

/-- One call: the transaction answers as the map does, and shows the changed map. -/
theorem Shows.call (h : txn.Shows m) (c : IndexCall) :
    (txn.call c).1 = (map_call m c).1 ∧ (txn.call c).2.Shows (map_call m c).2 := by
  cases c with
  | upsert_file manifests file =>
    simp only [SqliteIndexTxn.call, map_call, upsert_file_eq]
    cases hstored : validate_stored_file_record manifests file with
    | error e => exact ⟨rfl, h⟩
    | ok u => exact ⟨rfl, h.upsert (validate_file_record_of_stored hstored)⟩
  | delete_prefix scope =>
    simp only [SqliteIndexTxn.call, map_call, h.delete_prefix_eq]
    cases u64_try_from (m.filter fun path _ => path_is_in_scope path scope).size with
    | none => exact ⟨rfl, h⟩
    | some deleted => exact ⟨rfl, h.delete scope⟩

def SameBase (txn txn' : SqliteIndexTxn) : Prop :=
  txn'.workspace_id = txn.workspace_id ∧ txn'.base = txn.base ∧ txn'.state = txn.state

theorem sameBase_call (txn : SqliteIndexTxn) (c : IndexCall) : txn.SameBase (txn.call c).2 := by
  cases c with
  | upsert_file manifests file =>
    simp only [call, upsert_file_eq]
    cases validate_stored_file_record manifests file <;> exact ⟨rfl, rfl, rfl⟩
  | delete_prefix scope =>
    simp only [call, delete_prefix]
    cases txn.count_files scope _ _ _ <;> exact ⟨rfl, rfl, rfl⟩

theorem Shows.run_calls (h : txn.Shows m) (calls : List IndexCall) :
    (Local.run_calls SqliteIndexTxn.call txn calls).1 = (Local.run_calls map_call m calls).1 ∧
      (Local.run_calls SqliteIndexTxn.call txn calls).2.Shows (Local.run_calls map_call m calls).2 ∧
      txn.SameBase (Local.run_calls SqliteIndexTxn.call txn calls).2 := by
  induction calls generalizing txn m with
  | nil => exact ⟨rfl, h, rfl, rfl, rfl⟩
  | cons c calls ih =>
    obtain ⟨hanswer, hshows⟩ := h.call c
    obtain ⟨hanswers, hend, hsame⟩ := ih hshows
    obtain ⟨hid, hbase, hstate⟩ := sameBase_call txn c
    refine ⟨?_, hend, hsame.1.trans hid, hsame.2.1.trans hbase, hsame.2.2.trans hstate⟩
    simp only [Local.run_calls, hanswer, hanswers]

end SqliteIndexTxn
end NeoEngram.Local

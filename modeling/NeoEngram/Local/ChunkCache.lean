import Mathlib.Data.Finset.Basic
import NeoEngram.Local.Metadata

/-! # The verified chunk cache

A mount keeps the chunks it has read in `VerifiedChunkCache`. A call of
`get_or_load` holds the lock in two sections: it looks the chunk up, and stores
what it had to load. Between them other calls take their sections. The queue
has the cached IDs from the least to the most recently used one.
-/

namespace NeoEngram.Local

open Checks Framing List Function

/-! ## The cache -/

structure CacheState where
  entries : ObjectId → Option Bytes
  lru : List ObjectId
  bytes : Nat
  loading : Finset ObjectId

namespace CacheState

def empty : CacheState := ⟨fun _ => none, [], 0, ∅⟩

def touch_lru (lru : List ObjectId) (id : ObjectId) : List ObjectId := lru.erase id ++ [id]

/-- What the first section finds. -/
inductive Lookup where
  | found (bytes : Bytes)
  | conflict
  | loads
  | waits

/-- The first section of `get_or_load`. -/
def look_up (self : CacheState) (spec : ObjectSpec) : Lookup × CacheState :=
  match self.entries spec.id with
  | some bytes =>
    if bytes.length = spec.size.toNat then
      (.found bytes, { self with lru := touch_lru self.lru spec.id })
    else (.conflict, self)
  | none =>
    if spec.id ∈ self.loading then (.waits, self)
    else (.loads, { self with loading := insert spec.id self.loading })

/-- The loop that evicts from the front of the queue until there is room. The sum saturates. -/
def make_room (capacity size : Nat) :
    List ObjectId → (ObjectId → Option Bytes) → Nat →
      List ObjectId × (ObjectId → Option Bytes) × Nat
  | [], entries, bytes => ([], entries, bytes)
  | evicted :: lru, entries, bytes =>
    if capacity < min (bytes + size) (2 ^ 64 - 1) then
      match entries evicted with
      | some value =>
        make_room capacity size lru (update entries evicted none) (bytes - value.length)
      | none => make_room capacity size lru entries bytes
    else (evicted :: lru, entries, bytes)

def conflicting_size (spec : ObjectSpec) : ErrorChain :=
  [s!"同一 Chunk ID 在 Manifest 中具有冲突大小: {spec.id}"]

/-- The second section of `get_or_load`. -/
def store (capacity : UInt64) (self : CacheState) (spec : ObjectSpec)
    (loaded : Result Bytes) : Result Bytes × CacheState :=
  let self := { self with loading := self.loading.erase spec.id }
  match loaded with
  | .error error => (.error error, self)
  | .ok bytes =>
    if spec.size ≤ capacity then
      let (lru, entries, total) :=
        make_room capacity.toNat spec.size.toNat self.lru self.entries self.bytes
      if total + spec.size.toNat < 2 ^ 64 then
        (.ok bytes, ⟨update entries spec.id (some bytes), lru ++ [spec.id],
          total + spec.size.toNat, self.loading⟩)
      else (.error ["Chunk 缓存字节计数溢出"], ⟨entries, lru, total, self.loading⟩)
    else (.ok bytes, self)

end CacheState

/-- `copy_and_hash_exact` on all that the source holds. -/
def copy_and_hash_exact (blake3 : Blake3) (source : Bytes) (expected : ObjectSpec) :
    Result Bytes := do
  ensure (source.length ≤ expected.size.toNat)
    [s!"对象 {expected.id} 包含超出声明大小的内容（期望 {expected.size}）"]
  ensure (source.length = expected.size.toNat)
    [s!"对象 {expected.id} 提前结束（期望 {expected.size}，实际 {source.length}）"]
  ensure ((⟨blake3 source⟩ : ObjectId) = expected.id)
    [s!"对象 Hash 损坏: {expected.id}（实际 {blake3 source}）"]
  return source

/-- The load between the sections, from what the object file gives. -/
def load (blake3 : Blake3) (spec : ObjectSpec) (object : Result Bytes) : Result Bytes := do
  let bytes ← with_context s!"无法读取挂载 Chunk {spec.id}" do
    copy_and_hash_exact blake3 (← object) spec
  ensure (bytes.length = spec.size.toNat) [s!"挂载 Chunk 读取长度不一致: {spec.id}"]
  return bytes

/-- The verified content of an object. -/
def Verified (blake3 : Blake3) (spec : ObjectSpec) (bytes : Bytes) : Prop :=
  bytes.length = spec.size.toNat ∧ (⟨blake3 bytes⟩ : ObjectId) = spec.id

theorem load_eq_ok {blake3 : Blake3} {spec : ObjectSpec} {object : Result Bytes} {bytes : Bytes} :
    load blake3 spec object = .ok bytes ↔ object = .ok bytes ∧ Verified blake3 spec bytes := by
  simp only [load, copy_and_hash_exact, with_context_eq_ok, ok_iff, Verified]
  constructor
  · rintro ⟨_, ⟨_, hobject, -, hsize, hhash, rfl⟩, -, rfl⟩
    exact ⟨hobject, hsize, hhash⟩
  · rintro ⟨hobject, hsize, hhash⟩
    exact ⟨bytes, ⟨bytes, hobject, hsize.le, hsize, hhash, rfl⟩, hsize, rfl⟩

/-! ## What the sections keep -/

def size_of (entries : ObjectId → Option Bytes) (id : ObjectId) : Nat :=
  ((entries id).map List.length).getD 0

/-- The queue has each cached ID once, the bytes are counted, and the entries are verified. What is
being loaded is not cached. -/
structure CacheState.Valid (blake3 : Blake3) (capacity : UInt64) (c : CacheState) : Prop where
  nodup : c.lru.Nodup
  mem_lru : ∀ id, id ∈ c.lru ↔ ∃ bytes, c.entries id = some bytes
  bytes_eq : c.bytes = (c.lru.map (size_of c.entries)).sum
  bytes_le : c.bytes ≤ capacity.toNat
  verified : ∀ id bytes, c.entries id = some bytes → (⟨blake3 bytes⟩ : ObjectId) = id
  uncached : ∀ id ∈ c.loading, c.entries id = none

/-- The loop takes entries from the front of the queue, and stops with room or with nothing. -/
theorem make_room_spec {capacity size : Nat} {sizes : ObjectId → Nat} {lru : List ObjectId}
    {entries : ObjectId → Option Bytes} {bytes : Nat} (hnodup : lru.Nodup)
    (hcached : ∀ id ∈ lru, ∃ value, entries id = some value ∧ value.length = sizes id)
    (hbytes : bytes = (lru.map sizes).sum) :
    ∃ gone kept, lru = gone ++ kept ∧ CacheState.make_room capacity size lru entries bytes =
        (kept, (fun id => if id ∈ gone then none else entries id), (kept.map sizes).sum) ∧
      (kept = [] ∨ min ((kept.map sizes).sum + size) (2 ^ 64 - 1) ≤ capacity) := by
  induction lru generalizing entries bytes with
  | nil => exact ⟨[], [], rfl, by simp [CacheState.make_room, hbytes], .inl rfl⟩
  | cons first lru ih =>
    by_cases hfull : capacity < min (bytes + size) (2 ^ 64 - 1)
    · obtain ⟨value, hvalue, hsize⟩ := hcached first mem_cons_self
      obtain ⟨hfirst, hrest⟩ := nodup_cons.mp hnodup
      have hcached' : ∀ id ∈ lru, ∃ value, update entries first none id = some value ∧
          value.length = sizes id := by
        intro id hid
        have hne : id ≠ first := fun heq => hfirst (heq ▸ hid)
        rw [update_of_ne hne]
        exact hcached id (mem_cons_of_mem _ hid)
      have hbytes' : bytes - value.length = (lru.map sizes).sum := by
        rw [hbytes, hsize, map_cons, sum_cons, Nat.add_sub_cancel_left]
      obtain ⟨gone, kept, rfl, hroom, hend⟩ := ih hrest hcached' hbytes'
      refine ⟨first :: gone, kept, rfl, ?_, hend⟩
      rw [CacheState.make_room, if_pos hfull, hvalue]
      dsimp only
      rw [hroom]
      congr 2
      funext id
      by_cases hid : id = first
      · rw [hid, update_self, if_pos mem_cons_self, ite_self]
      · simp only [mem_cons, hid, false_or, update_of_ne hid]
    · refine ⟨[], first :: lru, rfl, ?_, .inr ?_⟩
      · rw [CacheState.make_room, if_neg hfull, hbytes]
        rfl
      · rw [← hbytes]
        exact not_lt.mp hfull

theorem CacheState.look_up_cases (c : CacheState) (spec : ObjectSpec) :
    (∃ bytes, c.entries spec.id = some bytes ∧ bytes.length = spec.size.toNat ∧
        c.look_up spec = (.found bytes, { c with lru := touch_lru c.lru spec.id })) ∨
      c.look_up spec = (.conflict, c) ∨
      (c.entries spec.id = none ∧ spec.id ∉ c.loading ∧
        c.look_up spec = (.loads, { c with loading := insert spec.id c.loading })) ∨
      c.look_up spec = (.waits, c) := by
  unfold CacheState.look_up
  cases hentry : c.entries spec.id with
  | some bytes =>
    by_cases hsize : bytes.length = spec.size.toNat
    · exact .inl ⟨bytes, rfl, hsize, if_pos hsize⟩
    · exact .inr (.inl (if_neg hsize))
  | none =>
    by_cases hloading : spec.id ∈ c.loading
    · exact .inr (.inr (.inr (if_pos hloading)))
    · exact .inr (.inr (.inl ⟨rfl, hloading, if_neg hloading⟩))

variable {id : ObjectId}

namespace CacheState.Valid

variable {blake3 : Blake3} {capacity : UInt64} {c c' : CacheState} {spec : ObjectSpec}

theorem empty : CacheState.empty.Valid blake3 capacity :=
  ⟨nodup_nil, by simp [CacheState.empty], rfl, Nat.zero_le _, nofun, fun _ _ => rfl⟩

variable (h : c.Valid blake3 capacity)

include h

theorem entry_of_mem (hid : id ∈ c.lru) :
    ∃ value, c.entries id = some value ∧ value.length = size_of c.entries id := by
  obtain ⟨value, hvalue⟩ := (h.mem_lru id).mp hid
  exact ⟨value, hvalue, by rw [size_of, hvalue]; rfl⟩

theorem not_mem_lru (hnone : c.entries id = none) : id ∉ c.lru := by
  intro hid
  obtain ⟨value, hvalue⟩ := (h.mem_lru id).mp hid
  rw [hnone] at hvalue
  cases hvalue

theorem look_up : (c.look_up spec).2.Valid blake3 capacity := by
  rcases look_up_cases c spec with ⟨bytes, hentry, -, hlook⟩ | hlook | ⟨hentry, -,
    hlook⟩ | hlook <;>
    rw [hlook]
  · -- the ID is moved to the end of the queue
    have hperm : (touch_lru c.lru spec.id).Perm c.lru :=
      (perm_append_singleton _ _).trans
        (perm_cons_erase ((h.mem_lru spec.id).mpr ⟨bytes, hentry⟩)).symm
    refine ⟨hperm.nodup_iff.mpr h.nodup, fun id => hperm.mem_iff.trans (h.mem_lru id), ?_,
      h.bytes_le, h.verified, h.uncached⟩
    exact h.bytes_eq.trans (hperm.map _).sum_eq.symm
  · exact h
  · refine ⟨h.nodup, h.mem_lru, h.bytes_eq, h.bytes_le, h.verified, ?_⟩
    intro id hid
    rcases Finset.mem_insert.mp hid with rfl | hid
    · exact hentry
    · exact h.uncached id hid
  · exact h

theorem erase_loading (id : ObjectId) :
    CacheState.Valid blake3 capacity { c with loading := c.loading.erase id } :=
  ⟨h.nodup, h.mem_lru, h.bytes_eq, h.bytes_le, h.verified,
    fun other hother => h.uncached other (Finset.mem_of_mem_erase hother)⟩

theorem evict {gone kept : List ObjectId} (hlru : c.lru = gone ++ kept) :
    CacheState.Valid blake3 capacity ⟨fun id => if id ∈ gone then none else c.entries id, kept,
      (kept.map (size_of c.entries)).sum, c.loading⟩ := by
  obtain ⟨_, hkept, hdisjoint⟩ := nodup_append.mp (hlru ▸ h.nodup)
  have hentries : ∀ id ∈ kept, id ∉ gone := fun id hid hgone => hdisjoint id hgone id hid rfl
  refine ⟨hkept, ?_, ?_, ?_, ?_, ?_⟩
  · intro id
    have hmem := h.mem_lru id
    rw [hlru, mem_append] at hmem
    by_cases hgone : id ∈ gone
    · simp only [hgone, if_true, reduceCtorEq, exists_false, iff_false]
      exact fun hid => hentries id hid hgone
    · simpa only [hgone, if_false, false_or] using hmem
  · refine congrArg List.sum (map_congr_left fun id hid => ?_)
    simp only [size_of, if_neg (hentries id hid)]
  · refine le_trans ?_ h.bytes_le
    rw [h.bytes_eq, hlru, map_append, sum_append]
    exact Nat.le_add_left _ _
  · intro id bytes hbytes
    dsimp only at hbytes
    split at hbytes
    · cases hbytes
    · exact h.verified id bytes hbytes
  · intro id hid
    dsimp only
    rw [h.uncached id hid, ite_self]

theorem insert (hnone : c.entries spec.id = none) (hload : spec.id ∉ c.loading) {bytes : Bytes}
    (hbytes : Verified blake3 spec bytes) (hroom : c.bytes + spec.size.toNat ≤ capacity.toNat) :
    CacheState.Valid blake3 capacity ⟨update c.entries spec.id (some bytes),
      c.lru ++ [spec.id], c.bytes + spec.size.toNat, c.loading⟩ := by
  have hold : ∀ id ∈ c.lru, id ≠ spec.id := fun id hid heq => h.not_mem_lru hnone (heq ▸ hid)
  refine ⟨?_, ?_, ?_, hroom, ?_, ?_⟩
  · exact nodup_append.mpr ⟨h.nodup, nodup_singleton _,
      fun id hid other hother => mem_singleton.mp hother ▸ hold id hid⟩
  · intro id
    by_cases hid : id = spec.id
    · rw [hid]
      simp
    · simp [hid, h.mem_lru id]
  · have hsizes : c.lru.map (size_of (update c.entries spec.id (some bytes))) =
        c.lru.map (size_of c.entries) := by
      refine map_congr_left fun id hid => ?_
      rw [size_of, size_of, update_of_ne (hold id hid)]
    rw [map_append, sum_append, hsizes, ← h.bytes_eq]
    simp [size_of, hbytes.1]
  · intro id value hvalue
    dsimp only at hvalue
    by_cases hid : id = spec.id
    · rw [hid, update_self] at hvalue
      cases hvalue
      exact hbytes.2.trans hid.symm
    · rw [update_of_ne hid] at hvalue
      exact h.verified id value hvalue
  · intro id hid
    have hne : id ≠ spec.id := fun heq => hload (heq ▸ hid)
    exact (update_of_ne hne _ _).trans (h.uncached id hid)

/-- The second section evicts from the front of the queue, and may put the object at its end. -/
theorem store (hload : spec.id ∈ c.loading) {loaded result : Result Bytes}
    (hloaded : ∀ bytes, loaded = .ok bytes → Verified blake3 spec bytes)
    (hstore : c.store capacity spec loaded = (result, c')) :
    c'.Valid blake3 capacity ∧ c'.loading = c.loading.erase spec.id ∧
      (∀ bytes, result = .ok bytes → loaded = .ok bytes) ∧
      ∃ gone kept, c.lru = gone ++ kept ∧ (c'.lru = kept ∨ c'.lru = kept ++ [spec.id]) := by
  have herased := h.erase_loading spec.id
  unfold CacheState.store at hstore
  cases loaded with
  | error error =>
    cases hstore
    exact ⟨herased, rfl, nofun, [], c.lru, rfl, .inl rfl⟩
  | ok bytes =>
    dsimp only at hstore
    by_cases hsize : spec.size ≤ capacity
    · obtain ⟨gone, kept, hlru, hroom, hend⟩ :=
        make_room_spec h.nodup (fun id hid => h.entry_of_mem hid) h.bytes_eq
      rw [if_pos hsize, hroom] at hstore
      have hevicted := herased.evict hlru
      dsimp only at hstore
      by_cases hfits : (kept.map (size_of c.entries)).sum + spec.size.toNat < 2 ^ 64
      · rw [if_pos hfits] at hstore
        cases hstore
        have hnone : c.entries spec.id = none := h.uncached _ hload
        refine ⟨hevicted.insert ?_ (Finset.notMem_erase _ _) (hloaded bytes rfl) ?_, rfl,
          fun _ hresult => hresult, gone, kept, hlru, .inr rfl⟩
        · dsimp only
          rw [hnone, ite_self]
        · -- the saturating sum is the sum here
          rcases hend with rfl | hend
          · simpa using UInt64.le_iff_toNat_le.mp hsize
          · exact (min_eq_left (Nat.le_sub_one_of_lt hfits)).symm.trans_le hend
      · rw [if_neg hfits] at hstore
        cases hstore
        exact ⟨hevicted, rfl, nofun, gone, kept, hlru, .inl rfl⟩
    · rw [if_neg hsize] at hstore
      cases hstore
      exact ⟨herased, rfl, fun _ hresult => hresult, [], c.lru, rfl, .inl rfl⟩

end CacheState.Valid

/-! ## Concurrent calls -/

variable {τ : Type} [DecidableEq τ]

/-- Where a thread is in `get_or_load`. -/
inductive Phase where
  | idle
  | calling (spec : ObjectSpec)
  | loading (spec : ObjectSpec)
  | done (spec : ObjectSpec) (result : Result Bytes)

/-- The cache and the threads that call it, with the IDs in the order of their uses. -/
structure CacheSystem (τ : Type) where
  cache : CacheState
  phase : τ → Phase
  uses : List ObjectId

/-- A thread begins a call, takes the first section, or takes the second one with what
the object file gave. -/
inductive CacheEvent (τ : Type) where
  | call (thread : τ) (spec : ObjectSpec)
  | look_up (thread : τ)
  | store (thread : τ) (object : Result Bytes)

namespace CacheSystem

def start : CacheSystem τ := ⟨.empty, fun _ => .idle, []⟩

def step (blake3 : Blake3) (capacity : UInt64) (s : CacheSystem τ) : CacheEvent τ → CacheSystem τ
  | .call thread spec =>
    match s.phase thread with
    | .idle | .done _ _ => { s with phase := update s.phase thread (.calling spec) }
    | _ => s
  | .look_up thread =>
    match s.phase thread with
    | .calling spec =>
      match s.cache.look_up spec with
      | (.found bytes, cache) =>
        ⟨cache, update s.phase thread (.done spec (.ok bytes)), s.uses ++ [spec.id]⟩
      | (.conflict, cache) =>
        ⟨cache, update s.phase thread
          (.done spec (.error (CacheState.conflicting_size spec))), s.uses⟩
      | (.loads, cache) => ⟨cache, update s.phase thread (.loading spec), s.uses⟩
      | (.waits, cache) => ⟨cache, s.phase, s.uses⟩
    | _ => s
  | .store thread object =>
    match s.phase thread with
    | .loading spec =>
      let (result, cache) := s.cache.store capacity spec (load blake3 spec object)
      ⟨cache, update s.phase thread (.done spec result),
        if spec.id ∈ cache.lru then s.uses ++ [spec.id] else s.uses⟩
    | _ => s

def run (blake3 : Blake3) (capacity : UInt64) (events : List (CacheEvent τ)) : CacheSystem τ :=
  events.foldl (step blake3 capacity) start

end CacheSystem

/-- The last use of one ID is before a use of the other. -/
def UsedBefore (uses : List ObjectId) (a b : ObjectId) : Prop :=
  ∃ early late, uses = early ++ late ∧ a ∉ late ∧ b ∈ late

theorem pairwise_touch {uses lru : List ObjectId} (hid : id ∉ lru)
    (h : lru.Pairwise (UsedBefore uses)) : (lru ++ [id]).Pairwise (UsedBefore (uses ++ [id])) := by
  have hne : ∀ a ∈ lru, a ≠ id := fun a ha heq => hid (heq ▸ ha)
  refine pairwise_append.mpr ⟨h.imp_of_mem ?_, pairwise_singleton _ _, ?_⟩
  · intro a b ha _ ⟨early, late, huses, hlate, hb⟩
    refine ⟨early, late ++ [id], by rw [huses, append_assoc], ?_, mem_append_left _ hb⟩
    rw [mem_append, mem_singleton, not_or]
    exact ⟨hlate, hne a ha⟩
  · intro a ha b hb
    rw [mem_singleton.mp hb]
    exact ⟨uses, [id], rfl, fun hmem => hne a ha (mem_singleton.mp hmem), mem_singleton_self _⟩

/-- Between the events the cache is valid, its queue is in the order of the last uses, and each ID
that is being loaded has one loader. -/
structure CacheInvariant (blake3 : Blake3) (capacity : UInt64) (s : CacheSystem τ) : Prop where
  valid : s.cache.Valid blake3 capacity
  ordered : s.cache.lru.Pairwise (UsedBefore s.uses)
  loads : ∀ thread spec, s.phase thread = .loading spec → spec.id ∈ s.cache.loading
  one_loader : ∀ thread other spec spec', s.phase thread = .loading spec →
    s.phase other = .loading spec' → spec.id = spec'.id → thread = other
  returned : ∀ thread spec bytes, s.phase thread = .done spec (.ok bytes) →
    Verified blake3 spec bytes

/-- Each ID that is being loaded has a loader. -/
def HasLoaders (s : CacheSystem τ) : Prop :=
  ∀ id ∈ s.cache.loading, ∃ thread spec, s.phase thread = .loading spec ∧ spec.id = id

theorem HasLoaders.update {s : CacheSystem τ} (h : HasLoaders s) {cache : CacheState} {thread : τ}
    {phase : Phase} {uses : List ObjectId} (hcache : ∀ id ∈ cache.loading, (id ∈ s.cache.loading ∧
      ∀ spec, s.phase thread = .loading spec → spec.id ≠ id) ∨ ∃ spec, phase = .loading spec ∧
        spec.id = id) : HasLoaders ⟨cache, update s.phase thread phase, uses⟩ := by
  intro id hid
  rcases hcache id hid with ⟨hold, hother⟩ | ⟨spec, rfl, hspec⟩
  · obtain ⟨loader, spec, hloader, hspec⟩ := h id hold
    have hne : loader ≠ thread := fun heq => hother spec (heq ▸ hloader) hspec
    exact ⟨loader, spec, (update_of_ne hne ..).trans hloader, hspec⟩
  · exact ⟨thread, spec, update_self .., hspec⟩

namespace CacheInvariant

variable {blake3 : Blake3} {capacity : UInt64} {s : CacheSystem τ}

section Step

variable (h : CacheInvariant blake3 capacity s)

include h

theorem set_phase {cache : CacheState} {uses : List ObjectId} {thread : τ} {phase : Phase}
    (hvalid : cache.Valid blake3 capacity) (hordered : cache.lru.Pairwise (UsedBefore uses))
    (hloads : ∀ other spec, other ≠ thread → s.phase other = .loading spec →
      spec.id ∈ cache.loading)
    (hloading : ∀ spec, phase = .loading spec → spec.id ∈ cache.loading ∧ spec.id ∉ s.cache.loading)
    (hdone : ∀ spec bytes, phase = .done spec (.ok bytes) → Verified blake3 spec bytes) :
    CacheInvariant blake3 capacity ⟨cache, update s.phase thread phase, uses⟩ := by
  have hself : update s.phase thread phase thread = phase := update_self ..
  have hphase : ∀ other, other ≠ thread →
      update s.phase thread phase other = s.phase other :=
    fun other hne => update_of_ne hne _ _
  refine ⟨hvalid, hordered, ?_, ?_, ?_⟩
  · intro other spec hother
    by_cases hne : other = thread
    · subst hne
      exact (hloading spec (hself.symm.trans hother)).1
    · exact hloads other spec hne ((hphase other hne).symm.trans hother)
  · intro a b spec spec' ha hb hid
    by_cases hat : a = thread <;> by_cases hbt : b = thread
    · exact hat.trans hbt.symm
    · subst hat
      have hb := h.loads b spec' ((hphase b hbt).symm.trans hb)
      exact absurd (hid ▸ hb) (hloading spec (hself.symm.trans ha)).2
    · subst hbt
      have ha := h.loads a spec ((hphase a hat).symm.trans ha)
      exact absurd (hid ▸ ha) (hloading spec' (hself.symm.trans hb)).2
    · exact h.one_loader a b spec spec' ((hphase a hat).symm.trans ha)
        ((hphase b hbt).symm.trans hb) hid
  · intro other spec bytes hother
    by_cases hne : other = thread
    · subst hne
      exact hdone spec bytes (hself.symm.trans hother)
    · exact h.returned other spec bytes ((hphase other hne).symm.trans hother)

theorem call (thread : τ) (spec : ObjectSpec) :
    CacheInvariant blake3 capacity (s.step blake3 capacity (.call thread spec)) := by
  have hnew : CacheInvariant blake3 capacity
      { s with phase := update s.phase thread (.calling spec) } :=
    h.set_phase h.valid h.ordered (fun other spec _ => h.loads other spec) nofun nofun
  unfold CacheSystem.step
  dsimp only
  split
  · exact hnew
  · exact hnew
  · exact h

theorem look_up (thread : τ) :
    CacheInvariant blake3 capacity (s.step blake3 capacity (.look_up thread)) := by
  cases hphase : s.phase thread with
  | calling spec =>
    have hvalid : (s.cache.look_up spec).2.Valid blake3 capacity := h.valid.look_up
    rcases s.cache.look_up_cases spec with ⟨bytes, hentry, hsize, hlook⟩ | hlook |
      ⟨-, hnew, hlook⟩ | hlook <;> rw [hlook] at hvalid <;>
      simp only [CacheSystem.step, hphase, hlook]
    · refine h.set_phase hvalid (pairwise_touch (fun hid => h.valid.nodup.not_mem_erase hid)
        (h.ordered.sublist erase_sublist)) (fun other spec _ => h.loads other spec) nofun ?_
      rintro spec bytes ⟨⟩
      exact ⟨hsize, h.valid.verified _ _ hentry⟩
    · exact h.set_phase hvalid h.ordered (fun other spec _ => h.loads other spec) nofun nofun
    · refine h.set_phase hvalid h.ordered ?_ ?_ nofun
      · intro other spec' _ hother
        exact Finset.mem_insert_of_mem (h.loads other spec' hother)
      · rintro spec ⟨⟩
        exact ⟨Finset.mem_insert_self _ _, hnew⟩
    · exact h
  | _ => simpa only [CacheSystem.step, hphase] using h

theorem store (thread : τ) (object : Result Bytes) :
    CacheInvariant blake3 capacity (s.step blake3 capacity (.store thread object)) := by
  cases hphase : s.phase thread with
  | loading spec =>
    have hload := h.loads thread spec hphase
    rcases hstore : s.cache.store capacity spec (load blake3 spec object) with ⟨result, cache⟩
    obtain ⟨hvalid, hloading, hresult, gone, kept, hlru, hqueue⟩ :=
      h.valid.store hload (fun _ hok => (load_eq_ok.mp hok).2) hstore
    simp only [CacheSystem.step, hphase, hstore]
    refine h.set_phase hvalid ?_ ?_ nofun ?_
    · have hkept : kept.Pairwise (UsedBefore s.uses) :=
        h.ordered.sublist (hlru ▸ sublist_append_right gone kept)
      have hid : spec.id ∉ kept := fun hid =>
        h.valid.not_mem_lru (h.valid.uncached _ hload) (hlru ▸ mem_append_right _ hid)
      rcases hqueue with hqueue | hqueue
      · rw [hqueue, if_neg hid]
        exact hkept
      · rw [hqueue, if_pos (mem_append_right _ (mem_singleton_self _))]
        exact pairwise_touch hid hkept
    · -- the other threads load other objects
      intro other spec' hother hphase'
      rw [hloading]
      refine Finset.mem_erase.mpr ⟨fun heq => hother ?_, h.loads other spec' hphase'⟩
      exact h.one_loader other thread spec' spec hphase' hphase heq
    · rintro spec' bytes hdone
      obtain ⟨rfl, hok⟩ := Phase.done.inj hdone
      exact (load_eq_ok.mp (hresult bytes hok)).2
  | _ => simpa only [CacheSystem.step, hphase] using h

/-- What an event evicts was last used before what it keeps. -/
theorem evicts_first {event : CacheEvent τ} {a b : ObjectId} (ha : a ∈ s.cache.lru)
    (hgone : a ∉ (s.step blake3 capacity event).cache.lru) (hb : b ∈ s.cache.lru)
    (hkept : b ∈ (s.step blake3 capacity event).cache.lru) : UsedBefore s.uses a b := by
  cases event with
  | call thread spec =>
    refine absurd ha ?_
    unfold CacheSystem.step at hgone
    dsimp only at hgone
    split at hgone <;> exact hgone
  | look_up thread =>
    refine absurd ha ?_
    cases hphase : s.phase thread with
    | calling spec =>
      rcases s.cache.look_up_cases spec with ⟨bytes, -, -, hlook⟩ | hlook | ⟨-, -, hlook⟩ |
        hlook <;> simp only [CacheSystem.step, hphase, hlook] at hgone
      · intro ha
        by_cases hid : a = spec.id
        · exact hgone (hid ▸ mem_append_right _ (mem_singleton_self _))
        · exact hgone (mem_append_left _ ((mem_erase_of_ne hid).mpr ha))
      all_goals exact hgone
    | _ => simpa only [CacheSystem.step, hphase] using hgone
  | store thread object =>
    cases hphase : s.phase thread with
    | loading spec =>
      rcases hstore : s.cache.store capacity spec (load blake3 spec object) with ⟨result, cache⟩
      have hload := h.loads thread spec hphase
      obtain ⟨-, -, -, gone, kept, hlru, hqueue⟩ :=
        h.valid.store hload (fun _ hok => (load_eq_ok.mp hok).2) hstore
      simp only [CacheSystem.step, hphase, hstore] at hgone hkept
      have hne : b ≠ spec.id := fun heq => h.valid.not_mem_lru (h.valid.uncached _ hload) (heq ▸ hb)
      have hb : b ∈ kept := by
        rcases hqueue with hqueue | hqueue
        · exact hqueue ▸ hkept
        · rw [hqueue, mem_append, mem_singleton] at hkept
          exact hkept.resolve_right hne
      have ha : a ∈ gone := by
        rw [hlru, mem_append] at ha
        refine ha.resolve_right fun hkept => hgone ?_
        rcases hqueue with hqueue | hqueue
        · exact hqueue ▸ hkept
        · exact hqueue ▸ mem_append_left _ hkept
      have hordered := h.ordered
      rw [hlru, pairwise_append] at hordered
      exact hordered.2.2 a ha b hb
    | _ => exact absurd ha (by simpa only [CacheSystem.step, hphase] using hgone)

omit [DecidableEq τ] in
theorem loading_store {thread : τ} {spec : ObjectSpec} (hphase : s.phase thread = .loading spec)
    (object : Result Bytes) :
    (s.cache.store capacity spec (load blake3 spec object)).2.loading =
      s.cache.loading.erase spec.id :=
  (h.valid.store (h.loads thread spec hphase) (fun _ hok => (load_eq_ok.mp hok).2) rfl).2.1

/-- A thread that stores takes its ID out of the set; the other IDs keep their loaders. -/
theorem hasLoaders_step (hloaders : HasLoaders s) (event : CacheEvent τ) :
    HasLoaders (s.step blake3 capacity event) := by
  cases event with
  | call thread spec =>
    cases hphase : s.phase thread <;> simp only [CacheSystem.step, hphase] <;>
      first | exact hloaders | exact hloaders.update (by grind)
  | look_up thread =>
    cases hphase : s.phase thread with
    | calling spec =>
      rcases s.cache.look_up_cases spec with ⟨bytes, -, -, hlook⟩ | hlook | ⟨-, -,
        hlook⟩ | hlook <;>
        simp only [CacheSystem.step, hphase, hlook]
      case inr.inr.inr => exact hloaders
      all_goals exact hloaders.update (by grind)
    | _ => simpa only [CacheSystem.step, hphase] using hloaders
  | store thread object =>
    cases hphase : s.phase thread with
    | loading spec =>
      simp only [CacheSystem.step, hphase]
      exact hloaders.update (by grind [h.loading_store hphase object])
    | _ => simpa only [CacheSystem.step, hphase] using hloaders

end Step

omit [DecidableEq τ] in
theorem start : CacheInvariant blake3 capacity (CacheSystem.start : CacheSystem τ) :=
  ⟨.empty, List.Pairwise.nil, nofun, nofun, nofun⟩

theorem step (h : CacheInvariant blake3 capacity s) (event : CacheEvent τ) :
    CacheInvariant blake3 capacity (s.step blake3 capacity event) := by
  cases event with
  | call thread spec => exact h.call thread spec
  | look_up thread => exact h.look_up thread
  | store thread object => exact h.store thread object

theorem run (events : List (CacheEvent τ)) :
    CacheInvariant blake3 capacity (CacheSystem.run blake3 capacity events) :=
  foldl_keeps (fun _ event h => h.step event) .start

end CacheInvariant

/-- **The chunk cache**: after any events, the bytes counted are those cached and within the
capacity, the queue has each cached ID once, each ID has at most one loader, and a returned
buffer is the verified content with the requested size. What an event evicts was last used
before all that it keeps. -/
theorem chunk_cache_safe (blake3 : Blake3) (capacity : UInt64) (events : List (CacheEvent τ)) :
    let s := CacheSystem.run blake3 capacity events
    s.cache.bytes = (s.cache.lru.map (size_of s.cache.entries)).sum ∧
      s.cache.bytes ≤ capacity.toNat ∧ s.cache.lru.Nodup ∧
      (∀ id, id ∈ s.cache.lru ↔ ∃ bytes, s.cache.entries id = some bytes) ∧
      (∀ thread other spec spec', s.phase thread = .loading spec →
        s.phase other = .loading spec' → spec.id = spec'.id → thread = other) ∧
      (∀ thread spec bytes, s.phase thread = .done spec (.ok bytes) → Verified blake3 spec bytes) ∧
      ∀ event a b, a ∈ s.cache.lru → a ∉ (s.step blake3 capacity event).cache.lru →
        b ∈ s.cache.lru → b ∈ (s.step blake3 capacity event).cache.lru → UsedBefore s.uses a b := by
  intro s
  have h : CacheInvariant blake3 capacity s := .run events
  exact ⟨h.valid.bytes_eq, h.valid.bytes_le, h.valid.nodup, h.valid.mem_lru, h.one_loader,
    h.returned,
    fun event a b ha hgone hb hkept => h.evicts_first ha hgone hb hkept⟩

/-- **No call waits forever for a load**: an ID is being loaded exactly if one thread loads it, and
when that thread is through, whatever the object file gave, the next call does not wait. -/
theorem chunk_cache_waits_for_loader (blake3 : Blake3) (capacity : UInt64)
    (events : List (CacheEvent τ)) :
    let s := CacheSystem.run blake3 capacity events
    (∀ id, id ∈ s.cache.loading ↔ ∃! thread, ∃ spec, s.phase thread = .loading spec ∧
      spec.id = id) ∧
      ∀ thread spec object, s.phase thread = .loading spec → ∀ spec' : ObjectSpec,
        spec'.id = spec.id →
          ((s.step blake3 capacity (.store thread object)).cache.look_up spec').1 ≠
          .waits := by
  intro s
  obtain ⟨h, hloaders⟩ : CacheInvariant blake3 capacity s ∧ HasLoaders s :=
    foldl_keeps (P := fun s => CacheInvariant blake3 capacity s ∧ HasLoaders s)
      (fun s event hs => ⟨hs.1.step event, hs.1.hasLoaders_step hs.2 event⟩) ⟨.start, nofun⟩
  refine ⟨fun id => ⟨fun hid => ?_, ?_⟩, ?_⟩
  · obtain ⟨thread, spec, hphase, hspec⟩ := hloaders id hid
    refine ⟨thread, ⟨spec, hphase, hspec⟩, ?_⟩
    rintro other ⟨spec', hother, hspec'⟩
    exact h.one_loader other thread spec' spec hother hphase (hspec'.trans hspec.symm)
  · rintro ⟨thread, ⟨spec, hphase, rfl⟩, -⟩
    exact h.loads thread spec hphase
  · intro thread spec object hphase spec' hid
    simp only [CacheSystem.step, hphase, CacheState.look_up, h.loading_store hphase, hid]
    split <;> split <;> simp_all

end NeoEngram.Local

import NeoEngram.Engine.CommitTree

/-! # Sealing a tree

`sealed_entries` and `directory` say which Directory a tree is sealed to,
whatever state the recursion carries along, and `seal_eq_ok` shows that `seal`
publishes the Directories of the tree in post-order. What holds of the
collected Directories then follows by induction on that list
(`Sealed.Sound.publish`, `Sealed.Sound.foldlM_publish`).
-/

namespace NeoEngram

open Checks Trees List PendingDirectory Tree PendingEntry

variable {U : UnicodeTables} {blake3 : Blake3}

/-! ## Sealed trees -/

mutual

def PendingEntry.sealed_entry (blake3 : Blake3) (ordinal : UInt64) (name : PathComponent U) :
    PendingEntry U → DirectoryEntry U
  | .File manifest_id total_size => DirectoryEntry.file ordinal name manifest_id total_size
  | .Directory directory => DirectoryEntry.directory ordinal name
      ⟨blake3 (directory_preimage (U := U) ⟨PendingDirectory.sealed_entries blake3 0 directory⟩)⟩

def PendingDirectory.sealed_entries (blake3 : Blake3) (ordinal : Nat) :
    PendingDirectory U → List (DirectoryEntry U)
  | .nil => []
  | .cons name entry rest =>
    PendingEntry.sealed_entry blake3 (UInt64.ofNat ordinal) name entry ::
      PendingDirectory.sealed_entries blake3 (ordinal + 1) rest

end

def PendingDirectory.directory (blake3 : Blake3) (d : PendingDirectory U) : Directory U :=
  ⟨d.sealed_entries blake3 0⟩

def PendingDirectory.sealed_id (blake3 : Blake3) (d : PendingDirectory U) : DirectoryId :=
  ⟨blake3 (directory_preimage (d.directory blake3))⟩

/-- A Directory that has an identity. -/
def Directory.Encodable (d : Directory U) : Prop :=
  d.validate = .ok () ∧ d.entries.length < 2 ^ 64 ∧ ∀ entry ∈ d.entries, TextFits entry.name.text

namespace PendingDirectory

@[simp] theorem length_sealed_entries (d : PendingDirectory U) (ordinal : Nat) :
    (d.sealed_entries blake3 ordinal).length = d.keys.length := by
  induction d using Tree.row_induction generalizing ordinal with
  | nil => rfl
  | cons name entry rest ih => simp [sealed_entries, Tree.keys, ih]

@[simp] theorem length_entries_directory (d : PendingDirectory U) :
    (d.directory blake3).entries.length = d.keys.length :=
  length_sealed_entries d 0

theorem map_name_sealed_entries (d : PendingDirectory U) (ordinal : Nat) :
    (d.sealed_entries blake3 ordinal).map (·.name) = d.keys := by
  induction d using Tree.row_induction generalizing ordinal with
  | nil => rfl
  | cons name entry rest ih =>
    have hname : (sealed_entry blake3 (UInt64.ofNat ordinal) name entry).name =
      name := by
      cases entry <;> rfl
    simp [sealed_entries, Tree.keys, ih, hname]

end PendingDirectory

/-! ## Sealing is publishing in post-order -/

variable {out out' : Sealed U} {id : DirectoryId} {entries : List (DirectoryEntry U)}

theorem publish_directory_eq_ok : publish_directory blake3 entries out = .ok (id, out') ↔
      (⟨entries⟩ : Directory U).Encodable ∧ id = ⟨blake3 (directory_preimage ⟨entries⟩)⟩ ∧
      ((out.published[id]? = some ⟨entries⟩ ∧ out' = out) ∨
        (out.published[id]? = none ∧ out' = ⟨out.output ++ [⟨id, ⟨entries⟩⟩],
          out.published.insert id ⟨entries⟩⟩)) := by
  unfold publish_directory Directory.new Directory.Encodable
  simp only [ok_iff, lift_core_eq_ok, directory_id_eq_ok]
  constructor
  · rintro ⟨d, ⟨hvalid, hd⟩, id', ⟨_, hlength, hfits, hid⟩, hmatch⟩
    subst hd
    split at hmatch
    · next existing hget =>
      simp only [ok_iff, Prod.mk.injEq] at hmatch
      obtain ⟨rfl, rfl, rfl⟩ := hmatch
      exact ⟨⟨hvalid, hlength, hfits⟩, hid, .inl ⟨hget, rfl⟩⟩
    · next hget =>
      simp only [pure_eq_ok, Prod.mk.injEq] at hmatch
      obtain ⟨rfl, rfl⟩ := hmatch
      exact ⟨⟨hvalid, hlength, hfits⟩, hid, .inr ⟨hget, rfl⟩⟩
  · rintro ⟨⟨hvalid, hlength, hfits⟩, hid, hcase⟩
    refine ⟨⟨entries⟩, ⟨hvalid, rfl⟩, id, ⟨hvalid, hlength, hfits, hid⟩, ?_⟩
    rcases hcase with ⟨hget, rfl⟩ | ⟨hget, rfl⟩
    · rw [hget]
      simp [ensure, bind, Except.bind, pure, Except.pure]
    · rw [hget]
      rfl

def publish_tree (blake3 : Blake3) (out : Sealed U) (d : PendingDirectory U) :
    EngineResult (Sealed U) := do
  let (_, out) ← publish_directory blake3 (d.directory blake3).entries out
  return out

variable {d : PendingDirectory U}

theorem publish_tree_eq_ok : publish_tree blake3 out d = .ok out' ↔
      publish_directory blake3 (d.directory blake3).entries out =
        .ok (d.sealed_id blake3, out') := by
  unfold publish_tree
  simp only [ok_iff, Prod.exists]
  constructor
  · rintro ⟨id, out₁, hpublish, hout⟩
    subst hout
    obtain ⟨-, rfl, -⟩ := publish_directory_eq_ok.mp hpublish
    exact hpublish
  · intro h
    exact ⟨_, _, h, rfl⟩

variable {ordinal : Nat}

theorem positions_fit_cons {α : Type} {names : List α} :
    (ordinal < 2 ^ 64 ∧ (names ≠ [] → ordinal + 1 + names.length ≤ 2 ^ 64)) ↔
      ordinal + (names.length + 1) ≤ 2 ^ 64 := by
  cases names with
  | nil => simp
  | cons a names =>
    simp only [ne_eq, reduceCtorEq, not_false_eq_true, forall_const, length_cons]
    omega

/-- Sealing the entries publishes the Directories below in post-order, and the entries are
those of the sealed tree. -/
theorem seal_entries_eq_ok : d.seal_entries blake3 ordinal out = .ok (entries, out') ↔
      (d.keys ≠ [] → ordinal + d.keys.length ≤ 2 ^ 64) ∧ entries = d.sealed_entries blake3 ordinal ∧
      d.subtrees.foldlM (publish_tree blake3) out = .ok out' := by
  induction d using Tree.tree_induction generalizing ordinal out out' entries with
  | nil =>
    simp only [seal_entries, Tree.keys,
      sealed_entries, Tree.subtrees, foldlM_nil,
      pure_eq_ok, Prod.mk.injEq]
    tauto
  | leaf name value rest ih =>
    simp only [seal_entries, PendingEntry.seal, ok_iff, u64_try_from_eq_some_iff,
      Prod.exists, Prod.mk.injEq, ih, Tree.keys, sealed_entries,
      PendingEntry.sealed_entry, Tree.subtrees, Node.subtrees, nil_append, length_cons,
      ← positions_fit_cons]
    constructor
    · rintro ⟨position, ⟨hfit, hposition⟩, entry, out₁, ⟨he, ho⟩, rest_entries, out₂,
        ⟨hfits, hrest, hfold⟩, hentries, hout⟩
      subst hposition he ho hrest hentries hout
      exact ⟨fun _ => ⟨hfit, hfits⟩, rfl, hfold⟩
    · rintro ⟨hfits, hentries, hfold⟩
      obtain ⟨hfit, hfits⟩ := hfits (by simp)
      subst hentries
      exact ⟨_, ⟨hfit, rfl⟩, _, out, ⟨rfl, rfl⟩, _, out', ⟨hfits, rfl, hfold⟩, rfl, rfl⟩
  | branch name sub rest ihsub ihrest =>
    simp only [seal_entries, PendingEntry.seal, ok_iff, u64_try_from_eq_some_iff,
      Prod.exists, Prod.mk.injEq, ihsub, ihrest, Tree.keys, sealed_entries,
      PendingEntry.sealed_entry, Tree.subtrees, Node.subtrees, foldlM_append_eq_ok,
      foldlM_singleton_eq_ok, length_cons, ← positions_fit_cons, publish_tree_eq_ok]
    constructor
    · rintro ⟨position, ⟨hfit, hposition⟩, entry, out₁,
        ⟨sub_entries, out₂, ⟨_, hsub, hfold₂⟩, id, out₃, hpublish, he, ho⟩,
        rest_entries, out₄, ⟨hfits, hrest, hfold⟩, hentries, hout⟩
      subst hposition hsub he ho hrest hentries hout
      obtain ⟨-, rfl, -⟩ := publish_directory_eq_ok.mp hpublish
      exact ⟨fun _ => ⟨hfit, hfits⟩, rfl, out₃, ⟨out₂, hfold₂, hpublish⟩, hfold⟩
    · rintro ⟨hfits, hentries, out₃, ⟨out₂, hfold₂, hpublish⟩, hfold⟩
      obtain ⟨hfit, hfits⟩ := hfits (by simp)
      -- the Directory below is published, so its positions fit
      obtain ⟨⟨-, hcount, -⟩, -, -⟩ := publish_directory_eq_ok.mp hpublish
      have hsub : sub.keys.length < 2 ^ 64 := by simpa using hcount
      subst hentries
      exact ⟨_, ⟨hfit, rfl⟩, _, out₃, ⟨_, out₂, ⟨fun _ => by omega, rfl, hfold₂⟩, _, out₃,
        hpublish, rfl, rfl⟩, _, out', ⟨hfits, rfl, hfold⟩, rfl, rfl⟩

/-- Sealing a tree publishes its Directories in post-order. -/
theorem seal_eq_ok : d.seal blake3 out = .ok (id, out') ↔
      id = d.sealed_id blake3 ∧ d.post_order.foldlM (publish_tree blake3) out = .ok out' := by
  unfold PendingDirectory.seal post_order
  simp only [bind_eq_ok, Prod.exists, seal_entries_eq_ok, foldlM_append_eq_ok,
    foldlM_singleton_eq_ok, publish_tree_eq_ok]
  constructor
  · intro ⟨entries, out₁, ⟨_, hentries, hfold⟩, hpublish⟩
    subst hentries
    obtain ⟨-, rfl, -⟩ := publish_directory_eq_ok.mp hpublish
    exact ⟨rfl, out₁, hfold, hpublish⟩
  · intro ⟨hid, out₁, hfold, hpublish⟩
    obtain ⟨⟨-, hcount, -⟩, -, -⟩ := publish_directory_eq_ok.mp hpublish
    have hlength : d.keys.length < 2 ^ 64 := by simpa using hcount
    exact ⟨_, out₁, ⟨fun _ => by omega, rfl, hfold⟩, hid ▸ hpublish⟩

/-! ## What has been collected -/

def PendingDirectory.object (blake3 : Blake3) (d : PendingDirectory U) : DirectoryObject U :=
  ⟨d.sealed_id blake3, d.directory blake3⟩

/-- What holds of the collected Directories after the trees of `done` were published. -/
structure Sealed.Sound (blake3 : Blake3) (out : Sealed U) (done : List (PendingDirectory U)) :
    Prop where
  /-- every tree has a Directory with an identity -/
  encodable : ∀ d ∈ done, (d.directory blake3).Encodable
  /-- every tree is found under its identity -/
  published : ∀ d ∈ done, out.published[d.sealed_id blake3]? = some (d.directory blake3)
  /-- the map and the output have the same content -/
  listed : ∀ id dir, out.published[id]? = some dir ↔ (⟨id, dir⟩ : DirectoryObject U) ∈ out.output
  /-- no identity is put out twice -/
  nodup : (out.output.map (·.id)).Nodup
  /-- every object was put out for a tree, after the objects of all trees before it -/
  in_order : ∀ before object after, out.output = before ++ object :: after →
    ∃ earlier d later, done = earlier ++ d :: later ∧ object = d.object blake3 ∧
      ∀ e ∈ earlier, e.object blake3 ∈ before

variable {done : List (PendingDirectory U)}

theorem Sealed.sound_nil : Sealed.Sound (U := U) blake3 ⟨[], ∅⟩ [] where
  encodable := by simp
  published := by simp
  listed := by simp
  nodup := by simp
  in_order := by simp

/-- Whatever is found under an identity was published for a tree. -/
theorem Sealed.Sound.exists_tree (hs : out.Sound blake3 done)
    {object : DirectoryObject U} (h : object ∈ out.output) :
    ∃ d ∈ done, d.object blake3 = object := by
  obtain ⟨before, after, hsplit⟩ := append_of_mem h
  obtain ⟨earlier, d, later, hdone, hobject, -⟩ := hs.in_order before object after hsplit
  exact ⟨d, by rw [hdone]; simp, hobject.symm⟩

/-- Publishing a tree whose Directory is there already changes nothing. -/
theorem Sealed.Sound.publish_existing (hs : out.Sound blake3 done)
    (hencodable : (d.directory blake3).Encodable)
    (hget : out.published[d.sealed_id blake3]? = some (d.directory blake3)) :
    out.Sound blake3 (done ++ [d]) where
  encodable := by
    intro e he
    rcases mem_append.mp he with he | he
    · exact hs.encodable e he
    · exact mem_singleton.mp he ▸ hencodable
  published := by
    intro e he
    rcases mem_append.mp he with he | he
    · exact hs.published e he
    · exact mem_singleton.mp he ▸ hget
  listed := hs.listed
  nodup := hs.nodup
  in_order := by
    intro before object after hsplit
    obtain ⟨earlier, e, later, hdone, hobject, hearlier⟩ := hs.in_order before object after hsplit
    exact ⟨earlier, e, later ++ [d], by simp [hdone], hobject, hearlier⟩

/-- Publishing a tree whose identity is new puts its Directory out last. -/
theorem Sealed.Sound.publish_new (hs : out.Sound blake3 done)
    (hencodable : (d.directory blake3).Encodable)
    (hget : out.published[d.sealed_id blake3]? = none) :
    Sealed.Sound blake3 ⟨out.output ++ [d.object blake3],
      out.published.insert (d.sealed_id blake3) (d.directory blake3)⟩ (done ++ [d]) where
  encodable := by
    intro e he
    rcases mem_append.mp he with he | he
    · exact hs.encodable e he
    · exact mem_singleton.mp he ▸ hencodable
  published := by
    intro e he
    rw [Std.ExtTreeMap.getElem?_insert]
    rcases mem_append.mp he with he | he
    · have hpub := hs.published e he
      have hne : d.sealed_id blake3 ≠ e.sealed_id blake3 := by
        intro hid
        rw [← hid, hget] at hpub
        cases hpub
      rw [if_neg (by simpa using hne), hpub]
    · rw [mem_singleton.mp he]
      simp
  listed := by
    intro id dir
    rw [Std.ExtTreeMap.getElem?_insert, mem_append, ← hs.listed, mem_singleton,
      object, DirectoryObject.mk.injEq]
    by_cases hid : d.sealed_id blake3 = id
    · subst hid
      simp [hget, eq_comm]
    · simp [hid, Ne.symm hid]
  nodup := by
    rw [map_append, nodup_append]
    refine ⟨hs.nodup, by simp, ?_⟩
    intro id hid id' hid' heq
    obtain ⟨object, hobject, rfl⟩ := mem_map.mp hid
    rw [map_singleton, mem_singleton] at hid'
    have hold := (hs.listed object.id object.directory).mpr hobject
    rw [heq, hid'] at hold
    exact absurd (hold.symm.trans hget) (by simp)
  in_order := by
    intro before object after hsplit
    rcases eq_nil_or_concat after with hafter | ⟨front, last, hafter⟩
    · -- the new object itself: all trees before it have their objects
      subst hafter
      obtain ⟨hbefore, hobject⟩ := append_inj' hsplit rfl
      refine ⟨done, d, [], rfl, (singleton_inj.mp hobject).symm, ?_⟩
      intro e he
      rw [← hbefore]
      exact (hs.listed _ _).mp (hs.published e he)
    · subst hafter
      rw [concat_eq_append, ← cons_append, ← append_assoc] at hsplit
      obtain ⟨hbefore, -⟩ := append_inj' hsplit rfl
      obtain ⟨earlier, e, later, hdone, hobject, hearlier⟩ :=
        hs.in_order before object front hbefore
      exact ⟨earlier, e, later ++ [d], by simp [hdone], hobject, hearlier⟩

theorem Sealed.Sound.publish (hs : out.Sound blake3 done)
    (h : publish_tree blake3 out d = .ok out') : out'.Sound blake3 (done ++ [d]) := by
  obtain ⟨hencodable, -, hcase⟩ := publish_directory_eq_ok.mp (publish_tree_eq_ok.mp h)
  rcases hcase with ⟨hget, hout⟩ | ⟨hget, hout⟩
  · exact hout ▸ hs.publish_existing hencodable hget
  · exact hout ▸ hs.publish_new hencodable hget

theorem Sealed.Sound.foldlM_publish {done trees : List (PendingDirectory U)}
    (hs : out.Sound blake3 done) (h : trees.foldlM (publish_tree blake3) out = .ok out') :
    out'.Sound blake3 (done ++ trees) := by
  induction trees generalizing out done with
  | nil =>
    simp only [foldlM_nil, pure_eq_ok] at h
    subst h
    simpa using hs
  | cons d trees ih =>
    simp only [foldlM_cons, bind_eq_ok] at h
    obtain ⟨out₁, hpublish, hrest⟩ := h
    simpa using ih (hs.publish hpublish) hrest

/-- The Directories of these trees have different identities unless they are equal. -/
def CollisionFree (blake3 : Blake3) (trees : List (PendingDirectory U)) : Prop :=
  ∀ d ∈ trees, ∀ e ∈ trees, d.sealed_id blake3 = e.sealed_id blake3 →
    d.directory blake3 = e.directory blake3

instance (trees : List (PendingDirectory U)) : Decidable (CollisionFree blake3 trees) :=
  inferInstanceAs (Decidable (∀ _ ∈ _, ∀ _ ∈ _, _ → _))

/-- What has been published is free of collisions: publishing checks it. -/
theorem Sealed.Sound.collisionFree (hs : out.Sound blake3 done) : CollisionFree blake3 done := by
  intro d hd e he hid
  have hpub := hs.published d hd
  rw [hid, hs.published e he] at hpub
  exact (Option.some.inj hpub).symm

/-- Publishing succeeds on encodable Directories without collisions. -/
theorem exists_foldlM_publish {done trees : List (PendingDirectory U)}
    (hs : out.Sound blake3 done) (hencodable : ∀ d ∈ trees, (d.directory blake3).Encodable)
    (hfree : CollisionFree blake3 (done ++ trees)) :
    ∃ out', trees.foldlM (publish_tree blake3) out = .ok out' := by
  induction trees generalizing out done with
  | nil => exact ⟨out, rfl⟩
  | cons d trees ih =>
    have hd := hencodable d mem_cons_self
    obtain ⟨out₁, hpublish⟩ : ∃ out₁, publish_tree blake3 out d = .ok out₁ := by
      cases hget : out.published[d.sealed_id blake3]? with
      | none =>
        exact ⟨_, publish_tree_eq_ok.mpr (publish_directory_eq_ok.mpr ⟨hd, rfl, .inr ⟨hget, rfl⟩⟩)⟩
      | some existing =>
        -- the Directory that is there belongs to a tree published before
        obtain ⟨e, he, hobject⟩ := hs.exists_tree ((hs.listed _ _).mp hget)
        have hid : e.sealed_id blake3 = d.sealed_id blake3 := congrArg DirectoryObject.id hobject
        have hdir : e.directory blake3 = existing := congrArg DirectoryObject.directory hobject
        rw [← hdir, hfree e (mem_append_left _ he) d (by simp) hid] at hget
        exact ⟨out, publish_tree_eq_ok.mpr (publish_directory_eq_ok.mpr
          ⟨hd, rfl, .inl ⟨hget, rfl⟩⟩)⟩
    obtain ⟨out', hrest⟩ := ih (hs.publish hpublish)
      (fun e he => hencodable e (mem_cons_of_mem _ he)) (by simpa using hfree)
    exact ⟨out', by rw [foldlM_cons, hpublish]; exact hrest⟩

/-! ## Identities -/

namespace PendingDirectory

/-- Every entry that targets a Directory targets one of the subdirectories. -/
theorem exists_subtree_of_target
    {entry : DirectoryEntry U} (h : entry ∈ d.sealed_entries blake3 ordinal)
    (htarget : entry.target_id = .Directory id) : ∃ s ∈ d.subtrees, sealed_id blake3 s = id := by
  induction d using tree_induction generalizing ordinal with
  | nil => simp [sealed_entries] at h
  | leaf name value rest ih =>
    simp only [sealed_entries, mem_cons] at h
    rcases h with rfl | h
    · simp [sealed_entry, DirectoryEntry.file] at htarget
    · exact ih h
  | branch name sub rest _ ih =>
    simp only [sealed_entries, mem_cons] at h
    simp only [subtrees, Node.subtrees]
    rcases h with rfl | h
    · refine ⟨sub, by simp, ?_⟩
      simpa [sealed_entry, DirectoryEntry.directory, sealed_id, directory] using htarget
    · obtain ⟨s, hs, hid⟩ := ih h
      exact ⟨s, mem_append_right _ hs, hid⟩

/-- Without collisions, equal Directories come from equal trees, by induction down the tree. -/
theorem eq_of_sealed_entries_eq {trees : List (PendingDirectory U)}
    (hfree : CollisionFree blake3 trees) {d e : PendingDirectory U}
    (hd : d.subtrees ⊆ trees) (he : e.subtrees ⊆ trees)
    (h : d.sealed_entries blake3 ordinal = e.sealed_entries blake3 ordinal) : d = e := by
  induction d using tree_induction generalizing e ordinal with
  | nil =>
    cases e with
    | nil => rfl
    | cons name entry rest => simp [sealed_entries] at h
  | leaf name value rest ih =>
    cases e with
    | nil => simp [sealed_entries] at h
    | cons name' entry' rest' =>
      obtain ⟨hhead, htail⟩ := List.cons.inj h
      have hrest := ih hd (fun t ht => he (mem_append_right _ ht)) htail
      cases entry' with
      | leaf value' =>
        simp [sealed_entry, DirectoryEntry.file] at hhead
        obtain ⟨rfl, hmanifest, hsize⟩ := hhead
        rw [hrest, Prod.ext hmanifest hsize]
      | branch sub' =>
        simp [sealed_entry, DirectoryEntry.file, DirectoryEntry.directory] at hhead
  | branch name sub rest ihsub ihrest =>
    cases e with
    | nil => simp [sealed_entries] at h
    | cons name' entry' rest' =>
      obtain ⟨hhead, htail⟩ := List.cons.inj h
      have hrest := ihrest (fun t ht => hd (mem_append_right _ ht))
        (fun t ht => he (mem_append_right _ ht)) htail
      cases entry' with
      | leaf value' =>
        simp [sealed_entry, DirectoryEntry.file, DirectoryEntry.directory] at hhead
      | branch sub' =>
        simp only [sealed_entry, DirectoryEntry.directory, DirectoryEntry.mk.injEq,
          DirectoryEntryTarget.Directory.injEq, true_and, and_true] at hhead
        obtain ⟨rfl, hid⟩ := hhead
        have hmem : sub ∈ trees ∧ sub.subtrees ⊆ trees :=
          ⟨hd (by simp [subtrees, Node.subtrees]),
            fun t ht => hd (by simp [subtrees, Node.subtrees, ht])⟩
        have hmem' : sub' ∈ trees ∧ sub'.subtrees ⊆ trees :=
          ⟨he (by simp [subtrees, Node.subtrees]),
            fun t ht => he (by simp [subtrees, Node.subtrees, ht])⟩
        have hdir := hfree sub hmem.1 sub' hmem'.1 hid
        rw [hrest, ihsub hmem.2 hmem'.2 (congrArg Directory.entries hdir)]

/-- Without collisions, no subdirectory has the identity of the tree it is in. -/
theorem id_ne_of_mem_subtrees {d s : PendingDirectory U}
    (hfree : CollisionFree blake3 d.post_order) (h : s ∈ d.subtrees) :
    s.sealed_id blake3 ≠ d.sealed_id blake3 := by
  intro hid
  have hdir := hfree s (mem_post_order.mpr (.inl h)) d (mem_post_order.mpr (.inr rfl)) hid
  have heq : s = d := eq_of_sealed_entries_eq hfree
    (fun t ht => mem_post_order.mpr (.inl (subtrees_subset h ht)))
    (fun t ht => mem_post_order.mpr (.inl ht)) (congrArg Directory.entries hdir)
  have := sizeOf_lt_of_mem_subtrees h
  rw [heq] at this
  omega

end PendingDirectory

end NeoEngram

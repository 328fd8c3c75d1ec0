import NeoEngram.Agent.LifecycleInvariant

/-! # The three actions

Every call of `quarantine`, `restore` and `purge` keeps the invariant of the
deletion. A program that is not killed ends with all trees where its name
says, unless the resource cannot be quarantined at all. The proofs follow the
loop over the roots; a root that is done is recognised by its entry and by
where its tree is.
-/

namespace NeoEngram.Agent

open Checks Effects List Option Volume FilesystemRootJournal
open Trees (Node Tree)

variable {U : UnicodeTables} {s : Setting U} {v v' : Volume U}
variable {fenced : Prop} {restores : Bool → Bool}
  {journal : FilesystemLifecycleJournal U} {root : FilesystemRootJournal U}

/-- The end of an action: its last state is written, and the evidence is put together. -/
theorem meets_settle {state : FilesystemLifecycleState} (purged : Bool)
    (hvalid : validate_journal s.deletion journal = .ok ())
    (hall : ∀ root ∈ journal.roots, Recorded s root
      (if purged then evidence s root.relative_root else none))
    (hdone : Good s fenced { v with journal := some { journal with state } })
    {Q : AgentResult ResourceLifecycleEvidence → Volume U → Prop} (hQ : ∀ v', Good s fenced v' →
      v' = { v with journal := some (settled s state purged) } →
      Q (aggregate_evidence s.blake3 s.start.marker (settled s state purged) purged) v') :
    Meets (serving restores) (Keeps s fenced) (do
        put s.deletion { journal with state }
        checked (aggregate_evidence s.blake3 s.start.marker { journal with state } purged) :
        Program U ResourceLifecycleEvidence).run Q v := by
  have hput := validate_set_state hvalid state
  have hsettled := eq_settled rfl hput purged hall
  rw [meets_seq]
  refine meets_put hput hdone ?_
  simp only [hsettled] at hdone ⊢
  exact hQ _ hdone rfl

/-! ## Quarantine -/

variable {entry : Entry}

theorem validate_tree_root_eq_ok (blake3 : Blake3) (root : LogicalPath U) :
    validate_tree_root U entry = .ok () ↔ ∃ found, scan_tree blake3 entry root = .ok found := by
  cases entry with
  | leaf leaf =>
    constructor
    · intro h
      cases h
    · rintro ⟨found, h⟩
      cases h
  | branch directory =>
    have hfirst := @exists_scan_stack U false directory.post_order.length [(directory, [])]
    have hsecond := @exists_scan_stack U (is_object_root root) directory.post_order.length
      [(directory, [])]
    simp only [validate_tree_root, scan_tree, ok_iff, and_true]
    rw [hfirst, ← hsecond]
    constructor
    · rintro ⟨inventory, hinventory⟩
      exact ⟨_, inventory, hinventory, rfl⟩
    · rintro ⟨found, inventory, hinventory, -⟩
      exact ⟨inventory, hinventory⟩

/-- What a quarantine says of a root that it cannot deal with. -/
def Refuses (s : Setting U) (root : LogicalPath U) (error : AgentError) : Prop :=
  quarantine_path s.deletion root = .error error ∨
    (∃ path, quarantine_path s.deletion root = .ok path) ∧
      ∃ entry, content s root = some entry ∧ validate_tree_root U entry = .error error

theorem Refuses.not_canQuarantine {root : LogicalPath U} {error : AgentError}
    (h : Refuses s root error) : ¬ CanQuarantine s root := by
  intro hcan
  rcases h with hpath | ⟨-, entry, hentry, hrefused⟩
  · obtain ⟨path, hok⟩ := hcan.1
    rw [hok] at hpath
    cases hpath
  · obtain ⟨found, hfound⟩ := hcan.2 entry hentry
    rw [(validate_tree_root_eq_ok s.blake3 root).mpr ⟨found, hfound⟩] at hrefused
    cases hrefused

/-- A quarantine that stops at a root has at most created directories for it. -/
structure Stopped (s : Setting U) (fenced : Prop)
    (root : LogicalPath U) (error : AgentError) (v v' : Volume U) : Prop where
  good : Good s fenced v'
  journal : v'.journal = v.journal
  fence : v'.fence = v.fence
  refuses : Refuses s root error
  directories : IsTried s root →
    ∀ location ∈ ancestors (s.deletion.quarantine root), v'.directories location = true

variable {relative path : LogicalPath U}

section

variable (h : Good s fenced v) (hj : v.journal = some journal)

include h hj

section

variable (hstate : journal.state = .Quarantining)
  (hroot : ⟨relative, none, none, none⟩ ∈ journal.roots)
  (hreached : IsReached s relative)

include hstate hroot hreached

theorem meets_move_to_quarantine (hactive : IsActive s v relative)
    (hentry : content s relative = some entry)
    (hpath : quarantine_path s.deletion relative = .ok path)
    {Q : AgentResult TreeEvidence → Volume U → Prop}
    (herror : ∀ error v', Stopped s fenced relative error v v' → Q (.error error) v')
    (hQ : ∀ found v', Good s fenced v' → v'.journal = v.journal →
      v'.fence = v.fence → IsQuarantined s v' relative →
      scan_tree s.blake3 entry relative = .ok found → Q (.ok found) v') :
    Meets (serving restores) (Keeps s fenced)
      (move_to_quarantine s.blake3 s.start.marker relative entry path).run Q v := by
  have hpath' := quarantine_path_eq_ok hpath
  have hvalid := (h.invariant.journal_roots hj).1
  have hmem : relative ∈ s.deletion.roots := mem_roots_of_validate hvalid hroot
  have hpresent : content s relative ≠ none := by rw [hentry]; exact some_ne_none _
  unfold move_to_quarantine
  rw [hpath', meets_seq]
  refine meets_create_directories h hmem ⟨hreached, hpresent, path, hpath⟩ (List.Subset.refl _) ?_
  intro directories hall hkept hgood
  show Meets _ _ _ _ _
  rw [meets_seq, meets_checked]
  cases hchecked : validate_tree_root U entry with
  | error error =>
    refine herror error _ ⟨hgood, rfl, rfl, .inr ⟨⟨path, hpath⟩, entry, hentry, hchecked⟩, ?_⟩
    exact fun _ => hall
  | ok _ =>
    obtain ⟨found, hfound⟩ := (validate_tree_root_eq_ok s.blake3 relative).mp hchecked
    show Meets _ _ _ _ _
    rw [meets_seq]
    refine meets_verify hgood.keeps hgood.invariant ?_
    show Meets _ _ _ _ _
    rw [meets_seq]
    have hsource : ({ v with directories } : Volume U).resolve (managed_components relative) =
        some entry := by
      rw [hgood.invariant.resolve_active hmem, ← hentry]
      exact hactive.1
    have hne := s.managed.active_ne_quarantined hmem relative
    have hrename := rename_eq hsource hactive.2 hall
    -- from here on only what is known of the volume before the rename matters
    generalize hw : ({ v with directories } : Volume U) = w at hgood hsource hrename ⊢
    have hquarantined : IsQuarantined s (w.moved (managed_components relative)
        (s.deletion.quarantine relative) entry) relative :=
      ⟨trees_moved_source entry hne, by rw [trees_moved_destination, hentry]⟩
    have hwjournal : w.journal = some journal := by rw [← hw]; exact hj
    have hmoved : Good s fenced (w.moved (managed_components relative)
        (s.deletion.quarantine relative) entry) := by
      refine ⟨?_, hgood.fence⟩
      refine hgood.invariant.set_trees hwjournal hmem
        (fun location hfirst hsecond => trees_moved_other entry hfirst hsecond) ?_ ?_
      · intro root hroot' hrelative
        rw [s.managed.eq_of_relative_root hvalid hroot' hroot hrelative, hstate]
        -- moved and not recorded yet: what a restart finds after a crash here
        refine .inl ⟨rfl, .inr ⟨hreached, ⟨⟨path, hpath⟩, fun other hother => ?_⟩, hquarantined⟩⟩
        obtain rfl := Option.some.inj (hentry.symm.trans hother)
        exact ⟨found, hfound⟩
      · intro _
        rw [← hw]
        exact hall
    refine meets_ask ?_ ?_
    · simp only [answer, hrename]
      exact hmoved.keeps _ _
    · simp only [answer, hrename, then_ok]
      have hresolved : (w.moved (managed_components relative)
          (s.deletion.quarantine relative) entry).resolve
            (s.deletion.quarantine relative) = some entry := by
        rw [hmoved.invariant.resolve_quarantined hmem, trees_moved_destination]
      refine meets_scan_at hmoved hresolved ?_
      rw [hfound]
      exact hQ found _ hmoved (by rw [← hw]; rfl) (by rw [← hw]; rfl) hquarantined hfound

/-- A root that is not recorded yet: its tree is moved, if that has not been done before. -/
theorem meets_quarantine_new
    (hplace : IsActive s v relative ∨ (CanQuarantine s relative ∧ IsQuarantined s v relative))
    {Q : AgentResult (FilesystemRootJournal U) → Volume U → Prop}
    (herror : ∀ error v', Stopped s fenced relative error v v' → Q (.error error) v')
    (hQ : ∀ root' v', Good s fenced v' → v'.journal = v.journal →
      v'.fence = v.fence → root'.relative_root = relative →
      Recorded s root' none → IsQuarantined s v' relative →
      Q (.ok root') v') :
    Meets (serving restores) (Keeps s fenced)
      (quarantine_root s.blake3 s.start.marker s.deletion ⟨relative, none, none,
        none⟩).run Q v := by
  have hvalid := (h.invariant.journal_roots hj).1
  have hmem : relative ∈ s.deletion.roots := mem_roots_of_validate hvalid hroot
  unfold quarantine_root
  rw [meets_seq, meets_checked]
  cases hpath : quarantine_path s.deletion relative with
  | error error =>
    refine herror error v ⟨h, rfl, rfl, .inl hpath, fun htried => ?_⟩
    obtain ⟨path, hok⟩ := htried.2.2
    rw [hok] at hpath
    cases hpath
  | ok path =>
    show Meets _ _ _ _ _
    rw [meets_seq]
    refine meets_ask (h.keeps _ _) ?_
    simp only [answer, then_ok, h.invariant.resolve_active hmem, meets_seq]
    refine meets_ask (h.keeps _ _) ?_
    simp only [answer, then_ok, quarantine_path_eq_ok hpath, h.invariant.resolve_quarantined hmem]
    cases hentry : content s relative with
    | none =>
      have hnone : v.trees (managed_components relative) = none ∧
          v.trees (s.deletion.quarantine relative) = none := by
        rcases hplace with hplace | ⟨-, hplace⟩
        · exact ⟨hplace.1.trans hentry, hplace.2⟩
        · exact ⟨hplace.1, hplace.2.trans hentry⟩
      simp only [hnone.1, hnone.2]
      exact hQ _ v h rfl rfl rfl (recorded_absent hentry hpath) ⟨hnone.1, hnone.2.trans hentry.symm⟩
    | some entry =>
      rcases hplace with hactive | ⟨hcan, hquarantined⟩
      · simp only [hactive.1, hactive.2, hentry]
        rw [meets_seq]
        refine meets_move_to_quarantine h hj hstate hroot hreached hactive
          hentry hpath ?_ ?_
        · exact herror
        · intro found v' hgood hj' hfence hplace hfound
          exact hQ _ v' hgood hj' hfence rfl (recorded_present hentry hpath hfound) hplace
      · simp only [hquarantined.1, hquarantined.2, hentry, meets_seq]
        have hresolved : v.resolve (s.deletion.quarantine relative) = some entry := by
          rw [h.invariant.resolve_quarantined hmem, hquarantined.2, hentry]
        obtain ⟨found, hfound⟩ := hcan.2 entry hentry
        refine meets_scan_at h hresolved ?_
        rw [hfound]
        exact hQ _ v h rfl rfl rfl (recorded_present hentry hpath hfound) hquarantined

end

end

theorem meets_quarantine_recorded
    (h : Good s fenced v) (hmem : root.relative_root ∈ s.deletion.roots)
    (hrecorded : Recorded s root none) (hquarantined : IsQuarantined s v root.relative_root)
    {Q : AgentResult (FilesystemRootJournal U) → Volume U → Prop} (hQ : Q (.ok root) v) :
    Meets (serving restores) (Keeps s fenced)
      (quarantine_root s.blake3 s.start.marker s.deletion root).run Q v := by
  obtain ⟨⟨⟨path, hpath⟩, hscan⟩, hroot⟩ := hrecorded
  unfold quarantine_root
  simp only [meets_seq, meets_checked, hpath, then_ok]
  refine meets_ask (h.keeps _ _) ?_
  simp only [answer, then_ok, h.invariant.resolve_active hmem]
  refine meets_ask (h.keeps _ _) ?_
  simp only [answer, then_ok, quarantine_path_eq_ok hpath,
    h.invariant.resolve_quarantined hmem, hquarantined.1, hquarantined.2]
  have hresolved := h.invariant.resolve_quarantined hmem
  rw [hquarantined.2] at hresolved
  generalize root.relative_root = relative at *
  subst hroot
  cases hentry : content s relative with
  | none =>
    simp only [hentry, isSome_none] at hQ ⊢
    exact hQ
  | some entry =>
    obtain ⟨found, hfound⟩ := hscan entry hentry
    simp only [hentry, isSome_some, meets_seq] at hQ ⊢
    refine meets_scan_at h (hresolved.trans hentry) ?_
    rw [hfound]
    rw [evidence_of_scan hentry hfound] at hQ
    exact hQ

theorem Placed.quarantined (h : Placed s v .Quarantining root) (hrecorded : Recorded s root none) :
    IsQuarantined s v root.relative_root := by
  rcases h with ⟨hnew, -⟩ | ⟨-, -, hquarantined⟩
  · have hpresent := congrArg was_present (hrecorded.2.symm.trans hnew)
    cases hpresent
  · exact hquarantined

theorem isReached_of_done {done rest : List (FilesystemRootJournal U)}
    (hvalid : validate_journal s.deletion { journal with roots := done ++ root :: rest } = .ok ())
    (hdone : ∀ other ∈ done, Recorded s other none) :
    IsReached s root.relative_root := by
  intro before after hsplit
  have hroots := roots_of_validate hvalid
  have hnodup := s.managed.nodup
  simp only [map_append, map_cons] at hroots
  rw [hsplit] at hnodup
  have hnotMem := (nodup_middle.mp hnodup).notMem
  rw [mem_append, not_or] at hnotMem
  obtain ⟨rfl, -, -⟩ := (append_cons_inj_of_notMem hnotMem.1 hnotMem.2).mp
    (hsplit.symm.trans hroots.symm)
  intro relative hrelative
  obtain ⟨other, hother, rfl⟩ := List.mem_map.mp hrelative
  exact (hdone other hother).1

/-- The state in which a quarantine has stopped at a root. -/
def Halted (s : Setting U) (error : AgentError) (v : Volume U) : Prop :=
  ∃ journal done root rest, v.journal = some journal ∧ journal.state = .Quarantining ∧
    journal.roots = done ++ root :: rest ∧
    (∀ other ∈ done, Recorded s other none) ∧
    Refuses s root.relative_root error ∧
    (IsTried s root.relative_root →
      ∀ location ∈ ancestors (s.deletion.quarantine root.relative_root),
        v.directories location = true)

variable {Q : AgentResult (FilesystemLifecycleJournal U) → Volume U → Prop}
  {done todo : List (FilesystemRootJournal U)}

/-- The loop: the roots that are done are recorded and quarantined. -/
theorem meets_quarantine_roots
    (hstate : journal.state = .Quarantining) (h : Good s fenced v)
    (hj : v.journal = some { journal with roots := done ++ todo })
    (hdone : ∀ root ∈ done, Recorded s root none) (herror : ∀ error v', Good s fenced v' →
      Halted s error v' → v'.fence = v.fence → Q (.error error) v')
    (hQ : ∀ roots v', Good s fenced v' →
      v'.journal = some { journal with roots } → v'.fence = v.fence →
      (∀ root ∈ roots, Recorded s root none ∧
        IsQuarantined s v' root.relative_root) → Q (.ok { journal with roots }) v') :
    Meets (serving restores) (Keeps s fenced)
      (quarantine_roots s.blake3 s.start.marker s.deletion journal done todo).run Q v := by
  induction todo generalizing done v with
  | nil =>
    rw [append_nil] at hj
    refine hQ done v h hj rfl fun root hroot => ⟨hdone root hroot, ?_⟩
    have hplaced := (h.invariant.journal_roots hj).2 root hroot
    simp only [hstate] at hplaced
    exact hplaced.quarantined (hdone root hroot)
  | cons root rest ih =>
    have hfenced : journal.state ≠ .Fenced := by rw [hstate]; decide
    have hrestored : journal.state ≠ .Restored := by rw [hstate]; decide
    obtain ⟨hvalid, hplaces⟩ := h.invariant.journal_roots hj
    have hroot : root ∈ done ++ root :: rest := mem_append_right _ mem_cons_self
    have hmem := mem_roots_of_validate hvalid hroot
    have hplaced := hplaces root hroot
    have hreached := isReached_of_done hvalid hdone
    simp only [hstate] at hplaced
    -- the entry of the root is written, and the loop goes on
    have hnext : ∀ root' v', Good s fenced v' → v'.journal = v.journal →
        v'.fence = v.fence → root'.relative_root = root.relative_root →
        Recorded s root' none →
        IsQuarantined s v' root.relative_root →
        Meets (serving restores) (Keeps s fenced) (do
            put s.deletion { journal with roots := done ++ root' :: rest }
            quarantine_roots s.blake3 s.start.marker s.deletion journal (done ++ [root']) rest :
            Program U (FilesystemLifecycleJournal U)).run Q v' := by
      intro root' v' hgood hj' hfence hrelative hrecorded hquarantined
      rw [← hrelative] at hquarantined hreached hmem
      have hgood' := hgood.put_root (hj'.trans hj) hrelative hfenced hrestored
        (by rw [hstate]; exact .inr ⟨hreached, hrecorded, hquarantined⟩)
        (hgood.invariant.recorded_directories hmem hrecorded hquarantined)
      rw [meets_seq]
      refine meets_put (validate_replace hvalid hrelative) hgood' ?_
      refine ih hgood' (by rw [append_assoc]; rfl) ?_ ?_ ?_
      · intro other hother
        rcases mem_append.mp hother with hother | hother
        · exact hdone other hother
        · rw [mem_singleton.mp hother]
          exact hrecorded
      · intro error v'' hgood'' hhalted hfence''
        exact herror error v'' hgood'' hhalted (hfence''.trans hfence)
      · intro roots v'' hgood'' hj'' hfence'' hall
        exact hQ roots v'' hgood'' hj'' (hfence''.trans hfence) hall
    rw [quarantine_roots, meets_seq]
    rcases hplaced with ⟨hnew, hplace⟩ | ⟨-, hrecorded, hquarantined⟩
    · have hroot' : ⟨root.relative_root, none, none, none⟩ ∈ done ++ root :: rest := by
        rw [← hnew]
        exact hroot
      rw [hnew]
      refine meets_quarantine_new h hj hstate hroot' hreached
        (hplace.imp_right And.right) ?_ ?_
      · intro error v' hstopped
        exact herror error v' hstopped.good ⟨_, done, root, rest, hstopped.journal.trans hj,
          hstate, rfl, hdone, hstopped.refuses, hstopped.directories⟩ hstopped.fence
      · exact hnext
    · refine meets_quarantine_recorded h hmem hrecorded hquarantined ?_
      exact hnext root v h rfl rfl rfl hrecorded hquarantined

theorem meets_quarantine
    (h : Good s fenced v) (hfence : fenced → v.fence = true)
    (hstate : ∀ journal, v.journal = some journal → journal.state = .Fenced ∨
      journal.state = .Quarantining ∨ journal.state = .Quarantined)
    {Q : AgentResult ResourceLifecycleEvidence → Volume U → Prop}
    (herror : ∀ error v', Good s fenced v' →
      Halted s error v' → v'.fence = v.fence → Q (.error error) v')
    (hQ : ∀ v', Good s fenced v' →
      v'.journal = some (settled s .Quarantined false) → v'.fence = v.fence →
      Q (aggregate_evidence s.blake3 s.start.marker (settled s .Quarantined false) false) v') :
    Meets (serving restores) (Keeps s fenced)
      (quarantine s.blake3 s.start.marker s.deletion).run Q v := by
  -- the work, from the journal that was loaded or created
  have hwork : ∀ journal v', Good s fenced v' → v'.journal = some journal →
      v'.fence = v.fence → (journal.state = .Fenced ∨ journal.state = .Quarantining) →
      Meets (serving restores) (Keeps s fenced) (do
          put s.deletion { journal with state := .Quarantining }
          let journal ← quarantine_roots s.blake3 s.start.marker s.deletion
            { journal with state := .Quarantining } [] journal.roots
          put s.deletion { journal with state := .Quarantined }
          checked (aggregate_evidence s.blake3 s.start.marker { journal with state := .Quarantined }
            false) : Program U ResourceLifecycleEvidence).run Q v' := by
    intro journal v' hgood hj hfence' hwas
    obtain ⟨hvalid, hplaces⟩ := hgood.invariant.journal_roots hj
    have hbegun : Good s fenced
        { v' with journal := some { journal with state := .Quarantining } } := by
      refine ⟨hgood.invariant.put_state hj fun root hroot => ?_, fun hf _ _ _ _ => ?_⟩
      · have hplaced := hplaces root hroot
        rcases hwas with hwas | hwas <;> rw [hwas] at hplaced
        · exact .inl ⟨hplaced.1, .inl hplaced.2⟩
        · exact hplaced
      · exact hfence'.trans (hfence hf)
    rw [meets_seq]
    refine meets_put (validate_set_state hvalid _) hbegun ?_
    show Meets _ _ _ _ _
    rw [meets_seq]
    refine meets_quarantine_roots rfl hbegun rfl (forall_mem_nil _) ?_ ?_
    · intro error v'' hgood'' hhalted hfence''
      exact herror error v'' hgood'' hhalted (hfence''.trans hfence')
    · intro roots v'' hgood'' hj'' hfence'' hall
      have hvalid'' := (hgood''.invariant.journal_roots hj'').1
      have hdone : Good s fenced
          { v'' with journal := some { journal with state := .Quarantined, roots } } :=
        ⟨hgood''.invariant.put_state hj'' hall,
          fun hf => (hgood''.fence hf).put hj'' nofun nofun _⟩
      refine meets_settle false hvalid'' (fun root hroot => (hall root hroot).1) hdone ?_
      rintro _ hsettled rfl
      exact hQ _ hsettled rfl (hfence''.trans hfence')
  unfold quarantine
  rw [meets_seq]
  refine meets_load_or_create h ?_ ?_
  · intro journal hj
    show Meets _ _ _ _ _
    rcases hstate journal hj with hwas | hwas | hwas
    · simp only [hwas]
      exact hwork journal v h hj rfl (.inl hwas)
    · simp only [hwas]
      exact hwork journal v h hj rfl (.inr hwas)
    · obtain ⟨hvalid, hplaces⟩ := h.invariant.journal_roots hj
      rw [hwas] at hplaces
      have hsettled := eq_settled hwas hvalid false fun root hroot => (hplaces root hroot).1
      simp only [hwas]
      rw [hsettled]
      exact hQ v h (hsettled ▸ hj) rfl
  · intro hnone
    exact hwork (new_journal s.deletion) _ (h.create_journal hnone) rfl rfl (.inl rfl)

/-! ## Restore -/

section

variable (h : Good s fenced v) (hj : v.journal = some journal)
  (hstate : journal.state = .Restoring) (hroot : root ∈ journal.roots)

include h hj hstate hroot

theorem meets_move_back (hrecorded : Recorded s root none)
    (hquarantined : IsQuarantined s v root.relative_root)
    (hentry : content s root.relative_root = some entry) {Q : AgentResult Unit → Volume U → Prop}
    (hQ : ∀ v', Good s fenced v' → v'.journal = v.journal →
      v'.fence = v.fence → IsActive s v' root.relative_root →
      SameExcept s.deletion root.relative_root v v' → Q (.ok ()) v') :
    Meets (serving restores) (Keeps s fenced)
      (ask (.rename (s.deletion.quarantine root.relative_root)
        (managed_components root.relative_root))).run Q v := by
  have hvalid := (h.invariant.journal_roots hj).1
  have hmem := mem_roots_of_validate hvalid hroot
  have hne := s.managed.active_ne_quarantined hmem root.relative_root
  have hpresent : content s root.relative_root ≠ none := by
    rw [hentry]
    exact some_ne_none _
  have hsource : v.resolve (s.deletion.quarantine root.relative_root) = some entry := by
    rw [h.invariant.resolve_quarantined hmem, hquarantined.2, hentry]
  have hrename := rename_eq hsource hquarantined.1 (h.invariant.active_parents hmem hpresent)
  have hactive : IsActive s (v.moved (s.deletion.quarantine root.relative_root)
      (managed_components root.relative_root) entry) root.relative_root :=
    ⟨by rw [trees_moved_destination, hentry], trees_moved_source entry hne.symm⟩
  have hmoved : Good s fenced (v.moved
      (s.deletion.quarantine root.relative_root) (managed_components root.relative_root)
      entry) := by
    refine ⟨?_, h.fence⟩
    refine h.invariant.set_trees hj hmem
      (fun location hfirst hsecond => trees_moved_other entry hsecond hfirst) ?_ ?_
    · intro root' hroot' hrelative
      rw [s.managed.eq_of_relative_root hvalid hroot' hroot hrelative, hstate]
      exact ⟨hrecorded, .inl hactive⟩
    · exact fun hsome => absurd hactive.2 hsome
  refine meets_ask ?_ ?_
  · simp only [answer, hrename]
    exact hmoved.keeps _ _
  · simp only [answer, hrename]
    exact hQ _ hmoved rfl rfl hactive
      fun location hfirst hsecond => trees_moved_other entry hsecond hfirst

theorem meets_restore_root {Q : AgentResult (Option (FilesystemRootJournal U)) → Volume U → Prop}
    (hQ : ∀ x v', Good s fenced v' → v'.journal = v.journal →
      v'.fence = v.fence → IsActive s v' root.relative_root →
      SameExcept s.deletion root.relative_root v v' → (x = none ∨ x = some root) → Q (.ok x) v') :
    Meets (serving restores) (Keeps s fenced)
      (restore_root s.blake3 s.start.marker s.deletion root).run Q v := by
  obtain ⟨hvalid, hplaces⟩ := h.invariant.journal_roots hj
  have hmem := mem_roots_of_validate hvalid hroot
  have hplaced := hplaces root hroot
  rw [hstate] at hplaced
  obtain ⟨hrecorded, hplace⟩ := hplaced
  obtain ⟨⟨⟨path, hpath⟩, hscan⟩, heq⟩ := id hrecorded
  have hwas : root.was_present = some (content s root.relative_root).isSome :=
    congrArg was_present heq
  have hevidence : root.quarantine_evidence = evidence s root.relative_root :=
    congrArg quarantine_evidence heq
  unfold restore_root
  simp only [meets_seq, meets_checked, hpath, then_ok]
  refine meets_ask (h.keeps _ _) ?_
  simp only [answer, then_ok, h.invariant.resolve_active hmem]
  refine meets_ask (h.keeps _ _) ?_
  simp only [answer, then_ok, quarantine_path_eq_ok hpath,
    h.invariant.resolve_quarantined hmem, hwas]
  cases hentry : content s root.relative_root with
  | none =>
    have hnone : v.trees (managed_components root.relative_root) = none ∧
        v.trees (s.deletion.quarantine root.relative_root) = none := by
      rcases hplace with hplace | hplace
      · exact ⟨hplace.1.trans hentry, hplace.2⟩
      · exact ⟨hplace.1, hplace.2.trans hentry⟩
    simp only [hnone.1, hnone.2, isSome_none, beq_self_eq_true]
    exact hQ none v h rfl rfl ⟨hnone.1.trans hentry.symm, hnone.2⟩ (fun _ _ _ => rfl) (.inl rfl)
  | some entry =>
    obtain ⟨found, hfound⟩ := hscan entry hentry
    have hsame : ({ root with was_present := some true, quarantine_evidence := some found } :
        FilesystemRootJournal U) = root := by
      rw [hentry] at hwas
      rw [← evidence_of_scan hentry hfound, ← hevidence, ← isSome_some, ← hwas]
    have hpresent : ((some true : Option Bool) == some false) = false := rfl
    rcases hplace with hactive | hquarantined
    · simp only [hactive.1, hactive.2, hentry, isSome_some, hpresent, meets_seq]
      refine meets_scan_at h ((h.invariant.resolve_active hmem).trans (hactive.1.trans hentry)) ?_
      rw [hfound]
      exact hQ _ v h rfl rfl hactive (fun _ _ _ => rfl) (.inr (congrArg some hsame))
    · simp only [hquarantined.1, hquarantined.2, hentry, isSome_some, hpresent, meets_seq]
      refine meets_scan_at h ((h.invariant.resolve_quarantined hmem).trans
        (hquarantined.2.trans hentry)) ?_
      rw [hfound]
      simp only [then_ok]
      refine meets_existing_directories h (h.invariant.active_parents hmem
        (by rw [hentry]; exact some_ne_none _)) ?_
      refine meets_verify h.keeps h.invariant ?_
      simp only [then_ok]
      rw [quarantine_path_eq_ok hpath]
      refine meets_move_back h hj hstate hroot hrecorded hquarantined
        hentry ?_
      intro v' hgood hj' hfence hactive hframe
      exact hQ _ v' hgood hj' hfence hactive hframe (.inr (congrArg some hsame))

end

/-- The loop: the roots that are done are active again. The journal stays as it is. -/
theorem meets_restore_roots
    (hstate : journal.state = .Restoring) (hroots : journal.roots = done ++ todo)
    (h : Good s fenced v) (hj : v.journal = some journal)
    (hdone : ∀ root ∈ done, IsActive s v root.relative_root)
    (hQ : ∀ v', Good s fenced v' → v'.journal = some journal →
      v'.fence = v.fence → (∀ root ∈ journal.roots, IsActive s v' root.relative_root) →
      Q (.ok journal) v') :
    Meets (serving restores) (Keeps s fenced)
      (restore_roots s.blake3 s.start.marker s.deletion journal done todo).run Q v := by
  induction todo generalizing done v with
  | nil =>
    rw [append_nil] at hroots
    subst hroots
    exact hQ v h hj rfl hdone
  | cons root rest ih =>
    have hvalid := (h.invariant.journal_roots hj).1
    have hroot : root ∈ journal.roots := by
      rw [hroots]
      exact mem_append_right _ mem_cons_self
    have hmem := mem_roots_of_validate hvalid hroot
    rw [restore_roots, meets_seq]
    refine meets_restore_root h hj hstate hroot ?_
    intro x v' hgood hj' hfence hactive hframe hx
    have hdone' : ∀ other ∈ done ++ [root], IsActive s v' other.relative_root := by
      intro other hother
      rcases mem_append.mp hother with hother | hother
      · have hother' : other ∈ journal.roots := by
          rw [hroots]
          exact mem_append_left _ hother
        by_cases hsame : other.relative_root = root.relative_root
        · rw [hsame]
          exact hactive
        · obtain ⟨hfirst, hsecond⟩ :=
            hframe.other hmem (mem_roots_of_validate hvalid hother') hsame
          exact ⟨hfirst.trans (hdone other hother).1, hsecond.trans (hdone other hother).2⟩
      · rw [mem_singleton.mp hother]
        exact hactive
    have hroots' : journal.roots = (done ++ [root]) ++ rest := by
      rw [hroots, append_assoc]
      rfl
    have hsame : ({ journal with roots := done ++ root :: rest } : FilesystemLifecycleJournal U) =
        journal := by
      rw [← hroots]
    have hrest : Meets (serving restores) (Keeps s fenced)
        (restore_roots s.blake3 s.start.marker s.deletion journal (done ++
          [root]) rest).run Q v' := by
      refine ih hroots' hgood (hj'.trans hj) hdone' ?_
      intro v'' hgood'' hj'' hfence''
      exact hQ v'' hgood'' hj'' (hfence''.trans hfence)
    simp only [then_ok]
    rcases hx with rfl | rfl
    · exact hrest
    · have hput : ({ v' with journal := some journal } : Volume U) = v' := by
        rw [← hj, ← hj']
      simp only [meets_seq, hsame]
      exact meets_put hvalid (hput.symm ▸ hgood) (hput.symm ▸ hrest)

/-- Every root was looked for. -/
def IsComplete (journal : FilesystemLifecycleJournal U) : Prop :=
  ∀ root ∈ journal.roots, root.was_present ≠ none

theorem check_inventory_eq_ok : check_inventory journal = .ok () ↔ IsComplete journal :=
  ensure_eq_ok

section

variable (h : Invariant s v) (hj : v.journal = some journal) (hcomplete : IsComplete journal)

include h hj hcomplete

/-- A journal of a deletion has entries, so that one with all roots recorded is not new. -/
theorem Invariant.ne_fenced : journal.state ≠ .Fenced := by
  intro hstate
  obtain ⟨hvalid, hplaces⟩ := h.journal_roots hj
  have hroots := roots_of_validate hvalid
  cases hcase : journal.roots with
  | nil =>
    rw [hcase] at hroots
    exact s.managed.nonempty hroots.symm
  | cons root rest =>
    have hroot : root ∈ journal.roots := hcase ▸ mem_cons_self
    have hplaced := hplaces root hroot
    rw [hstate] at hplaced
    exact hcomplete root hroot (congrArg was_present hplaced.1)

/-- With all roots recorded and nothing restored or purged, all trees are in quarantine. -/
theorem Invariant.all_quarantined
    (hstate : journal.state = .Fenced ∨ journal.state = .Quarantining ∨
      journal.state = .Quarantined) :
    ∀ root ∈ journal.roots, Recorded s root none ∧ IsQuarantined s v root.relative_root := by
  intro root hroot
  have hplaced := (h.journal_roots hj).2 root hroot
  rcases hstate with hstate | hstate | hstate <;> rw [hstate] at hplaced
  · exact absurd hstate (h.ne_fenced hj hcomplete)
  · rcases hplaced with ⟨hnew, -⟩ | hplaced
    · exact absurd (congrArg was_present hnew) (hcomplete root hroot)
    · exact hplaced.2
  · exact hplaced

end

theorem meets_restore
    (haccepts : ∀ fence, (fenced → fence = true) → restores fence = true)
    (h : Good s fenced v) (hj : v.journal = some journal)
    (hcomplete : IsComplete journal) (hpurging : journal.state ≠ .Purging)
    (hpurged : journal.state ≠ .Purged)
    {Q : AgentResult ResourceLifecycleEvidence → Volume U → Prop} (hQ : ∀ v', Good s fenced v' →
      v'.journal = some (settled s .Restored false) →
      Q (aggregate_evidence s.blake3 s.start.marker (settled s .Restored false) false) v') :
    Meets (serving restores) (Keeps s fenced)
      (restore s.blake3 s.start.marker s.deletion).run Q v := by
  obtain ⟨hvalid, hplaces⟩ := h.invariant.journal_roots hj
  have hnew := h.invariant.ne_fenced hj hcomplete
  -- the work, from a state with all roots recorded
  have hwork : journal.state ≠ .Restored → (∀ root ∈ journal.roots, Placed s v .Restoring root) →
      Meets (serving restores) (Keeps s fenced) (do
          checked (check_inventory journal)
          put s.deletion { journal with state := .Restoring }
          let journal ← restore_roots s.blake3 s.start.marker s.deletion
            { journal with state := .Restoring } [] journal.roots
          ask .lifecycle_restore
          put s.deletion { journal with state := .Restored }
          checked (aggregate_evidence s.blake3 s.start.marker { journal with state := .Restored }
            false) : Program U ResourceLifecycleEvidence).run Q v := by
    intro hrestored hplaced
    have hbegun : Good s fenced
        { v with journal := some { journal with state := .Restoring } } :=
      ⟨h.invariant.put_state hj hplaced,
        fun hf => (h.fence hf).put hj hnew hrestored _⟩
    simp only [meets_seq, meets_checked, check_inventory_eq_ok.mpr hcomplete, then_ok]
    refine meets_put (validate_set_state hvalid _) hbegun ?_
    refine meets_restore_roots rfl rfl hbegun rfl (forall_mem_nil _) ?_
    intro v' hgood hj' _ hactive
    have haccepted : restores v'.fence = true :=
      haccepts v'.fence fun hf => hgood.fence hf _ hj' (by simp) (by simp)
    have hunfenced : Invariant s { v' with fence := false } :=
      hgood.invariant.set_fence false
    have hdone : Good s fenced
        { v' with fence := false, journal := some { journal with state := .Restored } } := by
      refine ⟨hunfenced.put_state hj' ?_, fun _ other hother _ hne => ?_⟩
      · exact fun root hroot => ⟨(hplaced root hroot).1, hactive root hroot⟩
      · obtain rfl := Option.some.inj hother
        exact absurd rfl hne
    simp only [then_ok]
    refine meets_ask ?_ ?_
    · simp only [answer, haccepted, if_true]
      exact ⟨hunfenced, fun _ => .inr rfl⟩
    · simp only [answer, haccepted, if_true, then_ok]
      refine meets_seq.mp (meets_settle (v := { v' with fence := false }) false hvalid
        (fun root hroot => (hplaced root hroot).1) hdone ?_)
      rintro _ hsettled rfl
      exact hQ _ hsettled rfl
  have hquarantined : journal.state = .Fenced ∨ journal.state = .Quarantining ∨
      journal.state = .Quarantined →
      ∀ root ∈ journal.roots, Placed s v .Restoring root := by
    intro hstate root hroot
    obtain ⟨hrecorded, hplaced⟩ :=
      h.invariant.all_quarantined hj hcomplete hstate root hroot
    exact ⟨hrecorded, .inr hplaced⟩
  unfold restore
  rw [meets_seq]
  refine meets_require_journal h.keeps h.invariant ?_ ?_
  · intro journal' hj'
    obtain rfl := Option.some.inj (hj.symm.trans hj')
    show Meets _ _ _ _ _
    cases hstate : journal.state with
    | Fenced => exact absurd hstate hnew
    | Quarantining =>
      exact hwork (by simp [hstate]) (hquarantined (.inr (.inl hstate)))
    | Quarantined =>
      exact hwork (by simp [hstate]) (hquarantined (.inr (.inr hstate)))
    | Restoring =>
      rw [hstate] at hplaces
      exact hwork (by simp [hstate]) hplaces
    | Restored =>
      rw [hstate] at hplaces
      have hsettled := eq_settled hstate hvalid false fun root hroot => (hplaces root hroot).1
      simp only
      rw [hsettled]
      exact hQ v h (hsettled ▸ hj)
    | Purging => exact absurd hstate hpurging
    | Purged => exact absurd hstate hpurged
  · intro hnone
    rw [hj] at hnone
    cases hnone

/-! ## Purge -/

theorem set_tree_set_tree (v : Volume U) (location : Location) (first second : Option Entry) :
    (v.set_tree location first).set_tree location second = v.set_tree location second := by
  simp [set_tree]

theorem set_tree_self {location : Location} {entry : Option Entry}
    (h : v.trees location = entry) : v.set_tree location entry = v := by
  rw [← h, set_tree, Function.update_eq_self]

/-- The purge of a root is under way: its evidence is recorded. -/
structure IsPurging (s : Setting U) (fenced : Prop)
    (root : FilesystemRootJournal U) (v : Volume U) : Prop where
  good : Good s fenced v
  journal : ∃ journal, v.journal = some journal ∧ journal.state = .Purging ∧ root ∈ journal.roots
  present : content s root.relative_root ≠ none
  recorded : Recorded s root (evidence s root.relative_root)
  active : v.trees (managed_components root.relative_root) = none
  parents : ∀ location ∈ ancestors (s.deletion.quarantine root.relative_root),
    v.directories location = true

theorem IsPurging.set_tree
    (h : IsPurging s fenced root v) {entry : Option Entry}
    (hentry : ∀ e, entry = some e → IsRemnant e) :
    IsPurging s fenced root
      (v.set_tree (s.deletion.quarantine root.relative_root) entry) := by
  obtain ⟨journal, hj, hstate, hroot⟩ := h.journal
  have hvalid := (h.good.invariant.journal_roots hj).1
  have hmem := mem_roots_of_validate hvalid hroot
  have hne := s.managed.active_ne_quarantined hmem root.relative_root
  have hactive : (v.set_tree (s.deletion.quarantine root.relative_root) entry).trees
      (managed_components root.relative_root) = none := by
    simpa [Volume.set_tree, hne] using h.active
  have hquarantined : (v.set_tree (s.deletion.quarantine root.relative_root) entry).trees
      (s.deletion.quarantine root.relative_root) = entry := by
    simp [Volume.set_tree]
  refine ⟨⟨?_, h.good.fence⟩, ⟨journal, hj, hstate, hroot⟩, h.present, h.recorded, hactive,
    h.parents⟩
  refine h.good.invariant.set_trees hj hmem ?_ ?_ fun _ => h.parents
  · intro location _ hsecond
    exact Function.update_of_ne hsecond _ _
  · intro root' hroot' hrelative
    rw [s.managed.eq_of_relative_root hvalid hroot' hroot hrelative, hstate]
    refine .inr ⟨h.present, h.recorded, hactive, fun e he => hentry e ?_⟩
    rw [← hquarantined]
    exact he

variable {tree : Entry}

/-- What a removal below the root of a tree leaves is again a part of the tree. -/
theorem IsRemnant.replace {path : List FileName}
    (h : IsRemnant tree) (hfind : tree.find path = some entry) {left : Entry}
    (hleft : tree.replace path none = some left) : IsRemnant left := by
  obtain ⟨⟨directory, rfl⟩, hleaves⟩ := h
  have hsubset := Node.leaves_replace hfind (by intro _ hnone; cases hnone) hleft
  refine ⟨?_, fun leaf hleaf => hleaves leaf (hsubset hleaf)⟩
  cases path with
  | nil => cases hleft
  | cons name rest =>
    simp only [Node.replace] at hleft
    split at hleft
    · exact ⟨_, (Option.some.inj hleft).symm⟩
    · exact ⟨_, (Option.some.inj hleft).symm⟩

theorem meets_remove (h : IsPurging s fenced root v)
    (htree : v.trees (s.deletion.quarantine root.relative_root) = some tree)
    (hremnant : IsRemnant tree) {path : List FileName} (hfind : tree.find path = some entry)
    (hempty : ∀ name first rest, entry ≠ .branch (.cons name first rest))
    {Q : AgentResult Unit → Volume U → Prop}
    (hQ : ∀ v', IsPurging s fenced root v' → v' = v.set_tree
      (s.deletion.quarantine root.relative_root) (tree.replace path none) → Q (.ok ()) v') :
    Meets (serving restores) (Keeps s fenced)
      (ask (.remove (s.deletion.quarantine root.relative_root) path)).run Q v := by
  have hremove : v.remove (s.deletion.quarantine root.relative_root) path =
      (.ok (), v.set_tree (s.deletion.quarantine root.relative_root) (tree.replace path none)) := by
    simp only [remove, htree, bind_some, hfind]
  have hpurging := h.set_tree (fun left hleft => hremnant.replace hfind hleft)
  refine meets_ask ?_ ?_
  · simp only [answer, hremove]
    exact hpurging.good.keeps _ _
  · simp only [answer, hremove]
    exact hQ _ hpurging rfl

mutual

/-- An entry is removed with all that is below it. -/
theorem meets_purge_entry :
    ∀ (entry : Entry) {v : Volume U} (_ : IsPurging s fenced root v)
      {tree : Entry} (_ : v.trees (s.deletion.quarantine root.relative_root) = some tree)
      (_ : IsRemnant tree) {path : List FileName} (_ : tree.find path = some entry)
      (_ : ∀ leaf ∈ entry.leaves, ∃ file, leaf.2 = Leaf.file file)
      {Q : AgentResult Unit → Volume U → Prop}
      (_ : ∀ v', IsPurging s fenced root v' → v' = v.set_tree
        (s.deletion.quarantine root.relative_root) (tree.replace path none) → Q (.ok ()) v'),
    Meets (serving restores) (Keeps s fenced) (purge_entry s.start.marker
        (s.deletion.quarantine root.relative_root) path entry).run Q v
  | .leaf (.file content), v, h, tree, htree, hremnant, path, hfind, _, Q, hQ => by
    rw [purge_entry, meets_seq]
    refine meets_verify h.good.keeps h.good.invariant ?_
    exact meets_remove h htree hremnant hfind nofun hQ
  | .leaf .symlink, v, h, tree, htree, hremnant, path, hfind, hleaves, Q, hQ => by
    obtain ⟨file, hfile⟩ := hleaves ([], .symlink) (by simp [Node.leaves])
    cases hfile
  | .leaf .special, v, h, tree, htree, hremnant, path, hfind, hleaves, Q, hQ => by
    obtain ⟨file, hfile⟩ := hleaves ([], .special) (by simp [Node.leaves])
    cases hfile
  | .branch directory, v, h, tree, htree, hremnant, path, hfind, hleaves, Q, hQ => by
    rw [purge_entry, meets_seq]
    refine meets_purge_entries directory h htree hremnant hfind hleaves ?_
    intro v' tree' hpurging hv' hremnant' hfind' hlast
    have htree' : v'.trees (s.deletion.quarantine root.relative_root) = some tree' := by
      rw [hv']
      simp [set_tree]
    show Meets _ _ _ _ _
    rw [meets_seq]
    refine meets_verify hpurging.good.keeps hpurging.good.invariant ?_
    refine meets_remove hpurging htree' hremnant' hfind' nofun ?_
    intro v'' hpurging' hv''
    refine hQ v'' hpurging' ?_
    rw [hv'', hv', set_tree_set_tree, hlast]

theorem meets_purge_entries :
    ∀ (directory : Directory) {v : Volume U} (_ : IsPurging s fenced root v)
      {tree : Entry} (_ : v.trees (s.deletion.quarantine root.relative_root) = some tree)
      (_ : IsRemnant tree) {path : List FileName} (_ : tree.find path = some (.branch directory))
      (_ : ∀ leaf ∈ directory.leaves, ∃ file, leaf.2 = Leaf.file file)
      {Q : AgentResult Unit → Volume U → Prop}
      (_ : ∀ v' tree', IsPurging s fenced root v' → v' = v.set_tree
        (s.deletion.quarantine root.relative_root) (some tree') → IsRemnant tree' →
        tree'.find path = some (.branch .nil) →
        (∀ last, tree'.replace path last = tree.replace path last) → Q (.ok ()) v'),
    Meets (serving restores) (Keeps s fenced)
      (purge_entries s.start.marker (s.deletion.quarantine root.relative_root) path
        directory).run Q v
  | .nil, v, h, tree, htree, hremnant, path, hfind, _, Q, hQ => by
    exact hQ v tree h (set_tree_self htree).symm hremnant hfind fun _ => rfl
  | .cons name entry rest, v, h, tree, htree, hremnant, path, hfind, hleaves, Q, hQ => by
    obtain ⟨hfirst, hremoved⟩ := Node.replace_first hfind
    obtain ⟨tree₁, hreplace₁, hfind₁, hlast₁⟩ := Node.exists_replace (.branch rest) hfind
    have hremnant₁ : IsRemnant tree₁ := hremnant.replace hfirst (hremoved.trans hreplace₁)
    rw [purge_entries, meets_seq]
    refine meets_purge_entry entry h htree hremnant hfirst ?_ ?_
    · intro leaf hleaf
      obtain ⟨file, hfile⟩ := hleaves (Trees.under name leaf)
        (mem_append_left _ (List.mem_map_of_mem hleaf))
      exact ⟨file, hfile⟩
    · intro v' hpurging hv'
      rw [hremoved, hreplace₁] at hv'
      have htree₁ : v'.trees (s.deletion.quarantine root.relative_root) = some tree₁ := by
        rw [hv']
        simp [set_tree]
      refine meets_purge_entries rest hpurging htree₁ hremnant₁ hfind₁
        (fun leaf hleaf => hleaves leaf (mem_append_right _ hleaf)) ?_
      intro v'' tree₂ hpurging₂ hv'' hremnant₂ hfind₂ hlast₂
      refine hQ v'' tree₂ hpurging₂ ?_ hremnant₂ hfind₂ fun last =>
        (hlast₂ last).trans (hlast₁ last)
      rw [hv'', hv', set_tree_set_tree]

end

theorem meets_purge_tree (h : IsPurging s fenced root v)
    (htree : v.trees (s.deletion.quarantine root.relative_root) = some tree)
    (hremnant : IsRemnant tree) {Q : AgentResult Unit → Volume U → Prop}
    (hQ : ∀ v', IsPurging s fenced root v' → v' = v.set_tree
      (s.deletion.quarantine root.relative_root) none → Q (.ok ()) v') :
    Meets (serving restores) (Keeps s fenced)
      (purge_tree s.start.marker (s.deletion.quarantine root.relative_root)).run Q v := by
  have hresolved := resolve_eq fun _ => h.parents
  obtain ⟨⟨directory, rfl⟩, hleaves⟩ := id hremnant
  unfold purge_tree
  rw [meets_seq]
  refine meets_ask (h.good.keeps _ _) ?_
  simp only [answer, then_ok, hresolved, htree]
  exact meets_purge_entry _ h htree hremnant rfl hleaves hQ

theorem isRemnant_of_scan {root : LogicalPath U} {found : TreeEvidence}
    (h : scan_tree s.blake3 entry root = .ok found) : IsRemnant entry := by
  obtain ⟨directory, rfl, hscannable, -, -⟩ := scan_tree_eq_ok.mp h
  exact ⟨⟨directory, rfl⟩, hscannable.ordinary_leaves⟩

/-- The evidence of a tree is recorded, if that has not been done before. -/
theorem meets_record_purge (hstate : journal.state = .Purging)
    {done rest : List (FilesystemRootJournal U)} (h : Good s fenced v)
    (hj : v.journal = some { journal with roots := done ++ root :: rest })
    (htree : v.trees (s.deletion.quarantine root.relative_root) = some tree)
    (hpath : quarantine_path s.deletion root.relative_root = .ok path)
    {Q : AgentResult (FilesystemRootJournal U) → Volume U → Prop}
    (hQ : ∀ root' v', IsPurging s fenced root' v' →
      root'.relative_root = root.relative_root → IsRemnant tree →
      v' = { v with journal := some { journal with roots := done ++ root' :: rest } } →
      Q (.ok root') v') :
    Meets (serving restores) (Keeps s fenced)
      (record_purge s.blake3 s.deletion journal done root rest path).run Q v := by
  obtain ⟨hvalid, hplaces⟩ := h.invariant.journal_roots hj
  have hroot : root ∈ done ++ root :: rest := mem_append_right _ mem_cons_self
  have hmem := mem_roots_of_validate hvalid hroot
  have hparents := h.invariant.parents root.relative_root hmem (by rw [htree]; nofun)
  have hplaced := hplaces root hroot
  simp only [hstate] at hplaced
  unfold record_purge
  rcases hplaced with ⟨hrecorded, hquarantined⟩ | ⟨hpresent, hrecorded, hactive, hremnant⟩
  · have hentry := hquarantined.2.symm.trans htree
    obtain ⟨found, hfound⟩ := hrecorded.1.2 tree hentry
    have hevidence := evidence_of_scan hentry hfound
    have hpresent : content s root.relative_root ≠ none := by rw [hentry]; nofun
    have hrecorded' : Recorded s { root with purge_evidence := some found }
        (evidence s root.relative_root) := by
      refine ⟨hrecorded.1, ?_⟩
      rw [hevidence, ← hevidence]
      obtain ⟨relative_root, was_present, quarantine_evidence, purge_evidence⟩ := root
      have heq := hrecorded.2
      simp only [FilesystemRootJournal.mk.injEq, true_and] at heq
      simp [heq.1, heq.2.1]
    have hrelative :
      ({ root with purge_evidence := some found } : FilesystemRootJournal U).relative_root
        = root.relative_root := rfl
    have hput := h.put_root hj hrelative (by rw [hstate]; nofun) (by rw [hstate]; nofun) (by
        rw [hstate]
        refine .inr ⟨hpresent, hrecorded', hquarantined.1, fun entry hentry' => ?_⟩
        obtain rfl := Option.some.inj (htree.symm.trans hentry')
        exact isRemnant_of_scan hfound)
      (fun _ => hparents)
    simp only [hrecorded.purge_evidence, meets_seq]
    rw [quarantine_path_eq_ok hpath]
    refine meets_scan_at h ((h.invariant.resolve_quarantined hmem).trans htree) ?_
    rw [hfound]
    refine meets_put (validate_replace hvalid hrelative) hput ?_
    refine hQ _ _ ⟨hput, ⟨_, rfl, hstate, ?_⟩, hpresent, hrecorded', hquarantined.1, hparents⟩ rfl
      (isRemnant_of_scan hfound) rfl
    exact mem_append_right _ mem_cons_self
  · obtain ⟨tree', htree'⟩ := ne_none_iff_exists'.mp hpresent
    obtain ⟨found, hfound⟩ := hrecorded.1.2 tree' htree'
    simp only [hrecorded.purge_evidence, evidence_of_scan htree' hfound]
    refine hQ root v ⟨h, ⟨_, hj, hstate, hroot⟩, hpresent, hrecorded, hactive, hparents⟩ rfl
      (hremnant tree htree) ?_
    rw [← hj]

/-- Nothing is left of the root, and the journal says so. -/
def IsPurged (s : Setting U) (root : FilesystemRootJournal U) (v : Volume U) : Prop :=
  Recorded s root (evidence s root.relative_root) ∧
    v.trees (managed_components root.relative_root) = none ∧
    v.trees (s.deletion.quarantine root.relative_root) = none

/-- The loop: nothing is left of the roots that are done. -/
theorem meets_purge_roots (hstate : journal.state = .Purging)
    (h : Good s fenced v) (hj : v.journal = some { journal with roots := done ++ todo })
    (hdone : ∀ root ∈ done, IsPurged s root v) (hQ : ∀ roots v', Good s fenced v' →
      v'.journal = some { journal with roots } →
      (∀ root ∈ roots, IsPurged s root v') → Q (.ok { journal with roots }) v') :
    Meets (serving restores) (Keeps s fenced)
      (purge_roots s.blake3 s.start.marker s.deletion journal done todo).run Q v := by
  induction todo generalizing done v with
  | nil =>
    rw [append_nil] at hj
    exact hQ done v h hj hdone
  | cons root rest ih =>
    obtain ⟨hvalid, hplaces⟩ := h.invariant.journal_roots hj
    have hroot : root ∈ done ++ root :: rest := mem_append_right _ mem_cons_self
    have hmem := mem_roots_of_validate hvalid hroot
    have hplaced := hplaces root hroot
    simp only [hstate] at hplaced
    -- the loop goes on with one more root of which nothing is left
    have hnext : ∀ root' v', Good s fenced v' →
        v'.journal = some { journal with roots := done ++ root' :: rest } →
        (∀ location, v.trees location = none → v'.trees location = none) →
        IsPurged s root' v' →
        Meets (serving restores) (Keeps s fenced)
          (purge_roots s.blake3 s.start.marker s.deletion journal (done ++
            [root']) rest).run Q v' := by
      intro root' v' hgood hj' hnone hpurged
      refine ih hgood (by rw [hj', append_assoc]; rfl) ?_
      intro other hother
      rcases mem_append.mp hother with hother | hother
      · obtain ⟨hrecorded, hactive, hquarantined⟩ := hdone other hother
        exact ⟨hrecorded, hnone _ hactive, hnone _ hquarantined⟩
      · rw [mem_singleton.mp hother]
        exact hpurged
    rw [purge_roots]
    by_cases habsent : content s root.relative_root = none
    · obtain ⟨hrecorded, hquarantined⟩ := hplaced.resolve_right fun hright => hright.1 habsent
      rw [if_pos (by rw [hrecorded.was_present, habsent]; rfl)]
      refine hnext root v h hj (fun _ => id) ⟨?_, hquarantined.1, ?_⟩
      · rw [evidence_of_absent habsent]
        exact hrecorded
      · exact hquarantined.2.trans habsent
    · obtain ⟨tree, htree⟩ := ne_none_iff_exists'.mp habsent
      have hcan : CanQuarantine s root.relative_root := by
        rcases hplaced with hleft | hright
        · exact hleft.1.1
        · exact hright.2.1.1
      have hwas : root.was_present = some true := by
        rcases hplaced with hleft | hright
        · rw [hleft.1.was_present, htree]; rfl
        · rw [hright.2.1.was_present, htree]; rfl
      obtain ⟨path, hpath⟩ := hcan.1
      have hresolved := h.invariant.resolve_quarantined hmem
      rw [if_neg (by rw [hwas]; decide)]
      simp only [meets_seq, meets_checked, hpath, then_ok]
      rw [quarantine_path_eq_ok hpath]
      refine meets_ask (h.keeps _ _) ?_
      simp only [answer, then_ok, hresolved]
      cases hq : v.trees (s.deletion.quarantine root.relative_root) with
      | some entry =>
        simp only [meets_seq]
        refine meets_record_purge hstate h hj hq hpath ?_
        rintro root' v' hpurging hrelative hremnant rfl
        rw [← hrelative] at hq ⊢
        refine meets_purge_tree hpurging hq hremnant ?_
        rintro v' hpurging' rfl
        refine hnext root' _ hpurging'.good rfl ?_ ⟨hpurging'.recorded, hpurging'.active, ?_⟩
        · intro location hnone
          by_cases hlocation : location = s.deletion.quarantine root'.relative_root
          · simp [set_tree, hlocation]
          · simpa [set_tree, hlocation] using hnone
        · simp [set_tree]
      | none =>
        obtain ⟨-, hrecorded, hactive, -⟩ := hplaced.resolve_left fun hleft =>
          habsent (hleft.2.2.symm.trans hq)
        obtain ⟨found, hfound⟩ := hcan.2 tree htree
        simp only [hrecorded.purge_evidence, evidence_of_scan htree hfound]
        exact hnext root v h hj (fun _ => id) ⟨hrecorded, hactive, hq⟩

/-- A whole purge, from a state in which it is neither refused nor destroys restored data. -/
theorem meets_purge (h : Good s fenced v)
    (hj : v.journal = some journal) (hcomplete : IsComplete journal)
    (hrestoring : journal.state ≠ .Restoring) (hrestored : journal.state ≠ .Restored)
    {Q : AgentResult ResourceLifecycleEvidence → Volume U → Prop} (hQ : ∀ v', Good s fenced v' →
      v'.journal = some (settled s .Purged true) →
      Q (aggregate_evidence s.blake3 s.start.marker (settled s .Purged true) true) v') :
    Meets (serving restores) (Keeps s fenced)
      (purge s.blake3 s.start.marker s.deletion).run Q v := by
  obtain ⟨hvalid, hplaces⟩ := h.invariant.journal_roots hj
  have hnew := h.invariant.ne_fenced hj hcomplete
  -- the work, from a state with all roots recorded
  have hwork : (∀ root ∈ journal.roots, Placed s v .Purging root) →
      Meets (serving restores) (Keeps s fenced) (do
          checked (check_inventory journal)
          ask .lifecycle_purge
          put s.deletion { journal with state := .Purging }
          let journal ← purge_roots s.blake3 s.start.marker s.deletion
            { journal with state := .Purging }
            [] journal.roots
          put s.deletion { journal with state := .Purged }
          checked (aggregate_evidence s.blake3 s.start.marker { journal with state := .Purged }
            true) : Program U ResourceLifecycleEvidence).run Q v := by
    intro hplaced
    have hfenced : Good s fenced { v with fence := true } :=
      ⟨h.invariant.set_fence true, fun _ _ _ _ _ => rfl⟩
    have hbegun : Good s fenced
        { v with fence := true, journal := some { journal with state := .Purging } } :=
      ⟨hfenced.invariant.put_state hj hplaced, fun _ _ _ _ _ => rfl⟩
    simp only [meets_seq, meets_checked, check_inventory_eq_ok.mpr hcomplete, then_ok]
    refine meets_ask (hfenced.keeps _ _) ?_
    simp only [answer, then_ok]
    refine meets_put (validate_set_state hvalid _) hbegun ?_
    refine meets_purge_roots rfl hbegun rfl (forall_mem_nil _) ?_
    intro roots v' hgood hj' hall
    have hvalid' := (hgood.invariant.journal_roots hj').1
    have hdone : Good s fenced
        { v' with journal := some { journal with state := .Purged, roots } } :=
      ⟨hgood.invariant.put_state hj' hall, fun hf =>
        (hgood.fence hf).put hj' (by simp) (by simp) _⟩
    simp only [then_ok]
    refine meets_seq.mp (meets_settle true hvalid' (fun root hroot => (hall root hroot).1) hdone ?_)
    rintro _ hsettled rfl
    exact hQ _ hsettled rfl
  unfold purge
  rw [meets_seq]
  refine meets_require_journal h.keeps h.invariant ?_ ?_
  · intro journal' hj'
    obtain rfl := Option.some.inj (hj.symm.trans hj')
    show Meets _ _ _ _ _
    cases hstate : journal.state with
    | Fenced => exact absurd hstate hnew
    | Quarantining =>
      exact hwork fun root hroot => .inl
        (h.invariant.all_quarantined hj hcomplete (.inr (.inl hstate)) root hroot)
    | Quarantined =>
      exact hwork fun root hroot => .inl
        (h.invariant.all_quarantined hj hcomplete (.inr (.inr hstate)) root hroot)
    | Restoring => exact absurd hstate hrestoring
    | Restored => exact absurd hstate hrestored
    | Purging =>
      rw [hstate] at hplaces
      exact hwork hplaces
    | Purged =>
      rw [hstate] at hplaces
      have hsettled := eq_settled hstate hvalid true fun root hroot => (hplaces root hroot).1
      simp only
      rw [hsettled]
      exact hQ v h (hsettled ▸ hj)
  · intro hnone
    rw [hj] at hnone
    cases hnone

end NeoEngram.Agent

import NeoEngram.Agent.LifecycleCommands
import NeoEngram.Core.Concrete

/-! # Lifecycle commands can be repeated

A command that is repeated after any number of interruptions ends as one that
was never interrupted: with the same result, trees, directories and journal.
-/

namespace NeoEngram.Agent

open Checks Effects Framing OrderedKeys List Option
open Trees (Node Tree)

variable {U : UnicodeTables} {s : Setting U} {v w : Volume U}
variable {fenced : Prop} {restores : Bool → Bool}

/-! ## Determined ends -/

section

variable (hv : Invariant s v) (hw : Invariant s w)

include hv hw

theorem trees_ext
    (h : ∀ root ∈ s.deletion.roots,
      v.trees (managed_components root) = w.trees (managed_components root) ∧
      v.trees (s.deletion.quarantine root) = w.trees (s.deletion.quarantine root)) :
    v.trees = w.trees := by
  funext location
  by_cases hlocation : ∀ root ∈ s.deletion.roots, location ≠ managed_components root ∧
      location ≠ s.deletion.quarantine root
  · rw [hv.others location hlocation, hw.others location hlocation]
  · push Not at hlocation
    obtain ⟨root, hroot, hlocation⟩ := hlocation
    by_cases hactive : location = managed_components root
    · rw [hactive]
      exact (h root hroot).1
    · rw [hlocation hactive]
      exact (h root hroot).2

/-- All the directories exist that a quarantine creates. -/
def HasDirectories (s : Setting U) (v : Volume U) : Prop :=
  ∀ root ∈ s.deletion.roots, IsTried s root →
    ∀ location ∈ ancestors (s.deletion.quarantine root), v.directories location = true

theorem directories_subset (hhas : HasDirectories s w)
    {location : Location} (h : v.directories location = true) : w.directories location = true := by
  rcases hv.created location h with hstart | ⟨root, hroot, htried, hlocation⟩
  · exact hw.kept location hstart
  · exact hhas root hroot htried location hlocation

theorem directories_ext (hhasv : HasDirectories s v)
    (hhasw : HasDirectories s w) : v.directories = w.directories := by
  funext location
  rw [Bool.eq_iff_iff]
  exact ⟨directories_subset hv hw hhasw, directories_subset hw hv hhasv⟩

end

/-- The files of two volumes are the same, apart from the fence. -/
structure SameFiles (v w : Volume U) : Prop where
  trees : v.trees = w.trees
  directories : v.directories = w.directories
  journal : v.journal = w.journal

variable {root : LogicalPath U} {action : ResourceLifecycleAction}

theorem mem_ended (s : Setting U) (hroot : root ∈ s.deletion.roots)
    (action : ResourceLifecycleAction) :
    ∃ entry ∈ (ended s action).roots, entry.relative_root = root ∧
      entry.was_present = some (content s root).isSome := by
  cases action <;> exact ⟨_, mem_map_of_mem hroot, rfl, rfl⟩

section

variable (hv : Invariant s v) (hj : v.journal = some (ended s action))

include hv hj

theorem hasDirectories_of_ended : HasDirectories s v := by
  rintro root hroot ⟨-, hpresent, -⟩
  obtain ⟨entry, hentry, rfl, hwas⟩ := mem_ended s hroot action
  refine hv.recorded _ hj entry hentry ?_
  rw [hwas, isSome_iff_ne_none.mpr hpresent]

/-- Where the tree of a root is at the end of an action. -/
def EndedAt (s : Setting U) (v : Volume U) (root : LogicalPath U) :
    ResourceLifecycleAction → Prop
  | .Quarantine => IsQuarantined s v root
  | .Restore => IsActive s v root
  | .Purge => v.trees (managed_components root) = none ∧ v.trees (s.deletion.quarantine root) = none

theorem endedAt_of_ended (hroot : root ∈ s.deletion.roots) :
    CanQuarantine s root ∧ EndedAt s v root action := by
  obtain ⟨entry, hentry, rfl, -⟩ := mem_ended s hroot action
  have hplaced := (hv.journal_roots hj).2 entry hentry
  cases action <;> exact ⟨hplaced.1.1, hplaced.2⟩

end

theorem sameFiles_of_ended (hv : Invariant s v) (hw : Invariant s w)
    (hvjournal : v.journal = some (ended s action))
    (hwjournal : w.journal = some (ended s action)) : SameFiles v w := by
  refine ⟨trees_ext hv hw fun root hroot => ?_, directories_ext hv hw
    (hasDirectories_of_ended hv hvjournal) (hasDirectories_of_ended hw hwjournal),
    hvjournal.trans hwjournal.symm⟩
  have hvplace := (endedAt_of_ended hv hvjournal hroot).2
  have hwplace := (endedAt_of_ended hw hwjournal hroot).2
  cases action <;>
    exact ⟨hvplace.1.trans hwplace.1.symm, hvplace.2.trans hwplace.2.symm⟩

/-! ### A quarantine that stops -/

theorem Refuses.unique {error error' : AgentError} (h : Refuses s root error)
    (h' : Refuses s root error') : error = error' := by
  rcases h with h | ⟨⟨path, h⟩, entry, hentry, hrefused⟩
  · rcases h' with h' | ⟨⟨path', h'⟩, -⟩
    · exact Except.error.inj (h.symm.trans h')
    · cases h.symm.trans h'
  · rcases h' with h' | ⟨-, entry', hentry', hrefused'⟩
    · cases h.symm.trans h'
    · obtain rfl := some.inj (hentry.symm.trans hentry')
      exact Except.error.inj (hrefused.symm.trans hrefused')

/-- The first root that cannot be quarantined is determined. -/
theorem split_unique {α : Type} {P : α → Prop} {done done' rest rest' : List α} {root root' : α}
    (heq : done ++ root :: rest = done' ++ root' :: rest')
    (hdone : ∀ other ∈ done, P other) (hroot : ¬ P root) (hdone' : ∀ other ∈ done', P other)
    (hroot' : ¬ P root') : done = done' ∧ root = root' ∧ rest = rest' := by
  induction done generalizing done' with
  | nil =>
    cases done' with
    | nil => exact ⟨rfl, cons.inj heq⟩
    | cons first others =>
      obtain ⟨rfl, -⟩ := cons.inj heq
      exact absurd (hdone' _ mem_cons_self) hroot
  | cons first others ih =>
    cases done' with
    | nil =>
      obtain ⟨rfl, -⟩ := cons.inj heq
      exact absurd (hdone _ mem_cons_self) hroot'
    | cons first' others' =>
      obtain ⟨rfl, htail⟩ := cons.inj heq
      obtain ⟨rfl, hrest⟩ := ih htail (fun other hother => hdone other (mem_cons_of_mem _ hother))
        (fun other hother => hdone' other (mem_cons_of_mem _ hother))
      exact ⟨rfl, hrest⟩

/-- The journal of a quarantine that has stopped. -/
def halted_journal (s : Setting U)
    (done todo : List (LogicalPath U)) : FilesystemLifecycleJournal U :=
  ⟨FILESYSTEM_JOURNAL_FORMAT, s.deletion.deletion_id, s.deletion.tenant_id,
    s.deletion.resource_scope,
    s.deletion.request_digest, .Quarantining,
    done.map (fun root => ⟨root, some (content s root).isSome, evidence s root,
      none⟩) ++ todo.map fun root => ⟨root, none, none, none⟩⟩

/-- A quarantine that has stopped has dealt with the roots before, and has not touched the
others. -/
structure HaltedAt (s : Setting U) (v : Volume U)
    (done : List (LogicalPath U)) (root : LogicalPath U) (rest : List (LogicalPath U)) : Prop where
  roots : s.deletion.roots = done ++ root :: rest
  canQuarantine : ∀ other ∈ done, CanQuarantine s other
  journal : v.journal = some (halted_journal s done (root :: rest))
  quarantined : ∀ other ∈ done, IsQuarantined s v other
  active : ∀ other ∈ root :: rest, IsActive s v other
  directories : HasDirectories s v

variable {error : AgentError}

/-- After a root that cannot be quarantined, none is reached. -/
theorem not_isReached {done rest : List (LogicalPath U)} {root other : LogicalPath U}
    (hroots : s.deletion.roots = done ++ root :: rest)
    (hroot : ¬ CanQuarantine s root) (hother : other ∈ rest) :
    ¬ IsReached s other := by
  intro hreached
  obtain ⟨before, after, rfl⟩ := append_of_mem hother
  refine hroot (hreached (done ++ root :: before) after ?_ root ?_)
  · rw [hroots, append_assoc]
    rfl
  · exact mem_append_right _ mem_cons_self

theorem Halted.haltedAt (hv : Invariant s v) (h : Halted s error v) :
    ∃ done root rest, HaltedAt s v done root rest ∧ Refuses s root error := by
  obtain ⟨journal, done, root, rest, hj, hstate, hentries, hdone, hrefuses, hdirectories⟩ := h
  obtain ⟨hvalid, hplaces⟩ := hv.journal_roots hj
  have hcannot : ¬ CanQuarantine s root.relative_root :=
    hrefuses.not_canQuarantine
  have hroots := roots_of_validate hvalid
  rw [hentries, map_append, map_cons] at hroots
  rw [hstate, hentries] at hplaces
  -- the root is not quarantined, and the others are not reached
  have hactive : ∀ entry ∈ root :: rest, entry = ⟨entry.relative_root, none, none, none⟩ ∧
      IsActive s v entry.relative_root := by
    intro entry hentry
    have hcase : ¬ (IsReached s entry.relative_root ∧ CanQuarantine s entry.relative_root) := by
      rcases mem_cons.mp hentry with rfl | hrest
      · exact fun hboth => hcannot hboth.2
      · exact fun hboth => not_isReached hroots.symm hcannot (mem_map_of_mem hrest) hboth.1
    rcases hplaces entry (mem_append_right _ hentry) with ⟨hnew, hplace⟩ | hright
    · refine ⟨hnew, hplace.resolve_right fun hleft => hcase ⟨hleft.1, hleft.2.1⟩⟩
    · exact absurd ⟨hright.1, hright.2.1.1⟩ hcase
  refine ⟨done.map (·.relative_root), root.relative_root, rest.map (·.relative_root),
    ⟨hroots.symm, ?_, ?_, ?_, ?_, ?_⟩, hrefuses⟩
  · intro other hother
    obtain ⟨entry, hentry, rfl⟩ := mem_map.mp hother
    exact (hdone entry hentry).1
  · rw [hj]
    have hfirst : (done.map (·.relative_root)).map (fun root => (⟨root,
        some (content s root).isSome, evidence s root, none⟩ :
          FilesystemRootJournal U)) = done := by
      rw [List.map_map]
      refine (map_congr_left fun entry hentry => ?_).trans (map_id _)
      exact (hdone entry hentry).2.symm
    have hsecond : ((root :: rest).map (·.relative_root)).map (fun root => (⟨root, none, none,
        none⟩ : FilesystemRootJournal U)) = root :: rest := by
      rw [List.map_map]
      refine (map_congr_left fun entry hentry => ?_).trans (map_id _)
      exact (hactive entry hentry).1.symm
    rw [halted_journal, ← map_cons, hfirst, hsecond, ← hentries, ← hstate]
    obtain ⟨hformat, hid, htenant, hscope, hdigest, -⟩ := ensure_eq_ok.mp hvalid
    rw [← hformat, ← hid, ← htenant, ← hscope, ← hdigest]
  · intro other hother
    obtain ⟨entry, hentry, rfl⟩ := mem_map.mp hother
    have hplaced := hplaces entry (mem_append_left _ hentry)
    exact hplaced.quarantined (hdone entry hentry)
  · rw [← map_cons]
    intro other hother
    obtain ⟨entry, hentry, rfl⟩ := mem_map.mp hother
    exact (hactive entry hentry).2
  · intro other hother htried
    rw [← hroots, ← map_cons, ← map_append] at hother
    obtain ⟨entry, hentry, rfl⟩ := mem_map.mp hother
    rcases mem_append.mp hentry with hbefore | hafter
    · refine hv.recorded journal hj entry (hentries ▸ hentry) ?_
      rw [(hdone entry hbefore).was_present, isSome_iff_ne_none.mpr htried.2.1]
    · rcases mem_cons.mp hafter with rfl | hrest
      · exact hdirectories htried
      · exact absurd htried.1 (not_isReached hroots.symm hcannot (mem_map_of_mem hrest))

theorem sameFiles_of_halted {error error' : AgentError} (hv : Invariant s v)
    (hw : Invariant s w) (hvhalted : Halted s error v)
    (hwhalted : Halted s error' w) : error = error' ∧ SameFiles v w := by
  obtain ⟨done, root, rest, hat, hrefuses⟩ := hvhalted.haltedAt hv
  obtain ⟨done', root', rest', hat', hrefuses'⟩ := hwhalted.haltedAt hw
  obtain ⟨rfl, rfl, rfl⟩ := split_unique (hat.roots.symm.trans hat'.roots) hat.canQuarantine
    hrefuses.not_canQuarantine hat'.canQuarantine hrefuses'.not_canQuarantine
  refine ⟨hrefuses.unique hrefuses', trees_ext hv hw fun other hother => ?_,
    directories_ext hv hw hat.directories hat'.directories, hat.journal.trans hat'.journal.symm⟩
  rw [hat.roots] at hother
  rcases mem_append.mp hother with hbefore | hafter
  · have hplace := hat.quarantined other hbefore
    have hplace' := hat'.quarantined other hbefore
    exact ⟨hplace.1.trans hplace'.1.symm, hplace.2.trans hplace'.2.symm⟩
  · have hplace := hat.active other hafter
    have hplace' := hat'.active other hafter
    exact ⟨hplace.1.trans hplace'.1.symm, hplace.2.trans hplace'.2.symm⟩

/-- A quarantine does not stop if it can deal with every root. -/
theorem Halted.exists_refused (hv : Invariant s v) (h : Halted s error v) :
    ∃ root ∈ s.deletion.roots, ¬ CanQuarantine s root := by
  obtain ⟨done, root, rest, hat, hrefuses⟩ := h.haltedAt hv
  exact ⟨root, hat.roots ▸ mem_append_right _ mem_cons_self, hrefuses.not_canQuarantine⟩

/-! ## Attempts -/

abbrev hooked : Env (Call U) Call.Answer (Volume U) := Env.of (Volume.answer fun _ => true)

theorem Same.trans {u : Volume U} (h : Same s.deletion u v) (h' : Same s.deletion v w) :
    Same s.deletion u w := by
  refine ⟨h'.marker.trans h.marker, h'.trees.trans h.trees, h'.directories.trans h.directories, ?_,
    ?_⟩
  · rcases h'.journal with hsame | ⟨hnone, hnew⟩
    · rw [hsame]
      exact h.journal
    · rcases h.journal with hsame' | ⟨-, hnew'⟩
      · exact .inr ⟨hsame' ▸ hnone, hnew⟩
      · rw [hnew'] at hnone
        cases hnone
  · rcases h'.fence with hsame | htrue
    · rw [hsame]
      exact h.fence
    · exact .inr htrue

def run_command (s : Setting U) (action : ResourceLifecycleAction) (v : Volume U) :
    Volume U × AgentResult ResourceLifecycleEvidence :=
  ((s.command action).run_with (Volume.answer fun _ => true) v).2

theorem run_refused (h : Good s fenced v)
    (hrefused : refusal action (prepared_journal s.deletion action v.journal) = some error) :
    run_command s action v = (prepared s.deletion action v, .error error) := by
  have hmeets : Meets hooked (fun _ _ _ _ => True) (s.command action)
      (fun r w => w = prepared s.deletion action v ∧ r = .error error) v :=
    meets_command_refused (fun _ _ _ _ _ _ => trivial) h hrefused ⟨rfl, rfl⟩
  exact Prod.ext hmeets.run_with.1 hmeets.run_with.2

/-- How a command ends that is not refused. -/
def Finished (s : Setting U)
    (action : ResourceLifecycleAction) (r : AgentResult ResourceLifecycleEvidence) (v : Volume U) :
    Prop :=
  Invariant s v ∧ ((action = .Quarantine ∧ ∃ error, r = .error error ∧ Halted s error v) ∨
      (r = report s ∧ v.journal = some (ended s action)))

variable {trace : List (Event (Call U) Call.Answer (Volume U))}

theorem Finished.unique {r r' : AgentResult ResourceLifecycleEvidence} (h : Finished s action r v)
    (h' : Finished s action r' w) : r = r' ∧ SameFiles v w := by
  obtain ⟨hv, ⟨-, error, rfl, hhalted⟩ | ⟨rfl, hended⟩⟩ := h
  · obtain ⟨hw, ⟨-, error', rfl, hhalted'⟩ | ⟨rfl, hended'⟩⟩ := h'
    · obtain ⟨rfl, hsame⟩ := sameFiles_of_halted hv hw hhalted hhalted'
      exact ⟨rfl, hsame⟩
    · obtain ⟨root, hroot, hcannot⟩ := hhalted.exists_refused hv
      exact absurd (endedAt_of_ended hw hended' hroot).1 hcannot
  · obtain ⟨hw, ⟨-, error', rfl, hhalted'⟩ | ⟨rfl, hended'⟩⟩ := h'
    · obtain ⟨root, hroot, hcannot⟩ := hhalted'.exists_refused hw
      exact absurd (endedAt_of_ended hv hended hroot).1 hcannot
    · exact ⟨rfl, sameFiles_of_ended hv hw hended hended'⟩

theorem meets_finished
    (h : Invariant s v) (hallowed : Allowed s.deletion action v) :
    Meets hooked (Keeps s False) (s.command action) (Finished s action) v := by
  refine meets_command (fun _ _ => rfl) ⟨h, False.elim⟩ hallowed ?_ ?_
  · exact fun error v' haction hgood hhalted =>
      ⟨hgood.invariant, .inl ⟨haction, error, rfl, hhalted⟩⟩
  · exact fun v' hgood hj => ⟨hgood.invariant, .inr ⟨rfl, hj⟩⟩

/-- **Run**: attempts of a command that is not refused leave the volume so that it is not refused
again. -/
theorem attempts_allowed
    (hattempts : Attempts hooked (fun _ : Unit => s.command action) v trace w)
    (h : Invariant s v) (hallowed : Allowed s.deletion action v) :
    Invariant s w ∧ Allowed s.deletion action w := by
  induction hattempts with
  | none => exact ⟨h, hallowed⟩
  | more hexec _ ih =>
    have hmeets := meets_finished h hallowed
    have hnext := hexec.keeps (I := Invariant s) (fun e he _ => ((hmeets.exec hexec).1 e he).1) h
    exact ih hnext (hallowed.of_written hnext (written_of_exec h hexec))

theorem Same.prepared_journal_eq (h : Same s.deletion v w) (hrestore : action = .Restore → w = v) :
    prepared_journal s.deletion action w.journal =
      prepared_journal s.deletion action v.journal := by
  cases action with
  | Restore => rw [hrestore rfl]
  | _ =>
    rcases h.journal with hsame | ⟨hnone, hnew⟩
    · rw [hsame]
    · rw [hnone, hnew]
      rfl

/-- **Run**: attempts of a refused command leave everything the same. -/
theorem attempts_refused
    (hattempts : Attempts hooked (fun _ : Unit => s.command action) v trace w)
    (h : Good s fenced v)
    (hrefused : refusal action (prepared_journal s.deletion action v.journal) = some error) :
    Same s.deletion v w ∧ (action = .Restore → w = v) := by
  induction hattempts with
  | none => exact ⟨.refl _, fun _ => rfl⟩
  | @more v _ w _ _ _ _ hexec _ ih =>
    have hmeets : Meets hooked (fun _ _ _ w => Same s.deletion v w ∧ (action = .Restore → w = v))
        (s.command action) (fun _ _ => True) v :=
      meets_command_refused (fun _ _ _ _ hsame hrestore => ⟨hsame, hrestore⟩) h hrefused trivial
    obtain ⟨hsame, hrestore⟩ := hexec.keeps
      (I := fun w => Same s.deletion v w ∧ (action = .Restore → w = v))
      (fun e he _ => (hmeets.exec hexec).1 e he) ⟨.refl v, fun _ => rfl⟩
    rw [← hsame.prepared_journal_eq hrestore] at hrefused
    obtain ⟨hsame', hrestore'⟩ := ih (hsame.good h) hrefused
    exact ⟨hsame.trans hsame', fun haction => (hrestore' haction).trans (hrestore haction)⟩

theorem sameFiles_of_refused (h : Same s.deletion v w) (hrestore : action = .Restore → w = v) :
    SameFiles (prepared s.deletion action w) (prepared s.deletion action v) := by
  refine ⟨?_, ?_, ?_⟩
  · cases action <;> exact h.trees
  · cases action <;> exact h.directories
  · rw [journal_prepared, journal_prepared]
    exact h.prepared_journal_eq hrestore

/-- **Restart**: repeated until it is not interrupted, a command ends as one that never was. -/
theorem run_after_attempts
    (hattempts : Attempts hooked (fun _ : Unit => s.command action) v trace w)
    (h : Invariant s v) (hrestoring : action = .Purge → ∀ journal, v.journal = some journal →
      journal.state ≠ .Restoring) :
    (run_command s action w).2 = (run_command s action v).2 ∧ SameFiles (run_command s action w).1
        (run_command s action v).1 := by
  have hgood : Good s False v := ⟨h, False.elim⟩
  cases hrefused : refusal action (prepared_journal s.deletion action v.journal) with
  | some error =>
    obtain ⟨hsame, hrestore⟩ := attempts_refused hattempts hgood hrefused
    have hrefused' := hrefused
    rw [← hsame.prepared_journal_eq hrestore] at hrefused'
    rw [run_refused hgood hrefused, run_refused (hsame.good hgood) hrefused']
    exact ⟨rfl, sameFiles_of_refused hsame hrestore⟩
  | none =>
    have hallowed : Allowed s.deletion action v := ⟨hrefused, hrestoring⟩
    obtain ⟨hw, hallowed'⟩ := attempts_allowed hattempts h hallowed
    exact ((meets_finished hw hallowed').run_with).unique
      (meets_finished h hallowed).run_with

/-! ## Evidence -/

/-- The lines of the tree that a root has before the deletion. -/
def listing (s : Setting U) (root : LogicalPath U) : List Record :=
  match content s root with
  | some (.branch directory) => directory_listing [] directory
  | _ => []

/-- The part of the proof that is about one root. -/
def proof_line (s : Setting U) (root : LogicalPath U) : Bytes :=
  match evidence s root with
  | none => utf8 root.text ++ utf8 "\x00absent\x00".toList
  | some found => utf8 root.text ++ [0] ++ found.object_set_digest.as_bytes ++
      u64_be found.file_count ++ u64_be found.object_count ++ u64_be found.byte_count

/-- What is found is what the tree of the root has. -/
def Found (s : Setting U) (root : LogicalPath U) (found : TreeEvidence) : Prop :=
  found.file_count.toNat = file_total (listing s root) ∧
    found.object_count = (if is_object_root root then found.file_count else 0) ∧
    found.byte_count.toNat = byte_total (listing s root) ∧
    ∃ inventory : List Record, inventory.Perm (listing s root) ∧
      found.object_set_digest = inventory_digest s.blake3 root (sort_by_key Prod.fst inventory)

/-- The counts and the digest are those of the trees that the roots have before the deletion. -/
structure Reports (s : Setting U) (e : ResourceLifecycleEvidence) : Prop where
  volume : e.volume_marker_id = s.start.marker
  files : e.file_count.toNat = (s.deletion.roots.map fun root => file_total (listing s root)).sum
  objects : e.object_count.toNat = (s.deletion.roots.map fun root =>
    if is_object_root root then file_total (listing s root) else 0).sum
  bytes : e.byte_count.toNat = (s.deletion.roots.map fun root => byte_total (listing s root)).sum
  digest : e.object_set_digest = s.blake3 (
    utf8 "neoengram.lifecycle.deletion-proof.v1\x00".toList ++
      s.deletion.roots.flatMap (proof_line s))
  trees : ∀ root ∈ s.deletion.roots, content s root ≠ none → ∃ found,
    evidence s root = some found ∧ Found s root found

theorem found_of_evidence {found : TreeEvidence}
    (h : evidence s root = some found) : Found s root found := by
  unfold evidence at h
  obtain ⟨tree, htree, hfound⟩ := bind_eq_some_iff.mp h
  cases hscan : scan_tree s.blake3 tree root with
  | error error =>
    rw [hscan] at hfound
    cases hfound
  | ok found' =>
    rw [hscan] at hfound
    obtain rfl := some.inj hfound
    obtain ⟨directory, inventory, rfl, hperm, hfiles, hobjects, hbytes, hdigest⟩ :=
      scan_tree_reports hscan
    have hlisting : listing s root = directory_listing [] directory := by
      rw [listing, htree]
    rw [Found, hlisting]
    exact ⟨hfiles, hobjects, hbytes, inventory, hperm, hdigest⟩

theorem aggregate_root_eq_ok {totals totals' : Totals}
    (h : aggregate_root false totals ⟨root, some (content s root).isSome,
      evidence s root, none⟩ = .ok totals') :
    (content s root ≠ none → evidence s root ≠ none) ∧
      totals'.files.toNat = totals.files.toNat + file_total (listing s root) ∧
      totals'.objects.toNat = totals.objects.toNat +
        (if is_object_root root then file_total (listing s root) else 0) ∧
      totals'.bytes.toNat = totals.bytes.toNat + byte_total (listing s root) ∧
      totals'.hashed = totals.hashed ++ proof_line s root := by
  unfold aggregate_root at h
  unfold proof_line
  cases hevidence : evidence s root with
  | none =>
    have habsent : content s root = none := by
      by_contra hpresent
      rw [isSome_iff_ne_none.mpr hpresent, hevidence] at h
      cases h
    have hlisting : listing s root = [] := by
      rw [listing, habsent]
    simp only [hevidence, habsent] at h
    obtain rfl := Except.ok.inj h
    simp [habsent, hlisting, file_total, byte_total]
  | some found =>
    obtain ⟨hfiles, hobjects, hbytes, -⟩ := found_of_evidence hevidence
    simp only [hevidence, Bool.false_eq_true, if_false, ok_iff, checked_add_eq_some] at h
    obtain ⟨files, hfiles', objects, hobjects', bytes, hbytes', rfl⟩ := h
    refine ⟨by simp, ?_, ?_, ?_, ?_⟩
    · rw [← hfiles', hfiles]
    · rw [← hobjects', hobjects]
      split
      · rw [hfiles]
      · rfl
    · rw [← hbytes', hbytes]
    · simp only [append_assoc]

theorem aggregate_roots_eq_ok {roots : List (LogicalPath U)} {totals totals' : Totals}
    (h : (roots.map fun root => (⟨root, some (content s root).isSome,
      evidence s root, none⟩ : FilesystemRootJournal U)).foldlM (aggregate_root false)
        totals = .ok totals') :
    (∀ root ∈ roots, content s root ≠ none → evidence s root ≠ none) ∧
      totals'.files.toNat = totals.files.toNat +
        (roots.map fun root => file_total (listing s root)).sum ∧
      totals'.objects.toNat = totals.objects.toNat + (roots.map fun root =>
        if is_object_root root then file_total (listing s root) else 0).sum ∧
      totals'.bytes.toNat = totals.bytes.toNat +
        (roots.map fun root => byte_total (listing s root)).sum ∧
      totals'.hashed = totals.hashed ++ roots.flatMap (proof_line s) := by
  induction roots generalizing totals with
  | nil =>
    obtain rfl := Except.ok.inj h
    simp
  | cons root rest ih =>
    rw [map_cons, foldlM_cons, bind_eq_ok] at h
    obtain ⟨middle, hfirst, hrest⟩ := h
    obtain ⟨hpresent, hfiles, hobjects, hbytes, hhashed⟩ := aggregate_root_eq_ok hfirst
    obtain ⟨hpresent', hfiles', hobjects', hbytes', hhashed'⟩ := ih hrest
    refine ⟨forall_mem_cons.mpr ⟨hpresent, hpresent'⟩, ?_, ?_, ?_, ?_⟩
    · rw [hfiles', hfiles, map_cons, sum_cons, Nat.add_assoc]
    · rw [hobjects', hobjects, map_cons, sum_cons, Nat.add_assoc]
    · rw [hbytes', hbytes, map_cons, sum_cons, Nat.add_assoc]
    · rw [hhashed', hhashed, flatMap_cons, append_assoc]

variable {e : ResourceLifecycleEvidence}

theorem reports_of_report
    (h : report s = .ok e) : Reports s e := by
  simp only [report, aggregate_evidence, ok_iff] at h
  obtain ⟨totals, htotals, rfl⟩ := h
  obtain ⟨hpresent, hfiles, hobjects, hbytes, hhashed⟩ := aggregate_roots_eq_ok htotals
  refine ⟨rfl, ?_, ?_, ?_, congrArg s.blake3 hhashed, fun root hroot hcontent => ?_⟩
  · simpa using hfiles
  · simpa using hobjects
  · simpa using hbytes
  · obtain ⟨found, hfound⟩ := ne_none_iff_exists'.mp (hpresent root hroot hcontent)
    exact ⟨found, hfound, found_of_evidence hfound⟩

/-! ## Histories -/

/-- What a deletion can have gone through when every command was repeated until it was not
interrupted. -/
inductive History (s : Setting U) : Volume U → Prop
  | fresh : History s s.start
  | command {v w : Volume U} {trace : List (Event (Call U) Call.Answer (Volume U))}
      (action : ResourceLifecycleAction) (hbefore : History s v)
      (hattempts : Attempts hooked (fun _ : Unit => s.command action) v trace w) :
      History s (run_command s action w).1

/-- Between two commands, no restore is under way. -/
structure AtRest (s : Setting U) (v : Volume U) : Prop where
  invariant : Invariant s v
  restoring : ∀ journal, v.journal = some journal → journal.state ≠ .Restoring

theorem AtRest.attempts (h : AtRest s v)
    (hattempts : Attempts hooked (fun _ : Unit => s.command action) v trace w) :
    Invariant s w ∧ (Allowed s.deletion action w ∨ ∃ error,
      refusal action (prepared_journal s.deletion action v.journal) = some error ∧
        Same s.deletion v w ∧ (action = .Restore → w = v)) := by
  have hgood : Good s False v := ⟨h.invariant, False.elim⟩
  cases hrefused : refusal action (prepared_journal s.deletion action v.journal) with
  | some error =>
    obtain ⟨hsame, hrestore⟩ := attempts_refused hattempts hgood hrefused
    exact ⟨(hsame.good hgood).invariant, .inr ⟨error, rfl, hsame, hrestore⟩⟩
  | none =>
    obtain ⟨hw, hallowed⟩ := attempts_allowed hattempts h.invariant
      ⟨hrefused, fun _ => h.restoring⟩
    exact ⟨hw, .inl hallowed⟩

theorem Finished.atRest {r : AgentResult ResourceLifecycleEvidence}
    (h : Finished s action r v) : AtRest s v := by
  refine ⟨h.1, fun journal hj hrestoring => ?_⟩
  rcases h.2 with ⟨-, error, -, hhalted⟩ | ⟨-, hended⟩
  · obtain ⟨journal', -, -, -, hj', hstate, -⟩ := hhalted
    obtain rfl := some.inj (hj.symm.trans hj')
    rw [hrestoring] at hstate
    cases hstate
  · obtain rfl := some.inj (hj.symm.trans hended)
    cases action <;> cases hrestoring

theorem AtRest.same (h : AtRest s v) (hsame : Same s.deletion v w) : AtRest s w := by
  have hgood : Good s False v := ⟨h.invariant, False.elim⟩
  refine ⟨(hsame.good hgood).invariant, fun journal hj => ?_⟩
  rcases hsame.journal with heq | ⟨-, hnew⟩
  · exact h.restoring journal (heq ▸ hj)
  · obtain rfl := some.inj (hj.symm.trans hnew)
    nofun

/-- **Invariant**: every history ends at rest. -/
theorem History.atRest
    (h : History s v) : AtRest s v := by
  induction h with
  | fresh =>
    refine ⟨invariant_start _, fun journal hj => ?_⟩
    rw [s.fresh.journal] at hj
    cases hj
  | command action hbefore hattempts ih =>
    obtain ⟨hw, hallowed | ⟨error, hrefused, hsame, hrestore⟩⟩ :=
      ih.attempts hattempts
    · exact (meets_finished hw hallowed).run_with.atRest
    · rw [← hsame.prepared_journal_eq hrestore] at hrefused
      have hgood : Good s False _ := ⟨hw, False.elim⟩
      rw [run_refused hgood hrefused]
      exact (ih.same hsame).same (same_prepared action _)

/-- The journal says that the action has begun. -/
def Begun (action : ResourceLifecycleAction) (v : Volume U) : Prop :=
  ∃ journal, v.journal = some journal ∧ journal.state.action = action

/-- A command that returns evidence has ended. -/
theorem AtRest.run_eq_ok (h : AtRest s v) (he : (run_command s action v).2 = .ok e) :
    report s = .ok e ∧ Invariant s (run_command s action v).1 ∧ (run_command s action v).1.journal =
        some (ended s action) := by
  have hgood : Good s False v := ⟨h.invariant, False.elim⟩
  cases hrefused : refusal action (prepared_journal s.deletion action v.journal) with
  | some error =>
    rw [run_refused hgood hrefused] at he
    cases he
  | none =>
    have hfinished := (meets_finished h.invariant
      ⟨hrefused, fun _ => h.restoring⟩).run_with
    obtain ⟨hinvariant, ⟨-, error, herror, -⟩ | ⟨hreport, hended⟩⟩ := hfinished
    · cases herror.symm.trans he
    · exact ⟨hreport.symm.trans he, hinvariant, hended⟩

/-- After a quarantine nothing keeps the trees from being restored or purged. -/
theorem allowed_of_quarantined
    (hj : v.journal = some (ended s .Quarantine))
    (action : ResourceLifecycleAction) : Allowed s.deletion action v := by
  have hstate : (ended s .Quarantine).state = .Quarantined := rfl
  have hcheck : check_inventory (ended s .Quarantine) = .ok () := by
    refine check_inventory_eq_ok.mpr fun root hroot => ?_
    obtain ⟨relative, -, rfl⟩ := mem_map.mp hroot
    simp
  refine ⟨?_, fun _ journal hother => ?_⟩
  · rw [hj, prepared_journal_some]
    cases action with
    | Quarantine => rfl
    | Restore => simp [refusal, hcheck, hstate, FilesystemLifecycleState.action]
    | Purge => simp [refusal, hcheck, hstate]
  · obtain rfl := some.inj (hj.symm.trans hother)
    simp [hstate]

/-- **Main result**: after any attempts of a command,

- a whole run of it has the result, and leaves the trees, the directories and the journal, that
  a whole run without the attempts has and leaves;
- unless a purge has begun, every tree is in one of its two places, and unchanged;
- the evidence it returns is that of the trees that the roots had before the deletion;
- it returns this evidence, if it is not refused and every root can be quarantined;
- and where a quarantine returns evidence, a restore or a purge after it does. -/
theorem lifecycle_restart
    (hv : History s v) {action : ResourceLifecycleAction}
    {trace : List (Event (Call U) Call.Answer (Volume U))}
    (hattempts : Attempts hooked (fun _ : Unit => s.command action) v trace w) :
    ((run_command s action w).2 = (run_command s action v).2 ∧ SameFiles (run_command s action w).1
        (run_command s action v).1) ∧
    (¬ Begun .Purge w → ∀ root ∈ s.deletion.roots, ∀ tree,
      s.start.trees (managed_components root) = some tree →
        (w.trees (managed_components root) = some tree ∧
          w.trees (s.deletion.quarantine root) = none) ∨
        (w.trees (managed_components root) = none ∧
          w.trees (s.deletion.quarantine root) = some tree)) ∧
    (∀ e, (run_command s action w).2 = .ok e → Reports s e) ∧
    (refusal action (prepared_journal s.deletion action v.journal) = none →
      (∀ root ∈ s.deletion.roots, CanQuarantine s root) →
      (run_command s action w).2 = report s) ∧
    (∀ e, (run_command s .Quarantine v).2 = .ok e → ∀ later,
      (run_command s later
        (run_command s .Quarantine v).1).2 = .ok e) := by
  have hrest := hv.atRest
  have hsame := run_after_attempts hattempts hrest.invariant fun _ =>
    hrest.restoring
  obtain ⟨hw, -⟩ := hrest.attempts hattempts
  refine ⟨hsame, ?_, ?_, ?_, ?_⟩
  · intro hpurge root hroot tree htree
    have hplace := (or_assoc.mpr (hw.place_cases hroot)).resolve_right
      fun ⟨_, journal, hj, hstate⟩ =>
        hpurge ⟨journal, hj, by rcases hstate with h | h <;> rw [h] <;> rfl⟩
    simp only [IsActive, IsQuarantined, content, htree] at hplace
    exact hplace
  · intro e he
    rw [hsame.1] at he
    exact reports_of_report (hrest.run_eq_ok he).1
  · intro haccepted hcan
    rw [hsame.1]
    have hfinished := (meets_finished hrest.invariant
      ⟨haccepted, fun _ => hrest.restoring⟩).run_with
    obtain ⟨hinvariant, ⟨-, error, -, hhalted⟩ | ⟨hreport, -⟩⟩ := hfinished
    · obtain ⟨root, hroot, hcannot⟩ := hhalted.exists_refused hinvariant
      exact absurd (hcan root hroot) hcannot
    · exact hreport
  · intro e he later
    obtain ⟨hreport, hinvariant, hended⟩ := hrest.run_eq_ok he
    have hfinished := (meets_finished hinvariant
      (allowed_of_quarantined hended later)).run_with
    obtain ⟨hinvariant', ⟨-, error, -, hhalted⟩ | ⟨hreport', -⟩⟩ := hfinished
    · obtain ⟨root, hroot, hcannot⟩ := hhalted.exists_refused hinvariant'
      exact absurd (endedAt_of_ended hinvariant hended hroot).1 hcannot
    · exact hreport'.trans hreport

/-! ### A workspace with one file -/

def sample_root : LogicalPath asciiTables := ascii_path "workspaces/p/a/w" (by decide +kernel)

def sample_deletion : Deletion asciiTables :=
  ⟨"d".toList, "t".toList, .Workspace "p".toList "a".toList "w".toList "v".toList,
    digest_of_nat 1, [sample_root]⟩

def sample_tree : Entry :=
  .branch (.cons (.utf8 "f".toList) (.leaf (.file ⟨[1, 2, 3], by decide⟩)) .nil)

def sample_volume : Volume asciiTables where
  marker := "m".toList
  directories := fun location => location ∈ ancestors (managed_components sample_root)
  trees := fun location =>
    if location = managed_components sample_root then some sample_tree else none
  journal := none
  fence := false

theorem sample_managed : Managed sample_deletion := managed_of_canonical (by decide +kernel)

theorem sample_fresh : Fresh sample_deletion sample_volume := by
  refine ⟨rfl, fun root hroot => ?_, fun root hroot _ location hlocation => ?_⟩
  · obtain rfl := mem_singleton.mp hroot
    have hne : sample_deletion.quarantine sample_root ≠ managed_components sample_root := by
      decide +kernel
    simp [sample_volume, hne]
  · obtain rfl := mem_singleton.mp hroot
    exact decide_eq_true hlocation

def sample_setting : Setting asciiTables :=
  ⟨poly_hash, sample_deletion, sample_volume, sample_managed, sample_fresh⟩

/-- The volume when a quarantine is killed between the move of the tree and the write of its
entry. -/
def sample_interrupted : List (Event (Call asciiTables) Call.Answer (Volume asciiTables)) ×
    Volume asciiTables :=
  (handle_lifecycle poly_hash sample_volume.marker sample_deletion .Quarantine).run.cut_with
    (Volume.answer fun _ => true) 21 sample_volume

theorem lifecycle_restart_sample :
    (sample_interrupted.2.trees (managed_components sample_root)).isNone ∧
      (sample_interrupted.2.trees (sample_deletion.quarantine sample_root)).isSome ∧
      (run_command sample_setting .Quarantine sample_interrupted.2).2 =
        (run_command sample_setting .Quarantine sample_volume).2 :=
  ⟨by decide +kernel, by decide +kernel,
    (lifecycle_restart .fresh
      (.more (i := ()) (Prog.exec_cut_with (fun _ _ => rfl) 21 _ _) (.none _))).1.1⟩

end NeoEngram.Agent

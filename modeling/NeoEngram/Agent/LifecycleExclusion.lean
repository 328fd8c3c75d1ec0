import NeoEngram.Agent.LifecycleRestart

/-! # Restore and purge exclude each other

Any commands of a deletion, each of which can be cut short at any point. The
deliveries of the resource can be restored only while the fence exists.
-/

namespace NeoEngram.Agent

open Checks Effects Framing
open Trees (Node Tree)

variable {U : UnicodeTables} {s : Setting U} {v v' : Volume U}

/-! ## Runs -/

/-- The volume with deliveries that are restored where the fence exists. -/
abbrev delivering : Env (Call U) Call.Answer (Volume U) := Env.of (Volume.answer id)

/-- A command that is whole, or cut short if there is no result. -/
structure CommandRun (s : Setting U) (v v' : Volume U) where
  action : ResourceLifecycleAction
  trace : List (Event (Call U) Call.Answer (Volume U))
  result : Option (AgentResult ResourceLifecycleEvidence)
  exec : Exec delivering v (s.command action) trace v'
    result

/-- The command is no purge during a restore, and no restore that is killed between the removal of
the fence and its last write. -/
structure CommandRun.Proper (run : CommandRun s v v') : Prop where
  restoring : run.action = .Purge → ∀ journal, v.journal = some journal →
    journal.state ≠ .Restoring
  unfenced : run.result = none → ∀ e, run.trace.getLast? = some e → e.call ≠ .lifecycle_restore

inductive Reached (s : Setting U) : Volume U → Prop
  | fresh : Reached s s.start
  | command {v v' : Volume U} (hbefore : Reached s v) (run : CommandRun s v v')
      (hproper : run.Proper) : Reached s v'

/-- The quarantine path of a root is a logical path, and its tree has only directories and files
with canonical names, and counts that fit. -/
def Ordinary (s : Setting U) (root : LogicalPath U) : Prop :=
  validate_logical_path U (QUARANTINE_DIRECTORY ++ '/' :: s.deletion.deletion_id ++
      '/' :: root.text) = .ok () ∧
    ∀ entry, s.start.trees (managed_components root) = some entry →
      ∃ directory, entry = .branch directory ∧ Scannable U [] directory ∧
        Fits (directory_listing [] directory)

theorem Ordinary.canQuarantine {root : LogicalPath U} (h : Ordinary s root) :
    CanQuarantine s root := by
  refine ⟨?_, fun entry hentry => ?_⟩
  · refine ⟨⟨_, h.1⟩, ?_⟩
    rw [quarantine_path, mapError_eq_ok, LogicalPath.parse_eq_ok]
  · obtain ⟨directory, hbranch, hscannable, hfits⟩ := h.2 entry hentry
    exact ⟨_, scan_tree_eq_ok.mpr ⟨directory, hbranch, hscannable, hfits, rfl⟩⟩

/-! ## What is kept -/

/-- **Step**: a refused command, cut short or not, changes nothing. -/
theorem CommandRun.same (h : Good s True v) (run : CommandRun s v v') {error : AgentError}
    (hrefused : refusal run.action (prepared_journal s.deletion run.action v.journal) =
      some error) :
    Same s.deletion v v' := by
  have hmeets : Meets delivering (fun _ _ _ s' => Same s.deletion v s')
      (s.command run.action) (fun _ _ => True) v :=
    meets_command_refused (fun _ _ _ _ hsame _ => hsame) h hrefused trivial
  exact run.exec.keeps (I := Same s.deletion v) (fun e he _ =>
    (hmeets.exec run.exec).1 e he) (.refl v)

/-- **Step**: a proper command keeps the invariant and the fence. -/
theorem CommandRun.Proper.good
    (h : Good s True v) {run : CommandRun s v v'} (hproper : run.Proper) : Good s True v' := by
  cases hrefused : refusal run.action (prepared_journal s.deletion run.action v.journal) with
  | some error => exact (run.same h hrefused).good h
  | none =>
    have hmeets : Meets delivering (Keeps s True) (s.command run.action)
        (fun _ v' => Good s True v') v :=
      meets_command (fun _ hfence => hfence trivial) h
        ⟨hrefused, hproper.restoring⟩ (fun _ _ _ hgood _ => hgood) (fun _ hgood _ => hgood)
    obtain ⟨hcalls, hresult⟩ := hmeets.exec run.exec
    cases hcase : run.result with
    | some r => exact hresult r hcase
    | none =>
      rcases run.exec.last with ⟨-, rfl⟩ | ⟨e, hlast, rfl⟩
      · exact h
      · obtain ⟨hinvariant, hfence⟩ := hcalls e (List.mem_of_getLast? hlast)
        refine ⟨hinvariant, fun _ => (hfence trivial).resolve_right ?_⟩
        exact hproper.unfenced hcase e hlast

/-- **Invariant**: of every volume that proper commands reach. -/
theorem Reached.good
    (h : Reached s v) : Good s True v := by
  induction h with
  | fresh =>
    refine ⟨invariant_start _, fun _ journal hj => ?_⟩
    rw [s.fresh.journal] at hj
    cases hj
  | command _ run hproper ih => exact hproper.good ih

/-! ## Exclusion -/

variable {action : ResourceLifecycleAction}

theorem exists_refusal_of_restored (hbegun : Begun .Restore v) (haction : action ≠ .Restore)
    (hrestoring : action = .Purge → ∀ journal,
      v.journal = some journal → journal.state ≠ .Restoring) :
    ∃ error, refusal action (prepared_journal s.deletion action v.journal) = some error := by
  obtain ⟨journal, hj, hstate⟩ := hbegun
  rw [hj, prepared_journal_some]
  cases action with
  | Quarantine => exact ⟨_, if_neg (by rw [hstate]; decide)⟩
  | Restore => exact absurd rfl haction
  | Purge =>
    have hne := hrestoring rfl journal hj
    have hrestored : journal.state = .Restored := by
      cases hcase : journal.state <;> simp_all [FilesystemLifecycleState.action]
    exact ⟨_, if_pos hrestored⟩

theorem exists_refusal_of_purging (hbegun : Begun .Purge v) (haction : action ≠ .Purge) :
    ∃ error, refusal action (prepared_journal s.deletion action v.journal) = some error := by
  obtain ⟨journal, hj, hstate⟩ := hbegun
  rw [hj, prepared_journal_some]
  cases action with
  | Quarantine => exact ⟨_, if_neg (by rw [hstate]; decide)⟩
  | Restore => exact ⟨_, if_pos hstate⟩
  | Purge => exact absurd rfl haction

/-- Nothing of the deletion has changed. -/
structure Untouched (v v' : Volume U) : Prop where
  trees : v'.trees = v.trees
  journal : v'.journal = v.journal

theorem Same.untouched (h : Same s.deletion v v') (hbegun : Begun action v) : Untouched v v' := by
  refine ⟨h.trees, h.journal.resolve_right fun hnone => ?_⟩
  obtain ⟨journal, hj, -⟩ := hbegun
  rw [hj] at hnone
  cases hnone.1

theorem Untouched.begun (h : Untouched v v') (hbegun : Begun action v) : Begun action v' := by
  rw [Begun, h.journal]
  exact hbegun

section

variable (h : Invariant s v)

include h

theorem CommandRun.begun
    (run : CommandRun s v v') (haction : run.action = action)
    (hbegun : Begun action v) : Begun action v' := by
  subst haction
  rcases written_of_exec h run.exec with hsame | ⟨hnone, -⟩ | hwritten
  · rw [Begun, hsame]
    exact hbegun
  · obtain ⟨journal, hj, -⟩ := hbegun
    rw [hnone] at hj
    cases hj
  · exact hwritten

def whole (s : Setting U) (action : ResourceLifecycleAction) (v : Volume U) : Volume U :=
  ((s.command action).run_with (Volume.answer id) v).2.1

/-- The restore has ended, and every tree is back. -/
def WhollyRestored (s : Setting U) (v : Volume U) : Prop :=
  (∃ journal, v.journal = some journal ∧ journal.state = .Restored) ∧ ∀ root ∈ s.deletion.roots,
      v.trees (managed_components root) = s.start.trees (managed_components root) ∧
        v.trees (s.deletion.quarantine root) = none

/-- The purge has ended, and nothing is left. -/
def WhollyPurged (deletion : Deletion U) (v : Volume U) : Prop :=
  (∃ journal, v.journal = some journal ∧ journal.state = .Purged) ∧
    ∀ root ∈ deletion.roots, v.trees (managed_components root) = none ∧
      v.trees (deletion.quarantine root) = none

omit h in
theorem whole_ended
    (hcan : ∀ root ∈ s.deletion.roots, CanQuarantine s root)
    (h : Good s True v) (hallowed : Allowed s.deletion action v) :
    Good s True (whole s action v) ∧ (whole s action v).journal = some (ended s action) := by
  have hmeets : Meets delivering (Keeps s True) (s.command action)
      (fun _ v' => Good s True v' ∧ v'.journal = some (ended s action)) v := by
    refine meets_command (fun _ hfence => hfence trivial) h hallowed ?_
      fun _ hgood hj => ⟨hgood, hj⟩
    intro error v' _ hgood hhalted
    obtain ⟨root, hroot, hcannot⟩ := hhalted.exists_refused hgood.invariant
    exact absurd (hcan root hroot) hcannot
  exact hmeets.run_with

theorem whollyRestored_of_ended
    (hj : v.journal = some (ended s .Restore)) :
    WhollyRestored s v :=
  ⟨⟨_, hj, rfl⟩, fun _ hroot => (endedAt_of_ended h hj hroot).2⟩

theorem whollyPurged_of_ended
    (hj : v.journal = some (ended s .Purge)) : WhollyPurged s.deletion v :=
  ⟨⟨_, hj, rfl⟩, fun _ hroot => (endedAt_of_ended h hj hroot).2⟩

theorem allowed_of_begun (hbegun : Begun action v) : Allowed s.deletion action v := by
  obtain ⟨journal, hj, hstate⟩ := hbegun
  refine ⟨?_, fun hpurge other hother hrestoring => ?_⟩
  · rw [hj, prepared_journal_some]
    exact refusal_own h hj hstate
  · obtain rfl := Option.some.inj (hj.symm.trans hother)
    rw [hrestoring, hpurge] at hstate
    cases hstate

end

/-- As long as neither has begun, the quarantine can be completed. -/
theorem allowed_quarantine (hrestore : ¬ Begun .Restore v) (hpurge : ¬ Begun .Purge v) :
    Allowed s.deletion .Quarantine v := by
  refine ⟨?_, nofun⟩
  cases hj : v.journal with
  | none => rfl
  | some journal =>
    rw [prepared_journal_some]
    refine if_pos ?_
    cases haction : journal.state.action with
    | Quarantine => rfl
    | Restore => exact absurd ⟨journal, hj, haction⟩ hrestore
    | Purge => exact absurd ⟨journal, hj, haction⟩ hpurge

/-- **Main result**: in every volume that proper commands reach, for roots that can be quarantined,

- once a restore has begun, a purge changes neither the trees nor the journal, and the restore
  stays begun; the same for a restore or a quarantine once a purge has begun;
- once a restore has begun, a restore that is not interrupted brings back every tree; once a
  purge has begun, a purge leaves nothing; and before, the quarantine can be completed, and
  both can be done after it. -/
theorem restore_purge_exclusion
    (hordinary : ∀ root ∈ s.deletion.roots, Ordinary s root) (hreached : Reached s v) :
    (∀ v' (run : CommandRun s v v'), run.Proper →
      (Begun .Restore v → (run.action = .Purge → Untouched v v') ∧ Begun .Restore v') ∧
      (Begun .Purge v → (run.action ≠ .Purge → Untouched v v') ∧ Begun .Purge v')) ∧
    (Begun .Restore v → WhollyRestored s (whole s .Restore v)) ∧
    (Begun .Purge v → WhollyPurged s.deletion (whole s .Purge v)) ∧
    (¬ Begun .Restore v → ¬ Begun .Purge v → WhollyRestored s (whole s .Restore
        (whole s .Quarantine v)) ∧
      WhollyPurged s.deletion (whole s .Purge (whole s .Quarantine v))) := by
  have hgood := hreached.good
  have hcan : ∀ root ∈ s.deletion.roots, CanQuarantine s root :=
    fun root hroot => (hordinary root hroot).canQuarantine
  refine ⟨fun v' run hproper => ⟨fun hrestore => ?_, fun hpurge => ?_⟩, fun hrestore => ?_,
    fun hpurge => ?_, fun hrestore hpurge => ?_⟩
  · by_cases haction : run.action = .Restore
    · refine ⟨fun hpurge => ?_, run.begun hgood.invariant haction hrestore⟩
      rw [haction] at hpurge
      cases hpurge
    · obtain ⟨error, hrefused⟩ := exists_refusal_of_restored hrestore haction hproper.restoring
      have huntouched := (run.same hgood hrefused).untouched hrestore
      exact ⟨fun _ => huntouched, huntouched.begun hrestore⟩
  · by_cases haction : run.action = .Purge
    · exact ⟨fun hne => absurd haction hne, run.begun hgood.invariant haction hpurge⟩
    · obtain ⟨error, hrefused⟩ := exists_refusal_of_purging hpurge haction
      have huntouched := (run.same hgood hrefused).untouched hpurge
      exact ⟨fun _ => huntouched, huntouched.begun hpurge⟩
  · obtain ⟨hgood', hended⟩ := whole_ended hcan hgood
      (allowed_of_begun hgood.invariant hrestore)
    exact whollyRestored_of_ended hgood'.invariant hended
  · obtain ⟨hgood', hended⟩ := whole_ended hcan hgood
      (allowed_of_begun hgood.invariant hpurge)
    exact whollyPurged_of_ended hgood'.invariant hended
  · obtain ⟨hgood', hended⟩ := whole_ended hcan hgood
      (allowed_quarantine hrestore hpurge)
    obtain ⟨hrestored, hrestored'⟩ := whole_ended hcan hgood'
      (allowed_of_quarantined hended .Restore)
    obtain ⟨hpurged, hpurged'⟩ := whole_ended hcan hgood'
      (allowed_of_quarantined hended .Purge)
    exact ⟨whollyRestored_of_ended hrestored.invariant hrestored',
      whollyPurged_of_ended hpurged.invariant hpurged'⟩

theorem sample_ordinary : ∀ root ∈ sample_deletion.roots, Ordinary sample_setting root := by
  intro root hroot
  obtain rfl := List.mem_singleton.mp hroot
  refine ⟨by decide +kernel, fun entry hentry => ?_⟩
  obtain rfl : sample_tree = entry := by simpa [sample_setting, sample_volume] using hentry
  have hscanned : ∃ found, scan_tree poly_hash sample_tree sample_root = .ok found := by
    rw [exists_ok_iff]
    decide +kernel
  obtain ⟨found, hfound⟩ := hscanned
  obtain ⟨directory, hbranch, hscannable, hfits, -⟩ := scan_tree_eq_ok.mp hfound
  exact ⟨directory, hbranch, hscannable, hfits⟩

def state_of (v : Volume U) : Option FilesystemLifecycleState := v.journal.map (·.state)

def sample_whole (action : ResourceLifecycleAction) (v : Volume asciiTables) : Volume asciiTables :=
  whole sample_setting action v

/-- A command that is killed after a number of calls. -/
def sample_cut (action : ResourceLifecycleAction) (calls : Nat) (v : Volume asciiTables) :
    List (Event (Call asciiTables) Call.Answer (Volume asciiTables)) × Volume asciiTables :=
  (handle_lifecycle poly_hash sample_volume.marker sample_deletion action).run.cut_with
    (Volume.answer id) calls v

/-- The workspace with one file, after a quarantine and a restore that is killed after a number of
calls. -/
def sample_restoring (calls : Nat) : Volume asciiTables :=
  (sample_cut .Restore calls (whole sample_setting .Quarantine sample_volume)).2

/-- The same with a purge, which is killed after ten calls. -/
def sample_purging : Volume asciiTables :=
  (sample_cut .Purge 10 (whole sample_setting .Quarantine sample_volume)).2

theorem begun_of_state_of {action : ResourceLifecycleAction}
    (h : (state_of v).map (·.action) = some action) : Begun action v := by
  obtain ⟨_, hstate, haction⟩ := Option.map_eq_some_iff.mp h
  obtain ⟨journal, hj, rfl⟩ := Option.map_eq_some_iff.mp hstate
  exact ⟨journal, hj, haction⟩

theorem reached_cut {action : ResourceLifecycleAction} {calls : Nat} {v : Volume asciiTables}
    (h : Reached sample_setting v) (hpurge : state_of v ≠ some .Restoring)
    (hlast : ((sample_cut action calls v).1.getLast?.any (·.call matches .lifecycle_restore)) =
      false) : Reached sample_setting (sample_cut action calls v).2 := by
  refine h.command ⟨action, _, none, Prog.exec_cut_with (fun _ _ => rfl) calls _ _⟩ ⟨?_, ?_⟩
  · exact fun _ journal hj hstate => hpurge (by simp [state_of, hj, hstate])
  · intro _ e he hcall
    rw [show (sample_cut action calls v).1.getLast? = some e from he, Option.any_some, hcall]
      at hlast
    cases hlast

/-- The tree is restored from an interrupted restore, and nothing is left by an interrupted purge.
From the start, both can be done after a quarantine. -/
theorem restore_purge_exclusion_sample :
    (Begun .Restore (sample_restoring 4) ∧
      WhollyRestored sample_setting (sample_whole .Restore (sample_restoring 4))) ∧
    (Begun .Purge sample_purging ∧
      WhollyPurged sample_deletion (sample_whole .Purge sample_purging)) ∧
    WhollyRestored sample_setting (sample_whole .Restore (sample_whole .Quarantine sample_volume)) ∧
    WhollyPurged sample_deletion
      (sample_whole .Purge (sample_whole .Quarantine sample_volume)) := by
  have hquarantined : Reached sample_setting (whole sample_setting .Quarantine sample_volume) :=
    Reached.fresh.command ⟨.Quarantine, _, some _, Prog.exec_run_with (fun _ _ => rfl) _ _⟩
      ⟨nofun, nofun⟩
  have hrestoring : Reached sample_setting (sample_restoring 4) :=
    reached_cut hquarantined (by decide +kernel) (by decide +kernel)
  have hpurging : Reached sample_setting sample_purging :=
    reached_cut hquarantined (by decide +kernel) (by decide +kernel)
  have hrestore : Begun .Restore (sample_restoring 4) := begun_of_state_of (by decide +kernel)
  have hpurge : Begun .Purge sample_purging := begun_of_state_of (by decide +kernel)
  exact ⟨⟨hrestore, (restore_purge_exclusion sample_ordinary hrestoring).2.1 hrestore⟩,
    ⟨hpurge, (restore_purge_exclusion sample_ordinary hpurging).2.2.1 hpurge⟩,
    (restore_purge_exclusion sample_ordinary .fresh).2.2.2
      (fun hbegun => nomatch hbegun.choose_spec.1) (fun hbegun => nomatch hbegun.choose_spec.1)⟩

/-! ## A restore that is cut short, then a purge -/

/-- Killed after the write of `Restoring`, the restore has begun and a purge then leaves nothing of
the tree. Killed after the move of the tree, a purge gets as far as `Purging`, and from there
neither a purge nor a restore changes the state. -/
theorem purge_while_restoring : state_of (sample_restoring 4) = some .Restoring ∧
    ((sample_restoring 4).trees (sample_deletion.quarantine sample_root)).isSome ∧
    state_of (sample_whole .Purge (sample_restoring 4)) = some .Purged ∧
    ((sample_whole .Purge (sample_restoring 4)).trees (managed_components sample_root)).isNone ∧
    ((sample_whole .Purge (sample_restoring 4)).trees
      (sample_deletion.quarantine sample_root)).isNone ∧
    state_of (sample_restoring 12) = some .Restoring ∧
    ((sample_restoring 12).trees (managed_components sample_root)).isSome ∧
    state_of (sample_whole .Purge (sample_restoring 12)) = some .Purging ∧
    state_of (sample_whole .Purge (sample_whole .Purge (sample_restoring 12))) = some .Purging ∧
    state_of (sample_whole .Restore (sample_whole .Purge (sample_restoring 12))) =
      some .Purging := by
  decide +kernel

end NeoEngram.Agent

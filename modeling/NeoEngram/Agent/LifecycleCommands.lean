import NeoEngram.Agent.LifecycleSteps

/-! # Lifecycle commands, whole and cut short

A command prepares the fence and then carries out one of the three actions.
What a command can do follows from the state of the journal at its start.
-/

namespace NeoEngram.Agent

open Checks Effects FilesystemLifecycleState Option Volume

variable {U : UnicodeTables} {blake3 : Blake3} {deletion : Deletion U} {marker : Text}

/-! ## Written states -/

/-- The action that writes a state. -/
def FilesystemLifecycleState.action : FilesystemLifecycleState → ResourceLifecycleAction
  | .Fenced | .Quarantining | .Quarantined => .Quarantine
  | .Restoring | .Restored => .Restore
  | .Purging | .Purged => .Purge

/-- A call that writes no journal but in a state of this action. -/
def Writes (action : ResourceLifecycleAction) : Call U → Prop
  | .put journal => journal.state.action = action
  | _ => True

section Writes

variable {action : ResourceLifecycleAction}
  {journal : FilesystemLifecycleJournal U} {root : FilesystemRootJournal U}

theorem only_ask {c : Call U} (h : Writes action c) : Only (Writes action) (ask c).run :=
  ⟨h, fun _ => trivial⟩

theorem only_verify :
    Only (Writes (U := U) action) (verify_live_volume_marker (U := U) marker).run :=
  .seq (only_ask trivial) fun _ => trivial

theorem only_put (h : journal.state.action = action) :
    Only (Writes action) (put deletion journal).run :=
  .seq trivial fun _ => only_ask h

theorem only_load : Only (Writes action) (load deletion).run := by
  refine .seq (only_ask trivial) fun journal => ?_
  cases journal with
  | none => trivial
  | some journal => exact .seq trivial fun _ => trivial

theorem only_load_or_create : Only (Writes .Quarantine) (load_or_create deletion).run := by
  refine .seq only_load fun journal => ?_
  cases journal with
  | none => exact .seq (only_put rfl) fun _ => trivial
  | some journal => trivial

theorem only_require_journal : Only (Writes action) (require_journal deletion).run := by
  refine .seq only_load fun journal => ?_
  cases journal <;> trivial

theorem only_create_directories (locations : List Location) :
    Only (Writes (U := U) action) (create_directories locations).run := by
  induction locations with
  | nil => trivial
  | cons location rest ih =>
    refine .seq (only_ask trivial) fun found => ?_
    cases found with
    | true => exact ih
    | false => exact .seq (only_ask trivial) fun _ => ih

variable {location : Location}

theorem only_scan_at {relative : LogicalPath U} :
    Only (Writes action) (scan_at blake3 location relative).run := by
  refine .seq (only_ask trivial) fun entry => ?_
  cases entry <;> trivial

theorem only_move_to_quarantine {relative path : LogicalPath U} {entry : Entry} :
    Only (Writes action) (move_to_quarantine blake3 marker relative entry path).run :=
  .seq (only_create_directories _) fun _ => .seq trivial fun _ => .seq only_verify fun _ =>
    .seq (only_ask trivial) fun _ => only_scan_at

theorem only_quarantine_root :
    Only (Writes action) (quarantine_root blake3 marker deletion root).run := by
  refine .seq trivial fun path => .seq (only_ask trivial) fun source =>
    .seq (only_ask trivial) fun destination => ?_
  split
  all_goals first
    | trivial
    | exact .seq only_scan_at fun _ => trivial
    | exact .seq only_move_to_quarantine fun _ => trivial

theorem only_quarantine_roots (h : journal.state.action = action)
    (done todo : List (FilesystemRootJournal U)) :
    Only (Writes action) (quarantine_roots blake3 marker deletion journal done todo).run := by
  induction todo generalizing done with
  | nil => trivial
  | cons root rest ih =>
    exact .seq only_quarantine_root fun _ => .seq (only_put h) fun _ => ih _

theorem only_quarantine : Only (Writes .Quarantine) (quarantine blake3 marker deletion).run := by
  refine .seq only_load_or_create fun journal => ?_
  split
  iterate 5 trivial
  all_goals
    exact .seq (only_put rfl) fun _ => .seq (only_quarantine_roots (by rfl) _ _) fun _ =>
      .seq (only_put rfl) fun _ => trivial

theorem only_restore_root :
    Only (Writes action) (restore_root blake3 marker deletion root).run := by
  refine .seq trivial fun path => .seq (only_ask trivial) fun source =>
    .seq (only_ask trivial) fun destination => ?_
  split
  all_goals first
    | trivial
    | exact .seq only_scan_at fun _ => trivial
    | exact .seq only_scan_at fun _ => .seq (only_create_directories _) fun _ =>
        .seq only_verify fun _ => .seq (only_ask trivial) fun _ => trivial

theorem only_restore_roots (h : journal.state.action = action)
    (done todo : List (FilesystemRootJournal U)) :
    Only (Writes action) (restore_roots blake3 marker deletion journal done todo).run := by
  induction todo generalizing done with
  | nil => trivial
  | cons root rest ih =>
    refine .seq only_restore_root fun restored => ?_
    cases restored with
    | none => exact ih _
    | some root => exact .seq (only_put h) fun _ => ih _

theorem only_restore : Only (Writes .Restore) (restore blake3 marker deletion).run := by
  refine .seq only_require_journal fun journal => ?_
  split
  iterate 3 trivial
  all_goals
    exact .seq trivial fun _ => .seq (only_put rfl) fun _ => .seq (only_restore_roots (by rfl) _ _)
      fun _ => .seq (only_ask trivial) fun _ => .seq (only_put rfl) fun _ => trivial

mutual

theorem only_purge_entry (location : Location) : ∀ (path : List FileName) (entry : Entry),
    Only (Writes (U := U) action) (purge_entry (U := U) marker location path entry).run
  | path, .branch directory => .seq (only_purge_entries location path directory) fun _ =>
      .seq only_verify fun _ => only_ask trivial
  | _, .leaf (.file _) => .seq only_verify fun _ => only_ask trivial
  | _, .leaf .symlink => trivial
  | _, .leaf .special => trivial

theorem only_purge_entries (location : Location) : ∀ (path : List FileName) (directory : Directory),
    Only (Writes (U := U) action) (purge_entries (U := U) marker location path directory).run
  | _, .nil => trivial
  | path, .cons name entry rest => .seq (only_purge_entry location (path ++ [name]) entry) fun _ =>
      only_purge_entries location path rest

end

theorem only_purge_tree :
    Only (Writes (U := U) action) (purge_tree (U := U) marker location).run := by
  refine .seq (only_ask trivial) fun entry => ?_
  split
  · exact only_purge_entry _ _ _
  · trivial
  · trivial

theorem only_record_purge (h : journal.state.action = action)
    {done rest : List (FilesystemRootJournal U)} {path : LogicalPath U} :
    Only (Writes action) (record_purge blake3 deletion journal done root rest path).run := by
  unfold record_purge
  split
  · trivial
  · exact .seq only_scan_at fun _ => .seq (only_put h) fun _ => trivial

theorem only_purge_roots (h : journal.state.action = action)
    (done todo : List (FilesystemRootJournal U)) :
    Only (Writes action) (purge_roots blake3 marker deletion journal done todo).run := by
  induction todo generalizing done with
  | nil => trivial
  | cons root rest ih =>
    unfold purge_roots
    split
    · exact ih _
    · refine .seq trivial fun path => .seq (only_ask trivial) fun entry => ?_
      split
      · exact .seq (only_record_purge h) fun _ => .seq only_purge_tree fun _ => ih _
      · exact ih _
      · trivial

theorem only_purge : Only (Writes .Purge) (purge blake3 marker deletion).run := by
  refine .seq only_require_journal fun journal => ?_
  split
  iterate 2 trivial
  all_goals
    exact .seq trivial fun _ => .seq (only_ask trivial) fun _ => .seq (only_put rfl) fun _ =>
      .seq (only_purge_roots (by rfl) _ _) fun _ => .seq (only_put rfl) fun _ => trivial

/-- **Bound**: an action writes its own states only. -/
theorem only_execute (action : ResourceLifecycleAction) :
    Only (Writes action) (execute blake3 marker deletion action).run := by
  refine .seq only_verify fun _ => ?_
  cases action with
  | Quarantine => exact only_quarantine
  | Restore => exact only_restore
  | Purge => exact only_purge

end Writes

/-! ## Refusals -/

/-- Why an action is refused, given the journal that it finds. -/
def refusal (action : ResourceLifecycleAction) (journal : Option (FilesystemLifecycleJournal U)) :
    Option AgentError :=
  match action, journal with
  | .Quarantine, none => none
  | .Restore, none | .Purge, none =>
    some (lifecycle_state_error "lifecycle action has no durable quarantine journal")
  | .Quarantine, some journal =>
    if journal.state.action = .Quarantine then none
    else some (lifecycle_state_error "quarantine cannot run after restore or purge has started")
  | .Restore, some journal =>
    if journal.state.action = .Purge then
      some (lifecycle_state_error "resource cannot be restored after purge has started")
    else if journal.state = .Restored then none
    else match check_inventory journal with
      | .error error => some error
      | .ok _ => none
  | .Purge, some journal =>
    if journal.state = .Restored then
      some (lifecycle_state_error
        "restored resource cannot be purged by its previous deletion operation")
    else if journal.state = .Purged then none
    else match check_inventory journal with
      | .error error => some error
      | .ok _ => none

variable {s : Setting U} {v v' : Volume U} {fenced : Prop} {restores : Bool → Bool}

variable {journal : FilesystemLifecycleJournal U} {Φ : CallProp (Call U) Call.Answer (Volume U)}
  {Q : AgentResult ResourceLifecycleEvidence → Volume U → Prop} {action : ResourceLifecycleAction}

variable {error : AgentError}

theorem meets_check_refused
    (hrefused : (match check_inventory journal with
      | .error error => some error
      | .ok _ => none) = some error)
    {α : Type} {next : Unit → Program U α} {Q : AgentResult α → Volume U → Prop}
    (hQ : Q (.error error) v) :
    Meets (serving restores) Φ (checked (check_inventory journal) >>= next).run Q v := by
  rw [meets_seq, meets_checked]
  cases hcheck : check_inventory journal with
  | error error' =>
    rw [hcheck] at hrefused
    obtain rfl := some.inj hrefused
    exact hQ
  | ok _ =>
    rw [hcheck] at hrefused
    cases hrefused

theorem meets_refused (hΦ : ∀ c r, Φ v c r v) (h : Invariant s v)
    (hrefused : refusal action v.journal = some error) (hQ : Q (.error error) v) :
    Meets (serving restores) Φ (execute s.blake3 s.start.marker s.deletion action).run
      Q v := by
  unfold execute
  rw [meets_seq]
  refine meets_verify hΦ h ?_
  show Meets _ _ _ _ _
  cases action with
  | Quarantine =>
    cases hj : v.journal with
    | none =>
      rw [hj] at hrefused
      cases hrefused
    | some journal =>
      simp only [quarantine, meets_seq]
      refine meets_load_existing hΦ h hj ?_
      cases hstate : journal.state <;>
        simp [refusal, hj, hstate, action] at hrefused
      all_goals
        simp only [then_ok, hstate]
        rw [← hrefused] at hQ
        exact hQ
  | Restore =>
    simp only [restore, meets_seq]
    refine meets_require_journal hΦ h (fun journal hj => ?_) fun hnone => ?_
    · cases hstate : journal.state <;>
        simp [refusal, hj, hstate, action] at hrefused
      all_goals simp only [then_ok, hstate]
      iterate 4 exact meets_check_refused hrefused hQ
      all_goals
        rw [← hrefused] at hQ
        exact hQ
    · rw [hnone] at hrefused
      obtain rfl := some.inj hrefused
      exact hQ
  | Purge =>
    simp only [purge, meets_seq]
    refine meets_require_journal hΦ h (fun journal hj => ?_) fun hnone => ?_
    · cases hstate : journal.state <;> simp [refusal, hj, hstate] at hrefused
      all_goals simp only [then_ok, hstate]
      iterate 4 exact meets_check_refused hrefused hQ
      · rw [← hrefused] at hQ
        exact hQ
      · exact meets_check_refused hrefused hQ
    · rw [hnone] at hrefused
      obtain rfl := some.inj hrefused
      exact hQ

/-! ## Commands -/

/-- Nothing is different but that there can be a new journal and the fence. -/
structure Same (deletion : Deletion U) (v v' : Volume U) : Prop where
  marker : v'.marker = v.marker
  trees : v'.trees = v.trees
  directories : v'.directories = v.directories
  journal : v'.journal = v.journal ∨
    v.journal = none ∧ v'.journal = some (new_journal deletion)
  fence : v'.fence = v.fence ∨ v'.fence = true

theorem Same.refl (v : Volume U) : Same s.deletion v v := ⟨rfl, rfl, rfl, .inl rfl, .inl rfl⟩

theorem Same.good (h : Same s.deletion v v') (hgood : Good s fenced v) : Good s fenced v' := by
  obtain ⟨marker, directories, trees, journal, fence⟩ := v'
  obtain ⟨rfl, rfl, rfl, hj, hfence⟩ := h
  simp only at hj hfence
  rcases hj with rfl | ⟨hnone, rfl⟩
  · refine ⟨hgood.invariant.set_fence fence, fun hf journal hj hfenced hrestored => ?_⟩
    rcases hfence with rfl | rfl
    · exact hgood.fence hf journal hj hfenced hrestored
    · rfl
  · refine ⟨(hgood.create_journal hnone).invariant.set_fence fence,
      fun _ journal hj hne => ?_⟩
    obtain rfl := some.inj hj
    exact absurd rfl hne

/-- The volume when an action begins. -/
def prepared (deletion : Deletion U) (action : ResourceLifecycleAction) (v : Volume U) : Volume U :=
  match action with
  | .Restore => v
  | .Quarantine | .Purge =>
    { v with journal := some (v.journal.getD (new_journal deletion)), fence := true }

/-- The journal that an action finds. -/
def prepared_journal (deletion : Deletion U) (action : ResourceLifecycleAction)
    (journal : Option (FilesystemLifecycleJournal U)) : Option (FilesystemLifecycleJournal U) :=
  match action with
  | .Restore => journal
  | .Quarantine | .Purge => some (journal.getD (new_journal deletion))

@[simp] theorem journal_prepared (action : ResourceLifecycleAction) (v : Volume U) :
    (prepared s.deletion action v).journal = prepared_journal s.deletion action v.journal := by
  cases action <;> rfl

@[simp] theorem prepared_journal_some (action : ResourceLifecycleAction)
    (journal : FilesystemLifecycleJournal U) :
    prepared_journal s.deletion action (some journal) = some journal := by
  cases action <;> rfl

theorem same_prepared (action : ResourceLifecycleAction) (v : Volume U) :
    Same s.deletion v (prepared s.deletion action v) := by
  have hj : some (v.journal.getD (new_journal s.deletion)) = v.journal ∨
      v.journal = none ∧ some (v.journal.getD (new_journal s.deletion)) =
        some (new_journal s.deletion) := by
    cases v.journal with
    | none => exact .inr ⟨rfl, rfl⟩
    | some journal => exact .inl rfl
  cases action with
  | Restore => exact .refl v
  | Quarantine => exact ⟨rfl, rfl, rfl, hj, .inr rfl⟩
  | Purge => exact ⟨rfl, rfl, rfl, hj, .inr rfl⟩

theorem meets_prepare_fence
    (hΦ : ∀ w c r w', Same s.deletion v w' → (action = .Restore → w' = v) → Φ w c r w')
    (h : Invariant s v) {Q : AgentResult Unit → Volume U → Prop}
    (hQ : Q (.ok ()) (prepared s.deletion action v)) :
    Meets (serving restores) Φ (prepare_fence s.start.marker s.deletion action).run
      Q v := by
  have hread : ∀ c r, Φ v c r v := fun c r => hΦ v c r v (.refl v) fun _ => rfl
  -- the journal and the fence of a quarantine or a purge
  have hfence : action ≠ .Restore → Q (.ok ()) { v with
      journal := some (v.journal.getD (new_journal s.deletion)), fence := true } →
      Meets (serving restores) Φ
        (do
          let _ ← load_or_create s.deletion
          ask .lifecycle_fence : Program U Unit).run Q v := by
    intro hne hQ
    rw [meets_seq]
    unfold load_or_create
    rw [meets_seq]
    refine meets_load hread h ?_
    cases hj : v.journal with
    | some journal =>
      refine meets_ask (hΦ _ _ _ _ ⟨rfl, rfl, rfl, .inl rfl, .inr rfl⟩ fun heq => absurd heq hne) ?_
      rw [hj, getD_some, ← hj] at hQ
      exact hQ
    | none =>
      have hput : validate_journal s.deletion (new_journal s.deletion) = .ok () :=
        validate_new_journal
      simp only [then_ok, put, meets_seq, meets_checked, hput]
      refine meets_ask (hΦ _ _ _ _ ⟨rfl, rfl, rfl, .inr ⟨hj, rfl⟩, .inl rfl⟩ fun heq =>
        absurd heq hne) ?_
      simp only [answer, then_ok, meets_pure]
      refine meets_ask (hΦ _ _ _ _ ⟨rfl, rfl, rfl, .inr ⟨hj, rfl⟩, .inr rfl⟩ fun heq =>
        absurd heq hne) ?_
      rw [hj, getD_none] at hQ
      exact hQ
  unfold prepare_fence
  rw [meets_seq]
  refine meets_verify hread h ?_
  show Meets _ _ _ _ _
  cases action with
  | Restore => exact hQ
  | Quarantine => exact hfence (by decide) hQ
  | Purge => exact hfence (by decide) hQ

/-- The command of an action, as a program. -/
abbrev Setting.command (s : Setting U) (action : ResourceLifecycleAction) :=
  (handle_lifecycle s.blake3 s.start.marker s.deletion action).run

/-- A refused command changes nothing but the fence, and creates the journal at most. -/
theorem meets_command_refused
    (hΦ : ∀ w c r w', Same s.deletion v w' → (action = .Restore → w' = v) → Φ w c r w')
    (h : Good s fenced v)
    (hrefused : refusal action (prepared_journal s.deletion action v.journal) = some error)
    (hQ : Q (.error error) (prepared s.deletion action v)) :
    Meets (serving restores) Φ (s.command action) Q v := by
  have hsame : Same s.deletion v (prepared s.deletion action v) := same_prepared action v
  rw [← journal_prepared] at hrefused
  unfold Setting.command handle_lifecycle
  rw [meets_seq]
  refine meets_prepare_fence hΦ h.invariant ?_
  refine meets_refused (fun c r => hΦ _ c r _ hsame ?_) (hsame.good h).invariant hrefused hQ
  rintro rfl
  rfl

/-- The journal at the end of an action. -/
def ended (s : Setting U) :
    ResourceLifecycleAction → FilesystemLifecycleJournal U
  | .Quarantine => settled s .Quarantined false
  | .Restore => settled s .Restored false
  | .Purge => settled s .Purged true

/-- What an action reports: the evidence of the trees as they were before the deletion. -/
def report (s : Setting U) : AgentResult ResourceLifecycleEvidence :=
  aggregate_evidence s.blake3 s.start.marker (settled s .Quarantined false) false

theorem aggregate_ended (action : ResourceLifecycleAction) :
    aggregate_evidence s.blake3 s.start.marker (ended s action) (action = .Purge) = report s := by
  cases action with
  | Quarantine => rfl
  | Restore => rfl
  | Purge =>
    simp only [report, ended, aggregate_evidence, settled, List.foldlM_map]
    rfl

section

variable (h : Invariant s v)

include h

theorem Invariant.isComplete (hj : v.journal = some journal)
    (hstate : journal.state.action ≠ .Quarantine) : IsComplete journal := by
  intro root hroot
  have hplaced := (h.journal_roots hj).2 root hroot
  have hrecorded : ∃ purge, Recorded s root purge := by
    cases hcase : journal.state <;> rw [hcase] at hplaced hstate
    · exact absurd rfl hstate
    · exact absurd rfl hstate
    · exact absurd rfl hstate
    · exact ⟨none, hplaced.1⟩
    · exact ⟨none, hplaced.1⟩
    · rcases hplaced with hplaced | hplaced
      · exact ⟨none, hplaced.1⟩
      · exact ⟨_, hplaced.2.1⟩
    · exact ⟨_, hplaced.1⟩
  obtain ⟨purge, hpurge⟩ := hrecorded
  rw [hpurge.was_present]
  nofun

theorem exists_complete_of_allowed
    (haction : action ≠ .Quarantine) (hallowed : refusal action v.journal = none) :
    ∃ journal, v.journal = some journal ∧ IsComplete journal := by
  cases hj : v.journal with
  | none =>
    rw [hj] at hallowed
    cases action with
    | Quarantine => exact absurd rfl haction
    | Restore => cases hallowed
    | Purge => cases hallowed
  | some journal =>
    refine ⟨journal, rfl, ?_⟩
    by_cases hstate : journal.state.action = .Quarantine
    · rw [← check_inventory_eq_ok]
      rw [hj] at hallowed
      cases hcheck : check_inventory journal with
      | ok _ => rfl
      | error error =>
        cases action <;> cases hcase : journal.state <;>
          simp_all [refusal, action]
    · exact h.isComplete hj hstate

/-- The command is not refused, and is no purge of trees that are being restored. -/
structure Allowed (deletion : Deletion U) (action : ResourceLifecycleAction) (v : Volume U) :
    Prop where
  accepted : refusal action (prepared_journal deletion action v.journal) = none
  restoring : action = .Purge → ∀ journal, v.journal = some journal → journal.state ≠ .Restoring

omit h in
/-- **Whole command**: one that is not refused ends in the state of its action, but a quarantine
stops at a root it cannot deal with. A purge during a restore is left out. -/
theorem meets_command
    (haccepts : ∀ fence, (fenced → fence = true) → restores fence = true)
    (h : Good s fenced v) (hallowed : Allowed s.deletion action v)
    (herror : ∀ error v', action = .Quarantine → Good s fenced v' →
      Halted s error v' → Q (.error error) v')
    (hQ : ∀ v', Good s fenced v' → v'.journal = some (ended s action) → Q (report s) v') :
    Meets (serving restores) (Keeps s fenced) (s.command action) Q v := by
  have hgood := (same_prepared action v).good h
  obtain ⟨hallowed, hrestoring⟩ := hallowed
  rw [← journal_prepared] at hallowed
  rw [← aggregate_ended action] at hQ
  unfold Setting.command handle_lifecycle
  rw [meets_seq]
  refine meets_prepare_fence (fun w c r w' hsame _ => (hsame.good h).keeps c r) h.invariant ?_
  simp only [then_ok, execute, meets_seq]
  refine meets_verify hgood.keeps hgood.invariant ?_
  show Meets _ _ _ _ _
  cases action with
  | Quarantine =>
    refine meets_quarantine hgood (fun _ => rfl) ?_ ?_ ?_
    · intro journal hj
      rw [hj] at hallowed
      cases hstate : journal.state <;>
        simp_all [refusal, action]
    · exact fun error v' hgood' hhalted _ => herror error v' rfl hgood' hhalted
    · exact fun v' hgood' hj _ => hQ v' hgood' hj
  | Restore =>
    obtain ⟨journal, hj, hcomplete⟩ :=
      exists_complete_of_allowed hgood.invariant (by decide) hallowed
    rw [hj] at hallowed
    refine meets_restore haccepts hgood hj hcomplete ?_ ?_ hQ
    · intro hstate
      simp [refusal, hstate, action] at hallowed
    · intro hstate
      simp [refusal, hstate, action] at hallowed
  | Purge =>
    obtain ⟨journal, hj, hcomplete⟩ :=
      exists_complete_of_allowed hgood.invariant (by decide) hallowed
    have hpurge : journal.state ≠ .Restoring := by
      have hj' : v.journal.getD (new_journal s.deletion) = journal := some.inj hj
      cases hv : v.journal with
      | none =>
        rw [← hj', hv]
        simp [new_journal]
      | some journal' =>
        rw [hv] at hj'
        exact hj' ▸ hrestoring rfl journal' hv
    rw [hj] at hallowed
    refine meets_purge hgood hj hcomplete hpurge ?_ hQ
    intro hstate
    simp [refusal, hstate] at hallowed

omit h in
theorem answer_journal {c : Call U} (h : Writes action c)
    (v : Volume U) : (v.answer restores c).2.journal = v.journal ∨
      ∃ journal, (v.answer restores c).2.journal = some journal ∧
        journal.state.action = action := by
  cases c with
  | put journal => exact .inr ⟨journal, rfl, h⟩
  | rename source destination =>
    refine .inl ?_
    simp only [answer, rename]
    repeat' split
    all_goals rfl
  | remove location path =>
    refine .inl ?_
    simp only [answer, remove]
    split <;> rfl
  | lifecycle_restore =>
    refine .inl ?_
    simp only [answer]
    split <;> rfl
  | _ => exact .inl rfl

/-- The journal is as it was, is new, or is in a state of the action. -/
def Written (deletion : Deletion U) (action : ResourceLifecycleAction) (v v' : Volume U) : Prop :=
  v'.journal = v.journal ∨ (v.journal = none ∧ v'.journal = some (new_journal deletion)) ∨
    ∃ journal, v'.journal = some journal ∧ journal.state.action = action

/-- **Bound**: wherever a command is cut short, it has written no state of another action. -/
theorem written_of_exec {trace : List (Event (Call U) Call.Answer (Volume U))}
    {x : Option (AgentResult ResourceLifecycleEvidence)}
    (hexec : Exec (serving restores) v (s.command action) trace v' x) :
    Written s.deletion action v v' := by
  have hmeets : Meets (serving restores)
      (fun w _ _ w' => Written s.deletion action v w → Written s.deletion action v w')
      (s.command action) (fun _ _ => True) v := by
    unfold Setting.command handle_lifecycle
    rw [meets_seq]
    refine meets_prepare_fence (fun w c r w' hsame _ _ => hsame.journal.imp_right .inl) h ?_
    rw [then_ok]
    refine (only_execute action).meets ?_ _
    intro s c r s' hanswer hwrites hs
    obtain rfl : (s.answer restores c).2 = s' := congrArg Prod.snd hanswer
    rcases answer_journal hwrites s with hsame | hwritten
    · rw [Written, hsame]
      exact hs
    · exact .inr (.inr hwritten)
  exact hexec.keeps (I := Written s.deletion action v)
    (fun e he => (hmeets.exec hexec).1 e he) (.inl rfl)

theorem refusal_own (hj : v.journal = some journal)
    (haction : journal.state.action = action) : refusal action (some journal) = none := by
  cases action with
  | Quarantine => simp [refusal, haction]
  | Restore =>
    have hcheck := check_inventory_eq_ok.mpr (h.isComplete hj (by rw [haction]; decide))
    simp [refusal, haction, hcheck]
  | Purge =>
    have hcheck := check_inventory_eq_ok.mpr (h.isComplete hj (by rw [haction]; decide))
    have hrestored : journal.state ≠ .Restored := by
      intro hstate
      rw [hstate] at haction
      cases haction
    simp [refusal, hrestored, hcheck]

end

/-- **Step**: what an attempt leaves is no obstacle for the next one. -/
theorem Allowed.of_written (h : Allowed s.deletion action v)
    (hv' : Invariant s v') (hwritten : Written s.deletion action v v') :
    Allowed s.deletion action v' := by
  rcases hwritten with hsame | ⟨hnone, hnew⟩ | ⟨journal, hj, hstate⟩
  · refine ⟨hsame ▸ h.accepted, ?_⟩
    rw [hsame]
    exact h.restoring
  · have haccepted := h.accepted
    rw [hnone] at haccepted
    refine ⟨?_, fun _ journal hj => ?_⟩
    · rw [hnew]
      cases action with
      | Restore => cases haccepted
      | Quarantine => exact haccepted
      | Purge => exact haccepted
    · obtain rfl := some.inj (hnew.symm.trans hj)
      nofun
  · refine ⟨?_, fun hpurge other hother hrestoring => ?_⟩
    · rw [hj, prepared_journal_some]
      exact refusal_own hv' hj hstate
    · obtain rfl := some.inj (hj.symm.trans hother)
      rw [hrestoring, hpurge] at hstate
      cases hstate

end NeoEngram.Agent

import NeoEngram.Central.HeadChanges
import NeoEngram.Framework.Interleaving

/-! # Heads in every run

Any number of callers of `commit_workspace` and recovery loops run side by
side, can be stopped between two calls, and a call can fail after its write.
Other services leave the Heads of Workspaces alone.

Every call of the programs is a change of the abstract system. What a program
has learned (that a row is stored, that a Head contains a Commit) stays true
whatever the others do, and this is what permits its next write.
-/

namespace NeoEngram.Central

open Checks Effects OrderedKeys Relation Runs List Option HeadStore

variable {U : UnicodeTables} {blake3 : Blake3} {s s' : HeadStore U} {α β : Type}

/-! ## The calls that are changes -/

/-- What has to be known for a call to be a change of the abstract system. -/
def Permitted (s : HeadStore U) : HeadCall U → Prop
  | .store (.advance_workspace_commit request) =>
    ∃ commit, s.precommits.commits commit.key = some commit ∧ request = advance_request commit
  | .store (.acknowledge_head_publication key commit_id _) => Published s key commit_id
  | _ => True

theorem requested_of_run {call : PreCommitCall U} {answer : PreCommitAnswer U}
    {precommits : InMemoryPreCommitState U}
    (h : call.run blake3 s.precommits = .ok (answer, precommits))
    (hpublished : ∀ key commit_id at_ms,
      call = .acknowledge_head_publication key commit_id at_ms → Published s key commit_id) :
    ReflGen (Change blake3) s (s.with_precommits precommits) :=
  .single (.requested (.done h) hpublished)

theorem StoreCall.run_changes {call : StoreCall U} {value : call.Value}
    (h : call.run blake3 s = .ok (value, s')) (hp : Permitted s (.store call)) :
    ReflGen (Change blake3) s s' := by
  cases call with
  | get_artifact | get_workspace | get_precommit | get_commit | list_unpublished_commits =>
    cases h
    exact .refl
  | advance_workspace_commit request =>
    obtain ⟨commit, hstored, hrequest⟩ := hp
    obtain ⟨⟨outcome, catalog⟩, hadvance, heq⟩ := map_eq_ok.mp h
    cases heq
    obtain ⟨workspace, hworkspace, ⟨hsame, -⟩ | ⟨hparent, workspace', hcommit, hcatalog⟩⟩ :=
      Catalog.advance_workspace_commit_ok hadvance
    · subst hsame
      exact .refl
    · subst hrequest
      exact .single (.advanced hstored hworkspace hparent hcommit hcatalog)
  | sync_job job published_index at_ms =>
    obtain ⟨⟨outcome, precommits⟩, hsync, heq⟩ := map_eq_ok.mp h
    cases heq
    have hrun : PreCommitCall.run blake3 s.precommits (.sync_job job published_index at_ms) =
        .ok (.synced outcome, precommits) := by
      rw [PreCommitCall.run, hsync]
      rfl
    exact requested_of_run hrun (by simp)
  | commit request =>
    obtain ⟨⟨outcome, precommits⟩, hcommit, heq⟩ := map_eq_ok.mp h
    cases heq
    have hrun : PreCommitCall.run blake3 s.precommits (.commit request) =
        .ok (.committed outcome, precommits) := by
      rw [PreCommitCall.run, hcommit]
      rfl
    exact requested_of_run hrun (by simp)
  | acknowledge_head_publication key commit_id at_ms =>
    obtain ⟨⟨record, precommits⟩, hack, heq⟩ := map_eq_ok.mp h
    cases heq
    have hrun : PreCommitCall.run blake3 s.precommits
        (.acknowledge_head_publication key commit_id at_ms) =
          .ok (.acknowledged record, precommits) := by
      rw [PreCommitCall.run, hack]
      rfl
    refine requested_of_run hrun ?_
    intro key' commit_id' at_ms' heq
    cases heq
    exact hp

variable {call : HeadCall U}

/-- **Calls are changes**, also those that fail or whose answer is lost. -/
theorem Answers.changes {answer : HeadAnswer call}
    (h : Answers blake3 s call answer s') (hp : Permitted s call) :
    ReflGen (Change blake3) s s' := by
  cases h with
  | done hrun => exact StoreCall.run_changes hrun hp
  | unanswered hrun => exact StoreCall.run_changes hrun hp
  | refused => exact .refl
  | failed => exact .refl
  | side => exact .refl

/-! ## Rules for programs among changes -/

/-- The obligation on every call: it is a change, or changes nothing. -/
def Steps (blake3 : Blake3) : CallProp (HeadCall U) HeadAnswer (HeadStore U) :=
  fun s _ _ s' => ReflGen (Change blake3) s s'

/-- From a state in `P`, whatever the others do, each call of the program is a change, and a result
comes with a state in `Q`. -/
def Works (blake3 : Blake3) (P : HeadStore U → Prop) (x : HeadM U α)
    (Q : α → HeadStore U → Prop) : Prop :=
  ∀ s, P s → Relies (Changes blake3) (Answers blake3) (Steps blake3) x.run (OnOk Q) s

/-- Changes keep the property. -/
def Stable (blake3 : Blake3) (P : HeadStore U → Prop) : Prop :=
  ∀ s s', Changes blake3 s s' → P s → P s'

section Rules

variable {P P' : HeadStore U → Prop} {Q Q' : α → HeadStore U → Prop} {x : HeadM U α}

theorem Stable.and (h : Stable blake3 P) (h' : Stable blake3 P') :
    Stable blake3 (fun s => P s ∧ P' s) :=
  fun s s' hchanges hs => ⟨h s s' hchanges hs.1, h' s s' hchanges hs.2⟩

theorem Stable.step (h : Stable blake3 P) (hstep : ReflGen (Change blake3) s s') (hs : P s) :
    P s' :=
  h s s' hstep.to_reflTransGen hs

theorem Works.mono (h : Works blake3 P x Q) (hpre : ∀ s, P' s → P s)
    (hpost : ∀ a s, Q a s → Q' a s) : Works blake3 P' x Q' :=
  fun s hs => (h s (hpre s hs)).mono fun _ _ hr => hr.mono fun a => hpost a _

theorem works_pure {a : α} (h : ∀ s, P s → Q a s) : Works blake3 P (pure a) Q :=
  fun s hs => h s hs

theorem works_throw {e : Failure} : Works blake3 P (throw e) Q :=
  fun _ _ => trivial

theorem works_checked {x : Except Failure α} (h : ∀ a s, x = .ok a → P s → Q a s) :
    Works blake3 P (checked x) Q := by
  intro s hs
  show OnOk Q x s
  cases x with
  | ok a => exact h a s rfl hs
  | error e => trivial

theorem works_ite {c : Prop} [Decidable c] {x y : HeadM U α} (hx : c → Works blake3 P x Q)
    (hy : ¬ c → Works blake3 P y Q) : Works blake3 P (if c then x else y) Q := by
  by_cases hc : c
  · rw [if_pos hc]
    exact hx hc
  · rw [if_neg hc]
    exact hy hc

theorem Works.seq {f : α → HeadM U β} {R : β → HeadStore U → Prop} (h : Works blake3 P x Q)
    (hf : ∀ a, Works blake3 (Q a) (f a) R) : Works blake3 P (x >>= f) R := by
  intro s hs
  refine meets_seq_onOk.mpr ((h s hs).mono ?_)
  intro r m hr
  cases r with
  | ok a => exact hf a m hr
  | error e => trivial

theorem works_request {Q : HeadAnswer call → HeadStore U → Prop}
    (hstable : Stable blake3 P) (hpermitted : ∀ s, P s → Permitted s call)
    (hpost : ∀ s answer s', P s → Answers blake3 s call answer s' → Q answer s') :
    Works blake3 P (request call) Q := by
  intro s hs
  refine relies_call.mpr ?_
  intro m hm answer s' hanswer
  have hP := hstable s m hm hs
  exact ⟨hanswer.changes (hpermitted m hP), hpost m answer s' hP hanswer⟩

theorem works_ask {Q : call.Value → HeadStore U → Prop}
    (hstable : Stable blake3 P) (hpermitted : ∀ s, P s → Permitted s call)
    (hpost : ∀ s value s', P s → Answers blake3 s call (.ok value) s' → Q value s') :
    Works blake3 P (ask call) Q := by
  apply Works.seq (Q := fun answer s' => ∀ value, answer = .ok value → Q value s')
  · apply works_request hstable hpermitted
    intro s answer s' hs hanswer value heq
    subst heq
    exact hpost s value s' hs hanswer
  · intro answer
    apply works_checked
    intro value s' heq hs'
    cases answer with
    | ok v =>
      cases heq
      exact hs' _ rfl
    | error e => cases heq

/-- The calls that are changes in every state. -/
def Quiet (call : HeadCall U) : Prop := ∀ s, Permitted s call

theorem only_ask (h : Quiet call) : Only Quiet (ask call).run :=
  (only_request h).seq fun _ => only_checked _

theorem works_quiet (h : Only Quiet x.run) (hstable : Stable blake3 P) :
    Works blake3 P x (fun _ => P) := by
  intro s hs
  have hchanges : ∀ m c r m', P m → Answers blake3 m c r m' → Quiet c →
      Steps blake3 m c r m' ∧ Changes blake3 m m' := by
    intro m c r m' _ hanswer hquiet
    have hstep := hanswer.changes (hquiet m)
    exact ⟨hstep, hstep.to_reflTransGen⟩
  refine (Only.relies h (fun _ => .refl) (fun _ _ _ => .trans) hstable hchanges hs).mono ?_
  intro r s' hchanges
  cases r with
  | ok a => exact hstable s s' hchanges hs
  | error e => trivial

/-- A program whose failure is not the end: what changes keep still holds. -/
theorem Works.outcome (h : Works blake3 P x Q) (hstable : Stable blake3 P) :
    Works blake3 P (Effects.outcome x) (fun _ => P) := by
  intro s hs
  rw [Relies, meets_outcome]
  have htrack := (h s hs).track (fun _ => .refl) (fun _ _ _ => .trans)
    fun _ _ _ _ hstep => ReflGen.to_reflTransGen hstep
  refine htrack.mono ?_
  intro r s' ⟨_, hchanges⟩
  exact hstable s s' hchanges hs

end Rules

/-! ## What the programs do -/

theorem stable_reached : Stable (U := U) blake3 (Reached blake3) :=
  fun _ _ hchanges hs => hs.trans hchanges

theorem stable_contains (key : IndexKey) (commit_id : CommitId) :
    Stable (U := U) blake3 (fun s => Contains s key commit_id) :=
  fun _ _ hchanges => hchanges.keeps_contains

/-- The stores are reached, and a Pre-commit is committed as a Commit. -/
def Made (blake3 : Blake3) (key : PreCommitKey) (commit : CommitRecord U) (s : HeadStore U) :
    Prop :=
  Reached blake3 s ∧ CommittedAs s.precommits key commit

theorem stable_made (key : PreCommitKey) (commit : CommitRecord U) :
    Stable blake3 (Made blake3 key commit) := by
  intro s s' hchanges
  induction hchanges with
  | refl => exact id
  | tail hbefore hchange ih =>
    intro hs
    obtain ⟨hreached, hmade⟩ := ih hs
    refine ⟨hreached.trans (.single hchange), ?_⟩
    cases hchange with
    | advanced => exact hmade
    | catalog => exact hmade
    | requested hstep => exact hmade.step hreached.records hstep

variable {commit : CommitRecord U}

theorem Made.stored {key : PreCommitKey} (h : Made blake3 key commit s) :
    s.precommits.commits commit.key = some commit := by
  obtain ⟨-, _, -, -, -, -, hstored, -⟩ := h
  exact hstored

theorem Made.published {key : PreCommitKey} (h : Made blake3 key commit s)
    (hcontains : Contains s commit.workspace commit.commit_id) :
    Published s key commit.commit_id := by
  obtain ⟨hreached, r, hr, hkey, -, -, -, hworkspace⟩ := h
  intro r' hr' _
  obtain ⟨hmem, hkey'⟩ := hreached.records.stored hr'
  rw [hreached.records.eq_of_key hmem hr (hkey'.trans hkey.symm), ← hworkspace]
  exact hcontains

section Programs

variable {P : HeadStore U → Prop} {rounds : Nat}

/-- The Head that a Workspace record shows was its Head, and is contained in the Head ever since. -/
def Seen (key : IndexKey) (workspace : WorkspaceRecord) (s : HeadStore U) : Prop :=
  ∀ head, workspace.head_commit_id = some head → Contains s key head

theorem stable_seen (key : IndexKey) (workspace : WorkspaceRecord) :
    Stable (U := U) blake3 (Seen key workspace) :=
  fun _ _ hchanges hseen head hhead => hchanges.keeps_contains (hseen head hhead)

theorem load_commit_workspace_works (hP : Stable blake3 P) (commit : CommitRecord U) :
    Works blake3 P (load_commit_workspace commit)
      (fun workspace s => P s ∧ Seen commit.workspace workspace s) := by
  apply Works.seq (Q := fun found s => P s ∧ ∀ workspace, found = some workspace →
    Seen commit.workspace workspace s)
  · apply works_ask hP
    · exact fun _ _ => trivial
    · intro s found s' hs hanswer
      cases hanswer with
      | done h =>
        cases h
        refine ⟨hs, ?_⟩
        intro workspace hworkspace head hhead
        exact ⟨head, by rw [Catalog.head, hworkspace, bind_some, hhead], .refl⟩
  · intro found
    apply works_checked
    intro workspace s hfound hs
    exact ⟨hs.1, hs.2 workspace (ok_or_eq_ok.mp hfound)⟩

theorem get_commit_answer {key : CommitKey} {answer : CentralResult (Option (CommitRecord U))}
    (h : Answers blake3 s (.store (.get_commit key)) answer s') :
    s' = s ∧ (answer = .ok (s'.precommits.commits key) ∨
      ∃ error, answer = .error error ∧ error.code = .StorageFailure) := by
  cases h with
  | done h =>
    cases h
    exact ⟨rfl, .inl rfl⟩
  | refused h => cases h
  | unanswered h hstorage =>
    cases h
    exact ⟨rfl, .inr ⟨_, rfl, hstorage⟩⟩
  | failed hstorage => exact ⟨rfl, .inr ⟨_, rfl, hstorage⟩⟩

/-- Rows are looked up while other programs change the stores. -/
theorem looks_under_changes : Looks (U := U) (Env.under (Changes blake3) (Answers blake3))
      (fun error => error.code = .StorageFailure) := by
  intro s key answer s' ⟨m, hm, hanswer⟩
  obtain ⟨rfl, hrow⟩ := get_commit_answer hanswer
  exact ⟨hm.keeps_rows, hrow⟩

theorem is_commit_ancestor_works (hP : Stable blake3 P) (scope : CommitScope)
    (ancestor descendant : CommitId) :
    Works blake3 P (is_commit_ancestor rounds scope ancestor descendant)
      (fun found s => P s ∧
        (found = true → Ancestor s.precommits.commits scope ancestor descendant)) := by
  intro s hs
  have hends : Relies (Changes blake3) (Answers blake3) (Steps blake3) _ _ s :=
    is_commit_ancestor_ends looks_under_changes
      (fun _ _ _ _ _ m _ hanswer => hanswer.changes trivial) rounds scope ancestor descendant s
  have htrack := hends.track (fun _ => .refl) (fun _ _ _ => .trans)
    fun _ _ _ _ hstep => ReflGen.to_reflTransGen hstep
  refine htrack.mono ?_
  intro r s' ⟨hend, hchanges⟩
  cases r with
  | error e => trivial
  | ok found =>
    refine ⟨hP s s' hchanges hs, ?_⟩
    intro hfound
    subst hfound
    exact hend

theorem workspace_contains_commit_works (hP : Stable blake3 P) (commit : CommitRecord U)
    (workspace : WorkspaceRecord) :
    Works blake3 (fun s => P s ∧ Seen commit.workspace workspace s)
      (workspace_contains_commit rounds commit workspace)
      (fun contains s => P s ∧
        (contains = true → Contains s commit.workspace commit.commit_id)) := by
  unfold workspace_contains_commit
  cases hhead : workspace.head_commit_id with
  | none => exact works_pure fun s hs => ⟨hs.1, nofun⟩
  | some head =>
    apply (is_commit_ancestor_works (hP.and (stable_seen commit.workspace workspace)) _ _ _).mono
      (fun _ hs => hs)
    intro found s ⟨⟨hs, hseen⟩, hancestor⟩
    refine ⟨hs, ?_⟩
    intro hfound
    -- the Head of now contains the Head that was seen, and that contains the Commit
    obtain ⟨now, hnow, hbefore⟩ := hseen head hhead
    exact ⟨now, hnow, hbefore.trans (hancestor hfound)⟩

/-- What a program knows after the publication of a Head. -/
def Holds (P : HeadStore U → Prop) (commit : CommitRecord U) (s : HeadStore U) : Prop :=
  P s ∧ Contains s commit.workspace commit.commit_id

theorem observe_moved_head_works (hP : Stable blake3 P) (commit : CommitRecord U)
    (error : CentralError) :
    Works blake3 P (observe_moved_head rounds commit error) (fun _ => Holds P commit) := by
  apply (load_commit_workspace_works hP commit).seq
  intro workspace
  apply (workspace_contains_commit_works hP commit workspace).seq
  intro contains
  cases contains with
  | true => exact works_pure fun s hs => ⟨hs.1, hs.2 rfl⟩
  | false => exact works_throw

theorem advance_answer {outcome : AdvanceWorkspaceCommitOutcome}
    (h : Answers blake3 s (.store (.advance_workspace_commit (advance_request commit)))
      (.ok outcome) s') : Contains s' commit.workspace commit.commit_id := by
  cases h with
  | done h =>
    obtain ⟨⟨outcome, catalog⟩, hadvance, heq⟩ := map_eq_ok.mp h
    cases heq
    obtain ⟨workspace, hworkspace, ⟨hsame, hhead⟩ | ⟨-, workspace', hhead, hcatalog⟩⟩ :=
      Catalog.advance_workspace_commit_ok hadvance
    · subst hsame
      refine ⟨commit.commit_id, ?_, .refl⟩
      rw [with_catalog, Catalog.head]
      rw [show s.catalog.workspaces commit.workspace = some workspace from hworkspace,
        bind_some, hhead]
      rfl
    · refine ⟨commit.commit_id, ?_, .refl⟩
      simp only [with_catalog, Catalog.head, hcatalog]
      rw [show (advance_request commit).workspace = commit.workspace from rfl,
        Function.update_self, bind_some, hhead]
      rfl

theorem advance_head_works (hP : Stable blake3 P) (commit : CommitRecord U)
    (hstored : ∀ s, P s → s.precommits.commits commit.key = some commit) :
    Works blake3 P (advance_head rounds commit) (fun _ => Holds P commit) := by
  apply Works.seq (Q := fun answer s => P s ∧ ∀ outcome, answer = .ok outcome →
    Contains s commit.workspace commit.commit_id)
  · have hpermitted : ∀ s, P s →
        Permitted s (.store (.advance_workspace_commit (advance_request commit))) :=
      fun s hs => ⟨commit, hstored s hs, rfl⟩
    apply works_request hP hpermitted
    intro s answer s' hs hanswer
    refine ⟨hP.step (hanswer.changes (hpermitted s hs)) hs, ?_⟩
    intro outcome heq
    subst heq
    exact advance_answer hanswer
  · intro answer
    cases answer with
    | ok outcome => exact works_pure fun s hs => ⟨hs.1, hs.2 outcome rfl⟩
    | error error =>
      apply works_ite
      · intro _
        exact (observe_moved_head_works hP commit error).mono (fun _ hs => hs.1) fun _ _ h => h
      · exact fun _ => works_throw

/-- **Publication**: it succeeds only with the Commit contained in the Head. -/
theorem publish_committed_workspace_head_works (hP : Stable blake3 P) (commit : CommitRecord U)
    (hstored : ∀ s, P s → s.precommits.commits commit.key = some commit) :
    Works blake3 P (publish_committed_workspace_head rounds commit) (fun _ => Holds P commit) := by
  apply (load_commit_workspace_works hP commit).seq
  intro workspace
  apply (workspace_contains_commit_works hP commit workspace).seq
  intro contains
  cases contains with
  | true => exact works_pure fun s hs => ⟨hs.1, hs.2 rfl⟩
  | false => exact (advance_head_works hP commit hstored).mono (fun _ hs => hs.1) fun _ _ h => h

theorem publish_and_acknowledge_works (key : PreCommitKey) (now : UnixMillis)
    (commit : CommitRecord U) :
    Works blake3 (Made blake3 key commit) (publish_and_acknowledge rounds key now commit)
      (fun _ => Reached blake3) := by
  have hmade : Stable blake3 (Made blake3 key commit) := stable_made key commit
  apply (publish_committed_workspace_head_works hmade commit fun s hs => hs.stored).seq
  intro published
  have hpermitted : ∀ s, Holds (Made blake3 key commit) commit s →
      Permitted s (.store (.acknowledge_head_publication key commit.commit_id now)) :=
    fun s hs => hs.1.published hs.2
  apply Works.seq (Q := fun _ => Reached blake3)
  · apply works_ask (hmade.and (stable_contains commit.workspace commit.commit_id)) hpermitted
    intro s value s' hs hanswer
    exact stable_reached.step (hanswer.changes (hpermitted s hs)) hs.1.1
  · exact fun _ => works_pure fun _ hs => hs

/-! ### `commit_workspace` -/

theorem load_ready_workspace_quiet (request : CommitWorkspaceRequest) :
    Only Quiet (load_ready_workspace request : HeadM U WorkspaceRecord).run := by
  apply (only_ask fun _ => by trivial).seq
  intro _
  apply (only_checked _).seq
  intro _
  apply (only_checked _).seq
  intro _
  apply (only_ask fun _ => by trivial).seq
  intro _
  apply (only_checked _).seq
  intro _
  apply (only_checked _).seq
  intro _
  apply (only_checked _).seq
  exact fun _ => only_pure _

theorem index_of_job_quiet (job : JobRecord U) : Only Quiet (index_of_job job).run := by
  unfold index_of_job
  by_cases hstate : job.state = .Succeeded
  · rw [if_pos hstate]
    exact (only_ask fun _ => by trivial).seq fun _ => only_pure _
  · rw [if_neg hstate]
    exact only_pure _

section

variable (now : UnixMillis)

theorem follow_running_quiet (precommit : PreCommitRecord U) :
    Only Quiet (follow_running now precommit).run := by
  apply (only_ask fun _ => by trivial).seq
  intro job
  cases job with
  | none => exact only_pure _
  | some job =>
    apply (index_of_job_quiet job).seq
    intro _
    exact (only_ask fun _ => by trivial).seq fun _ => only_pure _

section

variable (request : CommitWorkspaceRequest)

theorem load_precommit_quiet :
    Only Quiet (load_precommit now request : HeadM U (PreCommitRecord U)).run := by
  apply (only_ask fun _ => by trivial).seq
  intro _
  apply (only_checked _).seq
  intro precommit
  apply (only_checked _).seq
  intro _
  by_cases hstate : precommit.state = .Running
  · rw [if_pos hstate]
    exact follow_running_quiet now precommit
  · rw [if_neg hstate]
    exact only_pure _

theorem check_candidate_quiet (workspace : WorkspaceRecord) (precommit : PreCommitRecord U) :
    Only Quiet (check_candidate request workspace precommit).run := by
  apply (only_checked _).seq
  intro _
  apply (only_checked _).seq
  intro _
  apply (only_checked _).seq
  intro _
  by_cases hlayout : request.data_layout = .WholeFile
  · rw [if_pos hlayout]
    apply (only_ask fun _ => by trivial).seq
    intro _
    exact (only_checked _).seq fun _ => only_checked _
  · rw [if_neg hlayout]
    exact only_pure _

/-- **The commit call**: the Commit that comes back was made. -/
theorem commit_works (request : PreCommitCommitRequest U) :
    Works blake3 (Reached blake3) (ask (.store (.commit request)))
      (fun outcome => Made blake3 request.key outcome.commit) := by
  apply works_ask stable_reached
  · exact fun _ _ => trivial
  · intro s outcome s' hs hanswer
    refine ⟨stable_reached.step (hanswer.changes trivial) hs, ?_⟩
    cases hanswer with
    | done h =>
      obtain ⟨⟨value, precommits⟩, hcommit, heq⟩ := map_eq_ok.mp h
      cases heq
      obtain ⟨log, hrun⟩ := hs.run
      exact run_commit_made hs.records (.of_run hrun) hcommit

theorem replay_commit_works (precommit : PreCommitRecord U) :
    Works blake3 (Reached blake3) (replay_commit request precommit)
      (fun outcome => Made blake3 ⟨request.workspace.tenant_id, request.precommit_id⟩
        outcome.commit) := by
  apply (works_quiet (only_checked _) stable_reached).seq
  intro _
  apply (works_quiet (only_ask fun _ => by trivial) stable_reached).seq
  intro _
  apply (works_quiet (only_checked _) stable_reached).seq
  intro _
  apply (works_quiet (only_checked _) stable_reached).seq
  exact fun _ => commit_works _

theorem commit_candidate_works (workspace : WorkspaceRecord) (precommit : PreCommitRecord U) :
    Works blake3 (Reached blake3) (commit_candidate blake3 now request workspace precommit)
      (fun outcome => Made blake3 ⟨request.workspace.tenant_id, request.precommit_id⟩
        outcome.commit) := by
  apply (works_quiet (only_checked _) stable_reached).seq
  intro _
  apply (works_quiet (only_ask fun _ => by trivial) stable_reached).seq
  intro _
  apply (works_quiet (only_checked _) stable_reached).seq
  intro _
  apply (works_quiet (only_checked _) stable_reached).seq
  intro _
  apply (works_quiet (only_ask fun _ => by trivial) stable_reached).seq
  intro _
  apply (works_quiet (only_ask fun _ => by trivial) stable_reached).seq
  intro _
  apply (works_quiet (only_ask fun _ => by trivial) stable_reached).seq
  exact fun _ => commit_works _

theorem finish_commit_works (workspace : WorkspaceRecord) (outcome : PreCommitCommitOutcome U) :
    Works blake3 (Made blake3 ⟨request.workspace.tenant_id, request.precommit_id⟩ outcome.commit)
      (finish_commit rounds now request workspace outcome) (fun _ => Reached blake3) := by
  apply (works_quiet (only_ask fun _ => by trivial) (stable_made _ _)).seq
  intro _
  apply works_ite
  · exact fun _ => works_pure fun _ hs => hs.1
  · intro _
    apply (publish_and_acknowledge_works _ now outcome.commit).seq
    exact fun _ => works_pure fun _ hs => hs

end

theorem commit_workspace_works (now : Nat → UnixMillis) (request : CommitWorkspaceRequest) :
    Works blake3 (Reached blake3)
      (commit_workspace rounds blake3 now request : HeadM U (WorkspaceCommitResult U))
      (fun _ => Reached blake3) := by
  apply (works_quiet (load_ready_workspace_quiet request) stable_reached).seq
  intro workspace
  apply (works_quiet (load_precommit_quiet (now 0) request) stable_reached).seq
  intro precommit
  apply (works_quiet (check_candidate_quiet request workspace precommit) stable_reached).seq
  intro _
  by_cases hcommitted : precommit.state = .Committed
  · rw [if_pos hcommitted]
    apply (replay_commit_works request precommit).seq
    exact fun outcome => finish_commit_works (now 2) request workspace outcome
  · rw [if_neg hcommitted]
    apply (commit_candidate_works (now 1) request workspace precommit).seq
    exact fun outcome => finish_commit_works (now 2) request workspace outcome

/-! ### The recovery loop -/

/-- The stores are reached, and a record that was read is still the record of a committed
Pre-commit. -/
def Known (blake3 : Blake3) (precommit : PreCommitRecord U) (s : HeadStore U) : Prop :=
  Reached blake3 s ∧ precommit.state = .Committed ∧
    ∃ r ∈ values s.precommits.precommits, SameCommit precommit r

theorem stable_known (precommit : PreCommitRecord U) : Stable blake3 (Known blake3 precommit) := by
  intro s s' hchanges
  induction hchanges with
  | refl => exact id
  | tail hbefore hchange ih =>
    intro hs
    obtain ⟨hreached, hcommitted, r, hr, hsame⟩ := ih hs
    refine ⟨hreached.trans (.single hchange), hcommitted, ?_⟩
    cases hchange with
    | advanced => exact ⟨r, hr, hsame⟩
    | catalog => exact ⟨r, hr, hsame⟩
    | requested hstep =>
      obtain ⟨r', hr', hsame'⟩ := hstep.records.committed_stays hreached.records hr
        (hsame.state.trans hcommitted)
      exact ⟨r', hr', hsame.trans hsame'⟩

theorem Known.made {precommit : PreCommitRecord U} {commit_id : CommitId}
    (h : Known blake3 precommit s) (hid : precommit.committed_commit_id = some commit_id)
    (hrow : s.precommits.commits (precommit.workspace.scope.key commit_id) = some commit) :
    Made blake3 precommit.key commit s := by
  obtain ⟨hreached, hcommitted, r, hr, hsame⟩ := h
  obtain ⟨log, hrun⟩ := hreached.run
  obtain ⟨made, hmade⟩ := committed_made hrun r hr (hsame.state.trans hcommitted)
  obtain ⟨hmade_id, hstored, hworkspace⟩ := hmade
  have hmade_id' : made.commit_id = commit_id :=
    Option.some.inj (hmade_id.symm.trans (hsame.committed.trans hid))
  have hkey : made.key = precommit.workspace.scope.key commit_id := by
    show made.workspace.scope.key made.commit_id = _
    rw [hworkspace, hsame.workspace, hmade_id']
  rw [hkey, hrow] at hstored
  cases hstored
  exact ⟨hreached, r, hr, hsame.key, hsame.state.trans hcommitted, hmade_id, hkey ▸ hrow,
    hworkspace⟩

theorem publish_committed_heads_works (precommit : PreCommitRecord U) :
    Works blake3 (Known blake3 precommit) (publish_committed_heads rounds now precommit)
      (fun _ => Reached blake3) := by
  apply Works.seq (Q := fun commit_id s => Known blake3 precommit s ∧
    precommit.committed_commit_id = some commit_id)
  · apply works_checked
    exact fun commit_id s hid hs => ⟨hs, ok_or_eq_ok.mp hid⟩
  intro commit_id
  have hstable : Stable blake3 (fun s => Known blake3 precommit s ∧
      precommit.committed_commit_id = some commit_id) :=
    (stable_known precommit).and fun _ _ _ hid => hid
  apply Works.seq (Q := fun found s => ∀ commit, found = some commit →
    Made blake3 precommit.key commit s)
  · apply works_ask hstable
    · exact fun _ _ => trivial
    · intro s found s' ⟨hknown, hid⟩ hanswer commit hfound
      obtain ⟨hsame, hrow | ⟨error, herror, -⟩⟩ := get_commit_answer hanswer
      · subst hsame
        cases hrow
        exact hknown.made hid hfound
      · cases herror
  intro found
  apply Works.seq (Q := fun commit => Made blake3 precommit.key commit)
  · apply works_checked
    exact fun commit s hfound hs => hs commit (ok_or_eq_ok.mp hfound)
  intro commit
  apply (publish_and_acknowledge_works precommit.key now commit).seq
  exact fun _ => works_pure fun _ hs => hs

/-- A page of records that were read. -/
def KnownPage (blake3 : Blake3) (records : List (PreCommitRecord U)) (s : HeadStore U) : Prop :=
  Reached blake3 s ∧ ∀ precommit ∈ records, Known blake3 precommit s

theorem stable_known_page (records : List (PreCommitRecord U)) :
    Stable blake3 (KnownPage blake3 records) :=
  fun s s' hchanges hs =>
    ⟨hs.1.trans hchanges, fun precommit hmem =>
      stable_known precommit s s' hchanges (hs.2 precommit hmem)⟩

theorem recover_page_works (records : List (PreCommitRecord U)) :
    Works blake3 (KnownPage blake3 records) (recover_page rounds now records)
      (fun _ => Reached blake3) := by
  induction records with
  | nil => exact works_pure fun _ hs => hs.1
  | cons precommit records ih =>
    have hone : Works blake3 (KnownPage blake3 (precommit :: records))
        (publish_committed_heads rounds now precommit) (fun _ => Reached blake3) :=
      (publish_committed_heads_works now precommit).mono
        (fun _ hs => hs.2 precommit mem_cons_self) fun _ _ h => h
    apply (hone.outcome (stable_known_page _)).seq
    intro _
    exact ih.mono (fun _ hs => ⟨hs.1, fun p hp => hs.2 p (mem_cons_of_mem _ hp)⟩)
      fun _ _ h => h

theorem list_unpublished_works (after : Option PreCommitKey) (limit : Nat) :
    Works blake3 (Reached blake3) (ask (.store (.list_unpublished_commits after limit)))
      (fun records : List (PreCommitRecord U) => KnownPage blake3 records) := by
  apply works_ask stable_reached
  · exact fun _ _ => trivial
  · intro s records s' hs hanswer
    cases hanswer with
    | done h =>
      cases h
      refine ⟨hs, ?_⟩
      intro precommit hmem
      have hlisted := mem_of_mem_take hmem
      simp only [mem_filter, decide_eq_true_eq] at hlisted
      exact ⟨hs, hlisted.2.2.1, precommit, hlisted.1, .refl precommit⟩

theorem recover_unpublished_commits_works (after : Option PreCommitKey) (limit : Nat) :
    Works blake3 (Reached (U := U) blake3) (recover_unpublished_commits rounds now after limit)
      (fun _ => Reached blake3) := by
  apply Works.seq (Q := fun records => KnownPage blake3 records)
  · refine (list_unpublished_works after limit).seq fun (records : List (PreCommitRecord U)) => ?_
    apply works_ite
    · intro _
      exact (list_unpublished_works none limit).mono (fun _ hs => hs.1) fun _ _ h => h
    · intro _
      exact works_pure fun _ hs => hs
  · exact fun records => recover_page_works now records

end

end Programs

/-! ## Heads in every run -/

inductive HeadJob where
  | commit_workspace (now : Nat → UnixMillis) (request : CommitWorkspaceRequest)
  | recover_unpublished_commits (now : UnixMillis) (after : Option PreCommitKey) (limit : Nat)

def HeadJob.program (rounds : Nat) (blake3 : Blake3) :
    HeadJob → Prog (HeadCall U) HeadAnswer (Except Failure Unit)
  | .commit_workspace now request =>
    (do let _ ← Central.commit_workspace rounds blake3 now request; return () : HeadM U Unit).run
  | .recover_unpublished_commits now after limit =>
    (Central.recover_unpublished_commits rounds now after limit : HeadM U Unit).run

/-- Other services acknowledge nothing, and do not change the Heads of Workspaces. -/
inductive OtherServices (blake3 : Blake3) (s : HeadStore U) : HeadStore U → Prop
  | requested {event : PreCommitEvent U} {precommits : InMemoryPreCommitState U}
      (hstep : PreCommitStep blake3 s.precommits event precommits)
      (hother : ∀ key commit_id at_ms,
        event.1 ≠ .acknowledge_head_publication key commit_id at_ms) :
      OtherServices blake3 s (s.with_precommits precommits)
  | catalog {catalog : Catalog} (hkeep : KeepsHeads s.catalog catalog) :
      OtherServices blake3 s (s.with_catalog catalog)

theorem OtherServices.change (h : OtherServices blake3 s s') : Change blake3 s s' := by
  cases h with
  | requested hstep hother =>
    exact .requested hstep fun key commit_id at_ms heq => absurd heq (hother key commit_id at_ms)
  | catalog hkeep => exact .catalog hkeep

section Pool

abbrev HeadPool (ι : Type) (U : UnicodeTables) :=
  Pool ι (HeadCall U) HeadAnswer (HeadStore U) HeadJob (Except Failure Unit)

abbrev HeadEvent (ι : Type) (U : UnicodeTables) :=
  PoolCall ι (HeadCall U) HeadAnswer (HeadStore U) HeadJob

variable {ι : Type} [DecidableEq ι] (rounds : Nat) (blake3 : Blake3)

abbrev HeadPoolStep : HeadPool ι U → Option (HeadEvent ι U) → HeadPool ι U → Prop :=
  Pool.Step (fun _ => Answers blake3) (fun _ => HeadJob.program rounds blake3)
    (OtherServices blake3)

abbrev HeadPoolRun : HeadPool ι U → List (HeadEvent ι U) → HeadPool ι U → Prop :=
  Pool.Run (fun _ => Answers blake3) (fun _ => HeadJob.program rounds blake3)
    (OtherServices blake3)

end Pool

variable {ι : Type} [DecidableEq ι] {rounds : Nat}

theorem HeadJob.program_works (job : HeadJob) (hs : Reached blake3 s) :
    Relies (Changes blake3) (Answers blake3) (Steps blake3) (job.program rounds blake3)
      (fun _ _ => True) s := by
  cases job with
  | commit_workspace now request =>
    have hworks : Works blake3 (Reached blake3)
        (do let _ ← Central.commit_workspace rounds blake3 now request; return () : HeadM U Unit)
        (fun _ _ => True) :=
      (commit_workspace_works now request).seq fun _ => works_pure fun _ _ => trivial
    exact (hworks s hs).mono fun _ _ _ => trivial
  | recover_unpublished_commits now after limit =>
    exact (recover_unpublished_commits_works now after limit s hs).mono fun _ _ _ => trivial

omit [DecidableEq ι] in
/-- **The discipline**: every worker relies on changes and makes changes. -/
theorem head_discipline :
    Pool.Discipline (ι := ι) (fun _ => Answers blake3) (fun _ => HeadJob.program rounds blake3)
      (OtherServices blake3) (Reached (U := U) blake3) (fun _ => Changes blake3)
      (fun _ _ _ => Steps blake3) (fun _ _ _ _ _ => True) where
  refl := fun _ _ => .refl
  trans := fun _ _ _ _ => .trans
  meets := fun _ job _ hs => job.program_works hs
  keeps := fun _ _ _ _ _ _ _ hs _ hstep => hs.trans hstep.to_reflTransGen
  apart := fun _ _ _ _ _ _ _ _ _ _ _ hstep => hstep.to_reflTransGen
  outside_keeps := fun _ _ hs hother => hs.trans (.single hother.change)
  outside_apart := fun _ _ _ _ hother => .single hother.change

variable {log : List (HeadEvent ι U)} {pool pool' : HeadPool ι U}

/-- **Step**: a step of the pool is a change of the stores, or leaves them. -/
theorem HeadPoolStep.change {e : Option (HeadEvent ι U)}
    (hstep : HeadPoolStep rounds blake3 pool e pool') (hs : Reached blake3 pool.state)
    (hsound : Pool.Sound (fun _ => Answers blake3) (fun _ => Changes blake3)
      (fun _ _ _ => Steps blake3) (fun _ _ _ _ _ => True) pool) :
    ReflGen (Change blake3) pool.state pool'.state := by
  have hobeys := (head_discipline.step hstep hs hsound).2.2
  cases hstep with
  | begin => exact .refl
  | stop => exact .refl
  | call i hrunning hanswer => exact hobeys _ rfl
  | outside hother => exact .single hother.change

theorem HeadPoolRun.changes
    (hrun : HeadPoolRun rounds blake3 pool log pool') (hs : Reached blake3 pool.state)
    (hsound : Pool.Sound (fun _ => Answers blake3) (fun _ => Changes blake3)
      (fun _ _ _ => Steps blake3) (fun _ _ _ _ _ => True) pool) :
    Changes blake3 pool.state pool'.state := by
  induction hrun with
  | refl => exact .refl
  | step hrun hstep ih =>
    obtain ⟨hreached, hsound', -⟩ := head_discipline.run hrun hs hsound
    exact ih.trans (HeadPoolStep.change hstep hreached hsound').to_reflTransGen

section

variable (blake3 : Blake3) (side : (call : SideCall U) → CentralResult call.Value)

/-- The answers of stores that nobody else uses and whose calls do not fail. -/
def HeadStore.answer (s : HeadStore U) : (call : HeadCall U) → HeadAnswer call × HeadStore U
  | .store call =>
    match call.run blake3 s with
    | .ok (value, s') => (.ok value, s')
    | .error error => (.error error, s)
  | .side call => (side call, s)

/-- `is_commit_ancestor`, in whatever stores it runs. -/
structure AncestorSearch (blake3 : Blake3) (rounds : Nat) (s : HeadStore U) : Prop where
  /-- It ends, with `true` exactly for ancestors. One round more than there are Commits suffices. -/
  decides : ∀ side scope ancestor descendant stored,
    Covers s.precommits.commits scope stored → stored.card < rounds →
      (eval (HeadStore.answer blake3 side)
        (is_commit_ancestor rounds scope ancestor descendant) s).1
          ≠ .error .exhausted ∧
        ((eval (HeadStore.answer blake3 side)
            (is_commit_ancestor rounds scope ancestor descendant) s).1 = .ok true ↔
          Ancestor s.precommits.commits scope ancestor descendant)
  /-- While other programs change the stores and calls fail, it still ends, and an answer is the
      right one. -/
  interleaved : ∀ scope ancestor descendant trace s' result,
    Exec (Env.under (Changes blake3) (Answers blake3)) s
        (is_commit_ancestor rounds scope ancestor descendant : HeadM U Bool).run trace s'
        (some result) →
      (∀ found, result = .ok found →
        (found = true ↔ Ancestor s'.precommits.commits scope ancestor descendant)) ∧
      ∀ stored, Covers s'.precommits.commits scope stored → stored.card < rounds →
        result ≠ .error .exhausted

/-- What holds of Heads in a state that is reached. -/
structure HeadsPublished (rounds : Nat) (blake3 : Blake3) (pool : HeadPool ι U) : Prop where
  /-- Whatever happens next, a Head stays or moves from the parent of a stored Commit to the
      Commit. -/
  moves : ∀ e pool', HeadPoolStep rounds blake3 pool e pool' →
    MovesToChild pool.state pool'.state
  /-- Whatever happens next, what a Head contains stays in its ancestry. -/
  kept : ∀ log pool', HeadPoolRun rounds blake3 pool log pool' →
    ∀ key commit_id, Contains pool.state key commit_id → Contains pool'.state key commit_id
  /-- A publication is acknowledged only if the Commit is the Head of its Workspace or an ancestor
      of it. -/
  acknowledged : ∀ r ∈ values pool.state.precommits.precommits,
    r.head_published_at_unix_ms ≠ none →
      ∃ commit_id, r.committed_commit_id = some commit_id ∧
        Contains pool.state r.workspace commit_id
  search : ∀ (rounds : Nat) (s : HeadStore U), AncestorSearch blake3 rounds s

theorem looks_up : Looks (Env.of (answer blake3 side)) (fun _ => False) := by
  intro s key answer s' hanswer
  cases hanswer
  exact ⟨fun _ _ hrow => hrow, .inl rfl⟩

/-- How the search ends in stores that nobody else uses. -/
theorem is_commit_ancestor_eval (rounds : Nat) (scope : CommitScope)
    (ancestor descendant : CommitId) (s : HeadStore U) :
    SearchEnds (fun _ => False) s.precommits.commits scope ancestor descendant rounds
      (eval (HeadStore.answer blake3 side)
        (is_commit_ancestor rounds scope ancestor descendant) s).1 := by
  have hsame : ∀ m key answer m', Env.of (HeadStore.answer blake3 side) m
      (.store (.get_commit key)) answer m' → m' = m := by
    intro m key answer m' hanswer
    cases hanswer
    rfl
  have hexec : Exec (Env.of (HeadStore.answer blake3 side)) s _ _ _ _ :=
    Prog.exec_run_with (fun _ _ => rfl)
      (is_commit_ancestor rounds scope ancestor descendant : HeadM U Bool).run s
  obtain ⟨hcalls, hends⟩ := (is_commit_ancestor_ends (Φ := fun m _ _ m' => m' = m)
    (looks_up blake3 side) hsame rounds scope ancestor descendant s).exec hexec
  have hlast := hexec.keeps (I := fun m => m = s)
    (fun e he hbefore => (hcalls e he).trans hbefore) rfl
  have hend := hends _ rfl
  rw [hlast] at hend
  exact hend

end

theorem ancestor_search (blake3 : Blake3) (rounds : Nat) (s : HeadStore U) :
    AncestorSearch blake3 rounds s where
  decides := by
    intro side scope ancestor descendant stored hstored hrounds
    have hend := is_commit_ancestor_eval blake3 side rounds scope ancestor descendant s
    generalize (eval (answer blake3 side)
      (is_commit_ancestor rounds scope ancestor descendant) s).1 = result at hend ⊢
    match result, hend with
    | .ok true, hend => exact ⟨nofun, fun _ => hend, fun _ => rfl⟩
    | .ok false, hend => exact ⟨nofun, nofun, fun h => absurd h hend⟩
    | .error .exhausted, hend => exact absurd (hend stored hstored) (by omega)
    | .error (.central error), hend =>
      exact ⟨nofun, nofun, fun h => absurd h (hend.resolve_left not_false)⟩
  interleaved := by
    intro scope ancestor descendant trace s' result hexec
    have hends := ((is_commit_ancestor_ends (Φ := fun _ _ _ _ => True) looks_under_changes
      (fun _ _ _ _ _ => trivial) rounds scope ancestor descendant s).exec hexec).2 result rfl
    constructor
    · intro found heq
      subst heq
      cases found with
      | true => exact ⟨fun _ => hends, fun _ => rfl⟩
      | false => exact ⟨nofun, fun h => absurd h hends⟩
    · intro stored hstored hrounds heq
      subst heq
      exact absurd (hends stored hstored) (by omega)

/-- However many workers commit and recover, in every order and with every stop, the Heads are
published as `HeadsPublished` says. -/
theorem workspace_head_publication (rounds : Nat) (blake3 : Blake3) {first : HeadStore U}
    (hempty : first.precommits = .empty) {log : List (HeadEvent ι U)} {pool : HeadPool ι U}
    (hrun : HeadPoolRun rounds blake3 (Pool.idle first) log pool) :
    HeadsPublished rounds blake3 pool := by
  have hfirst : Reached blake3 first := ⟨first, hempty, .refl⟩
  obtain ⟨hreached, hsound, -⟩ := head_discipline.run hrun hfirst (Pool.sound_idle first)
  refine ⟨?_, ?_, hreached.acknowledged, fun _ _ => ancestor_search ..⟩
  · intro e pool' hstep
    exact MovesToChild.of_step (HeadPoolStep.change hstep hreached hsound)
  · intro log pool' hrun key commit_id hcontains
    exact (HeadPoolRun.changes hrun hreached hsound).keeps_contains hcontains

/-! ### A Commit from start to acknowledgement -/

theorem HeadStore.answer_answers (side : (call : SideCall U) → CentralResult call.Value)
    (s : HeadStore U) (call : HeadCall U) :
    Answers blake3 s call (s.answer blake3 side call).1 (s.answer blake3 side call).2 := by
  cases call with
  | side call => exact .side call _
  | store call =>
    simp only [answer]
    split
    · exact .done ‹_›
    · exact .refused ‹_›

theorem HeadPoolRun.play {pool first : HeadPool ι U}
    (hrun : HeadPoolRun rounds blake3 first log pool) (calls : List (PreCommitCall U))
    (hother : ∀ call ∈ calls, ∀ key commit_id at_ms,
      call ≠ .acknowledge_head_publication key commit_id at_ms) :
    HeadPoolRun rounds blake3 first log
      { pool with state :=
          pool.state.with_precommits (Central.play blake3 pool.state.precommits calls).2 } := by
  induction calls generalizing pool with
  | nil => exact hrun
  | cons call calls ih =>
    have hcall := hother call mem_cons_self
    have hrest : ∀ call ∈ calls, ∀ key commit_id at_ms,
        call ≠ .acknowledge_head_publication key commit_id at_ms :=
      fun call hmem => hother call (mem_cons_of_mem _ hmem)
    unfold Central.play
    cases hanswer : call.run blake3 pool.state.precommits with
    | error error => exact ih hrun hrest
    | ok result =>
      have hstep : OtherServices blake3 pool.state (pool.state.with_precommits result.2) :=
        .requested (.done hanswer) hcall
      have hnext := Pool.Run.step hrun (.outside pool hstep)
      rw [toList_none, append_nil] at hnext
      exact ih hnext hrest

theorem HeadPoolRun.alone {first : HeadPool ι U}
    (hrun : HeadPoolRun rounds blake3 first log (Pool.idle s)) (i : ι) (job : HeadJob)
    {trace : List (Event (HeadCall U) HeadAnswer (HeadStore U))} {x : Option (Except Failure Unit)}
    (hexec : Exec (Answers blake3) s (job.program rounds blake3) trace s' x) :
    ∃ log' pool, HeadPoolRun rounds blake3 first log' pool ∧ pool.state = s' := by
  have hbegin := Pool.Run.step hrun (.begin _ i job rfl)
  have hdone : ∃ pool, HeadPoolRun rounds blake3 first
      ((log ++ none.toList) ++ trace.map fun e => ⟨i, job, s, e⟩) pool ∧ pool.state = s' :=
    Pool.run_of_exec (by exact hexec) hbegin rfl (Function.update_self ..)
  obtain ⟨pool, hpool, hstate⟩ := hdone
  exact ⟨_, pool, hpool, hstate⟩

namespace Sample

def index_key : IndexKey := ⟨tenant, project, artifact, workspace⟩

def head_store : HeadStore asciiTables where
  catalog :=
    { artifacts := fun key =>
        if key = (tenant, artifact) then some ⟨project, none, 1, .Active, 0⟩ else none
      workspaces := fun key =>
        if key = index_key then
          some ⟨.named "v" (by decide), none, .Ready, .Active, 0⟩
        else none }
  precommits := .empty

def ready_store : HeadStore asciiTables :=
  head_store.with_precommits (play poly_hash .empty
    [start two (.named "r2" (by decide)) (.named "l2" (by decide)),
      sync (.named "l2" (by decide))]).2

def side : (call : SideCall asciiTables) → CentralResult call.Value
  | .get_job _ => .ok none
  | .published_index _ => .ok ⟨version 1, []⟩
  | .max_whole_file_bytes .. => .ok none
  | .validate_candidate_layout .. => .ok ()
  | .build_commit_graph .. => .ok
    ⟨((commit_id poly_hash ⟨⟨digest_of_nat 0⟩, none, "m".toList, 6⟩).toOption).getD
      ⟨digest_of_nat 0⟩, ⟨digest_of_nat 0⟩⟩
  | .build_object_set _ => .ok (digest_of_nat 0)
  | .publish_initial_placement .. => .ok ()

def head_job : HeadJob :=
  .commit_workspace (fun _ => 6)
    ⟨index_key, two, .named "h2" (by decide), version 1, .FastCdc, "m".toList, none, []⟩

def published_store : HeadStore asciiTables :=
  ((head_job.program 2 poly_hash).run_with (HeadStore.answer poly_hash side)
    ready_store).2.1

end Sample

/-- A caller commits the first Pre-commit of a Workspace: the Commit becomes its Head and is
acknowledged. -/
theorem workspace_head_publication_sample :
    ∃ (log : List (HeadEvent Nat asciiTables)) (pool : HeadPool Nat asciiTables),
      HeadPoolRun 2 poly_hash (Pool.idle Sample.head_store) log pool ∧
      pool.state.catalog.head Sample.index_key = some Sample.first_commit ∧
      ((values pool.state.precommits.precommits).map fun r =>
        (r.committed_commit_id, r.head_published_at_unix_ms)) =
          [(some Sample.first_commit, some 6)] ∧ HeadsPublished 2 poly_hash pool := by
  have hready : HeadPoolRun 2 poly_hash (Pool.idle Sample.head_store) []
      (Pool.idle Sample.ready_store : HeadPool Nat asciiTables) :=
    HeadPoolRun.play Pool.Run.refl _ (by simp [Sample.start, Sample.sync])
  obtain ⟨log, pool, hrun, hstate⟩ := hready.alone 0 Sample.head_job
    (Prog.exec_run_with (HeadStore.answer_answers Sample.side) _ _)
  have hpublished : pool.state = Sample.published_store := hstate
  refine ⟨log, pool, hrun, ?_, ?_, workspace_head_publication 2 poly_hash rfl hrun⟩
  · rw [hpublished]
    decide +kernel
  · rw [hpublished]
    decide +kernel

end NeoEngram.Central

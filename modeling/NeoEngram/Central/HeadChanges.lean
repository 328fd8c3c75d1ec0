import NeoEngram.Central.CommitAncestry
import NeoEngram.Central.PreCommitRuns

/-! # What can happen to Heads

The abstract system of Head publication. A change moves the Head of a
Workspace from the parent of a stored Commit to the Commit, calls the
repository of Pre-commits, where an acknowledgement is made only if the Head
contains the Commit, or leaves the Heads of existing Workspaces alone. Along
changes a Head goes on to contain what it contains.
-/

namespace NeoEngram.Central

open OrderedKeys Relation Runs Function Option InMemoryPreCommitState Checks

variable {U : UnicodeTables} {blake3 : Blake3} {s s' : HeadStore U}

/-! ### Changes -/

/-- The Head of a Workspace is a Commit or a descendant of it. -/
def Contains (s : HeadStore U) (key : IndexKey) (commit_id : CommitId) : Prop :=
  ∃ head, s.catalog.head key = some head ∧
    Ancestor s.precommits.commits key.scope commit_id head

/-- The Commit of a Pre-commit is contained in the Head of its Workspace. -/
def Published (s : HeadStore U) (key : PreCommitKey) (commit_id : CommitId) : Prop :=
  ∀ r, s.precommits.precommits[key]? = some r → r.committed_commit_id = some commit_id →
    Contains s r.workspace commit_id

/-- Workspaces stay, and their Heads. -/
def KeepsHeads (catalog catalog' : Catalog) : Prop :=
  ∀ key workspace, catalog.workspaces key = some workspace →
    ∃ workspace', catalog'.workspaces key = some workspace' ∧
      workspace'.head_commit_id = workspace.head_commit_id

inductive Change (blake3 : Blake3) (s : HeadStore U) : HeadStore U → Prop
  | advanced {commit : CommitRecord U} {workspace workspace' : WorkspaceRecord} {catalog : Catalog}
      (hstored : s.precommits.commits commit.key = some commit)
      (hworkspace : s.catalog.workspaces commit.workspace = some workspace)
      (hparent : workspace.head_commit_id = commit.parent_commit_id)
      (hcommit : workspace'.head_commit_id = some commit.commit_id)
      (hcatalog : catalog.workspaces =
        update s.catalog.workspaces commit.workspace (some workspace')) :
      Change blake3 s (s.with_catalog catalog)
  | requested {event : PreCommitEvent U} {precommits : InMemoryPreCommitState U}
      (hstep : PreCommitStep blake3 s.precommits event precommits)
      (hpublished : ∀ key commit_id at_ms,
        event.1 = .acknowledge_head_publication key commit_id at_ms → Published s key commit_id) :
      Change blake3 s (s.with_precommits precommits)
  | catalog {catalog : Catalog} (hkeep : KeepsHeads s.catalog catalog) :
      Change blake3 s (s.with_catalog catalog)

abbrev Changes (blake3 : Blake3) : HeadStore U → HeadStore U → Prop := ReflTransGen (Change blake3)

/-- **Moves**: the Head of a Workspace stays or moves from the parent of a stored Commit to the
Commit. -/
def MovesToChild (s s' : HeadStore U) : Prop :=
  ∀ key workspace, s.catalog.workspaces key = some workspace →
    ∃ workspace', s'.catalog.workspaces key = some workspace' ∧
      (workspace'.head_commit_id = workspace.head_commit_id ∨
        ∃ commit, s.precommits.commits commit.key = some commit ∧ commit.workspace = key ∧
          workspace.head_commit_id = commit.parent_commit_id ∧
          workspace'.head_commit_id = some commit.commit_id)

theorem Change.moves (h : Change blake3 s s') : MovesToChild s s' := by
  intro key workspace hworkspace
  cases h with
  | @advanced commit old new catalog hstored hold hparent hcommit hcatalog =>
    simp only [HeadStore.with_catalog, hcatalog]
    by_cases hkey : key = commit.workspace
    · subst hkey
      cases hold.symm.trans hworkspace
      exact ⟨new, update_self .., .inr ⟨commit, hstored, rfl, hparent, hcommit⟩⟩
    · exact ⟨workspace, by rw [update_of_ne hkey, hworkspace], .inl rfl⟩
  | requested => exact ⟨workspace, hworkspace, .inl rfl⟩
  | catalog hkeep =>
    obtain ⟨workspace', hworkspace', hhead⟩ := hkeep key workspace hworkspace
    exact ⟨workspace', hworkspace', .inl hhead⟩

theorem MovesToChild.of_step (h : ReflGen (Change blake3) s s') : MovesToChild s s' := by
  cases h with
  | refl => exact fun _ workspace hworkspace => ⟨workspace, hworkspace, .inl rfl⟩
  | single hchange => exact hchange.moves

theorem Change.keeps_rows (h : Change blake3 s s') :
    KeepsRows s.precommits.commits s'.precommits.commits := by
  cases h with
  | advanced => exact fun _ _ hrow => hrow
  | requested hstep => exact fun _ _ hrow => hstep.records.keeps_commits hrow
  | catalog => exact fun _ _ hrow => hrow

variable {commit_id : CommitId}

/-- **Nothing is dropped**: a Head goes on to contain what it contains. -/
theorem Change.keeps_contains (h : Change blake3 s s') {key : IndexKey}
    (hc : Contains s key commit_id) : Contains s' key commit_id := by
  obtain ⟨head, hlookup, hancestor⟩ := hc
  obtain ⟨workspace, hworkspace, hhead⟩ := bind_eq_some_iff.mp hlookup
  obtain ⟨workspace', hworkspace', hmove⟩ := h.moves key workspace hworkspace
  have hlater := hancestor.mono h.keeps_rows
  rcases hmove with hsame | ⟨commit, hstored, hkey, hparent, hcommit⟩
  · exact ⟨head, by rw [Catalog.head, hworkspace', bind_some, hsame, hhead], hlater⟩
  · subst hkey
    refine ⟨commit.commit_id, by rw [Catalog.head, hworkspace', bind_some, hcommit], ?_⟩
    -- the old Head is the parent of the new one
    have hlink : ParentLink s'.precommits.commits commit.workspace.scope commit.commit_id head :=
      ⟨commit, h.keeps_rows _ _ hstored, hparent.symm.trans hhead⟩
    exact ReflTransGen.head hlink hlater

theorem Changes.keeps_rows (h : Changes blake3 s s') :
    KeepsRows s.precommits.commits s'.precommits.commits := by
  induction h with
  | refl => exact fun _ _ hrow => hrow
  | tail _ hchange ih => exact fun key row hrow => hchange.keeps_rows key row (ih key row hrow)

theorem Changes.keeps_contains (h : Changes blake3 s s') {key : IndexKey}
    (hc : Contains s key commit_id) : Contains s' key commit_id := by
  induction h with
  | refl => exact hc
  | tail _ hchange ih => exact hchange.keeps_contains ih

/-! ### Stores that are reached -/

/-- The stores are reached from an empty repository and some catalog. -/
def Reached (blake3 : Blake3) (s : HeadStore U) : Prop :=
  ∃ first : HeadStore U, first.precommits = .empty ∧ Changes blake3 first s

theorem Reached.trans (h : Reached blake3 s) (hchanges : Changes blake3 s s') :
    Reached blake3 s' := by
  obtain ⟨first, hempty, hfirst⟩ := h
  exact ⟨first, hempty, hfirst.trans hchanges⟩

theorem Changes.run (h : Changes blake3 s s') :
    ∃ log, Run (PreCommitStep blake3) s.precommits log s'.precommits := by
  induction h with
  | refl => exact ⟨[], .refl⟩
  | tail _ hchange ih =>
    obtain ⟨log, hrun⟩ := ih
    cases hchange with
    | advanced => exact ⟨log, hrun⟩
    | @requested event _ hstep => exact ⟨log ++ [event], hrun.step hstep⟩
    | catalog => exact ⟨log, hrun⟩

theorem Reached.run (h : Reached blake3 s) :
    ∃ log, Run (PreCommitStep blake3) .empty log s.precommits := by
  obtain ⟨first, hempty, hchanges⟩ := h
  rw [← hempty]
  exact hchanges.run

theorem Reached.records (h : Reached blake3 s) : Records blake3 s.precommits.precommits := by
  obtain ⟨log, hrun⟩ := h.run
  exact Records.of_run hrun .empty

/-! ### Acknowledgements -/

/-- Every acknowledged Commit is contained in the Head of the Workspace of its Pre-commit. -/
def Acknowledged (s : HeadStore U) : Prop :=
  ∀ r ∈ values s.precommits.precommits, r.head_published_at_unix_ms ≠ none →
    ∃ commit_id, r.committed_commit_id = some commit_id ∧ Contains s r.workspace commit_id

variable {r : PreCommitRecord U}

theorem committed_of_acknowledged (h : validate_record blake3 r = .ok ())
    (hack : r.head_published_at_unix_ms ≠ none) : r.state = .Committed := by
  simp only [validate_record, bind_eq_ok, exists_unit, ensure_eq_ok] at h
  obtain ⟨-, -, -, -, -, -, -, -, -, -, -, hstate | hnone⟩ := h
  · exact hstate
  · exact absurd hnone hack

theorem Change.keeps_acknowledged (h : Change blake3 s s')
    (hs : Records blake3 s.precommits.precommits) (ha : Acknowledged s) : Acknowledged s' := by
  -- what was acknowledged before stays contained
  have hold : ∀ r ∈ values s.precommits.precommits, r.head_published_at_unix_ms ≠ none →
      ∃ commit_id, r.committed_commit_id = some commit_id ∧ Contains s' r.workspace commit_id := by
    intro r hr hack
    obtain ⟨commit_id, hid, hcontains⟩ := ha r hr hack
    exact ⟨commit_id, hid, h.keeps_contains hcontains⟩
  cases h with
  | advanced => exact hold
  | catalog => exact hold
  | @requested event precommits hstep hpublished =>
    intro r' hr' hack
    have hvalid := (hstep.records.keeps_records hs).valid r' hr'
    rcases hstep.records.committed_cases hs hr' (committed_of_acknowledged hvalid hack) with
      ⟨r, hr, hsame, hby⟩ | ⟨request, r, snapshot, happly, heq, -⟩
    · rw [hsame.committed, hsame.workspace]
      rcases hby hack with hack | ⟨commit_id, at_ms, answer, hid, hevent⟩
      · exact hold r hr hack
      · have hcontains := hpublished r.key commit_id at_ms (by rw [hevent]) r
          (hs.keyed.mem_values.mp hr) hid
        exact ⟨commit_id, hid, (Change.requested hstep hpublished).keeps_contains hcontains⟩
    · obtain ⟨-, -, -, -, -, -, -, -, -, -, -, hnone, -⟩ := apply_commit_ok happly
      rw [heq] at hack
      exact absurd hnone hack

theorem Reached.acknowledged (h : Reached blake3 s) : Acknowledged s := by
  obtain ⟨first, hempty, hchanges⟩ := h
  induction hchanges with
  | refl =>
    intro r hr
    rw [hempty] at hr
    simp [empty, values] at hr
  | tail hbefore hchange ih =>
    exact hchange.keeps_acknowledged (Reached.records ⟨first, hempty, hbefore⟩) ih

/-! ### The Commit of a Pre-commit -/

variable {state state' : InMemoryPreCommitState U} {event : PreCommitEvent U}
  {log : List (PreCommitEvent U)}

/-- The row of the Commit of a Pre-commit is stored, and was made in the Workspace of the
Pre-commit. -/
def MadeBy (commits : CommitTable U) (r : PreCommitRecord U) (commit : CommitRecord U) : Prop :=
  r.committed_commit_id = some commit.commit_id ∧ commits commit.key = some commit ∧
    commit.workspace = r.workspace

variable {request : PreCommitCommitRequest U} {commit : CommitRecord U}

theorem MadeBy.mono {commits commits' : CommitTable U} {r' : PreCommitRecord U}
    (h : MadeBy commits r commit) (hsame : SameCommit r r')
    (hkeep : KeepsRows commits commits') : MadeBy commits' r' commit :=
  ⟨hsame.committed.trans h.1, hkeep _ _ h.2.1, h.2.2.trans hsame.workspace.symm⟩

variable {snapshot : PreCommitCommitSnapshot U}

theorem apply_commit_made
    {commits : CommitTable U} (h : apply_commit blake3 r request = .ok snapshot) :
    MadeBy (update commits snapshot.commit.key (some snapshot.commit))
      snapshot.consumed_precommit snapshot.commit := by
  obtain ⟨hcommit, -, -, -, -, -, -, hattempt, -, -, hid, -⟩ := apply_commit_ok h
  refine ⟨by rw [hcommit, hid], update_self .., ?_⟩
  simp only [apply_commit, bind_eq_ok, exists_unit, ensure_eq_ok] at h
  obtain ⟨⟨-, htenant, hproject, hartifact, hworkspace, -⟩, -⟩ := h
  rw [hattempt.workspace, hcommit, CommitRecord.workspace, PreCommitRecord.workspace, htenant,
    hproject, hartifact, hworkspace]

/-- **Run lemma**: every committed Pre-commit has its Commit. -/
theorem committed_made (hrun : Run (PreCommitStep blake3) .empty log state) :
    ∀ r ∈ values state.precommits, r.state = .Committed →
      ∃ commit, MadeBy state.commits r commit := by
  induction hrun with
  | refl => simp [empty, values]
  | step hrun hstep ih =>
    intro r' hr' hcommitted
    have hs := Records.of_run hrun .empty
    rcases hstep.records.committed_cases hs hr' hcommitted with
      ⟨r, hr, hsame, -⟩ | ⟨request, r, snapshot, happly, heq, hcommits⟩
    · obtain ⟨commit, hmade⟩ := ih r hr (hsame.state.symm.trans hcommitted)
      exact ⟨commit, hmade.mono hsame fun _ _ hrow => hstep.records.keeps_commits hrow⟩
    · rw [heq, hcommits]
      exact ⟨snapshot.commit, apply_commit_made happly⟩

/-- A Pre-commit that is committed, with its Commit. -/
def CommittedAs (state : InMemoryPreCommitState U) (key : PreCommitKey) (commit : CommitRecord U) :
    Prop :=
  ∃ r ∈ values state.precommits, r.key = key ∧ r.state = .Committed ∧
    MadeBy state.commits r commit

theorem CommittedAs.step {key : PreCommitKey}
    (h : CommittedAs state key commit) (hs : Records blake3 state.precommits)
    (hstep : PreCommitStep blake3 state event state') : CommittedAs state' key commit := by
  obtain ⟨r, hr, hkey, hcommitted, hmade⟩ := h
  obtain ⟨r', hr', hsame⟩ := hstep.records.committed_stays hs hr hcommitted
  exact ⟨r', hr', hsame.key.trans hkey, hsame.state.trans hcommitted,
    hmade.mono hsame fun _ _ hrow => hstep.records.keeps_commits hrow⟩

/-- The Commits in the book of requests were made. -/
def BookedCommits (state : InMemoryPreCommitState U) : Prop :=
  ∀ key request snapshot, state.mutations key = some (.Commit request snapshot) →
    CommittedAs state request.key snapshot.commit

theorem perform_commit_made (hs : Records blake3 state.precommits)
    (h : state.perform_commit blake3 request = .ok (snapshot, state')) :
    CommittedAs state' request.key snapshot.commit := by
  obtain ⟨r, hstored, happly, -, hstate⟩ := perform_commit_ok h
  obtain ⟨-, hkey, -, -, -, -, -, hattempt, hcommitted, -⟩ := apply_commit_ok happly
  subst hstate
  refine ⟨snapshot.consumed_precommit, ?_, hattempt.key.trans hkey, hcommitted,
    apply_commit_made happly⟩
  exact hs.keyed.mem_values_insert.mpr (.inl rfl)

/-- **Answer of a commit**: the Commit in the answer was made, now or before. -/
theorem run_commit_made {answer : PreCommitCommitOutcome U} (hs : Records blake3 state.precommits)
    (hbook : BookedCommits state) (h : state.commit blake3 request = .ok (answer, state')) :
    CommittedAs state' request.key answer.commit := by
  have hrun : PreCommitCall.run blake3 state (.commit request) =
    .ok (.committed answer, state') := by
    rw [PreCommitCall.run, h]
    rfl
  obtain ⟨snapshot, replayed, hanswer, hmutate⟩ := PreCommitCall.run_mutation_ok hrun
  cases hanswer
  rcases mutate_eq_ok.mp hmutate with
    ⟨entry, hentry, hrecorded, -, hstate⟩ | ⟨-, -, performed, hperform, hstate⟩
  · subst hstate
    cases entry with
    | Commit stored result =>
      simp only [recorded_commit, ite_none_right_eq_some, Option.some.injEq] at hrecorded
      obtain ⟨hsame, hresult⟩ := hrecorded
      have hkey : stored.key = request.key := by
        simp only [same_commit_request, decide_eq_true_eq] at hsame
        exact hsame.1
      subst hresult
      exact hkey ▸ hbook _ stored result hentry
    | Start => cases hrecorded
    | Restart => cases hrecorded
    | Cancel => cases hrecorded
  · subst hstate
    obtain ⟨r, hr, hmade⟩ := perform_commit_made hs hperform
    exact ⟨r, hr, hmade⟩

theorem BookedCommits.step (h : BookedCommits state) (hs : Records blake3 state.precommits)
    (hstep : PreCommitStep blake3 state event state') : BookedCommits state' := by
  have hold : ∀ key request snapshot, state.mutations key = some (.Commit request snapshot) →
      CommittedAs state' request.key snapshot.commit :=
    fun key request snapshot hentry => (h key request snapshot hentry).step hs hstep
  intro key request snapshot hentry
  cases hstep with
  | failed => exact h key request snapshot hentry
  | @done call answer _ hrun =>
    cases PreCommitCall.run_book hrun with
    | replayed _ _ _ _ hstate =>
      subst hstate
      exact h key request snapshot hentry
    | none _ hbook => exact hold key request snapshot (hbook ▸ hentry)
    | @entered new entry hkey hnone hanswer hbook =>
      rw [hbook] at hentry
      by_cases hnew : key = new
      · subst hnew
        rw [update_self] at hentry
        cases hentry
        -- only a commit enters a Commit
        cases call with
        | commit performed =>
          simp only [PreCommitCall.recorded, recorded_commit,
            map_eq_some_iff, ite_none_right_eq_some, Option.some.injEq] at hanswer
          obtain ⟨result, ⟨hsame, rfl⟩, heq⟩ := hanswer
          have hperformed : request.key = performed.key := by
            simp only [same_commit_request, decide_eq_true_eq] at hsame
            exact hsame.1
          obtain ⟨made, replayed, hanswer', hmutate⟩ := PreCommitCall.run_mutation_ok hrun
          rw [hanswer'] at heq
          have hmade : state.commit blake3 performed =
            .ok (.of_snapshot made replayed, state') := by
            simp only [commit, hmutate]
            rfl
          have hcommit : snapshot.commit = made.commit :=
            congrArg PreCommitCommitOutcome.commit (PreCommitAnswer.committed.inj heq)
          rw [hperformed, hcommit]
          exact run_commit_made hs h hmade
        | start => cases hanswer
        | restart => cases hanswer
        | cancel => cases hanswer
        | sync_job => cases hanswer
        | acknowledge_head_publication => cases hanswer
      · rw [update_of_ne hnew] at hentry
        exact hold key request snapshot hentry

theorem BookedCommits.of_run (hrun : Run (PreCommitStep blake3) .empty log state) :
    BookedCommits state := by
  induction hrun with
  | refl => exact fun _ _ _ hentry => nomatch hentry
  | step hrun hstep ih => exact ih.step (Records.of_run hrun .empty) hstep

end NeoEngram.Central

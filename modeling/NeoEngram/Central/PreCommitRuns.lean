import NeoEngram.Central.PreCommitRepository

/-! # Histories of the Pre-commit repository

What holds after any sequence of calls, on any number of Pre-commits, with
replays and failing calls.
-/

namespace NeoEngram.Central

open Checks OrderedKeys Runs InMemoryPreCommitState IndexKey Function List
open Std (ExtTreeMap)

variable {U : UnicodeTables} {blake3 : Blake3} {state state' : InMemoryPreCommitState U}

/-! ## The stored records -/

/-- Every record stands under its key and is valid, a Workspace has at most one active Pre-commit,
and two Pre-commits of a tenant never share a job. -/
structure Records (blake3 : Blake3) (precommits : ExtTreeMap PreCommitKey (PreCommitRecord U)) :
    Prop where
  keyed : KeyedBy PreCommitRecord.key precommits
  valid : ∀ r ∈ values precommits, validate_record blake3 r = .ok ()
  one_active : ∀ a ∈ values precommits, ∀ b ∈ values precommits, precommit_is_active a = true →
    precommit_is_active b = true → a.workspace = b.workspace → a = b
  one_job : ∀ a ∈ values precommits, ∀ b ∈ values precommits, a.tenant_id = b.tenant_id →
    a.job_id = b.job_id → a = b

variable {precommits : ExtTreeMap PreCommitKey (PreCommitRecord U)} {r r' : PreCommitRecord U}
  {published_index : Option (PublishedIndex U)}

theorem Records.empty : Records blake3 (∅ : ExtTreeMap PreCommitKey (PreCommitRecord U)) where
  keyed := .empty
  valid := by simp [values]
  one_active := by simp [values]
  one_job := by simp [values]

/-- A record may be stored when no other active one has its Workspace and no other one its job. -/
theorem Records.insert (h : Records blake3 precommits) (hvalid : validate_record blake3 r = .ok ())
    (hactive : precommit_is_active r = true → ∀ a : PreCommitRecord U, a ∈ values precommits →
      a.key ≠ r.key → a.workspace = r.workspace → precommit_is_active a = false)
    (hjob : ∀ a : PreCommitRecord U, a ∈ values precommits → a.key ≠ r.key →
      a.tenant_id = r.tenant_id → a.job_id ≠ r.job_id) :
        Records blake3 (precommits.insert r.key r) where
  keyed := h.keyed.insert r
  valid := by
    intro a ha
    rcases h.keyed.mem_values_insert.mp ha with heq | ⟨ha, -⟩
    · rw [heq]
      exact hvalid
    · exact h.valid a ha
  one_active := by
    intro a ha b hb hactive_a hactive_b hworkspace
    rcases h.keyed.mem_values_insert.mp ha with heq_a | ⟨hold_a, hne_a⟩
    · rcases h.keyed.mem_values_insert.mp hb with heq_b | ⟨hold_b, hne_b⟩
      · rw [heq_a, heq_b]
      · subst heq_a
        rw [hactive hactive_a b hold_b hne_b hworkspace.symm] at hactive_b
        cases hactive_b
    · rcases h.keyed.mem_values_insert.mp hb with heq_b | ⟨hold_b, -⟩
      · subst heq_b
        rw [hactive hactive_b a hold_a hne_a hworkspace] at hactive_a
        cases hactive_a
      · exact h.one_active a hold_a b hold_b hactive_a hactive_b hworkspace
  one_job := by
    intro a ha b hb htenant hsame
    rcases h.keyed.mem_values_insert.mp ha with heq_a | ⟨hold_a, hne_a⟩
    · rcases h.keyed.mem_values_insert.mp hb with heq_b | ⟨hold_b, hne_b⟩
      · rw [heq_a, heq_b]
      · subst heq_a
        exact absurd hsame.symm (hjob b hold_b hne_b htenant.symm)
    · rcases h.keyed.mem_values_insert.mp hb with heq_b | ⟨hold_b, -⟩
      · subst heq_b
        exact absurd hsame (hjob a hold_a hne_a htenant)
      · exact h.one_job a hold_a b hold_b htenant hsame

/-- A record may be replaced by one of the same attempt that is active only if it was. -/
theorem Records.replace (h : Records blake3 precommits) (hstored : r ∈ values precommits)
    (hsame : SameAttempt r r') (hvalid : validate_record blake3 r' = .ok ())
    (hactive : precommit_is_active r' = true → precommit_is_active r = true) :
    Records blake3 (precommits.insert r'.key r') := by
  have htenant : r'.tenant_id = r.tenant_id := congrArg PreCommitKey.tenant_id hsame.key
  apply h.insert hvalid
  · intro hr' a ha hne hworkspace
    by_contra hactive_a
    have heq := h.one_active a ha r hstored (by simpa using hactive_a) (hactive hr')
      (by rw [hworkspace, hsame.workspace])
    exact hne (by rw [heq, hsame.key])
  · intro a ha hne htenant_a hjob
    have heq := h.one_job a ha r hstored (by rw [htenant_a, htenant]) (by rw [hjob, hsame.job_id])
    exact hne (by rw [heq, hsame.key])

variable {key : PreCommitKey}

theorem Records.stored (h : Records blake3 precommits)
    (hr : precommits[key]? = some r) : r ∈ values precommits ∧ r.key = key :=
  ⟨mem_values.mpr ⟨key, hr⟩, h.keyed key r hr⟩

theorem Records.eq_of_key (h : Records blake3 precommits) {a b : PreCommitRecord U}
    (ha : a ∈ values precommits) (hb : b ∈ values precommits) (hkey : a.key = b.key) : a = b := by
  have hlookup := h.keyed.mem_values.mp ha
  rw [hkey, h.keyed.mem_values.mp hb] at hlookup
  exact (Option.some.inj hlookup).symm

theorem active_of_state (h : r'.state = r.state)
    (hactive : precommit_is_active r' = true) : precommit_is_active r = true := by
  simpa [precommit_is_active, h] using hactive

theorem active_of_running (h : r.state = .Running) :
    precommit_is_active r = true := by
  simp [precommit_is_active, h]

theorem SyncEffect.active {job : JobRecord U} (h : SyncEffect job published_index r r')
    (hactive : precommit_is_active r' = true) : precommit_is_active r = true := by
  cases h with
  | kept state => exact active_of_state state hactive
  | frozen running => exact active_of_running running
  | stopped running => exact active_of_running running

/-! ## What a step writes -/

variable {event : PreCommitEvent U}

/-- The sync of a job that was decided to publish this version, with these records as its Index. -/
def Freezes (tenant_id : TenantId) (job_id : JobId) (version : WireIndexVersion)
    (records : List (FileRecord U)) (event : PreCommitEvent U) : Prop :=
  ∃ job index at_ms answer, event = (.sync_job job (some index) at_ms, .ok answer) ∧
    job.spec.tenant_id = tenant_id ∧ job.spec.job_id = job_id ∧ job.state = .Succeeded ∧
    job.published_version = some version ∧ same_index_version version index.version = true ∧
    index.records = records

theorem SyncEffect.candidate {answer : PreCommitAnswer U} {at_ms : UnixMillis}
    {job : JobRecord U} (h : SyncEffect job published_index r r')
    (htenant : r.tenant_id = job.spec.tenant_id)
    (hjob : r.job_id = job.spec.job_id) (version : WireIndexVersion) (records : List (FileRecord U))
    (hc : r'.candidate = (some version, some records)) :
    r.candidate = (some version, some records) ∨ Freezes r.tenant_id r.job_id version records
      (.sync_job job published_index at_ms, .ok answer) := by
  cases h with
  | kept _ candidate =>
    left
    rw [← candidate, hc]
  | @frozen v index _ succeeded decided published same _ candidate =>
    right
    rw [candidate] at hc
    cases hc
    subst published
    exact ⟨job, index, at_ms, answer, rfl, htenant.symm, hjob.symm, succeeded, decided, same, rfl⟩
  | stopped _ _ candidate =>
    rw [candidate] at hc
    cases hc

/-- What a later record of a committed Pre-commit has in common with the record. -/
structure SameCommit (r r' : PreCommitRecord U) : Prop extends SameAttempt r r' where
  state : r'.state = r.state
  committed : r'.committed_commit_id = r.committed_commit_id
  candidate : r'.candidate = r.candidate

theorem SameCommit.refl (r : PreCommitRecord U) : SameCommit r r := ⟨.refl r, rfl, rfl, rfl⟩

theorem SameCommit.trans {r'' : PreCommitRecord U} (h : SameCommit r r') (h' : SameCommit r' r'') :
    SameCommit r r'' :=
  ⟨⟨h'.key.trans h.key, h'.workspace.trans h.workspace, h'.job_id.trans h.job_id,
    h'.frozen_head.trans h.frozen_head, h'.source.trans h.source⟩, h'.state.trans h.state,
    h'.committed.trans h.committed, h'.candidate.trans h.candidate⟩

/-- A sync leaves a committed record as it is, and commits none. -/
theorem SyncEffect.committed {job : JobRecord U} (h : SyncEffect job published_index r r')
    (hsame : SameAttempt r r') (hcommitted : r.state = .Committed ∨ r'.state = .Committed) :
    SameCommit r r' ∧ r'.head_published_at_unix_ms = r.head_published_at_unix_ms := by
  cases h with
  | kept state candidate committed head => exact ⟨⟨hsame, state, committed, candidate⟩, head⟩
  | frozen running _ _ _ _ state => simp [running, state] at hcommitted
  | stopped running state => simp [running, state] at hcommitted

/-- A record that is acknowledged after a step was so before, or the step is the acknowledgement of
its Commit. -/
def AcknowledgedBy (event : PreCommitEvent U) (r r' : PreCommitRecord U) : Prop :=
  r'.head_published_at_unix_ms ≠ none → r.head_published_at_unix_ms ≠ none ∨
    ∃ commit_id at_ms answer, r.committed_commit_id = some commit_id ∧
      event = (.acknowledge_head_publication r.key commit_id at_ms, .ok answer)

/-- A step writes nothing, the record of a new attempt, or one that continues an attempt. -/
inductive Written (blake3 : Blake3) (state : InMemoryPreCommitState U) (event : PreCommitEvent U)
    (state' : InMemoryPreCommitState U) : Prop
  | nothing (hbegins : begins event = none) (hprecommits : state'.precommits = state.precommits)
  | began {r : PreCommitRecord U}
      (hbegins : begins event = some ⟨r.key, r.frozen_head_commit_id, r.job_id⟩)
      (hstate : r.state = .Running) (hcandidate : r.candidate = (none, none))
      (hvalid : validate_record blake3 r = .ok ())
      (hbefore : ∀ a ∈ values state.precommits, a.key = r.key → a.state ≠ .Committed)
      (hactive : ∀ a ∈ values state.precommits, a.key ≠ r.key → a.workspace = r.workspace →
        precommit_is_active a = false)
      (hjob : ∀ a ∈ values state.precommits, a.key ≠ r.key → a.tenant_id = r.tenant_id →
        a.job_id ≠ r.job_id)
      (hprecommits : state'.precommits = state.precommits.insert r.key r)
  | continued {r r' : PreCommitRecord U} (hbegins : begins event = none)
      (hstored : r ∈ values state.precommits) (hsame : SameAttempt r r')
      (hvalid : validate_record blake3 r' = .ok ())
      (hactive : precommit_is_active r' = true → precommit_is_active r = true)
      (hcandidate : ∀ version records, r'.candidate = (some version, some records) →
        r.candidate = (some version, some records) ∨
          Freezes r.tenant_id r.job_id version records event)
      (hstays : r.state = .Committed → SameCommit r r')
      (hcommitted : r'.state = .Committed → SameCommit r r' ∧ AcknowledgedBy event r r' ∨
        ∃ request snapshot, apply_commit blake3 r request = .ok snapshot ∧
          r' = snapshot.consumed_precommit ∧
          state'.commits =
            Function.update state.commits snapshot.commit.key (some snapshot.commit))
      (hprecommits : state'.precommits = state.precommits.insert r'.key r')

section

variable (h : RecordEffect blake3 state event state') (hs : Records blake3 state.precommits)

include h hs

theorem RecordEffect.written : Written blake3 state event state' := by
  have hfree_job : ∀ {r : PreCommitRecord U}, state.ensure_job_identity_available r = .ok () →
      ∀ a ∈ values state.precommits, a.key ≠ r.key → a.tenant_id = r.tenant_id →
        a.job_id ≠ r.job_id :=
    ensure_job_identity_available_eq_ok.mp
  cases h with
  | same hbegins hprecommits => exact .nothing hbegins hprecommits
  | started hbuild hfree hactive hjob hprecommits =>
    obtain ⟨hkey, hrecord_job, hfrozen, hstate, hcandidate, hvalid⟩ := build_started_ok hbuild
    refine .began ?_ hstate hcandidate hvalid ?_ ?_ (hfree_job hjob) hprecommits
    · rw [hkey, hrecord_job, hfrozen]
      rfl
    -- the key is free, so no stored record is replaced
    · intro a ha heq
      rw [← heq, hs.keyed.mem_values.mp ha] at hfree
      cases hfree
    · intro a ha _ hworkspace
      exact ensure_active_available_eq_ok.mp hactive a ha (by simp)
        hworkspace
  | restarted hstored happly hactive hjob hprecommits =>
    obtain ⟨hbefore, hkey, hkey', -, hrecord_job, hfrozen, hstate, hcandidate, hvalid⟩ :=
      apply_restart_ok happly
    refine .began ?_ hstate hcandidate hvalid ?_ ?_ (hfree_job hjob) hprecommits
    · rw [hkey', hkey, hrecord_job, hfrozen]
      rfl
    -- only an abnormal or cancelled record is replaced
    · intro a ha heq hcommitted
      rw [hs.eq_of_key ha (hs.stored hstored).1 (heq.trans hkey')] at hcommitted
      simp [hcommitted] at hbefore
    · intro a ha hne hworkspace
      exact ensure_active_available_eq_ok.mp hactive a ha
        (by simpa using hne) hworkspace
  | cancelled hstored happly hprecommits =>
    obtain ⟨-, -, hbefore, hsame, hcancelled, hcandidate, hvalid⟩ := apply_cancel_ok happly
    refine .continued rfl (hs.stored hstored).1 hsame hvalid ?_ ?_ (absurd · hbefore) ?_ hprecommits
    · intro hactive
      simp [precommit_is_active, hcancelled] at hactive
    · intro version records hc
      rw [hcandidate] at hc
      cases hc
    · intro hc
      cases hcancelled.symm.trans hc
  | synced hstored htenant hown happly hprecommits =>
    obtain ⟨hsame, heffect, hvalid⟩ := sync_own_job_ok happly
    rw [← hsame.key] at hprecommits
    refine .continued rfl hstored hsame (hvalid (hs.valid _ hstored)) heffect.active
      (heffect.candidate htenant hown) ?_ ?_ hprecommits
    · exact fun hc => (heffect.committed hsame (.inl hc)).1
    · intro hc
      obtain ⟨hcommit, hhead⟩ := heffect.committed hsame (.inr hc)
      exact .inl ⟨hcommit, fun hack => .inl (hhead ▸ hack)⟩
  | committed hstored happly hfree hprecommits hcommits =>
    obtain ⟨-, -, hready, -, -, -, -, hsame, hcommitted, hcandidate, -, -, hvalid⟩ :=
      apply_commit_ok happly
    refine .continued rfl (hs.stored hstored).1 hsame hvalid ?_ ?_ ?_ ?_ hprecommits
    · intro hactive
      simp [precommit_is_active, hcommitted] at hactive
    · exact fun version records hc => .inl (hcandidate ▸ hc)
    · intro hc
      cases hready.symm.trans hc
    · exact fun _ => .inr ⟨_, _, happly, rfl, hcommits⟩
  | acknowledged hstored happly hprecommits =>
    obtain ⟨hstate, hid, hsame, hstate', hcandidate, hid', -, hvalid⟩ :=
      apply_head_publication_ack_ok happly
    obtain ⟨hmem, hkey⟩ := hs.stored hstored
    rw [← hkey, ← hsame.key] at hprecommits
    -- an acknowledgement changes only what is known of the head
    have hcommit : SameCommit _ _ :=
      ⟨hsame, hstate'.trans hstate.symm, hid'.trans hid.symm, hcandidate⟩
    refine .continued rfl hmem hsame (hvalid (hs.valid _ hmem)) (active_of_state hcommit.state)
      ?_ (fun _ => hcommit) ?_ hprecommits
    · exact fun version records hc => .inl (hcandidate ▸ hc)
    · exact fun _ => .inl ⟨hcommit, fun _ => .inr ⟨_, _, _, hid, by rw [hkey]⟩⟩

theorem RecordEffect.keeps_records : Records blake3 state'.precommits := by
  cases h.written hs with
  | nothing _ hprecommits =>
    rw [hprecommits]
    exact hs
  | began _ _ _ hvalid _ hactive hjob hprecommits =>
    rw [hprecommits]
    exact hs.insert hvalid (fun _ => hactive) hjob
  | continued _ hstored hsame hvalid hactive _ _ _ hprecommits =>
    rw [hprecommits]
    exact hs.replace hstored hsame hvalid hactive

end

theorem Records.of_run {log : List (PreCommitEvent U)}
    (hrun : Run (PreCommitStep blake3) state log state') (hs : Records blake3 state.precommits) :
    Records blake3 state'.precommits :=
  hrun.invariant (I := fun s => Records blake3 s.precommits)
    (fun _ _ _ hstep hm => hstep.records.keeps_records hm) hs

/-! ## Where a record comes from -/

/-- The last attempt of a Pre-commit began so, and these events came after its beginning. -/
def CurrentAttempt (log : List (PreCommitEvent U)) (key : PreCommitKey) (began : Began)
    (since : List (PreCommitEvent U)) : Prop :=
  ∃ before event, log = before ++ event :: since ∧ begins event = some began ∧ began.key = key ∧
    ∀ e ∈ since, ∀ b, begins e = some b → b.key ≠ key

/-- A record has the job and the frozen Head of its last attempt, and its candidate was frozen by a
sync of that job since. -/
def Origin (log : List (PreCommitEvent U)) (r : PreCommitRecord U) : Prop :=
  ∃ began since, CurrentAttempt log r.key began since ∧
    r.frozen_head_commit_id = began.frozen_head_commit_id ∧ r.job_id = began.job_id ∧
    ∀ version records, r.candidate = (some version, some records) →
      ∃ e ∈ since, Freezes r.tenant_id r.job_id version records e

variable {log : List (PreCommitEvent U)} {event : PreCommitEvent U} {r r' : PreCommitRecord U}

theorem CurrentAttempt.snoc {began : Began} {since : List (PreCommitEvent U)}
    (h : CurrentAttempt log key began since) (hother : ∀ b, begins event = some b → b.key ≠ key) :
    CurrentAttempt (log ++ [event]) key began (since ++ [event]) := by
  obtain ⟨before, first, hlog, hbegan, hkey, hlast⟩ := h
  refine ⟨before, first, by rw [hlog]; simp, hbegan, hkey, ?_⟩
  intro e he b hb
  rcases mem_append.mp he with he | he
  · exact hlast e he b hb
  · rw [mem_singleton.mp he] at hb
    exact hother b hb

theorem Origin.begin (hbegins : begins event = some ⟨r.key, r.frozen_head_commit_id, r.job_id⟩)
    (hcandidate : r.candidate = (none, none)) : Origin (log ++ [event]) r := by
  refine ⟨_, [], ⟨log, event, rfl, hbegins, rfl, by simp⟩, rfl, rfl, ?_⟩
  intro version records h
  rw [hcandidate] at h
  cases h

/-- An attempt goes on: the candidate stays, or the event froze it, or there is none. -/
theorem Origin.follow (h : Origin log r) (hbegins : begins event = none) (hsame : SameAttempt r r')
    (hcandidate : ∀ version records, r'.candidate = (some version, some records) →
      r.candidate = (some version, some records) ∨
        Freezes r.tenant_id r.job_id version records event) : Origin (log ++ [event]) r' := by
  obtain ⟨began, since, hattempt, hfrozen, hjob, hfreezes⟩ := h
  have htenant : r'.tenant_id = r.tenant_id := congrArg PreCommitKey.tenant_id hsame.key
  refine ⟨began, since ++ [event], ?_, hsame.frozen_head.trans hfrozen, hsame.job_id.trans hjob, ?_⟩
  · rw [hsame.key]
    exact hattempt.snoc (by simp [hbegins])
  · intro version records hc
    rw [htenant, hsame.job_id]
    rcases hcandidate version records hc with hold | hnew
    · obtain ⟨e, he, hfreeze⟩ := hfreezes version records hold
      exact ⟨e, mem_append_left _ he, hfreeze⟩
    · exact ⟨event, by simp, hnew⟩

theorem Origin.other (h : Origin log r) (hother : ∀ b, begins event = some b → b.key ≠ r.key) :
    Origin (log ++ [event]) r := by
  obtain ⟨began, since, hattempt, hfrozen, hjob, hfreezes⟩ := h
  refine ⟨began, since ++ [event], hattempt.snoc hother, hfrozen, hjob, ?_⟩
  intro version records hc
  obtain ⟨e, he, hfreeze⟩ := hfreezes version records hc
  exact ⟨e, mem_append_left _ he, hfreeze⟩

variable {answer : PreCommitAnswer U} {at_ms : UnixMillis}

section

variable (h : RecordEffect blake3 state event state') (hs : Records blake3 state.precommits)

include h hs

theorem RecordEffect.keeps_origin (ho : ∀ r ∈ values state.precommits, Origin log r) :
    ∀ r ∈ values state'.precommits, Origin (log ++ [event]) r := by
  intro r' hr'
  cases h.written hs with
  | nothing hbegins hprecommits => exact (ho r' (hprecommits ▸ hr')).other (by simp [hbegins])
  | began hbegins _ hcandidate _ _ _ _ hprecommits =>
    rw [hprecommits] at hr'
    rcases hs.keyed.mem_values_insert.mp hr' with rfl | ⟨hold, hne⟩
    · exact .begin hbegins hcandidate
    · refine (ho r' hold).other ?_
      rw [hbegins]
      rintro b ⟨⟩
      exact hne.symm
  | continued hbegins hstored hsame _ _ hcandidate _ _ hprecommits =>
    rw [hprecommits] at hr'
    rcases hs.keyed.mem_values_insert.mp hr' with rfl | ⟨hold, -⟩
    · exact (ho _ hstored).follow hbegins hsame hcandidate
    · exact (ho r' hold).other (by simp [hbegins])

omit h hs in
theorem Origin.of_run (hrun : Run (PreCommitStep blake3) .empty log state) :
    ∀ r ∈ values state.precommits, Origin log r := by
  induction hrun with
  | refl => simp [empty, values]
  | step hrun hstep ih => exact hstep.records.keeps_origin (Records.of_run hrun .empty) ih

/-! ## Commits and the book of requests -/

/-- A committed record has its Commit in the catalogue, made of its candidate on top of the Head it
froze. -/
def Consumed (commits : CommitKey → Option (CommitRecord U)) (r : PreCommitRecord U) : Prop :=
  ∃ commit_id commit version, r.committed_commit_id = some commit_id ∧
    commits ⟨r.tenant_id, r.project_id, r.artifact_id, commit_id⟩ = some commit ∧
    commit.parent_commit_id = r.frozen_head_commit_id ∧
    r.candidate = (some version, some commit.records) ∧
    same_index_version version commit.index_version = true

omit h hs in
theorem RecordEffect.keeps_commits (h : RecordEffect blake3 state event state') {key : CommitKey}
    {commit : CommitRecord U} (hcommit : state.commits key = some commit) :
    state'.commits key = some commit := by
  cases h with
  | @committed _ _ snapshot _ _ _ hfree _ hcommits =>
    have hne : key ≠ snapshot.commit.key := by
      intro heq
      rw [heq, hfree] at hcommit
      cases hcommit
    rw [hcommits, update_of_ne hne]
    exact hcommit
  | same _ _ hcommits => rw [hcommits, hcommit]
  | started _ _ _ _ _ hcommits => rw [hcommits, hcommit]
  | restarted _ _ _ _ _ hcommits => rw [hcommits, hcommit]
  | cancelled _ _ _ hcommits => rw [hcommits, hcommit]
  | synced _ _ _ _ _ hcommits => rw [hcommits, hcommit]
  | acknowledged _ _ _ hcommits => rw [hcommits, hcommit]

/-- **Committed is terminal**: a step leaves a committed record committed, with the same Commit. -/
theorem RecordEffect.committed_stays (hr : r ∈ values state.precommits)
    (hcommitted : r.state = .Committed) : ∃ r' ∈ values state'.precommits, SameCommit r r' := by
  have hkeep : ∀ written : PreCommitRecord U, r.key ≠ written.key →
      state'.precommits = state.precommits.insert written.key written →
      ∃ r' ∈ values state'.precommits, SameCommit r r' := by
    intro written hkey hprecommits
    rw [hprecommits]
    exact ⟨r, hs.keyed.mem_values_insert.mpr (.inr ⟨hr, hkey⟩), .refl r⟩
  cases h.written hs with
  | nothing _ hprecommits => exact ⟨r, by rwa [hprecommits], .refl r⟩
  | began _ _ _ _ hbefore _ _ hprecommits =>
    exact hkeep _ (fun hkey => hbefore r hr hkey hcommitted) hprecommits
  | @continued stored written _ hstored hsame _ _ _ hstays _ hprecommits =>
    by_cases hkey : r.key = written.key
    · cases hs.eq_of_key hr hstored (hkey.trans hsame.key)
      rw [hprecommits]
      exact ⟨written, hs.keyed.mem_values_insert.mpr (.inl rfl), hstays hcommitted⟩
    · exact hkeep written hkey hprecommits

omit h hs in
theorem committed_stays (hrun : Run (PreCommitStep blake3) state log state')
    (hs : Records blake3 state.precommits) (hr : r ∈ values state.precommits)
    (hcommitted : r.state = .Committed) : ∃ r' ∈ values state'.precommits, SameCommit r r' := by
  induction hrun with
  | refl => exact ⟨r, hr, .refl r⟩
  | step hrun hstep ih =>
    obtain ⟨m, hm, hsame⟩ := ih
    obtain ⟨r', hr', hsame'⟩ := hstep.records.committed_stays (Records.of_run hrun hs) hm
      (hsame.state.trans hcommitted)
    exact ⟨r', hr', hsame.trans hsame'⟩

omit h hs in
theorem Consumed.same {commits : CommitKey → Option (CommitRecord U)} (h : Consumed commits r)
    (hsame : SameCommit r r') : Consumed commits r' := by
  obtain ⟨commit_id, commit, version, hid, hcommit, hparent, hcandidate, hversion⟩ := h
  refine ⟨commit_id, commit, version, hsame.committed.trans hid, ?_,
    hparent.trans hsame.frozen_head.symm, hsame.candidate.trans hcandidate, hversion⟩
  have htenant : r'.tenant_id = r.tenant_id := congrArg tenant_id hsame.workspace
  have hproject : r'.project_id = r.project_id := congrArg project_id hsame.workspace
  have hartifact : r'.artifact_id = r.artifact_id := congrArg artifact_id hsame.workspace
  rw [htenant, hproject, hartifact]
  exact hcommit

/-- **Step cases**: a record that is committed after a step was so before it, or the step has
committed it. -/
theorem RecordEffect.committed_cases (hr' : r' ∈ values state'.precommits)
    (hcommitted : r'.state = .Committed) :
    (∃ r ∈ values state.precommits, SameCommit r r' ∧ AcknowledgedBy event r r') ∨
      ∃ request r snapshot, apply_commit blake3 r request = .ok snapshot ∧
        r' = snapshot.consumed_precommit ∧
        state'.commits =
          update state.commits snapshot.commit.key (some snapshot.commit) := by
  have hkept : r' ∈ values state.precommits →
      ∃ r ∈ values state.precommits, SameCommit r r' ∧ AcknowledgedBy event r r' :=
    fun hold => ⟨r', hold, .refl r', .inl⟩
  cases h.written hs with
  | nothing _ hprecommits => exact .inl (hkept (hprecommits ▸ hr'))
  | began _ hstate _ _ _ _ _ hprecommits =>
    rw [hprecommits] at hr'
    rcases hs.keyed.mem_values_insert.mp hr' with rfl | ⟨hold, -⟩
    · cases hstate.symm.trans hcommitted
    · exact .inl (hkept hold)
  | @continued stored _ _ hstored _ _ _ _ _ hmade hprecommits =>
    rw [hprecommits] at hr'
    rcases hs.keyed.mem_values_insert.mp hr' with rfl | ⟨hold, -⟩
    · rcases hmade hcommitted with hsame | ⟨request, snapshot, hsnapshot⟩
      · exact .inl ⟨stored, hstored, hsame⟩
      · exact .inr ⟨request, stored, snapshot, hsnapshot⟩
    · exact .inl (hkept hold)

theorem RecordEffect.keeps_consumed
    (hc : ∀ r ∈ values state.precommits, r.state = .Committed → Consumed state.commits r) :
    ∀ r ∈ values state'.precommits, r.state = .Committed → Consumed state'.commits r := by
  intro r' hr' hcommitted
  rcases h.committed_cases hs hr' hcommitted with
    ⟨r, hr, hsame, -⟩ | ⟨request, r, snapshot, happly, heq, hcommits⟩
  · obtain ⟨commit_id, commit, version, hid, hcommit, hrest⟩ :=
      hc r hr (hsame.state.symm.trans hcommitted)
    have hlater : Consumed state'.commits r :=
      ⟨commit_id, commit, version, hid, h.keeps_commits hcommit, hrest⟩
    exact hlater.same hsame
  · obtain ⟨hcommit, -, -, hkey, hparent, hrecords, ⟨version, hversion, hsame⟩, hattempt, -,
      hcandidate, hid, -⟩ := apply_commit_ok happly
    subst heq
    have hwork := hattempt.workspace
    refine ⟨_, request.commit, version, hid, ?_, hparent.trans hattempt.frozen_head.symm, ?_, hsame⟩
    · have htenant := congrArg tenant_id hwork
      have hproject := congrArg project_id hwork
      have hartifact := congrArg artifact_id hwork
      simp only [PreCommitRecord.workspace] at htenant hproject hartifact
      rw [htenant, hproject, hartifact, ← hkey, hcommits, hcommit, update_self]
    · rw [hcandidate, PreCommitRecord.candidate, hversion, hrecords]

end

theorem Consumed.of_run (hrun : Run (PreCommitStep blake3) .empty log state) :
    ∀ r ∈ values state.precommits, r.state = .Committed → Consumed state.commits r := by
  induction hrun with
  | refl => simp [empty, values]
  | step hrun hstep ih => exact hstep.records.keeps_consumed (Records.of_run hrun .empty) ih

theorem PreCommitStep.keeps_book (h : PreCommitStep blake3 state event state') {key : MutationKey}
    {entry : InMemoryPreCommitMutation U} (hentry : state.mutations key = some entry) :
    state'.mutations key = some entry := by
  cases h with
  | failed => exact hentry
  | done h =>
    cases PreCommitCall.run_book h with
    | replayed _ _ _ _ hstate => rwa [hstate]
    | @entered new _ _ hnone _ hbook =>
      have hne : key ≠ new := by
        intro heq
        rw [heq, hnone] at hentry
        cases hentry
      rwa [hbook, update_of_ne hne]
    | none _ hbook => rwa [hbook]

/-- Every answered request is in the book, with its answer. -/
theorem answered_entry (hrun : Run (PreCommitStep blake3) .empty log state)
    {call : PreCommitCall U} (hcall : (call, .ok answer) ∈ log)
    {key : MutationKey} (hkey : call.request_key = some key) :
    ∃ entry, state.mutations key = some entry ∧ call.recorded entry = some answer.again := by
  induction hrun with
  | refl => cases hcall
  | step hrun hstep ih =>
    rcases mem_append.mp hcall with hold | hnew
    · obtain ⟨entry, hentry, hanswer⟩ := ih hold
      exact ⟨entry, hstep.keeps_book hentry, hanswer⟩
    · cases mem_singleton.mp hnew
      cases hstep with
      | done h =>
        cases PreCommitCall.run_book h with
        | replayed hkey' hentry hanswer hagain hstate =>
          cases hkey.symm.trans hkey'
          rw [hstate, hagain]
          exact ⟨_, hentry, hanswer⟩
        | entered hkey' hnone hanswer hbook =>
          cases hkey.symm.trans hkey'
          rw [hbook]
          exact ⟨_, update_self .., hanswer⟩
        | none hkey' => cases hkey.symm.trans hkey'

/-! ## The aggregate -/

/-- What holds of the repository after a sequence of calls. -/
structure PreCommitAggregate (blake3 : Blake3) (log : List (PreCommitEvent U))
    (state : InMemoryPreCommitState U) : Prop where
  /-- A Workspace has at most one active Pre-commit. -/
  one_active : ∀ a ∈ values state.precommits, ∀ b ∈ values state.precommits,
    precommit_is_active a = true → precommit_is_active b = true → a.workspace = b.workspace → a = b
  /-- Whatever is called next, a committed Pre-commit stays committed, with the same Commit. -/
  terminal : ∀ after state', Run (PreCommitStep blake3) state after state' →
    ∀ r ∈ values state.precommits, r.state = .Committed →
      ∃ r' ∈ values state'.precommits, r'.key = r.key ∧ r'.state = .Committed ∧
        r'.committed_commit_id = r.committed_commit_id
  /-- The Commit of a Pre-commit has as its parent the Head that the last attempt froze, and the
records and the version that a sync of its job froze. -/
  committed : ∀ r ∈ values state.precommits, r.state = .Committed →
    ∃ commit_id commit began since version, r.committed_commit_id = some commit_id ∧
      state.commits ⟨r.tenant_id, r.project_id, r.artifact_id, commit_id⟩ = some commit ∧
      CurrentAttempt log r.key began since ∧
      commit.parent_commit_id = began.frozen_head_commit_id ∧
      same_index_version version commit.index_version = true ∧
      ∃ e ∈ since, Freezes r.tenant_id began.job_id version commit.records e
  /-- A job that is not the job of the last attempt leaves the Pre-commit alone. -/
  superseded : ∀ r ∈ values state.precommits, ∀ job published_index at_ms result state',
    (job.spec.tenant_id ≠ r.tenant_id ∨ job.spec.job_id ≠ r.job_id) →
    PreCommitStep blake3 state (.sync_job job published_index at_ms, result) state' →
    r ∈ values state'.precommits
  /-- A request that was answered gets the same answer again, and changes nothing. -/
  replay : ∀ call answer key, (call, .ok answer) ∈ log → call.request_key = some key →
    call.run blake3 state = .ok (answer.again, state)
  valid : ∀ r ∈ values state.precommits, validate_record blake3 r = .ok ()

theorem Records.superseded (hs : Records blake3 state.precommits) (hr : r ∈ values state.precommits)
    {job : JobRecord U} {result : CentralResult (PreCommitAnswer U)}
    (hother : job.spec.tenant_id ≠ r.tenant_id ∨ job.spec.job_id ≠ r.job_id)
    (hstep : PreCommitStep blake3 state (.sync_job job published_index at_ms, result) state') :
    r ∈ values state'.precommits := by
  cases hstep.records with
  | same _ hprecommits => rwa [hprecommits]
  | @synced _ _ _ stored r' _ _ hstored htenant hown happly hprecommits =>
    have hkey := (sync_own_job_ok happly).1.key
    rw [hprecommits, ← hkey]
    refine hs.keyed.mem_values_insert.mpr (.inr ⟨hr, ?_⟩)
    intro hsame
    cases hs.eq_of_key hr hstored (hsame.trans hkey)
    rcases hother with hother | hother
    · exact hother htenant.symm
    · exact hother hown.symm

/-- After any calls, with replays and failing calls, the repository is as `PreCommitAggregate` says.
-/
theorem precommit_aggregate (blake3 : Blake3) {log : List (PreCommitEvent U)}
    {state : InMemoryPreCommitState U} (hrun : Run (PreCommitStep blake3) .empty log state) :
    PreCommitAggregate blake3 log state where
  one_active := (Records.of_run hrun .empty).one_active
  terminal := by
    intro after state' hafter r hr hcommitted
    obtain ⟨r', hr', hsame⟩ := committed_stays hafter (Records.of_run hrun .empty) hr hcommitted
    exact ⟨r', hr', hsame.key, hsame.state.trans hcommitted, hsame.committed⟩
  committed := by
    intro r hr hcommitted
    obtain ⟨commit_id, commit, version, hid, hcommit, hparent, hcandidate, hversion⟩ :=
      Consumed.of_run hrun r hr hcommitted
    obtain ⟨began, since, hattempt, hfrozen, hjob, hfreezes⟩ := Origin.of_run hrun r hr
    rw [hjob] at hfreezes
    exact ⟨commit_id, commit, began, since, version, hid, hcommit, hattempt,
      hparent.trans hfrozen, hversion, hfreezes version commit.records hcandidate⟩
  superseded := by
    intro r hr job published_index at_ms result state' hother hstep
    exact (Records.of_run hrun .empty).superseded hr hother hstep
  replay := by
    intro call answer key hcall hkey
    obtain ⟨entry, hentry, hanswer⟩ := answered_entry hrun hcall hkey
    exact PreCommitCall.run_of_recorded hkey hentry hanswer
  valid := (Records.of_run hrun .empty).valid

/-! ### A history with a restart -/

def play (blake3 : Blake3) (state : InMemoryPreCommitState U) :
    List (PreCommitCall U) → List (PreCommitEvent U) × InMemoryPreCommitState U
  | [] => ([], state)
  | call :: calls =>
    match call.run blake3 state with
    | .ok (answer, next) =>
      let (log, last) := play blake3 next calls
      ((call, .ok answer) :: log, last)
    | .error error =>
      let (log, last) := play blake3 state calls
      ((call, .error error) :: log, last)

theorem play_run (blake3 : Blake3) (calls : List (PreCommitCall U))
    (state : InMemoryPreCommitState U) :
    Run (PreCommitStep blake3) state (play blake3 state calls).1 (play blake3 state calls).2 := by
  induction calls generalizing state with
  | nil => exact .refl
  | cons call calls ih =>
    unfold play
    split
    · rename_i answer next h
      exact (Run.refl.step (.done h)).append (ih next)
    · rename_i error h
      exact (Run.refl.step (.failed h)).append (ih state)

namespace Sample

def tenant : TenantId := .named "t" (by decide)
def project : ProjectId := .named "p" (by decide)
def artifact : ArtifactId := .named "a" (by decide)
def workspace : WorkspaceId := .named "w" (by decide)

def version (revision : UInt64) : WireIndexVersion :=
  ⟨revision,
    ((index_snapshot_digest poly_hash ([] : List (FileRecord asciiTables))).toOption).getD
    (digest_of_nat 0), []⟩

def start (precommit_id request_id : RequestId) (job_id : JobId) : PreCommitCall asciiTables :=
  .start ⟨tenant, project, artifact, workspace, precommit_id, request_id, version 0, .FastCdc, none,
    job_id, 0⟩

def job (job_id : JobId) : JobRecord asciiTables where
  spec := ⟨job_id, tenant, project, artifact, workspace, version 0, .FastCdc,
    digest_of_nat 0, 0, [],
    true, none, []⟩
  state := .Succeeded
  resource_version := 7
  decision := some ⟨job_id, ⟨.named "task" (by decide), 1, [], 1, 1⟩, .named "as" (by decide), 1, 1,
    .Publish (version 1) [], .Succeeded, []⟩

def sync (job_id : JobId) : PreCommitCall asciiTables :=
  .sync_job (job job_id) (some ⟨version 1, []⟩) 5

def commit_record (precommit_id request_id : RequestId) (parent : Option CommitId) :
    CommitRecord asciiTables where
  tenant_id := tenant
  project_id := project
  artifact_id := artifact
  source_workspace_id := workspace
  source_precommit_id := precommit_id
  commit_request_id := request_id
  commit_id := canonical_commit_id_with_layout poly_hash
    (((commit_id poly_hash ⟨⟨digest_of_nat 0⟩, parent, "m".toList, 6⟩).toOption).getD
      ⟨digest_of_nat 0⟩) .FastCdc
  object_set_digest := digest_of_nat 0
  root_directory_id := ⟨digest_of_nat 0⟩
  parent_commit_id := parent
  index_version := version 1
  data_layout := .FastCdc
  records := []
  message := "m".toList
  description := none
  tag_names := []
  created_at_unix_ms := 6

def commit (precommit_id request_id : RequestId) (parent : Option CommitId) :
    PreCommitCall asciiTables :=
  .commit ⟨⟨tenant, precommit_id⟩, version 1, .FastCdc,
    commit_record precommit_id request_id parent⟩

def one : RequestId := .named "one" (by decide)
def two : RequestId := .named "two" (by decide)

def first_commit : CommitId := (commit_record two (.named "c2" (by decide)) none).commit_id

/-- The first Pre-commit is cancelled, the second committed, and then the first restarted on the new
Head and committed. -/
def calls : List (PreCommitCall asciiTables) :=
  [start one (.named "s1" (by decide)) (.named "j1" (by decide)),
    .cancel ⟨⟨tenant, one⟩, .named "x1" (by decide), 1⟩,
    start two (.named "s2" (by decide)) (.named "j2" (by decide)),
    sync (.named "j2" (by decide)),
    commit two (.named "c2" (by decide)) none,
    .restart ⟨⟨tenant, one⟩, .named "r1" (by decide), version 0, some first_commit,
      .named "j3" (by decide), 3⟩,
    sync (.named "j3" (by decide)),
    commit one (.named "c1" (by decide)) (some first_commit)]

def history : List (PreCommitEvent asciiTables) × InMemoryPreCommitState asciiTables :=
  play poly_hash .empty calls

end Sample

/-- The Head that the start of a Pre-commit froze. -/
def frozen_at_start (log : List (PreCommitEvent U)) (key : PreCommitKey) :
    Option (Option CommitId) :=
  log.findSome? fun event =>
    match event with
    | (.start request, .ok (.mutated ⟨record, false⟩)) =>
      if record.key = key then some request.frozen_head_commit_id else none
    | _ => none

/-- The parent of the Commit that a Pre-commit was consumed by. -/
def committed_parent (state : InMemoryPreCommitState U) (key : PreCommitKey) :
    Option (Option CommitId) := do
  let r ← state.precommits[key]?
  let commit_id ← r.committed_commit_id
  let commit ← state.commits ⟨r.tenant_id, r.project_id, r.artifact_id, commit_id⟩
  return commit.parent_commit_id

/-- The history of the sample ends with two committed Pre-commits, and the aggregate holds. -/
theorem precommit_aggregate_sample :
    (values Sample.history.2.precommits).map (·.state) = [.Committed, .Committed] ∧
      PreCommitAggregate poly_hash Sample.history.1 Sample.history.2 :=
  ⟨by decide +kernel, precommit_aggregate poly_hash (play_run _ _ _)⟩

/-- A restart freezes the Head again: a Pre-commit started without a Head is committed on a later
Commit. -/
theorem restart_freezes_new_head :
    Run (PreCommitStep poly_hash) .empty Sample.history.1 Sample.history.2 ∧
      frozen_at_start Sample.history.1 ⟨Sample.tenant, Sample.one⟩ = some none ∧
      committed_parent Sample.history.2 ⟨Sample.tenant, Sample.one⟩ =
        some (some Sample.first_commit) :=
  ⟨play_run _ _ _, by decide +kernel, by decide +kernel⟩

end NeoEngram.Central

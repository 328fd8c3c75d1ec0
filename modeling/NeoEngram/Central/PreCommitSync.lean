import NeoEngram.Central.PreCommitRuns
import NeoEngram.Central.PublicationChain

/-! # Following a job that published

A Pre-commit is synchronised with its job by reading the Index of the
Workspace as it is now. This file says when that succeeds for a job that
published.
-/

namespace NeoEngram.Central

open Checks OrderedKeys Runs IndexPublisher Except InMemoryPreCommitState
open Std (ExtTreeMap)

variable {U : UnicodeTables} {blake3 : Blake3}

/-! ## The synchronisation -/

/-- `published_index`: the Index as it is now. -/
def IndexPublisher.published_index {Store : Type} (publisher : IndexPublisher U Store)
    (store : Store) (key : IndexKey) : CentralResult (PublishedIndex U) := do
  let snapshot ← publisher.load_index store key
  return ⟨snapshot.version, values snapshot.records⟩

structure JobOf (r : PreCommitRecord U) (job : JobRecord U) : Prop where
  tenant_id : job.spec.tenant_id = r.tenant_id
  job_id : job.spec.job_id = r.job_id
  workspace : job.index_key = r.workspace
  source : same_index_version r.source_index_version job.spec.expected_index_version = true

variable {r r' : PreCommitRecord U} {job : JobRecord U} {state state' : InMemoryPreCommitState U}

theorem JobOf.find (hjob : JobOf r job) (hs : Records blake3 state.precommits)
    (hr : r ∈ values state.precommits) :
    ((values state.precommits).find? fun precommit =>
      precommit.tenant_id = job.spec.tenant_id ∧ precommit.job_id = job.spec.job_id) = some r := by
  cases hfind : (values state.precommits).find? fun precommit =>
      precommit.tenant_id = job.spec.tenant_id ∧ precommit.job_id = job.spec.job_id with
  | none =>
    have hnot := List.find?_eq_none.mp hfind r hr
    simp [hjob.tenant_id, hjob.job_id] at hnot
  | some found =>
    obtain ⟨htenant, hid⟩ : found.tenant_id = job.spec.tenant_id ∧
      found.job_id = job.spec.job_id := by
      simpa using List.find?_some hfind
    rw [hs.one_job found (List.mem_of_find?_eq_some hfind) r hr (htenant.trans hjob.tenant_id)
      (hid.trans hjob.job_id)]

variable {now : UnixMillis}

theorem JobOf.scope (hjob : JobOf r job) :
    r.project_id = job.spec.project_id ∧ r.artifact_id = job.spec.artifact_id ∧
      r.workspace_id = job.spec.workspace_id ∧
      same_index_version r.source_index_version job.spec.expected_index_version = true :=
  ⟨(congrArg IndexKey.project_id hjob.workspace).symm,
    (congrArg IndexKey.artifact_id hjob.workspace).symm,
    (congrArg IndexKey.workspace_id hjob.workspace).symm, hjob.source⟩

/-! ## Freezing a candidate -/

variable {index : PublishedIndex U}

variable {base_records : Option (List (FileRecord U))}

variable {log : List (PreCommitEvent U)}

section

variable {Store : Type} {publisher : IndexPublisher U Store}
  {catalogue : Store → ManifestKey → Option Manifest}

theorem IndexPublisher.Lawful.published (h : publisher.Lawful blake3 catalogue) {store : Store}
    {request : IndexPublishRequest U} {version : WireIndexVersion}
    (hfresh : publisher.book store request.job_key = none)
    (hpublished : (publisher.compare_and_swap blake3 store request).1 = .ok (.Published version)) :
    ∃ records, publisher.load_index (publisher.compare_and_swap blake3 store request).2
        request.index_key = .ok ⟨version, records⟩ ∧ version.extensions = [] ∧
      index_snapshot_digest blake3 (values records) = .ok version.digest := by
  unfold compare_and_swap at hpublished ⊢
  by_cases htenant : request.job_key.tenant_id ≠ request.index_key.tenant_id
  · rw [if_pos htenant] at hpublished
    cases hpublished
  · rw [if_neg htenant, hfresh] at hpublished ⊢
    cases hload : publisher.load_index store request.index_key with
    | error error =>
      simp only [hload] at hpublished
      cases hpublished
    | ok current =>
      simp only [hload] at hpublished ⊢
      by_cases hexpected : ¬ same_index_version current.version request.expected_index_version
      · rw [if_pos hexpected] at hpublished
        cases hpublished
      · rw [if_neg hexpected] at hpublished ⊢
        cases hdecide : decide_publication blake3 current
            (fun id => publisher.load_manifest store (request.manifest_key id)) request with
        | error stop =>
          cases stop with
          | failed error =>
            simp only [hdecide] at hpublished
            cases hpublished
          | rejected rejection =>
            simp only [hdecide] at hpublished
            cases hpublished
        | ok publication =>
          simp only [hdecide] at hpublished ⊢
          cases hpublished
          have hdecided := decide_publication_ok hdecide (not_not.mp hexpected)
          have hentered := h.store_publication (publisher.store_index store request publication)
            request (.Published publication.version)
          rw [h.store_index store request current publication hload hdecided] at hentered
          have hindex := congrFun (congrArg Authority.index hentered) request.index_key
          simp only [authority, Authority.enter, Function.update_self] at hindex
          exact ⟨publication.records, hindex, hdecided.version, hdecided.replaces.digest⟩

end

variable {first : IndexSnapshot U}

theorem Chain.advances {key : IndexKey} {links : List (IndexPublishRequest U × WireIndexVersion)}
    {last : CentralResult (IndexSnapshot U)} (h : Chain blake3 key (.ok first) links last) :
    last = .ok first ∨ ∃ next, last = .ok next ∧
      first.version.revision.toNat < next.version.revision.toNat := by
  induction h with
  | refl => exact .inl rfl
  | publish hchain _ hreplaces ih =>
    right
    rcases ih with heq | ⟨next, heq, hlt⟩
    · cases heq
      exact ⟨_, rfl, by have := hreplaces.revision; omega⟩
    · cases heq
      exact ⟨_, rfl, by have := hreplaces.revision; omega⟩

variable {Store : Type} {publisher : IndexPublisher U Store}

/-- What the Index is after further calls of the publisher. -/
theorem IndexPublisher.Lawful.later
    {catalogue : Store → ManifestKey → Option Manifest} (h : publisher.Lawful blake3 catalogue)
    {store store' : Store} (hproper : (publisher.authority catalogue store).Proper)
    {log : List (CallLabel U)} (hrun : Run (publisher.Calls blake3) store log store')
    {key : IndexKey} (hfirst : publisher.load_index store key = .ok first) :
    publisher.load_index store' key = .ok first ∨ ∃ next,
      publisher.load_index store' key = .ok next ∧
      first.version.revision.toNat < next.version.revision.toNat := by
  obtain ⟨links, haccounted⟩ := (h.run hproper hrun).accounted key
  have hchain := haccounted.chain
  simp only [authority, hfirst] at hchain
  exact hchain.advances

/-! ## When a synchronisation succeeds -/

variable {current : IndexSnapshot U}

namespace Sample

def job_one : JobId := .named "k1" (by decide)
def publish (job_id : JobId) (revision : UInt64) : IndexPublishRequest asciiTables :=
  ⟨⟨tenant, job_id⟩, ⟨tenant, project, artifact, workspace⟩, version revision, (version 0).digest,
    [], []⟩

def published : SqliteAuthorityStore asciiTables :=
  (sample_store.compare_and_swap poly_hash (publish job_one 0)).2

def started : List (PreCommitEvent asciiTables) × InMemoryPreCommitState asciiTables :=
  play poly_hash .empty [start one (.named "q1" (by decide)) job_one]

def cancelled : List (PreCommitEvent asciiTables) × InMemoryPreCommitState asciiTables :=
  play poly_hash .empty [start one (.named "q1" (by decide)) job_one,
    .cancel ⟨⟨tenant, one⟩, .named "y1" (by decide), 1⟩]

end Sample

end NeoEngram.Central

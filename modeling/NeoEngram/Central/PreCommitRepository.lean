import NeoEngram.Central.PreCommit
import NeoEngram.Framework.Runs

/-! # The repository of Pre-commits

The repository holds the Pre-commits, their Commits, and for every request
identifier the request and its result, with which a repeated request is
answered. An operation runs under a lock and writes only at its end, so its
model fails, or gives the answer and the next state.
-/

namespace NeoEngram.Central

open Checks OrderedKeys
open Std (ExtTreeMap)

variable {U : UnicodeTables}

/-! ## State -/

structure PreCommitMutationOutcome (U : UnicodeTables) where
  precommit : PreCommitRecord U
  replayed : Bool
  deriving DecidableEq

structure PreCommitCommitOutcome (U : UnicodeTables) where
  commit : CommitRecord U
  consumed_precommit : PreCommitRecord U
  replayed : Bool
  deriving DecidableEq

def PreCommitCommitOutcome.of_snapshot (snapshot : PreCommitCommitSnapshot U) (replayed : Bool) :
    PreCommitCommitOutcome U :=
  ⟨snapshot.commit, snapshot.consumed_precommit, replayed⟩

inductive InMemoryPreCommitMutation (U : UnicodeTables) where
  | Start (request : PreCommitStartRequest) (result : PreCommitRecord U)
  | Restart (request : PreCommitRestartRequest) (result : PreCommitRecord U)
  | Cancel (request : PreCommitCancelRequest) (result : PreCommitRecord U)
  | Commit (request : PreCommitCommitRequest U) (result : PreCommitCommitSnapshot U)

abbrev MutationKey := TenantId × RequestId

/-- The records, the book of requests and the Commits. -/
structure InMemoryPreCommitState (U : UnicodeTables) where
  precommits : ExtTreeMap PreCommitKey (PreCommitRecord U)
  commits : CommitKey → Option (CommitRecord U)
  mutations : MutationKey → Option (InMemoryPreCommitMutation U)

/-! ## Operations -/

def precommit_not_found : CentralError :=
  (CentralError.new .JobNotFound "tenant-scoped Pre-commit was not found").with_retryable false

def precommit_request_conflict : CentralError :=
  (CentralError.new .ConcurrentUpdate
    "Pre-commit mutation identity was reused with another payload").with_retryable false

def precommit_is_active (record : PreCommitRecord U) : Bool :=
  record.state = .Running ∨ record.state = .Ready ∨ record.state = .Abnormal

namespace InMemoryPreCommitState

def empty : InMemoryPreCommitState U := ⟨∅, fun _ => none, fun _ => none⟩

variable (state : InMemoryPreCommitState U)

def ensure_job_identity_available (candidate : PreCommitRecord U) : CentralResult Unit :=
  ensure (¬ (values state.precommits).any fun stored =>
      stored.key ≠ candidate.key ∧ stored.tenant_id = candidate.tenant_id ∧
        stored.job_id = candidate.job_id)
    precommit_request_conflict

def ensure_active_available (candidate : PreCommitRecord U) (except : Option PreCommitKey) :
    CentralResult Unit :=
  ensure (¬ (values state.precommits).any fun stored =>
      (∀ key ∈ except, stored.key ≠ key) ∧ stored.workspace = candidate.workspace ∧
        precommit_is_active stored)
    precommit_request_conflict

def store (record : PreCommitRecord U) : InMemoryPreCommitState U :=
  { state with precommits := state.precommits.insert record.key record }

/-- What the four operations with a request identifier share. An identifier in the book is answered
from it, if the request is the same; otherwise the operation is performed and entered. -/
def mutate {R : Type} (key : MutationKey) (recorded : InMemoryPreCommitMutation U → Option R)
    (perform : CentralResult (R × InMemoryPreCommitState U))
    (enter : R → InMemoryPreCommitMutation U) :
    CentralResult (R × Bool × InMemoryPreCommitState U) :=
  match state.mutations key with
  | some existing => do
    let result ← ok_or (recorded existing) precommit_request_conflict
    return (result, true, state)
  | none => do
    let (result, performed) ← perform
    return (result, false,
      { performed with
        mutations := Function.update performed.mutations key (some (enter result)) })

section

variable (blake3 : Blake3)

/-- The answer in the book, if the request is the same. -/
def recorded_start (request : PreCommitStartRequest) :
    InMemoryPreCommitMutation U → Option (PreCommitRecord U)
  | .Start stored result => if same_start_request stored request then some result else none
  | _ => none

/-- A start that is not in the book. -/
def perform_start (request : PreCommitStartRequest) :
    CentralResult (PreCommitRecord U × InMemoryPreCommitState U) := do
  let record ← build_started blake3 request
  ensure (state.precommits[record.key]? = none) precommit_request_conflict
  state.ensure_active_available record none
  state.ensure_job_identity_available record
  return (record, state.store record)

def start (request : PreCommitStartRequest) :
    CentralResult (PreCommitMutationOutcome U × InMemoryPreCommitState U) := do
  let (record, replayed, state) ← state.mutate (request.tenant_id, request.precommit_request_id)
    (recorded_start request) (state.perform_start blake3 request) (.Start request)
  return (⟨record, replayed⟩, state)

def recorded_restart (request : PreCommitRestartRequest) :
    InMemoryPreCommitMutation U → Option (PreCommitRecord U)
  | .Restart stored result => if same_restart_request stored request then some result else none
  | _ => none

def perform_restart (request : PreCommitRestartRequest) :
    CentralResult (PreCommitRecord U × InMemoryPreCommitState U) := do
  let stored ← ok_or state.precommits[request.key]? precommit_not_found
  let restarted ← apply_restart blake3 stored request
  state.ensure_active_available restarted (some restarted.key)
  state.ensure_job_identity_available restarted
  return (restarted, state.store restarted)

def restart (request : PreCommitRestartRequest) :
    CentralResult (PreCommitMutationOutcome U × InMemoryPreCommitState U) := do
  let (record, replayed, state) ← state.mutate (request.key.tenant_id, request.restart_request_id)
    (recorded_restart request) (state.perform_restart blake3 request) (.Restart request)
  return (⟨record, replayed⟩, state)

def recorded_cancel (request : PreCommitCancelRequest) :
    InMemoryPreCommitMutation U → Option (PreCommitRecord U)
  | .Cancel stored result => if same_cancel_request stored request then some result else none
  | _ => none

def perform_cancel (request : PreCommitCancelRequest) :
    CentralResult (PreCommitRecord U × InMemoryPreCommitState U) := do
  let stored ← ok_or state.precommits[request.key]? precommit_not_found
  let cancelled ← apply_cancel blake3 stored request
  return (cancelled, state.store cancelled)

def cancel (request : PreCommitCancelRequest) :
    CentralResult (PreCommitMutationOutcome U × InMemoryPreCommitState U) := do
  let (record, replayed, state) ← state.mutate (request.key.tenant_id, request.cancel_request_id)
    (recorded_cancel request) (state.perform_cancel blake3 request) (.Cancel request)
  return (⟨record, replayed⟩, state)

/-- The records of the Head that a Pre-commit froze, if its Commit is stored. -/
def base_records (stored : PreCommitRecord U) : Option (List (FileRecord U)) :=
  match stored.frozen_head_commit_id with
  | none => some []
  | some commit_id =>
    (state.commits ⟨stored.tenant_id, stored.project_id, stored.artifact_id, commit_id⟩).map
      (·.records)

def sync_job (job : JobRecord U) (published_index : Option (PublishedIndex U))
    (observed_at_unix_ms : UnixMillis) :
    CentralResult (Option (PreCommitRecord U) × InMemoryPreCommitState U) :=
  match (values state.precommits).find? fun precommit =>
      precommit.tenant_id = job.spec.tenant_id ∧ precommit.job_id = job.spec.job_id with
  | none => .ok (none, state)
  | some stored => do
    match ← apply_job_sync blake3 stored job published_index (state.base_records stored)
        observed_at_unix_ms with
    | none => return (none, state)
    | some synchronized =>
      return (some synchronized,
        if synchronized ≠ stored then
          { state with precommits := state.precommits.insert stored.key synchronized }
        else state)

def recorded_commit (request : PreCommitCommitRequest U) :
    InMemoryPreCommitMutation U → Option (PreCommitCommitSnapshot U)
  | .Commit stored result => if same_commit_request stored request then some result else none
  | _ => none

def perform_commit (request : PreCommitCommitRequest U) :
    CentralResult (PreCommitCommitSnapshot U × InMemoryPreCommitState U) := do
  let stored ← ok_or state.precommits[request.key]? precommit_not_found
  let consumed ← apply_commit blake3 stored request
  ensure (state.commits consumed.commit.key = none) precommit_request_conflict
  return (consumed,
    { state.store consumed.consumed_precommit with
      commits := Function.update state.commits consumed.commit.key (some consumed.commit) })

def commit (request : PreCommitCommitRequest U) :
    CentralResult (PreCommitCommitOutcome U × InMemoryPreCommitState U) := do
  let (snapshot, replayed, state) ← state.mutate
    (request.key.tenant_id, request.commit.commit_request_id)
    (recorded_commit request) (state.perform_commit blake3 request) (.Commit request)
  return (.of_snapshot snapshot replayed, state)

def acknowledge_head_publication (key : PreCommitKey) (commit_id : CommitId)
    (published_at_unix_ms : UnixMillis) :
    CentralResult (PreCommitRecord U × InMemoryPreCommitState U) := do
  let stored ← ok_or state.precommits[key]? precommit_not_found
  let acknowledged ← apply_head_publication_ack blake3 stored commit_id published_at_unix_ms
  return (acknowledged,
    if acknowledged ≠ stored then
      { state with precommits := state.precommits.insert key acknowledged }
    else state)

end

end InMemoryPreCommitState

/-! ## Calls and steps -/

inductive PreCommitCall (U : UnicodeTables) where
  | start (request : PreCommitStartRequest)
  | restart (request : PreCommitRestartRequest)
  | cancel (request : PreCommitCancelRequest)
  | sync_job (job : JobRecord U) (published_index : Option (PublishedIndex U))
      (observed_at_unix_ms : UnixMillis)
  | commit (request : PreCommitCommitRequest U)
  | acknowledge_head_publication (key : PreCommitKey) (commit_id : CommitId)
      (published_at_unix_ms : UnixMillis)

inductive PreCommitAnswer (U : UnicodeTables) where
  | mutated (outcome : PreCommitMutationOutcome U)
  | synced (record : Option (PreCommitRecord U))
  | committed (outcome : PreCommitCommitOutcome U)
  | acknowledged (record : PreCommitRecord U)
  deriving DecidableEq

def PreCommitCall.run (blake3 : Blake3) (state : InMemoryPreCommitState U) :
    PreCommitCall U → CentralResult (PreCommitAnswer U × InMemoryPreCommitState U)
  | .start request => Prod.map .mutated id <$> state.start blake3 request
  | .restart request => Prod.map .mutated id <$> state.restart blake3 request
  | .cancel request => Prod.map .mutated id <$> state.cancel blake3 request
  | .sync_job job published_index observed_at_unix_ms =>
    Prod.map .synced id <$> state.sync_job blake3 job published_index observed_at_unix_ms
  | .commit request => Prod.map .committed id <$> state.commit blake3 request
  | .acknowledge_head_publication key commit_id published_at_unix_ms =>
    Prod.map .acknowledged id <$>
      state.acknowledge_head_publication blake3 key commit_id published_at_unix_ms

/-- A call and how it ended. -/
abbrev PreCommitEvent (U : UnicodeTables) := PreCommitCall U × CentralResult (PreCommitAnswer U)

/-- A call that fails leaves the repository as it is. -/
inductive PreCommitStep (blake3 : Blake3) (state : InMemoryPreCommitState U) :
    PreCommitEvent U → InMemoryPreCommitState U → Prop
  | done {call : PreCommitCall U} {answer : PreCommitAnswer U} {state' : InMemoryPreCommitState U}
      (h : call.run blake3 state = .ok (answer, state')) : PreCommitStep blake3 state
        (call, .ok answer) state'
  | failed {call : PreCommitCall U} {error : CentralError}
      (h : call.run blake3 state = .error error) : PreCommitStep blake3 state
        (call, .error error) state

/-! ## The book of requests -/

variable {blake3 : Blake3} {state state' : InMemoryPreCommitState U}
  {key : MutationKey} {replayed : Bool}

theorem InMemoryPreCommitState.mutate_eq_ok {R : Type}
    {recorded : InMemoryPreCommitMutation U → Option R}
    {perform : CentralResult (R × InMemoryPreCommitState U)}
    {enter : R → InMemoryPreCommitMutation U} {result : R} :
    state.mutate key recorded perform enter = .ok (result, replayed, state') ↔
      (∃ entry, state.mutations key = some entry ∧ recorded entry = some result ∧
        replayed = true ∧ state' = state) ∨
      (state.mutations key = none ∧ replayed = false ∧ ∃ performed,
        perform = .ok (result, performed) ∧
        state' = { performed with
          mutations := Function.update performed.mutations key (some (enter result)) }) := by
  unfold mutate
  cases state.mutations key with
  | none =>
    simp only [ok_iff, Prod.exists, Prod.mk.injEq, reduceCtorEq, false_and, exists_false, true_and,
      false_or]
    constructor
    · rintro ⟨_, performed, hperform, hresult, hreplayed, hstate⟩
      subst hresult
      exact ⟨hreplayed.symm, performed, hperform, hstate.symm⟩
    · rintro ⟨hreplayed, performed, hperform, hstate⟩
      exact ⟨result, performed, hperform, rfl, hreplayed.symm, hstate.symm⟩
  | some entry =>
    simp only [ok_iff, Prod.mk.injEq, Option.some.injEq, reduceCtorEq, false_and, or_false,
      exists_eq_left']
    constructor
    · rintro ⟨_, hrecorded, hresult, hreplayed, hstate⟩
      subst hresult
      exact ⟨hrecorded, hreplayed.symm, hstate.symm⟩
    · rintro ⟨hrecorded, hreplayed, hstate⟩
      exact ⟨result, hrecorded, rfl, hreplayed.symm, hstate.symm⟩

def PreCommitAnswer.again : PreCommitAnswer U → PreCommitAnswer U
  | .mutated outcome => .mutated { outcome with replayed := true }
  | .committed outcome => .committed { outcome with replayed := true }
  | answer => answer

namespace PreCommitCall

/-- The entry of the book that a call reads. -/
def request_key : PreCommitCall U → Option MutationKey
  | .start request => some (request.tenant_id, request.precommit_request_id)
  | .restart request => some (request.key.tenant_id, request.restart_request_id)
  | .cancel request => some (request.key.tenant_id, request.cancel_request_id)
  | .commit request => some (request.key.tenant_id, request.commit.commit_request_id)
  | .sync_job .. => none
  | .acknowledge_head_publication .. => none

def recorded : PreCommitCall U → InMemoryPreCommitMutation U → Option (PreCommitAnswer U)
  | .start request, entry =>
    (InMemoryPreCommitState.recorded_start request entry).map fun record => .mutated ⟨record, true⟩
  | .restart request, entry =>
    (InMemoryPreCommitState.recorded_restart request entry).map fun record =>
      .mutated ⟨record, true⟩
  | .cancel request, entry =>
    (InMemoryPreCommitState.recorded_cancel request entry).map fun record => .mutated ⟨record, true⟩
  | .commit request, entry =>
    (InMemoryPreCommitState.recorded_commit request entry).map fun snapshot =>
      .committed (.of_snapshot snapshot true)
  | _, _ => none

end PreCommitCall

/-- What a call does to the book: its answer comes from the book, or is entered into it. -/
inductive BookEffect (state : InMemoryPreCommitState U) (call : PreCommitCall U)
    (answer : PreCommitAnswer U) (state' : InMemoryPreCommitState U) : Prop
  | replayed {key : MutationKey} {entry : InMemoryPreCommitMutation U}
      (hkey : call.request_key = some key) (hentry : state.mutations key = some entry)
      (hanswer : call.recorded entry = some answer) (hagain : answer.again = answer)
      (hstate : state' = state)
  | entered {key : MutationKey} {entry : InMemoryPreCommitMutation U}
      (hkey : call.request_key = some key) (hnone : state.mutations key = none)
      (hanswer : call.recorded entry = some answer.again)
      (hbook : state'.mutations = Function.update state.mutations key (some entry))
  | none (hkey : call.request_key = none) (hbook : state'.mutations = state.mutations)

variable {call : PreCommitCall U}

theorem BookEffect.of_mutate {R : Type} {recorded : InMemoryPreCommitMutation U → Option R}
    {perform : CentralResult (R × InMemoryPreCommitState U)}
    {enter : R → InMemoryPreCommitMutation U} {result : R}
    (answer : R → Bool → PreCommitAnswer U) (hkey : call.request_key = some key)
    (hrecorded : ∀ entry, call.recorded entry = (recorded entry).map (answer · true))
    (hagain : ∀ r b, (answer r b).again = answer r true) (henter : ∀ r, recorded (enter r) = some r)
    (hkeeps : ∀ r performed, perform = .ok (r, performed) → performed.mutations = state.mutations)
    (h : state.mutate key recorded perform enter = .ok (result, replayed, state')) :
    BookEffect state call (answer result replayed) state' := by
  rcases InMemoryPreCommitState.mutate_eq_ok.mp h with
    ⟨entry, hentry, hresult, hreplayed, hstate⟩ | ⟨hnone, hreplayed, performed, hperform, hstate⟩
  · subst hreplayed
    exact .replayed hkey hentry (by rw [hrecorded, hresult]; rfl) (hagain result true) hstate
  · subst hreplayed
    have hbook : state'.mutations = Function.update state.mutations key (some (enter result)) := by
      rw [hstate, ← hkeeps result performed hperform]
    exact .entered hkey hnone (by rw [hrecorded, henter, hagain]; rfl) hbook

/-! ### Performing a request for the first time -/

variable {request : PreCommitCommitRequest U}

namespace InMemoryPreCommitState

variable {record : PreCommitRecord U} {candidate : PreCommitRecord U}

theorem ensure_active_available_eq_ok {except : Option PreCommitKey} {r : Unit} :
    state.ensure_active_available candidate except = .ok r ↔
      ∀ stored ∈ values state.precommits, (∀ key ∈ except, stored.key ≠ key) →
        stored.workspace = candidate.workspace → precommit_is_active stored = false := by
  simp [ensure_active_available]

theorem ensure_job_identity_available_eq_ok {r : Unit} :
    state.ensure_job_identity_available candidate = .ok r ↔
      ∀ stored ∈ values state.precommits, stored.key ≠ candidate.key →
        stored.tenant_id = candidate.tenant_id → stored.job_id ≠ candidate.job_id := by
  simp [ensure_job_identity_available]

theorem perform_start_ok {request : PreCommitStartRequest}
    (h : state.perform_start blake3 request = .ok (record, state')) :
    build_started blake3 request = .ok record ∧ state.precommits[record.key]? = none ∧
      state.ensure_active_available record none = .ok () ∧
      state.ensure_job_identity_available record = .ok () ∧ state' = state.store record := by
  simp only [perform_start, ok_iff, Prod.mk.injEq] at h
  obtain ⟨_, hbuild, hfree, hactive, hjob, rfl, hstate⟩ := h
  exact ⟨hbuild, hfree, hactive, hjob, hstate.symm⟩

theorem perform_restart_ok {request : PreCommitRestartRequest}
    (h : state.perform_restart blake3 request = .ok (record, state')) :
    ∃ stored, state.precommits[request.key]? = some stored ∧
      apply_restart blake3 stored request = .ok record ∧
      state.ensure_active_available record (some record.key) = .ok () ∧
      state.ensure_job_identity_available record = .ok () ∧ state' = state.store record := by
  simp only [perform_restart, ok_iff, Prod.mk.injEq] at h
  obtain ⟨stored, hstored, _, happly, hactive, hjob, rfl, hstate⟩ := h
  exact ⟨stored, hstored, happly, hactive, hjob, hstate.symm⟩

theorem perform_cancel_ok {request : PreCommitCancelRequest}
    (h : state.perform_cancel blake3 request = .ok (record, state')) :
    ∃ stored, state.precommits[request.key]? = some stored ∧
      apply_cancel blake3 stored request = .ok record ∧ state' = state.store record := by
  simp only [perform_cancel, ok_iff, Prod.mk.injEq] at h
  obtain ⟨stored, hstored, _, happly, rfl, hstate⟩ := h
  exact ⟨stored, hstored, happly, hstate.symm⟩

theorem perform_commit_ok
    {snapshot : PreCommitCommitSnapshot U}
    (h : state.perform_commit blake3 request = .ok (snapshot, state')) :
    ∃ stored, state.precommits[request.key]? = some stored ∧
      apply_commit blake3 stored request = .ok snapshot ∧
      state.commits snapshot.commit.key = none ∧
      state' = { state.store snapshot.consumed_precommit with
        commits := Function.update state.commits snapshot.commit.key (some snapshot.commit) } := by
  simp only [perform_commit, ok_iff, Prod.mk.injEq] at h
  obtain ⟨stored, hstored, _, happly, hfree, rfl, hstate⟩ := h
  exact ⟨stored, hstored, happly, hfree, hstate.symm⟩

end InMemoryPreCommitState

open InMemoryPreCommitState (mutate_eq_ok perform_start_ok perform_restart_ok perform_cancel_ok
  perform_commit_ok recorded_start recorded_restart recorded_cancel recorded_commit)

namespace PreCommitCall

variable {answer : PreCommitAnswer U}

theorem run_mutation_ok {α β : Type} {result : CentralResult (α × Bool × InMemoryPreCommitState U)}
    {outcome : α → Bool → β} {wrap : β → PreCommitAnswer U}
    (h : Prod.map wrap id <$> (do
      let (value, replayed, state) ← result
      return (outcome value replayed, state)) = Except.ok (answer, state')) :
    ∃ value replayed, answer = wrap (outcome value replayed) ∧
      result = .ok (value, replayed, state') := by
  simp only [map_eq_ok, ok_iff, Prod.exists] at h
  obtain ⟨_, _, ⟨value, replayed, _, h, heq⟩, hanswer⟩ := h
  cases heq
  cases hanswer
  exact ⟨value, replayed, rfl, h⟩

variable {at_ms : UnixMillis}

theorem run_sync_job_ok {job : JobRecord U} {published_index : Option (PublishedIndex U)}
    (h : run blake3 state (.sync_job job published_index at_ms) = .ok (answer, state')) :
    state' = state ∨ ∃ r r', r ∈ values state.precommits ∧ r.tenant_id = job.spec.tenant_id ∧
      r.job_id = job.spec.job_id ∧
      sync_own_job blake3 r job published_index (state.base_records r) at_ms = .ok r' ∧
      state' = { state with precommits := state.precommits.insert r.key r' } := by
  simp only [run, InMemoryPreCommitState.sync_job, map_eq_ok, Prod.exists] at h
  obtain ⟨found, performed, h, hanswer⟩ := h
  cases hanswer
  split at h
  · cases h
    exact .inl rfl
  · rename_i r hfind
    obtain ⟨htenant, hjob⟩ : r.tenant_id = job.spec.tenant_id ∧ r.job_id = job.spec.job_id := by
      simpa using List.find?_some hfind
    simp only [apply_job_sync, if_pos (And.intro htenant hjob), ok_iff] at h
    obtain ⟨_, ⟨r', hsync, rfl⟩, h⟩ := h
    cases h
    by_cases hchange : r' ≠ r
    · simp only [if_pos hchange]
      exact .inr ⟨r, r', List.mem_of_find?_eq_some hfind, htenant, hjob, hsync, rfl⟩
    · simp only [if_neg hchange]
      exact .inl rfl

theorem run_acknowledge_ok {key : PreCommitKey} {commit_id : CommitId}
    (h : run blake3 state (.acknowledge_head_publication key commit_id at_ms) =
      .ok (answer, state')) :
    ∃ r r', state.precommits[key]? = some r ∧ answer = .acknowledged r' ∧
      apply_head_publication_ack blake3 r commit_id at_ms = .ok r' ∧
      ((state' = state ∧ r' = r) ∨
        state' = { state with precommits := state.precommits.insert key r' }) := by
  simp only [run, InMemoryPreCommitState.acknowledge_head_publication, map_eq_ok, ok_iff,
    Prod.exists] at h
  obtain ⟨_, _, ⟨r, hr, r', hack, heq⟩, hanswer⟩ := h
  obtain ⟨rfl, rfl⟩ := Prod.mk.inj heq
  cases hanswer
  refine ⟨r, r', hr, rfl, hack, ?_⟩
  by_cases hchange : r' ≠ r
  · simp only [if_pos hchange]
    exact .inr rfl
  · simp only [if_neg hchange]
    exact .inl ⟨rfl, not_not.mp hchange⟩

/-- **The book**: a call with a request identifier is answered from the book or entered into it. -/
theorem run_book
    (h : call.run blake3 state = .ok (answer, state')) : BookEffect state call answer state' := by
  cases call with
  | start request =>
    obtain ⟨record, replayed, rfl, hmutate⟩ := run_mutation_ok h
    refine .of_mutate (fun r b => .mutated ⟨r, b⟩) rfl (fun _ => rfl) (fun _ _ => rfl)
      (fun r => by simp [recorded_start]) ?_ hmutate
    intro r performed hperform
    obtain ⟨-, -, -, -, hstate⟩ := perform_start_ok hperform
    rw [hstate]
    rfl
  | restart request =>
    obtain ⟨record, replayed, rfl, hmutate⟩ := run_mutation_ok h
    refine .of_mutate (fun r b => .mutated ⟨r, b⟩) rfl (fun _ => rfl) (fun _ _ => rfl)
      (fun r => by simp [recorded_restart]) ?_ hmutate
    intro r performed hperform
    obtain ⟨_, -, -, -, -, hstate⟩ := perform_restart_ok hperform
    rw [hstate]
    rfl
  | cancel request =>
    obtain ⟨record, replayed, rfl, hmutate⟩ := run_mutation_ok h
    refine .of_mutate (fun r b => .mutated ⟨r, b⟩) rfl (fun _ => rfl) (fun _ _ => rfl)
      (fun r => by simp [recorded_cancel]) ?_ hmutate
    intro r performed hperform
    obtain ⟨_, -, -, hstate⟩ := perform_cancel_ok hperform
    rw [hstate]
    rfl
  | commit request =>
    obtain ⟨snapshot, replayed, rfl, hmutate⟩ := run_mutation_ok h
    refine .of_mutate (fun r b => .committed (.of_snapshot r b)) rfl (fun _ => rfl)
      (fun _ _ => rfl) (fun r => by simp [recorded_commit]) ?_ hmutate
    intro r performed hperform
    obtain ⟨_, -, -, -, hstate⟩ := perform_commit_ok hperform
    rw [hstate]
    rfl
  | sync_job job published_index at_ms =>
    rcases run_sync_job_ok h with hstate | ⟨r, r', -, -, -, -, hstate⟩
    · exact .none rfl (by rw [hstate])
    · exact .none rfl (by rw [hstate])
  | acknowledge_head_publication key commit_id at_ms =>
    obtain ⟨r, r', -, -, -, ⟨hstate, -⟩ | hstate⟩ := run_acknowledge_ok h
    · exact .none rfl (by rw [hstate])
    · exact .none rfl (by rw [hstate])

/-- A call with an entry in the book gets the answer of the entry, and changes nothing. -/
theorem run_of_recorded {entry : InMemoryPreCommitMutation U} (hkey : call.request_key = some key)
    (hentry : state.mutations key = some entry) (hanswer : call.recorded entry = some answer) :
    call.run blake3 state = .ok (answer, state) := by
  cases call
  case sync_job | acknowledge_head_publication => cases hkey
  all_goals
    cases hkey
    obtain ⟨result, hresult, rfl⟩ := Option.map_eq_some_iff.mp hanswer
    simp [run, InMemoryPreCommitState.start, InMemoryPreCommitState.restart,
      InMemoryPreCommitState.cancel, InMemoryPreCommitState.commit, InMemoryPreCommitState.mutate,
      hentry, hresult, ok_or, bind, Except.bind, pure, Except.pure, Functor.map, Except.map]

end PreCommitCall

/-! ## What a call does to the records -/

/-- The beginning of an attempt: its Pre-commit, the Head it froze, and its job. -/
structure Began where
  key : PreCommitKey
  frozen_head_commit_id : Option CommitId
  job_id : JobId
  deriving DecidableEq

/-- A start or a restart that is not a replay begins an attempt. -/
def begins : PreCommitEvent U → Option Began
  | (.start request, .ok (.mutated ⟨_, false⟩)) =>
    some ⟨⟨request.tenant_id, request.precommit_id⟩, request.frozen_head_commit_id, request.job_id⟩
  | (.restart request, .ok (.mutated ⟨_, false⟩)) =>
    some ⟨request.key, request.frozen_head_commit_id, request.job_id⟩
  | _ => none

/-- What a call does to the Pre-commits and Commits. -/
inductive RecordEffect (blake3 : Blake3) (state : InMemoryPreCommitState U) :
    PreCommitEvent U → InMemoryPreCommitState U → Prop
  | same {event : PreCommitEvent U} {state' : InMemoryPreCommitState U}
      (hbegins : begins event = none) (hprecommits : state'.precommits = state.precommits)
      (hcommits : state'.commits = state.commits) : RecordEffect blake3 state event state'
  | started {request : PreCommitStartRequest} {record : PreCommitRecord U}
      {state' : InMemoryPreCommitState U} (hbuild : build_started blake3 request = .ok record)
      (hfree : state.precommits[record.key]? = none)
      (hactive : state.ensure_active_available record none = .ok ())
      (hjob : state.ensure_job_identity_available record = .ok ())
      (hprecommits : state'.precommits = state.precommits.insert record.key record)
      (hcommits : state'.commits = state.commits) :
      RecordEffect blake3 state (.start request, .ok (.mutated ⟨record, false⟩)) state'
  | restarted {request : PreCommitRestartRequest} {r r' : PreCommitRecord U}
      {state' : InMemoryPreCommitState U} (hstored : state.precommits[request.key]? = some r)
      (happly : apply_restart blake3 r request = .ok r')
      (hactive : state.ensure_active_available r' (some r'.key) = .ok ())
      (hjob : state.ensure_job_identity_available r' = .ok ())
      (hprecommits : state'.precommits = state.precommits.insert r'.key r')
      (hcommits : state'.commits = state.commits) :
      RecordEffect blake3 state (.restart request, .ok (.mutated ⟨r', false⟩)) state'
  | cancelled {request : PreCommitCancelRequest} {r r' : PreCommitRecord U}
      {state' : InMemoryPreCommitState U} (hstored : state.precommits[request.key]? = some r)
      (happly : apply_cancel blake3 r request = .ok r')
      (hprecommits : state'.precommits = state.precommits.insert r'.key r')
      (hcommits : state'.commits = state.commits) :
      RecordEffect blake3 state (.cancel request, .ok (.mutated ⟨r', false⟩)) state'
  | synced {job : JobRecord U} {published_index : Option (PublishedIndex U)} {at_ms : UnixMillis}
      {r r' : PreCommitRecord U} {answer : PreCommitAnswer U} {state' : InMemoryPreCommitState U}
      (hstored : r ∈ values state.precommits) (htenant : r.tenant_id = job.spec.tenant_id)
      (hown : r.job_id = job.spec.job_id)
      (happly : sync_own_job blake3 r job published_index (state.base_records r) at_ms = .ok r')
      (hprecommits : state'.precommits = state.precommits.insert r.key r')
      (hcommits : state'.commits = state.commits) :
      RecordEffect blake3 state (.sync_job job published_index at_ms, .ok answer) state'
  | committed {request : PreCommitCommitRequest U} {r : PreCommitRecord U}
      {snapshot : PreCommitCommitSnapshot U} {state' : InMemoryPreCommitState U}
      (hstored : state.precommits[request.key]? = some r)
      (happly : apply_commit blake3 r request = .ok snapshot)
      (hfree : state.commits snapshot.commit.key = none)
      (hprecommits : state'.precommits =
        state.precommits.insert snapshot.consumed_precommit.key snapshot.consumed_precommit)
      (hcommits : state'.commits =
        Function.update state.commits snapshot.commit.key (some snapshot.commit)) :
      RecordEffect blake3 state (.commit request, .ok (.committed (.of_snapshot snapshot false)))
        state'
  | acknowledged {key : PreCommitKey} {commit_id : CommitId} {at_ms : UnixMillis}
      {r r' : PreCommitRecord U} {state' : InMemoryPreCommitState U}
      (hstored : state.precommits[key]? = some r)
      (happly : apply_head_publication_ack blake3 r commit_id at_ms = .ok r')
      (hprecommits : state'.precommits = state.precommits.insert key r')
      (hcommits : state'.commits = state.commits) :
      RecordEffect blake3 state
        (.acknowledge_head_publication key commit_id at_ms, .ok (.acknowledged r')) state'

/-- **Step cases**: everything a step can do to the records. -/
theorem PreCommitStep.records {event : PreCommitEvent U}
    (h : PreCommitStep blake3 state event state') : RecordEffect blake3 state event state' := by
  cases h with
  | @failed call =>
    have hbegins : ∀ error, begins (call, .error error) = none := by
      intro error
      cases call <;> rfl
    exact .same (hbegins _) rfl rfl
  | @done call answer _ h =>
    cases call with
    | start request =>
      obtain ⟨record, replayed, rfl, hmutate⟩ := PreCommitCall.run_mutation_ok h
      rcases mutate_eq_ok.mp hmutate with
        ⟨_, -, -, hreplayed, hstate⟩ | ⟨-, hreplayed, performed, hperform, hstate⟩
      · subst hreplayed
        subst hstate
        exact .same rfl rfl rfl
      · subst hreplayed
        obtain ⟨hbuild, hfree, hactive, hjob, rfl⟩ := perform_start_ok hperform
        subst hstate
        exact .started hbuild hfree hactive hjob rfl rfl
    | restart request =>
      obtain ⟨record, replayed, rfl, hmutate⟩ := PreCommitCall.run_mutation_ok h
      rcases mutate_eq_ok.mp hmutate with
        ⟨_, -, -, hreplayed, hstate⟩ | ⟨-, hreplayed, performed, hperform, hstate⟩
      · subst hreplayed
        subst hstate
        exact .same rfl rfl rfl
      · subst hreplayed
        obtain ⟨stored, hstored, happly, hactive, hjob, rfl⟩ := perform_restart_ok hperform
        subst hstate
        exact .restarted hstored happly hactive hjob rfl rfl
    | cancel request =>
      obtain ⟨record, replayed, rfl, hmutate⟩ := PreCommitCall.run_mutation_ok h
      rcases mutate_eq_ok.mp hmutate with
        ⟨_, -, -, hreplayed, hstate⟩ | ⟨-, hreplayed, performed, hperform, hstate⟩
      · subst hstate
        exact .same rfl rfl rfl
      · subst hreplayed
        obtain ⟨stored, hstored, happly, rfl⟩ := perform_cancel_ok hperform
        subst hstate
        exact .cancelled hstored happly rfl rfl
    | commit request =>
      obtain ⟨snapshot, replayed, rfl, hmutate⟩ := PreCommitCall.run_mutation_ok h
      rcases mutate_eq_ok.mp hmutate with
        ⟨_, -, -, hreplayed, hstate⟩ | ⟨-, hreplayed, performed, hperform, hstate⟩
      · subst hstate
        exact .same rfl rfl rfl
      · subst hreplayed
        obtain ⟨stored, hstored, happly, hfree, rfl⟩ := perform_commit_ok hperform
        subst hstate
        exact .committed hstored happly hfree rfl rfl
    | sync_job job published_index at_ms =>
      rcases PreCommitCall.run_sync_job_ok h with hstate | ⟨r, r', hr, htenant, hjob, hsync, hstate⟩
      · subst hstate
        exact .same rfl rfl rfl
      · subst hstate
        exact .synced hr htenant hjob hsync rfl rfl
    | acknowledge_head_publication key commit_id at_ms =>
      obtain ⟨r, r', hr, rfl, hack, hstate⟩ := PreCommitCall.run_acknowledge_ok h
      rcases hstate with ⟨hstate, -⟩ | hstate
      · subst hstate
        exact .same rfl rfl rfl
      · subst hstate
        exact .acknowledged hr hack rfl rfl

end NeoEngram.Central

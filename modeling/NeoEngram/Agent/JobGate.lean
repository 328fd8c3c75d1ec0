import NeoEngram.Agent.Lifecycle
import NeoEngram.Framework.Runs

/-! # The gate of jobs

A deletion fences the jobs in its scope until it is restored. A fence is kept
by its scope alone, and a restore lifts the fences of all deletions with that
scope. -/

namespace NeoEngram.Agent

open Runs List

structure JobScope where
  (project_id artifact_id : Text)
  (workspace_id snapshot_id : Option Text)
  storage_volume_id : Text
  deriving DecidableEq

/-- A scope with its placement and generation, which only its equality looks at. -/
abbrev FenceScope := AgentResourceLifecycleScope × Option (Text × UInt64)

def JobScope.matches (self : JobScope) : AgentResourceLifecycleScope → Bool
  | .StorageVolume volume => volume = self.storage_volume_id
  | .Artifact project artifact volume => project = self.project_id ∧
      artifact = self.artifact_id ∧ volume = self.storage_volume_id
  | .Workspace project artifact workspace volume => project = self.project_id ∧
      artifact = self.artifact_id ∧ self.workspace_id = some workspace ∧
      volume = self.storage_volume_id
  | .Snapshot project artifact snapshot volume => project = self.project_id ∧
      artifact = self.artifact_id ∧ self.snapshot_id = some snapshot ∧
      volume = self.storage_volume_id

/-- The guards of a job. Their count is a `usize` that saturates, and so is the sum for a fence:
both are exact, since every guard that is alive takes up memory. -/
structure ActiveJob where
  job_id : Text
  scope : JobScope
  count : Nat

structure LifecycleJobGate where
  fences : List FenceScope
  active : List ActiveJob

/-- Enter one more guard of a job, which has no row or one of the same scope. -/
def enter_guard (job_id : Text) (scope : JobScope) : List ActiveJob → AgentResult (List ActiveJob)
  | [] => .ok [⟨job_id, scope, 1⟩]
  | active :: rows =>
    if active.job_id ≠ job_id then (active :: ·) <$> enter_guard job_id scope rows
    else if active.scope = scope then .ok ({ active with count := active.count + 1 } :: rows)
    else .error ⟨.AssignmentMismatch, "Agent Job ID is active for another resource scope"⟩

def drop_guard (job_id : Text) : List ActiveJob → List ActiveJob
  | [] => []
  | active :: rows =>
    if active.job_id ≠ job_id then active :: drop_guard job_id rows
    else if active.count - 1 = 0 then rows
    else { active with count := active.count - 1 } :: rows

namespace LifecycleJobGate

def begin_job (self : LifecycleJobGate) (job_id : Text) (scope : JobScope) :
    AgentResult LifecycleJobGate := do
  Checks.ensure (self.fences.any (scope.matches ·.1) = false)
    (lifecycle_state_error "Agent Job is fenced by an active resource lifecycle operation")
  return { self with active := ← enter_guard job_id scope self.active }

def fence (self : LifecycleJobGate) (scope : FenceScope) : Nat × LifecycleJobGate :=
  (((self.active.filter (·.scope.matches scope.1)).map (·.count)).sum,
    -- a scope is in the list once, however many deletions fence it
    if scope ∈ self.fences then self else { self with fences := self.fences ++ [scope] })

def restore (self : LifecycleJobGate) (scope : FenceScope) : LifecycleJobGate :=
  { self with fences := self.fences.filter (· ≠ scope) }

end LifecycleJobGate

/-- The gate, with the guards that are alive and the deletions that have fenced and not restored. -/
structure GateSystem where
  gate : LifecycleJobGate
  guards : List (Text × JobScope)
  fencing : List (Text × FenceScope)

def GateSystem.new : GateSystem := ⟨⟨[], []⟩, [], []⟩

inductive GateCall where
  | begin_job (job_id : Text) (scope : JobScope)
  | drop_guard (guard : Text × JobScope)
  | fence (deletion_id : Text) (scope : FenceScope)
  | restore (deletion_id : Text) (scope : FenceScope)

def GateSystem.call (s : GateSystem) : GateCall → GateSystem
  | .begin_job job_id scope =>
    match s.gate.begin_job job_id scope with
    | .ok gate => { s with gate, guards := (job_id, scope) :: s.guards }
    | .error _ => s
  | .drop_guard guard =>
    if guard ∈ s.guards then
      ⟨{ s.gate with active := Agent.drop_guard guard.1 s.gate.active }, s.guards.erase guard,
        s.fencing⟩
    else s
  | .fence deletion_id scope =>
    ⟨(s.gate.fence scope).2, s.guards, (deletion_id, scope) :: s.fencing⟩
  | .restore deletion_id scope =>
    ⟨s.gate.restore scope, s.guards, s.fencing.filter (· ≠ (deletion_id, scope))⟩

/-- No other deletion has fenced the scope that a restore is for. -/
def GateCall.Exclusive (s : GateSystem) : GateCall → Prop
  | .restore deletion_id scope => ∀ f ∈ s.fencing, f.2 = scope → f.1 = deletion_id
  | _ => True

def GateSystem.ExclusiveStep (s : GateSystem) (c : GateCall) (s' : GateSystem) : Prop :=
  c.Exclusive s ∧ s' = s.call c

/-- The guards that the rows stand for. -/
def guards_of (rows : List ActiveJob) : List (Text × JobScope) :=
  rows.flatMap fun active => List.replicate active.count (active.job_id, active.scope)

/-- What the gate knows of the guards and of the deletions. -/
structure GateSystem.Tracks (s : GateSystem) : Prop where
  fences : ∀ scope, scope ∈ s.gate.fences ↔ ∃ deletion_id, (deletion_id, scope) ∈ s.fencing
  guards : (guards_of s.gate.active).Perm s.guards
  counted : ∀ active ∈ s.gate.active, 0 < active.count
  one_scope : ∀ g ∈ s.guards, ∀ g' ∈ s.guards, g.1 = g'.1 → g = g'

variable {rows rows' : List ActiveJob} {job_id : Text} {scope : JobScope}

theorem mem_guards_of_head {active : ActiveJob} (h : 0 < active.count) :
    (active.job_id, active.scope) ∈ guards_of (active :: rows) :=
  mem_append_left _ (mem_replicate.mpr ⟨h.ne', rfl⟩)

theorem enter_guard_eq_ok (h : enter_guard job_id scope rows = .ok rows')
    (hcounted : ∀ active ∈ rows, 0 < active.count) :
    (guards_of rows').Perm ((job_id, scope) :: guards_of rows) ∧
      (∀ active ∈ rows', 0 < active.count) ∧
      ∀ g ∈ guards_of rows, g.1 = job_id → (job_id, scope) ∈ guards_of rows := by
  induction rows generalizing rows' with
  | nil =>
    cases h
    exact ⟨.refl _, by simp, by simp [guards_of]⟩
  | cons active rows ih =>
    obtain ⟨hfirst, hrest⟩ := forall_mem_cons.mp hcounted
    rw [enter_guard] at h
    split at h
    next hjob =>
      obtain ⟨rows', h', rfl⟩ := Checks.map_eq_ok.mp h
      obtain ⟨hperm, hcounted', hold⟩ := ih h' hrest
      refine ⟨(hperm.append_left _).trans perm_middle,
        forall_mem_cons.mpr ⟨hfirst, hcounted'⟩, fun g hg heq => ?_⟩
      rcases mem_append.mp hg with hg | hg
      · cases (mem_replicate.mp hg).2
        exact absurd heq hjob
      · exact mem_append_right _ (hold g hg heq)
    · split at h
      next hjob hscope =>
        cases h
        cases not_not.mp hjob
        cases hscope
        exact ⟨.refl _, forall_mem_cons.mpr ⟨Nat.succ_pos _, hrest⟩,
          fun _ _ _ => mem_guards_of_head hfirst⟩
      · cases h

theorem exists_enter_guard (hcounted : ∀ active ∈ rows, 0 < active.count)
    (hsame : ∀ g ∈ guards_of rows, g.1 = job_id → g.2 = scope) :
    ∃ rows', enter_guard job_id scope rows = .ok rows' := by
  induction rows with
  | nil => exact ⟨_, rfl⟩
  | cons active rows ih =>
    obtain ⟨hfirst, hrest⟩ := forall_mem_cons.mp hcounted
    rw [enter_guard]
    split
    · obtain ⟨rows', h⟩ := ih hrest fun g hg => hsame g (mem_append_right _ hg)
      exact ⟨_, Checks.map_eq_ok.mpr ⟨rows', h, rfl⟩⟩
    next hjob =>
      rw [if_pos (hsame _ (mem_guards_of_head hfirst) (not_not.mp hjob))]
      exact ⟨_, rfl⟩

theorem guards_of_drop_guard (hcounted : ∀ active ∈ rows, 0 < active.count)
    (hmem : (job_id, scope) ∈ guards_of rows)
    (hsame : ∀ g ∈ guards_of rows, g.1 = job_id → g.2 = scope) :
    (guards_of rows).Perm ((job_id, scope) :: guards_of (drop_guard job_id rows)) ∧
      ∀ active ∈ drop_guard job_id rows, 0 < active.count := by
  induction rows with
  | nil => cases hmem
  | cons active rows ih =>
    obtain ⟨hfirst, hrest⟩ := forall_mem_cons.mp hcounted
    rw [drop_guard]
    split
    next hjob =>
      have hmem' : (job_id, scope) ∈ guards_of rows := by
        refine (mem_append.mp hmem).resolve_left fun h => hjob ?_
        rw [← (Prod.mk.inj (mem_replicate.mp h).2).1]
      obtain ⟨hperm, hcounted'⟩ := ih hrest hmem' fun g hg => hsame g (mem_append_right _ hg)
      exact ⟨(hperm.append_left _).trans perm_middle, forall_mem_cons.mpr ⟨hfirst, hcounted'⟩⟩
    next hjob =>
      cases not_not.mp hjob
      cases hsame _ (mem_guards_of_head hfirst) rfl
      obtain ⟨n, hn⟩ := Nat.exists_eq_succ_of_ne_zero hfirst.ne'
      rw [hn, Nat.succ_sub_one]
      split
      next hzero =>
        exact ⟨by simp [guards_of, hn, hzero], hrest⟩
      next hpos =>
        exact ⟨by simp [guards_of, hn, replicate_succ],
          forall_mem_cons.mpr ⟨Nat.pos_of_ne_zero hpos, hrest⟩⟩

theorem sum_counts (p : JobScope → Bool) (rows : List ActiveJob) :
    ((rows.filter (p ·.scope)).map (·.count)).sum = (guards_of rows).countP (p ·.2) := by
  induction rows with
  | nil => rfl
  | cons active rows ih =>
    rw [guards_of, flatMap_cons, countP_append, countP_replicate, ← guards_of, ← ih]
    by_cases hp : p active.scope <;> simp [hp]

variable {s : GateSystem}

/-- **Step lemma**: a call keeps what the gate knows, unless it restores for another deletion. -/
theorem GateSystem.Tracks.call (h : s.Tracks) {c : GateCall} (hc : c.Exclusive s) :
    (s.call c).Tracks := by
  cases c with
  | begin_job job_id scope =>
    rw [GateSystem.call]
    split
    next gate hbegin =>
      simp only [LifecycleJobGate.begin_job, Checks.ok_iff] at hbegin
      obtain ⟨-, rows, hrows, rfl⟩ := hbegin
      obtain ⟨hperm, hcounted, hold⟩ := enter_guard_eq_ok hrows h.counted
      have hsame : ∀ g ∈ s.guards, g.1 = job_id → g = (job_id, scope) := by
        intro g hg hjob
        have hguard := h.guards.mem_iff.mp (hold g (h.guards.mem_iff.mpr hg) hjob)
        exact h.one_scope g hg _ hguard hjob
      refine ⟨h.fences, hperm.trans (h.guards.cons _), hcounted, ?_⟩
      intro g hg g' hg' hjob
      rcases mem_cons.mp hg with rfl | hg <;> rcases mem_cons.mp hg' with rfl | hg'
      · rfl
      · exact (hsame g' hg' hjob.symm).symm
      · exact hsame g hg hjob
      · exact h.one_scope g hg g' hg' hjob
    next => exact h
  | drop_guard guard =>
    rw [GateSystem.call]
    split
    next hmem =>
      obtain ⟨hperm, hcounted⟩ := guards_of_drop_guard h.counted (h.guards.mem_iff.mpr hmem)
        fun g hg hjob => congrArg Prod.snd (h.one_scope g (h.guards.mem_iff.mp hg) guard hmem hjob)
      refine ⟨h.fences, (cons_perm_iff_perm_erase.mp (hperm.symm.trans h.guards)).2, hcounted,
        fun g hg g' hg' => h.one_scope g (mem_of_mem_erase hg) g' (mem_of_mem_erase hg')⟩
    next => exact h
  | fence deletion_id scope =>
    refine ⟨fun scope' => ?_, ?_, ?_, h.one_scope⟩
    · have hold := h.fences scope'
      simp only [GateSystem.call, LifecycleJobGate.fence]
      grind
    all_goals
      simp only [GateSystem.call, LifecycleJobGate.fence]
      split
    exacts [h.guards, h.guards, h.counted, h.counted]
  | restore deletion_id scope =>
    refine ⟨fun scope' => ?_, h.guards, h.counted, h.one_scope⟩
    -- the fence that goes was the one of this deletion alone
    have hold := h.fences scope'
    simp only [GateSystem.call, LifecycleJobGate.restore, GateCall.Exclusive] at hc ⊢
    grind

/-- Restores are made only by the one deletion that has fenced their scope. Then a job whose
identifier is not in use for another scope is admitted exactly if no deletion fences it, and a fence
counts the guards in its scope. -/
theorem job_gate_exact {log : List GateCall} (hrun : Run GateSystem.ExclusiveStep .new log s) :
    (∀ job_id scope, (∀ g ∈ s.guards, g.1 = job_id → g.2 = scope) →
      ((∃ gate, s.gate.begin_job job_id scope = .ok gate) ↔
        ∀ f ∈ s.fencing, scope.matches f.2.1 = false)) ∧
    ∀ scope : FenceScope, (s.gate.fence scope).1 = s.guards.countP (·.2.matches scope.1) := by
  have h : s.Tracks := by
    have hnew : GateSystem.new.Tracks := by constructor <;> simp [GateSystem.new, guards_of]
    refine hrun.invariant ?_ hnew
    rintro m c m' ⟨hc, rfl⟩ hm
    exact hm.call hc
  refine ⟨fun job_id scope hsame => ?_, fun scope => ?_⟩
  · have hfences : s.gate.fences.any (scope.matches ·.1) = false ↔
        ∀ f ∈ s.fencing, scope.matches f.2.1 = false := by
      rw [List.any_eq_false]
      constructor
      · intro hall f hf
        simpa using hall f.2 ((h.fences f.2).mpr ⟨f.1, hf⟩)
      · intro hall fence hfence
        obtain ⟨deletion_id, hf⟩ := (h.fences fence).mp hfence
        simpa using hall _ hf
    obtain ⟨rows, hrows⟩ :=
      exists_enter_guard h.counted fun g hg => hsame g (h.guards.mem_iff.mp hg)
    simp only [LifecycleJobGate.begin_job, Checks.ok_iff]
    rw [← hfences]
    constructor
    · rintro ⟨gate, hfree, -⟩
      exact hfree
    · exact fun hfree => ⟨_, hfree, rows, hrows, rfl⟩
  · exact (sum_counts (·.matches scope.1) s.gate.active).trans (h.guards.countP_eq _)

def sample_scope (volume : Char) : JobScope := ⟨['p'], ['a'], none, none, [volume]⟩

def sample_fence (volume : Char) : FenceScope := (.StorageVolume [volume], none)

def GateSystem.Exclusives (s : GateSystem) : List GateCall → Prop
  | [] => True
  | c :: calls => c.Exclusive s ∧ (s.call c).Exclusives calls

theorem GateSystem.Exclusives.run {calls : List GateCall} (h : s.Exclusives calls) :
    Run GateSystem.ExclusiveStep s calls (calls.foldl GateSystem.call s) := by
  induction calls generalizing s with
  | nil => exact .refl
  | cons c calls ih => exact (Run.refl.step ⟨h.1, rfl⟩).append (ih h.2)

/-- A job has two guards on the volume `v`, and another job has one on `w`. Both volumes are fenced,
and the fence of `w` is restored. -/
def sample_gate_calls : List GateCall :=
  [.begin_job ['j'] (sample_scope 'v'), .begin_job ['j'] (sample_scope 'v'),
    .begin_job ['k'] (sample_scope 'w'), .fence ['d'] (sample_fence 'v'),
    .fence ['e'] (sample_fence 'w'), .restore ['e'] (sample_fence 'w')]

theorem job_gate_fenced :
    let s := sample_gate_calls.foldl GateSystem.call .new
    (¬ ∃ gate, s.gate.begin_job ['l'] (sample_scope 'v') = .ok gate) ∧
      (∃ gate, s.gate.begin_job ['l'] (sample_scope 'w') = .ok gate) ∧
      (s.gate.fence (sample_fence 'v')).1 = 2 := by
  intro s
  have hcalls : GateSystem.new.Exclusives sample_gate_calls := by
    refine ⟨trivial, trivial, trivial, trivial, trivial, ?_, trivial⟩
    show ∀ f ∈ [(['e'], sample_fence 'w'), (['d'], sample_fence 'v')], _ → _
    decide
  obtain ⟨hadmitted, hcounted⟩ := job_gate_exact hcalls.run
  rw [hadmitted _ _ (by decide), hadmitted _ _ (by decide), hcounted]
  decide

/-- Two deletions fence one volume. The restore of one admits a job while the other is under way. -/
theorem restore_lifts_other_fence :
    let scope : FenceScope := (.StorageVolume ['v'], none)
    let s := [.fence ['a'] scope, .fence ['b'] scope, .restore ['a'] scope].foldl GateSystem.call
      .new
    (['b'], scope) ∈ s.fencing ∧
      ∃ gate, s.gate.begin_job ['j'] ⟨[], [], none, none, ['v']⟩ = .ok gate :=
  ⟨by decide, _, rfl⟩

end NeoEngram.Agent

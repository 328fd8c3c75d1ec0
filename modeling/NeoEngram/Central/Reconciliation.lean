import NeoEngram.Central.Model

/-! # Reconciliation of deletions

`reconcile_once` examines deletion operations tenant by tenant and page by page
until its limit is reached (`service/resource_lifecycle.rs`). What the catalog,
the tasks and the step of an operation answer in a run is left open.
-/

namespace NeoEngram.Central

open Checks List

inductive DeletionOperationState where
  | Requested | Quiescing | Quarantining | Recoverable | Restoring | Purging | Finalizing
  | Completed | Blocked | Failed
  deriving DecidableEq

structure DeletionOperation where
  deletion_id : Text
  state : DeletionOperationState
  deriving DecidableEq

inductive TaskState where
  | Running | Stalled | Failed

inductive StepOutcome where
  | Idle
  | Transitioned
  | AssignmentsPublished (count : Nat)

structure ReconcileRun where
  (examined transitioned assignments_published blocked : Nat)

/-- The answers of a listing, page after page; the last page has no cursor. -/
abbrev Pages (α : Type) := List (CentralResult (List α))

/-- The answers that a run gets. -/
structure Coordinator (Task : Type) where
  list_tenants : Pages TenantId
  list_deletion_operations : TenantId → Pages DeletionOperation
  ensure_operation_task : DeletionOperation → CentralResult (Option Task)
  transition_task : Task → TaskState → String → CentralResult Task
  reconcile_operation : DeletionOperation → Option Task → CentralResult StepOutcome
  finish_operation_task : DeletionOperation → Option Task → CentralResult Unit
  block_operation : DeletionOperation → CentralError → CentralResult Unit

def should_block (error : CentralError) : Bool :=
  error.code matches
    .InvalidState | .EnrollmentNotFound | .ArtifactNotFound | .StorageVolumeNotFound

/-- The operations that a loop has examined, and how it ended. -/
abbrev Examined := List DeletionOperation × CentralResult ReconcileRun

/-- One loop after the other; an error ends both. -/
def Examined.next (first : Examined) (rest : ReconcileRun → Examined) : Examined :=
  match first.2 with
  | .ok run => (first.1 ++ (rest run).1, (rest run).2)
  | .error error => (first.1, .error error)

variable {Task α : Type}

def each (body : α → ReconcileRun → Examined) : List α → ReconcileRun → Examined
  | [], run => ([], .ok run)
  | a :: rest, run => (body a run).next (each body rest)

/-- `while run.examined < limit` over the pages of a listing. -/
def each_page (limit : Nat) (body : α → ReconcileRun → Examined) : Pages α → ReconcileRun → Examined
  | [], run => ([], .ok run)
  | page :: pages, run =>
    if run.examined < limit then
      match page with
      | .error error => ([], .error error)
      | .ok [] => ([], .ok run)
      | .ok records => (each body records run).next (each_page limit body pages)
    else ([], .ok run)

namespace Coordinator

variable (self : Coordinator Task) (limit : Nat)

def run_task (operation : DeletionOperation) (task : Option Task) : CentralResult (Option Task) :=
  if operation.state matches .Blocked | .Failed then .ok task
  else task.mapM (self.transition_task · .Running "resource lifecycle reconciliation started")

def examine (operation : DeletionOperation) (run : ReconcileRun) : CentralResult ReconcileRun := do
  let task ← self.ensure_operation_task operation
  let _ ← self.run_task operation task
  match self.reconcile_operation operation task with
  | .ok outcome =>
    self.finish_operation_task operation task
    return match outcome with
      | .Transitioned => { run with transitioned := run.transitioned + 1 }
      | .AssignmentsPublished n =>
        { run with assignments_published := run.assignments_published + n }
      | .Idle => run
  | .error error =>
    if should_block error then
      let run := match self.block_operation operation error with
        | .ok _ => { run with blocked := run.blocked + 1 }
        | .error _ => run
      let _ ← task.mapM (self.transition_task · .Stalled error.message)
      return run
    else
      let _ ← task.mapM (self.transition_task · .Failed error.message)
      throw error

def visit_operation (operation : DeletionOperation) (run : ReconcileRun) : Examined :=
  -- the `break` at the limit: the operations after this one are passed over here as well
  if run.examined = limit then ([], .ok run)
  else if operation.state = .Completed then ([], .ok run)
  else ([operation], self.examine operation { run with examined := run.examined + 1 })

def visit_tenant (tenant : TenantId) : ReconcileRun → Examined :=
  each_page limit (self.visit_operation limit) (self.list_deletion_operations tenant)

/-- The run, with the operations it has examined. -/
def reconcile_once : Examined :=
  if limit = 0 then ([], .ok ⟨0, 0, 0, 0⟩)
  else each_page limit (self.visit_tenant limit) self.list_tenants ⟨0, 0, 0, 0⟩

end Coordinator

/-! ## What a run examines -/

/-- What a run meets in a listing: its records and, as `none`, the page that cannot be listed. An
empty page ends the listing. -/
def walk : Pages α → List (Option α)
  | .ok (record :: records) :: pages => (record :: records).map some ++ walk pages
  | .error _ :: _ => [none]
  | _ => []

/-- The walk over a listing, with what each record stands for. -/
def walk_through (pages : Pages α) (g : α → List (Option DeletionOperation)) :
    List (Option DeletionOperation) :=
  (walk pages).flatMap (·.elim [none] g)

def uncompleted (operation : DeletionOperation) : List (Option DeletionOperation) :=
  if operation.state = .Completed then [] else [some operation]

/-- The uncompleted operations, tenant by tenant, and the pages that cannot be listed. -/
def Coordinator.walk (self : Coordinator Task) : List (Option DeletionOperation) :=
  walk_through self.list_tenants fun tenant =>
    walk_through (self.list_deletion_operations tenant) uncompleted

/-- The run goes on behind this visit: the page is listed, and neither a call for the task of the
operation fails nor its step, unless the error blocks the operation. -/
def Coordinator.goes_on (self : Coordinator Task) : Option DeletionOperation → Bool
  | none => false
  | some operation =>
    match self.ensure_operation_task operation with
    | .error _ => false
    | .ok task =>
      (self.run_task operation task).isOk && match self.reconcile_operation operation task with
        | .ok _ => (self.finish_operation_task operation task).isOk
        | .error error => should_block error &&
          (task.mapM (self.transition_task · .Stalled error.message)).isOk

/-- What is examined of a walk within a budget, and whether the run then goes on. -/
def visited (goes_on : Option DeletionOperation → Bool) :
    Nat → List (Option DeletionOperation) → List DeletionOperation × Bool
  | 0, _ | _, [] => ([], true)
  | budget + 1, visit :: visits =>
    if goes_on visit then
      (visit.toList ++ (visited goes_on budget visits).1, (visited goes_on budget visits).2)
    else (visit.toList, false)

variable {limit budget : Nat} {run run' : ReconcileRun}
  {visits later : List (Option DeletionOperation)}
  {goes_on : Option DeletionOperation → Bool}

@[simp] theorem visited_nil : visited goes_on budget [] = ([], true) := by
  cases budget <;> rfl

theorem length_visited_le : (visited goes_on budget visits).1.length ≤ budget := by
  fun_induction visited goes_on budget visits <;> grind

/-- A walk behind a walk has what is left of the budget, if the run goes on that far. -/
theorem visited_append (hnone : goes_on none = false) :
    visited goes_on budget (visits ++ later) =
      let first := visited goes_on budget visits
      let rest := visited goes_on (budget - first.1.length) later
      if first.2 then (first.1 ++ rest.1, rest.2) else first := by
  fun_induction visited goes_on budget visits with
  | case1 => simp [visited]
  | case2 => simp
  | case3 budget visit visits hgo ih =>
    cases visit with
    | none => simp [hnone] at hgo
    | some operation =>
      simp only [List.cons_append, visited, if_pos hgo, ih, Option.toList_some, nil_append,
        length_cons, Nat.succ_eq_add_one, Nat.add_sub_add_right]
      split <;> rfl
  | case4 budget visit visits hstop => simp [visited, hstop]

/-- An operation is examined exactly if fewer visits than the budget come before it, and the
run goes on behind each of them. -/
theorem mem_visited {operation : DeletionOperation} :
    operation ∈ (visited goes_on budget visits).1 ↔ ∃ before after,
      visits = before ++ some operation :: after ∧ before.length < budget ∧
        ∀ visit ∈ before, goes_on visit := by
  fun_induction visited goes_on budget visits with
  | case1 => simp
  | case2 => simp
  | case3 budget visit visits hgo ih =>
    rw [mem_append, ih, Option.mem_toList]
    constructor
    · rintro (rfl | ⟨before, after, rfl, hlength, hgoes⟩)
      · exact ⟨[], visits, rfl, by simp, by simp⟩
      · exact ⟨visit :: before, after, rfl, by simpa using hlength, by simpa [hgo] using hgoes⟩
    · rintro ⟨_ | ⟨first, before⟩, after, h, hlength, hgoes⟩ <;> grind
  | case4 budget visit visits hstop =>
    rw [Option.mem_toList]
    constructor
    · rintro rfl
      exact ⟨[], visits, rfl, by simp, by simp⟩
    · rintro ⟨_ | ⟨first, before⟩, after, h, hlength, hgoes⟩ <;> grind

/-- A loop over a walk examines what the budget and the errors leave, and fails with the walk. -/
def Follows (goes_on : Option DeletionOperation → Bool) (limit : Nat) (run : ReconcileRun)
    (visits : List (Option DeletionOperation)) (result : Examined) : Prop :=
  run.examined ≤ limit →
    let found := visited goes_on (limit - run.examined) visits
    result.1 = found.1 ∧ match result.2 with
      | .ok run' => found.2 = true ∧ run'.examined = run.examined + found.1.length
      | .error _ => found.2 = false

theorem Follows.stop (h : visits = [] ∨ limit ≤ run.examined) :
    Follows goes_on limit run visits ([], .ok run) := by
  intro _
  rcases h with h | h
  · simp [h]
  · simp [Nat.sub_eq_zero_of_le h, visited]

theorem Follows.next (hnone : goes_on none = false) {first : Examined}
    {rest : ReconcileRun → Examined} (h : Follows goes_on limit run visits first)
    (hrest : ∀ run', Follows goes_on limit run' later (rest run')) :
    Follows goes_on limit run (visits ++ later) (first.next rest) := by
  intro hle
  obtain ⟨htrace, hend⟩ := h hle
  rw [visited_append hnone]
  cases hfirst : first.2 with
  | error error =>
    rw [hfirst] at hend
    simp [Examined.next, hfirst, htrace, hend]
  | ok middle =>
    rw [hfirst] at hend
    have hlength := @length_visited_le (limit - run.examined) visits goes_on
    -- what the first loop has left of the budget
    have hleft : limit - run.examined - (visited goes_on (limit - run.examined) visits).1.length =
        limit - middle.examined := by omega
    obtain ⟨htrace', hend'⟩ := hrest middle (by omega)
    simp only [Examined.next, hfirst, hend.1, if_true, hleft, htrace, htrace', length_append]
    refine ⟨trivial, ?_⟩
    cases hlast : (rest middle).2 with
    | error error => simpa [hlast] using hend'
    | ok last =>
      rw [hlast] at hend'
      exact ⟨hend'.1, by rw [hend'.2, hend.2, Nat.add_assoc]⟩

section

variable (hnone : goes_on none = false) {body : α → ReconcileRun → Examined}
  {g : α → List (Option DeletionOperation)}
  (hbody : ∀ a run, Follows goes_on limit run (g a) (body a run))

include hnone hbody

theorem each_follows (l : List α) (run : ReconcileRun) :
    Follows goes_on limit run (l.flatMap g) (each body l run) := by
  induction l generalizing run with
  | nil => exact .stop (.inl rfl)
  | cons a l ih => exact (hbody a run).next hnone ih

theorem each_page_follows (pages : Pages α) (run : ReconcileRun) :
    Follows goes_on limit run (walk_through pages g) (each_page limit body pages run) := by
  induction pages generalizing run with
  | nil => exact .stop (.inl rfl)
  | cons page pages ih =>
    simp only [each_page]
    split
    next hroom =>
      rcases page with error | _ | ⟨record, records⟩
      · intro _
        obtain ⟨n, hn⟩ := Nat.exists_eq_add_of_lt hroom
        simp [hn, walk_through, walk, visited, hnone, Nat.add_assoc]
      · exact .stop (.inl rfl)
      · have hwalk : walk_through (.ok (record :: records) :: pages) g =
            (record :: records).flatMap g ++ walk_through pages g := by
          rw [walk_through, walk, flatMap_append, flatMap_map]
          rfl
        rw [hwalk]
        exact (each_follows hnone hbody _ run).next hnone ih
    next => exact .stop (.inr (by omega))

end

namespace Coordinator

variable (self : Coordinator Task)

theorem examine_examined {operation : DeletionOperation}
    (h : self.examine operation run = .ok run') : run'.examined = run.examined := by
  simp only [examine, ok_iff] at h
  obtain ⟨task, -, _, -, h⟩ := h
  split at h
  · simp only [ok_iff] at h
    obtain ⟨_, -, rfl⟩ := h
    split <;> rfl
  · split at h
    · simp only [ok_iff] at h
      obtain ⟨_, -, rfl⟩ := h
      split <;> rfl
    · simp only [ok_iff] at h
      obtain ⟨_, -, h⟩ := h
      cases h

/-- **Step**: the run goes on behind an operation exactly if its examination succeeds. -/
theorem goes_on_eq (operation : DeletionOperation) (run : ReconcileRun) :
    self.goes_on (some operation) = (self.examine operation run).isOk := by
  rw [examine, goes_on]
  cases self.ensure_operation_task operation with
  | error error => rfl
  | ok task =>
    simp only [bind, Except.bind, Except.isOk]
    cases self.run_task operation task with
    | error error => rfl
    | ok started =>
      cases self.reconcile_operation operation task with
      | ok outcome => cases self.finish_operation_task operation task <;> rfl
      | error error =>
        dsimp only
        cases should_block error with
        | true => cases task.mapM (self.transition_task · .Stalled error.message) <;> rfl
        | false => cases task.mapM (self.transition_task · .Failed error.message) <;> rfl

theorem visit_operation_follows (operation : DeletionOperation) (run : ReconcileRun) :
    Follows self.goes_on limit run (uncompleted operation)
      (self.visit_operation limit operation run) := by
  rw [visit_operation, uncompleted]
  by_cases hlimit : run.examined = limit
  · rw [if_pos hlimit]
    exact .stop (.inr hlimit.ge)
  · by_cases hcompleted : operation.state = .Completed
    · rw [if_neg hlimit, if_pos hcompleted, if_pos hcompleted]
      exact .stop (.inl rfl)
    · rw [if_neg hlimit, if_neg hcompleted, if_neg hcompleted]
      intro hle
      obtain ⟨n, hn⟩ := Nat.exists_eq_add_of_lt (Nat.lt_of_le_of_ne hle hlimit)
      have hgo := self.goes_on_eq operation { run with examined := run.examined + 1 }
      cases hresult : self.examine operation { run with examined := run.examined + 1 } with
      | error error =>
        rw [hresult] at hgo
        simp [hn, Nat.add_assoc, visited, show self.goes_on (some operation) = false from hgo]
      | ok run' =>
        rw [hresult] at hgo
        simp [hn, Nat.add_assoc, visited, show self.goes_on (some operation) = true from hgo,
          self.examine_examined hresult]

/-- **Run**: a run examines what the limit and the errors leave of its walk. -/
theorem reconcile_once_examines (limit : Nat) :
    (self.reconcile_once limit).1 = (visited self.goes_on limit self.walk).1 := by
  unfold reconcile_once
  by_cases hlimit : limit = 0
  · simp [hlimit, visited]
  · rw [if_neg hlimit]
    exact (each_page_follows rfl (fun _ => each_page_follows rfl self.visit_operation_follows _) _ _
      (Nat.zero_le _)).1

/-- A run with this limit comes to the operation: fewer than `limit` visits come before it, and the
run goes on behind each of them. -/
def Reaches (limit : Nat) (deletion_id : Text) : Prop :=
  ∃ operation, operation.deletion_id = deletion_id ∧ ∃ before after,
    self.walk = before ++ some operation :: after ∧ before.length < limit ∧
      ∀ visit ∈ before, self.goes_on visit

end Coordinator

/-- **Fair reconciliation**: an operation is examined again and again exactly if again and again a
run comes to it in the listing, within its limit and before an error. -/
theorem reconciliation_fair (runs : Nat → Coordinator Task) (limit : Nat) (deletion_id : Text) :
    (∀ n, ∃ m ≥ n, ∃ operation ∈ ((runs m).reconcile_once limit).1,
      operation.deletion_id = deletion_id) ↔
    ∀ n, ∃ m ≥ n, (runs m).Reaches limit deletion_id := by
  refine forall_congr' fun n => exists_congr fun m => and_congr_right fun _ => ?_
  rw [(runs m).reconcile_once_examines, Coordinator.Reaches]
  exact exists_congr fun operation => by rw [mem_visited, and_comm]

/-- A run that finds Recoverable operations of one tenant, all of them under a hold. -/
def held_run (operations : List DeletionOperation) : Coordinator Unit where
  list_tenants := [.ok [.named "z" (by decide)]]
  list_deletion_operations _ := [.ok operations]
  ensure_operation_task _ := .ok none
  transition_task task _ _ := .ok task
  reconcile_operation _ _ := .ok .Idle
  finish_operation_task _ _ := .ok ()
  block_operation _ _ := .ok ()

def newer : DeletionOperation := ⟨['b'], .Recoverable⟩

def older : DeletionOperation := ⟨['a'], .Recoverable⟩

/-- A run in which the step of the newer operation fails. -/
def failing_run (code : CentralErrorCode) : Coordinator Unit :=
  { held_run [newer, ⟨['c'], .Completed⟩, older] with
    reconcile_operation := fun operation _ =>
      if operation = newer then .error (.new code "") else .ok .Idle }

def failing_runs (n : Nat) : Coordinator Unit :=
  failing_run (if n % 2 = 0 then .StorageVolumeNotFound else .StorageFailure)

/-- The older of two operations is examined again, although the step of the newer one always
fails, and ends every second run. -/
theorem older_operation_examined : ∃ m ≥ 5, ∃ operation ∈ ((failing_runs m).reconcile_once 2).1,
    operation.deletion_id = ['a'] := by
  refine (reconciliation_fair failing_runs 2 ['a']).mpr (fun n => ?_) 5
  refine ⟨2 * n, by omega, older, rfl, [some newer], [], ?_⟩
  rw [failing_runs, Nat.mul_mod_right]
  exact ⟨rfl, by decide, by decide⟩

/-- With a limit of 1, no run examines the older of two operations. -/
theorem older_operation_starves : some older ∈ (held_run [newer, older]).walk ∧
    ¬ ∃ operation ∈ ((held_run [newer, older]).reconcile_once 1).1, operation.deletion_id = ['a'] :=
  ⟨by decide, by decide⟩

end NeoEngram.Central

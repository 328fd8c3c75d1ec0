import NeoEngram.Central.Replication

/-! # Effects of replication calls

What the checks of a publication establish, and the ways in which a call can
change the repository (`ReplicationEffect`), on which everything about runs
rests.
-/

namespace NeoEngram.Central

open Checks OrderedKeys List Function ReplicationStore

variable {blake3 : Blake3} {record : ReplicationRecord} {object_set : CommitObjectSet}

/-! ## What the checks of a publication establish -/

/-- Two lists of distinct keys of one length: if one covers the other, they have the same keys. -/
theorem perm_of_covers {κ : Type} {l₁ l₂ : List κ} (hnodup : l₁.Nodup)
    (hlength : l₂.length = l₁.length) (hcovers : ∀ k ∈ l₁, k ∈ l₂) : l₂.Perm l₁ := by
  have hsub : l₁.Subperm l₂ := hnodup.subperm hcovers
  exact (hsub.perm_of_length_le hlength.le).symm

/-- The checkpoints are exactly those of the objects, verified up to the end of each. -/
theorem validate_replication_checkpoints_ok {checkpoints : List ReplicationObjectRecord}
    (h : validate_replication_checkpoints record object_set checkpoints = .ok ())
    (hnodup : (object_set.object_set.objects.map (·.object_id)).Nodup) :
    (checkpoints.map (·.object_id)).Perm (object_set.object_set.objects.map (·.object_id)) ∧
      ∀ object ∈ object_set.object_set.objects, ∃ checkpoint ∈ checkpoints,
        checkpoint.object_id = object.object_id ∧ checkpoint.state = .Verified ∧
          checkpoint.offset = object.size := by
  simp only [validate_replication_checkpoints, ok_iff, forM_eq_ok] at h
  obtain ⟨hlength, hsize, hobjects⟩ := h
  have hdistinct := distinct_of_size_keyed hsize
  have hfound : ∀ object ∈ object_set.object_set.objects, ∃ checkpoint ∈ checkpoints,
      checkpoint.object_id = object.object_id ∧ checkpoint.state = .Verified ∧
        checkpoint.offset = object.size := by
    intro object hobject
    obtain ⟨checkpoint, hlookup, _, hverified, hoffset⟩ := hobjects object hobject
    obtain ⟨hmem, hid⟩ := (getElem?_keyed hdistinct).mp hlookup
    exact ⟨checkpoint, hmem, hid, hverified, hoffset⟩
  refine ⟨perm_of_covers hnodup ?_ ?_, hfound⟩
  · rw [length_map, length_map]
    exact hlength
  · intro id hid
    obtain ⟨object, hobject, hobject_id⟩ := mem_map.mp hid
    obtain ⟨checkpoint, hmem, hcheckpoint, _⟩ := hfound object hobject
    exact mem_map.mpr ⟨checkpoint, hmem, hcheckpoint.trans hobject_id⟩

variable {placement_set : CommitPlacementSet}

/-- A publication that passes its check has one matching placement for every object, and no
others. -/
theorem validate_replication_publication_ok {placements : List ObjectPlacement}
    (h : validate_replication_publication blake3 record object_set placements placement_set =
      .ok ()) :
    (object_set.object_set.objects.map (·.object_id)).Nodup ∧
      (∃ object_count total_bytes,
        PublicationMatches record object_set object_count total_bytes placement_set) ∧
      (placements.Pairwise fun a b => a.object_id ≠ b.object_id) ∧
      (placements.map (·.object_id)).Perm (object_set.object_set.objects.map (·.object_id)) ∧
      ∀ object ∈ object_set.object_set.objects, ∃ placement ∈ placements,
        placement.object_id = object.object_id ∧
          PlacementMatches record placement_set object placement := by
  simp only [validate_replication_publication, ok_iff, forM_eq_ok, mapError_eq_ok] at h
  obtain ⟨_, hset, _, object_count, _, total_bytes, _, hmatches, ⟨hsize, hcount⟩, hobjects⟩ := h
  have hnodup := ObjectSet.validate_distinct hset
  have hdistinct := distinct_of_size_keyed hsize
  have hfound : ∀ object ∈ object_set.object_set.objects, ∃ placement ∈ placements,
      placement.object_id = object.object_id ∧
        PlacementMatches record placement_set object placement := by
    intro object hobject
    obtain ⟨placement, hlookup, _, hplacement⟩ := hobjects object hobject
    obtain ⟨hmem, hid⟩ := (getElem?_keyed hdistinct).mp hlookup
    exact ⟨placement, hmem, hid, hplacement⟩
  refine ⟨hnodup, ⟨object_count, total_bytes, hmatches⟩, hdistinct, perm_of_covers hnodup ?_ ?_,
    hfound⟩
  · rw [length_map, length_map, ← hsize]
    exact hcount
  · intro id hid
    obtain ⟨object, hobject, hobject_id⟩ := mem_map.mp hid
    obtain ⟨placement, hmem, hplacement, _⟩ := hfound object hobject
    exact mem_map.mpr ⟨placement, hmem, hplacement.trans hobject_id⟩

namespace ReplicationStore

section Pushed

variable {placements : TenantId × ObjectId → List ObjectPlacement} {p q : ObjectPlacement}
  {copy : ObjectPlacement}

theorem same_copy_self : same_copy p p = true := by
  simp [same_copy]

theorem recorded_copy_push_of_some (h : recorded_copy placements p = some copy) :
    recorded_copy (push_placement placements q) p = some copy := by
  unfold recorded_copy push_placement at *
  by_cases hany : (placements (q.tenant_id, q.object_id)).any (same_copy q)
  · simp only [if_pos hany]
    exact h
  · simp only [if_neg hany]
    by_cases hkey : (p.tenant_id, p.object_id) = (q.tenant_id, q.object_id)
    · rw [hkey, update_self, find?_append, ← hkey, h]
      rfl
    · rw [update_of_ne hkey]
      exact h

theorem recorded_copy_push_of_ne (hne : q.object_id ≠ p.object_id) :
    recorded_copy (push_placement placements q) p = recorded_copy placements p := by
  unfold recorded_copy push_placement
  by_cases hany : (placements (q.tenant_id, q.object_id)).any (same_copy q)
  · simp only [if_pos hany]
  · simp only [if_neg hany]
    rw [update_of_ne]
    intro hkey
    exact hne (Prod.mk.inj hkey).2.symm

theorem recorded_copy_push_self (h : ∀ copy ∈ recorded_copy placements p, copy = p) :
    recorded_copy (push_placement placements p) p = some p := by
  cases hcopy : recorded_copy placements p with
  | some copy =>
    rw [h copy hcopy] at hcopy
    exact recorded_copy_push_of_some hcopy
  | none =>
    unfold recorded_copy at hcopy
    have hany : ¬ (placements (p.tenant_id, p.object_id)).any (same_copy p) := by
      simpa using hcopy
    unfold recorded_copy push_placement
    simp only [if_neg hany, update_self, find?_append, hcopy]
    simp [same_copy_self]

variable {l : List ObjectPlacement}

theorem recorded_copy_foldl_of_some (h : recorded_copy placements p = some copy) :
    recorded_copy (l.foldl push_placement placements) p = some copy := by
  induction l generalizing placements with
  | nil => exact h
  | cons q l ih =>
    rw [foldl_cons]
    exact ih (recorded_copy_push_of_some h)

theorem recorded_copy_foldl (hdistinct : l.Pairwise fun a b => a.object_id ≠ b.object_id)
    (hfits : ∀ p ∈ l, ∀ copy ∈ recorded_copy placements p, copy = p) (hp : p ∈ l) :
    recorded_copy (l.foldl push_placement placements) p = some p := by
  induction l generalizing placements with
  | nil => cases hp
  | cons q l ih =>
    obtain ⟨hq, hrest⟩ := pairwise_cons.mp hdistinct
    rw [foldl_cons]
    rcases mem_cons.mp hp with rfl | hmem
    · exact recorded_copy_foldl_of_some (recorded_copy_push_self (hfits p hp))
    · apply ih hrest _ hmem
      intro p' hp'
      rw [recorded_copy_push_of_ne (hq p' hp')]
      exact hfits p' (mem_cons_of_mem _ hp')

theorem mem_of_recorded_copy (h : recorded_copy placements p = some copy) :
    copy ∈ placements (p.tenant_id, p.object_id) :=
  mem_of_find?_eq_some h

end Pushed

end ReplicationStore

/-! ## The effects -/

/-- The fields that no call changes once a replication is stored. -/
def SameReplication (a b : ReplicationRecord) : Prop :=
  b = { a with
    state := b.state
    target_placement_set_id := b.target_placement_set_id
    attempt := b.attempt
    completed_objects := b.completed_objects
    completed_bytes := b.completed_bytes
    issue_code := b.issue_code
    issue_message := b.issue_message
    updated_at_unix_ms := b.updated_at_unix_ms }

namespace SameReplication

variable {a b c : ReplicationRecord}

theorem refl (a : ReplicationRecord) : SameReplication a a :=
  rfl

section

variable (h : SameReplication a b)

include h

theorem trans (h' : SameReplication b c) : SameReplication a c := by
  unfold SameReplication at *
  rw [h] at h'
  exact h'

theorem key : b.key = a.key := by
  rw [h]
  rfl

theorem placement_target : b.placement_target = a.placement_target := by
  rw [h]
  rfl

/-- A publication that matches a replication matches it at any later time. -/
theorem publicationMatches {object_count total_bytes : UInt64}
    (hmatches : PublicationMatches a object_set object_count total_bytes placement_set) :
    PublicationMatches b object_set object_count total_bytes placement_set := by
  rw [h]
  rw [publicationMatches_iff] at hmatches ⊢
  exact hmatches

theorem placementMatches {object : CommitObject} {placement : ObjectPlacement}
    (hmatches : PlacementMatches a placement_set object placement) :
    PlacementMatches b placement_set object placement := by
  rw [h]
  rw [placementMatches_iff] at hmatches ⊢
  exact hmatches

end

end SameReplication

/-- The progress of a replication is within its frozen totals. -/
def WithinTotals (record : ReplicationRecord) : Prop :=
  record.completed_objects ≤ record.total_objects ∧ record.completed_bytes ≤ record.total_bytes

/-- A replication after a call shows at least the progress it showed before. -/
def Progressed (a b : ReplicationRecord) : Prop :=
  a.completed_objects ≤ b.completed_objects ∧ a.completed_bytes ≤ b.completed_bytes

theorem Progressed.of_eq {a b : ReplicationRecord}
    (hobjects : b.completed_objects = a.completed_objects)
    (hbytes : b.completed_bytes = a.completed_bytes) : Progressed a b := by
  constructor
  · rw [hobjects]
    exact UInt64.le_refl _
  · rw [hbytes]
    exact UInt64.le_refl _

variable {W : Type} {system : ReplicationSystem W}

/-- The replication and the attempt that a call carries. -/
def ReplicationCall.fence (system : ReplicationSystem W) :
    ReplicationCall W → Option (ReplicationKey × UInt64)
  | .insert record => some (record.key, record.attempt)
  | .transition request => some (request.key, request.expected_attempt)
  | .retry request => some (request.key, request.expected_attempt)
  | .cancel request => some (request.key, request.expected_attempt)
  | .checkpoint record => some (record.key, record.retry_count)
  | .begin_finalize _ request => some (request.key, request.expected_attempt)
  | .publish worker =>
    (system.finalizing worker).map fun pending => (pending.1.key, pending.1.expected_attempt)

/-- What finalize checks under its locks, with the record it read before and the one that is
stored now. -/
structure PublicationChecked (blake3 : Blake3) (store : ReplicationStore)
    (request : FinalizeReplicationRequest) (observed current : ReplicationRecord)
    (object_set : CommitObjectSet) : Prop where
  frozen : store.commit_object_sets (request.key.tenant_id, observed.commit_id) = some object_set
  checkpoints : validate_replication_checkpoints observed object_set
    (values (store.replication_objects request.key)) = .ok ()
  publication : validate_replication_publication blake3 observed object_set request.placements
    request.placement_set = .ok ()
  no_other : store.any_active
    ⟨request.key.tenant_id, observed.commit_id, request.placement_set.backend_id.as_str⟩
    (some request.key.replication_id) = false
  set_fits : ∀ existing ∈ store.placement_sets ⟨request.placement_set.tenant_id,
    request.placement_set.commit_id.digest, request.placement_set.backend_id.as_str⟩,
    existing = request.placement_set
  copies_fit : ∀ placement ∈ request.placements,
    ∀ existing ∈ ReplicationStore.recorded_copy store.object_placements placement,
      existing = placement
  stored : store.replications[request.key]? = some current
  attempt : current.attempt = request.expected_attempt
  verifying : current.state = .Verifying

def published_record (current : ReplicationRecord) (request : FinalizeReplicationRequest) :
    ReplicationRecord :=
  { current with
    state := .Published
    target_placement_set_id := some request.placement_set.placement_set_id
    completed_objects := current.total_objects
    completed_bytes := current.total_bytes
    issue_code := none
    issue_message := none
    updated_at_unix_ms := request.finalized_at_unix_ms }

def published_store (store : ReplicationStore) (current : ReplicationRecord)
    (request : FinalizeReplicationRequest) : ReplicationStore :=
  { store.put (published_record current request) with
    object_placements :=
      request.placements.foldl ReplicationStore.push_placement store.object_placements
    placement_sets := update store.placement_sets
      ⟨request.placement_set.tenant_id, request.placement_set.commit_id.digest,
        request.placement_set.backend_id.as_str⟩ (some request.placement_set) }

/-- The ways in which a call changes the repository. -/
inductive ReplicationEffect (blake3 : Blake3) (system : ReplicationSystem W) :
    ReplicationCall W → ReplicationStore → Prop
  | inserted (record : ReplicationRecord)
      (hnone : system.store.replications[record.key]? = none)
      (hset : record.state.active → system.store.placement_sets record.placement_target = none)
      (hactive : system.store.any_active record.placement_target none = false)
      (htotals : WithinTotals record) :
      ReplicationEffect blake3 system (.insert record)
        { system.store.put record with
          replication_requests := update system.store.replication_requests
            (record.tenant_id, record.request_id) (some record.replication_id) }
  | worked {call : ReplicationCall W} {key : ReplicationKey} {record record' : ReplicationRecord}
      (hfence : call.fence system = some (key, record.attempt))
      (hstored : system.store.replications[key]? = some record)
      (hsame : SameReplication record record') (hlive : record.state ≠ .Published)
      (hlive' : record'.state ≠ .Published) (hactive : record'.state.active → record.state.active)
      (hprogress : Progressed record record')
      (htotals : WithinTotals record → WithinTotals record') :
      ReplicationEffect blake3 system call (system.store.put record')
  | retried {request : RetryReplicationRequest} {record record' : ReplicationRecord}
      (hattempt : record.attempt = request.expected_attempt)
      (hstored : system.store.replications[request.key]? = some record)
      (hsame : SameReplication record record') (hlive : record.state ≠ .Published)
      (hqueued : record'.state = .Queued)
      (hother : system.store.any_active record.placement_target (some record.replication_id) =
        false)
      (hset : system.store.placement_sets record.placement_target = none)
      (hprogress : Progressed record record')
      (htotals : WithinTotals record → WithinTotals record') :
      ReplicationEffect blake3 system (.retry request)
        { system.store.put record' with
          replication_retry_mutations :=
            update system.store.replication_retry_mutations
              (request.key.tenant_id, request.request_id) (some (request, record')) }
  | checkpointed {checkpoint : ReplicationObjectRecord} {record : ReplicationRecord}
      (hattempt : record.attempt = checkpoint.retry_count)
      (hstored : system.store.replications[checkpoint.key]? = some record) :
      ReplicationEffect blake3 system (.checkpoint checkpoint)
        { system.store with
          replication_objects := update system.store.replication_objects checkpoint.key
            ((system.store.replication_objects checkpoint.key).insert checkpoint.object_id
              checkpoint) }
  | published {worker : W} {request : FinalizeReplicationRequest}
      {observed current : ReplicationRecord} {object_set : CommitObjectSet}
      (hworker : system.finalizing worker = some (request, observed))
      (hchecked : PublicationChecked blake3 system.store request observed current object_set) :
      ReplicationEffect blake3 system (.publish worker)
        (published_store system.store current request)

/-! ## The calls have no other effects -/

variable {request : FinalizeReplicationRequest} {observed : ReplicationRecord}

namespace ReplicationStore

variable {store store' : ReplicationStore} {r : ReplicationRecord}

theorem insert_replication_effect (h : system.store.insert_replication record = .ok (r, store)) :
    store = system.store ∨ ReplicationEffect blake3 system (.insert record) store := by
  simp only [insert_replication, validate_replication_record, ok_iff] at h
  obtain ⟨⟨_, hobjects, hbytes, _⟩, h⟩ := h
  cases hstored : system.store.replications[record.key]? with
  | some existing =>
    -- the same record again is answered from the repository
    simp only [hstored, ok_iff, Prod.mk.injEq] at h
    exact .inl h.2.2.symm
  | none =>
    simp only [hstored] at h
    cases hrequest : system.store.replication_requests (record.tenant_id, record.request_id) with
    | some existing_id =>
      -- so is a request that was served under another id
      simp only [hrequest, insert_replayed, ok_iff, Prod.mk.injEq] at h
      obtain ⟨_, _, _, _, hstore⟩ := h
      exact .inl hstore.symm
    | none =>
      simp only [hrequest, insert_new, ok_iff, Prod.mk.injEq] at h
      obtain ⟨hset, hactive, _, rfl⟩ := h
      exact .inr (.inserted record hstored hset hactive ⟨hobjects, hbytes⟩)

theorem valid_replication_transition_active {current next : ReplicationState}
    (h : valid_replication_transition current next = true) :
    current.active = true ∧ next ≠ .Published := by
  revert h
  cases current <;> cases next <;> decide

theorem active_ne_published {state : ReplicationState} (h : state.active = true) :
    state ≠ .Published := by
  intro heq
  rw [heq] at h
  revert h
  decide

theorem transition_replication_effect {request : ReplicationStateTransitionRequest}
    (h : system.store.transition_replication request = .ok (r, store)) :
    ReplicationEffect blake3 system (.transition request) store := by
  simp only [transition_replication, ok_iff, Prod.mk.injEq] at h
  obtain ⟨hvalid, record, hstored, ⟨hattempt, hstate⟩, ⟨hobjects, hbytes, hmax, hmax', _⟩, rfl,
    rfl⟩ := h
  obtain ⟨hactive, hnext⟩ := valid_replication_transition_active hvalid
  rw [← hstate] at hactive
  -- the stored attempt is the one the caller named, so the call is fenced by it
  have hfence : (ReplicationCall.transition request).fence system =
      some (request.key, record.attempt) := by
    rw [hattempt]
    rfl
  exact .worked hfence hstored rfl (active_ne_published hactive) hnext (fun _ => hactive)
    ⟨hobjects, hbytes⟩ fun _ => ⟨hmax, hmax'⟩

theorem retry_replication_effect {request : RetryReplicationRequest} {r : RetryReplicationResult}
    (h : system.store.retry_replication request = .ok (r, store)) :
    store = system.store ∨ ReplicationEffect blake3 system (.retry request) store := by
  unfold retry_replication at h
  cases hbook : system.store.replication_retry_mutations
      (request.key.tenant_id, request.request_id) with
  | some entry =>
    simp only [hbook, ok_iff, Prod.mk.injEq] at h
    exact .inl h.2.2.symm
  | none =>
    simp only [hbook, retry_new, ok_iff, Prod.mk.injEq] at h
    obtain ⟨record, hstored, _, hattempt, hstate, _, hother, hset, next_attempt, _, -, rfl⟩ := h
    -- only a failed or cancelled record is retried
    have hlive : record.state ≠ .Published := by
      rcases hstate with h | h <;> simp [h]
    exact .inr (.retried hattempt hstored rfl hlive rfl hother hset (.of_eq rfl rfl) id)

theorem cancel_replication_effect {request : CancelReplicationRequest}
    (h : system.store.cancel_replication request = .ok (r, store)) :
    store = system.store ∨ ReplicationEffect blake3 system (.cancel request) store := by
  simp only [cancel_replication, ok_iff] at h
  obtain ⟨record, hstored, hattempt, h⟩ := h
  by_cases hcancelled : record.state = .Cancelled
  -- a second cancellation is a replay
  · simp only [if_pos hcancelled, pure_eq_ok, Prod.mk.injEq] at h
    exact .inl h.2.symm
  · simp only [if_neg hcancelled, cancel_live, ok_iff, Prod.mk.injEq] at h
    obtain ⟨⟨hlive, _⟩, _, -, rfl⟩ := h
    have hfence : (ReplicationCall.cancel request).fence system =
        some (request.key, record.attempt) := by
      rw [hattempt]
      rfl
    exact .inr (.worked hfence hstored rfl hlive (by simp) (by simp [ReplicationState.active])
      (.of_eq rfl rfl) id)

theorem upsert_replication_object_effect {checkpoint r : ReplicationObjectRecord}
    (h : system.store.upsert_replication_object checkpoint = .ok (r, store)) :
    ReplicationEffect blake3 system (.checkpoint checkpoint) store := by
  simp only [upsert_replication_object, ok_iff, Prod.mk.injEq] at h
  obtain ⟨record, hstored, _, hattempt, _, -, rfl⟩ := h
  exact .checkpointed hattempt.symm hstored

theorem begin_finalize_reads (h : store.begin_finalize request = .ok (.inr observed)) :
    store.replications[request.key]? = some observed := by
  simp only [begin_finalize, ok_iff] at h
  obtain ⟨record, hstored, _, h⟩ := h
  by_cases hpublished : record.state = .Published
  · simp only [if_pos hpublished, ok_iff, reduceCtorEq, and_false] at h
  · simp only [if_neg hpublished, ok_iff, Sum.inr.injEq] at h
    rw [hstored, h.2.2.2]

theorem publish_replication_ok {r : FinalizeReplicationResult}
    (h : store.publish_replication blake3 observed request = .ok (r, store')) :
    ∃ current object_set,
      PublicationChecked blake3 store request observed current object_set ∧
        r = ⟨published_record current request, request.placement_set, false⟩ ∧
        store' = published_store store current request := by
  simp only [publish_replication, ok_iff, Prod.mk.injEq] at h
  obtain ⟨object_set, hfrozen, hcheckpoints, hpublication, hother, hset, hcopies, current, hstored,
    ⟨hattempt, hverifying⟩, hr, hstore⟩ := h
  exact ⟨current, object_set, ⟨hfrozen, hcheckpoints, hpublication, hother, hset, hcopies, hstored,
    hattempt, hverifying⟩, hr.symm, hstore.symm⟩

end ReplicationStore

namespace ReplicationSystem

variable {call : ReplicationCall W}

/-- A call that is answered at once has the effect of its operation, or none. -/
theorem respond_effect {α : Type} {answer : α → ReplicationAnswer}
    {result : CentralResult (α × ReplicationStore)} {s : ReplicationSystem W}
    (hsame : s.store = system.store) (hdone : ∀ a store, result = .ok (a, store) →
      store = system.store ∨ ReplicationEffect blake3 system call store) :
    (s.respond answer result).2.store = system.store ∨
      ReplicationEffect blake3 system call (s.respond answer result).2.store := by
  cases result with
  | error error => exact .inl hsame
  | ok value => exact hdone value.1 value.2 rfl

variable [DecidableEq W]

/-- A call leaves the repository as it is or has one of the effects. -/
theorem call_effect (blake3 : Blake3) (system : ReplicationSystem W) (call : ReplicationCall W) :
    (system.call blake3 call).2.store = system.store ∨
      ReplicationEffect blake3 system call (system.call blake3 call).2.store := by
  cases call with
  | insert record =>
    exact respond_effect rfl fun _ _ h => insert_replication_effect h
  | transition request =>
    exact respond_effect rfl fun _ _ h => .inr (transition_replication_effect h)
  | retry request =>
    exact respond_effect rfl fun _ _ h => retry_replication_effect h
  | cancel request =>
    exact respond_effect rfl fun _ _ h => cancel_replication_effect h
  | checkpoint checkpoint =>
    exact respond_effect rfl fun _ _ h =>
      .inr (upsert_replication_object_effect h)
  | begin_finalize worker request =>
    left
    show (system.start_finalize worker request).2.store = system.store
    unfold start_finalize
    split <;> rfl
  | publish worker =>
    show (system.end_finalize blake3 worker).2.store = system.store ∨
      ReplicationEffect blake3 system _ (system.end_finalize blake3 worker).2.store
    unfold end_finalize
    cases hworker : system.finalizing worker with
    | none => exact .inl rfl
    | some pending =>
      have hsame : (⟨system.store, update system.finalizing worker none⟩ :
        ReplicationSystem W).store = system.store := rfl
      apply respond_effect hsame
      intro r store h
      obtain ⟨current, object_set, hchecked, _, rfl⟩ := publish_replication_ok h
      exact .inr (.published hworker hchecked)

theorem call_finalizing {worker : W}
    (h : (system.call blake3 call).2.finalizing worker = some (request, observed)) :
    system.finalizing worker = some (request, observed) ∨
      ((system.call blake3 call).2.store = system.store ∧
        system.store.replications[request.key]? = some observed) := by
  have hrespond : ∀ {α : Type} (system : ReplicationSystem W) (answer : α → ReplicationAnswer)
      (result : CentralResult (α × ReplicationStore)),
      (system.respond answer result).2.finalizing = system.finalizing := by
    intro α system answer result
    unfold respond
    split <;> rfl
  cases call with
  | insert => exact .inl (by rw [← hrespond]; exact h)
  | transition => exact .inl (by rw [← hrespond]; exact h)
  | retry => exact .inl (by rw [← hrespond]; exact h)
  | cancel => exact .inl (by rw [← hrespond]; exact h)
  | checkpoint => exact .inl (by rw [← hrespond]; exact h)
  | begin_finalize worker' request' =>
    simp only [call, start_finalize] at h ⊢
    cases hbegin : system.store.begin_finalize request' with
    | error error =>
      simp only [hbegin] at h
      exact .inl h
    | ok reading =>
      cases reading with
      | inl result =>
        simp only [hbegin] at h
        exact .inl h
      | inr record =>
        simp only [hbegin] at h ⊢
        by_cases hworker : worker = worker'
        · subst hworker
          rw [update_self] at h
          cases h
          exact .inr ⟨trivial, begin_finalize_reads hbegin⟩
        · rw [update_of_ne hworker] at h
          exact .inl h
  | publish worker' =>
    left
    simp only [call, end_finalize] at h
    cases hpending : system.finalizing worker' with
    | none =>
      simp only [hpending] at h
      exact h
    | some pending =>
      simp only [hpending, hrespond] at h
      by_cases hworker : worker = worker'
      · subst hworker
        simp at h
      · rw [update_of_ne hworker] at h
        exact h

end ReplicationSystem

end NeoEngram.Central

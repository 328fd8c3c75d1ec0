import NeoEngram.Central.ReplicationEffects
import NeoEngram.Framework.Runs

/-! # Publication of replications

Workers of any attempts call the repository in any order, and a worker that
finalizes may work with a record that is out of date. In every state that is
reached

- a call with an attempt that is not the current one changes nothing
- progress is never lost
- a published replication has what it needs, and stays as it is
- a target has one active replication at most, and none after its placement
  set is published

But a record that is published already may be inserted, and then nothing
stands behind it.
-/

namespace NeoEngram.Central

open Checks OrderedKeys Runs ReplicationStore Function ReplicationSystem ReplicationRecord Option
open ReplicationSystem (call_effect)

variable {W : Type} {system : ReplicationSystem W} {blake3 : Blake3} {record : ReplicationRecord}
  {object_set : CommitObjectSet}

/-! ## Invariants -/

/-- No other replication of the target is active, and the target has no placement set. -/
structure TargetFree (store : ReplicationStore) (record : ReplicationRecord) : Prop where
  no_other : ∀ key other, store.replications[key]? = some other → key ≠ record.key →
    other.placement_target = record.placement_target → other.state.active = false
  no_set : store.placement_sets record.placement_target = none

/-- When a record may be written: it is new, or goes on from a stored one that is not published; and
it is active only if it was so before or its target is free. -/
structure MayWrite (store : ReplicationStore) (record : ReplicationRecord) : Prop where
  continues : ∀ stored, store.replications[record.key]? = some stored →
    SameReplication stored record ∧ stored.state ≠ .Published ∧ Progressed stored record
  totals : WithinTotals record
  active : record.state.active →
    (∃ stored, store.replications[record.key]? = some stored ∧ stored.state.active) ∨
      TargetFree store record

variable {other : ReplicationRecord} {key' : ReplicationKey}

section Writes

variable {store store' : ReplicationStore} {call : ReplicationCall W} {key : ReplicationKey}

theorem getElem?_put : (store.put record).replications[key]? =
      if record.key = key then some record else store.replications[key]? := by
  unfold put
  rw [getElem?_insert_eq]
  congr

/-- What the search for an active replication of a target says when it finds none. -/
theorem any_active_eq_false (hkeyed : KeyedBy ReplicationRecord.key store.replications)
    {target : PlacementTarget} {except : Option ReplicationId}
    (h : store.any_active target except = false) (hstored : store.replications[key]? = some other)
    (hexcept : except ≠ some key.replication_id) (htarget : other.placement_target = target) :
    other.state.active = false := by
  have hmem : other ∈ values store.replications := mem_values.mpr ⟨key, hstored⟩
  have hkey : other.key = key := hkeyed key other hstored
  simp only [any_active, List.any_eq_false, decide_eq_true_eq, not_and, Bool.not_eq_true] at h
  apply h other hmem _ htarget
  rw [← hkey] at hexcept
  exact hexcept

theorem replication_id_ne (htenant : key.tenant_id = key'.tenant_id)
    (hne : key ≠ key') : key.replication_id ≠ key'.replication_id := by
  intro heq
  cases key
  cases key'
  cases htenant
  cases heq
  exact hne rfl

theorem no_other_of_any_active (hkeyed : KeyedBy ReplicationRecord.key store.replications)
    {target : PlacementTarget} (htenant : target.tenant_id = key.tenant_id)
    (h : store.any_active target (some key.replication_id) = false)
    (hstored : store.replications[key']? = some other)
    (hne : key' ≠ key) (htarget : other.placement_target = target) :
    other.state.active = false := by
  apply any_active_eq_false hkeyed h hstored _ htarget
  have hkey : other.key = key' := hkeyed key' other hstored
  have hsame : key'.tenant_id = key.tenant_id := by
    rw [← htenant, ← htarget, ← hkey]
    rfl
  intro heq
  exact replication_id_ne hsame hne (some.inj heq).symm

/-- An effect writes one record that may be written, or none. -/
theorem ReplicationEffect.writes (heffect : ReplicationEffect blake3 system call store')
    (hkeyed : KeyedBy ReplicationRecord.key system.store.replications)
    (hwithin : ∀ (key : ReplicationKey) (record : ReplicationRecord),
      system.store.replications[key]? = some record → WithinTotals record) :
    store'.replications = system.store.replications ∨
      ∃ record, store'.replications = (system.store.put record).replications ∧
        MayWrite system.store record := by
  cases heffect with
  | checkpointed => exact .inl rfl
  | inserted record hnone hset hactive htotals =>
    refine .inr ⟨record, rfl, ?_, htotals, fun h => .inr ⟨?_, hset h⟩⟩
    · intro stored hstored
      rw [hnone] at hstored
      cases hstored
    · intro key other hother _ htarget
      exact any_active_eq_false hkeyed hactive hother (by simp) htarget
  | @worked _ key record record' _ hstored hsame hlive _ hactive hprogress htotals =>
    have hkey : record'.key = key := hsame.key.trans (hkeyed key record hstored)
    refine .inr ⟨record', rfl, ?_, htotals (hwithin key record hstored),
      fun h => .inl ⟨record, ?_, hactive h⟩⟩
    · intro stored hstored'
      rw [hkey, hstored] at hstored'
      cases hstored'
      exact ⟨hsame, hlive, hprogress⟩
    · rw [hkey]
      exact hstored
  | @retried request record record' _ hstored hsame hlive _ hother hset hprogress htotals =>
    have hkey' : record.key = request.key := hkeyed _ record hstored
    have hkey : record'.key = request.key := hsame.key.trans hkey'
    refine .inr ⟨record', rfl, ?_, htotals (hwithin _ record hstored), fun _ => .inr ⟨?_, ?_⟩⟩
    · intro stored hstored'
      rw [hkey, hstored] at hstored'
      cases hstored'
      exact ⟨hsame, hlive, hprogress⟩
    · intro key other hstored' hne htarget
      rw [hsame.key] at hne
      rw [hsame.placement_target] at htarget
      exact no_other_of_any_active hkeyed rfl hother hstored' hne htarget
    · rw [hsame.placement_target]
      exact hset
  | @published worker request observed current object_set _ hchecked =>
    have hkey : (published_record current request).key = request.key :=
      hkeyed _ current hchecked.stored
    refine .inr ⟨published_record current request, rfl, ?_,
      ⟨UInt64.le_refl _, UInt64.le_refl _⟩, ?_⟩
    · intro stored hstored
      rw [hkey, hchecked.stored] at hstored
      cases hstored
      have hlive : current.state ≠ .Published := by
        rw [hchecked.verifying]
        decide
      exact ⟨rfl, hlive, hwithin _ current hchecked.stored⟩
    · intro hactive
      exact absurd rfl (active_ne_published hactive)

end Writes

/-- What holds in every state that is reached. -/
structure ReplicationInvariant (system : ReplicationSystem W) : Prop where
  keyed : KeyedBy ReplicationRecord.key system.store.replications
  checkpoints : ∀ key, KeyedBy ReplicationObjectRecord.object_id
    (system.store.replication_objects key)
  totals : ∀ (key : ReplicationKey) (record : ReplicationRecord),
    system.store.replications[key]? = some record → WithinTotals record
  one_active : ∀ (key key' : ReplicationKey) (record record' : ReplicationRecord),
    system.store.replications[key]? = some record →
    system.store.replications[key']? = some record' → record.state.active →
    record'.state.active → record.placement_target = record'.placement_target → key = key'
  vacated : ∀ (key : ReplicationKey) (record : ReplicationRecord),
    system.store.replications[key]? = some record → record.state.active →
    system.store.placement_sets record.placement_target = none
  finalizing : ∀ worker request observed, system.finalizing worker = some (request, observed) →
    ∃ current, system.store.replications[request.key]? = some current ∧
      SameReplication observed current

variable {observed : ReplicationRecord} {worker : W}

section Steps

variable {store store' : ReplicationStore} {call : ReplicationCall W} {key : ReplicationKey}
  {request : FinalizeReplicationRequest}

/-- A stored replication stays, with its progress, and a published one stays as it is. -/
theorem ReplicationEffect.keeps (heffect : ReplicationEffect blake3 system call store')
    (hinv : ReplicationInvariant system) (hstored : system.store.replications[key]? = some record) :
    ∃ record', store'.replications[key]? = some record' ∧ SameReplication record record' ∧
      Progressed record record' ∧ (record.state = .Published → record' = record) := by
  rcases heffect.writes hinv.keyed hinv.totals with hsame | ⟨written, hwritten, hmay⟩
  · rw [hsame]
    exact ⟨record, hstored, .refl record, .of_eq rfl rfl, fun _ => rfl⟩
  · rw [hwritten, getElem?_put]
    by_cases hkey : written.key = key
    · rw [if_pos hkey]
      obtain ⟨hsame, hlive, hprogress⟩ := hmay.continues record (hkey ▸ hstored)
      exact ⟨written, rfl, hsame, hprogress, fun h => absurd h hlive⟩
    · rw [if_neg hkey]
      exact ⟨record, hstored, .refl record, .of_eq rfl rfl, fun _ => rfl⟩

/-- Placement sets are only changed by a publication, which fills in the one of its target. -/
theorem ReplicationEffect.placement_sets (heffect : ReplicationEffect blake3 system call store') :
    store'.placement_sets = system.store.placement_sets ∨
      ∃ worker request observed current object_set,
        system.finalizing worker = some (request, observed) ∧
        PublicationChecked blake3 system.store request observed current object_set ∧
        store' = published_store system.store current request := by
  cases heffect with
  | published hworker hchecked => exact .inr ⟨_, _, _, _, _, hworker, hchecked, rfl⟩
  | inserted => exact .inl rfl
  | worked => exact .inl rfl
  | retried => exact .inl rfl
  | checkpointed => exact .inl rfl

theorem ReplicationEffect.keeps_set (heffect : ReplicationEffect blake3 system call store')
    {target : PlacementTarget} {placement_set : CommitPlacementSet}
    (hset : system.store.placement_sets target = some placement_set) :
    store'.placement_sets target = some placement_set := by
  rcases heffect.placement_sets with hsame | ⟨_, request, _, _, _, _, hchecked, rfl⟩
  · rw [hsame]
    exact hset
  · show update system.store.placement_sets _ _ target = _
    by_cases htarget : target = ⟨request.placement_set.tenant_id,
        request.placement_set.commit_id.digest, request.placement_set.backend_id.as_str⟩
    · subst htarget
      rw [update_self, hchecked.set_fits placement_set hset]
    · rw [update_of_ne htarget]
      exact hset

theorem PublicationChecked.target {current : ReplicationRecord}
    (h : PublicationChecked blake3 store request observed current object_set) :
    (⟨request.placement_set.tenant_id, request.placement_set.commit_id.digest,
      request.placement_set.backend_id.as_str⟩ : PlacementTarget) = observed.placement_target := by
  obtain ⟨_, ⟨_, _, hmatches⟩, _⟩ := validate_replication_publication_ok h.publication
  rw [hmatches.tenant_id, hmatches.commit_id, hmatches.backend_id]
  rfl

/-- The replication that a worker finalizes is the one that its request names. -/
theorem ReplicationInvariant.observed_key (hinv : ReplicationInvariant system)
    (hworker : system.finalizing worker = some (request, observed)) :
    observed.key = request.key := by
  obtain ⟨current, hstored, hsame⟩ := hinv.finalizing worker request observed hworker
  rw [← hsame.key]
  exact hinv.keyed _ current hstored

/-- No other replication of its target is active when a replication is published. -/
theorem PublicationChecked.no_other_active {current : ReplicationRecord}
    (h : PublicationChecked blake3 store request observed current object_set)
    (hkeyed : KeyedBy ReplicationRecord.key store.replications)
    (hobserved : observed.key = request.key) (hother : store.replications[key]? = some other)
    (hne : key ≠ request.key) (htarget : other.placement_target = observed.placement_target) :
    other.state.active = false := by
  have hno := h.no_other
  have hfields : (⟨request.key.tenant_id, observed.commit_id,
      request.placement_set.backend_id.as_str⟩ : PlacementTarget) = observed.placement_target := by
    rw [← h.target, ← hobserved]
    obtain ⟨_, ⟨_, _, hmatches⟩, _⟩ := validate_replication_publication_ok h.publication
    rw [hmatches.tenant_id, hmatches.commit_id]
    rfl
  rw [hfields] at hno
  have htenant : observed.placement_target.tenant_id = request.key.tenant_id := by
    rw [← hobserved]
    rfl
  exact no_other_of_any_active hkeyed htenant hno hother hne htarget

variable (heffect : ReplicationEffect blake3 system call store')
  (hinv : ReplicationInvariant system)

include heffect hinv

/-- A replication that is active after a call was active before, or its target was free. -/
theorem ReplicationEffect.active_cases (hstored : store'.replications[key]? = some record)
    (hactive : record.state.active) :
    (∃ stored, system.store.replications[key]? = some stored ∧ stored.state.active ∧
      stored.placement_target = record.placement_target) ∨
      (record.key = key ∧ TargetFree system.store record) := by
  rcases heffect.writes hinv.keyed hinv.totals with hsame | ⟨written, hwritten, hmay⟩
  · rw [hsame] at hstored
    exact .inl ⟨record, hstored, hactive, rfl⟩
  · rw [hwritten, getElem?_put] at hstored
    by_cases hkey : written.key = key
    · rw [if_pos hkey] at hstored
      cases hstored
      rcases hmay.active hactive with ⟨stored, hstored, hactive'⟩ | hfree
      · have htarget := (hmay.continues stored hstored).1.placement_target
        exact .inl ⟨stored, hkey ▸ hstored, hactive', htarget.symm⟩
      · exact .inr ⟨hkey, hfree⟩
    · rw [if_neg hkey] at hstored
      exact .inl ⟨record, hstored, hactive, rfl⟩

theorem ReplicationEffect.one_active {record' : ReplicationRecord}
    (hstored : store'.replications[key]? = some record)
    (hstored' : store'.replications[key']? = some record') (hactive : record.state.active)
    (hactive' : record'.state.active)
    (htarget : record.placement_target = record'.placement_target) : key = key' := by
  by_contra hne
  rcases heffect.active_cases hinv hstored hactive with ⟨old, hold, holdactive, holdtarget⟩ |
    ⟨hkey, hfree⟩
  · rcases heffect.active_cases hinv hstored' hactive' with ⟨old', hold', holdactive',
      holdtarget'⟩ |
      ⟨hkey', hfree'⟩
    · exact hne (hinv.one_active key key' old old' hold hold' holdactive holdactive'
        (holdtarget.trans (htarget.trans holdtarget'.symm)))
    · have := hfree'.no_other key old hold (fun h => hne (h.trans hkey')) (holdtarget.trans htarget)
      rw [this] at holdactive
      cases holdactive
  · rcases heffect.active_cases hinv hstored' hactive' with ⟨old', hold', holdactive',
      holdtarget'⟩ |
      ⟨hkey', hfree'⟩
    · have := hfree.no_other key' old' hold' (fun h => hne (hkey.symm.trans h.symm))
        (holdtarget'.trans htarget.symm)
      rw [this] at holdactive'
      cases holdactive'
    · -- only one record is written by a call
      rcases heffect.writes hinv.keyed hinv.totals with hsame | ⟨written, hwritten, _⟩
      · rw [hsame] at hstored hstored'
        exact hne (hinv.one_active key key' record record' hstored hstored' hactive hactive'
          htarget)
      · rw [hwritten, getElem?_put] at hstored hstored'
        by_cases hk : written.key = key
        · have hk' : written.key ≠ key' := fun h => hne (hk.symm.trans h)
          rw [if_neg hk'] at hstored'
          have := hfree.no_other key' record' hstored' (fun h => hne (hkey.symm.trans h.symm))
            htarget.symm
          rw [this] at hactive'
          cases hactive'
        · rw [if_neg hk] at hstored
          have := hfree'.no_other key record hstored (fun h => hne (h.trans hkey')) htarget
          rw [this] at hactive
          cases hactive

theorem ReplicationEffect.vacated (hstored : store'.replications[key]? = some record)
    (hactive : record.state.active) : store'.placement_sets record.placement_target = none := by
  have hbefore : system.store.placement_sets record.placement_target = none := by
    rcases heffect.active_cases hinv hstored hactive with ⟨old, hold, holdactive, holdtarget⟩ |
      ⟨_, hfree⟩
    · rw [← holdtarget]
      exact hinv.vacated key old hold holdactive
    · exact hfree.no_set
  rcases heffect.placement_sets with hsame | ⟨worker, request, observed, current, object_set,
    hworker, hchecked, rfl⟩
  · rw [hsame]
    exact hbefore
  · -- a replication that is still active is not of the target that has been published
    have hcurrent : current.key = request.key := hinv.keyed _ current hchecked.stored
    have hstored : (system.store.put (published_record current request)).replications[key]? =
        some record := hstored
    rw [getElem?_put] at hstored
    by_cases hkey : (published_record current request).key = key
    · rw [if_pos hkey] at hstored
      cases hstored
      exact absurd rfl (active_ne_published hactive)
    · rw [if_neg hkey] at hstored
      show update system.store.placement_sets _ _ record.placement_target = none
      rw [hchecked.target, update_of_ne]
      · exact hbefore
      · intro htarget
        have hne : key ≠ request.key := fun h => hkey (hcurrent.trans h.symm)
        have := hchecked.no_other_active hinv.keyed (hinv.observed_key hworker) hstored hne htarget
        rw [this] at hactive
        cases hactive

theorem ReplicationEffect.checkpoints (key : ReplicationKey) :
    KeyedBy ReplicationObjectRecord.object_id (store'.replication_objects key) := by
  cases heffect with
  | @checkpointed checkpoint =>
    show KeyedBy _ (update system.store.replication_objects _ _ key)
    by_cases hkey : key = checkpoint.key
    · subst hkey
      rw [update_self]
      exact (hinv.checkpoints _).insert checkpoint
    · rw [update_of_ne hkey]
      exact hinv.checkpoints key
  | inserted => exact hinv.checkpoints key
  | worked => exact hinv.checkpoints key
  | retried => exact hinv.checkpoints key
  | published => exact hinv.checkpoints key

theorem ReplicationEffect.keyed : KeyedBy ReplicationRecord.key store'.replications := by
  rcases heffect.writes hinv.keyed hinv.totals with hsame | ⟨written, hwritten, _⟩
  · rw [hsame]
    exact hinv.keyed
  · rw [hwritten]
    exact hinv.keyed.insert written

theorem ReplicationEffect.totals (hstored : store'.replications[key]? = some record) :
    WithinTotals record := by
  rcases heffect.writes hinv.keyed hinv.totals with hsame | ⟨written, hwritten, hmay⟩
  · rw [hsame] at hstored
    exact hinv.totals key record hstored
  · rw [hwritten, getElem?_put] at hstored
    by_cases hkey : written.key = key
    · rw [if_pos hkey] at hstored
      cases hstored
      exact hmay.totals
    · rw [if_neg hkey] at hstored
      exact hinv.totals key record hstored

end Steps

variable [DecidableEq W]

/-- At first there are no replications, and nobody is finalizing. -/
structure ReplicationSystem.Initial (system : ReplicationSystem W) : Prop where
  replications : system.store.replications = ∅
  requests : ∀ key, system.store.replication_requests key = none
  retries : ∀ key, system.store.replication_retry_mutations key = none
  objects : ∀ key, system.store.replication_objects key = ∅
  finalizing : ∀ worker, system.finalizing worker = none

omit [DecidableEq W] in
theorem ReplicationSystem.Initial.invariant (h : system.Initial) : ReplicationInvariant system where
  keyed := by
    rw [h.replications]
    exact .empty
  checkpoints key := by
    rw [h.objects key]
    exact .empty
  totals key record hstored := by simp [h.replications] at hstored
  one_active key key' record record' hstored := by simp [h.replications] at hstored
  vacated key record hstored := by simp [h.replications] at hstored
  finalizing worker request observed hworker := by simp [h.finalizing] at hworker

theorem ReplicationInvariant.call (hinv : ReplicationInvariant system) (call : ReplicationCall W) :
    ReplicationInvariant (system.call blake3 call).2 := by
  have hfinalizing : ∀ worker request observed,
      (system.call blake3 call).2.finalizing worker = some (request, observed) →
      ∃ current, (system.call blake3 call).2.store.replications[request.key]? = some current ∧
        SameReplication observed current := by
    intro worker request observed hworker
    rcases ReplicationSystem.call_finalizing hworker with hbefore | ⟨hstore, hread⟩
    · obtain ⟨current, hstored, hsame⟩ := hinv.finalizing worker request observed hbefore
      rcases call_effect blake3 system call with hstore | heffect
      · rw [hstore]
        exact ⟨current, hstored, hsame⟩
      · obtain ⟨current', hstored', hsame', _⟩ := heffect.keeps hinv hstored
        exact ⟨current', hstored', hsame.trans hsame'⟩
    · rw [hstore]
      exact ⟨observed, hread, .refl observed⟩
  rcases call_effect blake3 system call with hstore | heffect
  · refine ⟨?_, ?_, ?_, ?_, ?_, hfinalizing⟩ <;> rw [hstore]
    · exact hinv.keyed
    · exact hinv.checkpoints
    · exact hinv.totals
    · exact hinv.one_active
    · exact hinv.vacated
  · exact ⟨heffect.keyed hinv, heffect.checkpoints hinv, fun _ _ => heffect.totals hinv,
      fun _ _ _ _ => heffect.one_active hinv, fun _ _ => heffect.vacated hinv, hfinalizing⟩

/-! ## Every run -/

/-- What a publication rests on: the frozen ObjectSet, with a checkpoint and a placement for each of
its objects and for nothing else. -/
structure PublicationEvidence (store store' : ReplicationStore)
    (request : FinalizeReplicationRequest) (record : ReplicationRecord)
    (object_set : CommitObjectSet) : Prop where
  frozen : store.commit_object_sets (record.tenant_id, record.commit_id) = some object_set
  object_set_digest : object_set.object_set.object_set_digest = record.object_set_digest
  only_checkpoints : ∀ object_id, object_id ∈ store.replication_objects record.key →
    object_id ∈ object_set.object_set.objects.map (·.object_id)
  checkpoints : ∀ object ∈ object_set.object_set.objects, ∃ checkpoint,
    (store.replication_objects record.key)[object.object_id]? = some checkpoint ∧
      checkpoint.state = .Verified ∧ checkpoint.offset = object.size
  only_placements : (request.placements.map (·.object_id)).Perm
    (object_set.object_set.objects.map (·.object_id))
  placements : ∀ object ∈ object_set.object_set.objects, ∃ placement ∈ request.placements,
    placement.object_id = object.object_id ∧
      PlacementMatches record request.placement_set object placement ∧
      placement ∈ store'.object_placements (record.tenant_id, object.object_id)
  placement_set : ∃ object_count total_bytes,
    PublicationMatches record object_set object_count total_bytes request.placement_set
  published : store'.placement_sets record.placement_target = some request.placement_set
  target_placement_set_id :
    record.target_placement_set_id = some request.placement_set.placement_set_id

variable {request : FinalizeReplicationRequest}

omit [DecidableEq W] in
/-- Finalize publishes on complete evidence. -/
theorem PublicationChecked.evidence (hinv : ReplicationInvariant system)
    {current : ReplicationRecord}
    (hworker : system.finalizing worker = some (request, observed))
    (h : PublicationChecked blake3 system.store request observed current object_set) :
    PublicationEvidence system.store (published_store system.store current request) request
      (published_record current request) object_set := by
  obtain ⟨stored, hstored, hsame⟩ := hinv.finalizing worker request observed hworker
  cases h.stored.symm.trans hstored
  have hpublished : SameReplication observed (published_record current request) := hsame.trans rfl
  have hkey : observed.key = request.key := hinv.observed_key hworker
  obtain ⟨hnodup, ⟨object_count, total_bytes, hmatches⟩, hdistinct, honly, hplacements⟩ :=
    validate_replication_publication_ok h.publication
  obtain ⟨hcheckpoint_ids, hcheckpoints⟩ := validate_replication_checkpoints_ok h.checkpoints hnodup
  have hmatches' := hpublished.publicationMatches hmatches
  have hkey' : (published_record current request).key = request.key := hpublished.key.trans hkey
  refine ⟨?_, hmatches'.object_set_digest.symm, ?_, ?_, honly, ?_, ⟨_, _, hmatches'⟩, ?_, rfl⟩
  · have htenant : (published_record current request).tenant_id = request.key.tenant_id := by
      rw [← hkey']
      rfl
    have hcommit : (published_record current request).commit_id = observed.commit_id := by
      rw [hpublished]
    rw [htenant, hcommit]
    exact h.frozen
  · intro object_id hmem
    rw [hkey'] at hmem
    obtain ⟨checkpoint, hlookup⟩ :=
      isSome_iff_exists.mp (Std.ExtTreeMap.isSome_getElem?_iff_mem.mpr hmem)
    have hid := hinv.checkpoints _ _ _ hlookup
    apply hcheckpoint_ids.mem_iff.mp
    exact List.mem_map.mpr ⟨checkpoint, mem_values.mpr ⟨_, hlookup⟩, hid⟩
  · intro object hobject
    obtain ⟨checkpoint, hmem, hid, hverified, hoffset⟩ := hcheckpoints object hobject
    rw [(hinv.checkpoints request.key).mem_values, hid] at hmem
    rw [hkey']
    exact ⟨checkpoint, hmem, hverified, hoffset⟩
  · intro object hobject
    obtain ⟨placement, hmem, hid, hplacement⟩ := hplacements object hobject
    have hplacement' := hpublished.placementMatches hplacement
    have hrecorded := mem_of_recorded_copy
      (recorded_copy_foldl hdistinct h.copies_fit hmem)
    rw [hplacement'.tenant_id, hid] at hrecorded
    exact ⟨placement, hmem, hid, hplacement', hrecorded⟩
  · show update system.store.placement_sets _ _ _ = _
    rw [h.target, hpublished.placement_target, update_self]

/-- Workers call the repository one after the other. -/
def ReplicationSystem.Step (blake3 : Blake3) (system : ReplicationSystem W)
    (call : ReplicationCall W) (system' : ReplicationSystem W) : Prop :=
  system' = (system.call blake3 call).2

/-- The replication of a request is published as the request says. -/
structure Finalized (system : ReplicationSystem W) (request : FinalizeReplicationRequest)
    (record : ReplicationRecord) : Prop where
  stored : system.store.replications[request.key]? = some record
  published : record.state = .Published
  attempt : record.attempt = request.expected_attempt
  set_id : record.target_placement_set_id = some request.placement_set.placement_set_id
  set : system.store.placement_sets ⟨request.key.tenant_id, record.commit_id,
    request.placement_set.backend_id.as_str⟩ = some request.placement_set

namespace Finalized

variable {request : FinalizeReplicationRequest}

theorem call (h : Finalized system request record) (hinv : ReplicationInvariant system)
    (call : ReplicationCall W) : Finalized (system.call blake3 call).2 request record := by
  rcases call_effect blake3 system call with hstore | heffect
  · refine ⟨?_, h.published, h.attempt, h.set_id, ?_⟩ <;> rw [hstore]
    · exact h.stored
    · exact h.set
  · obtain ⟨record', hstored, _, _, hfinal⟩ := heffect.keeps hinv h.stored
    rw [hfinal h.published] at hstored
    exact ⟨hstored, h.published, h.attempt, h.set_id, heffect.keeps_set h.set⟩

theorem run {log : List (ReplicationCall W)} {system' : ReplicationSystem W}
    (hrun : Run (ReplicationSystem.Step blake3) system log system')
    (h : Finalized system request record) (hinv : ReplicationInvariant system) :
    Finalized system' request record := by
  have hboth : ReplicationInvariant system' ∧ Finalized system' request record := by
    apply hrun.invariant (I := fun s => ReplicationInvariant s ∧ Finalized s request record)
    · intro s call s' hstep ⟨hinv, h⟩
      rw [hstep]
      exact ⟨hinv.call call, h.call hinv call⟩
    · exact ⟨hinv, h⟩
  exact hboth.2

theorem replay (h : Finalized system request record) (worker : W) :
    system.call blake3 (.begin_finalize worker request) =
      (.ok (.finalized ⟨record, request.placement_set, true⟩), system) := by
  have hbegin : system.store.begin_finalize request =
      .ok (.inl ⟨record, request.placement_set, true⟩) := by
    simp only [begin_finalize, ok_iff]
    refine ⟨record, h.stored, h.attempt, ?_⟩
    rw [if_pos h.published]
    simp only [ok_iff]
    exact ⟨⟨h.set_id, h.set⟩, trivial⟩
  show system.start_finalize worker request = _
  unfold start_finalize
  rw [hbegin]

end Finalized

theorem ReplicationInvariant.finalized (hinv : ReplicationInvariant system)
    {result : FinalizeReplicationResult}
    (hworker : system.finalizing worker = some (request, observed))
    (hanswer : (system.call blake3 (.publish worker)).1 = .ok (.finalized result)) :
    Finalized (system.call blake3 (.publish worker)).2 request result.replication := by
  have hcall : system.call blake3 (.publish worker) = respond
        { system with finalizing := update system.finalizing worker none } .finalized
        (system.store.publish_replication blake3 observed request) := by
    show system.end_finalize blake3 worker = _
    unfold end_finalize
    rw [hworker]
  rw [hcall] at hanswer ⊢
  cases hpublish : system.store.publish_replication blake3 observed request with
  | error error =>
    rw [hpublish] at hanswer
    cases hanswer
  | ok value =>
    obtain ⟨r, store'⟩ := value
    rw [hpublish] at hanswer
    obtain ⟨current, object_set, hchecked, rfl, rfl⟩ :=
      publish_replication_ok hpublish
    cases hanswer
    have hevidence := hchecked.evidence hinv hworker
    have hkey : (published_record current request).key = request.key :=
      hinv.keyed _ current hchecked.stored
    refine ⟨?_, rfl, hchecked.attempt, rfl, ?_⟩
    · show (system.store.put (published_record current request)).replications[request.key]? = _
      rw [getElem?_put, if_pos hkey]
    · obtain ⟨_, _, hmatches⟩ := hevidence.placement_set
      have hpublished := hevidence.published
      rw [← hkey, hmatches.backend_id]
      exact hpublished

/-- What the workers of a repository can rely on, in a state and in every call from it. -/
structure ReplicationSafety (blake3 : Blake3) (system : ReplicationSystem W) : Prop where
  /-- A call with an attempt that is not the current one changes nothing. -/
  stale : ∀ (call : ReplicationCall W) (key : ReplicationKey) (attempt : UInt64)
    (record : ReplicationRecord), call.fence system = some (key, attempt) →
    system.store.replications[key]? = some record → record.attempt ≠ attempt →
    (system.call blake3 call).2.store = system.store
  /-- Replications stay, and their progress is never lost. -/
  progress : ∀ (call : ReplicationCall W) (key : ReplicationKey) (record : ReplicationRecord),
    system.store.replications[key]? = some record →
    ∃ record', (system.call blake3 call).2.store.replications[key]? = some record' ∧
      record.completed_objects ≤ record'.completed_objects ∧
      record.completed_bytes ≤ record'.completed_bytes
  /-- A replication that is published after a call was so before, was inserted as a published
  one, or was finalized on complete evidence. -/
  entered : ∀ (call : ReplicationCall W) (key : ReplicationKey) (record : ReplicationRecord),
    (system.call blake3 call).2.store.replications[key]? = some record →
    record.state = .Published →
    system.store.replications[key]? = some record ∨
      (call = .insert record ∧ system.store.replications[key]? = none) ∨
      ∃ worker request observed object_set, call = .publish worker ∧
        system.finalizing worker = some (request, observed) ∧
        PublicationEvidence system.store (system.call blake3 call).2.store request record
          object_set
  /-- A published replication stays as it is. -/
  final : ∀ (call : ReplicationCall W) (key : ReplicationKey) (record : ReplicationRecord),
    system.store.replications[key]? = some record → record.state = .Published →
    (system.call blake3 call).2.store.replications[key]? = some record
  /-- A finalize that succeeded is answered in the same way whenever it comes again. -/
  replayed : ∀ (worker : W) (request : FinalizeReplicationRequest) (observed : ReplicationRecord)
    (result : FinalizeReplicationResult), system.finalizing worker = some (request, observed) →
    (system.call blake3 (.publish worker)).1 = .ok (.finalized result) →
    ∀ (log : List (ReplicationCall W)) (later : ReplicationSystem W),
      Run (ReplicationSystem.Step blake3) (system.call blake3 (.publish worker)).2 log later →
      ∀ worker', later.call blake3 (.begin_finalize worker' request) =
        (.ok (.finalized ⟨result.replication, request.placement_set, true⟩), later)
  /-- A tenant, Commit and target backend have one active replication at most. -/
  one_active : ∀ (key key' : ReplicationKey) (record record' : ReplicationRecord),
    system.store.replications[key]? = some record →
    system.store.replications[key']? = some record' → record.state.active →
    record'.state.active → record.placement_target = record'.placement_target → key = key'
  /-- No replication is active whose target has a placement set. -/
  vacated : ∀ (key : ReplicationKey) (record : ReplicationRecord)
    (placement_set : CommitPlacementSet), system.store.replications[key]? = some record →
    system.store.placement_sets record.placement_target = some placement_set →
    record.state.active = false

/-- A call that carries another attempt than the stored one leaves the repository as it is. -/
theorem ReplicationSystem.call_stale {call : ReplicationCall W} {key : ReplicationKey}
    {attempt : UInt64} (hfence : call.fence system = some (key, attempt))
    (hstored : system.store.replications[key]? = some record) (hne : record.attempt ≠ attempt) :
    (system.call blake3 call).2.store = system.store := by
  rcases call_effect blake3 system call with hstore | heffect
  · exact hstore
  · exfalso
    generalize (system.call blake3 call).2.store = store' at heffect
    cases heffect with
    | inserted record' hnone =>
      cases hfence
      rw [hnone] at hstored
      cases hstored
    | worked hfence' hstored' =>
      cases hfence.symm.trans hfence'
      cases hstored.symm.trans hstored'
      exact hne rfl
    | retried hattempt hstored' =>
      cases hfence
      cases hstored.symm.trans hstored'
      exact hne hattempt
    | checkpointed hattempt hstored' =>
      cases hfence
      cases hstored.symm.trans hstored'
      exact hne hattempt
    | published hworker hchecked =>
      simp only [ReplicationCall.fence, hworker, map_some, some.injEq, Prod.mk.injEq] at hfence
      obtain ⟨rfl, rfl⟩ := hfence
      cases hstored.symm.trans hchecked.stored
      exact hne hchecked.attempt

namespace ReplicationInvariant

theorem entered (hinv : ReplicationInvariant system) {call : ReplicationCall W}
    {key : ReplicationKey}
    (hstored : (system.call blake3 call).2.store.replications[key]? = some record)
    (hpublished : record.state = .Published) :
    system.store.replications[key]? = some record ∨
      (call = .insert record ∧ system.store.replications[key]? = none) ∨
      ∃ worker request observed object_set, call = .publish worker ∧
        system.finalizing worker = some (request, observed) ∧
        PublicationEvidence system.store (system.call blake3 call).2.store request record
          object_set := by
  rcases call_effect blake3 system call with hstore | heffect
  · rw [hstore] at hstored
    exact .inl hstored
  · generalize (system.call blake3 call).2.store = store' at hstored heffect ⊢
    -- a record that was not written by the call was there before
    have hwrote : ∀ written : ReplicationRecord,
        (system.store.put written).replications[key]? = some record →
        system.store.replications[key]? = some record ∨ (written.key = key ∧ written = record) := by
      intro written hput
      rw [getElem?_put] at hput
      by_cases hkey : written.key = key
      · rw [if_pos hkey] at hput
        exact .inr ⟨hkey, some.inj hput⟩
      · rw [if_neg hkey] at hput
        exact .inl hput
    cases heffect with
    | inserted written hnone =>
      rcases hwrote written hstored with hold | ⟨hkey, rfl⟩
      · exact .inl hold
      · exact .inr (.inl ⟨rfl, hkey ▸ hnone⟩)
    | worked _ _ _ _ hlive =>
      rcases hwrote _ hstored with hold | ⟨_, rfl⟩
      · exact .inl hold
      · exact absurd hpublished hlive
    | retried _ _ _ _ hqueued =>
      rcases hwrote _ hstored with hold | ⟨_, rfl⟩
      · exact .inl hold
      · rw [hqueued] at hpublished
        cases hpublished
    | checkpointed => exact .inl hstored
    | published hworker hchecked =>
      rcases hwrote _ hstored with hold | ⟨_, rfl⟩
      · exact .inl hold
      · exact .inr (.inr ⟨_, _, _, _, rfl, hworker, hchecked.evidence hinv hworker⟩)

/-- The invariant is enough for everything that workers rely on. -/
theorem safety (hinv : ReplicationInvariant system) : ReplicationSafety blake3 system where
  stale call key attempt record := call_stale
  progress call key record hstored := by
    rcases call_effect blake3 system call with hstore | heffect
    · rw [hstore]
      exact ⟨record, hstored, UInt64.le_refl _, UInt64.le_refl _⟩
    · obtain ⟨record', hstored', _, hprogress, _⟩ := heffect.keeps hinv hstored
      exact ⟨record', hstored', hprogress⟩
  entered call key record := hinv.entered
  final call key record hstored hpublished := by
    rcases call_effect blake3 system call with hstore | heffect
    · rw [hstore]
      exact hstored
    · obtain ⟨record', hstored', _, _, hfinal⟩ := heffect.keeps hinv hstored
      rw [hfinal hpublished] at hstored'
      exact hstored'
  replayed worker request observed result hworker hanswer log later hrun worker' :=
    ((hinv.finalized hworker hanswer).run hrun (hinv.call _)).replay worker'
  one_active := hinv.one_active
  vacated key record placement_set hstored hset := by
    by_contra hactive
    have hnone := hinv.vacated key record hstored (by simpa using hactive)
    rw [hset] at hnone
    cases hnone

end ReplicationInvariant

/-- **Publication of replications**: whatever workers call in whatever order, in every state that is
reached and in every call from there. -/
theorem replication_publication (blake3 : Blake3) {system₀ system : ReplicationSystem W}
    {log : List (ReplicationCall W)} (hinitial : system₀.Initial)
    (hrun : Run (ReplicationSystem.Step blake3) system₀ log system) :
    ReplicationSafety blake3 system := by
  have hinv : ReplicationInvariant system := by
    apply hrun.invariant (I := ReplicationInvariant)
    · intro s call s' hstep hinv
      rw [hstep]
      exact hinv.call call
    · exact hinitial.invariant
  exact hinv.safety

/-! ### One object, replicated by one worker -/

namespace ReplicationSample

def tenant : TenantId := .named "e" (by decide)
def backend : BackendId := .named "b" (by decide)
def volume : StorageVolumeId := .named "d" (by decide)
def replication : ReplicationKey := ⟨tenant, .named "r" (by decide)⟩
def set_id : PlacementSetId := .named "s" (by decide)
def commit : CommitId := ⟨digest_of_nat 7⟩
def object : CommitObject := ⟨⟨digest_of_nat 1⟩, 5, .Raw, 0⟩

def set_digest : ContentDigest :=
  digest_of_nat 14425651155081920169532334201244792547401359379763959531747811669413843331324

def objects : CommitObjectSet := ⟨tenant, commit, set_digest, [object]⟩

def placement : ObjectPlacement :=
  ⟨tenant, object.object_id, backend, some volume, none, none, none, none, 1, .Verified, 5,
    digest_of_nat 1, ['z']⟩

def placement_set : CommitPlacementSet :=
  ⟨set_id, tenant, commit, backend, some volume, none, set_digest, 1, 1, 1, .Published⟩

def in_state (state : ReplicationState) : ReplicationRecord :=
  ⟨tenant, replication.replication_id, none, commit.digest, backend.as_str, volume,
    ⟨none, none, none, none, none, none, none, none, none, none⟩,
    ⟨none, none, none, none, none, none, none⟩, none, none, some set_id, none, set_digest, state,
    .named "q" (by decide), 1, 0, 1, 0, 5, none, none, 0, 0⟩

def initial : ReplicationSystem Unit :=
  ⟨⟨∅, fun _ => none, fun _ => none, fun _ => ∅,
    fun key => if key = (tenant, commit.digest) then some objects else none,
    fun _ => none, fun _ => []⟩, fun _ => none⟩

def transition (state next : ReplicationState) (done_objects done_bytes : UInt64) :
    ReplicationCall Unit :=
  .transition ⟨replication, state, 1, next, done_objects, done_bytes, none, none, 0⟩

def calls : List (ReplicationCall Unit) :=
  [.insert (in_state .Queued), transition .Queued .Planning 0 0,
    transition .Planning .Transferring 0 0,
    .checkpoint ⟨replication, object.object_id, 5, .Verified, 1, 0⟩,
    transition .Transferring .Verifying 1 5,
    .begin_finalize () ⟨replication, 1, [placement], placement_set, 0⟩, .publish ()]

def after (calls : List (ReplicationCall Unit)) : ReplicationSystem Unit :=
  calls.foldl (fun system call => (system.call poly_hash call).2) initial

theorem after_run (calls : List (ReplicationCall Unit)) :
    Run (ReplicationSystem.Step poly_hash) initial calls (after calls) := by
  apply Run.of_foldl
  intro system call
  rfl

theorem initial_initial : initial.Initial :=
  ⟨rfl, fun _ => rfl, fun _ => rfl, fun _ => rfl, fun _ => rfl⟩

end ReplicationSample

open ReplicationSample in
theorem replication_publication_sample :
    (((after calls).store.replications[replication]?).map (·.state) = some .Published) ∧
      ReplicationSafety poly_hash (after calls) :=
  ⟨by decide +kernel, replication_publication poly_hash initial_initial (after_run calls)⟩

open ReplicationSample in
/-- A replication inserted as published has no checkpoints and no placements, and its target has no
placement set. -/
theorem insert_published_replication :
    (initial.call poly_hash (.insert (in_state .Published))).1 =
        .ok (.replication (in_state .Published)) ∧
      (after [.insert (in_state .Published)]).store.replications[replication]? =
        some (in_state .Published) ∧
      (after [.insert (in_state .Published)]).store.replication_objects replication = ∅ ∧
      (after [.insert (in_state .Published)]).store.object_placements (tenant, object.object_id) =
        [] ∧
      (after [.insert (in_state .Published)]).store.placement_sets
        (in_state .Published).placement_target = none := by
  refine ⟨?_, ?_, ?_, ?_, ?_⟩
  · decide +kernel
  · decide +kernel
  · rfl
  · decide +kernel
  · decide +kernel

end NeoEngram.Central

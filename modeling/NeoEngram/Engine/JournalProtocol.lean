import NeoEngram.Engine.Mutation

/-! # The protocol of mutation journals

What holds of the journals in every execution of `execute_mutation` and
`finalize_mutation`, whatever the ports answer and wherever the process
stops. A record is created, or moves along an edge of its phases with the next
revision. The proofs follow the record through the two programs.
-/

namespace NeoEngram

open Checks Effects FileJournalStore Function

variable {U : UnicodeTables}

/-! ## Steps -/

inductive ExecuteEdge : JournalPhase → JournalPhase → Prop
  | applying : ExecuteEdge .Prepared .Applying
  | applied : ExecuteEdge .Applying .Applied
  | awaiting : ExecuteEdge .Applied .AwaitingFinalize
  | failed : ExecuteEdge .Applying .RecoveryRequired
  | unsealed : ExecuteEdge .Applied .RecoveryRequired

theorem ExecuteEdge.is_active {a b : JournalPhase} (h : ExecuteEdge a b) : b.is_active := by
  cases h <;> rfl

inductive FinalizeEdge : JournalPhase → JournalPhase → Prop
  | finalized : FinalizeEdge .AwaitingFinalize .Finalized

/-- A step of `execute_mutation` on a record. -/
def ExecuteStep (previous next : JournalRecord) : Prop := ExecuteEdge previous.phase next.phase

/-- A step of `finalize_mutation`: the record is the one the request names, with its digest. -/
def FinalizeStep (request : FinalizeMutationRequest) (previous next : JournalRecord) : Prop :=
  FinalizeEdge previous.phase next.phase ∧ previous.id = request.journal_id ∧
    previous.plan_digest = request.plan_digest

/-- A step along an allowed edge. -/
def AllowedStep (previous next : JournalRecord) : Prop :=
  ExecuteEdge previous.phase next.phase ∨ FinalizeEdge previous.phase next.phase

/-- The next record has the next revision, stands at the other end of an edge, and is for the same
mutation. -/
structure Succeeds (E : JournalRecord → JournalRecord → Prop) (previous next : JournalRecord) :
    Prop where
  revision : next.revision.toNat = previous.revision.toNat + 1
  edge : E previous next
  id : next.id = previous.id
  identity : next.identity = previous.identity
  plan_id : next.plan_id = previous.plan_id
  plan_digest : next.plan_digest = previous.plan_digest

/-- A journal stays as it is, is created, or is succeeded along an edge. -/
inductive RecordStep (E : JournalRecord → JournalRecord → Prop) :
    Option JournalRecord → Option JournalRecord → Prop
  | same (record : Option JournalRecord) : RecordStep E record record
  | created {record : JournalRecord} (hrevision : record.revision = 0)
      (hphase : record.phase = .Prepared) : RecordStep E none (some record)
  | succeeded {previous next : JournalRecord} (h : Succeeds E previous next) :
      RecordStep E (some previous) (some next)

def JournalStep (E : JournalRecord → JournalRecord → Prop) (journals journals' : Journals) : Prop :=
  ∀ id, RecordStep E (journals id) (journals' id)

variable {journals journals' : Journals} {id : JournalId} {E : JournalRecord → JournalRecord → Prop}

theorem JournalStep.refl (journals : Journals) :
    JournalStep E journals journals :=
  fun id => .same (journals id)

theorem JournalStep.mono {E E' : JournalRecord → JournalRecord → Prop}
    (h : JournalStep E journals journals') (hE : ∀ a b, E a b → E' a b) :
    JournalStep E' journals journals' := by
  intro id
  have hid := h id
  generalize journals id = before at hid ⊢
  generalize journals' id = after at hid ⊢
  cases hid with
  | same => exact .same _
  | created hrevision hphase => exact .created hrevision hphase
  | succeeded h =>
    exact .succeeded ⟨h.revision, hE _ _ h.edge, h.id, h.identity, h.plan_id, h.plan_digest⟩

theorem JournalStep.update {record : Option JournalRecord} (h : RecordStep E (journals id) record) :
    JournalStep E journals (update journals id record) := by
  intro id'
  by_cases hid : id' = id
  · subst hid
    rw [update_self]
    exact h
  · rw [update_of_ne hid]
    exact .same _

/-- The journal is there and recovery will see it. -/
def Active (id : JournalId) (journals : Journals) : Prop :=
  ∃ record, journals id = some record ∧ record.phase.is_active

/-- No step of `execute_mutation` hides a journal. -/
theorem Active.step (h : Active id journals)
    (hstep : JournalStep ExecuteStep journals journals') : Active id journals' := by
  obtain ⟨record, hrecord, hactive⟩ := h
  have hid := hstep id
  rw [hrecord] at hid
  generalize hafter : journals' id = after at hid
  cases hid with
  | same => exact ⟨record, hafter, hactive⟩
  | @succeeded _ next hnext =>
    exact ⟨next, hafter, ExecuteEdge.is_active hnext.edge⟩

/-- The record of the plan is durable in the phase `Applying`. -/
def ApplyingRecord (plan : MutationPlan U) (journals : Journals) : Prop :=
  ∃ id record, id.text = plan.plan_id ∧ journals id = some record ∧ record.phase = .Applying ∧
    record.plan_digest = plan.digest ∧ record.identity = plan.identity

/-- What holds of every call: the journals make a step, and a plan is handed to the worktree only
under its record. -/
def ProtocolCall (E : JournalRecord → JournalRecord → Prop) :
    CallProp (PortCall U) (fun c => EngineResult c.Value) Journals :=
  fun journals c _ journals' => JournalStep E journals journals' ∧
    ∀ plan, c = .apply_mutation plan → ApplyingRecord plan journals

/-! ## The store -/

variable {fault : StoreFault} {r : EngineResult Unit} {journal : JournalRecord}

theorem create_cases (h : (r, journals') = create fault journals journal) :
    (journals' = journals ∧ ∃ e, r = .error e) ∨
      (journals journal.id = none ∧ journal.revision = 0 ∧
        journals' = update journals journal.id (some journal)) := by
  unfold create at h
  dsimp only at h
  split at h
  · next e _ =>
    obtain ⟨rfl, rfl⟩ := Prod.mk.inj h
    exact .inl ⟨rfl, e, rfl⟩
  · next hchecks =>
    obtain ⟨-, rfl⟩ := Prod.mk.inj h
    simp only [ok_iff, Option.isNone_iff_eq_none] at hchecks
    exact .inr ⟨hchecks.2.2.2, hchecks.2.1, rfl⟩

variable {record : JournalRecord}

theorem load_ok (h : load fault journals id = .ok (some record)) :
    journals id = some record ∧ record.id = id := by
  simp only [load, ok_iff] at h
  obtain ⟨-, h⟩ := h
  split at h
  · cases h
  · next found hfound =>
    simp only [ok_iff, Option.some.injEq] at h
    obtain ⟨-, hid, rfl⟩ := h
    exact ⟨hfound, hid⟩

theorem compare_exchange_cases {expected_revision : UInt64} (h : (r, journals') =
      compare_exchange fault journals expected_revision journal) :
    (journals' = journals ∧ ∃ e, r = .error e) ∨
      journals' = update journals journal.id (some journal) := by
  unfold compare_exchange at h
  dsimp only at h
  split at h
  · next e _ =>
    obtain ⟨rfl, rfl⟩ := Prod.mk.inj h
    exact .inl ⟨rfl, e, rfl⟩
  · obtain ⟨-, rfl⟩ := Prod.mk.inj h
    exact .inr rfl

/-! ## The programs -/

variable {request : ExecuteMutationRequest U}

section Programs

variable {E : JournalRecord → JournalRecord → Prop} {journals : Journals} {α : Type}

theorem meets_port_call (c : PortCall U) {Q : EngineResult c.Value → Journals → Prop}
    (h : ∀ r journals', Behaves journals c r journals' →
      ProtocolCall E journals c r journals' ∧ Q r journals') :
    Meets Behaves (ProtocolCall E) (port c : PortProgram U c.Value).run Q journals :=
  h

/-- The calls that neither write journals nor apply a plan. -/
def Silent : PortCall U → Prop
  | .create _ => False
  | .compare_exchange _ _ => False
  | .apply_mutation _ => False
  | _ => True

variable {journal : JournalRecord}

theorem Silent.same {c : PortCall U} (hc : Silent c) {r : EngineResult c.Value}
    (h : Behaves journals c r journals') : journals' = journals := by
  cases c with
  | create => cases hc
  | compare_exchange => cases hc
  | apply_mutation => cases hc
  | load => exact h.1
  | _ => exact h

variable {Q : EngineResult α → Journals → Prop}

theorem meets_silent (c : PortCall U) (hc : Silent c) {f : c.Value → PortProgram U α}
    (hf : ∀ v, Meets Behaves (ProtocolCall E) (f v).run Q journals)
    (herror : ∀ e, Q (.error e) journals) :
    Meets Behaves (ProtocolCall E) (port c >>= f).run Q journals := by
  rw [meets_seq]
  refine meets_port_call c ?_
  intro r journals' hanswer
  obtain rfl := hc.same hanswer
  refine ⟨⟨.refl _, fun plan hplan => by subst hplan; cases hc⟩, ?_⟩
  cases r with
  | error e => exact herror e
  | ok v => exact hf v

theorem meets_check {β : Type} {x : EngineResult β} {f : β → PortProgram U α}
    (hf : ∀ v, x = .ok v → Meets Behaves (ProtocolCall E) (f v).run Q journals)
    (herror : ∀ e, Q (.error e) journals) :
    Meets Behaves (ProtocolCall E) (checked x >>= f).run Q journals := by
  rw [meets_seq, meets_checked]
  cases hx : x with
  | error e => exact herror e
  | ok v => exact hf v hx

variable {t : UInt64}

section

variable (hstored : journals journal.id = some journal)

include hstored

/-- The record that is in the store moves along an edge, or an error is returned. -/
theorem meets_advance {phase : JournalPhase} (hedge : ∀ next, next.phase = phase → E journal next)
    {Q : EngineResult JournalRecord → Journals → Prop}
    (hok : ∀ next, Succeeds E journal next → next.phase = phase →
      Q (.ok next) (update journals journal.id (some next)))
    (herror : ∀ e journals', Q (.error e) journals') :
    Meets Behaves (ProtocolCall E) (advance_journal journal phase t : PortProgram U _).run Q
      journals := by
  refine meets_check ?_ fun e => herror e journals
  intro revision hrevision
  have hadd := checked_add_eq_some.mp (ok_or_eq_ok.mp hrevision)
  set next : JournalRecord :=
    { journal with revision := revision, phase := phase, updated_at_unix_ms := t } with hnext
  have hsucceeds : Succeeds E journal next := ⟨hadd.symm, hedge next rfl, rfl, rfl, rfl, rfl⟩
  rw [meets_seq]
  refine meets_port_call (.compare_exchange _ _) ?_
  intro r journals' ⟨fault, hanswer⟩
  rcases compare_exchange_cases hanswer with ⟨rfl, e, rfl⟩ | rfl
  · exact ⟨⟨.refl _, fun plan hc => by cases hc⟩, herror e _⟩
  · refine ⟨⟨.update ?_, fun plan hc => by cases hc⟩, ?_⟩
    · rw [hstored]
      exact .succeeded hsucceeds
    · cases r with
      | error e => exact herror e _
      | ok _ => exact hok next hsucceeds rfl

theorem meets_mark_recovery_required
    (hedge : ∀ next, next.phase = .RecoveryRequired → E journal next)
    {Q : EngineResult Unit → Journals → Prop} (hQ : ∀ journals', Q (.ok ()) journals') :
    Meets Behaves (ProtocolCall E) (mark_recovery_required journal : PortProgram U _).run Q
      journals := by
  unfold mark_recovery_required
  rw [meets_seq, meets_outcome]
  refine meets_port_call .now_unix_ms ?_
  intro r journals' hanswer
  obtain rfl : journals' = journals := hanswer
  refine ⟨⟨.refl _, fun plan hc => by cases hc⟩, ?_⟩
  -- whatever the clock said, the store is asked once, and its answer is dropped
  change Meets _ _ (outcome _ >>= _).run _ _
  rw [meets_seq, meets_outcome]
  exact meets_advance hstored hedge (fun _ _ _ => hQ _) fun _ _ => hQ _

omit hstored in
theorem executeStep {a b : JournalPhase} (ha : journal.phase = a)
    (hedge : ExecuteEdge a b) : ∀ next, next.phase = b → ExecuteStep journal next := by
  intro next hb
  unfold ExecuteStep
  rw [ha, hb]
  exact hedge

/-- What a returned receipt says of the journal of a record. -/
def ReceiptFor (journal : JournalRecord) (r : EngineResult ExecuteMutationResult)
    (journals : Journals) : Prop :=
  ∀ result, r = .ok result → result.receipt.status = .Applied ∧
    result.receipt.journal_id = journal.id ∧ ∃ record, journals journal.id = some record ∧
      record.phase = .AwaitingFinalize ∧ record.plan_digest = journal.plan_digest ∧
      record.identity = journal.identity

omit hstored in
theorem receiptFor_error (journal : JournalRecord) (e : EngineError) (journals : Journals) :
    ReceiptFor journal (.error e) journals := by
  intro result h
  cases h

theorem meets_seal_mutation {application : MutationApplication}
    (hphase : journal.phase = .Applying) :
    Meets Behaves (ProtocolCall ExecuteStep) (seal_mutation request journal t application).run
      (ReceiptFor journal) journals := by
  have herror := receiptFor_error journal
  unfold seal_mutation
  refine meets_silent .now_unix_ms trivial ?_ fun e => herror e _
  intro now
  rw [meets_seq]
  refine meets_advance hstored (executeStep hphase .applied) ?_ herror
  intro applied happlied hphase
  have hstored : update journals journal.id (some applied) applied.id = some applied := by
    rw [happlied.id, update_self]
  generalize update journals journal.id (some applied) = journals₁ at hstored ⊢
  -- if a check before the receipt fails, the record is marked
  have hmark : ∀ e, Meets Behaves (ProtocolCall ExecuteStep)
      (mark_recovery_required applied >>= fun _ => throw e : PortProgram U _).run
      (ReceiptFor journal) journals₁ := by
    intro e
    rw [meets_seq]
    exact meets_mark_recovery_required hstored (executeStep hphase .unsealed) fun _ => herror e _
  change Meets _ _ (outcome _ >>= _).run _ _
  rw [meets_seq, meets_outcome]
  refine meets_silent (.checkpoint .BeforeReceipt) trivial ?_ hmark
  intro _
  refine meets_port_call (.check .BeforeReceipt) ?_
  intro r journals' hanswer
  obtain rfl : journals' = journals₁ := hanswer
  refine ⟨⟨.refl _, fun plan hc => by cases hc⟩, ?_⟩
  cases r with
  | error e => exact hmark e
  | ok _ =>
    change Meets _ _ (Port.now_unix_ms >>= _).run _ _
    refine meets_silent .now_unix_ms trivial ?_ fun e => herror e _
    intro finished
    rw [meets_seq]
    refine meets_advance hstored (executeStep hphase .awaiting) ?_ herror
    intro awaiting hawaiting hphase
    refine meets_silent (.emit _) trivial ?_ fun e => herror e _
    intro _ result hresult
    obtain rfl := Except.ok.inj hresult
    refine ⟨rfl, hawaiting.id.trans happlied.id, awaiting, ?_, hphase,
      hawaiting.plan_digest.trans happlied.plan_digest,
      hawaiting.identity.trans happlied.identity⟩
    rw [happlied.id, update_self]

/-- The record in `Applying` is the one of the plan. -/
theorem meets_apply_journaled (hphase : journal.phase = .Applying)
    (hid : journal.id.text = request.plan.plan_id)
    (hdigest : journal.plan_digest = request.plan.digest)
    (hidentity : journal.identity = request.plan.identity) :
    Meets Behaves (ProtocolCall ExecuteStep) (apply_journaled request journal t).run
      (ReceiptFor journal) journals := by
  have herror := receiptFor_error journal
  unfold apply_journaled
  -- if the plan is not applied, the record is marked
  have hmark : ∀ e, Meets Behaves (ProtocolCall ExecuteStep)
      (mark_recovery_required journal >>= fun _ => throw e : PortProgram U _).run
      (ReceiptFor journal) journals := by
    intro e
    rw [meets_seq]
    exact meets_mark_recovery_required hstored (executeStep hphase .failed) fun _ => herror e _
  rw [meets_seq, meets_outcome]
  refine meets_silent (.checkpoint .BeforeIrreversibleWrite) trivial ?_ hmark
  intro _
  refine meets_silent (.check .BeforeMutation) trivial ?_ hmark
  intro _
  refine meets_port_call (.apply_mutation request.plan) ?_
  intro r journals' hanswer
  obtain rfl : journals' = journals := hanswer
  refine ⟨⟨.refl _, ?_⟩, ?_⟩
  · intro plan hplan
    obtain rfl := PortCall.apply_mutation.inj hplan
    exact ⟨journal.id, journal, hid, hstored, hphase, hdigest, hidentity⟩
  · cases r with
    | error e => exact hmark e
    | ok application => exact meets_seal_mutation hstored hphase

end

/-- The journal record that `execute_mutation` starts with. -/
def initial_record (request : ExecuteMutationRequest U) (id : JournalId) (t : UInt64) :
    JournalRecord :=
  ⟨id, 0, .Prepared, request.plan.identity, request.plan.plan_id, request.plan.digest,
    request.recovery_payload, t⟩

def ReceiptForPlan (plan : MutationPlan U) (r : EngineResult ExecuteMutationResult)
    (journals : Journals) : Prop :=
  ∀ result, r = .ok result → result.receipt.status = .Applied ∧
    result.receipt.journal_id.text = plan.plan_id ∧
    ∃ record, journals result.receipt.journal_id = some record ∧ record.phase = .AwaitingFinalize ∧
      record.plan_digest = plan.digest ∧ record.identity = plan.identity

theorem meets_execute_mutation (blake3 : Blake3) (request : ExecuteMutationRequest U) :
    Meets Behaves (ProtocolCall ExecuteStep) (execute_mutation blake3 request).run
      (ReceiptForPlan request.plan) journals := by
  have herror : ∀ e journals', ReceiptForPlan request.plan (.error e) journals' := by
    intro e journals' result h
    cases h
  unfold execute_mutation
  refine meets_check ?_ fun e => herror e _
  intro _ _
  refine meets_silent (.acquire _) trivial ?_ fun e => herror e _
  intro _
  refine meets_check ?_ fun e => herror e _
  intro _ _
  refine meets_silent (.checkpoint _) trivial ?_ fun e => herror e _
  intro _
  refine meets_silent (.check _) trivial ?_ fun e => herror e _
  intro _
  refine meets_silent (.checkpoint _) trivial ?_ fun e => herror e _
  intro _
  refine meets_silent .now_unix_ms trivial ?_ fun e => herror e _
  intro started
  refine meets_check ?_ fun e => herror e _
  intro id hid
  have htext : id.text = request.plan.plan_id := by
    unfold JournalId.new at hid
    split at hid
    · rw [← Except.ok.inj hid]
    · cases hid
  change Meets _ _ (Port.create (initial_record request id started) >>= _).run _ _
  rw [meets_seq]
  refine meets_port_call (.create _) ?_
  intro r journals' ⟨fault, hanswer⟩
  rcases create_cases hanswer with ⟨rfl, e, rfl⟩ | ⟨hfree, hrevision, rfl⟩
  · exact ⟨⟨.refl _, fun plan hc => by cases hc⟩, herror e _⟩
  · -- the journal was written, whatever the answer says
    refine ⟨⟨.update ?_, fun plan hc => by cases hc⟩, ?_⟩
    · rw [hfree]
      exact .created rfl rfl
    · cases r with
      | error e => exact herror e _
      | ok _ =>
        have hstored : update journals id (some (initial_record request id started))
            (initial_record request id started).id = some (initial_record request id started) :=
          update_self ..
        refine meets_silent (.emit _) trivial ?_ fun e => herror e _
        intro _
        refine meets_silent .now_unix_ms trivial ?_ fun e => herror e _
        intro now
        rw [meets_seq]
        refine meets_advance hstored (executeStep rfl .applying) ?_ herror
        intro applying happlying hphase
        refine (meets_apply_journaled ?_ hphase (happlying.id ▸ htext) happlying.plan_digest
          happlying.identity).mono ?_
        · rw [happlying.id, update_self]
        · intro r journals' hreceipt result hresult
          obtain ⟨hstatus, hjournal, record, hrecord, hawaiting, hdigest, hidentity⟩ :=
            hreceipt result hresult
          rw [hjournal]
          exact ⟨hstatus, happlying.id ▸ htext, record, hrecord, hawaiting,
            hdigest.trans happlying.plan_digest, hidentity.trans happlying.identity⟩

theorem meets_finalize_mutation (request : FinalizeMutationRequest) :
    Meets Behaves (ProtocolCall (FinalizeStep request))
      (finalize_mutation request : PortProgram U _).run (fun _ _ => True) journals := by
  unfold finalize_mutation
  rw [meets_seq]
  refine meets_port_call (.load _) ?_
  rintro r journals' ⟨rfl, fault, hload⟩
  refine ⟨⟨.refl _, fun plan hc => by cases hc⟩, ?_⟩
  cases r with
  | error e => trivial
  | ok found =>
    refine meets_check ?_ fun _ => trivial
    intro journal hfound
    obtain rfl := ok_or_eq_ok.mp hfound
    obtain ⟨hstored, hid⟩ := load_ok hload.symm
    refine meets_check ?_ fun _ => trivial
    intro _ hdigest
    split
    · trivial
    · refine meets_check ?_ fun _ => trivial
      intro _ hphase
      refine meets_silent .now_unix_ms trivial ?_ fun _ => trivial
      intro now
      rw [meets_seq]
      refine meets_advance (hid ▸ hstored) ?_ (fun _ _ _ => trivial) fun _ _ => trivial
      intro next hnext
      refine ⟨?_, hid, ensure_eq_ok.mp hdigest⟩
      rw [ensure_eq_ok.mp hphase, hnext]
      exact .finalized

end Programs

/-! ## The protocol -/

inductive UseCase (U : UnicodeTables) where
  | execute (request : ExecuteMutationRequest U)
  | finalize (request : FinalizeMutationRequest)

/-- The program of a use case; its result is dropped. -/
def UseCase.program (blake3 : Blake3) :
    UseCase U → Prog (PortCall U) (fun c => EngineResult c.Value) Unit
  | .execute request => (execute_mutation blake3 request).run >>= fun _ => .ret ()
  | .finalize request => (finalize_mutation request).run >>= fun _ => .ret ()

/-- A mutation that returns is an attempt. -/
theorem attempts_of_execute {blake3 : Blake3}
    {trace : List (Event (PortCall U) _ Journals)} {r : EngineResult ExecuteMutationResult}
    (h : Exec Behaves journals (execute_mutation blake3 request).run trace journals' (some r)) :
    Attempts Behaves (UseCase.program blake3) journals trace journals' := by
  have hwhole : Exec Behaves journals ((UseCase.execute request).program blake3) (trace ++ [])
      journals' (some ()) := h.bind (.ret _ ())
  have hattempt := Attempts.more hwhole (.none journals')
  rwa [List.append_nil, List.append_nil] at hattempt

theorem ProtocolCall.mono {E E' : JournalRecord → JournalRecord → Prop} (hE : ∀ a b, E a b → E' a b)
    {c : PortCall U} {r : EngineResult c.Value} (h : ProtocolCall E journals c r journals') :
    ProtocolCall E' journals c r journals' :=
  ⟨h.1.mono hE, h.2⟩

theorem meets_use_case (blake3 : Blake3) (use_case : UseCase U) (journals : Journals) :
    Meets Behaves (ProtocolCall AllowedStep) (use_case.program blake3) (fun _ _ =>
      True) journals := by
  cases use_case with
  | execute request =>
    refine meets_bind.mpr ?_
    refine ((meets_execute_mutation blake3 request).mono_calls ?_).mono fun _ _ _ => trivial
    exact fun _ _ _ _ h => h.mono fun _ _ => .inl
  | finalize request =>
    refine meets_bind.mpr ?_
    refine ((meets_finalize_mutation request).mono_calls ?_).mono fun _ _ _ => trivial
    exact fun _ _ _ _ h => h.mono fun _ _ hstep => .inr hstep.1

/-- A record is `Finalized` only if it was before, or awaited it with the same digest and
identity. -/
theorem JournalStep.finalized (h : JournalStep AllowedStep journals journals')
    (hrecord : journals' id = some record) (hphase : record.phase = .Finalized) :
    journals id = some record ∨ ∃ previous, journals id = some previous ∧
      previous.phase = .AwaitingFinalize ∧ record.plan_digest = previous.plan_digest ∧
      record.identity = previous.identity := by
  have hid := h id
  rw [hrecord] at hid
  generalize hbefore : journals id = before at hid ⊢
  cases hid with
  | same => exact .inl rfl
  | created _ hprepared =>
    rw [hprepared] at hphase
    cases hphase
  | @succeeded previous _ hnext =>
    refine .inr ⟨previous, rfl, ?_, hnext.plan_digest, hnext.identity⟩
    have hedge := hnext.edge
    unfold AllowedStep at hedge
    rw [hphase] at hedge
    rcases hedge with hexecute | hfinalize
    · exact absurd (ExecuteEdge.is_active hexecute) (by decide)
    · generalize previous.phase = phase at hfinalize ⊢
      cases hfinalize
      rfl

/-- Over every sequence of mutations and finalizations, cut short anywhere and with any answers from
the ports: a plan is handed to the worktree only under a durable record with its digest in
`Applying`; every change of a journal is a step along an edge with the next revision; and a
journal is finalized only when it awaited it. A receipt is returned only when the record awaits
its finalization, and once the plan was handed over the journal is active, however it ends. -/
theorem journal_protocol (blake3 : Blake3) :
    (∀ (journals journals' : Journals) (trace : List (Event (PortCall U) _ Journals)),
      Attempts Behaves (UseCase.program blake3) journals trace journals' → ∀ e ∈ trace,
        (∀ plan, e.call = .apply_mutation plan → ApplyingRecord plan e.before) ∧
        JournalStep AllowedStep e.before e.after ∧
        ∀ id record, e.after id = some record → record.phase = .Finalized →
          e.before id = some record ∨ ∃ previous, e.before id = some previous ∧
            previous.phase = .AwaitingFinalize ∧ record.plan_digest = previous.plan_digest ∧
            record.identity = previous.identity) ∧
    (∀ (request : ExecuteMutationRequest U) (journals journals' : Journals)
      (trace : List (Event (PortCall U) _ Journals))
        (x : Option (EngineResult ExecuteMutationResult)),
      Exec Behaves journals (execute_mutation blake3 request).run trace journals' x →
        (∀ result, x = some (.ok result) → result.receipt.status = .Applied ∧
          result.receipt.journal_id.text = request.plan.plan_id ∧
          ∃ record, journals' result.receipt.journal_id = some record ∧
            record.phase = .AwaitingFinalize ∧ record.plan_digest = request.plan.digest ∧
            record.identity = request.plan.identity) ∧
        ((∃ e ∈ trace, e.call = .apply_mutation request.plan) →
          ∃ id, id.text = request.plan.plan_id ∧ Active id journals')) ∧
    (∀ (request : FinalizeMutationRequest) (journals journals' : Journals)
      (trace : List (Event (PortCall U) _ Journals))
      (x : Option (EngineResult FinalizeMutationResult)),
      Exec Behaves journals (finalize_mutation request).run trace journals' x →
        ∀ e ∈ trace, JournalStep (FinalizeStep request) e.before e.after) := by
  refine ⟨?_, ?_, ?_⟩
  · intro journals journals' trace hattempts e he
    obtain ⟨hstep, hplan⟩ := hattempts.forall_calls (meets_use_case blake3) e he
    exact ⟨hplan, hstep, fun id record => hstep.finalized⟩
  · intro request journals journals' trace x hexec
    obtain ⟨hcalls, hresult⟩ := (meets_execute_mutation blake3 request).exec hexec
    refine ⟨fun result hx => hresult _ hx result rfl, ?_⟩
    intro ⟨e, he, hcall⟩
    -- the record was in `Applying` then, and no later step hides it
    obtain ⟨id, record, hid, hrecord, hphase, -, -⟩ := (hcalls e he).2 _ hcall
    have hactive : Active id e.before := ⟨record, hrecord, by rw [hphase]; rfl⟩
    refine ⟨id, hid, hexec.keeps_of_mem ?_ he (hactive.step (hcalls e he).1)⟩
    intro e' he' h
    exact h.step (hcalls e' he').1
  · intro request journals journals' trace x hexec e he
    exact (((meets_finalize_mutation request).exec hexec).1 e he).1

def obliging_ports (journals : Journals) : (c : PortCall asciiTables) →
    EngineResult c.Value × Journals
  | .acquire identity => (.ok identity, journals)
  | .checkpoint _ => (.ok (), journals)
  | .check _ => (.ok (), journals)
  | .now_unix_ms => (.ok 7, journals)
  | .emit _ => (.ok (), journals)
  | .create journal => FileJournalStore.create .none journals journal
  | .load id => (FileJournalStore.load .none journals id, journals)
  | .compare_exchange revision journal =>
    FileJournalStore.compare_exchange .none journals revision journal
  | .apply_mutation _ => (.ok ⟨1, 0⟩, journals)

theorem obliging_ports_behave (journals : Journals) (c : PortCall asciiTables) :
    Behaves journals c (obliging_ports journals c).1 (obliging_ports journals c).2 := by
  cases c with
  | create journal => exact ⟨.none, rfl⟩
  | load id => exact ⟨rfl, .none, rfl⟩
  | compare_exchange revision journal => exact ⟨.none, rfl⟩
  | _ => rfl

def one_directory_plan : MutationPlan asciiTables :=
  let plan : MutationPlan asciiTables :=
    ⟨['p'], ⟨['t'], ['r'], ['w'], ['j'], ['v'], 1, 1⟩, ⟨7, digest_of_nat 0⟩,
      [.CreateDirectory (ascii_path "a" (by decide))], digest_of_nat 0⟩
  match plan.compute_canonical_digest poly_hash with
  | .ok digest => { plan with digest }
  | .error _ => plan

def one_directory_run :=
  (execute_mutation poly_hash ⟨one_directory_plan, []⟩).run.run_with obliging_ports
    (fun _ => none)

/-- The plan is applied under its record, and the receipt finds it awaiting its finalization. -/
theorem one_directory_journaled :
    (∃ e ∈ one_directory_run.1, e.call = .apply_mutation one_directory_plan ∧
        ApplyingRecord one_directory_plan e.before) ∧
      ∃ result, one_directory_run.2.2 = .ok result ∧
        ∃ record, one_directory_run.2.1 result.receipt.journal_id = some record ∧
          record.phase = .AwaitingFinalize := by
  have hexec : Exec Behaves (fun _ => none)
      (execute_mutation poly_hash ⟨one_directory_plan, []⟩).run one_directory_run.1
      one_directory_run.2.1 (some one_directory_run.2.2) := by
    unfold one_directory_run
    apply Prog.exec_run_with
    exact obliging_ports_behave
  have hcall : (one_directory_run.1.any fun e =>
      e.call = .apply_mutation one_directory_plan) = true := by
    decide +kernel
  have hresult : one_directory_run.2.2.isOk = true := by
    decide +kernel
  generalize one_directory_run = run at hexec hcall hresult ⊢
  obtain ⟨hattempts, hexecute, -⟩ := @journal_protocol asciiTables poly_hash
  obtain ⟨e, he, hcall⟩ := List.any_eq_true.mp hcall
  have hcall := of_decide_eq_true hcall
  obtain ⟨result, hresult⟩ := exists_ok_iff.mpr hresult
  obtain ⟨-, -, record, hrecord, hphase, -, -⟩ :=
    (hexecute _ _ _ _ _ hexec).1 result (congrArg some hresult)
  exact ⟨⟨e, he, hcall, (hattempts _ _ _ (attempts_of_execute hexec) e he).1 _ hcall⟩, result,
    hresult, record, hrecord,
    hphase⟩

end NeoEngram

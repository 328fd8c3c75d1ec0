import NeoEngram.Core.Concrete
import NeoEngram.Runtime.ObjectTransfer

/-! # Integrity of transfers

In every run of any number of transfers, objects are intact and are never
replaced, the staged file of a transfer is put together from its chunks one
after the other, and a copy of an object set stays within its ticket.
-/

namespace NeoEngram.Runtime

open Checks Effects Framing List Function VolumeCasBackend Volume Nat Option

/-! ## Jobs -/

/-- What a transfer can be asked to do. -/
inductive Job where
  | stage_write (backend : VolumeCasBackend) (expected : ObjectSpec) (offset : UInt64)
      (bytes : Bytes)
  | verify_and_publish (backend : VolumeCasBackend) (expected : ObjectSpec)
  | discard_staged (backend : VolumeCasBackend) (object_id : ObjectId)
  | copy_object (executor : ObjectSetTransferExecutor) (backend : VolumeCasBackend)
      (ticket : TransferTicket) (object : CommitObject)
  | copy_object_set (executor : ObjectSetTransferExecutor) (backend : VolumeCasBackend)
      (ticket : TransferTicket) (object_set : List CommitObject)

namespace Job

def operation (blake3 : Blake3) (i : Transfer) : Job → Program Unit
  | .stage_write backend expected offset bytes => do
    let _ ← backend.stage_write i.2 i.1 expected offset bytes
  | .verify_and_publish backend expected => do
    let _ ← backend.verify_and_publish blake3 i.2 i.1 expected
  | .discard_staged backend object_id => do
    let _ ← backend.discard_staged i.2 i.1 object_id
  | .copy_object executor backend ticket object => do
    let _ ← executor.copy_object backend blake3 ticket i.1 i.2 object
  | .copy_object_set executor backend ticket object_set => do
    let _ ← executor.copy_object_set backend blake3 ticket object_set i.1 i.2

def program (blake3 : Blake3) (i : Transfer) (job : Job) :
    Prog FileCall FileCall.Answer (Except EngineError Unit) :=
  (job.operation blake3 i).run

def Touches : Job → ObjectSpec → Prop
  | .stage_write _ expected _ _, spec => spec = expected
  | .verify_and_publish _ expected, spec => spec = expected
  | .discard_staged _ object_id, spec => spec.id = object_id
  | .copy_object _ _ ticket object, spec => spec = object.spec ∧ ticket.allows object.object_id
  | .copy_object_set _ _ ticket object_set, spec =>
    ∃ object ∈ object_set, spec = object.spec ∧ ticket.allows object.object_id

/-- The bytes that a job may ask for, and those that it may write. -/
def limit : Job → Nat
  | .stage_write _ _ _ bytes => bytes.length
  | .verify_and_publish _ _ => 0
  | .discard_staged _ _ => 0
  | .copy_object _ _ _ object => object.size.toNat
  | .copy_object_set _ _ ticket _ => ticket.max_bytes.toNat

theorem works (blake3 : Blake3) (i : Transfer) (job : Job) (w : World) :
    Works blake3 i ⟨job.Touches, w.pulled i + job.limit, w.written i + job.limit⟩
      (job.operation blake3 i) (fun _ _ => True) w := by
  cases job with
  | stage_write backend expected offset bytes =>
    have hw : Within i ⟨(· = expected), w.pulled i + bytes.length, w.written i + bytes.length⟩ w :=
      ⟨le_add_right _ _, le_add_right _ _⟩
    refine Works.seq (works_stage_write ?_ hw le_rfl) (by intros; trivial)
    exact rfl
  | verify_and_publish backend expected =>
    refine Works.seq (works_verify_and_publish ?_ ⟨le_rfl, le_rfl⟩) (by intros; trivial)
    exact rfl
  | discard_staged backend object_id =>
    have hdiscard : Works blake3 i
        ⟨(Job.discard_staged backend object_id).Touches, w.pulled i, w.written i⟩
        (backend.discard_staged i.2 i.1 (⟨object_id, 0⟩ : ObjectSpec).id)
        (fun _ w' => SameCounts i w w') w :=
      works_discard_staged rfl ⟨le_rfl, le_rfl⟩
    exact hdiscard.seq fun _ _ _ => trivial
  | copy_object executor backend ticket object =>
    refine Works.seq (works_copy_object (fun h => ⟨rfl, h⟩) ?_) fun _ _ _ => trivial
    have hle := sub_le object.size.toNat (stored (w.volume (i.staged object.object_id))).length
    exact ⟨Nat.add_le_add_left hle _, Nat.add_le_add_left hle _⟩
  | copy_object_set executor backend ticket object_set =>
    refine Works.seq (works_copy_objects (fun object hmem h => ⟨object, hmem, rfl, h⟩) ?_)
      fun _ _ _ => trivial
    exact ⟨Nat.add_le_add_left (Nat.sub_le _ _) _, Nat.add_le_add_left (Nat.sub_le _ _) _⟩

end Job

/-! ## What a call does -/

theorem Transfer.staged_injective {i k : Transfer} {id id' : ObjectId}
    (h : i.staged id = k.staged id') : i = k ∧ id = id' := by
  simp only [Transfer.staged, staged_object_path,
    transfer_staging_path, staging_root, cons_append,
    nil_append, List.cons.injEq, append_cancel_right_eq, String.toList_inj, true_and,
    and_true] at h
  obtain ⟨htenant, htransfer, hhex⟩ := h
  have hdigest := ContentDigest.to_hex_injective hhex
  refine ⟨Prod.ext (ResourceId.as_str_injective htenant) (ResourceId.as_str_injective htransfer),
    ?_⟩
  cases id
  cases id'
  cases hdigest
  rfl

/-- The last component of the path of an object is its name. -/
theorem VolumeCasBackend.object_path_injective {backend backend' : VolumeCasBackend}
    {tenant_id tenant_id' : TenantId} {id id' : ObjectId}
    (h : backend.object_path tenant_id id = backend'.object_path tenant_id' id') : id = id' := by
  have hlast := append_inj_right' h rfl
  simp only [List.cons.injEq, and_true, String.toList_inj] at hlast
  have hdigest := ContentDigest.to_hex_injective hlast
  cases id
  cases id'
  cases hdigest
  rfl

theorem Transfer.staged_ne_object_path (i : Transfer) (id id' : ObjectId)
    (backend : VolumeCasBackend) (tenant_id : TenantId) :
    i.staged id ≠ backend.object_path tenant_id id' := by
  intro h
  have hhead : (i.staged id).head? = (backend.object_path tenant_id id').head? := by rw [h]
  have hstaged : (i.staged id).head? = some STAGING_DIRECTORY := rfl
  rw [hstaged] at hhead
  obtain ⟨scope⟩ := backend
  cases scope with
  | none =>
    have hname : some STAGING_DIRECTORY = some OBJECTS_DIRECTORY := hhead
    exact absurd (some.inj hname) (by decide)
  | some scope =>
    have hname : some STAGING_DIRECTORY = some "tenants".toList := hhead
    exact absurd (some.inj hname) (by decide)

def FileCall.acknowledged : (c : FileCall) → c.Answer → Bool
  | .write_all _ _ _, r => r.isOk
  | _, _ => true

variable {c : FileCall}

section

variable {blake3 : Blake3} {i : Transfer} {touches : ObjectSpec → Prop}

/-- The five things that a proper call can do to the volume. -/
inductive Change (blake3 : Blake3) (i : Transfer) (touches : ObjectSpec → Prop) (v : Volume)
    (c : FileCall) (r : c.Answer) (v' : Volume) : Prop
  | same (hc : ∀ path offset bytes, c ≠ .write_all path offset bytes) (hv : v' = v)
  | created (expected : ObjectSpec) (htouches : touches expected)
      (hc : ∀ path offset bytes, c ≠ .write_all path offset bytes)
      (habsent : v (i.staged expected.id) = none) (hv : v' = v.put (i.staged expected.id) .empty)
  | appended (expected : ObjectSpec) (content content' : FileContent) (offset : UInt64)
      (bytes written : Bytes) (htouches : touches expected)
      (hc : c = .write_all (i.staged expected.id) offset bytes)
      (hcontent : v (i.staged expected.id) = some (.file content))
      (hoffset : offset.toNat = content.bytes.length)
      (hsize : offset.toNat + bytes.length ≤ expected.size.toNat) (hwritten : written <+: bytes)
      (hwhole : c.acknowledged r → written = bytes)
      (hcontent' : content'.bytes = content.bytes ++ written)
      (hv : v' = v.put (i.staged expected.id) content')
  | removed (expected : ObjectSpec) (htouches : touches expected)
      (hc : c = .remove_file (i.staged expected.id)) (hv : v' = v.erase (i.staged expected.id))
  | published (backend : VolumeCasBackend) (expected : ObjectSpec) (content : FileContent)
      (htouches : touches expected) (hc : ∀ path offset bytes, c ≠ .write_all path offset bytes)
      (habsent : v (backend.object_path i.1 expected.id) = none)
      (hsize : content.bytes.length = expected.size.toNat)
      (hdigest : (⟨blake3 content.bytes⟩ : ObjectId) = expected.id)
      (hv : v' = v.put (backend.object_path i.1 expected.id) content)

theorem change_of_takes {v v' effect : Volume} {r : IoResult Unit}
    {answer : c.Answer} (h : Volume.Takes v v' effect r)
    (hc : ∀ path offset bytes, c ≠ .write_all path offset bytes)
    (heffect : v' = effect → Change blake3 i touches v c answer v') :
    Change blake3 i touches v c answer v' := by
  cases r with
  | ok _ => exact heffect h
  | error _ =>
    rcases h with hsame | heff
    · exact .same hc hsame
    · exact heffect heff

theorem Proper.change {v v' : Volume} {r : c.Answer} (h : v.Answers c r v')
    (hproper : Proper blake3 i touches v c) : Change blake3 i touches v c r v' := by
  cases c with
  | create path =>
    obtain ⟨expected, htouches, rfl, habsent⟩ := hproper
    exact change_of_takes h (by simp) (.created expected htouches (by simp) habsent)
  | open_for_writing path =>
    obtain ⟨expected, htouches, rfl⟩ := hproper
    cases hentry : v (i.staged expected.id) with
    | none =>
      simp only [Volume.Answers, hentry] at h
      exact change_of_takes h (by simp) (.created expected htouches (by simp) hentry)
    | some entry =>
      refine .same (by simp) ?_
      cases entry <;> simp only [Volume.Answers, hentry] at h
      · exact h
      · exact h.1
      · exact h.1
  | write_all path offset bytes =>
    obtain ⟨expected, content, htouches, rfl, hcontent, hoffset, hsize⟩ := hproper
    simp only [Volume.Answers, hcontent] at h
    rcases h with ⟨hsame, hfailed⟩ | ⟨written, content', hwritten, hwhole, hcontent', hv⟩
    · -- nothing was written
      refine .appended expected content content offset bytes [] htouches rfl hcontent hoffset
        hsize nil_prefix (fun hok => ?_) (append_nil _).symm ?_
      · cases r with
        | ok _ => exact absurd rfl hfailed
        | error _ => cases hok
      · rw [hsame, put, ← hcontent, update_eq_self]
    · rw [hoffset, overwrite_length] at hcontent'
      refine .appended expected content content' offset bytes written htouches rfl hcontent
        hoffset hsize hwritten (fun hok => hwhole ?_) hcontent' hv
      cases r with
      | ok _ => rfl
      | error _ => cases hok
  | persist_noclobber path bytes =>
    obtain ⟨backend, expected, htouches, rfl, hsize, hdigest⟩ := hproper
    cases hentry : v (backend.object_path i.1 expected.id) with
    | none =>
      simp only [Volume.Answers, hentry] at h
      rcases h.2 with hsame | ⟨content, rfl, hv⟩
      · exact .same (by simp) hsame.1
      · exact .published backend expected content htouches (by simp) hentry hsize hdigest hv
    | some entry =>
      simp only [Volume.Answers, hentry] at h
      exact .same (by simp) h.1
  | remove_file path =>
    obtain ⟨expected, htouches, rfl⟩ := hproper
    exact change_of_takes h (by simp) (.removed expected htouches rfl)
  | open_object => exact .same (by simp) h
  | symlink_metadata | opened | open_for_reading | read_to_end => exact .same (by simp) h.1
  | now | verify_identity | ensure_directory_tree | ensure_directory | ensure_existing_directory
  | sync_directory | sync_all | same_file | seek | sync_data | create_temporary | write_temporary
  | sync_temporary => exact .same (by simp) h

end

/-! ## The discipline -/

section

variable (blake3 : Blake3)

/-- The entry is an ordinary file with the content that its name stands for. -/
def IntactAt (object_id : ObjectId) (entry : Entry) : Prop :=
  ∃ content, entry = .file content ∧ (⟨blake3 content.bytes⟩ : ObjectId) = object_id

/-- Every visible object is intact. -/
def Intact (v : Volume) : Prop :=
  ∀ backend tenant_id object_id entry,
    v (VolumeCasBackend.object_path backend tenant_id object_id) = some entry →
      IntactAt blake3 object_id entry

/-- What else happens to the volume: objects are collected, and other writers add intact ones. -/
structure Outside (w w' : World) : Prop where
  staged : ∀ i object_id, w'.volume (Transfer.staged i object_id) =
    w.volume (Transfer.staged i object_id)
  objects : ∀ backend tenant_id object_id,
    let path := VolumeCasBackend.object_path backend tenant_id object_id
    w'.volume path = w.volume path ∨ w'.volume path = none ∨
      (w.volume path = none ∧ ∃ entry, w'.volume path = some entry ∧
        IntactAt blake3 object_id entry)
  pulled : w'.pulled = w.pulled
  written : w'.written = w.written

end

section

variable {blake3 : Blake3} {i : Transfer} {touches : ObjectSpec → Prop} {v v' : Volume}
  {r : c.Answer}

theorem Volume.put_staged_object {v : Volume} {object_id object_id' : ObjectId}
    {content : FileContent} {backend : VolumeCasBackend} {tenant_id : TenantId} :
    v.put (i.staged object_id) content (backend.object_path tenant_id object_id') =
      v (backend.object_path tenant_id object_id') :=
  update_of_ne (i.staged_ne_object_path _ _ _ _).symm _ _

/-- **Step**: an object is left alone by a proper call, or it is new and is published by it. -/
theorem Change.object
    (h : Change blake3 i touches v c r v') (backend : VolumeCasBackend) (tenant_id : TenantId)
    (object_id : ObjectId) :
    v' (backend.object_path tenant_id object_id) = v (backend.object_path tenant_id object_id) ∨
      (v (backend.object_path tenant_id object_id) = none ∧
        ∃ expected content, touches expected ∧ expected.id = object_id ∧
          v' (backend.object_path tenant_id object_id) = some (.file content) ∧
          content.bytes.length = expected.size.toNat ∧
          (⟨blake3 content.bytes⟩ : ObjectId) = object_id) := by
  cases h with
  | same _ hv => exact .inl (by rw [hv])
  | created expected _ _ _ hv => exact .inl (by rw [hv, put_staged_object])
  | appended expected content content' offset bytes written _ _ _ _ _ _ _ _ hv =>
    exact .inl (by rw [hv, put_staged_object])
  | removed expected _ _ hv =>
    refine .inl ?_
    rw [hv]
    exact update_of_ne (i.staged_ne_object_path _ _ _ _).symm _ _
  | published backend' expected content htouches _ habsent hsize hdigest hv =>
    by_cases hpath : backend.object_path tenant_id object_id = backend'.object_path i.1 expected.id
    · -- the path of the new object
      have hid := object_path_injective hpath
      refine .inr ⟨by rw [hpath, habsent], expected, content, htouches, hid.symm, ?_, hsize, ?_⟩
      · rw [hv, hpath, put, update_self]
      · rw [hdigest, hid]
    · refine .inl ?_
      rw [hv]
      exact update_of_ne hpath _ _

theorem Change.intact
    (h : Change blake3 i touches v c r v') (hintact : Intact blake3 v) : Intact blake3 v' := by
  intro backend tenant_id object_id entry hentry
  rcases h.object backend tenant_id object_id with hsame | ⟨-, expected, content, -, -, hnew, -,
    hdigest⟩
  · exact hintact backend tenant_id object_id entry (hsame ▸ hentry)
  · rw [hnew] at hentry
    exact ⟨content, (some.inj hentry).symm, hdigest⟩

/-- **Step**: a staged file is left alone by the proper calls of another transfer. -/
theorem Change.staged_other
    (h : Change blake3 i touches v c r v') {k : Transfer} (hk : k ≠ i) (object_id : ObjectId) :
    v' (k.staged object_id) = v (k.staged object_id) := by
  have hne : ∀ id, k.staged object_id ≠ i.staged id :=
    fun id hpath => hk (Transfer.staged_injective hpath).1
  cases h with
  | same _ hv => rw [hv]
  | created expected _ _ _ hv =>
    rw [hv]
    exact update_of_ne (hne _) _ _
  | appended expected content content' offset bytes written _ _ _ _ _ _ _ _ hv =>
    rw [hv]
    exact update_of_ne (hne _) _ _
  | removed expected _ _ hv =>
    rw [hv]
    exact update_of_ne (hne _) _ _
  | published backend expected content _ _ _ _ _ hv =>
    rw [hv]
    exact update_of_ne (k.staged_ne_object_path _ _ _ _) _ _

theorem Outside.intact {w w' : World} (h : Outside blake3 w w') (hintact : Intact blake3 w.volume) :
    Intact blake3 w'.volume := by
  intro backend tenant_id object_id entry hentry
  rcases h.objects backend tenant_id object_id with hsame | hgone | ⟨-, entry', hnew, hintact'⟩
  · exact hintact backend tenant_id object_id entry (hsame ▸ hentry)
  · rw [hgone] at hentry
    cases hentry
  · rw [hnew] at hentry
    exact some.inj hentry ▸ hintact'

/-- The obligation of a job that was begun in the world `start`. -/
def Obligation (blake3 : Blake3) (i : Transfer) (job : Job) (start : World) :
    CallProp FileCall FileCall.Answer World :=
  Duty blake3 i ⟨job.Touches, start.pulled i + job.limit, start.written i + job.limit⟩

/-- **The discipline of transfers**: each relies on its own staged files only. -/
theorem discipline (blake3 : Blake3) :
    Pool.Discipline calls (fun i job => Job.program blake3 i job) (Outside blake3)
      (fun w => Intact blake3 w.volume) Rely (Obligation blake3) (fun _ _ _ _ _ => True) where
  refl := Rely.refl
  trans := fun _ _ _ _ => Rely.trans
  meets := fun i job w _ => Meets.mono (Job.works blake3 i job w) fun _ _ _ => trivial
  keeps := fun _ _ _ _ _ _ _ hintact hanswer hduty => (hduty.1.change hanswer.1).intact hintact
  apart := by
    intro i k hk job start w c r w' _ hanswer hduty
    have hchange := hduty.1.change hanswer.1
    obtain ⟨-, hpulled, hwritten⟩ := hanswer
    refine ⟨fun object_id => hchange.staged_other (Ne.symm hk) object_id, ?_, ?_⟩
    · rw [hpulled, update_of_ne (Ne.symm hk)]
    · rw [hwritten, update_of_ne (Ne.symm hk)]
  outside_keeps := fun _ _ hintact houtside => houtside.intact hintact
  outside_apart := fun i _ _ _ houtside =>
    ⟨houtside.staged i, by rw [houtside.pulled], by rw [houtside.written]⟩

end

/-! ## Staged files -/

/-- A chunk handed to the volume: where, whether acknowledged, and what of it reached the file. -/
structure Piece where
  offset : Nat
  chunk : Bytes
  acknowledged : Bool
  written : Bytes

/-- A file of pieces, each of which starts where the file ends; an acknowledged one is the whole
chunk, another one the first bytes of it. -/
inductive Assembled : List Piece → Bytes → Prop
  | nil : Assembled [] []
  | append {pieces : List Piece} {bytes : Bytes} (piece : Piece) (hpieces : Assembled pieces bytes)
      (hoffset : piece.offset = bytes.length) (hwritten : piece.written <+: piece.chunk)
      (hwhole : piece.acknowledged → piece.written = piece.chunk) :
      Assembled (pieces ++ [piece]) (bytes ++ piece.written)

abbrev TransferCall := PoolCall Transfer FileCall FileCall.Answer World Job

/-- The pieces of a file after one call more. They start anew when the file is removed. -/
def track (path : Location) (pieces : List Piece) (e : TransferCall) : List Piece :=
  match e.event.call with
  | .write_all path' offset bytes =>
    if path' = path then
      pieces ++ [⟨offset.toNat, bytes, e.event.call.acknowledged e.event.answer,
        (stored (e.event.after.volume path)).drop offset.toNat⟩]
    else pieces
  | .remove_file path' =>
    if path' = path ∧ (e.event.after.volume path).isNone then [] else pieces
  | _ => pieces

def pieces (path : Location) (log : List TransferCall) : List Piece := log.foldl (track path) []

/-- The staged file is assembled from its pieces; if there is no file, there are no pieces. -/
structure StagedFrom (log : List TransferCall) (w : World) (path : Location) : Prop where
  assembled : Assembled (pieces path log) (stored (w.volume path))
  absent : w.volume path = none → pieces path log = []

variable {e : TransferCall} {path : Location}

theorem pieces_concat (path : Location) (log : List TransferCall) (e : TransferCall) :
    pieces path (log ++ [e]) = track path (pieces path log) e := by
  simp [pieces]

variable {ps : List Piece}

/-- A call that is not a write to the file, and does not remove it, adds no piece. -/
theorem track_eq (hwrite : ∀ offset bytes, e.event.call ≠ .write_all path offset bytes)
    (hremove : e.event.call = .remove_file path → e.event.after.volume path = none → ps = []) :
    track path ps e = ps := by
  unfold track
  split
  · next path' offset bytes hcall =>
    rw [if_neg]
    rintro rfl
    exact hwrite offset bytes hcall
  · next path' hcall =>
    split
    · next h =>
      obtain ⟨rfl, hnone⟩ := h
      exact (hremove hcall (isNone_iff_eq_none.mp hnone)).symm
    · rfl
  · rfl

theorem track_write {offset : UInt64} {bytes : Bytes}
    (hc : e.event.call = .write_all path offset bytes) :
    track path ps e = ps ++ [⟨offset.toNat, bytes, e.event.call.acknowledged e.event.answer,
      (stored (e.event.after.volume path)).drop offset.toNat⟩] := by
  unfold track
  split
  · next hcall =>
    cases hc.symm.trans hcall
    exact if_pos rfl
  · next hcall => cases hc.symm.trans hcall
  · next hwrite _ => exact absurd hc (hwrite _ _ _)

theorem track_remove (hc : e.event.call = .remove_file path)
    (hgone : e.event.after.volume path = none) : track path ps e = [] := by
  unfold track
  split
  · next hcall => cases hc.symm.trans hcall
  · next hcall =>
    cases hc.symm.trans hcall
    exact if_pos ⟨rfl, by rw [hgone]; rfl⟩
  · next hcall => exact absurd hc (hcall _)

theorem StagedFrom.frame {log : List TransferCall} (h : StagedFrom log e.event.before path)
    (hwrite : ∀ offset bytes, e.event.call ≠ .write_all path offset bytes)
    (hsame : e.event.after.volume path = e.event.before.volume path) :
    StagedFrom (log ++ [e]) e.event.after path := by
  have htrack : pieces path (log ++ [e]) = pieces path log := by
    rw [pieces_concat]
    exact track_eq hwrite fun _ hnone => h.absent (hsame ▸ hnone)
  exact ⟨by rw [htrack, hsame]; exact h.assembled, by rw [htrack, hsame]; exact h.absent⟩

/-- **Step**: a proper call keeps every staged file assembled. -/
theorem StagedFrom.step {blake3 : Blake3} {touches : ObjectSpec → Prop} {log : List TransferCall}
    (hchange : Change blake3 e.worker touches e.event.before.volume e.event.call e.event.answer
      e.event.after.volume)
    {k : Transfer} {object_id : ObjectId} (h : StagedFrom log e.event.before (k.staged object_id)) :
    StagedFrom (log ++ [e]) e.event.after (k.staged object_id) := by
  cases hchange with
  | same hc hv => exact h.frame (hc _) (by rw [hv])
  | created expected _ hc habsent hv =>
    by_cases hpath : k.staged object_id = e.worker.staged expected.id
    · -- a new file has no bytes and no pieces
      rw [hpath] at h ⊢
      have hnew : e.event.after.volume (e.worker.staged expected.id) = some (.file .empty) := by
        rw [hv, put, update_self]
      have hpieces : pieces (e.worker.staged expected.id) (log ++ [e]) = [] := by
        rw [pieces_concat, h.absent habsent]
        exact track_eq (hc _) fun _ _ => rfl
      exact ⟨by rw [hpieces, hnew]; exact .nil, fun _ => hpieces⟩
    · refine h.frame (hc _) ?_
      rw [hv]
      exact update_of_ne hpath _ _
  | appended expected content content' offset bytes written _ hc hcontent hoffset _ hwritten hwhole
      hcontent' hv =>
    by_cases hpath : k.staged object_id = e.worker.staged expected.id
    · -- the write starts at the end of the file, so it adds one piece
      rw [hpath] at h ⊢
      have hafter : e.event.after.volume (e.worker.staged expected.id) = some (.file content') := by
        rw [hv, put, update_self]
      have hstored : stored (e.event.after.volume (e.worker.staged expected.id)) =
          content.bytes ++ written := by
        rw [hafter]
        exact hcontent'
      have hpieces : pieces (e.worker.staged expected.id) (log ++ [e]) =
          pieces (e.worker.staged expected.id) log ++
            [⟨offset.toNat, bytes, e.event.call.acknowledged e.event.answer, written⟩] := by
        rw [pieces_concat, track_write hc, hstored, hoffset, drop_left]
      have hassembled := h.assembled
      rw [hcontent] at hassembled
      refine ⟨?_, fun hnone => absurd hnone (by simp [hafter])⟩
      rw [hpieces, hstored]
      exact .append _ hassembled hoffset hwritten hwhole
    · refine h.frame ?_ ?_
      · intro offset' bytes' hcall
        rw [hc] at hcall
        exact hpath (FileCall.write_all.inj hcall).1.symm
      · rw [hv]
        exact update_of_ne hpath _ _
  | removed expected _ hc hv =>
    have hwrite : ∀ path offset bytes, e.event.call ≠ .write_all path offset bytes := by
      intro path offset bytes hcall
      rw [hc] at hcall
      cases hcall
    by_cases hpath : k.staged object_id = e.worker.staged expected.id
    · rw [hpath] at h ⊢
      have hgone : e.event.after.volume (e.worker.staged expected.id) = none := by
        rw [hv, erase, update_self]
      have hpieces : pieces (e.worker.staged expected.id) (log ++ [e]) = [] := by
        rw [pieces_concat, track_remove hc hgone]
      exact ⟨by rw [hpieces, hgone]; exact .nil, fun _ => hpieces⟩
    · refine h.frame (hwrite _) ?_
      rw [hv]
      exact update_of_ne hpath _ _
  | published backend expected content _ hc _ _ _ hv =>
    -- the object is stored under another path than any staged file
    refine h.frame (hc _) ?_
    rw [hv]
    exact update_of_ne (k.staged_ne_object_path _ _ _ _) _ _

/-! ## Every run -/

/-- A run of any number of transfers, from a volume whose objects are intact and on which nothing
is staged. -/
structure TransferRun (blake3 : Blake3) (w : World) (log : List TransferCall) (w' : World) :
    Prop where
  intact : Intact blake3 w.volume
  unstaged : ∀ i object_id, w.volume (Transfer.staged i object_id) = none
  run : ∃ pool', Pool.Run calls (fun i job => Job.program blake3 i job) (Outside blake3)
    (Pool.idle w) log pool' ∧ pool'.state = w'

namespace TransferRun

variable {blake3 : Blake3} {w w' : World} {log : List TransferCall}

theorem intact_after (h : TransferRun blake3 w log w') : Intact blake3 w'.volume := by
  obtain ⟨pool', hrun, rfl⟩ := h.run
  exact ((discipline blake3).run hrun h.intact (Pool.sound_idle w)).1

/-- What every call of the run has to do, and what it does. -/
theorem call (h : TransferRun blake3 w log w') (he : e ∈ log) :
    Obligation blake3 e.worker e.job e.start e.event.before e.event.call e.event.answer
        e.event.after ∧
      Change blake3 e.worker e.job.Touches e.event.before.volume e.event.call e.event.answer
        e.event.after.volume := by
  obtain ⟨pool', hrun, rfl⟩ := h.run
  refine (discipline blake3).history (P := fun log _ => ∀ e ∈ log,
    Obligation blake3 e.worker e.job e.start e.event.before e.event.call e.event.answer
        e.event.after ∧
      Change blake3 e.worker e.job.Touches e.event.before.volume e.event.call e.event.answer
        e.event.after.volume) ?_ ?_ hrun h.intact (Pool.sound_idle w) ?_ e he
  · intro log e _ hanswer hobeys hlog e' he'
    rcases mem_append.mp he' with hmem | hmem
    · exact hlog e' hmem
    · obtain rfl := mem_singleton.mp hmem
      exact ⟨hobeys, hobeys.1.change hanswer.1⟩
  · intro log _ _ _ _ hlog
    exact hlog
  · simp

theorem staged_from (h : TransferRun blake3 w log w') (i : Transfer) (object_id : ObjectId) :
    StagedFrom log w' (i.staged object_id) := by
  obtain ⟨pool', hrun, rfl⟩ := h.run
  refine (discipline blake3).history (P := fun log w => StagedFrom log w (i.staged object_id))
    ?_ ?_ hrun h.intact (Pool.sound_idle w) ?_
  · intro log e _ hanswer hobeys hstaged
    exact hstaged.step (hobeys.1.change hanswer.1)
  · intro log w w' _ houtside hstaged
    have hsame := houtside.staged i object_id
    exact ⟨by rw [hsame]; exact hstaged.assembled, by rw [hsame]; exact hstaged.absent⟩
  · have hnone : w.volume (i.staged object_id) = none := h.unstaged i object_id
    exact ⟨by show Assembled [] (stored (w.volume _)); rw [hnone]; exact .nil, fun _ => rfl⟩

end TransferRun

/-- A volume that answers in one way, with the counts of transfer `i`. -/
def World.answer (answer : Volume → (c : FileCall) → c.Answer × Volume) (i : Transfer) (w : World)
    (c : FileCall) : c.Answer × World :=
  ((answer w.volume c).1, ⟨(answer w.volume c).2, update w.pulled i (w.pulled i + c.pulls),
    update w.written i (w.written i + c.writes)⟩)

theorem calls_answer {answer : Volume → (c : FileCall) → c.Answer × Volume}
    (h : ∀ v c, Volume.Answers v c (answer v c).1 (answer v c).2) (i : Transfer) (w : World)
    (c : FileCall) : calls i w c (w.answer answer i c).1 (w.answer answer i c).2 :=
  ⟨h _ _, rfl, rfl⟩

theorem TransferRun.of_job {blake3 : Blake3} {w : World} (hintact : Intact blake3 w.volume)
    (hunstaged : ∀ i object_id, w.volume (Transfer.staged i object_id) = none)
    {answer : Volume → (c : FileCall) → c.Answer × Volume}
    (hanswer : ∀ v c, Volume.Answers v c (answer v c).1 (answer v c).2) (i : Transfer) (job : Job) :
    TransferRun blake3 w
      (((job.program blake3 i).run_with (fun w c => w.answer answer i c) w).1.map fun e =>
        ⟨i, job, w, e⟩)
      ((job.program blake3 i).run_with (fun w c => w.answer answer i c) w).2.1 where
  intact := hintact
  unstaged := hunstaged
  run := Pool.run_alone (Prog.exec_run_with (calls_answer hanswer i) _ w)

/-- **Integrity of transfers.** In every run of transfers, with sources that answer what they
like, calls that fail at any point and workers that are killed at any point:

- every visible object has the content that its name stands for
- a call leaves an object alone, or publishes one that was absent, with the size that was
  expected
- every staged file is put together from its chunks, each of which starts where the file ends;
  of a chunk whose write was not acknowledged there may be the first bytes only
- a copy of an object set asks for no more bytes than its ticket allows, writes no more, and
  works on no object that the ticket does not allow -/
theorem transfer_integrity {blake3 : Blake3} {w w' : World} {log : List TransferCall}
    (h : TransferRun blake3 w log w') :
    Intact blake3 w'.volume ∧
      (∀ e ∈ log, ∀ backend tenant_id object_id,
        let path := VolumeCasBackend.object_path backend tenant_id object_id
        e.event.after.volume path = e.event.before.volume path ∨
          (e.event.before.volume path = none ∧ ∃ expected content, e.job.Touches expected ∧
            expected.id = object_id ∧ e.event.after.volume path = some (.file content) ∧
            content.bytes.length = expected.size.toNat ∧
            (⟨blake3 content.bytes⟩ : ObjectId) = object_id)) ∧
      (∀ i object_id, Assembled (pieces (Transfer.staged i object_id) log)
        (stored (w'.volume (Transfer.staged i object_id)))) ∧
      (∀ e ∈ log, ∀ executor backend ticket object_set,
        e.job = .copy_object_set executor backend ticket object_set →
          e.event.after.pulled e.worker ≤ e.start.pulled e.worker + ticket.max_bytes.toNat ∧
          e.event.after.written e.worker ≤ e.start.written e.worker + ticket.max_bytes.toNat ∧
          Proper blake3 e.worker (fun expected => ∃ object ∈ object_set,
            expected = object.spec ∧ ticket.allows object.object_id) e.event.before.volume
            e.event.call) := by
  refine ⟨h.intact_after, ?_, fun i object_id => (h.staged_from i object_id).assembled, ?_⟩
  · intro e he backend tenant_id object_id
    exact (h.call he).2.object backend tenant_id object_id
  · intro e he executor backend ticket object_set hjob
    have hduty := (h.call he).1
    unfold Obligation at hduty
    rw [hjob] at hduty
    exact ⟨hduty.2.1, hduty.2.2, hduty.1⟩

def sample_transfer : Transfer := (.named "tenant-a" (by decide), .named "transfer-a" (by decide))

def sample_bytes : Bytes := [1, 2]

def sample_object : CommitObject := ⟨⟨poly_hash sample_bytes⟩, 2⟩

def sample_endpoint : TransferEndpoint :=
  ⟨.named "placement" (by decide), .named "agent" (by decide), .named "pool" (by decide),
    .named "edge" (by decide)⟩

def sample_ticket : TransferTicket where
  transfer_id := sample_transfer.2
  tenant_id := sample_transfer.1
  source := sample_endpoint
  target := sample_endpoint
  source_session_generation := 1
  source_mount_generation := 1
  source_route_generation := 1
  session_generation := 1
  mount_generation := 1
  route_generation := 1
  deadline_unix_ms := 10
  max_bytes := 2
  allowed_objects := [sample_object.object_id]

def sample_executor : ObjectSetTransferExecutor := ⟨1, by decide, by decide⟩

def sample_backend : VolumeCasBackend := ⟨none⟩

def sample_world : World := ⟨fun _ => none, fun _ => 0, fun _ => 0⟩

theorem sample_intact : Intact poly_hash sample_world.volume := by
  intro backend tenant_id object_id entry h
  simp [sample_world] at h

def sample_copy : Job :=
  .copy_object_set sample_executor sample_backend sample_ticket [sample_object]

def sample_run :=
  (sample_copy.program poly_hash sample_transfer).run_with
    (fun w c => w.answer (fun v c => v.serve sample_bytes 0 c) sample_transfer c) sample_world

theorem sample_transfer_run : TransferRun poly_hash sample_world
      (sample_run.1.map fun e => ⟨sample_transfer, sample_copy, sample_world, e⟩) sample_run.2.1 :=
  .of_job sample_intact (fun _ _ => rfl) (fun v c => v.answers_serve _ _ c) _ _

theorem transfer_integrity_sample :
    stored (sample_run.2.1.volume
        (sample_backend.object_path sample_transfer.1 sample_object.object_id)) = sample_bytes ∧
      sample_run.2.1.pulled sample_transfer = 2 ∧ Intact poly_hash sample_run.2.1.volume :=
  ⟨by decide +kernel, by decide +kernel, (transfer_integrity sample_transfer_run).1⟩

/-- A volume on which every write breaks off after its first byte. -/
def Volume.break_off (v : Volume) : (c : FileCall) → c.Answer × Volume
  | .write_all path offset chunk =>
    match v path with
    | some (.file content) =>
      if h : (overwrite content.bytes offset.toNat (chunk.take 1)).length < 2 ^ 64 then
        (.error .Other, v.put path ⟨_, h⟩)
      else (.error .Other, v)
    | _ => (.error .Other, v)
  | c => v.serve [] 0 c

theorem Volume.answers_break_off (v : Volume) (c : FileCall) :
    v.Answers c (v.break_off c).1 (v.break_off c).2 := by
  cases c with
  | write_all path offset chunk =>
    cases hentry : v path with
    | none => simp [Answers, break_off, hentry]
    | some e =>
      cases e with
      | file content =>
        simp only [Answers, break_off, hentry]
        split
        · exact .inr ⟨chunk.take 1, _, take_prefix _ _, by simp, rfl, rfl⟩
        · exact .inl ⟨rfl, by simp⟩
      | symlink => simp [Answers, break_off, hentry]
      | other => simp [Answers, break_off, hentry]
  | _ => exact v.answers_serve [] 0 _

def sample_write : Job := .stage_write sample_backend sample_object.spec 0 sample_bytes

def broken_run :=
  (sample_write.program poly_hash sample_transfer).run_with
    (fun w c => w.answer (fun v c => v.break_off c) sample_transfer c) sample_world

/-- The operation has failed and no write was acknowledged, but the staged file has the first byte
of the chunk. -/
theorem staged_part_of_chunk : ∃ log w', TransferRun poly_hash sample_world log w' ∧
      broken_run.2.2.isOk = false ∧ w' = broken_run.2.1 ∧
      (pieces (sample_transfer.staged sample_object.object_id) log).all (fun piece =>
        !piece.acknowledged) ∧
      stored (w'.volume (sample_transfer.staged sample_object.object_id)) = [1] :=
  ⟨_, broken_run.2.1, .of_job sample_intact (fun _ _ => rfl)
    (fun v c => v.answers_break_off c) sample_transfer sample_write, by decide +kernel, rfl,
    by decide +kernel, by decide +kernel⟩

end NeoEngram.Runtime

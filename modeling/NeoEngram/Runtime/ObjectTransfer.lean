import NeoEngram.Framework.Interleaving
import NeoEngram.Runtime.ObjectBackend

/-! # Transfers side by side

Any number of transfers work on one volume. Each runs backend operations, whole
copies or single steps of them, and can be killed at any point; every call can
fail, and a failing write leaves a part of its bytes. Sources answer what they
like.
-/

namespace NeoEngram.Runtime

open Checks Effects Framing List Function VolumeCasBackend ObjectSetTransferExecutor UInt64

/-! ## The volume -/

abbrev Volume := Location → Option Entry

/-- A write at an offset. A gap before it is filled with zeros. -/
def overwrite (old : Bytes) (offset : Nat) (chunk : Bytes) : Bytes :=
  (old ++ List.replicate (offset - old.length) 0).take offset ++ chunk ++
    old.drop (offset + chunk.length)

@[simp] theorem overwrite_length (old chunk : Bytes) :
    overwrite old old.length chunk = old ++ chunk := by
  simp [overwrite, drop_eq_nil_of_le]

namespace Volume

def put (v : Volume) (path : Location) (content : FileContent) : Volume :=
  update v path (some (.file content))

def erase (v : Volume) (path : Location) : Volume := update v path none

/-- What an inspection of a path may answer. -/
def Describes (entry : Option Entry) : IoResult Metadata → Prop
  | .ok metadata => ∃ e, entry = some e ∧ metadata = e.metadata
  | .error .NotFound => entry = none
  | .error _ => True

/-- A call that takes effect if it succeeds, and may have taken effect if it fails. -/
def Takes (v v' effect : Volume) : IoResult Unit → Prop
  | .ok () => v' = effect
  | .error _ => v' = v ∨ v' = effect

/-- What the calls may answer, and what they do to the files. -/
def Answers (v : Volume) : (c : FileCall) → c.Answer → Volume → Prop
  | .symlink_metadata path, r, v' => v' = v ∧ Describes (v path) r
  | .opened path, r, v' => v' = v ∧ Describes (v path) r
  | .create path, r, v' => Takes v v' (v.put path .empty) r
  | .open_for_writing path, r, v' =>
    match v path with
    | none => Takes v v' (v.put path .empty) r
    | some (.file _) => v' = v
    | some _ => v' = v ∧ r ≠ .ok ()
  | .write_all path offset bytes, r, v' =>
    match v path with
    | some (.file content) => (v' = v ∧ r ≠ .ok ()) ∨
        ∃ written content', written <+: bytes ∧ (r = .ok () → written = bytes) ∧
          content'.bytes = overwrite content.bytes offset.toNat written ∧ v' = v.put path content'
    | _ => v' = v
  | .open_for_reading path, r, v' =>
    v' = v ∧ (r = .ok () → ∃ content, v path = some (.file content)) ∧
      (r = .error .NotFound → v path = none)
  | .read_to_end path, r, v' =>
    v' = v ∧ ∀ bytes content, r = .ok bytes → v path = some (.file content) → bytes = content.bytes
  | .persist_noclobber path bytes, r, v' =>
    match v path with
    | none => r ≠ .error .AlreadyExists ∧
        (v' = v ∧ r ≠ .ok () ∨ ∃ content : FileContent, content.bytes = bytes ∧
          v' = v.put path content)
    | some _ => v' = v ∧ r ≠ .ok ()
  | .remove_file path, r, v' => Takes v v' (v.erase path) r
  | _, _, v' => v' = v

/-- A volume on which every call succeeds that can, with a source that serves the given bytes, at
a given time. -/
def serve (bytes : Bytes) (now : Nat) (v : Volume) : (c : FileCall) → c.Answer × Volume
  | .now => (some now, v)
  | .verify_identity _ => (.ok (), v)
  | .ensure_directory_tree _ => (.ok false, v)
  | .ensure_directory _ => (.ok false, v)
  | .ensure_existing_directory _ => (.ok (), v)
  | .sync_directory _ => (.ok (), v)
  | .symlink_metadata path => ((v path).elim (.error .NotFound) fun e => .ok e.metadata, v)
  | .create path => (.ok (), v.put path .empty)
  | .sync_all _ => (.ok (), v)
  | .open_for_writing path =>
    match v path with
    | none => (.ok (), v.put path .empty)
    | some (.file _) => (.ok (), v)
    | some _ => (.error .Other, v)
  | .opened path => ((v path).elim (.error .NotFound) fun e => .ok e.metadata, v)
  | .same_file _ => (true, v)
  | .seek _ _ => (.ok (), v)
  | .write_all path offset chunk =>
    match v path with
    | some (.file content) =>
      if h : (overwrite content.bytes offset.toNat chunk).length < 2 ^ 64 then
        (.ok (), v.put path ⟨_, h⟩)
      else (.error .Other, v)
    | _ => (.error .Other, v)
  | .sync_data _ => (.ok (), v)
  | .open_for_reading path =>
    match v path with
    | some (.file _) => (.ok (), v)
    | some _ => (.error .Other, v)
    | none => (.error .NotFound, v)
  | .read_to_end path =>
    match v path with
    | some (.file content) => (.ok content.bytes, v)
    | _ => (.error .Other, v)
  | .create_temporary _ => (.ok (), v)
  | .write_temporary _ => (.ok (), v)
  | .sync_temporary => (.ok (), v)
  | .persist_noclobber path chunk =>
    match v path with
    | none => if h : chunk.length < 2 ^ 64 then (.ok (), v.put path ⟨chunk, h⟩)
      else (.error .Other, v)
    | some _ => (.error .AlreadyExists, v)
  | .remove_file path =>
    match v path with
    | some _ => (.ok (), v.erase path)
    | none => (.error .NotFound, v)
  | .open_object _ _ range =>
    (.ok (range.length, (bytes.drop range.offset.toNat).take range.length.toNat), v)

/-- Such a volume is one of the volumes of the model. -/
theorem answers_serve (bytes : Bytes) (now : Nat) (v : Volume) (c : FileCall) :
    v.Answers c (v.serve bytes now c).1 (v.serve bytes now c).2 := by
  cases c with
  | symlink_metadata path | opened path =>
    refine ⟨rfl, ?_⟩
    simp only [serve]
    cases hentry : v path with
    | none => rfl
    | some e => exact ⟨e, rfl, rfl⟩
  | open_for_writing path =>
    cases hentry : v path with
    | none => simp [Answers, serve, hentry, Takes]
    | some e => cases e <;> simp [Answers, serve, hentry]
  | write_all path offset chunk =>
    cases hentry : v path with
    | none => simp [Answers, serve, hentry]
    | some e =>
      cases e with
      | file content =>
        simp only [Answers, serve, hentry]
        split
        · exact .inr ⟨chunk, _, prefix_refl _, fun _ => rfl, rfl, rfl⟩
        · exact .inl ⟨rfl, nofun⟩
      | symlink => simp [Answers, serve, hentry]
      | other => simp [Answers, serve, hentry]
  | open_for_reading path | read_to_end path =>
    cases hentry : v path with
    | none => simp [Answers, serve, hentry]
    | some e => cases e <;> simp [Answers, serve, hentry]
  | persist_noclobber path chunk =>
    cases hentry : v path with
    | none =>
      simp only [Answers, serve, hentry]
      split
      · exact ⟨nofun, .inr ⟨_, rfl, rfl⟩⟩
      · exact ⟨nofun, .inl ⟨rfl, nofun⟩⟩
    | some e => simp [Answers, serve, hentry]
  | remove_file path =>
    cases hentry : v path with
    | none => simp [Answers, serve, hentry, Takes]
    | some e => simp [Answers, serve, hentry, Takes]
  | create | now | verify_identity | ensure_directory_tree | ensure_directory
  | ensure_existing_directory | sync_directory | sync_all | same_file | seek | sync_data
  | create_temporary | write_temporary | sync_temporary | open_object => rfl

end Volume

abbrev Transfer := TenantId × TransferId

def Transfer.staged (i : Transfer) (object_id : ObjectId) : Location :=
  VolumeCasBackend.staged_object_path i.2 i.1 object_id

/-- The volume, with the bytes that each transfer has asked its source for and handed to the volume.
-/
structure World where
  volume : Volume
  (pulled written : Transfer → Nat)

def FileCall.pulls : FileCall → Nat
  | .open_object _ _ range => range.length.toNat
  | _ => 0

def FileCall.writes : FileCall → Nat
  | .write_all _ _ bytes => bytes.length
  | _ => 0

/-- The volume answers a call of this transfer, and its bytes are counted. -/
def calls (i : Transfer) : Env FileCall FileCall.Answer World := fun w c r w' =>
  w.volume.Answers c r w'.volume ∧
    w'.pulled = update w.pulled i (w.pulled i + c.pulls) ∧
    w'.written = update w.written i (w.written i + c.writes)

/-! ## Obligations -/

section Obligations

variable (blake3 : Blake3)

/-- The calls that transfer `i` may make for `touches`. It writes at the end of its own staged files
only, and gives a file the name of an object only if it is that object. -/
def Proper (i : Transfer) (touches : ObjectSpec → Prop) (v : Volume) : FileCall → Prop
  | .create path => ∃ expected, touches expected ∧ path = i.staged expected.id ∧ v path = none
  | .open_for_writing path => ∃ expected, touches expected ∧ path = i.staged expected.id
  | .write_all path offset bytes => ∃ expected content, touches expected ∧
      path = i.staged expected.id ∧ v path = some (.file content) ∧
      offset.toNat = content.bytes.length ∧ offset.toNat + bytes.length ≤ expected.size.toNat
  | .persist_noclobber path bytes => ∃ backend expected, touches expected ∧
      path = VolumeCasBackend.object_path backend i.1 expected.id ∧
      bytes.length = expected.size.toNat ∧ (⟨blake3 bytes⟩ : ObjectId) = expected.id
  | .remove_file path => ∃ expected, touches expected ∧ path = i.staged expected.id
  | .open_object _ expected _ => touches expected
  | _ => True

/-- What a transfer may do: the objects it works on, and the bytes it pulls and writes in all. -/
structure Bounds where
  touches : ObjectSpec → Prop
  (pulls writes : Nat)

/-- The obligation on every call: it is proper, and the bytes stay within their bounds. -/
def Duty (i : Transfer) (b : Bounds) : CallProp FileCall FileCall.Answer World := fun w c _ w' =>
  Proper blake3 i b.touches w.volume c ∧ w'.pulled i ≤ b.pulls ∧ w'.written i ≤ b.writes

end Obligations

/-- What a transfer relies on: its staged files and its counts are its own. -/
structure Rely (i : Transfer) (w w' : World) : Prop where
  staged : ∀ object_id, w'.volume (i.staged object_id) = w.volume (i.staged object_id)
  pulled : w'.pulled i = w.pulled i
  written : w'.written i = w.written i

theorem Rely.refl (i : Transfer) (w : World) : Rely i w w := ⟨fun _ => rfl, rfl, rfl⟩

variable {i : Transfer}

theorem Rely.trans {w m w' : World} (h : Rely i w m) (h' : Rely i m w') :
    Rely i w w' :=
  ⟨fun object_id => (h'.staged object_id).trans (h.staged object_id), h'.pulled.trans h.pulled,
    h'.written.trans h.written⟩

/-- The transfer has kept to its bounds. -/
structure Within (i : Transfer) (b : Bounds) (w : World) : Prop where
  pulled : w.pulled i ≤ b.pulls
  written : w.written i ≤ b.writes

variable {w w' : World}

theorem Within.rely {b : Bounds} (h : Within i b w) (hrely : Rely i w w') : Within i b w' :=
  ⟨hrely.pulled ▸ h.pulled, hrely.written ▸ h.written⟩

/-! ## Operations that change nothing -/

/-- A call that neither changes a file nor moves a byte of an object. -/
def Silent : FileCall → Prop
  | .create _ | .open_for_writing _ | .write_all _ _ _ | .persist_noclobber _ _ | .remove_file _
  | .open_object _ _ _ => False
  | _ => True

variable {c : FileCall}

theorem Silent.same (hc : Silent c) {v v' : Volume} {r : c.Answer}
    (h : v.Answers c r v') : v' = v := by
  cases c with
  | create | open_for_writing | write_all | persist_noclobber | remove_file | open_object =>
    exact hc.elim
  | symlink_metadata path => exact h.1
  | opened path => exact h.1
  | open_for_reading path => exact h.1
  | read_to_end path => exact h.1
  | now | verify_identity | ensure_directory_tree | ensure_directory | ensure_existing_directory
  | sync_directory | sync_all | same_file | seek | sync_data | create_temporary | write_temporary
  | sync_temporary => exact h

theorem Silent.rely (hc : Silent c) {r : c.Answer}
    (h : calls i w c r w') : w'.volume = w.volume ∧ Rely i w w' := by
  obtain ⟨hanswer, hpulled, hwritten⟩ := h
  have hvolume := hc.same hanswer
  have hpulls : c.pulls = 0 := by cases c <;> first | rfl | exact hc.elim
  have hwrites : c.writes = 0 := by cases c <;> first | rfl | exact hc.elim
  refine ⟨hvolume, ⟨fun _ => by rw [hvolume], ?_, ?_⟩⟩
  · rw [hpulled, hpulls, update_self, Nat.add_zero]
  · rw [hwritten, hwrites, update_self, Nat.add_zero]

theorem Silent.proper {blake3 : Blake3} {touches : ObjectSpec → Prop} {v : Volume}
    (hc : Silent c) : Proper blake3 i touches v c := by
  cases c <;> trivial

theorem only_verify_identity (path : Location) : Only Silent (verify_identity path).run :=
  .seq (only_request trivial) fun _ => only_checked _

theorem only_ensure_directory (path : Location) : Only Silent (ensure_directory path).run :=
  .seq (only_request trivial) fun _ => only_checked _

theorem only_sync_directory (path : Location) : Only Silent (sync_directory path).run :=
  .seq (only_request trivial) fun _ => only_checked _

theorem only_ordinary_file_metadata (path : Location) (description : String) :
    Only Silent (ordinary_file_metadata path description).run :=
  .seq (only_request trivial) fun _ => only_checked _

theorem only_ensure_opened_ordinary_file (path : Location) (size : UInt64) (description : String) :
    Only Silent (ensure_opened_ordinary_file path size description).run :=
  .seq (only_request trivial) fun _ => .seq (only_checked _) fun _ =>
    .seq (only_request trivial) fun _ => .seq (only_checked _) fun _ =>
    .seq (only_checked _) fun _ => .seq (only_request trivial) fun _ => only_checked _

theorem only_sync_if (created : Bool) (path : Location) :
    Only Silent (sync_if created path).run := by
  unfold sync_if
  split
  · exact only_sync_directory path
  · trivial

theorem only_store_layout (store : LooseObjectStore) : Only Silent store.initialize_layout.run :=
  .seq (only_verify_identity _) fun _ => .seq (only_ensure_directory _) fun _ =>
    only_sync_if _ _

theorem only_store_validate (store : LooseObjectStore) : Only Silent store.validate_layout.run :=
  .seq (only_verify_identity _) fun _ => .seq (only_request trivial) fun _ => only_checked _

theorem only_stat (store : LooseObjectStore) (id : ObjectId) : Only Silent (store.stat id).run :=
  .seq (only_verify_identity _) fun _ => .seq (only_request trivial) fun _ => only_checked _

theorem only_verify (blake3 : Blake3) (store : LooseObjectStore) (expected : ObjectSpec) :
    Only Silent (store.verify blake3 expected).run :=
  .seq (only_store_validate _) fun _ => .seq (only_request trivial) fun _ =>
    .seq (only_checked _) fun _ => .seq (only_checked _) fun _ =>
    .seq (only_request trivial) fun _ => .seq (only_checked _) fun _ =>
    .seq (only_request trivial) fun _ => .seq (only_checked _) fun _ => only_checked _

theorem only_durability_barrier (store : LooseObjectStore) :
    Only Silent store.durability_barrier.run :=
  .seq (only_store_validate _) fun _ => only_sync_directory _

namespace VolumeCasBackend

variable (backend : VolumeCasBackend)

theorem only_backend_layout : Only Silent backend.initialize_layout.run :=
  .seq (only_verify_identity _) fun _ => .seq (only_request trivial) fun _ =>
    .seq (only_checked _) fun _ => .seq (only_ensure_directory _) fun _ =>
    only_sync_if _ _

theorem only_validate_layout : Only Silent backend.validate_layout.run :=
  .seq (only_verify_identity _) fun _ => .seq (only_request trivial) fun _ =>
    .seq (only_checked _) fun _ => .seq (only_request trivial) fun _ => only_checked _

theorem only_ensure_transfer_staging (transfer_id : TransferId) (tenant_id : TenantId) :
    Only Silent (backend.ensure_transfer_staging transfer_id tenant_id).run :=
  .seq (only_checked _) fun _ => .seq backend.only_backend_layout fun _ =>
    .seq (only_ensure_directory _) fun _ => .seq (only_ensure_directory _) fun _ => only_pure _

theorem only_staged_length (path : Location) : Only Silent (staged_length path).run :=
  .seq (only_ordinary_file_metadata _ _) fun _ => only_checked _

end VolumeCasBackend

theorem only_validate_transfer_ticket (ticket : TransferTicket) :
    Only Silent (validate_transfer_ticket ticket).run :=
  .seq (only_checked _) fun _ => .seq (only_request trivial) fun _ => .seq (only_checked _) fun _ =>
    only_checked _

/-! ## The obligations of the operations -/

section Operations

variable {blake3 : Blake3} {i : Transfer} {b : Bounds} {α β : Type}

/-- A program of transfer `i` meets its obligations, and `F` holds where it succeeds. -/
abbrev Works (blake3 : Blake3) (i : Transfer) (b : Bounds) (x : Program α)
    (F : α → World → Prop) (w : World) : Prop :=
  Relies (Rely i) (calls i) (Duty blake3 i b) x.run (OnOk F) w

variable {w : World} {F : β → World → Prop} {x : Program α}

theorem Works.mono {F G : α → World → Prop}
    (h : Works blake3 i b x F w) (hFG : ∀ a w', F a w' → G a w') :
    Works blake3 i b x G w :=
  Meets.mono h fun _ w' hr => OnOk.mono hr fun a => hFG a w'

variable {f : α → Program β}

theorem Works.seq {G : α → World → Prop} (h : Works blake3 i b x G w)
    (hrest : ∀ a w', G a w' → Works blake3 i b (f a) F w') :
    Works blake3 i b (x >>= f) F w :=
  meets_seq_onOk.mpr (h.mono hrest)

theorem works_checked {x : EngineResult α} (hrest : ∀ a, x = .ok a → Works blake3 i b (f a) F w) :
    Works blake3 i b (checked x >>= f) F w := by
  refine meets_seq_onOk.mpr ?_
  cases x with
  | ok a => exact hrest a rfl
  | error e => trivial

theorem works_result {x : EngineResult α} {F : α → World → Prop}
    (h : ∀ a, x = .ok a → F a w) : Works blake3 i b (checked x) F w := by
  cases x with
  | ok a => exact h a rfl
  | error e => trivial

theorem works_silent (h : Only Silent x.run) (hw : Within i b w) :
    Works blake3 i b x (fun _ w' => Rely i w w') w := by
  refine (Only.relies h (Rely.refl i) (fun _ _ _ => Rely.trans) (fun _ _ hr hw => hw.rely hr) ?_
    hw).mono ?_
  · intro w c r w' hw hanswer hc
    obtain ⟨-, hrely⟩ := hc.rely hanswer
    have hw' := hw.rely hrely
    exact ⟨⟨hc.proper, hw'.pulled, hw'.written⟩, hrely⟩
  · intro r w' hr
    cases r with
    | ok a => exact hr
    | error e => trivial

theorem works_request {f : c.Answer → Program β}
    (hcall : ∀ m, Rely i w m → ∀ r w', calls i m c r w' → Duty blake3 i b m c r w' ∧
        Works blake3 i b (f r) F w') :
    Works blake3 i b (request c >>= f) F w := by
  refine meets_seq_onOk.mpr ?_
  exact relies_call.mpr hcall

theorem works_ask {f : c.Answer → Program β} (hc : Silent c) (hw : Within i b w)
    (hrest : ∀ r w', Rely i w w' → w'.volume.Answers c r w'.volume → Works blake3 i b (f r) F w') :
    Works blake3 i b (request c >>= f) F w := by
  apply works_request
  intro m hm r w' hanswer
  obtain ⟨hvolume, hrely⟩ := hc.rely hanswer
  have hw' := (hw.rely hm).rely hrely
  refine ⟨⟨hc.proper, hw'.pulled, hw'.written⟩, hrest r w' (hm.trans hrely) ?_⟩
  have hsame := hanswer.1
  rwa [hvolume] at hsame ⊢

/-! ### Staging -/

/-- What a length says about a path. -/
def HasLength (entry : Option Entry) : Option UInt64 → Prop
  | none => entry = none
  | some size => ∃ content : FileContent, entry = some (.file content) ∧ content.len = size

theorem Entry.metadata_file {e : Entry} (h : e.metadata.file_type = .file) :
    ∃ content, e = .file content ∧ content.len = e.metadata.len := by
  cases e with
  | file content => exact ⟨content, rfl, rfl⟩
  | symlink => cases h
  | other => cases h

/-- What the metadata of a path say about it. -/
def Shows (entry : Option Entry) : Option Metadata → Prop
  | none => entry = none
  | some metadata => ∃ e, entry = some e ∧ metadata = e.metadata

variable {backend : VolumeCasBackend} {object_id : ObjectId}

theorem works_metadata {description : String} (hw : Within i b w) :
    Works blake3 i b (ordinary_file_metadata (i.staged object_id) description)
      (fun m w' => Rely i w w' ∧ Shows (w.volume (i.staged object_id)) m) w := by
  unfold ordinary_file_metadata
  apply works_ask (c := .symlink_metadata _) trivial hw
  intro r w' hrely hanswer
  obtain ⟨-, hdescribes⟩ := hanswer
  rw [hrely.staged] at hdescribes
  cases r with
  | ok metadata =>
    show OnOk _ (if _ then _ else _) _
    split
    · trivial
    · exact ⟨hrely, hdescribes⟩
  | error kind =>
    cases kind with
    | NotFound => exact ⟨hrely, hdescribes⟩
    | AlreadyExists => trivial
    | Other => trivial

theorem works_staged_length (hw : Within i b w) :
    Works blake3 i b (staged_length (i.staged object_id))
      (fun size w' => Rely i w w' ∧ HasLength (w.volume (i.staged object_id)) size) w := by
  unfold staged_length
  refine (works_metadata hw).seq fun m w' hm => ?_
  obtain ⟨hrely, hshows⟩ := hm
  cases m with
  | none => exact ⟨hrely, hshows⟩
  | some metadata =>
    obtain ⟨e, he, rfl⟩ := hshows
    show OnOk _ (if _ then _ else _) _
    split
    · next hfile =>
      obtain ⟨content, rfl, hlen⟩ := Entry.metadata_file hfile
      exact ⟨hrely, content, he, hlen⟩
    · trivial

theorem works_resume_offset (hw : Within i b w) :
    Works blake3 i b (backend.resume_offset i.2 i.1 object_id) (fun offset w' => Rely i w w' ∧
        ∃ size, offset = size.getD 0 ∧ HasLength (w.volume (i.staged object_id)) size) w := by
  unfold resume_offset staged_size
  refine Works.seq (G := fun size w' => Rely i w w' ∧
    HasLength (w.volume (i.staged object_id)) size) ?_ ?_
  · apply works_checked
    intro _ _
    refine (works_silent backend.only_validate_layout hw).seq fun _ m hm => ?_
    refine (works_staged_length (hw.rely hm)).mono fun size w' hsize => ?_
    exact ⟨hm.trans hsize.1, hm.staged object_id ▸ hsize.2⟩
  · intro size w' hsize
    exact ⟨hsize.1, size, rfl, hsize.2⟩

theorem calls_counts {r : c.Answer} (h : calls i w c r w') :
    w'.pulled i = w.pulled i + c.pulls ∧ w'.written i = w.written i + c.writes := by
  obtain ⟨-, hpulled, hwritten⟩ := h
  rw [hpulled, hwritten, update_self, update_self]
  exact ⟨rfl, rfl⟩

/-- The bytes moved are those moved before. -/
def SameCounts (i : Transfer) (w w' : World) : Prop :=
  w'.pulled i = w.pulled i ∧ w'.written i = w.written i

variable {expected : ObjectSpec} {staging_dir : Location}

theorem SameCounts.trans {w m w' : World} (h : SameCounts i w m) (h' : SameCounts i m w') :
    SameCounts i w w' :=
  ⟨h'.1.trans h.1, h'.2.trans h.2⟩

theorem Rely.sameCounts (h : Rely i w w') : SameCounts i w w' :=
  ⟨h.pulled, h.written⟩

theorem Within.same (h : Within i b w) (hsame : SameCounts i w w') : Within i b w' :=
  ⟨hsame.1 ▸ h.pulled, hsame.2 ▸ h.written⟩

theorem works_move {f : c.Answer → Program β} (hw : Within i b w)
    (hpulls : c.pulls = 0) (hwrites : c.writes = 0)
    (hproper : ∀ m, Rely i w m → Proper blake3 i b.touches m.volume c)
    (hrest : ∀ m, Rely i w m → ∀ r w', m.volume.Answers c r w'.volume → SameCounts i w w' →
      Works blake3 i b (f r) F w') :
    Works blake3 i b (request c >>= f) F w := by
  apply works_request
  intro m hm r w' hanswer
  have hcounts := calls_counts hanswer
  rw [hpulls, hwrites] at hcounts
  have hsame : SameCounts i w w' := hm.sameCounts.trans hcounts
  have hw' := hw.same hsame
  exact ⟨⟨hproper m hm, hw'.pulled, hw'.written⟩, hrest m hm r w' hanswer.1 hsame⟩

variable {offset : UInt64} {size : Option UInt64}

section

variable (htouches : b.touches expected) (hw : Within i b w)

include htouches hw

variable {message : String}

theorem works_create_empty (habsent : w.volume (i.staged expected.id) = none) :
    Works blake3 i b (create_empty (i.staged expected.id) message)
      (fun _ w' => SameCounts i w w') w := by
  unfold create_empty
  apply works_move (c := .create _) hw rfl rfl
  · intro m hm
    exact ⟨expected, htouches, rfl, by rw [hm.staged, habsent]⟩
  · intro m hm r w' _ hsame
    apply works_checked
    intro _ _
    apply works_ask (c := .sync_all _) trivial (hw.same hsame)
    intro _ m' hm' _
    apply works_result
    intro _ _
    exact hsame.trans hm'.sameCounts

theorem works_create_if_missing {size : UInt64} {directory : Location} :
    Works blake3 i b
      (create_if_missing size directory (i.staged expected.id) message)
      (fun _ w' => SameCounts i w w') w := by
  unfold create_if_missing
  split
  · refine (works_metadata hw).seq fun m w' hm => ?_
    obtain ⟨hrely, hshows⟩ := hm
    split
    · next habsent =>
      obtain rfl := Option.isNone_iff_eq_none.mp habsent
      have habsent' : w'.volume (i.staged expected.id) = none := by
        rw [hrely.staged]
        exact hshows
      refine (works_create_empty htouches (hw.rely hrely) habsent').seq fun _ m hsame => ?_
      have hm : SameCounts i w m := hrely.sameCounts.trans hsame
      refine (works_silent (only_sync_directory _) (hw.same hm)).mono fun _ w'' hw'' => ?_
      exact hm.trans hw''.sameCounts
    · exact hrely.sameCounts
  · exact ⟨rfl, rfl⟩

theorem works_refuse_offset {current_size : UInt64} {F : StageWriteOutcome → World → Prop} :
    Works blake3 i b
      (refuse_offset staging_dir (i.staged expected.id) offset current_size) F w :=
  (works_create_if_missing htouches hw).seq fun _ _ _ => trivial

omit htouches hw in
/-- The file that is open for writing has the length that it had before, or is new. -/
theorem length_of_open {v v' : Volume} {path : Location} {r : IoResult Unit}
    (h : v.Answers (.open_for_writing path) r v') (hr : r = .ok ())
    (hlen : HasLength (v path) size) :
    ∃ content, v' path = some (.file content) ∧ content.bytes.length = (size.getD 0).toNat := by
  subst hr
  cases size with
  | none =>
    have habsent : v path = none := hlen
    simp only [Volume.Answers, habsent, Volume.Takes] at h
    exact ⟨.empty, by rw [h, Volume.put, update_self], rfl⟩
  | some n =>
    obtain ⟨content, hcontent, rfl⟩ := hlen
    simp only [Volume.Answers, hcontent] at h
    exact ⟨content, by rw [h, hcontent], (content.toNat_len).symm⟩

/-- The bytes written are those of one chunk more. -/
def AddsChunk (i : Transfer) (bytes : Bytes) (w w' : World) : Prop :=
  w'.pulled i = w.pulled i ∧ w'.written i = w.written i + bytes.length

variable {bytes : Bytes}

theorem works_append_chunk {accepted_bytes staged_size : UInt64}
    (hroom : w.written i + bytes.length ≤ b.writes)
    (hlen : HasLength (w.volume (i.staged expected.id)) size) (hoffset : offset = size.getD 0)
    (hfits : offset.toNat + bytes.length ≤ expected.size.toNat) :
    Works blake3 i b
      (append_chunk expected staging_dir (i.staged expected.id) offset bytes
        accepted_bytes staged_size) (fun _ w' => AddsChunk i bytes w w') w := by
  unfold append_chunk
  refine (works_silent (only_ordinary_file_metadata _ _) hw).seq fun _ w₁ h₁ => ?_
  -- the file is opened, and created if it is missing
  apply works_move (c := .open_for_writing _) (hw.rely h₁) rfl rfl
  · intro m _
    exact ⟨expected, htouches, rfl⟩
  intro m hm r w₂ hopen h₂
  apply works_checked
  intro _ hr
  have hok : r = .ok () := mapError_eq_ok.mp hr
  have hlen' : HasLength (m.volume (i.staged expected.id)) size := by
    rw [hm.staged, h₁.staged]
    exact hlen
  obtain ⟨content, hcontent, hlength⟩ := length_of_open hopen hok hlen'
  have hw₂ : Within i b w₂ := (hw.rely h₁).same h₂
  refine (works_silent (only_ensure_opened_ordinary_file _ _ _) hw₂).seq fun _ w₃ h₃ => ?_
  apply works_ask (c := .seek _ _) trivial (hw₂.rely h₃)
  intro _ w₄ h₄ _
  apply works_checked
  intro _ _
  -- the chunk is written where the file ends
  have hsame : SameCounts i w w₄ :=
    (h₁.sameCounts.trans h₂).trans (h₃.sameCounts.trans h₄.sameCounts)
  apply works_request (c := .write_all _ _ _)
  intro m' hm' r' w₅ hwrite
  have hcounts := calls_counts hwrite
  have hsame' : SameCounts i w m' := hsame.trans hm'.sameCounts
  have hadds : AddsChunk i bytes w w₅ := by
    refine ⟨?_, ?_⟩
    · rw [hcounts.1, hsame'.1]
      rfl
    · rw [hcounts.2, hsame'.2]
      rfl
  have hw₅ : Within i b w₅ := ⟨hadds.1 ▸ hw.pulled, hadds.2 ▸ hroom⟩
  have hfile : m'.volume (i.staged expected.id) = some (.file content) := by
    rw [hm'.staged, h₄.staged, h₃.staged, hcontent]
  refine ⟨⟨⟨expected, content, htouches, rfl, hfile, ?_, hfits⟩, hw₅.pulled, hw₅.written⟩, ?_⟩
  · rw [hoffset, hlength]
  apply works_checked
  intro _ _
  refine Works.mono (works_silent ?_ hw₅) fun _ w' h' => ?_
  · exact .seq (only_request trivial) fun _ => .seq (only_checked _) fun _ =>
      .seq (only_ensure_opened_ordinary_file _ _ _) fun _ => .seq (only_sync_if _ _) fun _ =>
      only_pure _
  · exact ⟨h'.pulled.trans hadds.1, h'.written.trans hadds.2⟩

omit htouches hw in
theorem check_chunk_eq_ok {accepted staged_size : UInt64}
    (h : check_chunk expected offset bytes = .ok (accepted, staged_size)) :
    accepted.toNat = bytes.length ∧ offset.toNat + bytes.length = staged_size.toNat ∧
      staged_size.toNat ≤ expected.size.toNat := by
  simp only [check_chunk, ok_iff, u64_try_from_eq_some, checked_add_eq_some, Prod.mk.injEq] at h
  obtain ⟨-, -, n, hn, m, hm, hle, rfl, rfl⟩ := h
  exact ⟨hn, by rw [← hm, hn], le_iff_toNat_le.mp hle⟩

theorem works_stage_write (hroom : w.written i + bytes.length ≤ b.writes) :
    Works blake3 i b (backend.stage_write i.2 i.1 expected offset bytes)
      (fun _ w' => AddsChunk i bytes w w') w := by
  unfold stage_write
  apply works_checked
  intro _ _
  apply works_checked
  intro (accepted_bytes, staged_size) hcheck
  obtain ⟨-, hsize, hle⟩ := check_chunk_eq_ok hcheck
  refine (works_silent (backend.only_ensure_transfer_staging _ _) hw).seq fun _ w₁ h₁ => ?_
  refine (works_staged_length (hw.rely h₁)).seq fun size w₂ h₂ => ?_
  obtain ⟨hrely, hlen⟩ := h₂
  have hw₂ : Within i b w₂ := (hw.rely h₁).rely hrely
  show Works _ _ _ (if offset ≠ size.getD 0 then _ else _) _ _
  split
  · exact works_refuse_offset htouches hw₂
  · next hoffset =>
    have hsame : SameCounts i w w₂ := h₁.sameCounts.trans hrely.sameCounts
    refine Works.mono (works_append_chunk htouches hw₂ (by rw [hsame.2]; exact hroom)
      (by rw [hrely.staged]; exact hlen) (not_not.mp hoffset) (by omega)) fun _ w' h' => ?_
    exact ⟨h'.1.trans hsame.1, h'.2.trans (by rw [hsame.2])⟩

/-! ### Publication -/

theorem works_discard_staged :
    Works blake3 i b (backend.discard_staged i.2 i.1 expected.id)
      (fun _ w' => SameCounts i w w') w := by
  unfold discard_staged
  apply works_checked
  intro _ _
  refine (works_silent backend.only_validate_layout hw).seq fun _ w₁ h₁ => ?_
  refine (works_silent (only_staged_length _) (hw.rely h₁)).seq fun _ w₂ h₂ => ?_
  have hsame : SameCounts i w w₂ := h₁.sameCounts.trans h₂.sameCounts
  split
  · exact hsame
  · apply works_move (c := .remove_file _) (hw.same hsame) rfl rfl
    · intro m _
      exact ⟨expected, htouches, rfl⟩
    · intro m _ r w₃ _ h₃
      apply works_checked
      intro _ _
      have hsame' := hsame.trans h₃
      refine (works_silent (only_sync_directory _) (hw.same hsame')).seq fun _ w₄ h₄ => ?_
      exact hsame'.trans h₄.sameCounts

omit htouches hw in
theorem check_exact_eq_ok {code : ErrorCode} : check_exact blake3 bytes expected code = .ok () ↔
      bytes.length = expected.size.toNat ∧ (⟨blake3 bytes⟩ : ObjectId) = expected.id := by
  simp only [check_exact, ok_iff]
  constructor
  · exact fun h => h.2
  · exact fun h => ⟨h.1.le, h⟩

/-- The store gives the name of an object only to bytes that it has checked. -/
theorem works_put_from {source : Location} : Works blake3 i b
      (LooseObjectStore.put_from blake3 ⟨backend.tenant_objects_path i.1⟩ expected source)
      (fun _ w' => SameCounts i w w') w := by
  unfold LooseObjectStore.put_from
  refine (works_silent (only_store_layout _) hw).seq fun _ w₁ h₁ => ?_
  refine (works_silent (only_stat _ _) (hw.rely h₁)).seq fun _ w₂ h₂ => ?_
  have hw₂ : Within i b w₂ := (hw.rely h₁).rely h₂
  have hsame : SameCounts i w w₂ := h₁.sameCounts.trans h₂.sameCounts
  split
  · refine (works_silent (only_verify _ _ _) hw₂).seq fun _ w₃ h₃ => ?_
    exact hsame.trans h₃.sameCounts
  · apply works_ask (c := .create_temporary _) trivial hw₂
    intro _ w₃ h₃ _
    apply works_checked
    intro _ _
    apply works_ask (c := .read_to_end _) trivial (hw₂.rely h₃)
    intro r w₄ h₄ _
    apply works_checked
    intro bytes _
    have hw₄ : Within i b w₄ := (hw₂.rely h₃).rely h₄
    apply works_ask (c := .write_temporary _) trivial hw₄
    intro _ w₅ h₅ _
    apply works_checked
    intro _ _
    apply works_checked
    intro _ hexact
    obtain ⟨hlength, hdigest⟩ := check_exact_eq_ok.mp hexact
    apply works_ask (c := .sync_temporary) trivial (hw₄.rely h₅)
    intro _ w₆ h₆ _
    apply works_checked
    intro _ _
    have hsame₆ : SameCounts i w w₆ := hsame.trans ((h₃.trans h₄).trans (h₅.trans h₆)).sameCounts
    unfold LooseObjectStore.persist
    apply works_move (c := .persist_noclobber _ _) (hw.same hsame₆) rfl rfl
    · intro m _
      exact ⟨backend, expected, htouches, rfl, hlength, hdigest⟩
    · intro m _ r w₇ _ h₇
      have hsame₇ := hsame₆.trans h₇
      cases r with
      | ok _ => exact hsame₇
      | error kind =>
        cases kind with
        | AlreadyExists =>
          refine (works_silent (only_verify _ _ _) (hw.same hsame₇)).seq fun _ w₈ h₈ => ?_
          exact hsame₇.trans h₈.sameCounts
        | NotFound => trivial
        | Other => trivial

omit htouches in
theorem works_ensure_object_store :
    Works blake3 i b (backend.ensure_object_store i.1)
      (fun store w' => Rely i w w' ∧ store = ⟨backend.tenant_objects_path i.1⟩) w := by
  unfold ensure_object_store
  apply works_checked
  intro _ _
  refine (works_silent backend.only_backend_layout hw).seq fun _ w₁ h₁ => ?_
  have hw₁ := hw.rely h₁
  refine (works_silent (only_ensure_directory _) hw₁).seq fun _ w₂ h₂ => ?_
  have hw₂ := hw₁.rely h₂
  refine (works_silent (only_verify_identity _) hw₂).seq fun _ w₃ h₃ => ?_
  refine (works_silent (only_store_layout _) (hw₂.rely h₃)).seq fun _ w₄ h₄ => ?_
  exact ⟨(h₁.trans h₂).trans (h₃.trans h₄), rfl⟩

theorem works_publish_staged : Works blake3 i b
      (publish_staged blake3 ⟨backend.tenant_objects_path i.1⟩ expected
        staging_dir (i.staged expected.id)) (fun _ w' => SameCounts i w w') w := by
  unfold publish_staged
  refine (works_create_if_missing htouches hw).seq fun _ w₁ h₁ => ?_
  have hw₁ := hw.same h₁
  apply works_ask (c := .open_for_reading _) trivial hw₁
  intro _ w₂ h₂ _
  apply works_checked
  intro _ _
  have hw₂ := hw₁.rely h₂
  refine (works_silent (only_ensure_opened_ordinary_file _ _ _) hw₂).seq fun _ w₃ h₃ => ?_
  have hw₃ := hw₂.rely h₃
  apply works_ask (c := .read_to_end _) trivial hw₃
  intro _ w₄ h₄ _
  apply works_checked
  intro bytes _
  apply works_checked
  intro _ _
  apply works_ask (c := .seek _ _) trivial (hw₃.rely h₄)
  intro _ w₅ h₅ _
  apply works_checked
  intro _ _
  have hsame₅ : SameCounts i w w₅ := h₁.trans ((h₂.trans h₃).trans (h₄.trans h₅)).sameCounts
  refine (works_put_from htouches (hw.same hsame₅)).seq fun _ w₆ h₆ => ?_
  have hsame₆ := hsame₅.trans h₆
  refine (works_silent (only_durability_barrier _) (hw.same hsame₆)).seq fun _ w₇ h₇ => ?_
  have hsame₇ := hsame₆.trans h₇.sameCounts
  apply works_move (c := .remove_file _) (hw.same hsame₇) rfl rfl
  · intro m _
    exact ⟨expected, htouches, rfl⟩
  · intro m _ r w₈ _ h₈
    apply works_checked
    intro _ _
    have hsame₈ := hsame₇.trans h₈
    refine (works_silent (only_sync_directory _) (hw.same hsame₈)).seq fun _ w₉ h₉ => ?_
    exact hsame₈.trans h₉.sameCounts

theorem works_verify_and_publish :
    Works blake3 i b (backend.verify_and_publish blake3 i.2 i.1 expected)
      (fun _ w' => SameCounts i w w') w := by
  unfold verify_and_publish
  refine (works_ensure_object_store hw).seq fun store w₁ h₁ => ?_
  obtain ⟨hrely, rfl⟩ := h₁
  refine (works_silent (only_stat _ _) (hw.rely hrely)).seq fun _ w₂ h₂ => ?_
  have hsame : SameCounts i w w₂ := hrely.sameCounts.trans h₂.sameCounts
  split
  · refine (works_silent (only_verify _ _ _) (hw.same hsame)).seq fun _ w₃ h₃ => ?_
    have hsame₃ := hsame.trans h₃.sameCounts
    refine (works_discard_staged htouches (hw.same hsame₃)).seq fun _ w₄ h₄ => ?_
    exact hsame₃.trans h₄
  · refine (works_silent (backend.only_ensure_transfer_staging _ _) (hw.same hsame)).seq ?_
    intro _ w₃ h₃
    have hsame₃ := hsame.trans h₃.sameCounts
    exact Works.mono (works_publish_staged htouches (hw.same hsame₃)) fun _ w' h' => hsame₃.trans h'

end

/-! ### Copies -/

/-- The transfer has moved `n` bytes. -/
def Moves (i : Transfer) (n : Nat) (w w' : World) : Prop :=
  w'.pulled i = w.pulled i + n ∧ w'.written i = w.written i + n

/-- The bounds leave room for `n` more bytes. -/
def Room (i : Transfer) (b : Bounds) (n : Nat) (w : World) : Prop :=
  w.pulled i + n ≤ b.pulls ∧ w.written i + n ≤ b.writes

variable {executor : ObjectSetTransferExecutor}

theorem Room.within {n : Nat} (h : Room i b n w) : Within i b w :=
  ⟨(Nat.le_add_right _ n).trans h.1, (Nat.le_add_right _ n).trans h.2⟩

theorem ObjectRange.new_eq_ok {length : UInt64} {range : ObjectRange}
    (h : ObjectRange.new offset length = .ok range) : range = ⟨offset, length⟩ := by
  simp only [ObjectRange.new, ok_iff] at h
  exact h.2.2.2.symm

theorem works_copy_chunk {transferred : UInt64} (htouches : b.touches expected)
    (hoffset : offset < expected.size) (hroom : Room i b (expected.size.toNat - offset.toNat) w) :
    Works blake3 i b
      (executor.copy_chunk backend i.1 i.2 expected offset transferred)
      (fun next w' => ∃ n, next.1.toNat = offset.toNat + n ∧
        next.2.toNat = transferred.toNat + n ∧ offset.toNat + n ≤ expected.size.toNat ∧
        Moves i n w w') w := by
  unfold copy_chunk
  have hle : offset ≤ expected.size := UInt64.le_of_lt hoffset
  have hsub : (expected.size - offset).toNat = expected.size.toNat - offset.toNat :=
    UInt64.toNat_sub_of_le _ _ hle
  apply works_checked
  intro range hrange
  obtain rfl := ObjectRange.new_eq_ok hrange
  have hlength := (toNat_min (expected.size - offset)
    (ofNat executor.chunk_bytes)).trans_le (min_le_left _ _)
  rw [hsub] at hlength
  generalize min (expected.size - offset) (ofNat executor.chunk_bytes) = length at hlength ⊢
  have hoffset' := lt_iff_toNat_lt.mp hoffset
  obtain ⟨hpulls, hwrites⟩ := hroom
  -- the source is asked for a range within the object
  apply works_request (c := .open_object _ _ _)
  intro m hm r w₁ hanswer
  have hcounts := calls_counts hanswer
  have hpulled : w₁.pulled i = w.pulled i + length.toNat := by
    rw [hcounts.1, hm.pulled]
    rfl
  have hwritten : w₁.written i = w.written i := by
    rw [hcounts.2, hm.written]
    rfl
  have hw₁ : Within i b w₁ := ⟨by omega, by omega⟩
  refine ⟨⟨htouches, hw₁.pulled, hw₁.written⟩, ?_⟩
  apply works_checked
  intro (copied, bytes) _
  apply works_checked
  intro _ hbytes
  have hlen : bytes.length = length.toNat := (ensure_eq_ok.mp hbytes).2
  refine (works_stage_write htouches hw₁ (by omega)).seq fun staged w₂ h₂ => ?_
  apply works_checked
  intro expected_offset hexpected
  have hsum := checked_add_eq_some.mp (ok_or_eq_ok.mp hexpected)
  apply works_checked
  intro _ _
  apply works_checked
  intro total htotal
  have htotal' := checked_add_eq_some.mp (ok_or_eq_ok.mp htotal)
  refine ⟨length.toNat, hsum.symm, htotal'.symm, by omega, ?_, ?_⟩
  · rw [h₂.1, hpulled]
  · rw [h₂.2, hwritten, hlen]

theorem Moves.trans {m n : Nat} {w w₁ w' : World} (h : Moves i m w w₁) (h' : Moves i n w₁ w') :
    Moves i (m + n) w w' :=
  ⟨by rw [h'.1, h.1, Nat.add_assoc], by rw [h'.2, h.2, Nat.add_assoc]⟩

theorem SameCounts.moves (h : SameCounts i w w') : Moves i 0 w w' := h

/-- **Run**: the loop moves no more bytes than the object has left. -/
theorem works_copy_chunks (htouches : b.touches expected) (rounds : Nat) {transferred : UInt64}
    (hroom : Room i b (expected.size.toNat - offset.toNat) w) :
    Works blake3 i b
      (executor.copy_chunks backend i.1 i.2 expected rounds offset transferred)
      (fun total w' => ∃ n, total.toNat = transferred.toNat + n ∧
        n ≤ expected.size.toNat - offset.toNat ∧ Moves i n w w') w := by
  induction rounds generalizing offset transferred w with
  | zero => exact ⟨0, rfl, Nat.zero_le _, rfl, rfl⟩
  | succ rounds ih =>
    unfold copy_chunks
    split
    · next hoffset =>
      refine (works_copy_chunk htouches hoffset hroom).seq fun next w₁ h₁ => ?_
      obtain ⟨n, hnext, htotal, hle, hmoves⟩ := h₁
      obtain ⟨hpulled, hwritten⟩ := hmoves
      obtain ⟨hpulls, hwrites⟩ := hroom
      have hroom₁ : Room i b (expected.size.toNat - next.1.toNat) w₁ :=
        ⟨by omega, by omega⟩
      refine Works.mono (ih hroom₁) fun total w' h' => ?_
      obtain ⟨k, hk, hlek, hmoves'⟩ := h'
      exact ⟨n + k, by omega, by omega, Moves.trans ⟨hpulled, hwritten⟩ hmoves'⟩
    · exact ⟨0, rfl, Nat.zero_le _, rfl, rfl⟩

def stored : Option Entry → Bytes
  | some (.file content) => content.bytes
  | _ => []

variable {ticket : TransferTicket}

theorem HasLength.toNat_eq {entry : Option Entry} (h : HasLength entry size) :
    (size.getD 0).toNat = (stored entry).length := by
  cases size with
  | none =>
    have hentry : entry = none := h
    rw [hentry]
    rfl
  | some n =>
    obtain ⟨content, rfl, rfl⟩ := h
    exact content.toNat_len

variable {object : CommitObject}

theorem works_copy_object (htouches : ticket.allows object.object_id → b.touches object.spec)
    (hroom : Room i b
      (object.size.toNat - (stored (w.volume (i.staged object.object_id))).length) w) :
    Works blake3 i b (executor.copy_object backend blake3 ticket i.1 i.2 object)
      (fun result w' => Moves i result.bytes_transferred.toNat w w') w := by
  unfold copy_object
  have hw := hroom.within
  refine (works_silent (only_validate_transfer_ticket _) hw).seq fun _ w₁ h₁ => ?_
  apply works_checked
  intro _ hallows
  have htouches' := htouches (ensure_eq_ok.mp hallows).2.2
  refine (works_resume_offset (hw.rely h₁)).seq fun offset w₂ h₂ => ?_
  obtain ⟨hrely, size, rfl, hlen⟩ := h₂
  have hoffset := hlen.toNat_eq
  rw [h₁.staged] at hoffset
  apply works_checked
  intro _ hle
  have hsame : SameCounts i w w₂ := h₁.sameCounts.trans hrely.sameCounts
  obtain ⟨hpulls, hwrites⟩ := hroom
  have hroom₂ : Room i b (object.spec.size.toNat - (size.getD 0).toNat) w₂ := by
    rw [hoffset]
    exact ⟨hsame.1 ▸ hpulls, hsame.2 ▸ hwrites⟩
  refine (works_copy_chunks htouches' _ hroom₂).seq fun total w₃ h₃ => ?_
  obtain ⟨n, htotal, hn, hmoves⟩ := h₃
  have hw₃ : Within i b w₃ := by
    obtain ⟨hpulled, hwritten⟩ := hmoves
    obtain ⟨hpulls₂, hwrites₂⟩ := hroom₂
    exact ⟨by omega, by omega⟩
  refine (works_verify_and_publish htouches' hw₃).seq fun published w₄ h₄ => ?_
  have hmoved := (hsame.moves.trans hmoves).trans h₄.moves
  have hn : 0 + n + 0 = total.toNat := by
    rw [htotal]
    rfl
  rw [hn] at hmoved
  exact hmoved

/-- What the ticket still allows. -/
def left (ticket : TransferTicket) (total : UInt64) : Nat := ticket.max_bytes.toNat - total.toNat

theorem works_copy_next {total : UInt64}
    (htouches : ticket.allows object.object_id → b.touches object.spec)
    (hroom : Room i b (left ticket total) w) :
    Works blake3 i b
      (executor.copy_next backend blake3 ticket i.1 i.2 total object)
      (fun next w' => Room i b (left ticket next.1) w') w := by
  unfold copy_next
  have hw := hroom.within
  refine (works_resume_offset hw).seq fun resumed w₁ h₁ => ?_
  obtain ⟨hrely, size, rfl, hlen⟩ := h₁
  apply works_checked
  intro _ hresumed
  have hle : size.getD 0 ≤ object.spec.size := ensure_eq_ok.mp hresumed
  have hsub : (object.spec.size - size.getD 0).toNat =
      object.spec.size.toNat - (size.getD 0).toNat := UInt64.toNat_sub_of_le _ _ hle
  apply works_checked
  intro allowed hallowed
  have hallowed' := checked_sub_eq_some.mp (ok_or_eq_ok.mp hallowed)
  apply works_checked
  intro _ hremaining
  have hremaining' := le_iff_toNat_le.mp (ensure_eq_ok.mp hremaining)
  -- the staged file is not changed between the two inspections
  have hstored := hlen.toNat_eq
  rw [← hrely.staged] at hstored
  obtain ⟨hpulls, hwrites⟩ := hroom
  have hpulled := hrely.pulled
  have hwritten := hrely.written
  have hroom₁ : Room i b
      (object.size.toNat - (stored (w₁.volume (i.staged object.object_id))).length) w₁ := by
    have hsize : object.spec.size.toNat = object.size.toNat := rfl
    unfold left at hpulls hwrites
    exact ⟨by omega, by omega⟩
  refine (works_copy_object htouches hroom₁).seq fun result w₂ h₂ => ?_
  apply works_checked
  intro total' htotal
  have htotal' := checked_add_eq_some.mp (ok_or_eq_ok.mp htotal)
  apply works_checked
  intro _ hmax
  have hmax' := le_iff_toNat_le.mp (ensure_eq_ok.mp hmax)
  obtain ⟨hpulled₂, hwritten₂⟩ := h₂
  unfold left at hpulls hwrites ⊢
  exact ⟨by show _ + (_ - total'.toNat) ≤ _; omega, by show _ + (_ - total'.toNat) ≤ _; omega⟩

/-- **Run**: the loop over the objects moves no more bytes than the ticket leaves. -/
theorem works_copy_objects {object_set : List CommitObject} {total : UInt64}
    (htouches : ∀ object ∈ object_set, ticket.allows object.object_id → b.touches object.spec)
    (hroom : Room i b (left ticket total) w) :
    Works blake3 i b
      (executor.copy_objects backend blake3 ticket i.1 i.2 object_set total)
      (fun _ _ => True) w := by
  induction object_set generalizing total w with
  | nil => trivial
  | cons object object_set ih =>
    unfold copy_objects
    refine (works_copy_next (htouches object mem_cons_self) hroom).seq fun next w₁ h₁ => ?_
    have hrest := ih (fun o ho => htouches o (mem_cons_of_mem _ ho)) h₁
    exact hrest.seq fun _ _ _ => trivial

end Operations

end NeoEngram.Runtime

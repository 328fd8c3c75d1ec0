import NeoEngram.Runtime.TransferIntegrity

/-! # Retrying a transfer

A copy that fails leaves its staged bytes, and the next copy of the same
transfer goes on where they end. On a volume that works, with a source that
serves the right bytes, it succeeds exactly if the staged bytes, completed with
the rest of the object, are the object, or if the object is there already:
staged bytes are never checked before the end and never given up.
-/

namespace NeoEngram.Runtime

open Checks Effects Framing List Function VolumeCasBackend LooseObjectStore Volume UInt64

/-! ## Operations that succeed -/

variable {object_id : ObjectId} {v' : Volume}

section Operations

variable {bytes : Bytes} {now : Nat} {v : Volume} {path : Location}

/-- What an operation comes to on a volume that works. -/
def served {α : Type} (bytes : Bytes) (now : Nat) (x : Program α) (v : Volume) :
    EngineResult α × Volume :=
  eval (fun v c => Volume.serve bytes now v c) x v

variable {content : FileContent} {size : Option UInt64} {α β : Type} {f : α → Program β}

theorem serving_seq {x : Program α} {a : α} (h : served bytes now x v = (.ok a, v')) :
    served bytes now (x >>= f) v = served bytes now (f a) v' :=
  eval_bind_ok h

theorem serving_ask {β : Type} {c : FileCall} {f : c.Answer → Program β} {r : c.Answer}
    (h : v.serve bytes now c = (r, v')) :
    served bytes now (request c >>= f) v = served bytes now (f r) v' := by
  have hrequest : served bytes now (request c) v = (.ok r, v') := by
    show (Except.ok (v.serve bytes now c).1, (v.serve bytes now c).2) = _
    rw [h]
  exact serving_seq hrequest

theorem serving_check {x : EngineResult α} {a : α}
    (h : x = .ok a) : served bytes now (checked x >>= f) v = served bytes now (f a) v :=
  serving_seq (by rw [h]; rfl)

theorem serving_fail {x : EngineResult α} {e : EngineError}
    (h : x = .error e) : served bytes now (checked x >>= f) v = (.error e, v) :=
  eval_bind_error (by rw [h]; rfl)

theorem Volume.put_put (v : Volume) (path : Location) (a b : FileContent) :
    (v.put path a).put path b = v.put path b :=
  update_idem _ _ _

variable {message : String}

theorem io_ok {α : Type} {a : α} : io message (.ok a) = .ok a :=
  rfl

section

variable (h : v path = some (.file content))

include h

theorem serve_metadata :
    v.serve bytes now (.symlink_metadata path) = (.ok ⟨.file, content.len⟩, v) := by
  simp [serve, h, Entry.metadata]

omit h in
theorem serve_metadata_none (h : v path = none) :
    v.serve bytes now (.symlink_metadata path) = (.error .NotFound, v) := by
  simp [serve, h]

theorem serve_opened : v.serve bytes now (.opened path) = (.ok ⟨.file, content.len⟩, v) := by
  simp [serve, h, Entry.metadata]

theorem serve_open_for_reading : v.serve bytes now (.open_for_reading path) = (.ok (), v) := by
  simp [serve, h]

theorem serve_read_to_end : v.serve bytes now (.read_to_end path) = (.ok content.bytes, v) := by
  simp [serve, h]

end

variable {description : String}

theorem serving_metadata_none (h : v path = none) :
    served bytes now (ordinary_file_metadata path description) v = (.ok none, v) := by
  unfold ordinary_file_metadata
  rw [serving_ask (serve_metadata_none h)]
  rfl

theorem serving_metadata_file (h : v path = some (.file content)) :
    served bytes now (ordinary_file_metadata path description) v =
      (.ok (some ⟨.file, content.len⟩), v) := by
  unfold ordinary_file_metadata
  rw [serving_ask (serve_metadata h)]
  rfl

theorem serving_staged_length (h : HasLength (v path) size) :
    served bytes now (staged_length path) v = (.ok size, v) := by
  unfold staged_length
  cases size with
  | none =>
    rw [serving_seq (serving_metadata_none h)]
    rfl
  | some n =>
    obtain ⟨content, hcontent, rfl⟩ := h
    rw [serving_seq (serving_metadata_file hcontent)]
    rfl

theorem serving_opened {size : UInt64} (h : v path = some (.file content))
    (hlen : content.len = size) :
    served bytes now (ensure_opened_ordinary_file path size description) v = (.ok (), v) := by
  unfold ensure_opened_ordinary_file
  rw [serving_ask (serve_opened h), serving_check io_ok, serving_ask (serve_metadata h),
    serving_check io_ok, serving_check (a := ()) (ensure_eq_ok.mpr ⟨rfl, rfl, hlen, hlen⟩)]
  rfl

theorem serve_open_for_writing (bytes : Bytes) (now : Nat) (h : HasLength (v path) size) :
    ∃ content : FileContent, content.bytes = stored (v path) ∧ content.len = size.getD 0 ∧
      v.serve bytes now (.open_for_writing path) = (.ok (), v.put path content) := by
  cases size with
  | none =>
    have hnone : v path = none := h
    exact ⟨.empty, by rw [hnone]; rfl, rfl, by simp [serve, hnone]⟩
  | some n =>
    obtain ⟨content, hcontent, rfl⟩ := h
    refine ⟨content, by rw [hcontent]; rfl, rfl, ?_⟩
    have hsame : v.put path content = v := by
      rw [put, ← hcontent, update_eq_self]
    rw [hsame]
    simp [serve, hcontent]

variable {offset : UInt64}

/-- A chunk that starts at the end of the staged file is appended to it. -/
theorem serving_append_chunk (bytes : Bytes) (now : Nat) (expected : ObjectSpec)
    (staging_dir : Location) {chunk : Bytes} (accepted : UInt64)
    {staged_size : UInt64} (hlen : HasLength (v path) size) (hoffset : offset = size.getD 0)
    (hsize : offset.toNat + chunk.length = staged_size.toNat) :
    ∃ content : FileContent, content.bytes = stored (v path) ++ chunk ∧
      served bytes now (append_chunk expected staging_dir path offset chunk
        accepted staged_size) v =
      (.ok ⟨accepted, staged_size, staged_size == expected.size⟩, v.put path content) := by
  obtain ⟨old, hold, holdlen, hopen⟩ := serve_open_for_writing bytes now hlen
  have hlength : old.bytes.length = offset.toNat := by
    rw [hoffset, ← holdlen, old.toNat_len]
  have hfits : (old.bytes ++ chunk).length < 2 ^ 64 := by
    rw [length_append, hlength, hsize]
    exact staged_size.toNat_lt
  have hfile : (v.put path old) path = some (.file old) := update_self _ _ _
  have hwrite : (v.put path old).serve bytes now (.write_all path offset chunk) =
      (.ok (), v.put path ⟨old.bytes ++ chunk, hfits⟩) := by
    have hover : overwrite old.bytes offset.toNat chunk = old.bytes ++ chunk := by
      rw [← hlength, overwrite_length]
    simp only [serve, hfile, hover]
    rw [dif_pos hfits, put_put]
  have hnew : (v.put path ⟨old.bytes ++ chunk, hfits⟩) path =
      some (.file ⟨old.bytes ++ chunk, hfits⟩) := update_self _ _ _
  have hnewlen : FileContent.len ⟨old.bytes ++ chunk, hfits⟩ = staged_size := by
    rw [FileContent.len_eq_iff, length_append, hlength, hsize]
  refine ⟨⟨old.bytes ++ chunk, hfits⟩, by show old.bytes ++ chunk = _; rw [hold], ?_⟩
  unfold append_chunk
  have hmeta : ∃ m, served bytes now (ordinary_file_metadata path "staged object") v =
      (.ok m, v) := by
    cases size with
    | none => exact ⟨_, serving_metadata_none hlen⟩
    | some n =>
      obtain ⟨content, hcontent, -⟩ := hlen
      exact ⟨_, serving_metadata_file hcontent⟩
  obtain ⟨m, hm⟩ := hmeta
  rw [serving_seq hm]
  show served _ _ (request (.open_for_writing path) >>= _) _ = _
  rw [serving_ask hopen, serving_check io_ok,
    serving_seq (serving_opened hfile (holdlen.trans hoffset.symm)), serving_ask rfl,
    serving_check io_ok, serving_ask hwrite, serving_check io_ok, serving_ask rfl,
    serving_check io_ok, serving_seq (serving_opened hnew hnewlen)]
  cases m with
  | none => rfl
  | some metadata => rfl

def Ordinary (entry : Option Entry) : Prop := entry = none ∨ ∃ content, entry = some (.file content)

variable {entry : Option Entry}

theorem Ordinary.hasLength (h : Ordinary entry) : ∃ size, HasLength entry size := by
  rcases h with rfl | ⟨content, rfl⟩
  · exact ⟨none, rfl⟩
  · exact ⟨some content.len, content, rfl, rfl⟩

/-- The length of an ordinary file is the offset at which the transfer goes on. -/
theorem HasLength.offset_eq (h : HasLength entry size)
    (hoffset : offset.toNat = (stored entry).length) : offset = size.getD 0 :=
  UInt64.toNat_inj.mp (hoffset.trans h.toNat_eq.symm)

variable {backend : VolumeCasBackend} {i : Transfer}

theorem serving_ensure_transfer_staging (hscope : backend.validate_scope i.1 = .ok ()) :
    served bytes now (backend.ensure_transfer_staging i.2 i.1) v =
      (.ok (transfer_staging_path i.2 i.1), v) := by
  unfold ensure_transfer_staging
  rw [serving_check hscope]
  rfl

theorem serving_stage_write (bytes : Bytes) (now : Nat) {expected : ObjectSpec}
    {accepted staged_size : UInt64} {chunk : Bytes} (hscope : backend.validate_scope i.1 = .ok ())
    (hcheck : check_chunk expected offset chunk = .ok (accepted, staged_size))
    (hordinary : Ordinary (v (i.staged expected.id)))
    (hoffset : offset.toNat = (stored (v (i.staged expected.id))).length) :
    ∃ content : FileContent, content.bytes = stored (v (i.staged expected.id)) ++ chunk ∧
      served bytes now (backend.stage_write i.2 i.1 expected offset chunk) v =
      (.ok ⟨accepted, staged_size, staged_size == expected.size⟩,
        v.put (i.staged expected.id) content) := by
  obtain ⟨size, hlen⟩ := hordinary.hasLength
  have hcurrent := hlen.offset_eq hoffset
  obtain ⟨-, hsize, -⟩ := check_chunk_eq_ok hcheck
  obtain ⟨content, hcontent, happend⟩ := serving_append_chunk bytes now expected
    (transfer_staging_path i.2 i.1) accepted hlen hcurrent hsize
  refine ⟨content, hcontent, ?_⟩
  unfold stage_write
  rw [serving_check hscope, serving_check hcheck]
  show served _ _ (backend.ensure_transfer_staging i.2 i.1 >>= _) _ = _
  rw [serving_seq (serving_ensure_transfer_staging hscope)]
  show served _ _ (staged_length (i.staged expected.id) >>= _) _ = _
  rw [serving_seq (serving_staged_length hlen)]
  show served _ _ (if offset ≠ size.getD 0 then _ else _) _ = _
  rw [if_neg (not_not.mpr hcurrent)]
  exact happend

/-- The volumes agree but for the staged file, which has got the bytes `rest`. -/
structure Extends (path : Location) (rest : Bytes) (v v' : Volume) : Prop where
  ordinary : Ordinary (v' path)
  stored_eq : stored (v' path) = stored (v path) ++ rest
  frame : ∀ path', path' ≠ path → v' path' = v path'

theorem Extends.refl (h : Ordinary (v path)) : Extends path [] v v :=
  ⟨h, (append_nil _).symm, fun _ _ => rfl⟩

theorem Extends.trans {v'' : Volume} {rest rest' : Bytes} (h : Extends path rest v v')
    (h' : Extends path rest' v' v'') : Extends path (rest ++ rest') v v'' :=
  ⟨h'.ordinary, by rw [h'.stored_eq, h.stored_eq, append_assoc],
    fun path' hne => (h'.frame path' hne).trans (h.frame path' hne)⟩

theorem extends_put {rest : Bytes}
    (h : content.bytes = stored (v path) ++ rest) : Extends path rest v (v.put path content) := by
  have hself : v.put path content path = some (.file content) := update_self _ _ _
  refine ⟨.inr ⟨content, hself⟩, ?_, fun path' hne => update_of_ne hne _ _⟩
  rw [hself]
  exact h

variable {executor : ObjectSetTransferExecutor} {expected : ObjectSpec}

/-- One round of the loop, with a source that serves the right bytes. -/
theorem serving_copy_chunk (now : Nat) (executor : ObjectSetTransferExecutor)
    (hscope : backend.validate_scope i.1 = .ok ())
    (hbytes : bytes.length = expected.size.toNat) {transferred : UInt64}
    (hordinary : Ordinary (v (i.staged expected.id)))
    (hoffset : offset.toNat = (stored (v (i.staged expected.id))).length)
    (hlt : offset < expected.size)
    (hroom : transferred.toNat + (expected.size.toNat - offset.toNat) < 2 ^ 64) :
    ∃ next total n v', 0 < n ∧ next.toNat = offset.toNat + n ∧
      total.toNat = transferred.toNat + n ∧ next.toNat ≤ expected.size.toNat ∧
      Extends (i.staged expected.id) ((bytes.drop offset.toNat).take n) v v' ∧
      served bytes now (executor.copy_chunk backend i.1 i.2 expected offset transferred) v =
        (.ok (next, total), v') := by
  have hlt' := lt_iff_toNat_lt.mp hlt
  have hsub : (expected.size - offset).toNat = expected.size.toNat - offset.toNat :=
    UInt64.toNat_sub_of_le _ _ (UInt64.le_of_lt hlt)
  have hchunk : (ofNat executor.chunk_bytes).toNat = executor.chunk_bytes :=
    toNat_ofNat_of_lt' (lt_of_le_of_lt executor.bounded (by decide))
  have hlength := toNat_min (expected.size - offset) (ofNat executor.chunk_bytes)
  rw [hsub, hchunk] at hlength
  unfold ObjectSetTransferExecutor.copy_chunk
  dsimp only
  -- of the length of the chunk only its bounds matter below
  generalize min (expected.size - offset) (ofNat executor.chunk_bytes) = length at hlength ⊢
  have hpositive := executor.positive
  have hbounded := executor.bounded
  have hn : 0 < length.toNat := by omega
  have hle : length.toNat ≤ expected.size.toNat - offset.toNat := by omega
  have hmax : length.toNat ≤ MAX_OBJECT_TRANSFER_CHUNK_BYTES := by omega
  have hsize := expected.size.toNat_lt
  obtain ⟨next, hnext⟩ : ∃ next, checked_add offset length = some next :=
    ⟨offset + length, checked_add_eq_some.mpr
      (by rw [UInt64.toNat_add, Nat.mod_eq_of_lt (by omega)])⟩
  obtain ⟨total, htotal⟩ : ∃ total, checked_add transferred length = some total :=
    ⟨transferred + length, checked_add_eq_some.mpr
      (by rw [UInt64.toNat_add, Nat.mod_eq_of_lt (by omega)])⟩
  have hnext' := checked_add_eq_some.mp hnext
  have htotal' := checked_add_eq_some.mp htotal
  have hrange : ObjectRange.new offset length = .ok ⟨offset, length⟩ := by
    simp only [ObjectRange.new, ok_iff]
    refine ⟨fun h => ?_, hmax, by rw [hnext]; rfl, trivial⟩
    rw [h] at hn
    exact absurd hn (by decide)
  have hserved : ((bytes.drop offset.toNat).take length.toNat).length = length.toNat := by
    rw [length_take, length_drop]
    omega
  -- the target accepts what the source served
  have hcheck : check_chunk expected offset
      ((bytes.drop offset.toNat).take length.toNat) = .ok (length, next) := by
    simp only [check_chunk, ok_iff, u64_try_from_eq_some, hserved]
    refine ⟨fun h => ?_, hmax, length, rfl, next, hnext, le_iff_toNat_le.mpr (by omega), rfl⟩
    rw [h] at hserved
    exact absurd hserved.symm (by simpa using Nat.ne_of_gt hn)
  obtain ⟨content, hcontent, hstage⟩ :=
    serving_stage_write bytes now hscope hcheck hordinary hoffset
  refine ⟨next, total, length.toNat, _, hn, hnext'.symm, htotal'.symm, by omega,
    extends_put hcontent, ?_⟩
  rw [serving_check hrange, serving_ask rfl]
  refine (serving_check rfl).trans ?_
  show served _ _ (checked (ensure _ _) >>= _) _ = _
  rw [serving_check (a := ()) (ensure_eq_ok.mpr ⟨rfl, hserved⟩), serving_seq hstage,
    serving_check (ok_or_eq_ok.mpr hnext), serving_check (a := ()) (ensure_eq_ok.mpr ⟨rfl, rfl⟩),
    serving_check (ok_or_eq_ok.mpr htotal)]
  rfl

/-- **Run**: the loop completes the staged file with the rest of the bytes. -/
theorem serving_copy_chunks (now : Nat) (executor : ObjectSetTransferExecutor)
    (expected : ObjectSpec) (hscope : backend.validate_scope i.1 = .ok ())
    (hbytes : bytes.length = expected.size.toNat) (rounds : Nat) {transferred : UInt64}
    (hordinary : Ordinary (v (i.staged expected.id)))
    (hoffset : offset.toNat = (stored (v (i.staged expected.id))).length)
    (hle : offset.toNat ≤ expected.size.toNat)
    (hrounds : expected.size.toNat - offset.toNat ≤ rounds)
    (hroom : transferred.toNat + (expected.size.toNat - offset.toNat) < 2 ^ 64) :
    ∃ total v', Extends (i.staged expected.id) (bytes.drop offset.toNat) v v' ∧
      served bytes now
        (executor.copy_chunks backend i.1 i.2 expected rounds offset transferred) v =
        (.ok total, v') := by
  induction rounds generalizing offset transferred v with
  | zero =>
    have hdrop : bytes.drop offset.toNat = [] := drop_eq_nil_of_le (by omega)
    exact ⟨transferred, v, hdrop ▸ Extends.refl hordinary, rfl⟩
  | succ rounds ih =>
    unfold ObjectSetTransferExecutor.copy_chunks
    by_cases hlt : offset < expected.size
    · obtain ⟨next, total, n, v₁, hn, hnext, htotal, hnext_le, hext, hround⟩ :=
        serving_copy_chunk now executor hscope hbytes hordinary hoffset hlt hroom
      have hlt' := lt_iff_toNat_lt.mp hlt
      have hoffset₁ : next.toNat = (stored (v₁ (i.staged expected.id))).length := by
        rw [hext.stored_eq, length_append, length_take, length_drop]
        omega
      have hroom₁ : total.toNat + (expected.size.toNat - next.toNat) < 2 ^ 64 := by omega
      obtain ⟨total', v', hext', hrest⟩ := ih hext.ordinary hoffset₁ hnext_le (by omega) hroom₁
      refine ⟨total', v', ?_, ?_⟩
      · have hsplit : (bytes.drop offset.toNat).take n ++ bytes.drop next.toNat =
            bytes.drop offset.toNat := by
          rw [hnext, ← drop_drop, take_append_drop]
        exact hsplit ▸ hext.trans hext'
      · rw [if_pos hlt, serving_seq hround]
        exact hrest
    · have hge : expected.size.toNat ≤ offset.toNat := by
        rw [lt_iff_toNat_lt] at hlt
        omega
      have hdrop : bytes.drop offset.toNat = [] := drop_eq_nil_of_le (by omega)
      refine ⟨transferred, v, hdrop ▸ Extends.refl hordinary, ?_⟩
      rw [if_neg hlt]
      rfl

/-! ### Publication -/

variable {blake3 : Blake3} {store : LooseObjectStore}

theorem serving_ensure_object_store (hscope : backend.validate_scope i.1 = .ok ()) :
    served bytes now (backend.ensure_object_store i.1) v =
      (.ok ⟨backend.tenant_objects_path i.1⟩, v) := by
  unfold ensure_object_store
  rw [serving_check hscope]
  rfl

theorem serving_verify_identity : served bytes now (verify_identity path) v = (.ok (), v) :=
  rfl

theorem serving_store_validate : served bytes now store.validate_layout v = (.ok (), v) :=
  rfl

theorem serving_stat {id : ObjectId} (h : v (store.object_path id) = some (.file content)) :
    served bytes now (store.stat id) v = (.ok (some content.len), v) := by
  unfold stat
  rw [serving_seq serving_verify_identity, serving_ask (serve_metadata h)]
  rfl

theorem serving_stat_none {id : ObjectId} (h : v (store.object_path id) = none) :
    served bytes now (store.stat id) v = (.ok none, v) := by
  unfold stat
  rw [serving_seq serving_verify_identity, serving_ask (serve_metadata_none h)]
  rfl

theorem serving_verify (bytes : Bytes) (now : Nat)
    (h : v (store.object_path expected.id) = some (.file content))
    (hdigest : (⟨blake3 content.bytes⟩ : ObjectId) = expected.id) :
    ((∃ v', served bytes now (store.verify blake3 expected) v = (.ok (), v')) ↔
      content.len = expected.size) ∧
      (served bytes now (store.verify blake3 expected) v).2 = v := by
  unfold verify
  rw [serving_seq serving_store_validate, serving_ask (serve_metadata h)]
  show ((∃ v', served _ _ (checked (.ok _) >>= _) _ = _) ↔ _) ∧
    (served _ _ (checked (.ok _) >>= _) _).2 = _
  rw [serving_check rfl]
  by_cases hsize : content.len = expected.size
  · have hexact : check_exact blake3 content.bytes expected .ObjectCorrupt = .ok () :=
      check_exact_eq_ok.mpr ⟨FileContent.len_eq_iff.mp hsize, hdigest⟩
    rw [serving_check (a := ()) (ensure_eq_ok.mpr ⟨rfl, hsize⟩),
      serving_ask (serve_open_for_reading h), serving_check io_ok,
        serving_ask (serve_read_to_end h),
      serving_check io_ok, hexact]
    exact ⟨⟨fun _ => hsize, fun _ => ⟨v, rfl⟩⟩, rfl⟩
  · have hensure : ∀ error : EngineError,
        ensure ((⟨.file, content.len⟩ : Metadata).file_type = .file ∧ content.len = expected.size)
          error = .error error := fun error => if_neg fun h => hsize h.2
    rw [serving_fail (hensure _)]
    refine ⟨⟨?_, fun h => absurd h hsize⟩, rfl⟩
    rintro ⟨_, h⟩
    cases h

/-- The object is visible, and it is the right one. -/
def Published (blake3 : Blake3) (backend : VolumeCasBackend) (i : Transfer) (object_id : ObjectId)
    (v : Volume) : Prop :=
  ∃ entry, v (backend.object_path i.1 object_id) = some entry ∧ IntactAt blake3 object_id entry

theorem serving_put_from {source : Location} (hsource : v source = some (.file content))
    (habsent : v (backend.object_path i.1 expected.id) = none)
    (hexact : content.bytes.length = expected.size.toNat ∧
      (⟨blake3 content.bytes⟩ : ObjectId) = expected.id) :
    served bytes now
      (put_from blake3 ⟨backend.tenant_objects_path i.1⟩ expected source) v =
      (.ok .Created, v.put (backend.object_path i.1 expected.id) content) := by
  have habsent' : v (object_path ⟨backend.tenant_objects_path i.1⟩
    expected.id) = none := habsent
  have hpersist : v.serve bytes now (.persist_noclobber
      (object_path ⟨backend.tenant_objects_path i.1⟩ expected.id) content.bytes) =
      (.ok (), v.put (backend.object_path i.1 expected.id) content) := by
    simp only [serve, habsent']
    rw [dif_pos content.fits]
    rfl
  have hinitialize : served bytes now
      (initialize_layout ⟨backend.tenant_objects_path i.1⟩) v = (.ok (), v) := rfl
  unfold put_from
  rw [serving_seq hinitialize, serving_seq (serving_stat_none habsent')]
  show served _ _ (request (.create_temporary _) >>= _) _ = _
  rw [serving_ask rfl, serving_check io_ok, serving_ask (serve_read_to_end hsource),
    serving_check io_ok, serving_ask rfl, serving_check io_ok,
    serving_check (check_exact_eq_ok.mpr hexact), serving_ask rfl, serving_check io_ok]
  unfold persist
  rw [serving_ask hpersist]
  rfl

theorem serving_create_if_missing {directory : Location}
    (hordinary : Ordinary (v path)) (hlength : (stored (v path)).length = expected.size.toNat) :
    ∃ content : FileContent, content.bytes = stored (v path) ∧
      served bytes now (create_if_missing expected.size directory path message) v =
        (.ok (), v.put path content) := by
  rcases hordinary with hnone | ⟨content, hcontent⟩
  · -- without a file there are no bytes, so that the object is empty
    have hzero : expected.size = 0 := by
      rw [hnone] at hlength
      exact UInt64.toNat_inj.mp hlength.symm
    refine ⟨.empty, by rw [hnone]; rfl, ?_⟩
    unfold create_if_missing
    rw [if_pos hzero, serving_seq (serving_metadata_none hnone)]
    rfl
  · refine ⟨content, by rw [hcontent]; rfl, ?_⟩
    have hsame : v.put path content = v := by
      rw [put, ← hcontent, update_eq_self]
    unfold create_if_missing
    rw [hsame]
    split
    · rw [serving_seq (serving_metadata_file hcontent)]
      rfl
    · rfl

/-- A staged file of the right length is published exactly if it is the object. -/
theorem serving_publish_staged {staging_dir : Location}
    (hordinary : Ordinary (v (i.staged expected.id)))
    (hlength : (stored (v (i.staged expected.id))).length = expected.size.toNat)
    (habsent : v (backend.object_path i.1 expected.id) = none) :
    (∃ outcome v', served bytes now
        (publish_staged blake3 ⟨backend.tenant_objects_path i.1⟩ expected
          staging_dir (i.staged expected.id)) v = (.ok outcome, v') ∧
        Published blake3 backend i expected.id v') ↔
      (⟨blake3 (stored (v (i.staged expected.id)))⟩ : ObjectId) = expected.id := by
  obtain ⟨content, hbytes, hcreate⟩ : ∃ content : FileContent,
      content.bytes = stored (v (i.staged expected.id)) ∧
      served bytes now (create_if_missing expected.size staging_dir (i.staged expected.id)
        "failed to create empty staged object") v =
          (.ok (), v.put (i.staged expected.id) content) :=
    serving_create_if_missing hordinary hlength
  rw [← hbytes] at hlength ⊢
  have hfile : v.put (i.staged expected.id) content (i.staged expected.id) =
      some (.file content) := update_self _ _ _
  have habsent' : v.put (i.staged expected.id) content (backend.object_path i.1 expected.id) =
      none := by
    rw [put_staged_object, habsent]
  unfold publish_staged
  rw [serving_seq hcreate, serving_ask (serve_open_for_reading hfile)]
  show (∃ outcome v', served _ _ (checked (.ok ()) >>= _) _ = _ ∧ _) ↔ _
  rw [serving_check rfl, serving_seq (serving_opened hfile (FileContent.len_eq_iff.mpr hlength)),
    serving_ask (serve_read_to_end hfile), serving_check io_ok]
  by_cases hdigest : (⟨blake3 content.bytes⟩ : ObjectId) = expected.id
  · refine ⟨fun _ => hdigest, fun _ => ?_⟩
    have hverify : verify_reader blake3 content.bytes expected = .ok () :=
      ensure_eq_ok.mpr ⟨hlength, hdigest⟩
    have hremove : ∀ v : Volume, v (i.staged expected.id) = some (.file content) →
        v.serve bytes now (.remove_file (i.staged expected.id)) =
          (.ok (), v.erase (i.staged expected.id)) := by
      intro v hv
      simp [serve, hv]
    have hstaged : (v.put (i.staged expected.id) content).put
        (backend.object_path i.1 expected.id) content (i.staged expected.id) =
        some (.file content) := by
      rw [put, update_of_ne (i.staged_ne_object_path _ _ _ _), hfile]
    have hbarrier : ∀ v, served bytes now
      (durability_barrier ⟨backend.tenant_objects_path i.1⟩) v = (.ok (), v) :=
      fun _ => rfl
    rw [serving_check hverify, serving_ask rfl, serving_check io_ok,
      serving_seq (serving_put_from hfile habsent' ⟨hlength, hdigest⟩), serving_seq (hbarrier _),
      serving_ask (hremove _ hstaged), serving_check io_ok]
    refine ⟨.Created, _, rfl, .file content, ?_, content, rfl, hdigest⟩
    show erase _ _ _ = _
    rw [erase, update_of_ne (i.staged_ne_object_path _ _ _ _).symm, put, update_self]
  · have hverify : ∃ e, verify_reader blake3 content.bytes expected = .error e :=
      ⟨_, if_neg fun h => hdigest h.2⟩
    obtain ⟨e, he⟩ := hverify
    rw [serving_fail he]
    refine ⟨?_, fun h => absurd h hdigest⟩
    rintro ⟨_, _, h, _⟩
    cases h

theorem serving_discard_staged (bytes : Bytes) (now : Nat)
    (hscope : backend.validate_scope i.1 = .ok ()) (hordinary : Ordinary (v (i.staged object_id))) :
    ∃ found v', served bytes now (backend.discard_staged i.2 i.1 object_id) v =
        (.ok found, v') ∧ ∀ path, path ≠ i.staged object_id → v' path = v path := by
  have hvalidate : served bytes now backend.validate_layout v = (.ok (), v) := rfl
  unfold discard_staged
  rw [serving_check hscope, serving_seq hvalidate]
  show ∃ found v', served _ _
    (staged_length (i.staged object_id) >>= _) _ = _ ∧ _
  rcases hordinary with hnone | ⟨content, hcontent⟩
  · have hlen : HasLength (v (i.staged object_id)) none := hnone
    rw [serving_seq (serving_staged_length hlen)]
    exact ⟨false, v, rfl, fun _ _ => rfl⟩
  · have hlen : HasLength (v (i.staged object_id)) (some content.len) := ⟨content, hcontent, rfl⟩
    have hremove : v.serve bytes now (.remove_file (i.staged object_id)) =
        (.ok (), v.erase (i.staged object_id)) := by
      simp [serve, hcontent]
    rw [serving_seq (serving_staged_length hlen)]
    show ∃ found v', served _ _ (request (.remove_file (i.staged object_id)) >>= _) _ = _ ∧ _
    rw [serving_ask hremove, serving_check io_ok]
    exact ⟨true, _, rfl, fun path hne => update_of_ne hne _ _⟩

/-- The object is there with the expected size, or it is missing and the staged file is the
object. -/
def Completes (blake3 : Blake3) (backend : VolumeCasBackend) (i : Transfer) (expected : ObjectSpec)
    (staged : Bytes) (v : Volume) : Prop :=
  match v (backend.object_path i.1 expected.id) with
  | some entry => (stored (some entry)).length = expected.size.toNat
  | none => (⟨blake3 staged⟩ : ObjectId) = expected.id

theorem serving_verify_and_publish (bytes : Bytes) (now : Nat)
    (hscope : backend.validate_scope i.1 = .ok ())
    (hintact : Intact blake3 v) (hordinary : Ordinary (v (i.staged expected.id)))
    (hlength : (stored (v (i.staged expected.id))).length = expected.size.toNat) :
    (∃ outcome v', served bytes now (backend.verify_and_publish blake3 i.2 i.1 expected) v =
        (.ok outcome, v') ∧ Published blake3 backend i expected.id v') ↔
      Completes blake3 backend i expected (stored (v (i.staged expected.id))) v := by
  unfold verify_and_publish Completes
  rw [serving_seq (serving_ensure_object_store hscope)]
  cases hobject : v (backend.object_path i.1 expected.id) with
  | none =>
    have habsent : v (object_path ⟨backend.tenant_objects_path i.1⟩
      expected.id) = none := hobject
    rw [serving_seq (serving_stat_none habsent)]
    show (∃ outcome v',
      served _ _ (backend.ensure_transfer_staging i.2 i.1 >>= _) _ = _ ∧ _) ↔ _
    rw [serving_seq (serving_ensure_transfer_staging hscope)]
    exact serving_publish_staged hordinary hlength hobject
  | some entry =>
    obtain ⟨content, rfl, hdigest⟩ := hintact _ _ _ _ hobject
    have hpresent : v (object_path ⟨backend.tenant_objects_path i.1⟩
      expected.id) = some (.file content) := hobject
    rw [serving_seq (serving_stat hpresent)]
    show (∃ outcome v', served _ _ (verify blake3 _ expected >>= _) _ = _ ∧ _) ↔
      content.bytes.length = _
    obtain ⟨hverify, hsame⟩ := serving_verify bytes now hpresent hdigest
    rw [← FileContent.len_eq_iff, ← hverify]
    constructor
    · rintro ⟨outcome, v', hok, -⟩
      obtain ⟨_, v₁, hfirst⟩ := eval_ok_of_bind hok
      exact ⟨v₁, hfirst⟩
    · rintro ⟨v₁, hok⟩
      have hv₁ : v₁ = v := by rw [hok] at hsame; exact hsame
      rw [hv₁] at hok
      obtain ⟨found, v', hdiscard, hframe⟩ := serving_discard_staged bytes now hscope hordinary
      rw [serving_seq hok, serving_seq hdiscard]
      refine ⟨.AlreadyPresent, v', rfl, .file content, ?_, content, rfl, hdigest⟩
      rw [hframe _ (i.staged_ne_object_path _ _ _ _).symm, hobject]

/-! ## The copy of an object -/

/-- What the ticket has to say for the copy to begin. -/
structure Admits (ticket : TransferTicket) (i : Transfer) (object : CommitObject) (now : Nat) :
    Prop where
  valid : ticket.validate = .ok ()
  current : now < ticket.deadline_unix_ms.toNat
  tenant : ticket.tenant_id = i.1
  transfer : ticket.transfer_id = i.2
  allowed : ticket.allows object.object_id

variable {ticket : TransferTicket} {object : CommitObject}

theorem serving_validate_transfer_ticket (h : Admits ticket i object now) :
    served bytes now (validate_transfer_ticket ticket) v = (.ok (), v) := by
  have hcurrent : min now (2 ^ 64 - 1) < ticket.deadline_unix_ms.toNat :=
    lt_of_le_of_lt (min_le_left _ _) h.current
  have hvalid : (ticket.validate.mapError fun error =>
      (⟨.InvalidArgument, error.to_string, []⟩ : EngineError)) = .ok () := by
    rw [h.valid]
    rfl
  have hnow : v.serve bytes now .now = (some now, v) := rfl
  unfold validate_transfer_ticket
  rw [serving_check hvalid, serving_ask hnow, serving_check (ok_or_eq_ok.mpr rfl),
    ensure_eq_ok.mpr hcurrent]
  rfl

theorem serving_resume_offset (hscope : backend.validate_scope i.1 = .ok ())
    (hlen : HasLength (v (i.staged object_id)) size) :
    served bytes now (backend.resume_offset i.2 i.1 object_id) v = (.ok (size.getD 0), v) := by
  have hlayout : served bytes now backend.validate_layout v = (.ok (), v) := rfl
  have hsize : served bytes now (backend.staged_size i.2 i.1 object_id) v = (.ok size, v) := by
    unfold staged_size
    rw [serving_check hscope, serving_seq hlayout]
    exact serving_staged_length hlen
  unfold resume_offset
  rw [serving_seq hsize]
  rfl

theorem Completes.congr {staged : Bytes}
    (h : v' (backend.object_path i.1 expected.id) = v (backend.object_path i.1 expected.id)) :
    Completes blake3 backend i expected staged v' ↔
      Completes blake3 backend i expected staged v := by
  unfold Completes
  rw [h]

theorem serving_copy_object
    (hticket : Admits ticket i object now) (hscope : backend.validate_scope i.1 = .ok ())
    (hbytes : bytes.length = object.size.toNat) (hintact : Intact blake3 v)
    (hordinary : Ordinary (v (i.staged object.object_id)))
    (hle : (stored (v (i.staged object.object_id))).length ≤ object.size.toNat) :
    (∃ outcome v', served bytes now
        (executor.copy_object backend blake3 ticket i.1 i.2 object) v = (.ok outcome, v') ∧
        Published blake3 backend i object.object_id v') ↔
      Completes blake3 backend i object.spec
        (stored (v (i.staged object.object_id)) ++
          bytes.drop (stored (v (i.staged object.object_id))).length) v := by
  obtain ⟨size, hlen⟩ := hordinary.hasLength
  have hoffset := hlen.toNat_eq
  have hle' : (size.getD 0).toNat ≤ object.size.toNat := hoffset ▸ hle
  have hresumed : size.getD 0 ≤ object.spec.size := le_iff_toNat_le.mpr hle'
  have hfits := object.size.toNat_lt
  have hroom : (0 : UInt64).toNat + (object.size.toNat - (size.getD 0).toNat) < 2 ^ 64 := by
    have hzero : (0 : UInt64).toNat = 0 := rfl
    omega
  obtain ⟨total, v₁, hext, hloop⟩ := serving_copy_chunks now executor object.spec hscope hbytes
    (object.spec.size.toNat - (size.getD 0).toNat) hordinary hoffset hle' le_rfl hroom
  have hframe : ∀ backend tenant_id object_id,
      v₁ (object_path backend tenant_id object_id) =
        v (object_path backend tenant_id object_id) :=
    fun _ _ _ => hext.frame _ (i.staged_ne_object_path _ _ _ _).symm
  have hintact₁ : Intact blake3 v₁ := fun backend tenant_id object_id entry h =>
    hintact backend tenant_id object_id entry (hframe _ _ _ ▸ h)
  have hstored := hext.stored_eq
  rw [hoffset] at hstored
  have hlength : (stored (v₁ (i.staged object.spec.id))).length = object.spec.size.toNat := by
    rw [hstored, length_append, length_drop, hbytes]
    exact Nat.add_sub_of_le hle
  have hpublish := serving_verify_and_publish bytes now hscope hintact₁ hext.ordinary hlength
  rw [hstored, Completes.congr (hframe _ _ _)] at hpublish
  refine Iff.trans ?_ hpublish
  unfold ObjectSetTransferExecutor.copy_object
  rw [serving_seq (serving_validate_transfer_ticket hticket), serving_check (a := ())
    (ensure_eq_ok.mpr ⟨hticket.tenant, hticket.transfer, hticket.allowed⟩)]
  show (∃ outcome v', served _ _ (backend.resume_offset i.2 i.1 object.object_id >>= _) _ = _ ∧
    _) ↔ _
  rw [serving_seq (serving_resume_offset hscope hlen), serving_check (a := ())
    (ensure_eq_ok.mpr hresumed), serving_seq hloop]
  constructor
  · rintro ⟨outcome, v', hok, hpublished⟩
    obtain ⟨published, v₂, hfirst⟩ := eval_ok_of_bind hok
    rw [serving_seq hfirst] at hok
    obtain rfl : v₂ = v' := congrArg Prod.snd hok
    exact ⟨published, v₂, hfirst, hpublished⟩
  · rintro ⟨published, v', hok, hpublished⟩
    rw [serving_seq hok]
    exact ⟨_, v', rfl, hpublished⟩

end Operations

/-! ## Staged files after any history -/

variable {blake3 : Blake3}

/-- **Step**: a staged file is left alone or removed, or is a file not longer than the object. -/
theorem Change.staged {i : Transfer} {touches : ObjectSpec → Prop} {v : Volume}
    {c : FileCall} {r : c.Answer} (h : Change blake3 i touches v c r v') (object_id : ObjectId) :
    v' (i.staged object_id) = v (i.staged object_id) ∨ v' (i.staged object_id) = none ∨
      ∃ expected content, touches expected ∧ expected.id = object_id ∧
        v' (i.staged object_id) = some (.file content) ∧
        content.bytes.length ≤ expected.size.toNat := by
  have hother : ∀ id, id ≠ object_id → i.staged object_id ≠ i.staged id :=
    fun id hne hpath => hne (Transfer.staged_injective hpath).2.symm
  cases h with
  | same _ hv => exact .inl (by rw [hv])
  | created expected htouches _ _ hv =>
    by_cases hid : expected.id = object_id
    · refine .inr (.inr ⟨expected, .empty, htouches, hid, ?_, Nat.zero_le _⟩)
      rw [hv, ← hid]
      exact update_self _ _ _
    · refine .inl ?_
      rw [hv]
      exact update_of_ne (hother _ hid) _ _
  | appended expected content content' offset bytes written htouches _ _ hoffset hsize hwritten _
      hcontent' hv =>
    by_cases hid : expected.id = object_id
    · refine .inr (.inr ⟨expected, content', htouches, hid, ?_, ?_⟩)
      · rw [hv, ← hid]
        exact update_self _ _ _
      · rw [hcontent', length_append]
        have hle := hwritten.length_le
        omega
    · refine .inl ?_
      rw [hv]
      exact update_of_ne (hother _ hid) _ _
  | removed expected _ _ hv =>
    by_cases hid : expected.id = object_id
    · refine .inr (.inl ?_)
      rw [hv, ← hid]
      exact update_self _ _ _
    · refine .inl ?_
      rw [hv]
      exact update_of_ne (hother _ hid) _ _
  | published backend expected content _ _ _ _ _ hv =>
    refine .inl ?_
    rw [hv]
    exact update_of_ne (i.staged_ne_object_path _ _ _ _) _ _

/-- The staged file of an object is an ordinary file, if it is there, not longer than the object. -/
def Bounded (i : Transfer) (object_id : ObjectId) (log : List TransferCall) (w : World) : Prop :=
  Ordinary (w.volume (i.staged object_id)) ∧ ∀ size, (∀ e ∈ log, e.worker = i →
    ∀ expected, e.job.Touches expected → expected.id = object_id → expected.size.toNat ≤ size) →
    (stored (w.volume (i.staged object_id))).length ≤ size

variable {log : List TransferCall}

theorem Bounded.step {i : Transfer} {e : TransferCall}
    (hchange : Change blake3 e.worker e.job.Touches e.event.before.volume e.event.call
      e.event.answer e.event.after.volume) (h : Bounded i object_id log e.event.before) :
    Bounded i object_id (log ++ [e]) e.event.after := by
  have hearlier : ∀ size, (∀ e' ∈ log ++ [e], e'.worker = i → ∀ expected,
      e'.job.Touches expected → expected.id = object_id → expected.size.toNat ≤ size) →
      ∀ e' ∈ log, e'.worker = i → ∀ expected, e'.job.Touches expected →
        expected.id = object_id → expected.size.toNat ≤ size :=
    fun size hsize e' he' => hsize e' (mem_append_left _ he')
  by_cases hworker : e.worker = i
  · subst hworker
    rcases hchange.staged object_id with hsame | hgone | ⟨expected, content, htouches, hid,
      hnew, hle⟩
    · rw [Bounded, hsame]
      exact ⟨h.1, fun size hsize => h.2 size (hearlier size hsize)⟩
    · rw [Bounded, hgone]
      exact ⟨.inl rfl, fun size _ => Nat.zero_le size⟩
    · rw [Bounded, hnew]
      refine ⟨.inr ⟨content, rfl⟩, fun size hsize => ?_⟩
      exact hle.trans (hsize e (by simp) rfl expected htouches hid)
  · have hsame := hchange.staged_other (Ne.symm hworker) object_id
    rw [Bounded, hsame]
    exact ⟨h.1, fun size hsize => h.2 size (hearlier size hsize)⟩

theorem TransferRun.bounded {w w' : World}
    (h : TransferRun blake3 w log w') (i : Transfer) (object_id : ObjectId) :
    Bounded i object_id log w' := by
  obtain ⟨pool', hrun, rfl⟩ := h.run
  refine (discipline blake3).history (P := Bounded i object_id) ?_ ?_ hrun h.intact
    (Pool.sound_idle w) ?_
  · intro log e _ hanswer hobeys hbounded
    exact hbounded.step (hobeys.1.change hanswer.1)
  · intro log w w' _ houtside hbounded
    rw [Bounded, houtside.staged i object_id]
    exact hbounded
  · show Bounded i object_id [] w
    rw [Bounded, h.unstaged i object_id]
    exact ⟨.inl rfl, fun size _ => Nat.zero_le size⟩

/-! ## Retries -/

/-- **Retrying a transfer.** After any history of a transfer, and of others, a copy of the object
on a volume that works, with a source that serves the right bytes, succeeds and publishes the
object if and only if the object is there already, or the staged bytes together with the
missing ones are the object. -/
theorem transfer_retry {blake3 : Blake3} {w w' : World} {log : List TransferCall}
    (hrun : TransferRun blake3 w log w') {i : Transfer} {object : CommitObject} {bytes : Bytes}
    (hsizes : ∀ e ∈ log, e.worker = i → ∀ expected, e.job.Touches expected →
      expected.id = object.object_id → expected.size = object.size)
    (hbytes : bytes.length = object.size.toNat)
    {executor : ObjectSetTransferExecutor} {backend : VolumeCasBackend}
    (hscope : backend.validate_scope i.1 = .ok ()) {ticket : TransferTicket} {now : Nat}
    (hticket : Admits ticket i object now) :
    (∃ outcome v', served bytes now
        (executor.copy_object backend blake3 ticket i.1 i.2 object) w'.volume = (.ok outcome, v') ∧
        Published blake3 backend i object.object_id v') ↔
      Completes blake3 backend i object.spec
        (stored (w'.volume (i.staged object.object_id)) ++
          bytes.drop (stored (w'.volume (i.staged object.object_id))).length) w'.volume := by
  obtain ⟨hordinary, hbound⟩ := hrun.bounded i object.object_id
  refine serving_copy_object hticket hscope hbytes hrun.intact_after hordinary (hbound _ ?_)
  intro e he hworker expected htouches hid
  rw [hsizes e he hworker expected htouches hid]

theorem sample_admits : Admits sample_ticket sample_transfer sample_object 0 :=
  ⟨by decide +kernel, by decide, rfl, rfl, by decide +kernel⟩

/-- The history of a job that one transfer has run alone. -/
theorem TransferRun.sample {answer : Volume → (c : FileCall) → c.Answer × Volume}
    (hanswer : ∀ v c, Volume.Answers v c (answer v c).1 (answer v c).2) (job : Job)
    (hjob : ∀ expected, job.Touches expected → expected = sample_object.spec) :
    ∃ log, TransferRun poly_hash sample_world log
        ((job.program poly_hash sample_transfer).run_with
          (fun w c => w.answer answer sample_transfer c) sample_world).2.1 ∧
      ∀ e ∈ log, e.worker = sample_transfer → ∀ expected, e.job.Touches expected →
        expected.id = sample_object.object_id → expected.size = sample_object.size := by
  refine ⟨_, .of_job sample_intact (fun _ _ => rfl) hanswer sample_transfer job, ?_⟩
  intro e he _ expected htouches _
  obtain ⟨event, -, rfl⟩ := mem_map.mp he
  rw [hjob expected htouches]
  rfl

/-- A write has broken off after the first byte, and the next copy succeeds. -/
theorem transfer_retry_sample :
    stored (broken_run.2.1.volume (sample_transfer.staged sample_object.object_id)) = [1] ∧
      ∃ outcome v', served sample_bytes 0
        (sample_executor.copy_object sample_backend poly_hash sample_ticket sample_transfer.1
          sample_transfer.2 sample_object) broken_run.2.1.volume = (.ok outcome, v') ∧
        Published poly_hash sample_backend sample_transfer sample_object.object_id v' := by
  have hstaged : stored (broken_run.2.1.volume
      (sample_transfer.staged sample_object.object_id)) = [1] := by decide +kernel
  have habsent : broken_run.2.1.volume
      (sample_backend.object_path sample_transfer.1 sample_object.object_id) = none := by
    decide +kernel
  obtain ⟨log, hrun, hsizes⟩ := TransferRun.sample (fun v c => v.answers_break_off c)
    sample_write fun _ h => h
  refine ⟨hstaged, (transfer_retry hrun hsizes (by decide) rfl sample_admits).mpr ?_⟩
  have habsent' : broken_run.2.1.volume (sample_backend.object_path sample_transfer.1
    sample_object.spec.id) = none := habsent
  show Completes _ _ _ _ (stored (broken_run.2.1.volume _) ++ _) broken_run.2.1.volume
  unfold Completes
  rw [habsent', hstaged]
  rfl

def sample_attempt : Job := .copy_object sample_executor sample_backend sample_ticket sample_object

def corrupt_run :=
  (sample_attempt.program poly_hash sample_transfer).run_with
    (fun w c => w.answer (fun v c => v.serve [8, 9] 0 c) sample_transfer c) sample_world

def sample_retry :=
  served sample_bytes 0
    (sample_executor.copy_object sample_backend poly_hash sample_ticket sample_transfer.1
      sample_transfer.2 sample_object) corrupt_run.2.1.volume

/-- After a copy from a source with wrong bytes, one from a right source fails and leaves the staged
file, so the next one fails too. -/
theorem retry_after_corrupt_source :
    (∃ log, TransferRun poly_hash sample_world log corrupt_run.2.1) ∧
      (⟨poly_hash sample_bytes⟩ : ObjectId) = sample_object.object_id ∧
      sample_bytes.length = sample_object.size.toNat ∧
      sample_retry.1 = .error ⟨.ObjectCorrupt,
        "staged object size or BLAKE3 identity does not match its specification", []⟩ ∧
      sample_retry.2 (sample_transfer.staged sample_object.object_id) =
        corrupt_run.2.1.volume (sample_transfer.staged sample_object.object_id) ∧
      sample_retry.2 (sample_backend.object_path sample_transfer.1 sample_object.object_id) =
        none := by
  obtain ⟨log, hrun, -⟩ := TransferRun.sample (fun v c => v.answers_serve [8, 9] 0 c)
    sample_attempt fun _ h => h.1
  exact ⟨⟨log, hrun⟩, rfl, by decide, by decide +kernel, by decide +kernel, by decide +kernel⟩

end NeoEngram.Runtime

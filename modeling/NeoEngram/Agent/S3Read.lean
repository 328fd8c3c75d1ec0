import NeoEngram.Agent.SnapshotReader
import NeoEngram.Core.Concrete

/-! # Range reads over a frame stream

An open request starts a thread that reads a range of a Snapshot file and puts
a head, the data in pieces and an end into a bounded queue. The consumer takes
frames out, may cancel the stream and may go away, at any time.
-/

namespace NeoEngram.Agent

open Checks Framing Effects List UInt64 Nat

variable {U : UnicodeTables}

/-! ## Frames and requests -/

def S3_READ_OUTPUT_BUFFER : Nat := 8

def MAX_STREAM_ID_BYTES : Nat := 128

/-- The fields of a read ticket that a read uses. -/
structure S3ReadTicket where
  logical_path : Text
  manifest_id : ContentDigest
  (size_bytes allowed_start allowed_end_exclusive issued_at_unix_ms : UInt64)
  deriving DecidableEq

structure S3ReadOpen where
  stream_id : Text
  ticket : S3ReadTicket
  (start end_exclusive : UInt64)
  deriving DecidableEq

structure S3ReadHead where
  stream_id : Text
  (size_bytes last_modified_unix_ms : UInt64)
  etag : ContentDigest
  content_type : UInt16
  deriving DecidableEq

structure S3ReadData where
  stream_id : Text
  offset : UInt64
  bytes : Bytes
  deriving DecidableEq

structure S3ReadEnd where
  stream_id : Text
  deriving DecidableEq

structure S3ReadError where
  stream_id : Text
  (code detail : String)
  deriving DecidableEq

inductive S3ReadFrame where
  | Head (head : S3ReadHead)
  | Data (data : S3ReadData)
  | End (end_ : S3ReadEnd)
  | Error (error : S3ReadError)
  deriving DecidableEq

def read_error (stream_id : Text) (code detail : String) : S3ReadError := ⟨stream_id, code, detail⟩

def agent_read_error (stream_id : Text) (error : AgentError) : S3ReadError :=
  let code := match error.code with
    | .GenerationMismatch | .ScopeMismatch => "fenced"
    | .AssignmentNotFound | .AssignmentMismatch => "not_found"
    | .MountUnavailable => "snapshot_unavailable"
    | .ProtocolInvalid | .InvalidAssignment => "protocol_invalid"
    | .ObjectTransferFailed => "object_unavailable"
    | _ => "read_failed"
  read_error stream_id code "immutable Snapshot read failed"

/-- The range of a request is one that its ticket allows. -/
def S3ReadOpen.InRange (request : S3ReadOpen) : Prop :=
  request.ticket.allowed_start ≤ request.start ∧ request.start ≤ request.end_exclusive ∧
    request.end_exclusive ≤ request.ticket.allowed_end_exclusive ∧
    request.end_exclusive ≤ request.ticket.size_bytes

def validate_open (request : S3ReadOpen) : Except S3ReadError Unit :=
  ensure (¬ (request.stream_id = [] ∨ MAX_STREAM_ID_BYTES < (utf8 request.stream_id).length ∨
      request.end_exclusive < request.start ∨ request.start < request.ticket.allowed_start ∨
      request.ticket.allowed_end_exclusive < request.end_exclusive ∨
      request.ticket.size_bytes < request.end_exclusive))
    (read_error request.stream_id "invalid_range"
      "requested range is outside the ticket authorization")

/-- What a read needs of the Snapshot. -/
structure ImmutableSnapshotReader (U : UnicodeTables) where
  head : LogicalPath U → AgentResult UInt64
  read_range : LogicalPath U → ImmutableByteRange → AgentResult Bytes

def SnapshotCasReader.immutable (blake3 : Blake3) (self : SnapshotCasReader U) :
    ImmutableSnapshotReader U where
  head := self.head
  read_range := self.read_range blake3

/-! ## The thread -/

inductive SendAnswer where
  | Ok
  | Full
  | Closed
  deriving DecidableEq

/-- What the thread shares with the rest: the cancellation flag and the queue. -/
inductive StreamCall where
  | load
  | try_send (frame : S3ReadFrame)

abbrev StreamCall.Answer : StreamCall → Type
  | .load => Bool
  | .try_send _ => SendAnswer

/-- How the thread ends early: with an error of the source, or still waiting for room when its
rounds are used up. -/
inductive Fault where
  | failed (error : S3ReadError)
  | stalled
  deriving DecidableEq

abbrev ReadProgram (α : Type) := Fallible StreamCall StreamCall.Answer Fault α

def failing {α : Type} (x : Except S3ReadError α) : ReadProgram α := checked (x.mapError .failed)

/-- The loop tries again at most `rounds` times. -/
def send_frame : Nat → S3ReadFrame → Text → ReadProgram Unit
  | 0, _, _ => throw .stalled
  | rounds + 1, frame, stream_id => do
    let cancelled : Bool ← request StreamCall.load
    if cancelled then
      return ()
    else
      let answer : SendAnswer ← request (StreamCall.try_send frame)
      match answer with
      | .Ok => return ()
      | .Full => send_frame rounds frame stream_id
      | .Closed =>
        throw (.failed (read_error stream_id "cancelled" "read response consumer disconnected"))

section

variable (rounds : Nat) (open_ : S3ReadOpen)

/-- The end of `execute_read`. -/
def send_end : ReadProgram Unit := do
  let cancelled : Bool ← request StreamCall.load
  if cancelled then
    return ()
  else
    send_frame rounds (.End ⟨open_.stream_id⟩) open_.stream_id

/-- Where the next data frame ends. -/
def frame_end (end_exclusive offset : UInt64) : UInt64 :=
  min end_exclusive (saturating_add offset (UInt64.ofNat S3_READ_FRAME_MAX_BYTES))

/-- One round of the data loop up to its frame. -/
def next_data (path : LogicalPath U) (reader : ImmutableSnapshotReader U) (offset : UInt64) :
    Except S3ReadError S3ReadData := do
  let end_exclusive := frame_end open_.end_exclusive offset
  let range ← (ImmutableByteRange.new offset end_exclusive).mapError
    (agent_read_error open_.stream_id)
  let bytes ← (reader.read_range path range).mapError (agent_read_error open_.stream_id)
  ensure (bytes.length = (end_exclusive - offset).toNat)
    (read_error open_.stream_id "short_read" "immutable Snapshot returned an incomplete range")
  return ⟨open_.stream_id, offset, bytes⟩

/-- The data loop and what follows it. Each round advances the offset, so the bytes bound the
rounds. -/
def send_data (path : LogicalPath U) (reader : ImmutableSnapshotReader U) :
    Nat → UInt64 → ReadProgram Unit
  | 0, _ => send_end rounds open_
  | bytes + 1, offset =>
    if offset < open_.end_exclusive then do
      let cancelled : Bool ← request StreamCall.load
      if cancelled then
        return ()
      else
        let data ← failing (next_data open_ path reader offset)
        send_frame rounds (.Data data) open_.stream_id
        send_data path reader bytes (frame_end open_.end_exclusive offset)
    else
      send_end rounds open_

def execute_read (path : LogicalPath U) (reader : ImmutableSnapshotReader U) :
    ReadProgram Unit := do
  let size_bytes ← failing ((reader.head path).mapError (agent_read_error open_.stream_id))
  failing (ensure (size_bytes = open_.ticket.size_bytes)
    (read_error open_.stream_id "snapshot_changed"
      "mounted object size does not match the immutable ticket"))
  send_frame rounds
    (.Head ⟨open_.stream_id, size_bytes, open_.ticket.issued_at_unix_ms,
      open_.ticket.manifest_id, 0⟩)
    open_.stream_id
  send_data rounds open_ path reader (open_.end_exclusive.toNat - open_.start.toNat) open_.start

/-- The frame that reports an error, if the stream is not cancelled. -/
def report_error (error : S3ReadError) : ReadProgram Unit := do
  let cancelled : Bool ← request StreamCall.load
  if cancelled then
    return ()
  else
    let _ ← outcome (send_frame rounds (.Error error) open_.stream_id)
    return ()

/-- The body of the thread that `open_at` starts. -/
def read_thread (path : LogicalPath U) (reader : ImmutableSnapshotReader U) : ReadProgram Unit := do
  match ← outcome (execute_read rounds open_ path reader) with
  | .ok () => return ()
  | .error (.failed error) => report_error rounds open_ error
  | .error .stalled => throw .stalled

end

/-- The executor: the check of tickets, the source of readers, and the streams that are open. -/
structure S3ReadExecutor (U : UnicodeTables) where
  verify_s3_ticket : S3ReadTicket → UInt64 → Bool
  immutable_reader_for_ticket : S3ReadTicket → AgentResult (ImmutableSnapshotReader U)
  active : List Text

/-- `open_at`, up to the start of the thread. -/
def S3ReadExecutor.open_at (self : S3ReadExecutor U) (rounds : Nat) (request : S3ReadOpen)
    (now_unix_ms : UInt64) : Except S3ReadError (ReadProgram Unit) := do
  validate_open request
  ensure (self.verify_s3_ticket request.ticket now_unix_ms)
    (read_error request.stream_id "ticket_rejected" "read ticket rejected")
  let path ← (LogicalPath.parse U request.ticket.logical_path).mapError fun _ =>
    read_error request.stream_id "invalid_path" "ticket path is not canonical"
  let reader ← (self.immutable_reader_for_ticket request.ticket).mapError
    (agent_read_error request.stream_id)
  ensure (request.stream_id ∉ self.active)
    (read_error request.stream_id "duplicate_stream" "read stream ID is already active")
  return read_thread rounds request path reader

/-! ## The queue and its consumer -/

/-- The queue with what was taken out, the number of frames sent before the cancellation, whether
the consumer has gone, and how often there was no room. -/
structure FrameStream where
  (received queue : List S3ReadFrame)
  cancelled : Option Nat
  closed : Bool
  waits : Nat
  deriving DecidableEq

namespace FrameStream

def new : FrameStream := ⟨[], [], none, false, 0⟩

def sent (s : FrameStream) : List S3ReadFrame := s.received ++ s.queue

def answer (s : FrameStream) : (c : StreamCall) → c.Answer × FrameStream
  | .load => (s.cancelled.isSome, s)
  | .try_send frame =>
    if s.closed then (.Closed, s)
    else if s.queue.length < S3_READ_OUTPUT_BUFFER then
      (.Ok, { s with queue := s.queue ++ [frame] })
    else (.Full, { s with waits := s.waits + 1 })

/-- What the consumer does: it takes a frame, cancels the stream, or goes away. -/
inductive Consumes : FrameStream → FrameStream → Prop
  | receive (s : FrameStream) {frame : S3ReadFrame} {rest : List S3ReadFrame}
      (h : s.queue = frame :: rest) :
      Consumes s { s with received := s.received ++ [frame], queue := rest }
  | cancel (s : FrameStream) (h : s.cancelled = none) :
      Consumes s { s with cancelled := some s.sent.length }
  | close (s : FrameStream) : Consumes s { s with closed := true }

/-- The consumer between two steps of the thread. -/
abbrev Interferes : FrameStream → FrameStream → Prop := Relation.ReflTransGen Consumes

/-- The executions of a thread with a consumer. -/
abbrev env : Env StreamCall StreamCall.Answer FrameStream := Env.under Interferes (Env.of answer)

end FrameStream

/-! ## The frames of a read -/

/-- Each frame begins where the one before it ends. -/
def Contiguous : Nat → List S3ReadData → Nat → Prop
  | offset, [], stop => offset = stop
  | offset, data :: rest, stop =>
    data.offset.toNat = offset ∧ Contiguous (offset + data.bytes.length) rest stop

/-- The data frames of a read of a file with the given content. -/
structure IsRange (open_ : S3ReadOpen) (bytes : Bytes) (data : List S3ReadData) : Prop where
  contiguous : Contiguous open_.start.toNat data open_.end_exclusive.toNat
  bounded : ∀ d ∈ data, d.bytes.length ≤ S3_READ_FRAME_MAX_BYTES
  stream : ∀ d ∈ data, d.stream_id = open_.stream_id
  content : data.flatMap (·.bytes) = slice bytes open_.start.toNat open_.end_exclusive.toNat

def head_frame (open_ : S3ReadOpen) : S3ReadFrame :=
  .Head ⟨open_.stream_id, open_.ticket.size_bytes, open_.ticket.issued_at_unix_ms,
    open_.ticket.manifest_id, 0⟩

def end_frame (open_ : S3ReadOpen) : S3ReadFrame := .End ⟨open_.stream_id⟩

/-- The answer with these data frames. -/
def answer_frames (open_ : S3ReadOpen) (data : List S3ReadData) : List S3ReadFrame :=
  head_frame open_ :: data.map .Data ++ [end_frame open_]

/-- The data frames from an offset on, each as long as it may be. -/
def data_frames (open_ : S3ReadOpen) (bytes : Bytes) : Nat → UInt64 → List S3ReadData
  | 0, _ => []
  | left + 1, offset =>
    if offset < open_.end_exclusive then
      let stop := frame_end open_.end_exclusive offset
      ⟨open_.stream_id, offset, slice bytes offset.toNat stop.toNat⟩ ::
        data_frames open_ bytes left stop
    else []

theorem toNat_saturating_add (a b : UInt64) :
    (saturating_add a b).toNat = min (a.toNat + b.toNat) (2 ^ 64 - 1) := by
  unfold saturating_add checked_add
  by_cases h : a.toNat + b.toNat < 2 ^ 64
  · rw [if_pos h, Option.getD_some, UInt64.toNat_add, mod_eq_of_lt h]
    omega
  · rw [if_neg h, Option.getD_none]
    show 2 ^ 64 - 1 = _
    omega

variable {offset : UInt64}

/-- A data frame is not empty, ends in the range and is not longer than the limit. -/
theorem frame_end_bounds {stop : UInt64} (h : offset < stop) :
    offset.toNat < (frame_end stop offset).toNat ∧ (frame_end stop offset).toNat ≤ stop.toNat ∧
      (frame_end stop offset).toNat - offset.toNat ≤ S3_READ_FRAME_MAX_BYTES := by
  have hlimit : (UInt64.ofNat S3_READ_FRAME_MAX_BYTES).toNat = 262144 := by decide
  have hvalue : S3_READ_FRAME_MAX_BYTES = 262144 := rfl
  have hstop := stop.toNat_lt
  rw [lt_iff_toNat_lt] at h
  rw [frame_end, toNat_min, toNat_saturating_add, hlimit, hvalue]
  omega

section

variable {open_ : S3ReadOpen} {bytes : Bytes}

theorem length_frame (h : offset < open_.end_exclusive)
    (hlength : open_.end_exclusive.toNat ≤ bytes.length) :
    (slice bytes offset.toNat (frame_end open_.end_exclusive offset).toNat).length =
      (frame_end open_.end_exclusive offset).toNat - offset.toNat := by
  obtain ⟨-, hstop, -⟩ := frame_end_bounds h
  rw [length_slice, min_eq_left (by omega)]

/-- **Run of the data loop**, on the frames alone. -/
theorem data_frames_range (hlength : open_.end_exclusive.toNat ≤ bytes.length) (left : Nat)
    (offset : UInt64) (hoffset : offset ≤ open_.end_exclusive)
    (hleft : open_.end_exclusive.toNat - offset.toNat ≤ left) :
    IsRange { open_ with start := offset } bytes (data_frames open_ bytes left offset) := by
  induction left generalizing offset with
  | zero =>
    rw [le_iff_toNat_le] at hoffset
    have heq : offset.toNat = open_.end_exclusive.toNat := by omega
    refine ⟨heq, by simp [data_frames], by simp [data_frames], ?_⟩
    simp [data_frames, slice, heq]
  | succ left ih =>
    unfold data_frames
    by_cases hlt : offset < open_.end_exclusive
    · rw [if_pos hlt]
      obtain ⟨hnext, hstop, hlimit⟩ := frame_end_bounds hlt
      have hframe := length_frame hlt hlength
      obtain ⟨hcontiguous, hbounded, hstream, hcontent⟩ :=
        ih (frame_end open_.end_exclusive offset) (le_iff_toNat_le.mpr hstop) (by omega)
      refine ⟨⟨rfl, ?_⟩, ?_, ?_, ?_⟩
      · show Contiguous (offset.toNat + (slice _ _ _).length) _ _
        rw [hframe, add_sub_of_le hnext.le]
        exact hcontiguous
      · apply forall_mem_cons.mpr ⟨_, hbounded⟩
        exact hframe.trans_le hlimit
      · exact forall_mem_cons.mpr ⟨rfl, hstream⟩
      · rw [flatMap_cons, hcontent]
        exact slice_append_slice bytes hnext.le hstop
    · rw [if_neg hlt]
      have heq : offset = open_.end_exclusive := UInt64.le_antisymm hoffset (UInt64.not_lt.mp hlt)
      refine ⟨congrArg UInt64.toNat heq, by simp, by simp, ?_⟩
      simp [slice, heq]

end

/-! ## Executions -/

variable {bytes : Bytes} {x : ReadProgram Unit}

namespace FrameStream

/-- What the consumer leaves as it is. -/
structure Undisturbed (s m : FrameStream) : Prop where
  sent : m.sent = s.sent
  waits : m.waits = s.waits
  closed : s.closed = true → m.closed = true
  cancelled : m.cancelled = s.cancelled ∨
    (s.cancelled = none ∧ m.cancelled = some s.sent.length)

theorem Consumes.undisturbed {s m : FrameStream} (h : Consumes s m) : Undisturbed s m := by
  cases h with
  | receive h =>
    refine ⟨?_, rfl, id, .inl rfl⟩
    simp [FrameStream.sent, h]
  | cancel h => exact ⟨rfl, rfl, id, .inr ⟨h, rfl⟩⟩
  | close => exact ⟨rfl, rfl, fun _ => rfl, .inl rfl⟩

theorem Interferes.undisturbed {s m : FrameStream} (h : Interferes s m) : Undisturbed s m := by
  induction h with
  | refl => exact ⟨rfl, rfl, id, .inl rfl⟩
  | tail _ hstep ih =>
    have hlast := hstep.undisturbed
    refine ⟨hlast.sent.trans ih.sent, hlast.waits.trans ih.waits,
      fun h => hlast.closed (ih.closed h), ?_⟩
    rcases hlast.cancelled with heq | ⟨hnone, hsome⟩
    · rw [heq]
      exact ih.cancelled
    · rw [hsome, ih.sent]
      rcases ih.cancelled with heq | ⟨_, hsome'⟩
      · exact .inr ⟨heq ▸ hnone, rfl⟩
      · cases hnone.symm.trans hsome'

/-- The frames sent so far are a beginning of these, and at most one was sent after the stream was
cancelled. -/
structure OnTrack (frames : List S3ReadFrame) (s : FrameStream) : Prop where
  beginning : s.sent <+: frames
  late : ∀ k, s.cancelled = some k → s.sent.length ≤ k + 1

/-- The thread has sent the first `n` frames, unless the stream is cancelled. -/
structure Before (frames : List S3ReadFrame) (n : Nat) (s : FrameStream) : Prop where
  track : OnTrack frames s
  sent : s.cancelled = none → s.sent = frames.take n

/-- The thread has seen that the stream is not cancelled, and goes on to send the next frame. -/
structure Ready (frames : List S3ReadFrame) (n : Nat) (s : FrameStream) : Prop where
  sent : s.sent = frames.take n
  cancelled : ∀ k, s.cancelled = some k → s.sent.length = k

variable {frames : List S3ReadFrame} {n : Nat} {s m : FrameStream} {frame : S3ReadFrame}

theorem OnTrack.stable (h : OnTrack frames s) (hm : Interferes s m) : OnTrack frames m := by
  have hsame := hm.undisturbed
  refine ⟨hsame.sent ▸ h.beginning, ?_⟩
  intro k hk
  rw [hsame.sent]
  rcases hsame.cancelled with heq | ⟨-, hsome⟩
  · exact h.late k (heq ▸ hk)
  · cases hsome.symm.trans hk
    omega

theorem Before.stable (h : Before frames n s) (hm : Interferes s m) : Before frames n m := by
  have hsame := hm.undisturbed
  refine ⟨h.track.stable hm, ?_⟩
  intro hnone
  rw [hsame.sent]
  rcases hsame.cancelled with heq | ⟨-, hsome⟩
  · exact h.sent (heq ▸ hnone)
  · cases hsome.symm.trans hnone

theorem Ready.stable (h : Ready frames n s) (hm : Interferes s m) : Ready frames n m := by
  have hsame := hm.undisturbed
  refine ⟨hsame.sent.trans h.sent, ?_⟩
  intro k hk
  rw [hsame.sent]
  rcases hsame.cancelled with heq | ⟨-, hsome⟩
  · exact h.cancelled k (heq ▸ hk)
  · cases hsome.symm.trans hk
    rfl

theorem Ready.before (h : Ready frames n s) : Before frames n s where
  track := ⟨h.sent ▸ take_prefix n frames, fun k hk => (h.cancelled k hk).le.trans (by omega)⟩
  sent := fun _ => h.sent

theorem Before.ready (h : Before frames n s) (hnone : s.cancelled = none) : Ready frames n s :=
  ⟨h.sent hnone, by simp [hnone]⟩

theorem OnTrack.before (h : OnTrack frames s) (hsome : s.cancelled.isSome = true) (n : Nat) :
    Before frames n s :=
  ⟨h, fun hnone => by simp [hnone] at hsome⟩

theorem Ready.push (h : Ready frames n s) (hframe : frames[n]? = some frame) :
    Before frames (n + 1) { s with queue := s.queue ++ [frame] } := by
  have hsent : FrameStream.sent { s with queue := s.queue ++ [frame] } = frames.take (n + 1) := by
    rw [take_add_one, hframe, ← h.sent]
    simp [FrameStream.sent]
  refine ⟨⟨hsent ▸ take_prefix _ _, ?_⟩, fun _ => hsent⟩
  intro k hk
  rw [← h.cancelled k hk]
  simp only [FrameStream.sent, length_append, length_singleton]
  omega

/-! ### The thread under interference -/

variable {α : Type}

/-- The obligations of a thread that is to send these frames. -/
abbrev Sends (frames : List S3ReadFrame) (x : ReadProgram α)
    (Q : Except Fault α → FrameStream → Prop)
    (s : FrameStream) : Prop :=
  Relies Interferes (Env.of answer) (fun _ _ _ s' => OnTrack frames s') x.run Q s

variable {Q : Except Fault α → FrameStream → Prop}

theorem sends_load {I : FrameStream → Prop} {f : Bool → ReadProgram α}
    (hstable : ∀ m, Interferes s m → I m) (htrack : ∀ m, I m → OnTrack frames m)
    (hrest : ∀ m, I m → Sends frames (f m.cancelled.isSome) Q m) :
    Sends frames (request StreamCall.load >>= f) Q s := by
  refine relies_call.mpr ?_
  intro m hm r s' hanswer
  obtain ⟨rfl, rfl⟩ := Prod.mk.inj hanswer
  exact ⟨htrack m (hstable m hm), hrest m (hstable m hm)⟩

theorem sends_try {f : SendAnswer → ReadProgram α}
    (hs : Ready frames n s) (hframe : frames[n]? = some frame)
    (hok : ∀ m, Before frames (n + 1) m → Sends frames (f .Ok) Q m)
    (hfull : ∀ m, Before frames n m → m.waits = s.waits + 1 → Sends frames (f .Full) Q m)
    (hclosed : ∀ m, OnTrack frames m → m.closed = true → Sends frames (f .Closed) Q m) :
    Sends frames (request (StreamCall.try_send frame) >>= f) Q s := by
  refine relies_call.mpr ?_
  intro m hm r s' hanswer
  have hready := hs.stable hm
  simp only [Env.of, answer] at hanswer
  split at hanswer
  · next hc =>
    obtain ⟨rfl, rfl⟩ := Prod.mk.inj hanswer
    exact ⟨hready.before.track, hclosed m hready.before.track hc⟩
  · split at hanswer
    · obtain ⟨rfl, rfl⟩ := Prod.mk.inj hanswer
      have hpush := hready.push hframe
      exact ⟨hpush.track, hok _ hpush⟩
    · obtain ⟨rfl, rfl⟩ := Prod.mk.inj hanswer
      have hbefore : Before frames n { m with waits := m.waits + 1 } :=
        ⟨⟨hready.before.track.beginning, hready.before.track.late⟩, hready.before.sent⟩
      refine ⟨hbefore.track, hfull _ hbefore ?_⟩
      rw [← hm.undisturbed.waits]

/-- `n` frames were sent, or the stream is cancelled, or the consumer has gone, or there was no room
for as many rounds as the limit says. -/
def Sent (frames : List S3ReadFrame) (n limit : Nat) : Except Fault Unit → FrameStream → Prop
  | .ok (), s => Before frames n s
  | .error (.failed _), s => OnTrack frames s ∧ s.closed = true
  | .error .stalled, s => limit ≤ s.waits

theorem sends_frame (hframe : frames[n]? = some frame) (stream_id : Text) (rounds : Nat) {w : Nat}
    (hw : w ≤ s.waits) (hs : Before frames n s) :
    Sends frames (send_frame rounds frame stream_id) (Sent frames (n + 1) (w + rounds)) s := by
  induction rounds generalizing s w with
  | zero => exact hw
  | succ rounds ih =>
    unfold send_frame
    apply sends_load (I := fun m => Before frames n m ∧ m.waits = s.waits)
      (fun m hm => ⟨hs.stable hm, hm.undisturbed.waits⟩) (fun m hm => hm.1.track)
    intro m ⟨hm, hwaits⟩
    by_cases hcancelled : m.cancelled.isSome = true
    · rw [if_pos hcancelled]
      exact hm.track.before hcancelled (n + 1)
    · rw [if_neg hcancelled]
      apply sends_try (hm.ready (by simpa using hcancelled)) hframe
      · intro m' hm'
        exact hm'
      · intro m' hm' hwaits'
        have hrest := ih (w := w + 1) (by omega) hm'
        rwa [add_right_comm, add_assoc] at hrest
      · intro m' hm' hclosed
        exact ⟨hm', hclosed⟩

theorem sends_frame_closed (frame : S3ReadFrame) (stream_id : Text) (rounds : Nat)
    (hs : OnTrack frames s ∧ s.closed = true) :
    Sends frames (send_frame rounds frame stream_id)
      (fun _ s' => OnTrack frames s' ∧ s'.closed = true) s := by
  induction rounds generalizing s with
  | zero => exact hs
  | succ rounds ih =>
    unfold send_frame
    have hstable : ∀ {s m}, OnTrack frames s ∧ s.closed = true → Interferes s m →
        OnTrack frames m ∧ m.closed = true :=
      fun hs hm => ⟨hs.1.stable hm, hm.undisturbed.closed hs.2⟩
    apply sends_load (fun m => hstable hs) (fun m hm => hm.1)
    intro m hm
    split
    · exact hm
    · refine relies_call.mpr ?_
      intro m' hm' r s' hanswer
      obtain ⟨htrack, hclosed⟩ := hstable hm hm'
      simp only [Env.of, answer, hclosed, if_true] at hanswer
      obtain ⟨rfl, rfl⟩ := Prod.mk.inj hanswer
      exact ⟨htrack, htrack, hclosed⟩

theorem sends_seq {β : Type} {x : ReadProgram α} {f : α → ReadProgram β}
    {Q : Except Fault β → FrameStream → Prop}
    (h : Sends frames x (Then (fun a s => Sends frames (f a) Q s) Q) s) :
    Sends frames (x >>= f) Q s :=
  meets_seq.mpr h

theorem sends_frame_seq (hframe : frames[n]? = some frame) {stream_id : Text} {rounds : Nat}
    (hs : Before frames n s)
    (hrest : ∀ m, Before frames (n + 1) m → Sends frames x (Sent frames frames.length rounds) m) :
    Sends frames (send_frame rounds frame stream_id >>= fun _ => x)
      (Sent frames frames.length rounds) s := by
  apply sends_seq
  refine (sends_frame hframe stream_id rounds (zero_le _) hs).mono fun r m hm => ?_
  match r, hm with
  | .ok (), hm => exact hrest m hm
  | .error (.failed _), hm => exact hm
  | .error .stalled, hm => exact (zero_add rounds ▸ hm : rounds ≤ m.waits)

variable {open_ : S3ReadOpen} {rounds : Nat}

theorem sends_end (hframes : frames.drop n = [end_frame open_]) (hs : Before frames n s) :
    Sends frames (send_end rounds open_) (Sent frames frames.length rounds) s := by
  have hframe : frames[n]? = some (end_frame open_) := by
    rw [← head?_drop, hframes, head?_cons]
  have hlength : n + 1 = frames.length := by
    have := congrArg List.length hframes
    simp only [length_drop, length_cons, length_nil] at this
    omega
  unfold send_end
  apply sends_load (fun m hm => hs.stable hm) (fun m hm => hm.track)
  intro m hm
  by_cases hcancelled : m.cancelled.isSome = true
  · rw [if_pos hcancelled]
    exact hm.track.before hcancelled _
  · rw [if_neg hcancelled, ← hlength]
    have hsend := sends_frame hframe open_.stream_id rounds (zero_le _) hm
    rwa [zero_add] at hsend

def Reads (reader : ImmutableSnapshotReader U) (path : LogicalPath U) (bytes : Bytes) : Prop :=
  reader.head path = .ok (UInt64.ofNat bytes.length) ∧ bytes.length < 2 ^ 64 ∧
    ∀ range : ImmutableByteRange, range.end_exclusive.toNat ≤ bytes.length →
      reader.read_range path range = .ok (slice bytes range.start.toNat range.end_exclusive.toNat)

variable {path : LogicalPath U} {reader : ImmutableSnapshotReader U}

theorem next_data_eq (hreads : Reads reader path bytes)
    (hlength : open_.end_exclusive.toNat ≤ bytes.length) (hoffset : offset < open_.end_exclusive) :
    next_data open_ path reader offset =
      .ok ⟨open_.stream_id, offset,
        slice bytes offset.toNat (frame_end open_.end_exclusive offset).toNat⟩ := by
  obtain ⟨hnext, hstop, hlimit⟩ := frame_end_bounds hoffset
  have hle : offset ≤ frame_end open_.end_exclusive offset := le_iff_toNat_le.mpr hnext.le
  have hnew : ImmutableByteRange.new offset (frame_end open_.end_exclusive offset) =
      .ok ⟨offset, frame_end open_.end_exclusive offset⟩ := by
    have hcheck : ¬ (frame_end open_.end_exclusive offset < offset ∨
        S3_READ_FRAME_MAX_BYTES < (frame_end open_.end_exclusive offset).toNat - offset.toNat) := by
      rw [lt_iff_toNat_lt]
      omega
    simp [ImmutableByteRange.new, ensure, hcheck, bind, Except.bind, pure, Except.pure]
  have hread := hreads.2.2 ⟨offset, frame_end open_.end_exclusive offset⟩ (hstop.trans hlength)
  have hbytes := length_frame hoffset hlength
  rw [← UInt64.toNat_sub_of_le _ _ hle] at hbytes
  simp [next_data, hnew, hread, ensure, hbytes, bind, Except.bind, pure, Except.pure,
    Except.mapError]

/-- **Run of the data loop**: the rest of the frames are sent. -/
theorem sends_data (hreads : Reads reader path bytes)
    (hlength : open_.end_exclusive.toNat ≤ bytes.length) (left : Nat)
    (hframes : frames.drop n = (data_frames open_ bytes left offset).map .Data ++ [end_frame open_])
    (hs : Before frames n s) :
    Sends frames (send_data rounds open_ path reader left offset)
      (Sent frames frames.length rounds) s := by
  induction left generalizing offset n s with
  | zero => exact sends_end hframes hs
  | succ left ih =>
    unfold send_data
    unfold data_frames at hframes
    by_cases hoffset : offset < open_.end_exclusive
    · rw [if_pos hoffset] at hframes ⊢
      have hframe : frames[n]? = some (.Data ⟨open_.stream_id, offset,
          slice bytes offset.toNat (frame_end open_.end_exclusive offset).toNat⟩) := by
        rw [← head?_drop, hframes]
        rfl
      have hrest : frames.drop (n + 1) = (data_frames open_ bytes left
          (frame_end open_.end_exclusive offset)).map .Data ++ [end_frame open_] := by
        rw [← tail_drop, hframes]
        rfl
      apply sends_load (fun m hm => hs.stable hm) (fun m hm => hm.track)
      intro m hm
      by_cases hcancelled : m.cancelled.isSome = true
      · rw [if_pos hcancelled]
        exact hm.track.before hcancelled _
      · rw [if_neg hcancelled, next_data_eq hreads hlength hoffset]
        exact sends_frame_seq hframe hm fun m' hm' => ih hrest hm'
    · rw [if_neg hoffset] at hframes ⊢
      exact sends_end hframes hs

/-- The frames that answer a request for a file with this content. -/
def read_frames (open_ : S3ReadOpen) (bytes : Bytes) : List S3ReadFrame :=
  answer_frames open_ (data_frames open_ bytes (open_.end_exclusive.toNat - open_.start.toNat)
    open_.start)

section

variable (hreads : Reads reader path bytes) (hsize : open_.ticket.size_bytes.toNat = bytes.length)
  (hrange : open_.end_exclusive ≤ open_.ticket.size_bytes)
  (hs : Before (read_frames open_ bytes) 0 s)

include hreads hsize hrange hs

theorem sends_execute_read : Sends (read_frames open_ bytes) (execute_read rounds open_ path reader)
      (Sent (read_frames open_ bytes) (read_frames open_ bytes).length rounds) s := by
  have hhead : UInt64.ofNat bytes.length = open_.ticket.size_bytes := by
    rw [← hsize, UInt64.ofNat_toNat]
  rw [le_iff_toNat_le, hsize] at hrange
  unfold execute_read
  rw [hreads.1, hhead]
  apply sends_seq
  show Sends _ _ _ _
  apply sends_seq
  rw [ensure, if_pos rfl]
  exact sends_frame_seq rfl hs fun m hm => sends_data hreads hrange _ rfl hm

/-- What the thread has done when it returns. -/
theorem sends_read_thread : Sends (read_frames open_ bytes) (read_thread rounds open_ path reader)
      (fun _ s' => s'.cancelled = none → s'.closed = false → s'.waits < rounds →
        s'.sent = read_frames open_ bytes) s := by
  unfold read_thread
  apply sends_seq
  apply meets_outcome.mpr
  refine (sends_execute_read hreads hsize hrange hs).mono fun r m hm => ?_
  match r, hm with
  | .ok (), hm =>
    intro hnone _ _
    rw [hm.sent hnone, take_length]
  | .error .stalled, hm =>
    intro _ _ hwaits
    exact absurd hm (not_le.mpr hwaits)
  | .error (.failed error), hm =>
    -- the consumer has gone, so that the report of the error is not sent either
    show Sends _ (report_error rounds open_ error) _ m
    unfold report_error
    have hgone : ∀ m : FrameStream, OnTrack (read_frames open_ bytes) m ∧ m.closed = true →
        m.cancelled = none → m.closed = false → m.waits < rounds →
        m.sent = read_frames open_ bytes := by
      intro m hm _ hopen
      cases hm.2.symm.trans hopen
    apply sends_load (I := fun m => OnTrack (read_frames open_ bytes) m ∧ m.closed = true)
      (fun m' hm' => ⟨hm.1.stable hm', hm'.undisturbed.closed hm.2⟩) (fun m' hm' => hm'.1)
    intro m' hm'
    split
    · exact hgone m' hm'
    · apply sends_seq
      apply meets_outcome.mpr
      refine (sends_frame_closed (.Error error) open_.stream_id rounds hm').mono fun r m hm => ?_
      exact hgone m hm

end

end FrameStream

/-! ## Range reads -/

open FrameStream

theorem reads_of_readable {blake3 : Blake3} {reader : SnapshotCasReader U} {path : LogicalPath U}
    {file : WorkspaceMaterializationFile U} (hfile : reader.file path = .ok file)
    (hreadable : SnapshotCasReader.Readable blake3 reader.objects file) :
    Reads (reader.immutable blake3) path (file_content reader.objects file.manifest.chunks) := by
  refine ⟨?_, ?_, ?_⟩
  · rw [hreadable.length, UInt64.ofNat_toNat]
    exact SnapshotCasReader.head_eq hfile
  · rw [hreadable.length]
    exact file.record.total_size.toNat_lt
  · intro range hrange
    rw [hreadable.length] at hrange
    exact SnapshotCasReader.read_range_eq hfile hreadable (le_iff_toNat_le.mpr hrange)

/-- A request that the executor accepts, for a readable file of the Snapshot. -/
structure Opens (blake3 : Blake3) (executor : S3ReadExecutor U) (request : S3ReadOpen)
    (now_unix_ms : UInt64) (reader : SnapshotCasReader U)
    (file : WorkspaceMaterializationFile U) : Prop where
  in_range : request.InRange
  stream_id : request.stream_id ≠ [] ∧ (utf8 request.stream_id).length ≤ MAX_STREAM_ID_BYTES
  inactive : request.stream_id ∉ executor.active
  trusted : executor.verify_s3_ticket request.ticket now_unix_ms = true
  source : executor.immutable_reader_for_ticket request.ticket = .ok (reader.immutable blake3)
  path : LogicalPath.parse U request.ticket.logical_path = .ok file.record.path
  found : reader.file file.record.path = .ok file
  readable : SnapshotCasReader.Readable blake3 reader.objects file
  size : request.ticket.size_bytes = file.record.total_size

theorem validate_open_eq_ok {request : S3ReadOpen} :
    validate_open request = .ok () ↔ request.InRange ∧ request.stream_id ≠ [] ∧
      (utf8 request.stream_id).length ≤ MAX_STREAM_ID_BYTES := by
  simp only [validate_open, ensure_eq_ok, S3ReadOpen.InRange, not_or, UInt64.not_lt, not_lt]
  tauto

section

variable {blake3 : Blake3} {executor : S3ReadExecutor U} {request : S3ReadOpen}
  {now_unix_ms : UInt64} {reader : SnapshotCasReader U} {file : WorkspaceMaterializationFile U}

theorem Opens.open_at (h : Opens blake3 executor request now_unix_ms reader file) (rounds : Nat) :
    executor.open_at rounds request now_unix_ms =
      .ok (read_thread rounds request file.record.path (reader.immutable blake3)) := by
  simp only [S3ReadExecutor.open_at, ok_iff, mapError_eq_ok]
  exact ⟨validate_open_eq_ok.mpr ⟨h.in_range, h.stream_id⟩, h.trusted, _, h.path, _, h.source,
    h.inactive, rfl⟩

theorem open_at_out_of_range (executor : S3ReadExecutor U) (rounds : Nat)
    (now_unix_ms : UInt64) (h : ¬ request.InRange) :
    executor.open_at rounds request now_unix_ms =
      .error (read_error request.stream_id "invalid_range"
        "requested range is outside the ticket authorization") := by
  have hinvalid : validate_open request = .error (read_error request.stream_id "invalid_range"
      "requested range is outside the ticket authorization") := by
    have hcheck := mt validate_open_eq_ok.mp fun hok => h hok.1
    rw [validate_open, ensure_eq_ok] at hcheck
    rw [validate_open, ensure, if_neg hcheck]
  rw [S3ReadExecutor.open_at, hinvalid]
  rfl

theorem data_frames_of_request (hrange : request.InRange)
    (hsize : request.ticket.size_bytes.toNat = bytes.length) :
    ∃ data, IsRange request bytes data ∧
      read_frames request bytes = answer_frames request data := by
  obtain ⟨-, hle, -, hend⟩ := hrange
  rw [le_iff_toNat_le, hsize] at hend
  exact ⟨_, data_frames_range hend _ request.start hle le_rfl, rfl⟩

theorem before_new (frames : List S3ReadFrame) : Before frames 0 FrameStream.new :=
  ⟨⟨List.nil_prefix, fun _ hk => nomatch hk⟩, fun _ => rfl⟩

variable {s : FrameStream}

/-- **Safety of the thread**: every execution, also one that is cut short, sends a beginning of the
frames. -/
theorem onTrack_of_exec {frames : List S3ReadFrame}
    {Q : Except Fault Unit → FrameStream → Prop} (hsends : Sends frames x Q FrameStream.new)
    {trace : List (Event StreamCall StreamCall.Answer FrameStream)}
    {r : Option (Except Fault Unit)}
    (hexec : Exec FrameStream.env FrameStream.new x.run trace s r) :
    OnTrack frames s ∧ ∀ a, r = some a → Q a s := by
  obtain ⟨hcalls, hresult⟩ := relies_exec hsends hexec
  refine ⟨?_, hresult⟩
  rcases hexec.last with ⟨-, rfl⟩ | ⟨e, hlast, rfl⟩
  · exact (before_new frames).track
  · obtain ⟨m, -, htrack⟩ := hcalls e (mem_of_getLast? hlast)
    exact htrack

/-! ### A consumer that takes every frame -/

def FrameStream.drain (s : FrameStream) : FrameStream :=
  { s with received := s.sent, queue := [] }

theorem FrameStream.interferes_drain (s : FrameStream) : Interferes s s.drain := by
  obtain ⟨received, queue, cancelled, closed, waits⟩ := s
  induction queue generalizing received with
  | nil =>
    simp only [FrameStream.drain, FrameStream.sent, append_nil]
    exact .refl
  | cons frame queue ih =>
    have hfirst := Consumes.receive ⟨received, frame :: queue, cancelled, closed, waits⟩ rfl
    have hrest := ih (received ++ [frame])
    simp only [FrameStream.drain, FrameStream.sent, append_assoc] at hrest
    exact .head hfirst hrest

/-- Nobody has cancelled the stream or gone away, and there was always room. -/
def FrameStream.Smooth (s : FrameStream) : Prop :=
  s.cancelled = none ∧ s.closed = false ∧ s.waits = 0

theorem FrameStream.Smooth.answer (h : s.Smooth) (c : StreamCall) :
    (s.drain.answer c).2.Smooth := by
  obtain ⟨hcancelled, hclosed, hwaits⟩ := h
  cases c with
  | load => exact ⟨hcancelled, hclosed, hwaits⟩
  | try_send frame =>
    have hroom : s.drain.answer (.try_send frame) = (.Ok, { s.drain with queue := [frame] }) := by
      simp [FrameStream.answer, FrameStream.drain, hclosed, S3_READ_OUTPUT_BUFFER]
    rw [hroom]
    exact ⟨hcancelled, hclosed, hwaits⟩

/-- With a consumer that takes every frame at once the thread returns. -/
theorem exists_smooth_exec (x : ReadProgram Unit) :
    ∃ trace s r, Exec FrameStream.env FrameStream.new x.run trace s (some r) ∧ s.Smooth := by
  have hanswer : ∀ (s : FrameStream) c,
      FrameStream.env s c (s.drain.answer c).1 (s.drain.answer c).2 :=
    fun s _ => ⟨s.drain, s.interferes_drain, rfl⟩
  have hexec := Prog.exec_run_with hanswer x.run FrameStream.new
  exact ⟨_, _, _, hexec, Prog.run_with_keeps (fun _ c h => h.answer c) x.run ⟨rfl, rfl, rfl⟩⟩

/-- **Range reads.** A request outside the range of its ticket starts no thread. One in the range,
for a readable file, starts a thread whose frames are the head with the size of the file, the
range in contiguous data frames and the end. Whatever the consumer does, the frames sent are a
beginning of these, and at most one is sent after the stream was cancelled. If the thread returns
with the stream not cancelled, the consumer there and room in the queue before the rounds are used
up, all of them were sent; with a consumer that takes every frame it does return so. -/
theorem s3_range_read (blake3 : Blake3) (executor : S3ReadExecutor U) (request : S3ReadOpen)
    (now_unix_ms : UInt64) (rounds : Nat) :
    (¬ request.InRange → executor.open_at rounds request now_unix_ms =
      .error (read_error request.stream_id "invalid_range"
        "requested range is outside the ticket authorization")) ∧
    ∀ (reader : SnapshotCasReader U) (file : WorkspaceMaterializationFile U),
      Opens blake3 executor request now_unix_ms reader file →
      ∃ thread data, executor.open_at rounds request now_unix_ms = .ok thread ∧
        request.ticket.size_bytes.toNat =
          (file_content reader.objects file.manifest.chunks).length ∧
        IsRange request (file_content reader.objects file.manifest.chunks) data ∧
        (∀ trace s r, Exec FrameStream.env FrameStream.new thread.run trace s r →
          s.sent <+: answer_frames request data ∧
          (∀ k, s.cancelled = some k → s.sent.length ≤ k + 1) ∧
          (r.isSome → s.cancelled = none → s.closed = false → s.waits < rounds →
            s.sent = answer_frames request data)) ∧
        (0 < rounds →
          ∃ trace s r, Exec FrameStream.env FrameStream.new thread.run trace s (some r) ∧
          s.sent = answer_frames request data) := by
  refine ⟨open_at_out_of_range executor rounds now_unix_ms, ?_⟩
  intro reader file h
  have hsize : request.ticket.size_bytes.toNat =
      (file_content reader.objects file.manifest.chunks).length := by
    rw [h.size, h.readable.length]
  obtain ⟨data, hdata, hframes⟩ := data_frames_of_request h.in_range hsize
  have hsends :
    Sends _ (read_thread rounds request file.record.path (reader.immutable blake3)) _ _ :=
    sends_read_thread (reads_of_readable h.found h.readable) hsize h.in_range.2.2.2 (before_new _)
  rw [hframes] at hsends
  refine ⟨_, data, h.open_at rounds, hsize, hdata, ?_, ?_⟩
  · intro trace s r hexec
    obtain ⟨htrack, hresult⟩ := onTrack_of_exec hsends hexec
    refine ⟨htrack.beginning, htrack.late, ?_⟩
    intro hreturned
    obtain ⟨a, ha⟩ := Option.isSome_iff_exists.mp hreturned
    exact hresult a ha
  · intro hrounds
    obtain ⟨trace, s, r, hexec, hcancelled, hclosed, hwaits⟩ :=
      exists_smooth_exec (read_thread rounds request file.record.path (reader.immutable blake3))
    refine ⟨trace, s, r, hexec, ?_⟩
    exact (onTrack_of_exec hsends hexec).2 r rfl hcancelled hclosed (hwaits ▸ hrounds)

end

/-! ### A file of three bytes in two chunks -/

def sample_object (bytes : Bytes) : ObjectId := ⟨poly_hash bytes⟩

def sample_objects : Objects := fun id =>
  if id = sample_object [1, 2] then some ⟨[1, 2], by decide⟩
  else if id = sample_object [3] then some ⟨[3], by decide⟩
  else none

def sample_path : LogicalPath asciiTables := ascii_path "s" (by decide)

def sample_file : WorkspaceMaterializationFile asciiTables where
  record := ⟨sample_path, ⟨digest_of_nat 0⟩, 3, 2⟩
  manifest := ⟨3, .FastCdc, [⟨sample_object [1, 2], 0, 2⟩, ⟨sample_object [3], 2, 1⟩]⟩

def sample_reader : SnapshotCasReader asciiTables := ⟨[sample_file], sample_objects⟩

def sample_read_executor : S3ReadExecutor asciiTables where
  verify_s3_ticket := fun _ _ => true
  immutable_reader_for_ticket := fun _ => .ok (sample_reader.immutable poly_hash)
  active := []

def sample_open : S3ReadOpen where
  stream_id := "s".toList
  ticket := ⟨"s".toList, digest_of_nat 0, 3, 0, 3, 0⟩
  start := 1
  end_exclusive := 3

theorem sample_readable :
    SnapshotCasReader.Readable poly_hash sample_objects sample_file where
  valid := by decide +kernel
  size := rfl
  intact := by
    have hchunks : ∀ chunk ∈ sample_file.manifest.chunks,
        copy_to poly_hash sample_objects chunk.object_spec =
          .ok (chunk_bytes sample_objects chunk) := by decide +kernel
    exact hchunks

theorem sample_opens :
    Opens poly_hash sample_read_executor sample_open 0 sample_reader sample_file where
  in_range := by unfold S3ReadOpen.InRange; decide
  stream_id := by decide
  inactive := by decide
  trusted := rfl
  source := rfl
  path := by decide +kernel
  found := by decide +kernel
  readable := sample_readable
  size := rfl

theorem s3_range_read_sample :
    sample_open.InRange ∧ ∃ thread data, sample_read_executor.open_at 1 sample_open 0 = .ok thread ∧
      data.flatMap (·.bytes) = ([2, 3] : Bytes) ∧
      ∃ trace s r, Exec FrameStream.env FrameStream.new thread.run trace s (some r) ∧
        s.sent = answer_frames sample_open data := by
  obtain ⟨thread, data, hopen, -, hdata, -, hreturns⟩ :=
    (s3_range_read poly_hash sample_read_executor sample_open 0 1).2 sample_reader sample_file
      sample_opens
  refine ⟨sample_opens.in_range, thread, data, hopen, ?_, hreturns (by decide)⟩
  rw [hdata.content]
  decide +kernel

/-- A consumer that cancels the stream when its end is about to be sent. -/
def cancel_at_end (s : FrameStream) : StreamCall → FrameStream
  | .try_send (.End _) =>
    if s.cancelled = none then { s with cancelled := some s.sent.length } else s
  | _ => s

theorem interferes_cancel_at_end (s : FrameStream) (c : StreamCall) :
    Interferes s (cancel_at_end s c) := by
  unfold cancel_at_end
  split
  · split
    · next h => exact .single (.cancel s h)
    · exact .refl
  · exact .refl

def late_cancel :=
  (read_thread 1 sample_open sample_path (sample_reader.immutable poly_hash)).run.run_with
    (fun s c => (cancel_at_end s c).answer c) FrameStream.new

/-- The stream is cancelled between the look at the flag and the end frame, and the end is sent all
the same. -/
theorem end_sent_after_cancel :
    Opens poly_hash sample_read_executor sample_open 0 sample_reader sample_file ∧
      ∃ thread trace s, sample_read_executor.open_at 1 sample_open 0 = .ok thread ∧
        Exec FrameStream.env FrameStream.new thread.run trace s (some (.ok ())) ∧
        s.cancelled = some 2 ∧ s.sent.length = 3 ∧ end_frame sample_open ∈ s.sent := by
  have hanswer : ∀ (s : FrameStream) c,
      FrameStream.env s c ((cancel_at_end s c).answer c).1 ((cancel_at_end s c).answer c).2 :=
    fun s c => ⟨cancel_at_end s c, interferes_cancel_at_end s c, rfl⟩
  have hexec := Prog.exec_run_with hanswer
    (read_thread 1 sample_open sample_path (sample_reader.immutable poly_hash)).run
    FrameStream.new
  refine ⟨sample_opens, _, late_cancel.1, late_cancel.2.1, sample_opens.open_at 1, ?_, ?_⟩
  · have hresult : late_cancel.2.2 = .ok () := by decide +kernel
    exact hresult ▸ hexec
  · decide +kernel

end NeoEngram.Agent

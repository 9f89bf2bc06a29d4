import LightRpc.ByteOrder

/- `MessageDispatcher`: cutting frames off the read buffer and handing each one to
   a handler thread (`message_dispatcher.cc`).

   A frame starts with `total_len`, four bytes in network order that count the
   whole frame. `cutInputMessage` looks at the front of the buffer and either
   takes one frame off it or leaves it alone; `processNewMessage` repeats this
   until the buffer holds no complete frame.

   The read buffer is the byte string an `IOBuf` stands for. `WireFrame` is a
   byte string that is a well-formed frame; the results below say that a
   concatenation of frames followed by an unfinished one is cut back into exactly
   these frames (`cutLoop_frames`), and that any prefix of a concatenation of
   frames has this shape (`stream_split`). -/
namespace LightRpc

def EPROTO : Nat := 71

/-- `total_len`, `msg_type` and `rpc_id`. -/
def kFrameHeaderBytes : Nat := 12

/-- From this length on a message travels over the data QP. -/
def msgThreshold : Nat := 2 * 1024 * 1024

/-- The length field at the front of a buffer. -/
def totalLen (b : Bytes) : Nat := ntohl (loadWord b)

/-- What one call of `CutInputMessage` returns: 0, -1 with `EPROTO`, or 1 with the
    frame and what is left of the buffer. -/
inductive CutResult where
  | incomplete
  | invalid
  | frame (f rest : Bytes)
  deriving DecidableEq, Repr

def cutInputMessage (readBuf : Bytes) : CutResult :=
  if readBuf.length < 4 then .incomplete
  else if totalLen readBuf < kFrameHeaderBytes then .invalid
  else if readBuf.length < totalLen readBuf then .incomplete
  else .frame (readBuf.take (totalLen readBuf)) (readBuf.drop (totalLen readBuf))

/-- What happens when a frame has been cut: its handler thread starts, or the
    endpoint is found failed or the thread cannot be started, with this errno. -/
inductive Handover where
  | started
  | refused (errno : Nat)
  deriving DecidableEq, Repr

/-- Frames given to handler threads, what is left of the buffer, and the result: the
    number of frames, or -1 with an errno. -/
structure Dispatched where
  handed : List Bytes
  readBuf : Bytes
  result : Except Nat Nat

/-- The loop of `ProcessNewMessage`. `count` frames have been handed over so far, and
    `hand n` answers for the frame after `n`. Every round consumes a frame, so a
    `fuel` above the buffer's length never runs out. -/
def cutLoop (hand : Nat → Handover) : Nat → Nat → Bytes → Dispatched
  | 0, count, readBuf => ⟨[], readBuf, .ok count⟩
  | fuel + 1, count, readBuf =>
    match cutInputMessage readBuf with
    | .incomplete => ⟨[], readBuf, .ok count⟩
    | .invalid => ⟨[], readBuf, .error EPROTO⟩
    | .frame f rest =>
      match hand count with
      | .refused errno => ⟨[], rest, .error errno⟩
      | .started =>
        let d := cutLoop hand fuel (count + 1) rest
        ⟨f :: d.handed, d.readBuf, d.result⟩

def processNewMessage (handlerSet : Bool) (hand : Nat → Handover) (readBuf : Bytes) : Dispatched :=
  if handlerSet then cutLoop hand (readBuf.length + 1) 0 readBuf else ⟨[], readBuf, .ok 0⟩

/-- An endpoint that has not failed on a system that can start threads. -/
def healthy : Nat → Handover := fun _ => .started

/-! Well-formed frames. -/

structure WireFrame where
  bytes : Bytes
  header_le : kFrameHeaderBytes ≤ bytes.length
  total_len : totalLen bytes = bytes.length

/-- The byte stream a list of frames makes. -/
def stream (fs : List WireFrame) : Bytes := (fs.map WireFrame.bytes).flatten

@[simp] theorem stream_nil : stream [] = [] := rfl

@[simp] theorem stream_cons (f : WireFrame) (fs : List WireFrame) :
    stream (f :: fs) = f.bytes ++ stream fs := rfl

@[simp] theorem stream_append (fs gs : List WireFrame) : stream (fs ++ gs) = stream fs ++ stream gs := by
  simp [stream]

/-- The length field is read from the first four bytes. -/
theorem totalLen_append {b : Bytes} (h : 4 ≤ b.length) (rest : Bytes) : totalLen (b ++ rest) = totalLen b := by
  rw [totalLen, loadWord_append h, totalLen]

/-- A frame built from its length field and a body is well formed. -/
def frameOf (body : Bytes) (hmin : 8 ≤ body.length) (hmax : body.length + 4 < 2 ^ 32) : WireFrame where
  bytes := storeWord (htonl (body.length + 4)) ++ body
  header_le := by
    rw [List.length_append, storeWord_length, kFrameHeaderBytes]; omega
  total_len := by
    rw [totalLen, loadWord_storeWord (htonl_lt _), ntohl_htonl hmax, List.length_append,
      storeWord_length]
    omega

/-! Cutting. -/

theorem cutInputMessage_frame (f : WireFrame) (rest : Bytes) :
    cutInputMessage (f.bytes ++ rest) = .frame f.bytes rest := by
  have hmin := f.header_le
  have htotal : totalLen (f.bytes ++ rest) = f.bytes.length := by
    rw [totalLen_append (by unfold kFrameHeaderBytes at hmin; omega), f.total_len]
  unfold kFrameHeaderBytes at hmin
  unfold cutInputMessage
  rw [htotal, if_neg (by simp; omega), if_neg (by unfold kFrameHeaderBytes; omega), if_neg (by simp)]
  simp

/-- A frame that has not arrived completely is left in the buffer. -/
theorem cutInputMessage_unfinished {f : WireFrame} {p q : Bytes} (h : f.bytes = p ++ q) (hq : q ≠ []) :
    cutInputMessage p = .incomplete := by
  unfold cutInputMessage
  by_cases h4 : p.length < 4
  · rw [if_pos h4]
  · have htotal : totalLen p = f.bytes.length := by
      rw [← f.total_len, h, totalLen_append (by omega)]
    have hlen : p.length < f.bytes.length := by
      rw [h, List.length_append]
      have := List.length_pos_of_ne_nil hq
      omega
    have hmin := f.header_le
    rw [if_neg h4, htotal, if_neg (by omega), if_pos hlen]

theorem cutInputMessage_nil : cutInputMessage [] = .incomplete := rfl

/-- Cutting takes frames off the front in order and stops at the first unfinished one. -/
theorem cutLoop_frames {p : Bytes} (hp : cutInputMessage p = .incomplete) :
    ∀ (fs : List WireFrame) (fuel count : Nat), fs.length < fuel →
      cutLoop healthy fuel count (stream fs ++ p) = ⟨fs.map WireFrame.bytes, p, .ok (count + fs.length)⟩ := by
  intro fs
  induction fs with
  | nil =>
    intro fuel count hf
    obtain ⟨fuel, rfl⟩ := Nat.exists_eq_succ_of_ne_zero (Nat.ne_of_gt hf)
    simp [cutLoop, hp]
  | cons f fs ih =>
    intro fuel count hf
    obtain ⟨fuel, rfl⟩ := Nat.exists_eq_succ_of_ne_zero (Nat.ne_zero_of_lt hf)
    have hrec := ih fuel (count + 1) (by rw [List.length_cons] at hf; omega)
    rw [stream_cons, List.append_assoc, cutLoop, cutInputMessage_frame]
    simp only [healthy] at hrec ⊢
    rw [hrec]
    simp only [List.map_cons, List.length_cons, Dispatched.mk.injEq, Except.ok.injEq, true_and]
    omega

theorem length_le_stream (fs : List WireFrame) : fs.length ≤ (stream fs).length := by
  induction fs with
  | nil => simp
  | cons f fs ih =>
    have hmin := f.header_le
    unfold kFrameHeaderBytes at hmin
    rw [stream_cons, List.length_append, List.length_cons]
    omega

theorem processNewMessage_frames {p : Bytes} (hp : cutInputMessage p = .incomplete) (fs : List WireFrame) :
    processNewMessage true healthy (stream fs ++ p) = ⟨fs.map WireFrame.bytes, p, .ok fs.length⟩ := by
  have hlen := length_le_stream fs
  rw [processNewMessage, if_pos rfl, cutLoop_frames hp _ _ _ (by rw [List.length_append]; omega),
    Nat.zero_add]

/-! Prefixes of a stream of frames. -/

/-- `p` is nothing, or a proper prefix of the first of the frames `fs`. -/
def Unfinished (p : Bytes) (fs : List WireFrame) : Prop :=
  p = [] ∨ ∃ f rest q, fs = f :: rest ∧ f.bytes = p ++ q ∧ q ≠ []

theorem Unfinished.incomplete {p : Bytes} {fs : List WireFrame} (h : Unfinished p fs) :
    cutInputMessage p = .incomplete := by
  rcases h with rfl | ⟨f, rest, q, rfl, hf, hq⟩
  · exact cutInputMessage_nil
  · exact cutInputMessage_unfinished hf hq

/-- What has arrived of a stream is some of its frames and the start of the next one. -/
theorem stream_split : ∀ (fs : List WireFrame) (r tail : Bytes), stream fs = r ++ tail →
    ∃ done rest p, fs = done ++ rest ∧ r = stream done ++ p ∧ Unfinished p rest := by
  intro fs
  induction fs with
  | nil =>
    intro r tail h
    have hr : r = [] := (List.append_eq_nil_iff.mp h.symm).1
    exact ⟨[], [], [], rfl, by simpa using hr, .inl rfl⟩
  | cons f fs ih =>
    intro r tail h
    rw [stream_cons] at h
    -- either the arrived bytes go beyond the first frame, or they end inside it
    rcases List.append_eq_append_iff.mp h with ⟨r', hr, htail⟩ | ⟨q, hf, htail⟩
    · obtain ⟨done, rest, p, rfl, hr', hu⟩ := ih r' tail htail
      exact ⟨f :: done, rest, p, rfl, by rw [hr, hr', stream_cons, List.append_assoc], hu⟩
    · by_cases hq : q = []
      · subst hq
        exact ⟨[f], fs, [], rfl, by simpa using hf.symm, .inl rfl⟩
      · exact ⟨[], f :: fs, r, rfl, rfl, .inr ⟨f, fs, q, rfl, hf, hq⟩⟩

/-- An unfinished frame at the end of a whole stream is nothing. -/
theorem Unfinished.eq_nil_of_stream {p : Bytes} {fs : List WireFrame} (h : Unfinished p fs)
    (hs : stream fs = p) : p = [] ∧ fs = [] := by
  rcases h with rfl | ⟨f, rest, q, rfl, hf, hq⟩
  · refine ⟨rfl, ?_⟩
    have := length_le_stream fs
    rw [hs] at this
    exact List.eq_nil_of_length_eq_zero (by simpa using this)
  · rw [stream_cons, hf, List.append_assoc] at hs
    have hlen := congrArg List.length hs
    simp only [List.length_append] at hlen
    have := List.length_pos_of_ne_nil hq
    omega

end LightRpc

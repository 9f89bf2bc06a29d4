import LightRpc.Dispatcher
import LightRpc.Lib.Machine

/- The receive half of `PollCq` (`fast_rdma_endpoint.cc`): completions of control
   SENDs and of large RDMA writes are polled in batches, both append to the one
   `read_buf_`, and after each batch `ProcessNewMessage` cuts what is complete.

   A control SEND carries any piece of the control stream; a data completion
   carries a whole frame, found in `pending_large_map_` under the rkey of its
   immediate. Because the buffer is shared, a data completion that is polled while
   the buffer holds the first part of a control frame puts its bytes in the middle
   of that frame. A run is fine as long as every data batch is polled on an empty
   buffer. -/
namespace LightRpc

open Lib List

variable {s : ReadSide} {ctrl : List WireFrame} {tr : List Poll}

/-- Completions below this length are copied out of the receive block, others are cut
    off it. -/
def gRdmaZerocopyMinSize : Nat := 512

/-- The control receive block: the smallest pool block less the 32-byte `IOBuf::Block` header. -/
def gRdmaRecvBlockSize : Nat := 8192 - 32

/-- A control receive completion, with the contents of the block in slot `rq_received_`. -/
structure RecvWc where
  block : Bytes
  byteLen : Nat
  deriving DecidableEq, Repr

/-- A data receive completion. -/
structure DataWc where
  immData : Nat
  byteLen : Nat
  deriving DecidableEq, Repr

/-- `pendingLarge` maps an rkey to the contents of its memory region. `handed` are the
    frames given to the message handler, in order; `failed` once `SetFailed` was called. -/
structure ReadSide where
  readBuf : Bytes
  pendingLarge : List (Nat × Bytes)
  handed : List Bytes
  failed : Bool
  deriving DecidableEq, Repr

def ReadSide.start : ReadSide := ⟨[], [], [], false⟩

/-- The payload part of `HandleCompletion` for `IBV_WC_RECV`. -/
def handleRecv (s : ReadSide) (wc : RecvWc) : ReadSide :=
  if 0 < wc.byteLen then
    if wc.byteLen < gRdmaZerocopyMinSize then
      -- `read_buf_.append(rbuf_data_[rq_received_], wc.byte_len)`
      { s with readBuf := s.readBuf ++ wc.block.take wc.byteLen }
    else
      -- `rbuf_[rq_received_].cutn(&read_buf_, wc.byte_len)`
      { s with readBuf := s.readBuf ++ wc.block.take wc.byteLen }
  else s

/-- The bytes `append_user_data_with_meta` leaves in an empty buffer. -/
def appendUserDataWithMeta (data : Bytes) (size : Nat) : Bytes :=
  if size > 0xFFFFFFFF - 100 then [] else data.take size

/-- One data receive completion: look its rkey up, take the entry out and append the
    region. An unknown rkey is only logged. -/
def handleDataRecv (s : ReadSide) (wc : DataWc) : ReadSide :=
  match s.pendingLarge.lookup (ntohl wc.immData) with
  | some region =>
    { s with
      pendingLarge := s.pendingLarge.eraseP (·.1 == ntohl wc.immData)
      readBuf := s.readBuf ++ appendUserDataWithMeta region wc.byteLen }
  | none => s

/-- The end of a batch from a receive CQ. -/
def dispatch (s : ReadSide) : ReadSide :=
  let d := processNewMessage true healthy s.readBuf
  { s with
    readBuf := d.readBuf
    handed := s.handed ++ d.handed
    failed := match d.result with
      | .ok _ => false
      | .error _ => true }

/-- What the receive half observes: a region announced by a handler and filled by the
    peer, a batch polled from `recv_cq_`, or a batch polled from `data_recv_cq_`. Each
    data completion comes with the frame the peer wrote, which the code does not see. -/
inductive Poll where
  | pend (rkey : Nat) (region : Bytes)
  | recv (batch : List RecvWc)
  | dataRecv (batch : List (DataWc × WireFrame))

def ReadSide.next (s : ReadSide) : Poll → Option ReadSide
  | .pend rkey region => some { s with pendingLarge := (rkey, region) :: s.pendingLarge }
  | .recv batch =>
    if s.failed || batch.isEmpty || decide (32 < batch.length) then none
    else some (dispatch (batch.foldl handleRecv s))
  | .dataRecv batch =>
    if s.failed || batch.isEmpty || decide (32 < batch.length) then none
    else some (dispatch ((batch.map Prod.fst).foldl handleDataRecv s))

def readMachine : Machine ReadSide Poll where
  init := fun s => s = .start
  next := ReadSide.next

/-! What the peer sent, as the polls show it. -/

def RecvWc.payload (wc : RecvWc) : Bytes := wc.block.take wc.byteLen

/-- The pieces of the control stream in one poll. -/
def Poll.sends : Poll → List Bytes
  | .recv batch => batch.map RecvWc.payload
  | _ => []

/-- The large frames in one poll. -/
def Poll.large : Poll → List WireFrame
  | .dataRecv batch => batch.map Prod.snd
  | _ => []

def sends (tr : List Poll) : List Bytes := tr.flatMap Poll.sends

def large (tr : List Poll) : List WireFrame := tr.flatMap Poll.large

/-- Every data completion finds its rkey, and its length is that of the frame the peer
    wrote into the region. -/
def announced : List (Nat × Bytes) → List (DataWc × WireFrame) → Bool
  | _, [] => true
  | pending, (wc, f) :: rest =>
    (match pending.lookup (ntohl wc.immData) with
      | some region => wc.byteLen == f.bytes.length && region.take wc.byteLen == f.bytes
      | none => false) &&
      announced (pending.eraseP (·.1 == ntohl wc.immData)) rest

def Announced (s : ReadSide) : Poll → Bool
  | .dataRecv batch => announced s.pendingLarge batch
  | _ => true

/-- A data batch is polled on an empty buffer and fits the `IOBuf` that takes it. -/
def AtBoundary (s : ReadSide) : Poll → Bool
  | .dataRecv batch =>
    s.readBuf.isEmpty && decide ((batch.map fun x => x.2.bytes.length).sum ≤ 0xFFFFFFFF - 100)
  | _ => true

/-- The frames handed over are the complete control frames received so far and the large
    frames received so far, each once and unchanged; the rest of the control bytes is the
    start of the next control frame and waits in the buffer. -/
def Intact (ctrl : List WireFrame) (tr : List Poll) (s : ReadSide) : Prop :=
  s.failed = false ∧ ∃ done rest, ctrl = done ++ rest ∧
    (s.handed : Multiset Bytes) = ↑(done.map WireFrame.bytes) + ↑((large tr).map WireFrame.bytes) ∧
    (sends tr).flatten = stream done ++ s.readBuf ∧ Unfinished s.readBuf rest

/-! One batch. -/

theorem foldl_handleRecv (batch : List RecvWc) : ∀ s : ReadSide,
    batch.foldl handleRecv s = { s with readBuf := s.readBuf ++ (batch.map RecvWc.payload).flatten } := by
  induction batch with
  | nil => intro s; simp
  | cons wc batch ih =>
    intro s
    have hone : handleRecv s wc = { s with readBuf := s.readBuf ++ wc.payload } := by
      unfold handleRecv RecvWc.payload
      by_cases h0 : 0 < wc.byteLen
      · simp [h0]
      · simp [Nat.eq_zero_of_not_pos h0]
    rw [foldl_cons, ih, hone]
    simp [append_assoc]

theorem appendUserDataWithMeta_frame {region : Bytes} {f : WireFrame} {n : Nat}
    (hlen : n = f.bytes.length) (hregion : region.take n = f.bytes) (hfits : f.bytes.length ≤ 0xFFFFFFFF - 100) :
    appendUserDataWithMeta region n = f.bytes := by
  unfold appendUserDataWithMeta
  rw [if_neg (by omega), hregion]

theorem foldl_handleDataRecv (batch : List (DataWc × WireFrame)) : ∀ s : ReadSide,
    announced s.pendingLarge batch → (batch.map fun x => x.2.bytes.length).sum ≤ 0xFFFFFFFF - 100 →
    ∃ pending, (batch.map Prod.fst).foldl handleDataRecv s =
      { s with readBuf := s.readBuf ++ stream (batch.map Prod.snd), pendingLarge := pending } := by
  induction batch with
  | nil => intro s _ _; exact ⟨s.pendingLarge, by simp⟩
  | cons x batch ih =>
    obtain ⟨wc, f⟩ := x
    intro s hann hfits
    simp only [announced, Bool.and_eq_true] at hann
    obtain ⟨hfound, hrest⟩ := hann
    simp only [map_cons, sum_cons] at hfits
    cases hl : s.pendingLarge.lookup (ntohl wc.immData) with
    | none => simp [hl] at hfound
    | some region =>
      simp only [hl, Bool.and_eq_true, beq_iff_eq] at hfound
      have hone : handleDataRecv s wc = { s with
          pendingLarge := s.pendingLarge.eraseP (·.1 == ntohl wc.immData)
          readBuf := s.readBuf ++ f.bytes } := by
        unfold handleDataRecv
        simp only [hl]
        rw [appendUserDataWithMeta_frame hfound.1 hfound.2 (by omega)]
      obtain ⟨pending, hfold⟩ := ih (handleDataRecv s wc) (by rw [hone]; exact hrest) (by omega)
      refine ⟨pending, ?_⟩
      rw [map_cons, foldl_cons, hfold, hone]
      simp [append_assoc]

theorem dispatch_frames {fs : List WireFrame} {p : Bytes} (hbuf : s.readBuf = stream fs ++ p)
    (hp : cutInputMessage p = .incomplete) : dispatch s = { s with
      readBuf := p
      handed := s.handed ++ fs.map WireFrame.bytes
      failed := false } := by
  unfold dispatch
  rw [hbuf, processNewMessage_frames hp]

/-! Whole runs. -/

theorem sends_snoc (tr : List Poll) (a : Poll) : sends (tr ++ [a]) = sends tr ++ a.sends := by
  simp [sends]

theorem large_snoc (tr : List Poll) (a : Poll) : large (tr ++ [a]) = large tr ++ a.large := by
  simp [large]

/-- A control batch: what it completes is handed over, the rest waits. -/
theorem intact_recv (batch : List RecvWc) (hi : Intact ctrl tr s)
    (hctrl : (sends (tr ++ [.recv batch])).flatten <+: stream ctrl) :
    Intact ctrl (tr ++ [.recv batch]) (dispatch (batch.foldl handleRecv s)) := by
  obtain ⟨_, done, rest, rfl, hhanded, hsends, _⟩ := hi
  obtain ⟨tail, htail⟩ := hctrl
  -- the buffer and the new bytes are a prefix of the frames still to come
  have hnew : stream rest = s.readBuf ++ (batch.map RecvWc.payload).flatten ++ tail := by
    rw [sends_snoc, flatten_append, hsends, stream_append] at htail
    simp only [append_assoc] at htail ⊢
    exact (append_cancel_left htail).symm
  obtain ⟨done', rest', p, rfl, hp, hu⟩ := stream_split rest _ tail hnew
  rw [foldl_handleRecv]
  rw [dispatch_frames hp hu.incomplete]
  refine ⟨rfl, done ++ done', rest', by simp, ?_, ?_, hu⟩
  · rw [← Multiset.coe_add, hhanded, large_snoc]
    simp only [Poll.large, append_nil, map_append, ← Multiset.coe_add]
    exact add_right_comm _ _ _
  · rw [sends_snoc, flatten_append, hsends, stream_append, append_assoc, append_assoc]
    exact congrArg _ hp

/-- A data batch on an empty buffer: its frames are handed over. -/
theorem intact_dataRecv (batch : List (DataWc × WireFrame)) (hi : Intact ctrl tr s) (hempty : s.readBuf = [])
    (hann : announced s.pendingLarge batch)
    (hfits : (batch.map fun x => x.2.bytes.length).sum ≤ 0xFFFFFFFF - 100) :
    Intact ctrl (tr ++ [.dataRecv batch]) (dispatch ((batch.map Prod.fst).foldl handleDataRecv s)) := by
  obtain ⟨_, done, rest, rfl, hhanded, hsends, _⟩ := hi
  obtain ⟨pending, hfold⟩ := foldl_handleDataRecv batch s hann hfits
  have hbuf : s.readBuf ++ stream (batch.map Prod.snd) = stream (batch.map Prod.snd) ++ [] := by simp [hempty]
  rw [hfold, dispatch_frames hbuf rfl]
  refine ⟨rfl, done, rest, rfl, ?_, ?_, .inl rfl⟩
  · rw [← Multiset.coe_add, hhanded, large_snoc]
    simp only [Poll.large, map_append, ← Multiset.coe_add, add_assoc]
  · rw [sends_snoc, flatten_append, hsends, hempty]
    simp [Poll.sends]

/-- The machine under the assumption on data completions. -/
def announcedMachine : Machine ReadSide Poll := readMachine.guard Announced

theorem intact_next {s' : ReadSide} {a : Poll} (hi : Intact ctrl tr s)
    (hctrl : (sends (tr ++ [a])).flatten <+: stream ctrl) (hann : Announced s a) (hb : AtBoundary s a)
    (hn : s.next a = some s') : Intact ctrl (tr ++ [a]) s' := by
  cases a with
  | pend rkey region =>
    cases hn
    obtain ⟨hf, done, rest, hc, hhanded, hsends, hu⟩ := hi
    exact ⟨hf, done, rest, hc, by rw [large_snoc]; simpa [Poll.large] using hhanded,
      by rw [sends_snoc]; simpa [Poll.sends] using hsends, hu⟩
  | recv batch =>
    simp only [ReadSide.next] at hn
    split at hn <;> cases hn
    · exact intact_recv batch hi hctrl
  | dataRecv batch =>
    simp only [ReadSide.next] at hn
    split at hn <;> cases hn
    · simp only [AtBoundary, Bool.and_eq_true, List.isEmpty_iff, decide_eq_true_eq] at hb
      exact intact_dataRecv batch hi hb.1 hann hb.2

theorem sends_mono {a : Poll} (h : (sends (tr ++ [a])).flatten <+: stream ctrl) : (sends tr).flatten <+: stream ctrl := by
  rw [sends_snoc, flatten_append] at h
  exact (prefix_append _ _).trans h

/-- In every run in which data completions are announced and every data batch is polled at
    a frame boundary, the frames handed over are those sent. -/
theorem frames_intact_at_boundaries (ctrl : List WireFrame) {tr : List Poll} {s : ReadSide}
    (hrun : (announcedMachine.guard AtBoundary).Run tr s)
    (hctrl : (sends tr).flatten <+: stream ctrl) :
    Intact ctrl tr s ∧ ((sends tr).flatten = stream ctrl →
      (s.handed : Multiset Bytes) =
        ↑(ctrl.map WireFrame.bytes) + ↑((large tr).map WireFrame.bytes) ∧ s.readBuf = []) := by
  have hintact : Intact ctrl tr s := by
    revert hctrl
    refine hrun.invariant (I := fun tr s => (sends tr).flatten <+: stream ctrl → Intact ctrl tr s) ?_ ?_
    · rintro s rfl _
      exact ⟨rfl, [], ctrl, rfl, rfl, rfl, .inl rfl⟩
    · intro tr s a s' _ ih hn hctrl
      obtain ⟨hb, hn⟩ := Machine.guard_next.mp hn
      obtain ⟨hann, hn⟩ := Machine.guard_next.mp hn
      exact intact_next (ih (sends_mono hctrl)) hctrl hann hb hn
  refine ⟨hintact, fun hall => ?_⟩
  obtain ⟨_, done, rest, rfl, hhanded, hsends, hu⟩ := hintact
  rw [hall, stream_append] at hsends
  obtain ⟨hbuf, rfl⟩ := hu.eq_nil_of_stream (List.append_cancel_left hsends)
  exact ⟨by simpa using hhanded, hbuf⟩

/-- A `MSG_NOTIFY` frame of 16 bytes. -/
def notifyFrame : WireFrame :=
  frameOf (storeWord (htonl 1) ++ storeWord (htonl 2) ++ storeWord (htonl 4194304)) (by decide) (by decide)

/-- A run that meets the condition: a control frame in two pieces, and a data frame polled
    after the second. -/
theorem notify_then_data_intact : ∃ s,
    (announcedMachine.guard AtBoundary).Run
      [.pend 5 notifyFrame.bytes, .recv [⟨notifyFrame.bytes.take 8, 8⟩], .recv [⟨notifyFrame.bytes.drop 8, 8⟩],
        .dataRecv [(⟨htonl 5, 16⟩, notifyFrame)]] s ∧
    s.handed = [notifyFrame.bytes, notifyFrame.bytes] ∧
    Intact [notifyFrame] [.pend 5 notifyFrame.bytes, .recv [⟨notifyFrame.bytes.take 8, 8⟩],
      .recv [⟨notifyFrame.bytes.drop 8, 8⟩], .dataRecv [(⟨htonl 5, 16⟩, notifyFrame)]] s := by
  have hrun := Machine.run_of_exec (M := announcedMachine.guard AtBoundary) (s := .start)
    (show ReadSide.start = .start from rfl)
    (show Machine.exec _ _ [.pend 5 notifyFrame.bytes, .recv [⟨notifyFrame.bytes.take 8, 8⟩],
      .recv [⟨notifyFrame.bytes.drop 8, 8⟩], .dataRecv [(⟨htonl 5, 16⟩, notifyFrame)]] =
      some ⟨[], [], [notifyFrame.bytes, notifyFrame.bytes], false⟩ from by decide +kernel)
  refine ⟨_, hrun, rfl, (frames_intact_at_boundaries [notifyFrame] hrun ?_).1⟩
  exact ⟨[], by decide⟩

/-! The run that goes wrong. -/

/-- A data frame that arrives behind the first part of a control frame completes it. -/
theorem dispatch_mixes {f : WireFrame} {p q d : Bytes} (hf : f.bytes = p ++ q) (h4 : 4 ≤ p.length)
    (hq : q.length ≤ d.length) (hbuf : s.readBuf = p ++ d) :
    ∃ more, (dispatch s).handed = s.handed ++ (p ++ d.take q.length) :: more := by
  have hlen : f.bytes.length = p.length + q.length := by rw [hf, length_append]
  have htotal : totalLen (p ++ d) = p.length + q.length := by
    rw [totalLen_append h4, ← hlen, ← f.total_len, hf, totalLen_append h4]
  have hmin := f.header_le
  have hcut : cutInputMessage (p ++ d) = .frame (p ++ d.take q.length) (d.drop q.length) := by
    unfold cutInputMessage
    rw [htotal, if_neg (by rw [length_append]; omega), if_neg (by omega),
      if_neg (by rw [length_append]; omega), take_length_add_append, drop_length_add_append]
  refine ⟨(cutLoop healthy (p ++ d).length 1 (d.drop q.length)).handed, ?_⟩
  simp only [dispatch, hbuf, processNewMessage, if_true, cutLoop, hcut, healthy]

/-- A frame of `n` bytes with a zero payload. -/
def zeroFrame (n : Nat) (hmin : 12 ≤ n) (hmax : n < 2 ^ 32) : WireFrame :=
  frameOf (storeWord (htonl 0) ++ storeWord (htonl 1) ++ List.replicate (n - 12) 0)
    (by simp only [List.length_append, storeWord_length]; omega)
    (by simp only [List.length_append, storeWord_length, List.length_replicate]; omega)

theorem zeroFrame_length (n : Nat) (hmin : 12 ≤ n) (hmax : n < 2 ^ 32) : (zeroFrame n hmin hmax).bytes.length = n := by
  simp only [zeroFrame, frameOf, length_append, storeWord_length, length_replicate]; omega

/-- Eight bytes of the control frame, then a large frame, polled in this order. -/
def mixedTrace (f : WireFrame) : List Poll :=
  [.pend 5 f.bytes, .recv [⟨notifyFrame.bytes.take 8, 8⟩], .dataRecv [(⟨htonl 5, f.bytes.length⟩, f)]]

/-- The state after the two polls, up to the cutting of the second. -/
def mixedState (f : WireFrame) : ReadSide := dispatch ⟨notifyFrame.bytes.take 8 ++ f.bytes, [], [], false⟩

theorem mixedTrace_run (f : WireFrame) (hf : f.bytes.length ≤ 0xFFFFFFFF - 100) :
    announcedMachine.Run (mixedTrace f) (mixedState f) := by
  have happ : appendUserDataWithMeta f.bytes f.bytes.length = f.bytes :=
    appendUserDataWithMeta_frame rfl take_length hf
  have h5 : ntohl (htonl 5) = 5 := by decide
  have hwait : cutInputMessage (notifyFrame.bytes.take 8) = .incomplete :=
    cutInputMessage_unfinished (take_append_drop 8 _).symm (by decide)
  have hfirst : dispatch (handleRecv ⟨[], [(5, f.bytes)], [], false⟩ ⟨notifyFrame.bytes.take 8, 8⟩) =
      ⟨notifyFrame.bytes.take 8, [(5, f.bytes)], [], false⟩ := by
    have hbuf : (handleRecv ⟨[], [(5, f.bytes)], [], false⟩ ⟨notifyFrame.bytes.take 8, 8⟩).readBuf =
        stream [] ++ notifyFrame.bytes.take 8 := by simp [handleRecv, take_take]
    rw [dispatch_frames hbuf hwait]
    rfl
  refine Machine.run_of_exec (M := announcedMachine) (s := .start) (show ReadSide.start = .start from rfl) ?_
  simp [mixedTrace, mixedState, Machine.exec, announcedMachine, Machine.guard, readMachine, ReadSide.next,
    Announced, announced, ReadSide.start, h5, hfirst, handleDataRecv, happ, lookup]

theorem mixedState_handed (f : WireFrame) (h : 8 ≤ f.bytes.length) :
    notifyFrame.bytes.take 8 ++ f.bytes.take 8 ∈ (mixedState f).handed := by
  obtain ⟨more, hmore⟩ := dispatch_mixes (s := ⟨notifyFrame.bytes.take 8 ++ f.bytes, [], [], false⟩)
    (f := notifyFrame) (p := notifyFrame.bytes.take 8) (q := notifyFrame.bytes.drop 8) (d := f.bytes)
    (take_append_drop 8 _).symm (by decide) h rfl
  rw [mixedState, hmore]
  simp [show (notifyFrame.bytes.drop 8).length = 8 from rfl]

theorem mixed_frames :
    announcedMachine.Run (mixedTrace (zeroFrame msgThreshold (by decide) (by decide)))
      (mixedState (zeroFrame msgThreshold (by decide) (by decide))) ∧
    (sends (mixedTrace (zeroFrame msgThreshold (by decide) (by decide)))).flatten <+: stream [notifyFrame] ∧
    (∀ p ∈ sends (mixedTrace (zeroFrame msgThreshold (by decide) (by decide))),
      p.length ≤ gRdmaRecvBlockSize) ∧
    ¬ Intact [notifyFrame] (mixedTrace (zeroFrame msgThreshold (by decide) (by decide)))
      (mixedState (zeroFrame msgThreshold (by decide) (by decide))) := by
  have hlen := zeroFrame_length msgThreshold (by decide) (by decide)
  have hhead : (zeroFrame msgThreshold (by decide) (by decide)).bytes.take 8 =
      storeWord (htonl msgThreshold) ++ storeWord (htonl 0) := by
    simp only [zeroFrame, frameOf, List.length_append, storeWord_length, List.length_replicate]
    rw [show 4 + 4 + (msgThreshold - 12) + 4 = msgThreshold from by decide]
    rfl
  generalize zeroFrame msgThreshold (by decide) (by decide) = f at hlen hhead ⊢
  have hsends : sends (mixedTrace f) = [notifyFrame.bytes.take 8] := rfl
  refine ⟨mixedTrace_run f (by rw [hlen]; decide), ?_, ?_, ?_⟩
  · rw [hsends]
    exact ⟨notifyFrame.bytes.drop 8, by simp⟩
  · rw [hsends]
    decide
  · rintro ⟨_, done, rest, hctrl, hhanded, _, _⟩
    have hmem := mixedState_handed f (by rw [hlen]; decide)
    rw [← Multiset.mem_coe, hhanded] at hmem
    have hsent : notifyFrame.bytes.take 8 ++ f.bytes.take 8 = notifyFrame.bytes ∨
        notifyFrame.bytes.take 8 ++ f.bytes.take 8 = f.bytes := by
      rcases Multiset.mem_add.mp hmem with h | h
      · obtain ⟨g, hg, hgb⟩ := List.mem_map.mp (Multiset.mem_coe.mp h)
        have hg' : g ∈ [notifyFrame] := by rw [hctrl]; exact List.mem_append_left _ hg
        rw [List.mem_singleton] at hg'
        exact .inl (by rw [← hgb, hg'])
      · exact .inr (by simpa [large, mixedTrace, Poll.large] using h)
    rcases hsent with h | h
    · rw [hhead] at h
      revert h
      decide
    · have := congrArg List.length h
      rw [hlen, hhead] at this
      revert this
      decide

end LightRpc

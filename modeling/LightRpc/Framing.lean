import LightRpc.Lib.Chunks
import LightRpc.FrameSafety

/- Framing of the read buffer: `ProcessNewMessage` on references, and the delivery of a byte
   stream in chunks (`message_dispatcher.cc`).

   1. `processNewMessage` is the loop over `CutInputMessage`. It is total: a frame has at least
      `kFrameHeaderBytes` bytes, so every round shortens the buffer.
   2. `deliver` appends a chunk, runs the loop, and goes on with the next chunk unless the
      loop returned -1. How an append lays the bytes out in blocks is left open (`Append`).
   3. `CutInputMessage` on bytes is a `Cutter` (`cutter`): what it cuts or rejects does not
      depend on what arrives later. Seen through the content, `processNewMessage` is
      `Cutter.run` and `deliver` is `Cutter.feed`, and the law of chunks is the library's.

   `hand n` answers for the frame after `n` of the stream: its handler thread starts, or the
   endpoint is found failed or the thread cannot be started. -/
namespace LightRpc.Frames

open Lib List

/-- Frames cut, the read buffer, and the errno of a -1. -/
structure Cuts where
  frames : List IOBuf
  readBuf : IOBuf
  errno : Option Nat

theorem length_rest {readBuf f rest : IOBuf} (h : cutInputMessage readBuf = .frame f rest) :
    rest.content.length < readBuf.content.length := by
  have hbytes := cutInputMessage_bytes readBuf
  rw [h, CutFrame.bytes, LightRpc.cutInputMessage] at hbytes
  split_ifs at hbytes with h4 hheader hshort
  obtain ⟨_, hrest⟩ := CutResult.frame.inj hbytes
  rw [kFrameHeaderBytes] at hheader
  rw [hrest, length_drop]
  omega

/-- The loop of `ProcessNewMessage`, with `n` frames of the stream cut before. -/
def cutLoop (hand : Nat → Handover) (n : Nat) (readBuf : IOBuf) : Cuts :=
  match h : cutInputMessage readBuf with
  | .incomplete => ⟨[], readBuf, none⟩
  | .invalid => ⟨[], readBuf, some EPROTO⟩
  | .frame f rest =>
    match hand n with
    | .refused errno => ⟨[f], rest, some errno⟩
    | .started =>
      have := length_rest h
      let c := cutLoop hand (n + 1) rest
      ⟨f :: c.frames, c.readBuf, c.errno⟩
termination_by readBuf.content.length

def processNewMessage (handlerSet : Bool) (hand : Nat → Handover) (n : Nat) (readBuf : IOBuf) : Cuts :=
  if handlerSet then cutLoop hand n readBuf else ⟨[], readBuf, none⟩

/-- `read_buf_.append`: the bytes of the second buffer behind those of the first. -/
structure Append where
  append : IOBuf → IOBuf → IOBuf
  content : ∀ a b, (append a b).content = a.content ++ b.content

/-- Every chunk is appended and followed by `ProcessNewMessage`, up to the first error; with the
    chunks that remain. -/
def deliver (handlerSet : Bool) (hand : Nat → Handover) (ap : Append) :
    Nat → IOBuf → List IOBuf → Cuts × List IOBuf
  | _, readBuf, [] => (⟨[], readBuf, none⟩, [])
  | n, readBuf, chunk :: chunks =>
    let c := processNewMessage handlerSet hand n (ap.append readBuf chunk)
    match c.errno with
    | some _ => (c, chunks)
    | none =>
      let d := deliver handlerSet hand ap (n + c.frames.length) c.readBuf chunks
      (⟨c.frames ++ d.1.frames, d.1.readBuf, d.1.errno⟩, d.2)

/-! The cutter. -/

def CutResult.cut : CutResult → Cut UInt8
  | .incomplete => .more
  | .invalid => .invalid
  | .frame f rest => .item f rest

/-- A cut frame is well formed, and was at the front. -/
theorem cutInputMessage_wire {b f rest : Bytes} (h : LightRpc.cutInputMessage b = .frame f rest) :
    b = f ++ rest ∧ ∃ w : WireFrame, w.bytes = f := by
  rw [LightRpc.cutInputMessage] at h
  split_ifs at h with h4 hheader hshort
  obtain ⟨rfl, rfl⟩ := CutResult.frame.inj h
  have hmin : 12 ≤ totalLen b := Nat.le_of_not_lt hheader
  have hlen : (b.take (totalLen b)).length = totalLen b := by
    rw [length_take]
    omega
  refine ⟨(take_append_drop _ _).symm, ⟨b.take (totalLen b), ?_, ?_⟩, rfl⟩
  · rw [hlen, kFrameHeaderBytes]
    exact hmin
  · have htotal := totalLen_append (b := b.take (totalLen b)) (by omega) (b.drop (totalLen b))
    rw [take_append_drop] at htotal
    rw [← htotal, hlen]

theorem cutInputMessage_invalid {b : Bytes} (h : LightRpc.cutInputMessage b = .invalid) (c : Bytes) :
    LightRpc.cutInputMessage (b ++ c) = .invalid := by
  rw [LightRpc.cutInputMessage] at h ⊢
  split_ifs at h with h4 hheader hshort
  rw [totalLen_append (by omega), if_neg (by rw [length_append]; omega), if_pos hheader]

theorem CutResult.of_item {r : CutResult} {f rest : Bytes} (h : CutResult.cut r = .item f rest) :
    r = .frame f rest := by
  cases r <;> cases h
  rfl

theorem CutResult.of_invalid {r : CutResult} (h : CutResult.cut r = .invalid) : r = .invalid := by
  cases r <;> cases h
  rfl

def cutter : Cutter UInt8 where
  cut b := CutResult.cut (LightRpc.cutInputMessage b)
  item_split h := (cutInputMessage_wire (CutResult.of_item h)).1
  item_ne := by
    intro b f rest h
    obtain ⟨_, w, rfl⟩ := cutInputMessage_wire (CutResult.of_item h)
    have hmin := w.header_le
    rw [kFrameHeaderBytes] at hmin
    exact List.ne_nil_of_length_pos (by omega)
  item_append := by
    intro b f rest c h
    obtain ⟨rfl, w, rfl⟩ := cutInputMessage_wire (CutResult.of_item h)
    rw [List.append_assoc, cutInputMessage_frame]
    rfl
  invalid_append := by
    intro b c h
    rw [cutInputMessage_invalid (CutResult.of_invalid h)]
    rfl

/-! The loops, seen through the content. -/

def contents (fs : List IOBuf) : List Bytes := fs.map Segments.content

@[simp] theorem contents_cons (f : IOBuf) (fs : List IOBuf) : contents (f :: fs) = f.content :: contents fs := rfl

@[simp] theorem contents_append (fs gs : List IOBuf) : contents (fs ++ gs) = contents fs ++ contents gs :=
  map_append

theorem length_contents (fs : List IOBuf) : (contents fs).length = fs.length := length_map _

/-- What has happened to the bytes. -/
def Cuts.parse (c : Cuts) : Cutter.Parse UInt8 Nat := ⟨contents c.frames, c.readBuf.content, c.errno⟩

def refusal : Handover → Option Nat
  | .started => none
  | .refused errno => some errno

section
variable {hand : Nat → Handover} {n : Nat} {readBuf : IOBuf}

theorem cutLoop_incomplete (h : cutInputMessage readBuf = .incomplete) :
    cutLoop hand n readBuf = ⟨[], readBuf, none⟩ := by
  rw [cutLoop]
  split <;> simp_all

theorem cutLoop_invalid (h : cutInputMessage readBuf = .invalid) :
    cutLoop hand n readBuf = ⟨[], readBuf, some EPROTO⟩ := by
  rw [cutLoop]
  split <;> simp_all

theorem cutLoop_refused {f rest : IOBuf} {errno : Nat} (h : cutInputMessage readBuf = .frame f rest)
    (hhand : hand n = .refused errno) : cutLoop hand n readBuf = ⟨[f], rest, some errno⟩ := by
  rw [cutLoop]
  split <;> simp_all

theorem cutLoop_started {f rest : IOBuf} (h : cutInputMessage readBuf = .frame f rest) (hhand : hand n = .started) :
    cutLoop hand n readBuf = ⟨f :: (cutLoop hand (n + 1) rest).frames,
      (cutLoop hand (n + 1) rest).readBuf, (cutLoop hand (n + 1) rest).errno⟩ := by
  rw [cutLoop]
  split <;> simp_all

theorem cutter_cut (readBuf : IOBuf) : cutter.cut readBuf.content = CutResult.cut (cutInputMessage readBuf).bytes := by
  rw [cutInputMessage_bytes]
  rfl

end

/-- On references `ProcessNewMessage` does what the cutter does on bytes. -/
theorem cutLoop_parse (hand : Nat → Handover) (n : Nat) (readBuf : IOBuf) :
    (cutLoop hand n readBuf).parse = cutter.run (fun i => refusal (hand i)) EPROTO n readBuf.content := by
  induction n, readBuf using cutLoop.induct hand with
  | case1 n readBuf h =>
    have hcut : cutter.cut readBuf.content = .more := by rw [cutter_cut, h]; rfl
    rw [cutLoop_incomplete h, Cutter.run_more hcut]
    rfl
  | case2 n readBuf h =>
    have hcut : cutter.cut readBuf.content = .invalid := by rw [cutter_cut, h]; rfl
    rw [cutLoop_invalid h, Cutter.run_invalid hcut]
    rfl
  | case3 n readBuf f rest h errno hhand =>
    have hcut : cutter.cut readBuf.content = .item f.content rest.content := by rw [cutter_cut, h]; rfl
    have hno : refusal (hand n) = some errno := by rw [hhand]; rfl
    rw [cutLoop_refused h hhand, Cutter.run_refused hcut hno]
    rfl
  | case4 n readBuf f rest h hhand _ ih =>
    have hcut : cutter.cut readBuf.content = .item f.content rest.content := by rw [cutter_cut, h]; rfl
    have hyes : refusal (hand n) = none := by rw [hhand]; rfl
    rw [cutLoop_started h hhand, Cutter.run_item hcut hyes, ← ih]
    rfl

theorem deliver_feed (hand : Nat → Handover) (ap : Append) : ∀ (chunks : List IOBuf) (n : Nat) (readBuf : IOBuf),
    let d := deliver true hand ap n readBuf chunks
    (d.1.parse, contents d.2) =
      cutter.feed (fun i => refusal (hand i)) EPROTO n readBuf.content (contents chunks) := by
  intro chunks
  induction chunks with
  | nil => intro n readBuf; rfl
  | cons chunk chunks ih =>
    intro n readBuf
    have hloop := cutLoop_parse hand n (ap.append readBuf chunk)
    rw [ap.content] at hloop
    have hframes := congrArg (fun p => p.items.length) hloop
    simp only [Cuts.parse, length_contents] at hframes
    simp only [deliver, processNewMessage, if_true, contents_cons, Cutter.feed, ← hloop]
    simp only [Cuts.parse]
    cases herr : (cutLoop hand n (ap.append readBuf chunk)).errno with
    | some e => simp [herr]
    | none =>
      have hrest := ih (n + (cutLoop hand n (ap.append readBuf chunk)).frames.length)
        (cutLoop hand n (ap.append readBuf chunk)).readBuf
      simp only [length_contents, ← hrest, Cuts.parse, contents_append]

/-- The loop on bytes, which counts its rounds, is this one: it hands over the frames cut here,
    but for the one a refusal ends with. -/
theorem cutLoop_dispatched (hand : Nat → Handover) (n : Nat) (readBuf : IOBuf) : ∀ fuel : Nat,
    readBuf.content.length < fuel →
    let d := LightRpc.cutLoop hand fuel n readBuf.content
    let c := cutLoop hand n readBuf
    d.readBuf = c.readBuf.content ∧
      (d.handed = contents c.frames ∧
          (c.errno = none ∧ d.result = .ok (n + c.frames.length) ∨ c.errno = some EPROTO ∧ d.result = .error EPROTO) ∨
        ∃ fs f errno, c.frames = fs ++ [f] ∧ d.handed = contents fs ∧ hand (n + fs.length) = .refused errno ∧
          c.errno = some errno ∧ d.result = .error errno) := by
  induction n, readBuf using cutLoop.induct hand with
  | case1 n readBuf h =>
    intro fuel hfuel
    obtain ⟨fuel, rfl⟩ := Nat.exists_eq_succ_of_ne_zero (Nat.ne_zero_of_lt hfuel)
    simp only [cutLoop_incomplete h, LightRpc.cutLoop, ← cutInputMessage_bytes, h, CutFrame.bytes]
    exact ⟨trivial, .inl ⟨rfl, .inl ⟨trivial, rfl⟩⟩⟩
  | case2 n readBuf h =>
    intro fuel hfuel
    obtain ⟨fuel, rfl⟩ := Nat.exists_eq_succ_of_ne_zero (Nat.ne_zero_of_lt hfuel)
    simp only [cutLoop_invalid h, LightRpc.cutLoop, ← cutInputMessage_bytes, h, CutFrame.bytes]
    exact ⟨trivial, .inl ⟨rfl, .inr ⟨trivial, trivial⟩⟩⟩
  | case3 n readBuf f rest h errno hhand =>
    intro fuel hfuel
    obtain ⟨fuel, rfl⟩ := Nat.exists_eq_succ_of_ne_zero (Nat.ne_zero_of_lt hfuel)
    simp only [cutLoop_refused h hhand, LightRpc.cutLoop, ← cutInputMessage_bytes, h, CutFrame.bytes, hhand]
    exact ⟨trivial, .inr ⟨[], f, errno, rfl, rfl, hhand, rfl, rfl⟩⟩
  | case4 n readBuf f rest h hhand hlt ih =>
    intro fuel hfuel
    obtain ⟨fuel, rfl⟩ := Nat.exists_eq_succ_of_ne_zero (Nat.ne_zero_of_lt hfuel)
    have hsucc (k : Nat) : n + 1 + k = n + (k + 1) := by omega
    obtain ⟨hrest, hended⟩ := ih fuel (by omega)
    simp only [cutLoop_started h hhand, LightRpc.cutLoop, ← cutInputMessage_bytes, h, CutFrame.bytes, hhand, contents_cons,
      length_cons]
    refine ⟨hrest, hended.imp ?_ ?_⟩
    · rintro ⟨hhanded, hresult⟩
      rw [hsucc] at hresult
      exact ⟨by rw [hhanded], hresult⟩
    · rintro ⟨fs, g, errno, hframes, hhanded, hrefused, hresult⟩
      rw [hsucc] at hrefused
      exact ⟨f :: fs, g, errno, by rw [hframes, cons_append], by rw [hhanded, contents_cons], hrefused, hresult⟩

/-- The law of chunks, for the two loops. -/
theorem deliver_whole (hand : Nat → Handover) (ap : Append) {chunks : List IOBuf} {whole : IOBuf}
    (h : whole.content = (contents chunks).flatten) :
    let d := deliver true hand ap 0 [] chunks
    (cutLoop hand 0 whole).parse =
      ⟨contents d.1.frames, d.1.readBuf.content ++ (contents d.2).flatten, d.1.errno⟩ := by
  have hfeed : _ = cutter.feed (fun i => refusal (hand i)) EPROTO 0 [] (contents chunks) :=
    deliver_feed hand ap chunks 0 []
  have hrun := Cutter.feed_eq_run (C := cutter) (fun i => refusal (hand i)) EPROTO (contents chunks) 0 [] rfl
  rw [nil_append, ← h, ← hfeed] at hrun
  rw [cutLoop_parse, hrun]
  rfl

/-! Frames and their headers. -/

/-- Every frame is as long as its header says, and no shorter than a header. -/
theorem cutLoop_frames (hand : Nat → Handover) (n : Nat) (readBuf : IOBuf) :
    ∀ f ∈ (cutLoop hand n readBuf).frames, kFrameHeaderBytes ≤ f.content.length ∧
      wordAt f.content 0 = f.content.length := by
  induction n, readBuf using cutLoop.induct hand with
  | case1 n readBuf h =>
    rw [cutLoop_incomplete h]
    exact fun f hf => absurd hf not_mem_nil
  | case2 n readBuf h =>
    rw [cutLoop_invalid h]
    exact fun f hf => absurd hf not_mem_nil
  | case3 n readBuf f rest h errno hhand =>
    rw [cutLoop_refused h hhand]
    intro f' hf'
    rw [mem_singleton.mp hf']
    exact cutInputMessage_accepted h
  | case4 n readBuf f rest h hhand _ ih =>
    rw [cutLoop_started h hhand]
    intro f' hf'
    rcases mem_cons.mp hf' with rfl | hf'
    · exact cutInputMessage_accepted h
    · exact ih f' hf'

/-- Every round of the loop takes at least a header off the buffer. -/
theorem cutLoop_rounds (hand : Nat → Handover) (n : Nat) (readBuf : IOBuf) :
    kFrameHeaderBytes * (cutLoop hand n readBuf).frames.length ≤ readBuf.content.length := by
  have hparse := cutLoop_parse hand n readBuf
  have hsplit := Cutter.run_flatten (C := cutter) (fun i => refusal (hand i)) EPROTO n readBuf.content
  rw [← hparse] at hsplit
  have hlen : (contents (cutLoop hand n readBuf).frames).flatten.length ≤ readBuf.content.length := by
    rw [← hsplit, length_append]
    exact Nat.le_add_right _ _
  refine le_trans ?_ hlen
  have hmin := cutLoop_frames hand n readBuf
  generalize (cutLoop hand n readBuf).frames = fs at hmin
  induction fs with
  | nil => exact Nat.zero_le _
  | cons f fs ih =>
    obtain ⟨hf, _⟩ := hmin f mem_cons_self
    have hrest := ih fun f' hf' => hmin f' (mem_cons_of_mem _ hf')
    rw [contents_cons, flatten_cons, length_append, length_cons]
    calc kFrameHeaderBytes * (fs.length + 1)
        = kFrameHeaderBytes + kFrameHeaderBytes * fs.length := by rw [Nat.mul_succ, Nat.add_comm]
      _ ≤ f.content.length + (contents fs).flatten.length := Nat.add_le_add hf hrest

/-- A buffer without a complete frame at its front is left alone. -/
theorem cutLoop_idle (hand : Nat → Handover) (n : Nat) {readBuf : IOBuf}
    (h : readBuf.content.length < 4 ∨ wordAt readBuf.content 0 < kFrameHeaderBytes ∨
      readBuf.content.length < wordAt readBuf.content 0) :
    (cutLoop hand n readBuf).frames = [] ∧ (cutLoop hand n readBuf).readBuf = readBuf ∧
      ((cutLoop hand n readBuf).errno = none ∨ (cutLoop hand n readBuf).errno = some EPROTO) := by
  have hword : ntohl (loadWord (readBuf.copy 4)) = wordAt readBuf.content 0 := by
    rw [Segments.copy_eq, wordAt, drop_zero]
  cases hcut : cutInputMessage readBuf with
  | incomplete =>
    rw [cutLoop_incomplete hcut]
    exact ⟨rfl, rfl, .inl rfl⟩
  | invalid =>
    rw [cutLoop_invalid hcut]
    exact ⟨rfl, rfl, .inr rfl⟩
  | frame f rest =>
    rw [cutInputMessage] at hcut
    simp only [hword] at hcut
    split_ifs at hcut with h4 hheader hshort
    omega

theorem deliver_unset (hand : Nat → Handover) (ap : Append) : ∀ (chunks : List IOBuf) (n : Nat) (readBuf : IOBuf),
    let d := deliver false hand ap n readBuf chunks
    d.1.parse = ⟨[], readBuf.content ++ (contents chunks).flatten, none⟩ ∧ d.2 = [] := by
  intro chunks
  induction chunks with
  | nil =>
    intro n readBuf
    simp [deliver, Cuts.parse, contents]
  | cons chunk chunks ih =>
    intro n readBuf
    obtain ⟨hparse, hleft⟩ := ih n (ap.append readBuf chunk)
    rw [ap.content, append_assoc] at hparse
    exact ⟨hparse, hleft⟩

/-- **Framing does not depend on the chunks.** However a byte stream is cut into chunks and
    laid out in blocks, the frames cut from it, the bytes that remain and the error are those
    of the whole stream delivered at once. -/
theorem framing_ignores_chunks (handlerSet : Bool) (hand : Nat → Handover) (ap : Append) {chunks : List IOBuf}
    {whole : IOBuf} (h : whole.content = (contents chunks).flatten) :
    let d := deliver handlerSet hand ap 0 [] chunks
    let w := processNewMessage handlerSet hand 0 whole
    let remainder := d.1.readBuf.content ++ (contents d.2).flatten
    (contents d.1.frames = contents w.frames ∧ remainder = w.readBuf.content ∧ d.1.errno = w.errno) ∧
    (contents d.1.frames).flatten ++ remainder = whole.content ∧
    (∀ f ∈ d.1.frames, wordAt f.content 0 = f.content.length ∧ kFrameHeaderBytes ≤ f.content.length) ∧
    ∀ (n : Nat) (readBuf : IOBuf),
      (readBuf.content.length < 4 ∨ wordAt readBuf.content 0 < kFrameHeaderBytes ∨
        readBuf.content.length < wordAt readBuf.content 0 →
        (processNewMessage handlerSet hand n readBuf).frames = [] ∧
        (processNewMessage handlerSet hand n readBuf).readBuf = readBuf) ∧
      kFrameHeaderBytes * (processNewMessage handlerSet hand n readBuf).frames.length ≤ readBuf.content.length := by
  cases handlerSet with
  | false =>
    obtain ⟨hparse, hleft⟩ := deliver_unset hand ap chunks 0 []
    have hframes : contents (deliver false hand ap 0 [] chunks).1.frames = [] := congrArg Cutter.Parse.items hparse
    have hrest := congrArg Cutter.Parse.rest hparse
    have herr := congrArg Cutter.Parse.error hparse
    have hremain : (deliver false hand ap 0 [] chunks).1.readBuf.content ++
        (contents (deliver false hand ap 0 [] chunks).2).flatten = whole.content := by
      rw [hleft, h]
      exact (List.append_nil _).trans hrest
    refine ⟨⟨hframes, hremain, herr⟩, ?_, ?_, fun n readBuf => ⟨fun _ => ⟨rfl, rfl⟩, Nat.zero_le _⟩⟩
    · rw [hframes, hremain]
      rfl
    · rw [List.map_eq_nil_iff.mp hframes]
      exact fun f hf => absurd hf List.not_mem_nil
  | true =>
    have hwhole := deliver_whole hand ap h
    have hframes : contents (cutLoop hand 0 whole).frames = contents (deliver true hand ap 0 [] chunks).1.frames :=
      congrArg Cutter.Parse.items hwhole
    have hrest := congrArg Cutter.Parse.rest hwhole
    have herr := congrArg Cutter.Parse.error hwhole
    have hsplit := Cutter.run_flatten (C := cutter) (fun i => refusal (hand i)) EPROTO 0 whole.content
    rw [← cutLoop_parse] at hsplit
    refine ⟨⟨hframes.symm, hrest.symm, herr.symm⟩, ?_, ?_, fun n readBuf => ⟨fun hidle => ?_, cutLoop_rounds hand n readBuf⟩⟩
    · rw [← hsplit]
      exact congrArg₂ (fun fs r => fs.flatten ++ r) hframes.symm hrest.symm
    · intro f hf
      have hmem : f.content ∈ contents (cutLoop hand 0 whole).frames := by
        rw [hframes]
        exact List.mem_map_of_mem hf
      obtain ⟨g, hg, hcontent⟩ := List.mem_map.mp hmem
      obtain ⟨hmin, htotal⟩ := cutLoop_frames hand 0 whole g hg
      rw [← hcontent]
      exact ⟨htotal, hmin⟩
    · obtain ⟨hnone, hsame, _⟩ := cutLoop_idle hand n hidle
      exact ⟨hnone, hsame⟩

/-- References behind references. -/
def plainAppend : Append where
  append a b := a ++ b
  content := by
    intro a b
    induction a with
    | nil => rfl
    | cons r a ih => rw [List.cons_append, Segments.content, Segments.content, ih, List.append_assoc]

/-- A frame of twelve bytes and the first byte of the next, in two chunks. -/
def splitHeader : List IOBuf :=
  [[⟨[0, 0, 0], [], by decide⟩], [⟨[12, 0, 0, 0, 3, 0, 0], [], by decide⟩, ⟨[0, 7, 0], [], by decide⟩]]

def wholeHeader : IOBuf := [⟨[0, 0, 0, 12, 0, 0, 0, 3, 0, 0, 0, 7, 0], [], by decide⟩]

theorem splitHeader_framed : wholeHeader.content = (contents splitHeader).flatten ∧
    contents (deliver true healthy plainAppend 0 [] splitHeader).1.frames =
      contents (processNewMessage true healthy 0 wholeHeader).frames :=
  ⟨by decide, (framing_ignores_chunks true healthy plainAppend (by decide)).1.1⟩

theorem wholeHeader_dispatched :
    (LightRpc.cutLoop healthy 14 0 wholeHeader.content).handed = contents (cutLoop healthy 0 wholeHeader).frames := by
  rcases (cutLoop_dispatched healthy 0 wholeHeader 14 (by decide)).2 with hended | ⟨fs, f, errno, -, -, hrefused, -⟩
  · exact hended.1
  · cases hrefused

end LightRpc.Frames

import LightRpc.SendCut
import LightRpc.SendRing

/- What a call of `CutFromIOBufList` sends.

   The references that are left are a queue, and a round moves the first bytes of it to the
   slot of its request. The call keeps, at the head of its loop: what was posted, followed by
   what is left, is the input; every request of the call has a slot of its own that holds its
   bytes; and the counts of the blocks are exact. The slots it needs have to be empty when it
   is called, which is what the send window stands for. -/
namespace LightRpc.Sending

open List

open IOBuffer Lib.RefCount Lib.Window

/-- A call posts no more requests than a window admits, and none of them is empty. -/
def mostRequests (ep : Endpoint) (bufs : List IOBuf) : Nat :=
  min (min (uint32 ep.remoteRqWindowSize) (uint32 ep.sqWindowSize)) (size bufs)

/-- The slots that the call may need are there, and empty. -/
structure FreeSlots (ep : Endpoint) (bufs slots : List IOBuf) : Prop where
  ring : ep.sbuf.length = slots.length
  current : ep.sqCurrent < slots.length
  enough : mostRequests ep bufs ≤ slots.length
  empty : ∀ v ∈ window slots .new ep.sqCurrent (mostRequests ep bufs), v.refs = []

/-- The buffers and the slots, next to the references `F` of everything else. -/
structure Memory (heap : Heap) (rs : List BlockRef) (slots : List IOBuf) (F : Multiset BlockId) : Prop where
  ok : ∀ v ∈ slots, v.Ok
  fits : Fits heap rs
  counts : Exact heap (blocks rs + (blocks (slots.flatMap IOBuf.refs) + F))

/-- A request of a call. -/
structure WellCut (blockSize maxSge : Nat) (w : CutWr) : Prop where
  nonempty : w.wr.payload ≠ []
  length : w.wr.payload.length ≤ blockSize
  entries : w.sgList.length ≤ maxSge

/-! Slots in a ring. -/

theorem uint32_pred {w : Int} (h : uint32 w ≠ 0) : uint32 (int32 (w - 1)) + 1 = uint32 w := by
  have hcast := uint32_cast w
  have hcast' := uint32_cast (int32 (w - 1))
  rw [int32_emod] at hcast'
  omega

theorem blocks_slots {slots : List IOBuf} {i : Nat} (hlt : i < slots.length) (v : IOBuf) :
    blocks ((slots.set i v).flatMap IOBuf.refs) = blocks v.refs + blocks ((slots.eraseIdx i).flatMap IOBuf.refs) := by
  have hperm : ((slots.set i v).flatMap IOBuf.refs).Perm ((v :: slots.eraseIdx i).flatMap IOBuf.refs) :=
    (set_perm_cons_eraseIdx hlt v).flatMap_right IOBuf.refs
  have hblocks : blocks ((slots.set i v).flatMap IOBuf.refs) = blocks ((v :: slots.eraseIdx i).flatMap IOBuf.refs) :=
    Multiset.coe_eq_coe.mpr (hperm.map BlockRef.block)
  rw [hblocks, flatMap_cons, blocks_append]

theorem mem_blocks_slots {slots : List IOBuf} {v : IOBuf} {b : BlockId} (hv : v ∈ slots) (hb : b ∈ blocks v.refs) :
    b ∈ blocks (slots.flatMap IOBuf.refs) := by
  obtain ⟨r, hr, rfl⟩ := mem_map.mp (Multiset.mem_coe.mp hb)
  exact mem_blocks (mem_flatMap.mpr ⟨v, hv, hr⟩)

/-- Merged or not, the block of an appended reference is there. -/
theorem mem_blocks_pushList {rs : List BlockRef} {r : BlockRef} {b : BlockId} (hb : b ∈ r.block ::ₘ blocks rs) :
    b ∈ blocks (pushList rs r) := by
  rw [blocks_pushList]
  split
  · rename_i hm
    rcases Multiset.mem_cons.mp hb with rfl | hb
    · rcases eq_nil_or_concat' rs with rfl | ⟨rs, back, rfl⟩
      · exact nomatch hm
      · rw [merges_concat] at hm
        have hblock : back.block = r.block := eq_of_beq (Bool.and_eq_true_iff.mp hm).1
        rw [← hblock]
        exact mem_blocks (mem_append_right _ mem_cons_self)
    · exact hb
  · exact hb

theorem mem_blocks_pushAll {b : BlockId} : ∀ {ts rs : List BlockRef}, b ∈ blocks ts ∨ b ∈ blocks rs →
    b ∈ blocks (pushAll rs ts)
  | [], _, hb => hb.resolve_left (Multiset.notMem_zero b)
  | t :: ts, rs, hb => by
    apply @mem_blocks_pushAll b ts (pushList rs t)
    rw [blocks_cons, Multiset.mem_cons] at hb
    rcases hb with (rfl | hb) | hb
    · exact .inr (mem_blocks_pushList (Multiset.mem_cons_self _ _))
    · exact .inl hb
    · exact .inr (mem_blocks_pushList (Multiset.mem_cons_of_mem hb))

/-! One round. -/

variable {region : Regions} {maxSge : Nat} {env : Nat → Round} {error : Int} {ep : Endpoint} {heap : Heap}
  {bufs slots : List IOBuf} {errno : Int} {F : Multiset BlockId}

/-- The bytes a round has taken are in its scatter list and in its slot, and nowhere else is a
    byte changed. -/
structure Delivered (F : Multiset BlockId) (s : CutState) (m : Nat) (s' : CutState) (sg : List Sge) : Prop where
  memory : Memory s'.heap s'.rest s'.slots F
  left : bytes s'.heap s'.rest = (bytes s.heap s.rest).drop m
  gathered : gather s'.heap sg = (bytes s.heap s.rest).take m
  slot : bytes s'.heap s'.slot.refs = (bytes s.heap s.rest).take m
  others : ∀ v ∈ s.slots, bytes s'.heap v.refs = bytes s.heap v.refs

theorem Filled.delivered {s s' : CutState} {m n : Nat} {sg : List Sge} {ok : Bool} (hs : s.Ok)
    (hf : Filled region maxSge s [] 0 m (s', sg, n, ok)) (hmem : Memory s.heap s.rest s.slots F)
    (hcur : s.ep.sqCurrent < s.slots.length) (hempty : s.slot.refs = []) (hsge : maxSge ≤ 2 ^ 31)
    (hblock : s.ep.remoteRecvBlockSize < 2 ^ 32) : Delivered F s m s' sg := by
  have hshift : s.Shift m s' := hf.shift
  have hlist : sg.map Sge.ref = takeRefs s.rest m := hf.sgList
  obtain ⟨htook, htotal⟩ := takeRefs_ok hs.rest hshift.le
  obtain ⟨hftake, hbtake⟩ := bytes_takeRefs (n := m) hmem.fits
  obtain ⟨hfdrop, hbdrop⟩ := bytes_dropRefs (n := m) hs.rest hmem.fits
  have hslot : s.slot.Ok := by
    rw [CutState.slot, getD_eq_getElem _ _ hcur]
    exact hmem.ok _ (getElem_mem hcur)
  have hspare : Spare s.slot.refs m (takeRefs s.rest m).length := by
    have hsize : 0 + m ≤ s.ep.remoteRecvBlockSize := hf.size
    have hentries : sg.length ≤ maxSge := hf.entries
    rw [← hlist, length_map, hempty]
    exact ⟨fun _ => by rw [total_nil]; omega, by rw [total_nil]; omega, by rw [length_nil]; omega⟩
  -- the slots apart from the current one belong to the rest
  have hsame : s.slots.set s.ep.sqCurrent s.slot = s.slots := set_getD _ _ _
  have hsplit : blocks (s.slots.flatMap IOBuf.refs) =
      blocks s.slot.refs + blocks ((s.slots.eraseIdx s.ep.sqCurrent).flatMap IOBuf.refs) := by
    conv_lhs => rw [← hsame]
    exact blocks_slots hcur s.slot
  have hsplit' : blocks (s'.slots.flatMap IOBuf.refs) =
      blocks s'.slot.refs + blocks ((s.slots.eraseIdx s.ep.sqCurrent).flatMap IOBuf.refs) := by
    rw [hshift.slots]
    exact blocks_slots hcur s'.slot
  have hex := hmem.counts
  rw [hsplit, add_assoc] at hex
  obtain ⟨hok, hrefs, hcount⟩ := hshift.memory _ hcur hslot hspare hex
  rw [hempty] at hrefs
  have hkeep : ∀ rs : List BlockRef, (∀ r ∈ rs, r.block ∈ blocks s'.rest ∨ r.block ∈ blocks s'.slot.refs ∨
      r.block ∈ blocks ((s.slots.eraseIdx s.ep.sqCurrent).flatMap IOBuf.refs)) →
      ∀ r ∈ rs, s'.heap.payload r.block = s.heap.payload r.block := by
    intro rs hrs r hr
    apply hcount.keeps
    rw [Multiset.mem_add, Multiset.mem_add, Multiset.mem_add]
    rcases hrs r hr with h | h | h
    · exact .inl h
    · exact .inr (.inl h)
    · exact .inr (.inr (.inl h))
  have hkeepRest := hkeep s'.rest fun r hr => .inl (mem_blocks hr)
  have hkeepSlot := hkeep s'.slot.refs fun r hr => .inr (.inl (mem_blocks hr))
  have hkeepTook := hkeep (takeRefs s.rest m) fun r hr => by
    refine .inr (.inl ?_)
    rw [hrefs]
    exact mem_blocks_pushAll (.inl (mem_blocks hr))
  obtain ⟨-, hpushed⟩ := bytes_pushAll (fun r hr => absurd hr not_mem_nil) htook
    (fun r hr => absurd hr not_mem_nil) hftake
  refine ⟨⟨fun v hv => ?_, ?_, ?_⟩, ?_, ?_, ?_, fun v hv => ?_⟩
  · rw [hshift.slots] at hv
    rcases mem_or_eq_of_mem_set hv with hv | rfl
    · exact hmem.ok v hv
    · exact hok
  · refine Fits.congr ?_ hkeepRest
    rw [hshift.rest]
    exact hfdrop
  · rw [hsplit', add_assoc]
    exact hcount.exact
  · rw [bytes_congr hkeepRest, hshift.rest, hbdrop]
  · rw [gather, hlist, bytes_congr hkeepTook, hbtake]
  · rw [bytes_congr hkeepSlot, hrefs, hpushed, bytes_nil, nil_append, hbtake]
  · apply bytes_congr
    apply hkeep
    intro r hr
    have hb := mem_blocks_slots hv (mem_blocks hr)
    rw [hsplit, hempty, blocks_nil, zero_add] at hb
    exact .inr (.inr hb)

/-! The whole call. -/

/-- The bytes of the buffers when the call starts. -/
def input (heap : Heap) (bufs : List IOBuf) : Bytes := bytes heap (bufs.flatMap IOBuf.refs)

/-- What holds at the head of the loop. -/
structure Progress (region : Regions) (maxSge : Nat) (ep : Endpoint) (heap : Heap) (bufs : List IOBuf) (size : Nat)
    (F : Multiset BlockId) (s : CutState) (r q : Nat) : Prop where
  memory : Memory s.heap s.rest s.slots F
  left : bytes s.heap s.rest = (input heap bufs).drop s.totalLen
  sent : (s.posted.flatMap fun w => w.wr.payload) = (input heap bufs).take s.totalLen
  le : s.totalLen ≤ (input heap bufs).length
  few : s.posted.length ≤ s.totalLen
  ring : s.slots.length = size
  sbuf : s.ep.sbuf.length = size
  current : s.ep.sqCurrent = (ep.sqCurrent + s.posted.length) % size
  blockSize : s.ep.remoteRecvBlockSize = ep.remoteRecvBlockSize
  remote : r = uint32 s.ep.remoteRqWindowSize
  sq : q = uint32 s.ep.sqWindowSize
  remoteLeft : s.posted.length + r = uint32 ep.remoteRqWindowSize
  sqLeft : s.posted.length + q = uint32 ep.sqWindowSize
  free : ∀ i, s.posted.length ≤ i → i < mostRequests ep bufs →
    (s.slots.getD ((ep.sqCurrent + i) % size) .new).refs = []
  held : (window s.slots .new ep.sqCurrent s.posted.length).map (fun v => bytes s.heap v.refs) =
    s.posted.map fun w => w.wr.payload
  cut : ∀ w ∈ s.posted, WellCut ep.remoteRecvBlockSize maxSge w
  registered : ∀ b ∈ blocks s.rest, ∀ offset, region b offset ≠ 0

/-- The result of a call. -/
structure SentExactly (maxSge : Nat) (ep : Endpoint) (heap : Heap) (bufs : List IOBuf) (F : Multiset BlockId)
    (out : Exit × CutState) : Prop where
  returned : returned out = out.2.totalLen ∨ (returned out = -1 ∧ out.2.errno = EAGAIN ∧ out.2.totalLen = 0 ∧
    (uint32 ep.remoteRqWindowSize = 0 ∨ uint32 ep.sqWindowSize = 0))
  sent : (out.2.posted.flatMap fun w => w.wr.payload) = (input heap bufs).take out.2.totalLen
  le : out.2.totalLen ≤ (input heap bufs).length
  left : input out.2.heap out.2.bufs = (input heap bufs).drop out.2.totalLen
  cut : ∀ w ∈ out.2.posted, WellCut ep.remoteRecvBlockSize maxSge w
  held : (window out.2.slots .new ep.sqCurrent out.2.posted.length).map (fun v => bytes out.2.heap v.refs) =
    out.2.posted.map fun w => w.wr.payload
  stopped : out.2.totalLen < (input heap bufs).length →
    uint32 out.2.ep.remoteRqWindowSize = 0 ∨ uint32 out.2.ep.sqWindowSize = 0
  memory : Memory out.2.heap (out.2.bufs.flatMap IOBuf.refs) out.2.slots F

/-- One request more, and one less in a window that is open. -/
theorem window_charged {w : Int} {r k n : Nat} (hopen : r ≠ 0) (hr : r = uint32 w) (hleft : k + r = n) :
    k + 1 + uint32 (int32 (w + (0 : Nat) - 1)) = n := by
  have hpred := uint32_pred (hr ▸ hopen)
  rw [Int.natCast_zero, Int.add_zero]
  omega

namespace Progress

variable {size : Nat} {s s' : CutState} {r q m : Nat} {sg : List Sge}

section

variable (h : Progress region maxSge ep heap bufs size F s r q)

include h

theorem length_left : total s.rest = (input heap bufs).length - s.totalLen := by
  rw [← h.memory.fits.length_bytes, h.left, length_drop]

/-- The slot of the next request is empty, and not one of those in use. -/
theorem next_slot (hr : r ≠ 0) (hq : q ≠ 0) (hm : 0 < total s.rest)
    (hsize : Sending.size bufs = (input heap bufs).length) (henough : mostRequests ep bufs ≤ size) :
    s.posted.length < mostRequests ep bufs ∧ s.ep.sqCurrent < s.slots.length ∧ s.slot.refs = [] := by
  have hleft := h.length_left
  have hfew := h.few
  have hremote := h.remoteLeft
  have hsq := h.sqLeft
  have hlt : s.posted.length < mostRequests ep bufs := by
    rw [mostRequests, hsize]
    omega
  refine ⟨hlt, ?_, ?_⟩
  · rw [h.current, h.ring]
    exact Nat.mod_lt _ (by omega)
  · rw [CutState.slot, h.current]
    exact h.free _ (Nat.le_refl _) hlt

/-- A round that posts a request. -/
theorem posted (hs : s.Ok) (hr : r ≠ 0) (hq : q ≠ 0) (hm : 0 < m) (hf : Filled region maxSge s [] 0 m (s', sg, m, true))
    {e : Round} (hremote : e.gainRemote = 0) (hsq : e.gainSq = 0) (hpoll : e.poll = id) (hsge : maxSge ≤ 2 ^ 31)
    (hblock : ep.remoteRecvBlockSize < 2 ^ 32) (hsize : Sending.size bufs = (input heap bufs).length)
    (henough : mostRequests ep bufs ≤ size) :
    Progress region maxSge ep heap bufs size F (s'.sent r q sg e) (uint32 (s'.sent r q sg e).ep.remoteRqWindowSize)
      (uint32 (s'.sent r q sg e).ep.sqWindowSize) := by
  have hshift : s.Shift m s' := hf.shift
  have hle := hshift.le
  have hleft := h.length_left
  have hcount := h.le
  have hlen : s'.totalLen = s.totalLen + m := (hf.len rfl).2
  obtain ⟨hlt, hcur, hslot⟩ := h.next_slot hr hq (Nat.lt_of_lt_of_le hm hle) hsize henough
  have hd := hf.delivered hs h.memory hcur hslot hsge (by rw [h.blockSize]; exact hblock)
  obtain ⟨_, _, _, hep⟩ := sent_ep s' r q sg e
  have hheap : (s'.sent r q sg e).heap = s'.heap := by
    show (e.poll (s'.heap, s'.slots)).1 = _
    rw [hpoll]
    rfl
  have hslots : (s'.sent r q sg e).slots = s.slots.set ((ep.sqCurrent + s.posted.length) % size) s'.slot := by
    show (e.poll (s'.heap, s'.slots)).2 = _
    rw [hpoll, ← h.current]
    exact hshift.slots
  have hposted : (s'.sent r q sg e).posted = s.posted ++ [⟨(s'.makeWr r q sg e).1, sg⟩] := by
    show s'.posted ++ _ = _
    rw [hshift.posted]
  have hpayload : (s'.makeWr r q sg e).1.payload = ((input heap bufs).drop s.totalLen).take m := by
    show gather s'.heap sg = _
    rw [hd.gathered, h.left]
  have hpiece : (((input heap bufs).drop s.totalLen).take m).length = m := by
    rw [length_take, length_drop]
    omega
  have hlength : (s'.sent r q sg e).posted.length = s.posted.length + 1 := by
    rw [hposted, length_append, length_singleton]
  have htotal : (s'.sent r q sg e).totalLen = s.totalLen + m := hlen
  have hroom : s.posted.length < s.slots.length := by
    rw [h.ring]
    omega
  refine ⟨?_, ?_, ?_, ?_, ?_, ?_, ?_, ?_, ?_, rfl, rfl, ?_, ?_, ?_, ?_, ?_, ?_⟩
  · rw [hheap, hslots, ← h.current, ← hshift.slots]
    exact hd.memory
  · rw [hheap, htotal, ← drop_drop, ← h.left]
    exact hd.left
  · rw [hposted, flatMap_append, flatMap_singleton, h.sent, hpayload, htotal, take_add]
  · rw [htotal]
    omega
  · have := h.few
    rw [hlength, htotal]
    omega
  · rw [hslots, length_set, h.ring]
  · rw [hep, hshift.ep]
    exact h.sbuf
  · rw [hep, hshift.ep]
    show (if s.ep.sqCurrent + 1 = s.ep.sbuf.length then 0 else s.ep.sqCurrent + 1) = _
    rw [h.ring] at hcur
    rw [h.sbuf, LightRpc.next_slot hcur, h.current, slot_add, hlength]
  · rw [hep, hshift.ep]
    exact h.blockSize
  · rw [hep, hshift.ep, hlength, hremote]
    exact window_charged hr h.remote h.remoteLeft
  · rw [hep, hshift.ep, hlength, hsq]
    exact window_charged hq h.sq h.sqLeft
  · intro i hi hmost
    rw [hlength] at hi
    have hne : (ep.sqCurrent + s.posted.length) % size ≠ (ep.sqCurrent + i) % size := by
      intro heq
      have := index_inj (by omega) (by omega) heq
      omega
    rw [hslots, getD_eq_getElem?_getD, getElem?_set_ne hne, ← getD_eq_getElem?_getD]
    exact h.free i (by omega) hmost
  · rw [hheap, hslots, hlength, hposted, ← h.ring, window_push hroom, map_append, map_append,
      ← h.held]
    refine congr (congrArg HAppend.hAppend (map_congr_left fun v hv => ?_)) ?_
    · obtain ⟨i, -, rfl⟩ := mem_map.mp hv
      have hi := Nat.mod_lt (ep.sqCurrent + i) (Nat.zero_lt_of_lt hroom)
      rw [getD_eq_getElem _ _ hi]
      exact hd.others _ (getElem_mem hi)
    · rw [map_singleton, map_singleton, hpayload, hd.slot, h.left]
  · intro w hw
    rw [hposted] at hw
    rcases mem_append.mp hw with hw | hw
    · exact h.cut w hw
    · rw [mem_singleton.mp hw]
      have hsize : 0 + m ≤ s.ep.remoteRecvBlockSize := hf.size
      rw [h.blockSize] at hsize
      refine ⟨?_, ?_, hf.entries⟩
      · apply ne_nil_of_length_pos
        rw [hpayload, hpiece]
        exact hm
      · rw [hpayload, hpiece]
        omega
  · intro b hb
    obtain ⟨r, hr, rfl⟩ := mem_map.mp (Multiset.mem_coe.mp hb)
    have hr : r ∈ s'.rest := hr
    rw [hshift.rest] at hr
    exact h.registered _ (mem_dropRefs hr)

/-- The call returns with what it has done so far. -/
theorem exit (hs : s.Ok) (hstop : s.totalLen < (input heap bufs).length → r = 0 ∨ q = 0) :
    SentExactly maxSge ep heap bufs F (.done, s) := by
  refine ⟨.inl rfl, h.sent, h.le, ?_, h.cut, h.held, fun hlt => ?_, ?_⟩
  · rw [input, hs.flatMap]
    exact h.left
  · rcases hstop hlt with hr | hq
    · exact .inl (h.remote.symm.trans hr)
    · exact .inr (h.sq.symm.trans hq)
  · rw [hs.flatMap]
    exact h.memory

/-- Nothing was sent, and a window is closed. -/
theorem noWindow (hs : s.Ok) (hzero : s.totalLen = 0) (hwnd : r = 0 ∨ q = 0) :
    SentExactly maxSge ep heap bufs F (.noWindow, s.setErrno EAGAIN) := by
  have hdone := h.exit hs fun _ => hwnd
  have hfew := h.few
  have hremote := h.remoteLeft
  have hsq := h.sqLeft
  refine ⟨.inr ⟨rfl, rfl, hzero, ?_⟩, hdone.sent, hdone.le, hdone.left, hdone.cut, hdone.held, hdone.stopped, hdone.memory⟩
  omega

end

end Progress

/-- Between two calls the send window admits no more requests than there are empty slots. -/
theorem freeSlots_of_ring {s : Tracked} (h : RingInv s) (hidle : s.side.writer = .idle) (hok : ∀ v ∈ slots, v.Ok)
    (hfits : ∀ v ∈ slots, Fits heap v.refs) (hslots : slots.map (fun v => IOBuffer.bytes heap v.refs) = s.side.ep.sbuf) :
    FreeSlots s.side.ep bufs slots := by
  have hlen : s.side.ep.sbuf.length = slots.length := by rw [← hslots, length_map]
  have hholds := h.holds
  obtain ⟨_, hlimit, hsize, -, -, hwindow, hclaims, -, -, -⟩ := h.window
  have hring := h.slots
  have hrestoring := s.side.poller.restoring_nonneg
  rw [hidle] at hholds hwindow hclaims
  simp only [Writer.filling, Writer.owed, Writer.claims, append_nil] at hholds hwindow hclaims
  have hwnd := uint32_of_bounds hclaims (by omega)
  have hmost : mostRequests s.side.ep bufs ≤ uint32 s.side.ep.sqWindowSize :=
    Nat.le_trans (Nat.min_le_left _ _) (Nat.min_le_right _ _)
  refine ⟨hlen, ?_, by omega, fun v hv => ?_⟩
  · rw [← hlen, h.current]
    exact Nat.mod_lt _ (Nat.zero_lt_of_lt h.sent)
  · obtain ⟨i, hi, rfl⟩ := mem_map.mp hv
    have hi := mem_range.mp hi
    have hblank := hholds.behind (i := s.data.length + i) (by rw [length_map]; omega) (by omega)
    rw [← slot_add, ← h.current, ← hslots, getElem?_map, length_map] at hblank
    obtain ⟨v, hget, hbytes⟩ := Option.map_eq_some_iff.mp hblank
    rw [getD_eq_getElem?_getD, hget, Option.getD_some]
    have hv := mem_of_getElem? hget
    have htotal := (hfits v hv).length_bytes
    rw [hbytes, length_nil] at htotal
    have hcount := length_le_total (hok v hv).refs
    exact length_eq_zero_iff.mp (by omega)

end LightRpc.Sending

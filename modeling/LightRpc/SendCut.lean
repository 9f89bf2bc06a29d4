import LightRpc.Credits
import LightRpc.Scatter

/- Cutting buffers into work requests (`CutFromIOBufList` and
   `RdmaIOBuf::cut_into_sglist_and_iobuf` of `fast_rdma_endpoint.cc`).

   The call works through a list of buffers. Each round moves bytes from their front into the
   send slot `sbuf_[sq_current_]` and into a scatter list, until the scatter list is full, the
   block size of the peer is reached or the buffers are empty; then it posts a work request
   with the credits for the peer and goes to the next slot. It ends when the buffers are empty
   or a window is closed.

   The windows, the counters and the flags are those of the flow control (`Endpoint`). The
   slots are IOBufs here, so that of `Endpoint.sbuf` only the length is used. The environment
   decides what `GetRegionId` and `ibv_post_send` return, whether a post sets `errno`, and
   what the poller does in the meantime: it adds to the windows and to `new_rq_wrs_`, and
   clears slots.

   `total_len` is a natural number: windows are `int`s and block sizes `uint32_t`s, so that a
   call sends fewer than 2^63 bytes. -/
namespace LightRpc.Sending

open List

open IOBuffer Lib.RefCount

def EAGAIN : Int := 11

/-- A posted request with its scatter list; its payload is what the scatter list covers. -/
structure CutWr where
  wr : SendWr
  sgList : List Sge
  deriving DecidableEq

/-- What the environment does in a round that comes to its post. -/
structure Round where
  /-- credits the poller has added to `new_rq_wrs_` -/
  credits : Nat
  /-- the result of `ibv_post_send`, and the value it gives to `errno`, if any -/
  post : Int
  errno : Option Int
  /-- what the poller adds to the windows before they are decremented -/
  gainRemote : Nat
  gainSq : Nat
  /-- what the poller does to the slots -/
  poll : Heap × List IOBuf → Heap × List IOBuf

/-- The variables of the call and the memory it works on. -/
structure CutState where
  ep : Endpoint
  heap : Heap
  bufs : List IOBuf
  slots : List IOBuf
  errno : Int
  posted : List CutWr
  totalLen : Nat
  current : Nat

/-- The `return` statement that ended the call. -/
inductive Exit where
  | done
  | failed
  | noWindow
  | notRegistered
  | notPosted
  deriving DecidableEq, Repr

/-! `cut_into_sglist_and_iobuf` -/

/-- The state after `cut_into_sglist_and_iobuf`; `ok` is false if it returned -1. -/
structure Cut where
  heap : Heap
  buf : IOBuf
  slot : IOBuf
  sgList : List Sge
  len : Nat
  ok : Bool

/-- The loop of `cut_into_sglist_and_iobuf` with room for `left` more entries. -/
def cutInto (region : Regions) (maxLen : Nat) : Nat → Heap → IOBuf → IOBuf → List Sge → Nat → Option Cut
  | 0, h, v, out, sg, len => some ⟨h, v, out, sg, len, true⟩
  | left + 1, h, v, out, sg, len =>
    if maxLen ≤ len ∨ v.refNum = 0 then some ⟨h, v, out, sg, len, true⟩
    else
      let r := v.refAt 0
      -- `fetch1()` points to the first byte of the front reference
      let start := v.frontRef
      let lkey := region start.block start.offset
      if lkey = 0 then some ⟨h, v, out, sg, len, false⟩
      else
        let n := if len + r.length > maxLen then maxLen - len else r.length
        (cutn h v out n).bind fun t =>
          cutInto region maxLen left t.1 t.2.1 t.2.2.1 (sg ++ [⟨start.block, start.offset, u32 n, lkey⟩]) (len + n)

/-! `CutFromIOBufList` -/

namespace CutState

/-- `from[current]` -/
def buf (s : CutState) : IOBuf := s.bufs.getD s.current .new

/-- `sbuf_[sq_current_]` -/
def slot (s : CutState) : IOBuf := s.slots.getD s.ep.sqCurrent .new

def setErrno (s : CutState) (errno : Int) : CutState := { s with errno := errno }

/-- What `cut_into_sglist_and_iobuf` did to the buffer and the slot. -/
def moved (s : CutState) (c : Cut) : CutState :=
  { s with heap := c.heap, bufs := s.bufs.set s.current c.buf, slots := s.slots.set s.ep.sqCurrent c.slot }

def add (s : CutState) (n : Nat) : CutState := { s with totalLen := s.totalLen + n }

end CutState

/-- The loop that fills the scatter list: the list and its length in bytes, and whether no
    call of `cut_into_sglist_and_iobuf` failed. -/
def fillLoop (region : Regions) (maxSge : Nat) :
    Nat → CutState → List Sge → Nat → Option (CutState × List Sge × Nat × Bool)
  | 0, _, _, _ => none
  | fuel + 1, s, sg, thisLen =>
    if sg.length < maxSge ∧ thisLen < s.ep.remoteRecvBlockSize then
      if s.buf.isEmpty then
        if s.current + 1 = s.bufs.length then some ({ s with current := s.current + 1 }, sg, thisLen, true)
        else fillLoop region maxSge fuel { s with current := s.current + 1 } sg thisLen
      else
        (cutInto region (s.ep.remoteRecvBlockSize - thisLen) (maxSge - sg.length) s.heap s.buf s.slot sg 0).bind fun c =>
          if c.ok then
            fillLoop region maxSge fuel ((s.moved c).add c.len) c.sgList (thisLen + c.len)
          else some (s.moved c, c.sgList, thisLen, false)
    else some (s, sg, thisLen, true)

namespace CutState

/-- The endpoint and the request when the scatter list is full: credits taken, flags and
    counters set. -/
def makeWr (s : CutState) (remoteRqWnd sqWnd : Nat) (sg : List Sge) (e : Round) : SendWr × Endpoint :=
  let imm := uint32 (int32 (s.ep.newRqWrs + e.credits))
  { s.ep with newRqWrs := 0 }.makeWr remoteRqWnd sqWnd (gather s.heap sg) (decide (s.bufs.length ≤ s.current + 1)) imm

/-- After `ibv_post_send`. -/
def afterPost (s : CutState) (ep : Endpoint) (e : Round) : CutState :=
  { s with ep := ep, errno := e.errno.getD s.errno }

/-- The request is on its way: the next slot, and one less in each window. -/
def charge (s : CutState) (wr : CutWr) (e : Round) : CutState :=
  let ep := s.ep.advanceSq
  let m := e.poll (s.heap, s.slots)
  { s with
    ep := { ep with
      remoteRqWindowSize := int32 (ep.remoteRqWindowSize + e.gainRemote - 1)
      sqWindowSize := int32 (ep.sqWindowSize + e.gainSq - 1) }
    heap := m.1
    slots := m.2
    posted := s.posted ++ [wr] }

/-- The state when a round has handed its request to the device, and after it was taken. -/
def offered (s : CutState) (remoteRqWnd sqWnd : Nat) (sg : List Sge) (e : Round) : CutState :=
  s.afterPost (s.makeWr remoteRqWnd sqWnd sg e).2 e

def sent (s : CutState) (remoteRqWnd sqWnd : Nat) (sg : List Sge) (e : Round) : CutState :=
  (s.offered remoteRqWnd sqWnd sg e).charge ⟨(s.makeWr remoteRqWnd sqWnd sg e).1, sg⟩ e

end CutState

/-- The outer loop, with the two windows it knows of. -/
def cutLoop (region : Regions) (maxSge : Nat) (env : Nat → Round) :
    Nat → CutState → Nat → Nat → Option (Exit × CutState)
  | 0, _, _, _ => none
  | fuel + 1, s, remoteRqWnd, sqWnd =>
    if s.current < s.bufs.length then
      if remoteRqWnd = 0 ∨ sqWnd = 0 then
        if 0 < s.totalLen then some (.done, s) else some (.noWindow, s.setErrno EAGAIN)
      else
        (fillLoop region maxSge (s.bufs.length + maxSge + 1) s [] 0).bind fun t =>
          match t with
          | (s, _, _, false) => some (.notRegistered, s)
          | (s, sg, thisLen, true) =>
            if thisLen = 0 then cutLoop region maxSge env fuel s remoteRqWnd sqWnd
            else
              let e := env s.posted.length
              if e.post ≠ 0 then some (.notPosted, s.offered remoteRqWnd sqWnd sg e)
              else
                let s := s.sent remoteRqWnd sqWnd sg e
                cutLoop region maxSge env fuel s (uint32 s.ep.remoteRqWindowSize) (uint32 s.ep.sqWindowSize)
    else some (.done, s)

/-- The bytes of the buffers of a list. -/
def size (bufs : List IOBuf) : Nat := total (bufs.flatMap IOBuf.refs)

def CutState.start (ep : Endpoint) (heap : Heap) (bufs slots : List IOBuf) (errno : Int) : CutState :=
  ⟨ep, heap, bufs, slots, errno, [], 0, 0⟩

/-- `CutFromIOBufList(from, ndata)`; `error` is the error of an endpoint that has failed. -/
def cutFromIOBufList (region : Regions) (maxSge : Nat) (env : Nat → Round) (error : Int) (ep : Endpoint) (heap : Heap)
    (bufs slots : List IOBuf) (errno : Int) : Option (Exit × CutState) :=
  let s := CutState.start ep heap bufs slots errno
  if ep.failed then some (.failed, s.setErrno error)
  else cutLoop region maxSge env (size bufs + 2) s (uint32 ep.remoteRqWindowSize) (uint32 ep.sqWindowSize)

/-- The value the call returns. -/
def returned (out : Exit × CutState) : Int := if out.1 = .done then out.2.totalLen else -1

variable {r : BlockRef} {rs : List BlockRef} {m maxSge : Nat} {c : Cut}

variable {sg : List Sge} {region : Regions} {v out : IOBuf} {s : CutState} {left len room n fuel : Nat} {h : Heap}

/-! One call of `cut_into_sglist_and_iobuf`. -/

theorem cutnLoop_zero (k : Nat) (h : Heap) (v out : IOBuf) : cutnLoop k h v out 0 = some (h, v, out) := by
  cases k <;> rfl

theorem refAt_zero (hv : v.Ok) (hrefs : v.refs = r :: rs) : v.refAt 0 = r := by
  have hmap := hv.map_refAt
  rw [hv.refNum, hrefs, length_cons, range_succ_eq_map, map_cons] at hmap
  exact (cons.inj hmap).1

/-- `cutn` of no more than the front reference: what is left of the buffer does not depend on
    where the bytes go. -/
theorem cutn_front (h : Heap) (out : IOBuf) (hv : v.Ok) (hrefs : v.refs = r :: rs) (h0 : 0 < n) (hn : n ≤ r.length) :
    ∃ h' v' out', cutn h v out n = some (h', v', out', n) ∧ v'.Ok ∧ v'.refs = dropRefs v.refs n ∧
      ∀ F, out.Ok → Spare out.refs n 1 → Exact h (blocks v.refs + (blocks out.refs + F)) →
        Edit2 h v out F h' v' out' (dropRefs v.refs n) (pushAll out.refs (takeRefs v.refs n)) := by
  have hr := hv.head hrefs
  have hmin : min n v.length = n := by
    rw [hv.length, hrefs, total_cons]
    omega
  obtain ⟨k, hk⟩ : ∃ k, n = k + 1 := ⟨n - 1, by omega⟩
  have hu : u32 n = n := by
    have := hr.bound
    exact Nat.mod_eq_of_lt (by omega)
  rw [cutn, hmin, hv.refNum, hrefs, length_cons, hk, cutnLoop, hv.frontRef hrefs, ← hk, hu]
  by_cases hle : r.length ≤ n
  · -- the whole reference goes over
    obtain rfl : n = r.length := Nat.le_antisymm hn hle
    obtain ⟨-, hrest, hok⟩ := popFrontRef_spec true (pushRef true h out r).1 hv hrefs
    have hdrop : dropRefs (r :: rs) r.length = rs := by
      rw [← Nat.add_zero r.length, dropRefs_cons_add hr, dropRefs_zero]
    have htake : takeRefs (r :: rs) r.length = [r] := by
      rw [← Nat.add_zero r.length, takeRefs_cons_add hr, takeRefs_zero]
    rw [if_pos hle, Nat.sub_self, cutnLoop_zero, Option.map_some, hdrop, htake]
    refine ⟨_, _, _, rfl, hok, hrest, fun F hout hspare hex => ?_⟩
    rw [← hrefs] at hex
    exact cutn_whole hv hout hrefs hspare hex
  · obtain ⟨hadv, hok⟩ := advanceFront_spec hv hrefs (Nat.not_le.mp hle)
    rw [if_neg hle, Option.map_some, dropRefs_within h0 (Nat.not_le.mp hle), takeRefs_within h0 (Nat.not_le.mp hle)]
    refine ⟨_, _, _, rfl, hok, hadv, fun F hout hspare hex => ?_⟩
    rw [← hrefs] at hex
    exact cutn_part hv hout hrefs h0 (Nat.not_le.mp hle) hspare hex

/-- How far a request with room for `left` entries and `room` bytes gets: the bytes it takes of the
    references, each as far as it fits, and whether it finds them registered. -/
def requestLen (region : Regions) : Nat → Nat → List BlockRef → Nat × Bool
  | 0, _, _ => (0, true)
  | _ + 1, _, [] => (0, true)
  | left + 1, room, r :: rs =>
    if room = 0 then (0, true)
    else if region r.block r.offset = 0 then (0, false)
    else if room < r.length then (room, true)
    else (requestLen region left (room - r.length) rs).map (r.length + ·) id

structure Request (region : Regions) (left room : Nat) (rs : List BlockRef) (m : Nat) (ok : Bool) : Prop where
  le : m ≤ total rs
  within : m ≤ room
  entries : (takeRefs rs m).length ≤ left
  /-- It stops when there is no more room or nothing left. -/
  stop : ok = true → m = room ∨ m = total rs ∨ (takeRefs rs m).length = left
  /-- It fails at a reference that is not registered. -/
  fail : ok = false → ∃ r ws, dropRefs rs m = r :: ws ∧ region r.block r.offset = 0

theorem requestLen_stop (hstop : left = 0 ∨ room = 0 ∨ rs = []) : requestLen region left room rs = (0, true) := by
  cases left with
  | zero => rfl
  | succ left =>
    cases rs with
    | nil => rfl
    | cons r rs => simp_all [requestLen]

theorem requestLen_spec {p : Nat × Bool} (hrs : ∀ r ∈ rs, r.Ok) (hasked : requestLen region left room rs = p) :
    Request region left room rs p.1 p.2 := by
  subst hasked
  fun_induction requestLen region left room rs with
  | case1 => exact ⟨Nat.zero_le _, Nat.zero_le _, by simp, by simp, nofun⟩
  | case2 => exact ⟨Nat.zero_le _, Nat.zero_le _, by simp, by simp, nofun⟩
  | case3 => exact ⟨Nat.zero_le _, Nat.zero_le _, by simp, by simp, nofun⟩
  | case4 left room r rs hroom hkey => exact ⟨Nat.zero_le _, Nat.zero_le _, by simp, nofun, fun _ => ⟨r, rs, by simp, hkey⟩⟩
  | case5 left room r rs hroom hkey hpart =>
    refine ⟨?_, Nat.le_refl _, ?_, fun _ => .inl rfl, nofun⟩
    · rw [total_cons]
      omega
    · rw [takeRefs_within (by omega) hpart, length_singleton]
      omega
  | case6 left room r rs hroom hkey hpart ih =>
    obtain ⟨hr, hrs⟩ := forall_mem_cons.mp hrs
    obtain ⟨hle, hwithin, hentries, hstop, hfail⟩ := ih hrs
    refine ⟨?_, ?_, ?_, fun hok => ?_, fun hok => ?_⟩
    all_goals simp only [Prod.map_fst, total_cons, takeRefs_cons_add hr, dropRefs_cons_add hr, length_cons]
    · omega
    · omega
    · omega
    · have := hstop hok
      omega
    · exact hfail hok

/-- The references of a further buffer are what the request goes on with. -/
theorem requestLen_append (hrs : ∀ r ∈ rs, r.Ok) (hok : (requestLen region left room rs).2) (ws : List BlockRef) :
    requestLen region left room (rs ++ ws) =
      (requestLen region (left - (takeRefs rs (requestLen region left room rs).1).length)
        (room - (requestLen region left room rs).1) ws).map ((requestLen region left room rs).1 + ·) id := by
  fun_induction requestLen region left room rs with
  | case1 => simp [requestLen]
  | case2 => simp [Prod.map]
  | case3 => simp [requestLen_stop]
  | case4 => cases hok
  | case5 left room r rs hroom hkey hpart => simp [requestLen, hroom, hkey, hpart, requestLen_stop]
  | case6 left room r rs hroom hkey hpart ih =>
    obtain ⟨hr, hrs⟩ := forall_mem_cons.mp hrs
    rw [cons_append, requestLen, if_neg hroom, if_neg hkey, if_neg hpart, ih hrs hok, Prod.map_map, Prod.map_fst,
      takeRefs_cons_add hr, length_cons, Nat.succ_sub_succ, ← Nat.sub_sub]
    simp [Function.comp_def, Nat.add_assoc]

theorem requestLen_append_fail (hfail : (requestLen region left room rs).2 = false) (ws : List BlockRef) :
    requestLen region left room (rs ++ ws) = requestLen region left room rs := by
  fun_induction requestLen region left room rs with
  | case4 left room r rs hroom hkey => simp [requestLen, hroom, hkey]
  | case6 left room r rs hroom hkey hpart ih => simp [requestLen, hroom, hkey, hpart, ih hfail]
  | _ => cases hfail

/-- What a call took from a buffer with the references `rs`, with room for `room` bytes and
    `left` entries: the first `m` bytes. -/
structure Took (region : Regions) (room left : Nat) (rs : List BlockRef) (sg : List Sge) (len m : Nat) (c : Cut) :
    Prop where
  start : ∀ r ∈ rs, r.Ok
  buf : c.buf.Ok
  refs : c.buf.refs = dropRefs rs m
  sgList : c.sgList.map Sge.ref = sg.map Sge.ref ++ takeRefs rs m
  len : c.len = len + m
  asked : requestLen region left room rs = (m, c.ok)

theorem cutInto_stop {maxLen : Nat} (hstop : left = 0 ∨ maxLen ≤ len ∨ v.refNum = 0) :
    cutInto region maxLen left h v out sg len = some ⟨h, v, out, sg, len, true⟩ := by
  cases left with
  | zero => rw [cutInto]
  | succ left => rw [cutInto, if_pos (hstop.resolve_left (Nat.succ_ne_zero left))]

theorem Took.request (ht : Took region room left rs sg len m c) : Request region left room rs m c.ok :=
  requestLen_spec ht.start ht.asked

/-- Nothing is taken. -/
theorem Took.none {ok : Bool} (hv : v.Ok) (hasked : requestLen region left room v.refs = (0, ok)) :
    Took region room left v.refs sg len 0 ⟨h, v, out, sg, len, ok⟩ :=
  ⟨hv.refs, hv, (dropRefs_zero _).symm, by rw [takeRefs_zero, append_nil], rfl, hasked⟩

/-- A first reference is taken as a whole, and then `m` bytes of the others. -/
theorem Took.cons {e : Sge} (hr : r.Ok) (he : e.ref = r) (hkey : region r.block r.offset ≠ 0) (hroom : r.length ≤ room)
    (ht : Took region (room - r.length) left rs (sg ++ [e]) (len + r.length) m c) :
    Took region room (left + 1) (r :: rs) sg len (r.length + m) c := by
  have hpos := hr.nonempty
  have hlist := ht.sgList
  rw [map_append, append_assoc, map_singleton, he] at hlist
  refine ⟨forall_mem_cons.mpr ⟨hr, ht.start⟩, ht.buf, ?_, ?_, ?_, ?_⟩
  · rw [dropRefs_cons_add hr]
    exact ht.refs
  · rw [takeRefs_cons_add hr]
    exact hlist
  · rw [ht.len, Nat.add_assoc]
  · rw [requestLen, if_neg (by omega), if_neg hkey, if_neg (by omega), ht.asked]
    rfl

/-- What a call did: it took `m` bytes, and they went to the slot `out`. -/
structure CutTo (region : Regions) (room left : Nat) (h : Heap) (v out : IOBuf) (sg : List Sge) (len m : Nat) (c : Cut) :
    Prop where
  took : Took region room left v.refs sg len m c
  same : m = 0 → c.heap = h ∧ c.buf = v ∧ c.slot = out
  edit : ∀ F, out.Ok → Spare out.refs m (takeRefs v.refs m).length → Exact h (blocks v.refs + (blocks out.refs + F)) →
    Edit2 h v out F c.heap c.buf c.slot (dropRefs v.refs m) (pushAll out.refs (takeRefs v.refs m))

theorem CutTo.none {ok : Bool} (hv : v.Ok) (hasked : requestLen region left room v.refs = (0, ok)) :
    CutTo region room left h v out sg len 0 ⟨h, v, out, sg, len, ok⟩ := by
  refine ⟨.none hv hasked, fun _ => ⟨rfl, rfl, rfl⟩, fun F hout _ hex => ?_⟩
  rw [dropRefs_zero, takeRefs_zero]
  exact ⟨rfl, rfl, hv, hout, .refl hex⟩

theorem Took.length (ht : Took region room left rs sg len m c) :
    c.sgList.length = sg.length + (takeRefs rs m).length := by
  have hlength := congrArg List.length ht.sgList
  rwa [length_append, length_map, length_map] at hlength

/-- A call takes the first bytes of its buffer, as many as it can. -/
theorem cutInto_spec (region : Regions) (maxLen left : Nat) (h : Heap) (out : IOBuf) (sg : List Sge) (hv : v.Ok)
    (hlen : len ≤ maxLen) : ∃ c m, cutInto region maxLen left h v out sg len = some c ∧
      CutTo region (maxLen - len) left h v out sg len m c := by
  induction left generalizing h v out sg len with
  | zero => exact ⟨_, 0, cutInto_stop (.inl rfl), .none hv rfl⟩
  | succ left ih =>
    by_cases hstop : maxLen ≤ len ∨ v.refNum = 0
    · refine ⟨_, 0, cutInto_stop (.inr hstop), .none hv (requestLen_stop (.inr ?_))⟩
      rw [hv.refNum] at hstop
      exact hstop.imp Nat.sub_eq_zero_of_le eq_nil_of_length_eq_zero
    obtain ⟨hroom, hnum⟩ := not_or.mp hstop
    rw [hv.refNum] at hnum
    obtain ⟨r, rs, hrefs⟩ := exists_cons_of_length_pos (Nat.pos_of_ne_zero hnum)
    have hr := hv.head hrefs
    rw [cutInto, if_neg hstop, hv.frontRef hrefs, refAt_zero hv hrefs]
    dsimp only
    by_cases hkey : region r.block r.offset = 0
    · rw [if_pos hkey]
      refine ⟨_, 0, rfl, .none hv ?_⟩
      rw [hrefs, requestLen, if_neg (by omega), if_pos hkey]
    rw [if_neg hkey]
    by_cases hpart : len + r.length > maxLen
    · -- the last piece: only a part of the reference fits
      have hbound := hr.bound
      obtain ⟨h', v', out', heq, hok', hrefs', hedit⟩ := cutn_front h out hv hrefs
        (by omega : 0 < maxLen - len) (by omega)
      have hu : u32 (maxLen - len) = maxLen - len := Nat.mod_eq_of_lt (by omega)
      rw [if_pos hpart, heq, Option.bind_some, cutInto_stop (.inr (.inl (by omega))), hu]
      refine ⟨_, maxLen - len, rfl, ⟨hv.refs, hok', hrefs', ?_, rfl, ?_⟩, fun h0 => absurd h0 (by omega),
        fun F hout hspare hex => ?_⟩
      · rw [hrefs, takeRefs_within (by omega) (by omega), map_append]
        rfl
      · rw [hrefs, requestLen, if_neg (by omega), if_neg hkey, if_pos (by omega)]
      · rw [hrefs, takeRefs_within (by omega) (by omega)] at hspare
        exact hedit F hout hspare hex
    · have hbound := hr.bound
      obtain ⟨h', v', out', heq, hok', hrefs', hedit⟩ := cutn_front h out hv hrefs hr.nonempty
        (Nat.le_refl _)
      have hu : u32 r.length = r.length := Nat.mod_eq_of_lt (by omega)
      have hrest : v'.refs = rs := by
        rw [hrefs', hrefs, ← Nat.add_zero r.length, dropRefs_cons_add hr, dropRefs_zero]
      rw [if_neg hpart, heq, Option.bind_some, hu]
      obtain ⟨c, m, heq', ht⟩ := ih h' out' (sg ++ [⟨r.block, r.offset, r.length, region r.block r.offset⟩]) hok'
        (by omega : len + r.length ≤ maxLen)
      have htook := ht.took
      rw [hrest, ← Nat.sub_sub] at htook
      refine ⟨c, r.length + m, heq', ?_, fun h0 => absurd h0 ?_, fun F hout hspare hex => ?_⟩
      · rw [hrefs]
        exact htook.cons hr rfl hkey (by omega)
      · have := hr.nonempty
        omega
      · rw [hrefs, takeRefs_cons_add hr, length_cons] at hspare
        have hone := hedit F hout (hspare.mono (by omega) (by omega)) hex
        have hslot : out'.refs = pushList out.refs r := by
          rw [hone.refs', hrefs, ← Nat.add_zero r.length, takeRefs_cons_add hr, takeRefs_zero]
          rfl
        have hspare' : Spare out'.refs m (takeRefs v'.refs m).length := by
          rw [hslot, hrest]
          exact hspare.push hout.refs hr
        have hex' := hone.count.exact
        rw [← hone.refs, ← hone.refs'] at hex'
        have hmore := hone.trans (ht.edit F hone.ok' hspare' hex')
        rw [hrest, hslot] at hmore
        rw [hrefs, dropRefs_cons_add hr, takeRefs_cons_add hr]
        exact hmore

/-! One round: from several buffers into one slot. -/

theorem set_getD {α : Type} (l : List α) (i : Nat) (a : α) : l.set i (l.getD i a) = l := by
  by_cases hlt : i < l.length
  · rw [getD_eq_getElem _ _ hlt, set_getElem_self]
  · rw [set_eq_of_length_le (Nat.not_lt.mp hlt)]

theorem set_getD_set {α : Type} (l : List α) (i : Nat) (x a : α) : l.set i ((l.set i x).getD i a) = l.set i x := by
  have hagain := set_getD (l.set i x) i a
  rwa [set_set] at hagain

namespace CutState

/-- The references that are left, from the current buffer on. -/
def rest (s : CutState) : List BlockRef := (s.bufs.drop s.current).flatMap IOBuf.refs

/-- The buffers before the current one are empty. -/
structure Ok (s : CutState) : Prop where
  bufs : ∀ v ∈ s.bufs, v.Ok
  current : s.current ≤ s.bufs.length
  done : ∀ v ∈ s.bufs.take s.current, v.refs = []

variable {s' s'' : CutState} {m' : Nat}

theorem Ok.buf (hs : s.Ok) (hlt : s.current < s.bufs.length) :
    s.buf.Ok ∧ s.rest = s.buf.refs ++ (s.bufs.drop (s.current + 1)).flatMap IOBuf.refs := by
  have hget : s.buf = s.bufs[s.current] := by
    rw [CutState.buf, getD_eq_getElem _ _ hlt]
  refine ⟨hget ▸ hs.bufs _ (getElem_mem hlt), ?_⟩
  rw [rest, drop_eq_getElem_cons hlt, flatMap_cons, hget]

theorem Ok.rest (hs : s.Ok) : ∀ r ∈ s.rest, r.Ok := by
  intro r hr
  obtain ⟨v, hv, hr⟩ := mem_flatMap.mp hr
  exact (hs.bufs v (mem_of_mem_drop hv)).refs r hr

/-- All references of the buffers are left ones. -/
theorem Ok.flatMap (hs : s.Ok) : s.bufs.flatMap IOBuf.refs = s.rest := by
  conv_lhs => rw [← take_append_drop s.current s.bufs, flatMap_append]
  rw [flatMap_eq_nil_iff.mpr hs.done, nil_append]
  rfl

/-- The first `m` bytes of what is left are now in the slot. -/
structure Shift (s : CutState) (m : Nat) (s' : CutState) : Prop where
  start : ∀ r ∈ s.rest, r.Ok
  ok : s'.Ok
  ep : s'.ep = s.ep
  errno : s'.errno = s.errno
  posted : s'.posted = s.posted
  length : s'.bufs.length = s.bufs.length
  forward : s.current ≤ s'.current
  later : s'.bufs.drop (s'.current + 1) = s.bufs.drop (s'.current + 1)
  le : m ≤ total s.rest
  rest : s'.rest = dropRefs s.rest m
  same : m = 0 → s'.heap = s.heap ∧ s'.bufs = s.bufs ∧ s'.slots = s.slots
  slots : s'.slots = s.slots.set s.ep.sqCurrent s'.slot
  memory : ∀ F, s.ep.sqCurrent < s.slots.length → s.slot.Ok → Spare s.slot.refs m (takeRefs s.rest m).length →
    Exact s.heap (blocks s.rest + (blocks s.slot.refs + F)) →
    s'.slot.Ok ∧ s'.slot.refs = pushAll s.slot.refs (takeRefs s.rest m) ∧
      Recount s.heap (blocks s.rest + (blocks s.slot.refs + F)) s'.heap (blocks s'.rest + (blocks s'.slot.refs + F))

namespace Shift

theorem refl (hs : s.Ok) : s.Shift 0 s := by
  refine ⟨hs.rest, hs, rfl, rfl, rfl, rfl, Nat.le_refl _, rfl, Nat.zero_le _, ?_, fun _ => ⟨rfl, rfl, rfl⟩,
    (set_getD _ _ _).symm, fun F _ hslot _ hex => ⟨hslot, ?_, .refl hex⟩⟩
  · rw [dropRefs_zero]
  · rw [takeRefs_zero]
    rfl

/-- An empty buffer is passed over. -/
theorem skip (hs : s.Ok) (hlt : s.current < s.bufs.length) (hempty : s.buf.refs = []) :
    s.Shift 0 { s with current := s.current + 1 } := by
  have hrest : s.rest = (s.bufs.drop (s.current + 1)).flatMap IOBuf.refs := by
    rw [(hs.buf hlt).2, hempty, nil_append]
  have hget : s.bufs[s.current] = s.buf := by
    rw [CutState.buf, getD_eq_getElem _ _ hlt]
  refine ⟨hs.rest, ⟨hs.bufs, hlt, ?_⟩, rfl, rfl, rfl, rfl, Nat.le_succ _, rfl, Nat.zero_le _, ?_, fun _ => ⟨rfl, rfl, rfl⟩,
    (set_getD _ _ _).symm, fun F _ hslot _ hex => ⟨hslot, ?_, ?_⟩⟩
  · intro v hv
    rw [take_succ_eq_append_getElem hlt, mem_append, mem_singleton, hget] at hv
    rcases hv with hv | rfl
    · exact hs.done v hv
    · exact hempty
  · rw [dropRefs_zero, hrest]
    rfl
  · rw [takeRefs_zero]
    rfl
  · rw [hrest] at hex ⊢
    exact .refl hex

/-- A call of `cut_into_sglist_and_iobuf` on the current buffer. -/
theorem moved (hs : s.Ok) (hlt : s.current < s.bufs.length) (hc : CutTo region room left s.heap s.buf s.slot sg 0 m c)
    (n : Nat) : s.Shift m ((s.moved c).add n) := by
  obtain ⟨hbuf, hrest⟩ := hs.buf hlt
  have hdrop : (s.bufs.set s.current c.buf).drop s.current = c.buf :: s.bufs.drop (s.current + 1) := by
    rw [drop_set, if_neg (Nat.lt_irrefl _), Nat.sub_self, drop_eq_getElem_cons hlt, set_cons_zero]
  have hle : m ≤ total s.buf.refs := hc.took.request.le
  have hrest' : ((s.moved c).add n).rest = dropRefs s.rest m := by
    rw [hrest, dropRefs_append hle]
    show (drop s.current (s.bufs.set s.current c.buf)).flatMap IOBuf.refs = _
    rw [hdrop, flatMap_cons, hc.took.refs]
  refine ⟨hs.rest, ⟨?_, ?_, ?_⟩, rfl, rfl, rfl, length_set, Nat.le_refl _, drop_set_of_lt (Nat.lt_succ_self _), ?_, hrest',
    ?_, ?_, fun F hcur hslot hspare hex => ?_⟩
  · intro v hv
    rcases mem_or_eq_of_mem_set hv with hv | rfl
    · exact hs.bufs v hv
    · exact hc.took.buf
  · rw [← length_set (i := s.current) (a := c.buf)] at hlt
    exact Nat.le_of_lt hlt
  · show ∀ v ∈ (s.bufs.set s.current c.buf).take s.current, v.refs = []
    rw [take_set_of_le (Nat.le_refl _)]
    exact hs.done
  · rw [hrest, total_append]
    omega
  · intro h0
    obtain ⟨hheap, hsame, hslot⟩ := hc.same h0
    refine ⟨hheap, ?_, ?_⟩
    · show s.bufs.set s.current c.buf = s.bufs
      rw [hsame, CutState.buf, set_getD]
    · show s.slots.set s.ep.sqCurrent c.slot = s.slots
      rw [hslot, CutState.slot, set_getD]
  · show s.slots.set s.ep.sqCurrent c.slot = s.slots.set s.ep.sqCurrent
      ((s.slots.set s.ep.sqCurrent c.slot).getD s.ep.sqCurrent .new)
    rw [set_getD_set]
  · have htake : takeRefs s.rest m = takeRefs s.buf.refs m := by
      rw [hrest, takeRefs_append hle]
    have hslot' : ((s.moved c).add n).slot = c.slot := by
      show (s.slots.set s.ep.sqCurrent c.slot).getD s.ep.sqCurrent .new = c.slot
      rw [getD_eq_getElem?_getD, getElem?_set_self hcur, Option.getD_some]
    have hswap : ∀ us : List BlockRef, ∀ ws, blocks (us ++ (s.bufs.drop (s.current + 1)).flatMap IOBuf.refs) + (blocks ws + F) =
        blocks us + (blocks ws + (blocks ((s.bufs.drop (s.current + 1)).flatMap IOBuf.refs) + F)) := by
      intro us ws
      rw [blocks_append, add_assoc, add_left_comm (blocks ws)]
    rw [htake] at hspare
    rw [hrest, hswap] at hex
    have hedit := hc.edit _ hslot hspare hex
    rw [hslot', htake]
    refine ⟨hedit.ok', hedit.refs', ?_⟩
    have hcount := hedit.count
    rw [hrest', hrest, dropRefs_append hle, hswap, hswap, hedit.refs']
    exact hcount

/-- One move after another, if the first one ended at the end of a reference. -/
theorem trans (h1 : s.Shift m s') (h2 : s'.Shift m' s'')
    (htake : takeRefs s.rest (m + m') = takeRefs s.rest m ++ takeRefs s'.rest m')
    (hdrop : dropRefs s.rest (m + m') = dropRefs s'.rest m') (hle : m + m' ≤ total s.rest) : s.Shift (m + m') s'' := by
  have hcur : s''.ep.sqCurrent = s.ep.sqCurrent := by rw [h2.ep, h1.ep]
  refine ⟨h1.start, h2.ok, h2.ep.trans h1.ep, h2.errno.trans h1.errno, h2.posted.trans h1.posted, h2.length.trans h1.length,
    h1.forward.trans h2.forward, ?_, hle, ?_, fun h0 => ?_, ?_,
    fun F hlt hslot hspare hex => ?_⟩
  · have hsplit : s''.current + 1 = s'.current + 1 + (s''.current - s'.current) := by
      have := h2.forward
      omega
    rw [h2.later, hsplit, ← drop_drop, h1.later, drop_drop]
  · rw [hdrop]
    exact h2.rest
  · obtain ⟨hheap, hbufs, hslots⟩ := h1.same (by omega)
    obtain ⟨hheap', hbufs', hslots'⟩ := h2.same (by omega)
    exact ⟨hheap'.trans hheap, hbufs'.trans hbufs, hslots'.trans hslots⟩
  · rw [h2.slots, h1.slots, h1.ep, set_set]
  · rw [htake, length_append] at hspare
    obtain ⟨hok, hrefs, hcount⟩ := h1.memory F hlt hslot (hspare.mono (by omega) (by omega)) hex
    have hspare' : Spare s'.slot.refs m' (takeRefs s'.rest m').length := by
      obtain ⟨htook, htotal⟩ := takeRefs_ok h1.start h1.le
      rw [hrefs]
      refine Spare.pushAll ?_ hslot.refs htook
      rw [htotal]
      exact hspare
    obtain ⟨hok', hrefs', hcount'⟩ := h2.memory F (by rw [h1.ep, h1.slots, length_set]; exact hlt) hok hspare' hcount.exact
    refine ⟨hok', ?_, hcount.trans hcount'⟩
    rw [hrefs', hrefs, htake, pushAll, pushAll, pushAll, foldl_append]

end Shift

end CutState

/-- What a round that starts with the scatter list `sg` of `n` bytes made of its buffers: `m`
    bytes more. -/
structure Filled (region : Regions) (maxSge : Nat) (s : CutState) (sg : List Sge) (n m : Nat)
    (t : CutState × List Sge × Nat × Bool) : Prop where
  shift : s.Shift m t.1
  sgList : t.2.1.map Sge.ref = sg.map Sge.ref ++ takeRefs s.rest m
  entries : t.2.1.length ≤ maxSge
  size : n + m ≤ s.ep.remoteRecvBlockSize
  len : t.2.2.2 = true → t.2.2.1 = n + m ∧ t.1.totalLen = s.totalLen + m
  stop : t.2.2.2 = true → t.2.1.length = maxSge ∨ n + m = s.ep.remoteRecvBlockSize ∨ t.1.current = s.bufs.length
  asked : requestLen region (maxSge - sg.length) (s.ep.remoteRecvBlockSize - n) s.rest = (m, t.2.2.2)

namespace Filled

variable {m' : Nat} {s' : CutState} {sg' : List Sge} {t : CutState × List Sge × Nat × Bool}

theorem none (hs : s.Ok) (hsg : sg.length ≤ maxSge) (hn : n ≤ s.ep.remoteRecvBlockSize)
    (hstop : sg.length = maxSge ∨ n = s.ep.remoteRecvBlockSize ∨ s.current = s.bufs.length) :
    Filled region maxSge s sg n 0 (s, sg, n, true) := by
  refine ⟨.refl hs, ?_, hsg, hn, fun _ => ⟨rfl, rfl⟩, fun _ => hstop, requestLen_stop ?_⟩
  · rw [takeRefs_zero, append_nil]
  · rcases hstop with hfull | hfull | hend
    · exact .inl (by omega)
    · exact .inr (.inl (by omega))
    · exact .inr (.inr (by rw [CutState.rest, hend, drop_length]; rfl))

/-- A first move, which ends at the end of a reference, and the rest of the round. -/
theorem after (h1 : s.Shift m s') (hlist : sg'.map Sge.ref = sg.map Sge.ref ++ takeRefs s.rest m)
    (hlen : s'.totalLen = s.totalLen + m) (h2 : Filled region maxSge s' sg' (n + m) m' t)
    (htake : takeRefs s.rest (m + m') = takeRefs s.rest m ++ takeRefs s'.rest m')
    (hdrop : dropRefs s.rest (m + m') = dropRefs s'.rest m')
    (hasked : requestLen region (maxSge - sg.length) (s.ep.remoteRecvBlockSize - n) s.rest = (m + m', t.2.2.2)) :
    Filled region maxSge s sg n (m + m') t := by
  have hle : m + m' ≤ total s.rest := by
    have := h2.shift.le
    rw [h1.rest, (total_dropRefs h1.start h1.le).2] at this
    have := h1.le
    omega
  have hsize := h2.size
  have hstop := h2.stop
  rw [h1.ep, Nat.add_assoc] at hsize hstop
  rw [h1.length] at hstop
  refine ⟨h1.trans h2.shift htake hdrop hle, ?_, h2.entries, hsize, fun hok => ?_, hstop, hasked⟩
  · rw [h2.sgList, hlist, htake, append_assoc]
  · obtain ⟨hn, htotal⟩ := h2.len hok
    rw [hn, htotal, hlen]
    omega

/-- An empty buffer first. -/
theorem skip (hs : s.Ok) (hlt : s.current < s.bufs.length) (hempty : s.buf.refs = [])
    (h2 : Filled region maxSge { s with current := s.current + 1 } sg n m t) : Filled region maxSge s sg n m t := by
  have h1 := CutState.Shift.skip hs hlt hempty
  have hrest := h1.rest
  rw [dropRefs_zero] at hrest
  rw [← Nat.zero_add m]
  refine after h1 ?_ rfl h2 ?_ ?_ ?_
  · rw [takeRefs_zero, append_nil]
  · rw [hrest, takeRefs_zero, Nat.zero_add, nil_append]
  · rw [hrest, Nat.zero_add]
  · rw [← hrest, Nat.zero_add]
    exact h2.asked

theorem fail {l : Nat} (hf : Filled region maxSge s sg n m (s', sg', l, false)) :
    ∃ r ws, s'.rest = r :: ws ∧ region r.block r.offset = 0 := by
  rw [hf.shift.rest]
  exact (requestLen_spec hf.shift.start hf.asked).fail rfl

end Filled

section

variable {m' : Nat} {t : CutState × List Sge × Nat × Bool}
  (hc : CutTo region (s.ep.remoteRecvBlockSize - n) (maxSge - sg.length) s.heap s.buf s.slot sg 0 m c)
  (hsg : sg.length ≤ maxSge) (hn : n ≤ s.ep.remoteRecvBlockSize) (hs : s.Ok) (hlt : s.current < s.bufs.length)
  (hok : c.ok = true) (hmore : c.sgList.length < maxSge ∧ n + m < s.ep.remoteRecvBlockSize)

include hc

include hsg hn in
theorem CutTo.bounds : c.sgList.length ≤ maxSge ∧ n + m ≤ s.ep.remoteRecvBlockSize := by
  have hlength := hc.took.length
  have hentries := hc.took.request.entries
  have hwithin := hc.took.request.within
  omega

include hok hmore in
theorem CutTo.all : m = total s.buf.refs := by
  have hlength := hc.took.length
  have hstop := hc.took.request.stop hok
  omega

include hs hlt

theorem CutTo.sgList : c.sgList.map Sge.ref = sg.map Sge.ref ++ takeRefs s.rest m := by
  rw [hc.took.sgList, (hs.buf hlt).2, takeRefs_append hc.took.request.le]

include hsg hn in
theorem CutTo.failed (hok : c.ok = false) : Filled region maxSge s sg n m (s.moved c, c.sgList, n, false) := by
  obtain ⟨hentries, hsize⟩ := hc.bounds hsg hn
  refine ⟨.moved hs hlt hc 0, hc.sgList hs hlt, hentries, hsize, (fun hf => nomatch hf), (fun hf => nomatch hf), ?_⟩
  have hasked := hc.took.asked
  rw [hok] at hasked
  rw [(hs.buf hlt).2, requestLen_append_fail (by rw [hasked]), hasked]

include hok

/-- The request goes on with the buffers behind this one. -/
theorem CutTo.goes_on : requestLen region (maxSge - sg.length) (s.ep.remoteRecvBlockSize - n) s.rest =
    (requestLen region (maxSge - c.sgList.length) (s.ep.remoteRecvBlockSize - (n + m))
      ((s.bufs.drop (s.current + 1)).flatMap IOBuf.refs)).map (m + ·) id := by
  obtain ⟨hbuf, hrest⟩ := hs.buf hlt
  have hasked := hc.took.asked
  rw [hok] at hasked
  have hthen := requestLen_append hbuf.refs (by rw [hasked]) ((s.bufs.drop (s.current + 1)).flatMap IOBuf.refs)
  rwa [← hrest, hasked, Nat.sub_sub, ← hc.took.length, Nat.sub_sub] at hthen

include hsg hn in
/-- The request is full. -/
theorem CutTo.full (hfull : ¬ (c.sgList.length < maxSge ∧ n + m < s.ep.remoteRecvBlockSize)) :
    Filled region maxSge s sg n m ((s.moved c).add m, c.sgList, n + m, true) := by
  obtain ⟨hentries, hsize⟩ := hc.bounds hsg hn
  have hstop : c.sgList.length = maxSge ∨ n + m = s.ep.remoteRecvBlockSize := by omega
  refine ⟨.moved hs hlt hc m, hc.sgList hs hlt, hentries, hsize, fun _ => ⟨rfl, rfl⟩, fun _ => hstop.imp_right .inl, ?_⟩
  rw [hc.goes_on hs hlt hok, requestLen_stop (by omega)]
  rfl

include hmore

/-- There is room left: the buffer is empty now, and the round goes on. -/
theorem CutTo.next (ht : Filled region maxSge ((s.moved c).add m) c.sgList (n + m) m' t) :
    Filled region maxSge s sg n (m + m') t := by
  obtain ⟨hbuf, hrest⟩ := hs.buf hlt
  have hall := hc.all hok hmore
  have hshift := CutState.Shift.moved hs hlt hc m
  have hrest' : ((s.moved c).add m).rest = (s.bufs.drop (s.current + 1)).flatMap IOBuf.refs := by
    rw [hshift.rest, hrest, hall, dropRefs_append (Nat.le_refl _), dropRefs_total hbuf.refs, nil_append]
  have hlater := ht.asked
  refine .after hshift (hc.sgList hs hlt) rfl ht ?_ ?_ ?_
  · rw [hrest', hrest, hall, takeRefs_append_add hbuf.refs, takeRefs_append (Nat.le_refl _), takeRefs_total hbuf.refs]
  · rw [hrest', hrest, hall, dropRefs_append_add hbuf.refs]
  · rw [hrest', hshift.ep] at hlater
    rw [hc.goes_on hs hlt hok, hlater]
    rfl

theorem CutTo.grown (hne : s.buf.refs ≠ []) : sg.length < c.sgList.length := by
  rw [hc.took.length, hc.all hok hmore, takeRefs_total (hs.buf hlt).1.refs]
  exact Nat.lt_add_of_pos_right (length_pos_of_ne_nil hne)

end

theorem fillLoop_stop (hstop : ¬ (sg.length < maxSge ∧ n < s.ep.remoteRecvBlockSize)) :
    fillLoop region maxSge (fuel + 1) s sg n = some (s, sg, n, true) := by
  rw [fillLoop, if_neg hstop]

/-- A round comes to its end, and takes the first bytes of what is left. -/
theorem fillLoop_spec (hs : s.Ok) (hlt : s.current < s.bufs.length) (hsg : sg.length ≤ maxSge)
    (hn : n ≤ s.ep.remoteRecvBlockSize) (hfuel : s.bufs.length - s.current + (maxSge - sg.length) < fuel) :
    ∃ t m, fillLoop region maxSge fuel s sg n = some t ∧ Filled region maxSge s sg n m t := by
  induction fuel generalizing s sg n with
  | zero => exact absurd hfuel (Nat.not_lt_zero _)
  | succ fuel ih =>
    by_cases hcond : sg.length < maxSge ∧ n < s.ep.remoteRecvBlockSize
    · rw [fillLoop, if_pos hcond]
      obtain ⟨hbuf, -⟩ := hs.buf hlt
      rw [hbuf.isEmpty]
      by_cases hempty : s.buf.refs = []
      · rw [hempty, isEmpty_nil, if_pos rfl]
        have hskip := (CutState.Shift.skip hs hlt hempty).ok
        by_cases hend : s.current + 1 = s.bufs.length
        · rw [if_pos hend]
          exact ⟨_, 0, rfl, .skip hs hlt hempty (.none hskip hsg hn (.inr (.inr hend)))⟩
        · rw [if_neg hend]
          obtain ⟨t, m, heq, ht⟩ := ih (s := { s with current := s.current + 1 }) hskip
            (by show s.current + 1 < s.bufs.length; omega) hsg hn (by show s.bufs.length - (s.current + 1) + _ < _; omega)
          exact ⟨t, m, heq, .skip hs hlt hempty ht⟩
      · rw [isEmpty_eq_false_iff.mpr hempty, if_neg Bool.false_ne_true]
        obtain ⟨c, m, heq, hc⟩ := cutInto_spec region (s.ep.remoteRecvBlockSize - n) (maxSge - sg.length) s.heap s.slot sg hbuf
          (Nat.zero_le _)
        rw [Nat.sub_zero] at hc
        rw [heq, Option.bind_some, hc.took.len, Nat.zero_add]
        obtain ⟨hentries, hsize⟩ := hc.bounds hsg hn
        cases hok : c.ok with
        | false =>
          rw [if_neg Bool.false_ne_true]
          exact ⟨_, m, rfl, hc.failed hsg hn hs hlt hok⟩
        | true =>
          rw [if_pos rfl]
          by_cases hmore : c.sgList.length < maxSge ∧ n + m < s.ep.remoteRecvBlockSize
          · have hshift := CutState.Shift.moved hs hlt hc m
            have hgrown := hc.grown hs hlt hok hmore hempty
            have hlength : ((s.moved c).add m).bufs.length = s.bufs.length := hshift.length
            obtain ⟨t, m', heq', ht⟩ := ih (s := (s.moved c).add m) hshift.ok (by rw [hlength]; exact hlt) hentries hsize
              (by rw [hlength]; show s.bufs.length - s.current + _ < _; omega)
            exact ⟨t, m + m', heq', hc.next hs hlt hok hmore ht⟩
          · obtain ⟨k, hk⟩ : ∃ k, fuel = k + 1 := ⟨fuel - 1, by omega⟩
            rw [hk, fillLoop_stop (s := (s.moved c).add m) hmore]
            exact ⟨_, m, rfl, hc.full hsg hn hs hlt hok hmore⟩
    · refine ⟨_, 0, fillLoop_stop hcond, .none hs hsg hn ?_⟩
      omega

theorem round_spec (region : Regions) (maxSge : Nat) (hs : s.Ok) (hlt : s.current < s.bufs.length) :
    ∃ t m, fillLoop region maxSge (s.bufs.length + maxSge + 1) s [] 0 = some t ∧ Filled region maxSge s [] 0 m t := by
  refine fillLoop_spec hs hlt (Nat.zero_le _) (Nat.zero_le _) ?_
  rw [length_nil]
  omega

/-! The whole call. -/

section Loop

variable {env : Nat → Round}

/-- Sending leaves the buffers as they are. -/
theorem CutState.Ok.sent (hs : s.Ok) (r q : Nat) (sg : List Sge) (e : Round) : (s.sent r q sg e).Ok :=
  ⟨hs.bufs, hs.current, hs.done⟩

/-- A round that takes nothing only looks for a buffer that is not empty, up to the last one. -/
theorem Filled.idle {s' : CutState} (hf : Filled region maxSge s [] 0 0 (s', sg, 0, true)) : ∃ k,
    s' = { s with current := k } ∧ { s with current := k }.rest = s.rest ∧
      (0 < maxSge → 0 < s.ep.remoteRecvBlockSize → k = s.bufs.length) := by
  have hshift : s.Shift 0 s' := hf.shift
  have hlen : s'.totalLen = s.totalLen := (hf.len rfl).2
  obtain ⟨hheap, hbufs, hslots⟩ := hshift.same rfl
  have hsame : s' = { s with current := s'.current } := by
    rw [← hheap, ← hbufs, ← hslots, ← hlen, ← hshift.ep, ← hshift.errno, ← hshift.posted]
  have hsg : sg.length = 0 := by
    have hlength := congrArg length hf.sgList
    rwa [takeRefs_zero, append_nil, length_map, length_map] at hlength
  refine ⟨s'.current, hsame, ?_, fun hsge hblock => ?_⟩
  · rw [← hsame, hshift.rest, dropRefs_zero]
  · rcases hf.stop rfl with hfull | hblock' | hend
    · have hfull : sg.length = maxSge := hfull
      omega
    · omega
    · exact hend

/-- The loop rule: `I` holds whenever the outer loop is entered, and `Q` when the call
    returns. -/
structure LoopRule (region : Regions) (maxSge : Nat) (env : Nat → Round) (I : CutState → Nat → Nat → Prop)
    (Q : Exit × CutState → Prop) : Prop where
  finished : ∀ {s r q}, s.Ok → I s r q → s.current = s.bufs.length → Q (.done, s)
  closed : ∀ {s r q}, s.Ok → I s r q → s.current < s.bufs.length → r = 0 ∨ q = 0 →
    Q (if 0 < s.totalLen then (.done, s) else (.noWindow, s.setErrno EAGAIN))
  unregistered : ∀ {s r q m s' sg n}, s.Ok → I s r q → s.current < s.bufs.length → r ≠ 0 → q ≠ 0 →
    Filled region maxSge s [] 0 m (s', sg, n, false) → Q (.notRegistered, s')
  empty : ∀ {s r q k}, I s r q → { s with current := k }.rest = s.rest →
    (0 < maxSge → 0 < s.ep.remoteRecvBlockSize → k = s.bufs.length) → I { s with current := k } r q
  refused : ∀ {s r q m s' sg}, s.Ok → I s r q → s.current < s.bufs.length → r ≠ 0 → q ≠ 0 → 0 < m →
    Filled region maxSge s [] 0 m (s', sg, m, true) → (env s'.posted.length).post ≠ 0 →
    Q (.notPosted, s'.offered r q sg (env s'.posted.length))
  posted : ∀ {s r q m s' sg}, s.Ok → I s r q → s.current < s.bufs.length → r ≠ 0 → q ≠ 0 → 0 < m →
    Filled region maxSge s [] 0 m (s', sg, m, true) → (env s'.posted.length).post = 0 →
    I (s'.sent r q sg (env s'.posted.length)) (uint32 (s'.sent r q sg (env s'.posted.length)).ep.remoteRqWindowSize)
      (uint32 (s'.sent r q sg (env s'.posted.length)).ep.sqWindowSize)

theorem LoopRule.cutLoop {I : CutState → Nat → Nat → Prop} {Q : Exit × CutState → Prop}
    (rule : LoopRule region maxSge env I Q) {r q : Nat} {out : Exit × CutState} (hs : s.Ok) (hI : I s r q)
    (hout : cutLoop region maxSge env fuel s r q = some out) : Q out := by
  induction fuel generalizing s r q with
  | zero => exact nomatch hout
  | succ fuel ih =>
    rw [Sending.cutLoop] at hout
    by_cases hlt : s.current < s.bufs.length
    · rw [if_pos hlt] at hout
      by_cases hwnd : r = 0 ∨ q = 0
      · have hclosed := rule.closed hs hI hlt hwnd
        rw [if_pos hwnd] at hout
        split at hout
        all_goals
          rename_i hlen
          cases hout
        · rwa [if_pos hlen] at hclosed
        · rwa [if_neg hlen] at hclosed
      rw [if_neg hwnd] at hout
      obtain ⟨hr, hq⟩ := not_or.mp hwnd
      obtain ⟨⟨s', sg, n, ok⟩, m, hfill, hf⟩ := round_spec region maxSge hs hlt
      rw [hfill, Option.bind_some] at hout
      cases ok with
      | false =>
        cases hout
        exact rule.unregistered hs hI hlt hr hq hf
      | true =>
        obtain rfl : n = m := (hf.len rfl).1.trans (Nat.zero_add m)
        dsimp only at hout
        by_cases hzero : n = 0
        · subst hzero
          obtain ⟨k, rfl, hrest, hend⟩ := hf.idle
          rw [if_pos rfl] at hout
          exact ih hf.shift.ok (rule.empty hI hrest hend) hout
        rw [if_neg hzero] at hout
        split at hout
        · rename_i hpost
          cases hout
          exact rule.refused hs hI hlt hr hq (Nat.pos_of_ne_zero hzero) hf hpost
        · rename_i hpost
          refine ih (hf.shift.ok.sent r q sg _) (rule.posted hs hI hlt hr hq (Nat.pos_of_ne_zero hzero) hf ?_) hout
          exact Decidable.not_not.mp hpost
    · rw [if_neg hlt] at hout
      cases hout
      exact rule.finished hs hI (Nat.le_antisymm hs.current (Nat.not_lt.mp hlt))

theorem sent_ep (s : CutState) (r q : Nat) (sg : List Sge) (e : Round) : ∃ unsolicited ack unsignaled,
    (s.sent r q sg e).ep = { s.ep with
      newRqWrs := 0
      unsolicited := unsolicited
      accumulatedAck := ack
      sqUnsignaled := unsignaled
      sqCurrent := if s.ep.sqCurrent + 1 = s.ep.sbuf.length then 0 else s.ep.sqCurrent + 1
      remoteRqWindowSize := int32 (s.ep.remoteRqWindowSize + e.gainRemote - 1)
      sqWindowSize := int32 (s.ep.sqWindowSize + e.gainSq - 1) } := by
  obtain ⟨unsolicited, ack, unsignaled, hep⟩ := makeWr_frame { s.ep with newRqWrs := 0 } r q (gather s.heap sg)
    (decide (s.bufs.length ≤ s.current + 1)) (uint32 (int32 (s.ep.newRqWrs + e.credits)))
  refine ⟨unsolicited, ack, unsignaled, ?_⟩
  simp only [CutState.sent, CutState.charge, CutState.offered, CutState.afterPost, CutState.makeWr, Endpoint.advanceSq, hep]

/-- The call returns: every round that posts something takes a byte. -/
theorem cutLoop_returns {r q : Nat} (hs : s.Ok) (hsge : 0 < maxSge) (hblock : 0 < s.ep.remoteRecvBlockSize)
    (hfuel : total s.rest + 1 < fuel) : ∃ out, cutLoop region maxSge env fuel s r q = some out := by
  induction fuel generalizing s r q with
  | zero => exact absurd hfuel (Nat.not_lt_zero _)
  | succ fuel ih =>
    rw [cutLoop]
    by_cases hlt : s.current < s.bufs.length
    · rw [if_pos hlt]
      by_cases hwnd : r = 0 ∨ q = 0
      · rw [if_pos hwnd]
        split <;> exact ⟨_, rfl⟩
      rw [if_neg hwnd]
      obtain ⟨⟨s', sg, n, ok⟩, m, hfill, hf⟩ := round_spec region maxSge hs hlt
      rw [hfill, Option.bind_some]
      cases ok with
      | false => exact ⟨_, rfl⟩
      | true =>
        obtain rfl : n = m := (hf.len rfl).1.trans (Nat.zero_add m)
        dsimp only
        by_cases hzero : n = 0
        · subst hzero
          obtain ⟨fuel, rfl⟩ : ∃ k, fuel = k + 1 := ⟨fuel - 1, by omega⟩
          obtain ⟨k, rfl, -, hend⟩ := hf.idle
          rw [if_pos rfl, cutLoop, if_neg (by rw [hend hsge hblock]; exact Nat.lt_irrefl _)]
          exact ⟨_, rfl⟩
        rw [if_neg hzero]
        split
        · exact ⟨_, rfl⟩
        · obtain ⟨_, _, _, hep⟩ := sent_ep s' r q sg (env s'.posted.length)
          refine ih (hf.shift.ok.sent r q sg _) ?_ ?_
          · rw [hep, hf.shift.ep]
            exact hblock
          · have htotal : total s'.rest = total s.rest - n := by
              rw [hf.shift.rest, (total_dropRefs hs.rest hf.shift.le).2]
            have hle := hf.shift.le
            show total s'.rest + 1 < fuel
            omega
    · rw [if_neg hlt]
      exact ⟨_, rfl⟩

variable {error : Int} {ep : Endpoint} {heap : Heap} {bufs slots : List IOBuf} {errno : Int}

theorem start_ok (hbufs : ∀ v ∈ bufs, v.Ok) : (CutState.start ep heap bufs slots errno).Ok :=
  ⟨hbufs, Nat.zero_le _, fun _ hv => absurd hv not_mem_nil⟩

theorem cutFromIOBufList_returns (hbufs : ∀ v ∈ bufs, v.Ok) (hsge : 0 < maxSge) (hblock : 0 < ep.remoteRecvBlockSize) :
    ∃ out, cutFromIOBufList region maxSge env error ep heap bufs slots errno = some out := by
  rw [cutFromIOBufList]
  split
  · exact ⟨_, rfl⟩
  · exact cutLoop_returns (start_ok hbufs) hsge hblock (Nat.lt_succ_self _)

end Loop

/-! A call in a quiet environment: every post succeeds, and the poller does nothing. -/

def quiet : Nat → Round := fun _ => ⟨0, 0, none, 0, 0, id⟩

def openEndpoint : Endpoint := .handshaken smallestHello smallestHello

def emptySlots : List IOBuf := List.replicate openEndpoint.sbuf.length .new

/-- Two buffers with a block each. -/
def pairHeap : Heap := (Store.empty.alloc ⟨false, 3, 8160, fun _ => 1⟩).alloc ⟨true, 2, 2, fun _ => 2⟩

def pairBufs : List IOBuf := [.small (some ⟨0, 3, 0⟩) none, .small (some ⟨0, 2, 1⟩) none]

theorem pairBufs_ok : ∀ v ∈ pairBufs, v.Ok := by
  intro v hv
  rcases mem_cons.mp hv with rfl | hv
  · refine ⟨nofun, fun r hr => ?_, by decide⟩
    rw [mem_singleton.mp hr]
    exact ⟨by decide, by decide⟩
  · rw [mem_singleton.mp hv]
    refine ⟨nofun, fun r hr => ?_, by decide⟩
    rw [mem_singleton.mp hr]
    exact ⟨by decide, by decide⟩

end LightRpc.Sending

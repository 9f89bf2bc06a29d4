import LightRpc.ByteOrder
import LightRpc.Lib.Machine

/- Flow control of the control QP (`fast_rdma_endpoint.cc`): the send window, the
   receive credits and the two threads of an endpoint that work on them.

   The writer is whoever holds the write right; it runs `CutFromIOBufList`. The
   poller is the thread in `PollCq`; it runs `HandleCompletion`, and through it
   `PostRecv`, `SendAck` and `SendImm`. Each access to an atomic that the other
   thread also touches, and each verbs post, is a step of its own, so `Writer` and
   `Poller` are the program counters between such steps, with the local variables
   that are live there.

   The environment chooses what the code cannot know: which bytes the next work
   request takes from the buffers and whether the last buffer has been reached,
   the results of the posts, and when a completion is there to be handled. A SEND
   is handled in the order it was posted (`wire` is the order of the QP), a
   signalled send completion at any time after its post (`sendCq`).

   `decode` is what the receiver makes of the 32-bit immediate. The code's own is
   `ntohs`. -/
namespace LightRpc

open Lib

def RESERVED_WR_NUM : Nat := 3

/-- The sizes one side announces in its `HelloMessage`, as `HelloNegotiationValid`
    accepts them. -/
structure Hello where
  sqSize : Nat
  rqSize : Nat
  blockSize : Nat
  sq_min : 16 ≤ sqSize
  sq_max : sqSize < 2 ^ 16
  rq_min : 16 ≤ rqSize
  rq_max : rqSize < 2 ^ 16
  block_min : 1024 ≤ blockSize
  block_max : blockSize < 2 ^ 32

structure Endpoint where
  sqSize : Nat
  rqSize : Nat
  remoteRecvBlockSize : Nat
  localWindowCapacity : Int
  remoteWindowCapacity : Int
  sqWindowSize : Int
  remoteRqWindowSize : Int
  sqImmWindowSize : Int
  newRqWrs : Int
  sbuf : List Bytes
  sqCurrent : Nat
  sqSent : Nat
  rqReceived : Nat
  sqUnsignaled : Int
  unsolicited : Int
  accumulatedAck : Int
  failed : Bool
  deriving DecidableEq, Repr

/-- A work request on the control QP; `payload` is what its scatter list covers. -/
structure SendWr where
  payload : Bytes
  immData : Nat
  solicited : Bool
  signaled : Bool
  wrId : Nat
  deriving DecidableEq, Repr

/-! The handshake, as far as flow control goes. -/

def Endpoint.onCreated (h : Hello) : Endpoint where
  sqSize := h.sqSize
  rqSize := h.rqSize
  remoteRecvBlockSize := 0
  localWindowCapacity := 0
  remoteWindowCapacity := 0
  sqWindowSize := 0
  remoteRqWindowSize := 0
  sqImmWindowSize := RESERVED_WR_NUM
  newRqWrs := 0
  -- `AllocateResources`: `sbuf_.resize(sq_size_ - RESERVED_WR_NUM)`
  sbuf := List.replicate (h.sqSize - RESERVED_WR_NUM) []
  sqCurrent := 0
  sqSent := 0
  rqReceived := 0
  sqUnsignaled := 0
  unsolicited := 0
  accumulatedAck := 0
  failed := false

/-- The negotiated parameters, from the peer's hello. -/
def Endpoint.negotiate (ep : Endpoint) (remote : Hello) : Endpoint :=
  let capacity : Int := min (ep.sqSize : Int) remote.rqSize - RESERVED_WR_NUM
  { ep with
    remoteRecvBlockSize := remote.blockSize
    localWindowCapacity := capacity
    remoteWindowCapacity := min (ep.rqSize : Int) remote.sqSize - RESERVED_WR_NUM
    sqWindowSize := capacity
    remoteRqWindowSize := capacity
    sqImmWindowSize := RESERVED_WR_NUM }

/-- The ring position after one more posted receive. -/
def Endpoint.advanceRq (ep : Endpoint) : Endpoint :=
  { ep with rqReceived := if ep.rqReceived + 1 = ep.rqSize then 0 else ep.rqReceived + 1 }

/-- `new_rq_wrs_.fetch_add(posted)` at the end of `PostRecv`, and in `SendAck`. -/
def Endpoint.addRqWrs (ep : Endpoint) (n : Int) : Endpoint :=
  { ep with newRqWrs := int32 (ep.newRqWrs + n) }

/-- `PostRecv(num, zerocopy)` with every post accepted and nobody else running. -/
def Endpoint.postRecv (ep : Endpoint) (num : Nat) : Endpoint :=
  (Nat.iterate Endpoint.advanceRq num ep).addRqWrs num

/-- An endpoint when its handshake has returned: created, negotiated, and brought up by
    `BringUpQp`, which posts `rq_size_` receives. -/
def Endpoint.handshaken (mine remote : Hello) : Endpoint :=
  ((Endpoint.onCreated mine).negotiate remote).postRecv mine.rqSize

/-! The writer. -/

/-- Where `CutFromIOBufList` stands. -/
inductive Writer where
  | idle
  /-- `remote_rq_window_size_` loaded. -/
  | loaded (remoteRqWnd : Nat)
  /-- At the head of the loop. -/
  | ready (remoteRqWnd sqWnd : Nat)
  /-- `piece` moved to `sbuf_[sq_current_]`. -/
  | cut (remoteRqWnd sqWnd : Nat) (piece : Bytes) (last : Bool)
  /-- Credits taken out of `new_rq_wrs_`. -/
  | exchanged (remoteRqWnd sqWnd : Nat) (piece : Bytes) (last : Bool) (imm : Nat)
  /-- Posted, no window decremented yet. -/
  | posted
  /-- `remote_rq_window_size_` decremented. -/
  | charged (remoteRqWnd : Nat)
  deriving DecidableEq, Repr

/-- `cut` and `cutFailed` say which bytes `cut_into_sglist_and_iobuf` moved, `cut` also
    whether `current + 1 >= ndata`; `leave` is the return of the call. -/
inductive WriterAct where
  | loadRemote
  | loadSq
  | cut (piece : Bytes) (last : Bool)
  | cutFailed (piece : Bytes)
  | leave
  | exchange
  | post (ok : Bool)
  | subRemote
  | subSq
  deriving DecidableEq, Repr

/-- The solicited flag and its two counters. -/
def Endpoint.solicit (ep : Endpoint) (remoteRqWnd sqWnd : Nat) (last : Bool) (imm : Nat) :
    Bool × Endpoint :=
  if remoteRqWnd = 1 ∨ sqWnd = 1 ∨ last ∨ ep.unsolicited > ep.localWindowCapacity.tdiv 4 ∨
      ep.accumulatedAck > ep.remoteWindowCapacity.tdiv 4 then
    (true, { ep with unsolicited := 0, accumulatedAck := 0 })
  else
    (false, { ep with
      unsolicited := int32 (ep.unsolicited + 1)
      accumulatedAck := int32 (ep.accumulatedAck + imm) })

/-- Selective signalling: the signalled flag and the `wr_id`. -/
def Endpoint.signal (ep : Endpoint) : Bool × Nat × Endpoint :=
  if ep.sqUnsignaled + 1 ≥ ep.localWindowCapacity.tdiv 4 then
    (true, (ep.sqUnsignaled + 1).toNat, { ep with sqUnsignaled := 0 })
  else
    (false, 0, { ep with sqUnsignaled := ep.sqUnsignaled + 1 })

/-- The work request of one round and the endpoint before it is posted. -/
def Endpoint.makeWr (ep : Endpoint) (remoteRqWnd sqWnd : Nat) (piece : Bytes) (last : Bool) (imm : Nat) :
    SendWr × Endpoint :=
  let s := ep.solicit remoteRqWnd sqWnd last imm
  let g := s.2.signal
  (⟨piece, htonl imm, s.1, g.1, g.2.1⟩, g.2.2)

def Endpoint.advanceSq (ep : Endpoint) : Endpoint :=
  { ep with sqCurrent := if ep.sqCurrent + 1 = ep.sbuf.length then 0 else ep.sqCurrent + 1 }

/-- Append to the slot the next work request will be sent from. -/
def Endpoint.fillSlot (ep : Endpoint) (piece : Bytes) : Endpoint :=
  { ep with sbuf := ep.sbuf.modify ep.sqCurrent (· ++ piece) }

/-! The poller. -/

/-- Where `HandleCompletion` stands. -/
inductive Poller where
  | idle
  /-- A receive completion of `byteLen` bytes is taken and its immediate applied. -/
  | repost (byteLen : Nat)
  /-- The receive is posted again, not yet counted. -/
  | credit (byteLen : Nat)
  /-- About to enter `SendAck(num)`. -/
  | ack (num : Nat)
  /-- `SendAck` decided to send. -/
  | ackExchange
  /-- In `SendImm` with this many credits. -/
  | sendImm (total : Nat)
  /-- The slots of a signalled batch are cleared. -/
  | restore (wrId : Nat)
  /-- Posting the receive failed: `PollCq` has failed the endpoint and returned. -/
  | stopped (byteLen : Nat)
  deriving DecidableEq, Repr

inductive PollerAct where
  | recv
  | repost (ok : Bool)
  | credit
  | ack
  | exchange
  | sendImm (ok : Bool)
  | sendDone
  | restore
  deriving DecidableEq, Repr

/-- Release the slots of `n` completed SENDs. -/
def Endpoint.clearSlots : Nat → Endpoint → Endpoint
  | 0, ep => ep
  | n + 1, ep =>
    Endpoint.clearSlots n <|
      if ep.sqSent < ep.sbuf.length then
        { ep with
          sbuf := ep.sbuf.set ep.sqSent []
          sqSent := if ep.sqSent + 1 = ep.sbuf.length then 0 else ep.sqSent + 1 }
      else ep

/-- The window update of `HandleCompletion` for `IBV_WC_RECV`; every SEND of the protocol
    carries an immediate. -/
def Endpoint.applyImm (decode : Nat → Nat) (ep : Endpoint) (immData : Nat) : Endpoint :=
  if 0 < immData then
    { ep with remoteRqWindowSize := int32 (ep.remoteRqWindowSize + decode immData) }
  else ep

/-! One endpoint with its threads, and two of them. -/

/-- `wire` are the SENDs posted here and not yet handled by the peer, oldest first,
    `sendCq` the `wr_id`s of signalled ones whose completion is not yet handled. The last
    three fields only count: SENDs handled here with and without data, and credits that
    were taken out of `new_rq_wrs_` for a post that then failed. -/
structure Side where
  ep : Endpoint
  writer : Writer
  poller : Poller
  wire : List SendWr
  sendCq : List Nat
  dataHandled : Nat
  acksHandled : Nat
  lost : Int
  deriving DecidableEq, Repr

def Side.put (s : Side) (wr : SendWr) : Side :=
  { s with wire := s.wire ++ [wr], sendCq := if wr.signaled then s.sendCq ++ [wr.wrId] else s.sendCq }

def Side.writerNext (s : Side) : WriterAct → Option Side
  | .loadRemote =>
    if s.writer = .idle ∧ s.ep.failed = false then
      some { s with writer := .loaded (uint32 s.ep.remoteRqWindowSize) }
    else none
  | .loadSq =>
    match s.writer with
    | .loaded r => some { s with writer := .ready r (uint32 s.ep.sqWindowSize) }
    | _ => none
  | .cut piece last =>
    match s.writer with
    | .ready r q =>
      if r = 0 ∨ q = 0 ∨ piece = [] ∨ s.ep.remoteRecvBlockSize < piece.length then none
      else some { s with writer := .cut r q piece last, ep := s.ep.fillSlot piece }
    | _ => none
  | .cutFailed piece =>
    match s.writer with
    | .ready r q =>
      if r = 0 ∨ q = 0 ∨ s.ep.remoteRecvBlockSize < piece.length then none
      else some { s with writer := .idle, ep := s.ep.fillSlot piece }
    | _ => none
  | .leave =>
    match s.writer with
    | .ready _ _ => some { s with writer := .idle }
    | _ => none
  | .exchange =>
    match s.writer with
    | .cut r q piece last =>
      some { s with
        writer := .exchanged r q piece last (uint32 s.ep.newRqWrs)
        ep := { s.ep with newRqWrs := 0 } }
    | _ => none
  | .post ok =>
    match s.writer with
    | .exchanged r q piece last imm =>
      let m := s.ep.makeWr r q piece last imm
      if ok then some ({ s with writer := .posted, ep := m.2.advanceSq }.put m.1)
      else some { s with writer := .idle, ep := m.2, lost := s.lost + imm }
    | _ => none
  | .subRemote =>
    match s.writer with
    | .posted =>
      let w := int32 (s.ep.remoteRqWindowSize - 1)
      some { s with writer := .charged (uint32 w), ep := { s.ep with remoteRqWindowSize := w } }
    | _ => none
  | .subSq =>
    match s.writer with
    | .charged r =>
      let w := int32 (s.ep.sqWindowSize - 1)
      some { s with writer := .ready r (uint32 w), ep := { s.ep with sqWindowSize := w } }
    | _ => none

/-- A pure ACK. -/
def ackWr (total : Nat) : SendWr := ⟨[], htonl total, true, true, 0⟩

/-- Steps of the poller that leave the peer alone: all but taking a SEND. -/
def Side.pollerNext (s : Side) : PollerAct → Option Side
  | .recv => none
  | .repost ok =>
    match s.poller with
    | .repost n =>
      if ok then some { s with poller := .credit n, ep := s.ep.advanceRq }
      else some { s with poller := .stopped n, ep := { s.ep with failed := true } }
    | _ => none
  | .credit =>
    match s.poller with
    | .credit n =>
      some { s with poller := if 0 < n then .ack 1 else .idle, ep := s.ep.addRqWrs 1 }
    | _ => none
  | .ack =>
    match s.poller with
    | .ack num =>
      some { s with
        poller :=
          if int32 (s.ep.newRqWrs + num) > s.ep.remoteWindowCapacity.tdiv 2 ∧ 0 < s.ep.sqImmWindowSize then
            .ackExchange
          else .idle
        ep := s.ep.addRqWrs num }
    | _ => none
  | .exchange =>
    match s.poller with
    | .ackExchange =>
      some { s with poller := .sendImm (uint32 s.ep.newRqWrs), ep := { s.ep with newRqWrs := 0 } }
    | _ => none
  | .sendImm ok =>
    match s.poller with
    | .sendImm total =>
      if total = 0 then some { s with poller := .idle }
      else if ok then
        some ({ s with poller := .idle, ep := { s.ep with sqImmWindowSize := s.ep.sqImmWindowSize - 1 } }.put
          (ackWr total))
      -- the error is returned to `HandleCompletion`, which ignores it
      else some { s with poller := .idle, lost := s.lost + total }
    | _ => none
  | .sendDone =>
    match s.poller, s.sendCq with
    | .idle, wrId :: rest =>
      if wrId = 0 then
        some { s with
          poller := .ack 0, sendCq := rest
          ep := { s.ep with sqImmWindowSize := s.ep.sqImmWindowSize + 1 } }
      else some { s with poller := .restore wrId, sendCq := rest, ep := Endpoint.clearSlots wrId s.ep }
    | _, _ => none
  | .restore =>
    match s.poller with
    | .restore wrId =>
      some { s with poller := .idle, ep := { s.ep with sqWindowSize := int32 (s.ep.sqWindowSize + wrId) } }
    | _ => none

/-- A SEND of `peer` is taken off the receive CQ and its immediate applied. -/
def Side.recvNext (decode : Nat → Nat) (s peer : Side) : Option (Side × Side) :=
  match s.poller, peer.wire with
  | .idle, wr :: rest =>
    some ({ s with
      poller := .repost wr.payload.length
      ep := s.ep.applyImm decode wr.immData
      dataHandled := if wr.payload = [] then s.dataHandled else s.dataHandled + 1
      acksHandled := if wr.payload = [] then s.acksHandled + 1 else s.acksHandled }, { peer with wire := rest })
  | _, _ => none

inductive SideAct where
  | writer (a : WriterAct)
  | poller (a : PollerAct)
  /-- `SetFailed` by anyone. -/
  | setFailed
  deriving DecidableEq, Repr

def Side.next (decode : Nat → Nat) (s peer : Side) : SideAct → Option (Side × Side)
  | .writer a => (s.writerNext a).map (·, peer)
  | .poller .recv => s.recvNext decode peer
  | .poller a => (s.pollerNext a).map (·, peer)
  | .setFailed => some ({ s with ep := { s.ep with failed := true } }, peer)

structure Pair where
  a : Side
  b : Side
  deriving DecidableEq, Repr

inductive Party where
  | a
  | b
  deriving DecidableEq, Repr

def Side.handshaken (mine remote : Hello) : Side :=
  ⟨.handshaken mine remote, .idle, .idle, [], [], 0, 0, 0⟩

def Pair.next (decode : Nat → Nat) (s : Pair) : Party × SideAct → Option Pair
  | (.a, act) => (s.a.next decode s.b act).map fun r => ⟨r.1, r.2⟩
  | (.b, act) => (s.b.next decode s.a act).map fun r => ⟨r.2, r.1⟩

/-- Two endpoints from the end of their handshake on. -/
def pairMachine (decode : Nat → Nat) (ha hb : Hello) : Machine Pair (Party × SideAct) where
  init := fun s => s = ⟨.handshaken ha hb, .handshaken hb ha⟩
  next := Pair.next decode

/-! What the helpers leave alone. -/

theorem makeWr_frame (ep : Endpoint) (r q : Nat) (piece : Bytes) (last : Bool) (imm : Nat) :
    ∃ unsolicited ack unsignaled, (ep.makeWr r q piece last imm).2 =
      { ep with unsolicited := unsolicited, accumulatedAck := ack, sqUnsignaled := unsignaled } := by
  simp only [Endpoint.makeWr, Endpoint.signal, Endpoint.solicit]
  split <;> split <;> exact ⟨_, _, _, rfl⟩

theorem clearSlots_frame (k : Nat) : ∀ ep : Endpoint, ∃ sbuf sent,
    Endpoint.clearSlots k ep = { ep with sbuf := sbuf, sqSent := sent } := by
  induction k with
  | zero => exact fun ep => ⟨_, _, rfl⟩
  | succ k ih =>
    intro ep
    rw [Endpoint.clearSlots]
    split
    · obtain ⟨sbuf, sent, heq⟩ := ih { ep with
        sbuf := ep.sbuf.set ep.sqSent []
        sqSent := if ep.sqSent + 1 = ep.sbuf.length then 0 else ep.sqSent + 1 }
      exact ⟨sbuf, sent, heq⟩
    · exact ih ep

theorem applyImm_frame (decode : Nat → Nat) (ep : Endpoint) (immData : Nat) : ∃ window,
    ep.applyImm decode immData = { ep with remoteRqWindowSize := window } := by
  rw [Endpoint.applyImm]
  split <;> exact ⟨_, rfl⟩

theorem advanceRq_frame (k : Nat) : ∀ ep : Endpoint, ∃ received,
    Nat.iterate Endpoint.advanceRq k ep = { ep with rqReceived := received } := by
  induction k with
  | zero => exact fun ep => ⟨_, rfl⟩
  | succ k ih =>
    intro ep
    obtain ⟨received, heq⟩ := ih ep.advanceRq
    exact ⟨received, heq⟩

/-- The endpoint after the handshake, up to where the ring of receives stands. -/
theorem handshaken_frame (mine remote : Hello) : ∃ received, Endpoint.handshaken mine remote =
    { (Endpoint.onCreated mine).negotiate remote with
      rqReceived := received, newRqWrs := int32 (0 + mine.rqSize) } := by
  obtain ⟨received, heq⟩ := advanceRq_frame mine.rqSize ((Endpoint.onCreated mine).negotiate remote)
  refine ⟨received, ?_⟩
  rw [Endpoint.handshaken, Endpoint.postRecv, heq]
  rfl

/-! The steps of the two threads, case by case. -/

inductive WriterStep (s : Side) : WriterAct → Side → Prop where
  | loadRemote : s.writer = .idle → s.ep.failed = false →
    WriterStep s .loadRemote { s with writer := .loaded (uint32 s.ep.remoteRqWindowSize) }
  | loadSq {r : Nat} : s.writer = .loaded r →
    WriterStep s .loadSq { s with writer := .ready r (uint32 s.ep.sqWindowSize) }
  | cut {r q : Nat} {piece : Bytes} {last : Bool} : s.writer = .ready r q → r ≠ 0 → q ≠ 0 → piece ≠ [] →
    WriterStep s (.cut piece last) { s with writer := .cut r q piece last, ep := s.ep.fillSlot piece }
  | cutFailed {r q : Nat} {piece : Bytes} : s.writer = .ready r q →
    WriterStep s (.cutFailed piece) { s with writer := .idle, ep := s.ep.fillSlot piece }
  | leave {r q : Nat} : s.writer = .ready r q → WriterStep s .leave { s with writer := .idle }
  | exchange {r q : Nat} {piece : Bytes} {last : Bool} : s.writer = .cut r q piece last →
    WriterStep s .exchange { s with
      writer := .exchanged r q piece last (uint32 s.ep.newRqWrs), ep := { s.ep with newRqWrs := 0 } }
  | post {r q : Nat} {piece : Bytes} {last : Bool} {imm : Nat} : s.writer = .exchanged r q piece last imm →
    WriterStep s (.post true)
      ({ s with writer := .posted, ep := (s.ep.makeWr r q piece last imm).2.advanceSq }.put
        (s.ep.makeWr r q piece last imm).1)
  | postFailed {r q : Nat} {piece : Bytes} {last : Bool} {imm : Nat} : s.writer = .exchanged r q piece last imm →
    WriterStep s (.post false)
      { s with writer := .idle, ep := (s.ep.makeWr r q piece last imm).2, lost := s.lost + imm }
  | subRemote : s.writer = .posted →
    WriterStep s .subRemote { s with
      writer := .charged (uint32 (int32 (s.ep.remoteRqWindowSize - 1)))
      ep := { s.ep with remoteRqWindowSize := int32 (s.ep.remoteRqWindowSize - 1) } }
  | subSq {r : Nat} : s.writer = .charged r →
    WriterStep s .subSq { s with
      writer := .ready r (uint32 (int32 (s.ep.sqWindowSize - 1)))
      ep := { s.ep with sqWindowSize := int32 (s.ep.sqWindowSize - 1) } }

theorem writerNext_step {s s' : Side} {a : WriterAct} (h : s.writerNext a = some s') : WriterStep s a s' := by
  revert h
  fun_cases Side.writerNext s a <;> intro h <;> cases h
  case case1 hidle => exact .loadRemote hidle.1 hidle.2
  case case6 r q hpc hcut =>
    simp only [not_or] at hcut
    exact .cut hpc hcut.1 hcut.2.1 hcut.2.2.1
  case case16 ok _ _ _ _ _ hpc _ hok =>
    cases eq_false_of_ne_true hok
    exact .postFailed hpc
  all_goals
    constructor
    assumption

inductive PollerStep (s : Side) : PollerAct → Side → Prop where
  | repost {n : Nat} : s.poller = .repost n →
    PollerStep s (.repost true) { s with poller := .credit n, ep := s.ep.advanceRq }
  | repostFailed {n : Nat} : s.poller = .repost n →
    PollerStep s (.repost false) { s with poller := .stopped n, ep := { s.ep with failed := true } }
  | creditData {n : Nat} : s.poller = .credit n → 0 < n →
    PollerStep s .credit { s with poller := .ack 1, ep := s.ep.addRqWrs 1 }
  | creditAck : s.poller = .credit 0 → PollerStep s .credit { s with poller := .idle, ep := s.ep.addRqWrs 1 }
  | ackSend {num : Nat} : s.poller = .ack num → int32 (s.ep.newRqWrs + num) > s.ep.remoteWindowCapacity.tdiv 2 →
    0 < s.ep.sqImmWindowSize → PollerStep s .ack { s with poller := .ackExchange, ep := s.ep.addRqWrs num }
  | ackKeep {num : Nat} : s.poller = .ack num →
    ¬ (int32 (s.ep.newRqWrs + num) > s.ep.remoteWindowCapacity.tdiv 2 ∧ 0 < s.ep.sqImmWindowSize) →
    PollerStep s .ack { s with poller := .idle, ep := s.ep.addRqWrs num }
  | exchange : s.poller = .ackExchange →
    PollerStep s .exchange { s with
      poller := .sendImm (uint32 s.ep.newRqWrs), ep := { s.ep with newRqWrs := 0 } }
  | sendNothing {ok : Bool} : s.poller = .sendImm 0 → PollerStep s (.sendImm ok) { s with poller := .idle }
  | sendImm {total : Nat} : s.poller = .sendImm total → total ≠ 0 →
    PollerStep s (.sendImm true)
      ({ s with poller := .idle, ep := { s.ep with sqImmWindowSize := s.ep.sqImmWindowSize - 1 } }.put (ackWr total))
  | sendImmFailed {total : Nat} : s.poller = .sendImm total → total ≠ 0 →
    PollerStep s (.sendImm false) { s with poller := .idle, lost := s.lost + total }
  | ackDone {rest : List Nat} : s.poller = .idle → s.sendCq = 0 :: rest →
    PollerStep s .sendDone { s with
      poller := .ack 0, sendCq := rest, ep := { s.ep with sqImmWindowSize := s.ep.sqImmWindowSize + 1 } }
  | batchDone {wrId : Nat} {rest : List Nat} : s.poller = .idle → s.sendCq = wrId :: rest → wrId ≠ 0 →
    PollerStep s .sendDone { s with poller := .restore wrId, sendCq := rest, ep := Endpoint.clearSlots wrId s.ep }
  | restore {wrId : Nat} : s.poller = .restore wrId →
    PollerStep s .restore { s with
      poller := .idle, ep := { s.ep with sqWindowSize := int32 (s.ep.sqWindowSize + wrId) } }

theorem pollerNext_step {s s' : Side} {a : PollerAct} (h : s.pollerNext a = some s') : PollerStep s a s' := by
  revert h
  fun_cases Side.pollerNext s a <;> intro h <;> cases h
  case case3 ok _ hpc hok =>
    cases eq_false_of_ne_true hok
    exact .repostFailed hpc
  case case5 n hpc =>
    by_cases hn : 0 < n
    · rw [if_pos hn]
      exact .creditData hpc hn
    · rw [if_neg hn]
      rw [Nat.eq_zero_of_not_pos hn] at hpc
      exact .creditAck hpc
  case case7 num hpc =>
    split
    next hsend => exact .ackSend hpc hsend.1 hsend.2
    next hkeep => exact .ackKeep hpc hkeep
  case case13 ok _ hpc hsome hok =>
    cases eq_false_of_ne_true hok
    exact .sendImmFailed hpc hsome
  all_goals
    constructor <;> assumption

theorem recvNext_step {decode : Nat → Nat} {s s' peer peer' : Side} (h : s.recvNext decode peer = some (s', peer')) :
    ∃ wr rest, s.poller = .idle ∧ peer.wire = wr :: rest ∧ peer' = { peer with wire := rest } ∧
      s' = { s with
        poller := .repost wr.payload.length
        ep := s.ep.applyImm decode wr.immData
        dataHandled := if wr.payload = [] then s.dataHandled else s.dataHandled + 1
        acksHandled := if wr.payload = [] then s.acksHandled + 1 else s.acksHandled } := by
  simp only [Side.recvNext] at h
  split at h
  next wr rest hpc hwire =>
    cases h
    exact ⟨wr, rest, hpc, hwire, rfl, rfl⟩
  next => cases h

end LightRpc

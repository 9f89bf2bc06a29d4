import LightRpc.HelloMessage
import LightRpc.FlowControl

/- `ProcessHandshakeAtClient` and `ProcessHandshakeAtServer`, byte by byte
   (`fast_rdma_endpoint.cc`).

   The two sides run concurrently over one TCP connection. A direction of it is a `Tcp`: what
   was sent, what was received, and the bytes in between; it is faithful by construction. One
   step of a side is one call of `read` or `send`, which moves as many bytes as the system
   likes, or one call that creates or connects queue pairs. Any call may fail, and the
   function then returns -1.

   What a side knows at each point of its function is `ClientAt` and `ServerAt`; neither
   mentions the other side. The two meet in `heard_hello`: what one side received is a prefix
   of what the other sent. -/
namespace LightRpc.Negotiation

open Lib List HelloMessage

def RESERVED_WR_NUM : Nat := 3

/-- The sizes of an endpoint's rings, and what `GlobalInitialize` set in its process. -/
structure Config where
  sqSize : UInt16
  rqSize : UInt16
  recvBlockSize : UInt32
  lid : UInt16
  gid : Fin 16 → UInt8
  sq_min : 16 ≤ sqSize.toNat
  rq_min : 16 ≤ rqSize.toNat

/-- The numbers of the queue pairs `AllocateResources` created. -/
structure Qps where
  qp : UInt32
  dataQp : UInt32
  deriving DecidableEq

/-- What a queue pair is connected to. -/
structure Dest where
  lid : UInt16
  gid : Fin 16 → UInt8
  qpn : UInt32
  deriving DecidableEq

structure Endpoint where
  qps : Option Qps
  sbufSize : Nat
  remoteRecvBlockSize : Nat
  localWindowCapacity : Int
  remoteWindowCapacity : Int
  sqWindowSize : Int
  remoteRqWindowSize : Int
  sqImmWindowSize : Int
  qpDest : Option Dest
  dataQpDest : Option Dest

def Endpoint.onCreated : Endpoint := ⟨none, 0, 0, 0, 0, 0, 0, RESERVED_WR_NUM, none, none⟩

/-- One direction of the connection. -/
structure Tcp where
  sent : Bytes
  received : Bytes
  queue : Bytes
  faithful : received ++ queue = sent

def Tcp.connected : Tcp := ⟨[], [], [], rfl⟩

def Tcp.send (t : Tcp) (b : Bytes) : Tcp where
  sent := t.sent ++ b
  received := t.received
  queue := t.queue ++ b
  faithful := by rw [← List.append_assoc, t.faithful]

def Tcp.read (t : Tcp) (n : Nat) : Tcp where
  sent := t.sent
  received := t.received ++ t.queue.take n
  queue := t.queue.drop n
  faithful := by rw [List.append_assoc, List.take_append_drop, t.faithful]

inductive ClientPc where
  | allocateResources
  | writeHello (rest : Bytes)
  | readHello (data : Bytes)
  | bringUpQp (remote : HelloMessage)
  | bringUpDataQp (remote : HelloMessage)
  | writeAck (rest : Bytes)
  | returned (rc : Int)
  deriving DecidableEq

inductive ServerPc where
  | readHello (data : Bytes)
  | allocateResources (remote : HelloMessage)
  | bringUpQp (remote : HelloMessage)
  | bringUpDataQp (remote : HelloMessage)
  | writeHello (rest : Bytes)
  | readAck (data : Bytes)
  | returned (rc : Int)
  deriving DecidableEq

structure Handshakes where
  client : ClientPc
  server : ServerPc
  clientEp : Endpoint
  serverEp : Endpoint
  toServer : Tcp
  toClient : Tcp

inductive Choice where
  | ok
  | fail
  | created (qps : Qps)
  /-- `read` or `send` returns `n`. -/
  | bytes (n : Nat)
  deriving DecidableEq

/-- The hello a side sends. -/
def Config.hello (cfg : Config) (qps : Qps) : HelloMessage where
  magic := ![82, 68, 77, 65]
  msgLen := UInt16.ofNat HelloMessage.kMsgLen
  helloVer := HelloMessage.kHelloVer
  implVer := HelloMessage.kImplVer
  blockSize := cfg.recvBlockSize
  sqSize := cfg.sqSize
  rqSize := cfg.rqSize
  lid := cfg.lid
  gid := cfg.gid
  qpNum := qps.qp
  dataQpNum := qps.dataQp

def ack : Bytes := storeWord (htonl 1)

/-- The two tests of the peer's hello. -/
def acceptable (remote : HelloMessage) : Bool := remote.hasMagic && remote.negotiationValid

def Endpoint.negotiate (cfg : Config) (ep : Endpoint) (remote : HelloMessage) : Endpoint :=
  let localWindowCapacity := min (cfg.sqSize.toNat : Int) remote.rqSize.toNat - RESERVED_WR_NUM
  { ep with
    remoteRecvBlockSize := remote.blockSize.toNat
    localWindowCapacity := localWindowCapacity
    remoteWindowCapacity := min (cfg.rqSize.toNat : Int) remote.sqSize.toNat - RESERVED_WR_NUM
    sqWindowSize := localWindowCapacity
    remoteRqWindowSize := localWindowCapacity
    sqImmWindowSize := RESERVED_WR_NUM }

def Endpoint.allocateResources (cfg : Config) (ep : Endpoint) (qps : Qps) : Endpoint :=
  { ep with qps := some qps, sbufSize := cfg.sqSize.toNat - RESERVED_WR_NUM }

def Endpoint.bringUpQp (ep : Endpoint) (remote : HelloMessage) : Endpoint :=
  { ep with qpDest := some ⟨remote.lid, remote.gid, remote.qpNum⟩ }

def Endpoint.bringUpDataQp (ep : Endpoint) (remote : HelloMessage) : Endpoint :=
  { ep with dataQpDest := some ⟨remote.lid, remote.gid, remote.dataQpNum⟩ }

/-- The call at this point sends `n` of the bytes `rest`, and the loop of `WriteToFd` goes on
    with the others. -/
def canSend (rest : Bytes) (n : Nat) : Bool := 0 < n ∧ n ≤ rest.length

/-- `read` for what is missing of `len` bytes returns `n`. -/
def canRead (t : Tcp) (data : Bytes) (len n : Nat) : Bool := 0 < n ∧ n ≤ t.queue.length ∧ data.length + n ≤ len

def clientStep (cfg : Config) (s : Handshakes) (choice : Choice) : Option Handshakes :=
  match s.client, choice with
  | .returned _, _ => none
  | _, .fail => some { s with client := .returned (-1) }
  | .allocateResources, .created qps =>
    some { s with
      client := .writeHello (cfg.hello qps).serialize, clientEp := s.clientEp.allocateResources cfg qps }
  | .writeHello rest, .bytes n =>
    if canSend rest n then
      some { s with
        client := if n = rest.length then .readHello [] else .writeHello (rest.drop n)
        toServer := s.toServer.send (rest.take n) }
    else none
  | .readHello data, .bytes n =>
    if canRead s.toClient data HelloMessage.kMsgLen n then
      let data := data ++ s.toClient.queue.take n
      let s := { s with toClient := s.toClient.read n }
      if data.length < HelloMessage.kMsgLen then some { s with client := .readHello data }
      else
        let remote := HelloMessage.deserialize data
        if acceptable remote then
          some { s with client := .bringUpQp remote, clientEp := s.clientEp.negotiate cfg remote }
        else some { s with client := .returned (-1) }
    else none
  | .bringUpQp remote, .ok =>
    some { s with client := .bringUpDataQp remote, clientEp := s.clientEp.bringUpQp remote }
  | .bringUpDataQp remote, .ok =>
    some { s with client := .writeAck ack, clientEp := s.clientEp.bringUpDataQp remote }
  | .writeAck rest, .bytes n =>
    if canSend rest n then
      some { s with
        client := if n = rest.length then .returned 0 else .writeAck (rest.drop n)
        toServer := s.toServer.send (rest.take n) }
    else none
  | _, _ => none

def serverStep (cfg : Config) (s : Handshakes) (choice : Choice) : Option Handshakes :=
  match s.server, choice with
  | .returned _, _ => none
  | _, .fail => some { s with server := .returned (-1) }
  | .readHello data, .bytes n =>
    if canRead s.toServer data HelloMessage.kMsgLen n then
      let data := data ++ s.toServer.queue.take n
      let s := { s with toServer := s.toServer.read n }
      if data.length < HelloMessage.kMsgLen then some { s with server := .readHello data }
      else
        let remote := HelloMessage.deserialize data
        if acceptable remote then
          some { s with server := .allocateResources remote, serverEp := s.serverEp.negotiate cfg remote }
        else some { s with server := .returned (-1) }
    else none
  | .allocateResources remote, .created qps =>
    some { s with server := .bringUpQp remote, serverEp := s.serverEp.allocateResources cfg qps }
  | .bringUpQp remote, .ok =>
    some { s with server := .bringUpDataQp remote, serverEp := s.serverEp.bringUpQp remote }
  | .bringUpDataQp remote, .ok =>
    -- `ep->qp_ ? ep->qp_->qp_num : 0`
    some { s with
      server := .writeHello (cfg.hello (s.serverEp.qps.getD ⟨0, 0⟩)).serialize
      serverEp := s.serverEp.bringUpDataQp remote }
  | .writeHello rest, .bytes n =>
    if canSend rest n then
      some { s with
        server := if n = rest.length then .readAck [] else .writeHello (rest.drop n)
        toClient := s.toClient.send (rest.take n) }
    else none
  | .readAck data, .bytes n =>
    -- the value of the acknowledgement is not looked at
    if canRead s.toServer data 4 n then
      let data := data ++ s.toServer.queue.take n
      some { s with
        server := if data.length < 4 then .readAck data else .returned 0, toServer := s.toServer.read n }
    else none
  | _, _ => none

inductive Act where
  | client (choice : Choice)
  | server (choice : Choice)
  deriving DecidableEq

def handshakeMachine (client server : Config) : Machine Handshakes Act where
  init := fun s => s = ⟨.allocateResources, .readHello [], .onCreated, .onCreated, .connected, .connected⟩
  next := fun s a =>
    match a with
    | .client choice => clientStep client s choice
    | .server choice => serverStep server s choice

/-! What each side knows. -/

structure Allocated (cfg : Config) (ep : Endpoint) (qps : Qps) : Prop where
  qps : ep.qps = some qps
  sbuf : ep.sbufSize = cfg.sqSize.toNat - RESERVED_WR_NUM

/-- The first bytes received are the hello `remote`, and its parameters are in force. -/
structure Heard (cfg : Config) (ep : Endpoint) (received : Bytes) (remote : HelloMessage) : Prop where
  bytes : ∃ data rest, received = data ++ rest ∧ data.length = HelloMessage.kMsgLen ∧
    remote = HelloMessage.deserialize data
  ok : acceptable remote = true
  block : ep.remoteRecvBlockSize = remote.blockSize.toNat
  sends : ep.localWindowCapacity = min (cfg.sqSize.toNat : Int) remote.rqSize.toNat - RESERVED_WR_NUM
  receives : ep.remoteWindowCapacity = min (cfg.rqSize.toNat : Int) remote.sqSize.toNat - RESERVED_WR_NUM

structure Connected (ep : Endpoint) (remote : HelloMessage) : Prop where
  qp : ep.qpDest = some ⟨remote.lid, remote.gid, remote.qpNum⟩
  dataQp : ep.dataQpDest = some ⟨remote.lid, remote.gid, remote.dataQpNum⟩

/-- The function has done all it does. -/
def Finished (cfg : Config) (ep : Endpoint) (received : Bytes) (qps : Qps) : Prop :=
  Allocated cfg ep qps ∧ ∃ remote, Heard cfg ep received remote ∧ Connected ep remote

def ClientAt (cfg : Config) (ep : Endpoint) (sent received : Bytes) : ClientPc → Prop
  | .allocateResources => sent = [] ∧ received = []
  | .writeHello rest => ∃ qps, Allocated cfg ep qps ∧ sent ++ rest = (cfg.hello qps).serialize ∧ received = []
  | .readHello data => ∃ qps, Allocated cfg ep qps ∧ sent = (cfg.hello qps).serialize ∧ received = data
  | .bringUpQp remote => ∃ qps, Allocated cfg ep qps ∧ sent = (cfg.hello qps).serialize ∧ Heard cfg ep received remote
  | .bringUpDataQp remote => ∃ qps, Allocated cfg ep qps ∧ sent = (cfg.hello qps).serialize ∧
      Heard cfg ep received remote ∧ ep.qpDest = some ⟨remote.lid, remote.gid, remote.qpNum⟩
  | .writeAck rest => ∃ qps, Finished cfg ep received qps ∧ sent ++ rest = (cfg.hello qps).serialize ++ ack
  | .returned rc => rc = 0 → ∃ qps, Finished cfg ep received qps ∧ sent = (cfg.hello qps).serialize ++ ack

def ServerAt (cfg : Config) (ep : Endpoint) (sent received : Bytes) : ServerPc → Prop
  | .readHello data => sent = [] ∧ received = data
  | .allocateResources remote => sent = [] ∧ Heard cfg ep received remote
  | .bringUpQp remote => ∃ qps, Allocated cfg ep qps ∧ sent = [] ∧ Heard cfg ep received remote
  | .bringUpDataQp remote => ∃ qps, Allocated cfg ep qps ∧ sent = [] ∧ Heard cfg ep received remote ∧
      ep.qpDest = some ⟨remote.lid, remote.gid, remote.qpNum⟩
  | .writeHello rest => ∃ qps, Finished cfg ep received qps ∧ sent ++ rest = (cfg.hello qps).serialize
  | .readAck _ => ∃ qps, Finished cfg ep received qps ∧ sent = (cfg.hello qps).serialize
  | .returned rc => rc = 0 → ∃ qps, Finished cfg ep received qps ∧ sent = (cfg.hello qps).serialize

section
variable {cfg : Config} {ep : Endpoint} {received : Bytes} {remote : HelloMessage} {qps : Qps}

theorem Heard.more (h : Heard cfg ep received remote) (b : Bytes) : Heard cfg ep (received ++ b) remote := by
  obtain ⟨data, rest, hrec, hlen, hremote⟩ := h.bytes
  refine ⟨⟨data, rest ++ b, ?_, hlen, hremote⟩, h.ok, h.block, h.sends, h.receives⟩
  rw [hrec, append_assoc]

theorem Finished.more (h : Finished cfg ep received qps) (b : Bytes) : Finished cfg ep (received ++ b) qps := by
  obtain ⟨halloc, remote, hheard, hconn⟩ := h
  exact ⟨halloc, remote, hheard.more b, hconn⟩

/-! `AllocateResources`, the negotiation and the connection of a queue pair write different
    fields, so the order they come in does not matter. -/

theorem Allocated.negotiate (h : Allocated cfg ep qps) (m : HelloMessage) : Allocated cfg (ep.negotiate cfg m) qps :=
  ⟨h.qps, h.sbuf⟩

theorem Allocated.bringUpQp (h : Allocated cfg ep qps) (m : HelloMessage) : Allocated cfg (ep.bringUpQp m) qps :=
  ⟨h.qps, h.sbuf⟩

theorem Allocated.bringUpDataQp (h : Allocated cfg ep qps) (m : HelloMessage) :
    Allocated cfg (ep.bringUpDataQp m) qps :=
  ⟨h.qps, h.sbuf⟩

theorem Heard.allocateResources (h : Heard cfg ep received remote) (qps : Qps) :
    Heard cfg (ep.allocateResources cfg qps) received remote :=
  ⟨h.bytes, h.ok, h.block, h.sends, h.receives⟩

theorem Heard.bringUpQp (h : Heard cfg ep received remote) (m : HelloMessage) :
    Heard cfg (ep.bringUpQp m) received remote :=
  ⟨h.bytes, h.ok, h.block, h.sends, h.receives⟩

theorem Heard.bringUpDataQp (h : Heard cfg ep received remote) (m : HelloMessage) :
    Heard cfg (ep.bringUpDataQp m) received remote :=
  ⟨h.bytes, h.ok, h.block, h.sends, h.receives⟩

theorem finished_bringUpDataQp (halloc : Allocated cfg ep qps) (hheard : Heard cfg ep received remote)
    (hqp : ep.qpDest = some ⟨remote.lid, remote.gid, remote.qpNum⟩) :
    Finished cfg (ep.bringUpDataQp remote) received qps :=
  ⟨halloc.bringUpDataQp remote, remote, hheard.bringUpDataQp remote, hqp, rfl⟩

/-- Negotiation with the hello that was received. -/
theorem heard_negotiate (ep : Endpoint) (hlen : received.length = kMsgLen)
    (hok : acceptable (deserialize received)) :
    Heard cfg (ep.negotiate cfg (deserialize received)) received (deserialize received) :=
  ⟨⟨received, [], (append_nil _).symm, hlen, rfl⟩, hok, rfl, rfl, rfl⟩

end

/-- One `send` of `WriteToFd`. -/
theorem sent_step {t : Tcp} {rest whole : Bytes} (n : Nat) (h : t.sent ++ rest = whole) :
    (t.send (rest.take n)).sent ++ rest.drop n = whole := by
  rw [Tcp.send, append_assoc, take_append_drop, h]

theorem sent_last {t : Tcp} {rest whole : Bytes} (h : t.sent ++ rest = whole) :
    (t.send (rest.take rest.length)).sent = whole := by
  rw [take_length]
  exact h

section
variable {cfg : Config} {s s' : Handshakes} {choice : Choice}

/-- The hello is complete when `read` has returned all of its bytes. -/
theorem hello_complete {t : Tcp} {data : Bytes} {n : Nat} (hread : canRead t data kMsgLen n)
    (hall : ¬(data ++ t.queue.take n).length < kMsgLen) :
    (data ++ t.queue.take n).length = kMsgLen := by
  obtain ⟨-, hqueue, hlen⟩ := of_decide_eq_true hread
  rw [length_append, length_take] at hall ⊢
  omega

theorem clientStep_at (h : ClientAt cfg s.clientEp s.toServer.sent s.toClient.received s.client)
    (hn : clientStep cfg s choice = some s') :
    ClientAt cfg s'.clientEp s'.toServer.sent s'.toClient.received s'.client := by
  revert hn
  fun_cases clientStep cfg s choice <;> intro hn <;> cases hn
  case case2 =>
    intro hzero
    cases hzero
  case case3 qps hpc =>
    rw [hpc] at h
    obtain ⟨hsent, hrec⟩ := h
    refine ⟨qps, ⟨rfl, rfl⟩, ?_, hrec⟩
    rw [hsent, nil_append]
  case case4 rest n hpc hsend =>
    rw [hpc] at h
    obtain ⟨qps, halloc, hsent, hrec⟩ := h
    dsimp only
    split
    next hall =>
      subst hall
      exact ⟨qps, halloc, sent_last hsent, hrec⟩
    next => exact ⟨qps, halloc, sent_step n hsent, hrec⟩
  case case6 data n hpc hread data' t hmore =>
    rw [hpc] at h
    obtain ⟨qps, halloc, hsent, hrec⟩ := h
    refine ⟨qps, halloc, hsent, ?_⟩
    show s.toClient.received ++ s.toClient.queue.take n = data ++ s.toClient.queue.take n
    rw [hrec]
  case case7 data n hpc hread data' t hall remote hok =>
    rw [hpc] at h
    obtain ⟨qps, halloc, hsent, hrec⟩ := h
    refine ⟨qps, halloc.negotiate remote, hsent, ?_⟩
    show Heard cfg (s.clientEp.negotiate cfg remote) (s.toClient.received ++ s.toClient.queue.take n) remote
    rw [hrec]
    exact heard_negotiate s.clientEp (hello_complete hread hall) hok
  case case8 =>
    intro hzero
    cases hzero
  case case10 remote hpc =>
    rw [hpc] at h
    obtain ⟨qps, halloc, hsent, hheard⟩ := h
    exact ⟨qps, halloc.bringUpQp remote, hsent, hheard.bringUpQp remote, rfl⟩
  case case11 remote hpc =>
    rw [hpc] at h
    obtain ⟨qps, halloc, hsent, hheard, hqp⟩ := h
    refine ⟨qps, finished_bringUpDataQp halloc hheard hqp, ?_⟩
    show s.toServer.sent ++ ack = _
    rw [hsent]
  case case12 rest n hpc hsend =>
    rw [hpc] at h
    obtain ⟨qps, hfinished, hsent⟩ := h
    dsimp only
    split
    next hall =>
      subst hall
      exact fun _ => ⟨qps, hfinished, sent_last hsent⟩
    next => exact ⟨qps, hfinished, sent_step n hsent⟩

theorem serverStep_at (h : ServerAt cfg s.serverEp s.toClient.sent s.toServer.received s.server)
    (hn : serverStep cfg s choice = some s') :
    ServerAt cfg s'.serverEp s'.toClient.sent s'.toServer.received s'.server := by
  revert hn
  fun_cases serverStep cfg s choice <;> intro hn <;> cases hn
  case case2 =>
    intro hzero
    cases hzero
  case case3 data n hpc hread data' t hmore =>
    rw [hpc] at h
    obtain ⟨hsent, hrec⟩ := h
    refine ⟨hsent, ?_⟩
    show s.toServer.received ++ s.toServer.queue.take n = data ++ s.toServer.queue.take n
    rw [hrec]
  case case4 data n hpc hread data' t hall remote hok =>
    rw [hpc] at h
    obtain ⟨hsent, hrec⟩ := h
    refine ⟨hsent, ?_⟩
    show Heard cfg (s.serverEp.negotiate cfg remote) (s.toServer.received ++ s.toServer.queue.take n) remote
    rw [hrec]
    exact heard_negotiate s.serverEp (hello_complete hread hall) hok
  case case5 =>
    intro hzero
    cases hzero
  case case7 remote qps hpc =>
    rw [hpc] at h
    obtain ⟨hsent, hheard⟩ := h
    exact ⟨qps, ⟨rfl, rfl⟩, hsent, hheard.allocateResources qps⟩
  case case8 remote hpc =>
    rw [hpc] at h
    obtain ⟨qps, halloc, hsent, hheard⟩ := h
    exact ⟨qps, halloc.bringUpQp remote, hsent, hheard.bringUpQp remote, rfl⟩
  case case9 remote hpc =>
    rw [hpc] at h
    obtain ⟨qps, halloc, hsent, hheard, hqp⟩ := h
    refine ⟨qps, finished_bringUpDataQp halloc hheard hqp, ?_⟩
    show s.toClient.sent ++ (cfg.hello (s.serverEp.qps.getD ⟨0, 0⟩)).serialize = _
    rw [hsent, halloc.qps, nil_append, Option.getD_some]
  case case10 rest n hpc hsend =>
    rw [hpc] at h
    obtain ⟨qps, hfinished, hsent⟩ := h
    dsimp only
    split
    next hall =>
      subst hall
      exact ⟨qps, hfinished, sent_last hsent⟩
    next => exact ⟨qps, hfinished, sent_step n hsent⟩
  case case12 data n hpc hread data' =>
    rw [hpc] at h
    obtain ⟨qps, hfinished, hsent⟩ := h
    have hmore := hfinished.more (s.toServer.queue.take n)
    dsimp only
    split
    next => exact ⟨qps, hmore, hsent⟩
    next => exact fun _ => ⟨qps, hmore, hsent⟩

/-! A step of one side leaves alone the other side's endpoint, what it sent and what it
    received. -/

theorem clientStep_frame (hn : clientStep cfg s choice = some s') :
    s'.server = s.server ∧ s'.serverEp = s.serverEp ∧ s'.toClient.sent = s.toClient.sent ∧
      s'.toServer.received = s.toServer.received := by
  revert hn
  fun_cases clientStep cfg s choice <;> intro hn <;> cases hn
  all_goals exact ⟨rfl, rfl, rfl, rfl⟩

theorem serverStep_frame (hn : serverStep cfg s choice = some s') :
    s'.client = s.client ∧ s'.clientEp = s.clientEp ∧ s'.toServer.sent = s.toServer.sent ∧
      s'.toClient.received = s.toClient.received := by
  revert hn
  fun_cases serverStep cfg s choice <;> intro hn <;> cases hn
  all_goals exact ⟨rfl, rfl, rfl, rfl⟩

end

section
variable {client server : Config} {acts : List Act} {s : Handshakes}

theorem sides_at (h : (handshakeMachine client server).Run acts s) :
    ClientAt client s.clientEp s.toServer.sent s.toClient.received s.client ∧
      ServerAt server s.serverEp s.toClient.sent s.toServer.received s.server := by
  refine h.invariant (I := fun _ s => ClientAt client s.clientEp s.toServer.sent s.toClient.received s.client ∧
    ServerAt server s.serverEp s.toClient.sent s.toServer.received s.server) ?_ ?_
  · intro s hinit
    cases hinit
    exact ⟨⟨rfl, rfl⟩, ⟨rfl, rfl⟩⟩
  · intro tr s a s' _ hs hn
    obtain ⟨hclient, hserver⟩ := hs
    cases a with
    | client choice =>
      obtain ⟨hpc, hep, hsent, hrec⟩ := clientStep_frame hn
      refine ⟨clientStep_at hclient hn, ?_⟩
      rw [hpc, hep, hsent, hrec]
      exact hserver
    | server choice =>
      obtain ⟨hpc, hep, hsent, hrec⟩ := serverStep_frame hn
      refine ⟨?_, serverStep_at hserver hn⟩
      rw [hpc, hep, hsent, hrec]
      exact hclient

end

/-- The hello a side heard is the one the other side sent first. -/
theorem heard_hello {cfg : Config} {ep : Endpoint} {t : Tcp} {remote m : HelloMessage} {more : Bytes}
    (h : Heard cfg ep t.received remote) (hsent : t.sent = m.serialize ++ more) : remote = m := by
  obtain ⟨data, rest, hrec, hlen, hremote⟩ := h.bytes
  have hstream : data ++ (rest ++ t.queue) = m.serialize ++ more := by
    rw [← append_assoc, ← hrec, t.faithful, hsent]
  obtain ⟨hdata, -⟩ := append_inj hstream (hlen.trans m.length_serialize.symm)
  rw [hremote, hdata, ← append_nil m.serialize, deserialize_serialize]

/-- What the endpoint `ep` set up with respect to its peer. -/
structure Agrees (cfg peer : Config) (ep peerEp : Endpoint) : Prop where
  window : ep.localWindowCapacity = peerEp.remoteWindowCapacity
  least : 13 ≤ ep.localWindowCapacity
  sbuf : ep.localWindowCapacity ≤ ep.sbufSize
  posted : ep.localWindowCapacity ≤ peer.rqSize.toNat - 3
  block : ep.remoteRecvBlockSize = peer.recvBlockSize.toNat
  large : 1024 ≤ ep.remoteRecvBlockSize
  qps : ∃ qps, peerEp.qps = some qps ∧ ep.qpDest = some ⟨peer.lid, peer.gid, qps.qp⟩ ∧
    ep.dataQpDest = some ⟨peer.lid, peer.gid, qps.dataQp⟩

/-- Two endpoints that finished, each with the other's hello. -/
theorem agrees_of_hellos {cfg peer : Config} {ep peerEp : Endpoint} {received peerReceived : Bytes} {qps peerQps : Qps}
    (halloc : Allocated cfg ep qps) (hheard : Heard cfg ep received (peer.hello peerQps))
    (hconn : Connected ep (peer.hello peerQps)) (hpeer : Allocated peer peerEp peerQps)
    (hpeerHeard : Heard peer peerEp peerReceived (cfg.hello qps)) : Agrees cfg peer ep peerEp := by
  have hwindow : ep.localWindowCapacity = min (cfg.sqSize.toNat : Int) peer.rqSize.toNat - 3 := hheard.sends
  have hreceives : peerEp.remoteWindowCapacity = min (peer.rqSize.toNat : Int) cfg.sqSize.toNat - 3 :=
    hpeerHeard.receives
  have hblock : ep.remoteRecvBlockSize = peer.recvBlockSize.toNat := hheard.block
  have hvalid : (peer.hello peerQps).negotiationValid = true := (Bool.and_eq_true_iff.mp hheard.ok).2
  have hlarge : 1024 ≤ peer.recvBlockSize.toNat := (of_decide_eq_true hvalid).2.2.1
  have hsbuf : ep.sbufSize = cfg.sqSize.toNat - 3 := halloc.sbuf
  have hsq := cfg.sq_min
  have hrq := peer.rq_min
  constructor
  · rw [hwindow, hreceives, min_comm]
  · omega
  · omega
  · omega
  · exact hblock
  · omega
  · exact ⟨peerQps, hpeer.qps, hconn.qp, hconn.dataQp⟩

theorem handshake_agrees (client server : Config) :
    (∀ m : HelloMessage, HelloMessage.deserialize m.serialize = m) ∧
    (∀ data : Bytes, data.length = HelloMessage.kMsgLen → (HelloMessage.deserialize data).serialize = data) ∧
    ∀ acts s, (handshakeMachine client server).Run acts s → s.client = .returned 0 → s.server = .returned 0 →
      Agrees client server s.clientEp s.serverEp ∧ Agrees server client s.serverEp s.clientEp := by
  refine ⟨?_, fun data => HelloMessage.serialize_deserialize, ?_⟩
  · intro m
    rw [← List.append_nil m.serialize, HelloMessage.deserialize_serialize]
  · intro acts s hrun hclient hserver
    obtain ⟨hc, hs⟩ := sides_at hrun
    rw [hclient] at hc
    rw [hserver] at hs
    obtain ⟨clientQps, ⟨hcAlloc, remote, hcHeard, hcConn⟩, hcSent⟩ := hc rfl
    obtain ⟨serverQps, ⟨hsAlloc, remote', hsHeard, hsConn⟩, hsSent⟩ := hs rfl
    rw [← List.append_nil (HelloMessage.serialize _)] at hsSent
    cases heard_hello hcHeard hsSent
    cases heard_hello hsHeard hcSent
    exact ⟨agrees_of_hellos hcAlloc hcHeard hcConn hsAlloc hsHeard,
      agrees_of_hellos hsAlloc hsHeard hsConn hcAlloc hcHeard⟩

/-- A client with short rings. -/
def narrow : Config := ⟨16, 16, 1024, 7, fun _ => 1, by decide, by decide⟩

def wide : Config := ⟨128, 256, 8192, 9, fun _ => 2, by decide, by decide⟩

/-- The server reads the client's hello in two parts. -/
def handshake : List Act :=
  [.client (.created ⟨11, 12⟩), .client (.bytes 44), .server (.bytes 5), .server (.bytes 39),
   .server (.created ⟨21, 22⟩), .server .ok, .server .ok, .server (.bytes 44), .client (.bytes 44), .client .ok,
   .client .ok, .client (.bytes 4), .server (.bytes 4)]

theorem narrow_handshake_agrees : ∃ s, (handshakeMachine narrow wide).Run handshake s ∧
    Agrees narrow wide s.clientEp s.serverEp ∧ Agrees wide narrow s.serverEp s.clientEp := by
  have hexec : ∃ s, (handshakeMachine narrow wide).Run handshake s ∧ s.client = .returned 0 ∧ s.server = .returned 0 :=
    Machine.exists_run rfl (by decide +kernel)
  obtain ⟨s, hrun, hclient, hserver⟩ := hexec
  exact ⟨s, hrun, (handshake_agrees narrow wide).2.2 _ s hrun hclient hserver⟩

/-! What flow control starts from. -/

/-- The parameters of the hello. -/
def Config.flow (cfg : Config) (hblock : 1024 ≤ cfg.recvBlockSize.toNat) : Hello :=
  ⟨cfg.sqSize.toNat, cfg.rqSize.toNat, cfg.recvBlockSize.toNat, cfg.sq_min, cfg.sqSize.toNat_lt, cfg.rq_min,
    cfg.rqSize.toNat_lt, hblock, cfg.recvBlockSize.toNat_lt⟩

structure Starts (ep : Endpoint) (flow : LightRpc.Endpoint) : Prop where
  block : ep.remoteRecvBlockSize = flow.remoteRecvBlockSize
  sends : ep.localWindowCapacity = flow.localWindowCapacity
  receives : ep.remoteWindowCapacity = flow.remoteWindowCapacity
  sq : ep.sqWindowSize = flow.sqWindowSize
  remoteRq : ep.remoteRqWindowSize = flow.remoteRqWindowSize
  sqImm : ep.sqImmWindowSize = flow.sqImmWindowSize
  sbuf : ep.sbufSize = flow.sbuf.length

/-- No credit is used. -/
def Full (ep : Endpoint) : Prop :=
  ep.sqWindowSize = ep.localWindowCapacity ∧ ep.remoteRqWindowSize = ep.localWindowCapacity ∧ ep.sqImmWindowSize = 3

theorem full_of_run {client server : Config} {acts : List Act} {s : Handshakes}
    (h : (handshakeMachine client server).Run acts s) : Full s.clientEp ∧ Full s.serverEp := by
  refine h.invariant (I := fun _ s => Full s.clientEp ∧ Full s.serverEp) ?_ ?_
  · rintro _ rfl
    exact ⟨⟨rfl, rfl, rfl⟩, rfl, rfl, rfl⟩
  · rintro _ s (choice | choice) s' - ⟨hc, hs⟩ hn
    · have hn : clientStep client s choice = some s' := hn
      revert hn
      fun_cases clientStep client s choice <;> intro hn <;> cases hn <;>
        first | exact ⟨hc, hs⟩ | exact ⟨⟨rfl, rfl, rfl⟩, hs⟩
    · have hn : serverStep server s choice = some s' := hn
      revert hn
      fun_cases serverStep server s choice <;> intro hn <;> cases hn <;>
        first | exact ⟨hc, hs⟩ | exact ⟨hc, rfl, rfl, rfl⟩

theorem starts_of_heard {cfg peer : Config} {ep : Endpoint} {received : Bytes} {qps peerQps : Qps} (hfull : Full ep)
    (halloc : Allocated cfg ep qps) (hheard : Heard cfg ep received (peer.hello peerQps)) (hcfg hpeer) :
    Starts ep (.handshaken (cfg.flow hcfg) (peer.flow hpeer)) := by
  obtain ⟨_, heq⟩ := handshaken_frame (cfg.flow hcfg) (peer.flow hpeer)
  rw [heq]
  exact ⟨hheard.block, hheard.sends, hheard.receives, hfull.1.trans hheard.sends, hfull.2.1.trans hheard.sends,
    hfull.2.2, halloc.sbuf.trans length_replicate.symm⟩

/-- When both sides have returned 0, they are where flow control starts. -/
theorem handshake_starts_flow {client server : Config} {acts : List Act} {s : Handshakes}
    (hrun : (handshakeMachine client server).Run acts s) (hclient : s.client = .returned 0)
    (hserver : s.server = .returned 0) : ∃ hc hs,
      Starts s.clientEp (.handshaken (client.flow hc) (server.flow hs)) ∧
        Starts s.serverEp (.handshaken (server.flow hs) (client.flow hc)) := by
  obtain ⟨hc, hs⟩ := sides_at hrun
  obtain ⟨hcFull, hsFull⟩ := full_of_run hrun
  rw [hclient] at hc
  rw [hserver] at hs
  obtain ⟨_, ⟨hcAlloc, _, hcHeard, hcConn⟩, hcSent⟩ := hc rfl
  obtain ⟨_, ⟨hsAlloc, _, hsHeard, hsConn⟩, hsSent⟩ := hs rfl
  rw [← append_nil (serialize _)] at hsSent
  cases heard_hello hcHeard hsSent
  cases heard_hello hsHeard hcSent
  have hcAgrees := agrees_of_hellos hcAlloc hcHeard hcConn hsAlloc hsHeard
  have hsAgrees := agrees_of_hellos hsAlloc hsHeard hsConn hcAlloc hcHeard
  exact ⟨hsAgrees.block ▸ hsAgrees.large, hcAgrees.block ▸ hcAgrees.large,
    starts_of_heard hcFull hcAlloc hcHeard _ _, starts_of_heard hsFull hsAlloc hsHeard _ _⟩

theorem narrow_starts_flow : ∃ s, (handshakeMachine narrow wide).Run handshake s ∧
    ∃ hc hs, Starts s.clientEp (.handshaken (narrow.flow hc) (wide.flow hs)) := by
  obtain ⟨s, hrun, hclient, hserver⟩ : ∃ s, (handshakeMachine narrow wide).Run handshake s ∧ s.client = .returned 0 ∧
    s.server = .returned 0 := Machine.exists_run rfl (by decide +kernel)
  obtain ⟨hc, hs, hstarts, -⟩ := handshake_starts_flow hrun hclient hserver
  exact ⟨s, hrun, hc, hs, hstarts⟩

end LightRpc.Negotiation

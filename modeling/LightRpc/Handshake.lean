import LightRpc.WriteSafety

/- The handshake of a connection, and the first responses of the server
   (`ProcessHandshakeAtClient`, `ProcessHandshakeAtServer`, the worker of
   `OnServerHandshake`, `StartWrite` and `StartAsyncConnect`).

   Hello and acknowledgement travel over TCP, requests over RDMA. The server's completion
   queues are polled from `AllocateResources` on, so a request can be in the hands of a
   handler while the handshake worker is still reading the acknowledgement. The server's
   side of the endpoint is the `WriteState` of the write queue; the handler's call of
   `StartWrite` is one of its threads, and the worker's last store is
   `storeServerHandshake`.

   An accepted endpoint has the empty remote address `OnCreated` gave it, which
   `inet_pton` does not accept: `StartAsyncConnect` returns -1 with `EINVAL`. -/
namespace LightRpc

open Lib List Option

def EINVAL : Nat := 22

inductive TcpMsg where
  | hello
  | ack
  deriving DecidableEq, Repr

/-- `ProcessHandshakeAtClient`. -/
inductive ClientPc where
  | allocateResources
  | writeHello
  | readHello
  | bringUpQp
  | bringUpDataQp
  | writeAck
  | returned (rc : Int)
  deriving DecidableEq, Repr

/-- `ProcessHandshakeAtServer`, and the worker after it. -/
inductive ServerPc where
  | readHello
  | allocateResources
  | bringUpQp
  | bringUpDataQp
  | writeHello
  | readAck
  | closeTcpFd (error : Option Nat)
  | done
  deriving DecidableEq, Repr

structure Connection where
  client : ClientPc
  server : ServerPc
  toServer : List TcpMsg
  toClient : List TcpMsg
  /-- Requests posted over RDMA and not handled yet. -/
  requests : Nat
  /-- The server's endpoint. -/
  endpoint : WriteState
  /-- How often its `StartWrite` took the not-connected branch. -/
  notConnected : Nat

/-- The steps of `ProcessHandshakeAtClient`; `ok` says whether the call there succeeds. -/
def clientStep (c : Connection) (ok : Bool) : Option Connection :=
  match c.client, ok with
  | .returned _, _ => none
  | _, false => some { c with client := .returned (-1) }
  | .allocateResources, true => some { c with client := .writeHello }
  | .writeHello, true => some { c with client := .readHello, toServer := c.toServer ++ [.hello] }
  | .readHello, true =>
    match c.toClient with
    | .hello :: rest => some { c with client := .bringUpQp, toClient := rest }
    | _ => none
  | .bringUpQp, true => some { c with client := .bringUpDataQp }
  | .bringUpDataQp, true => some { c with client := .writeAck }
  | .writeAck, true => some { c with client := .returned 0, toServer := c.toServer ++ [.ack] }

/-- The steps of the server's worker: `ProcessHandshakeAtServer`, with the check of the
    client's hello in its first step, then `CloseTcpFd` and the test of `ret` and `Failed()`.
    A call that fails (`ReadFromFd` and `WriteToFd` do once the endpoint has failed) is a
    choice. -/
def serverStep (c : Connection) (choice : Choice) : Option Connection :=
  match c.server, choice with
  | .done, _ => none
  | .closeTcpFd none, _ =>
    -- a second `SetFailed`, whose errno goes nowhere
    if c.endpoint.failed then some { c with server := .done, endpoint := c.endpoint.spawn (.setFailed EIO .exit) }
    else some { c with server := .done, endpoint := c.endpoint.spawn .storeServerHandshake }
  | .closeTcpFd (some e), _ =>
    some { c with server := .done, endpoint := c.endpoint.spawn (.setFailed (if e = 0 then EIO else e) .exit) }
  | _, .error e => some { c with server := .closeTcpFd (some e) }
  | .readHello, .ok =>
    match c.toServer with
    | .hello :: rest => some { c with server := .allocateResources, toServer := rest }
    | _ => none
  | .allocateResources, .ok => some { c with server := .bringUpQp }
  | .bringUpQp, .ok => some { c with server := .bringUpDataQp }
  | .bringUpDataQp, .ok => some { c with server := .writeHello }
  | .writeHello, .ok => some { c with server := .readAck, toClient := c.toClient ++ [.hello] }
  | .readAck, .ok =>
    match c.toServer with
    | .ack :: rest => some { c with server := .closeTcpFd none, toServer := rest }
    | _ => none
  | _, _ => none

inductive ConnAct where
  | client (ok : Bool)
  | server (choice : Choice)
  /-- The client posts a request. -/
  | request
  /-- A handler of the server answers one: it calls `StartWrite`. -/
  | handle (data : Bytes)
  /-- `SetFailed` from elsewhere. -/
  | setFailed (error : Nat)
  | step (pc : Pc) (choice : Choice)
  deriving DecidableEq, Repr

/-- `StartAsyncConnect` with the empty address has one outcome. -/
def emptyAddress : Pc → Choice → Bool
  | .startAsyncConnect, choice => choice == .error EINVAL
  | _, _ => true

/-- One if the step is `StartWrite` finding `_handshake_ok` unset. -/
def WriteState.unconnected (s : WriteState) : Pc → Nat
  | .loadHandshake _ => if s.handshakeOk then 0 else 1
  | _ => 0

def Connection.next (c : Connection) : ConnAct → Option Connection
  | .client ok => clientStep c ok
  | .server choice => serverStep c choice
  | .request => if c.client = .returned 0 then some { c with requests := c.requests + 1 } else none
  | .handle data =>
    match c.requests with
    | n + 1 => some { c with requests := n, endpoint := c.endpoint.spawn (.start data) }
    | 0 => none
  | .setFailed e => (c.endpoint.next (.setFailed e)).map fun ep => { c with endpoint := ep }
  | .step pc choice =>
    if emptyAddress pc choice then
      (c.endpoint.next (.step pc choice)).map fun ep =>
        { c with endpoint := ep, notConnected := c.notConnected + c.endpoint.unconnected pc }
    else none

def Connection.accepted : Connection :=
  ⟨.allocateResources, .readHello, [], [], 0, .created false, 0⟩

def connectionMachine : Machine Connection ConnAct where
  init := fun c => c = .accepted
  next := Connection.next

variable {s : WriteState} {pc : Pc} {c c' : Connection} {a : ConnAct} {choice : Choice} {tr : List ConnAct}

/-! When `_handshake_ok` is set. -/

/-- A thread of the server's endpoint: no connection callback but the worker's last store. -/
def Pc.ofServer (pc : Pc) : Prop := pc.handshaking = false ∨ pc = .storeServerHandshake

section
theorem clientStep_endpoint {ok : Bool} (hn : clientStep c ok = some c') :
    c'.endpoint = c.endpoint ∧ c'.notConnected = c.notConnected := by
  revert hn
  fun_cases clientStep c ok <;> intro hn <;> cases hn <;> exact ⟨rfl, rfl⟩

/-- The worker starts at most one thread in the endpoint, its own last call. -/
theorem serverStep_endpoint (hn : serverStep c choice = some c') :
    c'.notConnected = c.notConnected ∧ (c'.endpoint = c.endpoint ∨ ∃ pc, c'.endpoint = c.endpoint.spawn pc ∧
      (pc = .storeServerHandshake ∨ ∃ e, pc = .setFailed e .exit)) := by
  revert hn
  fun_cases serverStep c choice <;> intro hn <;> cases hn <;>
    first
    | exact ⟨rfl, .inl rfl⟩
    | exact ⟨rfl, .inr ⟨_, rfl, .inl rfl⟩⟩
    | exact ⟨rfl, .inr ⟨_, rfl, .inr ⟨_, rfl⟩⟩⟩

end

/-- Of the threads of a server, only the worker's last store sets `_handshake_ok`. -/
theorem step_flag {s' : WriteState} (hthreads : ∀ x ∈ s.threads, x.ofServer) (hn : s.next (.step pc choice) = some s') :
    (∀ x ∈ s'.threads, x.ofServer) ∧ (s'.handshakeOk = true ↔ s.handshakeOk ∨ pc = .storeServerHandshake) := by
  obtain ⟨hmem, r, hstep, rfl⟩ := WriteState.next_step hn
  rcases hthreads pc hmem with haside | rfl
  · obtain ⟨hsame, hnew⟩ := step_aside haside hstep
    refine ⟨fun x hx => (Threads.mem_replace hx).elim (fun h => .inl (hnew x h)) (hthreads x), ?_⟩
    have hne : pc ≠ .storeServerHandshake := by
      rintro rfl
      cases haside
    simp only [hsame, hne, or_false]
  · cases hstep
    refine ⟨fun x hx => (Threads.mem_replace hx).elim (absurd · not_mem_nil) (hthreads x), ?_⟩
    simp

/-- What one action does to `_handshake_ok` and to the count of not-connected branches. -/
theorem next_flag (hthreads : ∀ x ∈ c.endpoint.threads, x.ofServer) (hn : c.next a = some c') :
    (∀ x ∈ c'.endpoint.threads, x.ofServer) ∧ (c'.endpoint.handshakeOk = true ↔
      c.endpoint.handshakeOk ∨ ∃ choice, a = .step .storeServerHandshake choice) ∧
    (c'.notConnected = 0 ↔ c.notConnected = 0 ∧
      ∀ req choice, a = .step (.loadHandshake req) choice → c.endpoint.handshakeOk) := by
  have hspawn : ∀ pc : Pc, pc.ofServer → ∀ x ∈ (c.endpoint.spawn pc).threads, x.ofServer := by
    intro pc hpc x hx
    rcases Multiset.mem_cons.mp hx with rfl | hx
    · exact hpc
    · exact hthreads x hx
  cases a with
  | client ok =>
    obtain ⟨hep, hcount⟩ := clientStep_endpoint hn
    simpa [hep, hcount] using hthreads
  | server choice =>
    obtain ⟨hcount, hep | ⟨pc, hep, hpc⟩⟩ := serverStep_endpoint hn
    · simpa [hep, hcount] using hthreads
    · have hpc : pc.ofServer := by
        rcases hpc with rfl | ⟨e, rfl⟩
        · exact .inr rfl
        · exact .inl rfl
      have := hspawn pc hpc
      simpa [hep, hcount, WriteState.spawn] using this
  | request =>
    obtain ⟨_, rfl⟩ := ite_some_none_eq_some.mp hn
    simpa using hthreads
  | handle data =>
    simp only [Connection.next] at hn
    split at hn <;> cases hn
    · have := hspawn (.start data) (.inl rfl)
      simpa [WriteState.spawn] using this
  | setFailed e =>
    obtain ⟨ep, hep, rfl⟩ := map_eq_some_iff.mp hn
    simp only [WriteState.next, ite_none_left_eq_some, some.injEq] at hep
    obtain ⟨_, rfl⟩ := hep
    have := hspawn (.setFailed (if e = 0 then EIO else e) .exit) (.inl rfl)
    simpa [WriteState.spawn] using this
  | step pc choice =>
    simp only [Connection.next, ite_none_right_eq_some] at hn
    obtain ⟨_, hn⟩ := hn
    obtain ⟨ep, hep, rfl⟩ := map_eq_some_iff.mp hn
    obtain ⟨hnew, hflag⟩ := step_flag hthreads hep
    refine ⟨hnew, by simpa using hflag, ?_⟩
    simp only [Nat.add_eq_zero_iff, ConnAct.step.injEq, and_imp]
    refine and_congr_right fun _ => ?_
    cases pc <;> simp [WriteState.unconnected]

/-- The store of `_handshake_ok` is among the actions `tr`. -/
def handshakeStored (tr : List ConnAct) : Prop := ∃ choice, .step .storeServerHandshake choice ∈ tr

theorem handshakeStored_concat :
    handshakeStored (tr ++ [a]) ↔ handshakeStored tr ∨ ∃ choice, a = .step .storeServerHandshake choice := by
  simp only [handshakeStored, mem_append, mem_singleton, exists_or, eq_comm]

/-- Along a run: the flag is set exactly when the worker's store has happened. -/
theorem flag_run (h : connectionMachine.Run tr c) :
    (∀ x ∈ c.endpoint.threads, x.ofServer) ∧ (c.endpoint.handshakeOk = true ↔ handshakeStored tr) := by
  refine h.invariant (I := fun tr c => (∀ x ∈ c.endpoint.threads, x.ofServer) ∧
    (c.endpoint.handshakeOk = true ↔ handshakeStored tr)) ?_ ?_
  · rintro c rfl
    refine ⟨fun x hx => absurd hx (Multiset.notMem_zero _), ?_⟩
    simp [handshakeStored, Connection.accepted, WriteState.created]
  · rintro tr c a c' _ ⟨hthreads, hflag⟩ hn
    obtain ⟨hnew, hflag', _⟩ := next_flag hthreads hn
    exact ⟨hnew, by rw [hflag', hflag, handshakeStored_concat]⟩

/-- Along a run: the branch was never taken exactly when every load of the flag came after
    the store. -/
theorem notConnected_run (h : connectionMachine.Run tr c) : c.notConnected = 0 ↔
      Along (fun before a => ∀ req choice, a = .step (.loadHandshake req) choice → handshakeStored before) tr := by
  refine h.invariant (I := fun tr c => c.notConnected = 0 ↔ Along _ tr) ?_ ?_
  · rintro c rfl
    exact ⟨fun _ => .nil, fun _ => rfl⟩
  · intro tr c a c' hr ih hn
    obtain ⟨hthreads, hflag⟩ := flag_run hr
    obtain ⟨_, _, hcount⟩ := next_flag hthreads hn
    rw [hcount, ih, hflag]
    exact ⟨fun ⟨hold, hnew⟩ => hold.concat hnew, Along.of_concat⟩

/-! A connection on which nothing fails but the dialling. -/

def ConnAct.healthy : ConnAct → Bool
  | .server (.error _) | .setFailed _ => false
  | .step (.getObject _) _ | .step .startAsyncConnect _ => true
  | .step _ (.error _) | .step _ (.fatal ..) => false
  | _ => true

/-- Nothing has failed: the endpoint is healthy, its threads write or store the flag, and
    the worker has seen no error. -/
structure Serving (c : Connection) : Prop where
  healthy : Healthy c.endpoint
  threads : ∀ pc ∈ c.endpoint.threads, pc.normal = true ∨ pc = .storeServerHandshake
  server : ∀ e, c.server ≠ .closeTcpFd (some e)

theorem serverStep_serving (hc : Serving c) (hok : (ConnAct.server choice).healthy)
    (hn : serverStep c choice = some c') : Healthy c'.endpoint ∧
    (∀ pc ∈ c'.endpoint.threads, pc ∈ c.endpoint.threads ∨ pc = .storeServerHandshake) ∧
    ∀ e, c'.server ≠ .closeTcpFd (some e) := by
  revert hn
  fun_cases serverStep c choice <;> intro hn <;> cases hn
  case case2 hfailed => simp [hc.healthy.failed] at hfailed
  case case3 => exact ⟨hc.healthy.withThreads _, fun pc hpc => (Multiset.mem_cons.mp hpc).symm, nofun⟩
  case case4 hserver => exact absurd hserver (hc.server _)
  case case5 => cases hok
  all_goals exact ⟨hc.healthy, fun _ hpc => .inl hpc, nofun⟩

theorem healthy_unfailing (hpc : pc.normal) (hok : (ConnAct.step pc choice).healthy) : unfailing s (.step pc choice) := by
  cases pc <;> cases choice <;> first | rfl | (cases hpc; done) | cases hok

/-- A step of a thread that does not take the not-connected branch keeps the endpoint healthy. -/
theorem step_serving {s' : WriteState} (hs : Healthy s)
    (hthreads : ∀ x ∈ s.threads, x.normal ∨ x = .storeServerHandshake)
    (hok : (ConnAct.step pc choice).healthy) (hconn : s.unconnected pc = 0)
    (hn : s.next (.step pc choice) = some s') :
    Healthy s' ∧ ∀ x ∈ s'.threads, x.normal ∨ x = .storeServerHandshake := by
  obtain ⟨hmem, r, hstep, rfl⟩ := WriteState.next_step hn
  rcases hthreads pc hmem with hnormal | rfl
  · have hshake : ∀ req, pc = .loadHandshake req → s.handshakeOk = true := by
      rintro req rfl
      simpa [WriteState.unconnected] using hconn
    obtain ⟨hs', hnew⟩ := step_healthy hs hnormal hshake (healthy_unfailing hnormal hok) hstep
    exact ⟨hs'.withThreads _, fun x hx => (Threads.mem_replace hx).elim (fun h => .inl (hnew x h)) (hthreads x)⟩
  · cases hstep
    refine ⟨⟨hs.failed, hs.writeError, hs.stop, hs.pending, hs.dropped⟩, fun x hx => ?_⟩
    exact (Threads.mem_replace hx).elim (absurd · not_mem_nil) (hthreads x)

theorem next_serving (hc : Serving c) (hok : a.healthy) (hconn : c'.notConnected = 0) (hn : c.next a = some c') :
    Serving c' := by
  cases a with
  | client ok =>
    have hserver : c'.server = c.server := by
      revert hn
      show clientStep c ok = some c' → _
      fun_cases clientStep c ok <;> intro hn <;> cases hn <;> rfl
    obtain ⟨hep, _⟩ := clientStep_endpoint hn
    exact ⟨hep ▸ hc.healthy, hep ▸ hc.threads, hserver ▸ hc.server⟩
  | server choice =>
    obtain ⟨hep, hthreads, hserver⟩ := serverStep_serving hc hok hn
    exact ⟨hep, fun pc hpc => (hthreads pc hpc).elim (hc.threads pc) .inr, hserver⟩
  | request =>
    obtain ⟨_, rfl⟩ := ite_some_none_eq_some.mp hn
    exact ⟨hc.healthy, hc.threads, hc.server⟩
  | handle data =>
    simp only [Connection.next] at hn
    split at hn <;> cases hn
    · refine ⟨hc.healthy.withThreads _, fun pc hpc => ?_, hc.server⟩
      rcases Multiset.mem_cons.mp hpc with rfl | hpc
      · exact .inl rfl
      · exact hc.threads pc hpc
  | setFailed e => cases hok
  | step pc choice =>
    simp only [Connection.next, ite_none_right_eq_some] at hn
    obtain ⟨_, hn⟩ := hn
    obtain ⟨ep, hep, rfl⟩ := map_eq_some_iff.mp hn
    obtain ⟨hs, hthreads⟩ := step_serving hc.healthy hc.threads hok (Nat.add_eq_zero_iff.mp hconn).2 hep
    exact ⟨hs, hthreads, hc.server⟩

theorem serving_run (h : connectionMachine.Run tr c) (hok : ∀ a ∈ tr, a.healthy) (hconn : c.notConnected = 0) :
    Serving c := by
  revert hok hconn
  refine h.invariant (I := fun tr c => (∀ a ∈ tr, a.healthy = true) → c.notConnected = 0 → Serving c) ?_ ?_
  · rintro c rfl _ _
    exact ⟨⟨rfl, rfl, rfl, rfl, rfl⟩, fun _ hx => absurd hx (Multiset.notMem_zero _), nofun⟩
  · intro tr c a c' hr ih hn hok hconn
    obtain ⟨hold, hlast⟩ := forall_mem_append.mp hok
    obtain ⟨_, _, hcount⟩ := next_flag (flag_run hr).1 hn
    exact next_serving (ih hold (hcount.mp hconn).1) (hlast a (mem_singleton_self a)) hconn hn

/-- **When a server stays on its connection.** A handler's `StartWrite` never took the
    not-connected branch exactly when the handshake worker's store of `_handshake_ok`
    came before every load of it; and as long as that is so and nothing else fails, the
    endpoint is not failed. -/
theorem server_never_dials {tr : List ConnAct} {c : Connection} (h : connectionMachine.Run tr c) :
    (c.notConnected = 0 ↔ ∀ tr₁ tr₂ req choice, tr = tr₁ ++ .step (.loadHandshake req) choice :: tr₂ →
      handshakeStored tr₁) ∧
    ((∀ a ∈ tr, a.healthy = true) → c.notConnected = 0 →
      c.endpoint.failed = false ∧ c.endpoint.writeError = 0) := by
  refine ⟨?_, fun hok hconn => ?_⟩
  · rw [notConnected_run h]
    refine ⟨fun hall tr₁ tr₂ req choice heq => hall tr₁ _ tr₂ heq req choice rfl, ?_⟩
    rintro hall tr₁ a tr₂ heq req choice rfl
    exact hall tr₁ tr₂ req choice heq
  · have hc := serving_run h hok hconn
    exact ⟨hc.healthy.failed, hc.healthy.writeError⟩

/-- Both handshakes up to the client's return. -/
def clientReturns : List ConnAct :=
  [.client true, .client true, .server .ok, .server .ok, .server .ok, .server .ok, .server .ok,
    .client true, .client true, .client true, .client true]

/-- The handler's calls from the request to the load of `_handshake_ok`. -/
def responds : List ConnAct :=
  [.request, .handle [1], .step (.start [1]) .ok, .step (.loadError [1]) .ok, .step (.loadFailed [1]) .ok,
    .step (.getObject [1]) (.object 0), .step (.exchange 0) .ok, .step (.storeNull 0) .ok,
    .step (.freshError 0) .ok, .step (.freshFailed 0) .ok, .step (.loadHandshake 0) .ok]

/-- The worker reads the acknowledgement, and stores the flag. -/
def acknowledged : List ConnAct := [.server .ok, .server .ok, .step .storeServerHandshake .ok]

/-- The request is handled before the worker has read the acknowledgement. -/
def overtaking : List ConnAct :=
  clientReturns ++ responds ++
    [.step (.storePending 0) .ok, .step .startAsyncConnect (.error EINVAL), .step (.failPending EINVAL) .ok,
      .step (.setFailed EINVAL (.drain 0)) .ok, .step (.storeError EINVAL (.drain 0)) .ok]

theorem request_overtakes : ∃ c, connectionMachine.Run overtaking c ∧ (∀ a ∈ overtaking, a.healthy = true) ∧
    c.client = .returned 0 ∧ c.server = .readAck ∧ c.toServer = [.ack] ∧ c.notConnected = 1 ∧
    c.endpoint.failed = true ∧ c.endpoint.writeError = EINVAL := by
  have hexec : ∃ c, connectionMachine.Run overtaking c ∧ (c.client = .returned 0 ∧ c.server = .readAck ∧
      c.toServer = [.ack] ∧ c.notConnected = 1 ∧ c.endpoint.failed = true ∧ c.endpoint.writeError = EINVAL) :=
    Machine.exists_run rfl (by decide +kernel)
  obtain ⟨c, hrun, hend⟩ := hexec
  exact ⟨c, hrun, by decide, hend⟩

theorem acknowledged_serves : ∃ c, connectionMachine.Run (clientReturns ++ acknowledged ++ responds) c ∧
    c.notConnected = 0 ∧ c.endpoint.failed = false := by
  have hexec : ∃ c, connectionMachine.Run (clientReturns ++ acknowledged ++ responds) c ∧ c.notConnected = 0 :=
    Machine.exists_run rfl (by decide +kernel)
  obtain ⟨c, hrun, hconn⟩ := hexec
  exact ⟨c, hrun, hconn, ((server_never_dials hrun).2 (by decide) hconn).1⟩

end LightRpc

import LightRpc.ByteOrder
import LightRpc.Lib.Machine
import LightRpc.Lib.OwnedQueue

/- The write queue of an endpoint (`fast_rdma_endpoint.cc`): `StartWrite`,
   `StartKeepWrite`, `KeepWrite`, `IsWriteComplete`, the failure paths `FailWrite`,
   `FailPendingWrite` and `ReleaseAllFailedWriteRequests`, the handshake callbacks
   that hand `_pending_keepwrite_req` over, and `BeforeRecycled`.

   Threads are anonymous: the state holds a multiset of program counters, one for
   every call in progress. A step of a thread is one access to something other
   threads can see (an atomic, a link of a published request, the object pool), with
   the private computation up to the next such access. What the code cannot decide
   is in the `Choice` of a step: which object the pool hands out, how many bytes
   `CutFromIOBufList` posts, whether a call fails and with which errno.

   A failed `CHECK`, and a use of `UNCONNECTED` as a pointer, set `crashed`.

   The endpoint's reference count appears in two places only. A call in progress
   holds a reference, so `BeforeRecycled` starts when the endpoint has failed and no
   thread is left; and `Address` refuses a failed endpoint, so no handshake callback
   starts on one. -/
namespace LightRpc

open Lib OwnedQueue

abbrev Addr := Nat

def EIO : Nat := 5
def ECANCELED : Nat := 125

/-- The limit of buffers `DoWrite` passes on. -/
def DATA_LIST_MAX : Nat := 256

/-- A call of `IsWriteComplete`, by its caller. -/
inductive Caller where
  | startWrite (req : Addr)
  | keepWrite (req curTail : Addr)
  /-- `ReleaseAllFailedWriteRequests`, from `BeforeRecycled` or not. -/
  | drain (req : Addr) (recycler : Bool)
  deriving DecidableEq, Repr

def Caller.req : Caller → Addr
  | .startWrite req => req
  | .keepWrite req _ => req
  | .drain req _ => req

def Caller.oldHead : Caller → Addr
  | .startWrite req => req
  | .keepWrite _ curTail => curTail
  | .drain req _ => req

def Caller.singularNode : Caller → Bool
  | .keepWrite req curTail => req == curTail
  | _ => true

/-- What a thread does after `SetFailed`. -/
inductive Then where
  | exit
  | drain (req : Addr)
  | waited (req : Addr) (curTail : Option Addr)
  deriving DecidableEq, Repr

inductive Pc where
  -- `StartWrite`
  | start (data : Bytes)
  | loadError (data : Bytes)
  | loadFailed (data : Bytes)
  | getObject (data : Bytes)
  | exchange (req : Addr)
  | storeNext (req prev : Addr)
  | storeNull (req : Addr)
  | freshError (req : Addr)
  | freshFailed (req : Addr)
  | loadHandshake (req : Addr)
  | storePending (req : Addr)
  | startAsyncConnect
  | registerTcpEvent
  | cut (req : Addr)
  | startKeepWrite (req : Addr)
  -- `FailPendingWrite`
  | failPending (error : Nat)
  -- `SetFailed` and `OnFailed`
  | setFailed (error : Nat) (after : Then)
  | storeError (error : Nat) (after : Then)
  | storeStop (after : Then)
  | unregister (after : Then)
  -- `KeepWrite`
  | keepStop (req : Addr) (curTail : Option Addr)
  | keepSkip (req : Addr) (curTail : Option Addr)
  | doWrite (req : Addr) (curTail : Option Addr)
  | keepRelease (req : Addr) (curTail : Option Addr) (wait : Bool)
  | keepWait (req : Addr) (curTail : Option Addr)
  | keepWaited (req : Addr) (curTail : Option Addr)
  | keepTail (req cur : Addr)
  -- `ReleaseAllFailedWriteRequests`
  | drain (req : Addr) (recycler : Bool)
  -- `IsWriteComplete`
  | isWriteComplete (c : Caller)
  | reverse (c : Caller) (newHead p : Addr) (tail : Option Addr)
  | link (c : Caller) (newHead tail : Addr)
  | finish (c : Caller)
  -- `OnClientHandshake`, `OnServerHandshake`
  | clientEvent
  | clientConnected
  | clientHandshake
  | storeHandshake
  | takePending
  | serverHandshake
  | storeServerHandshake
  -- `BeforeRecycled`
  | beforeRecycled
  | checkHead
  deriving DecidableEq, Repr

structure WriteState where
  mem : Mem Addr UInt8
  handshakeOk : Bool
  pending : Option Addr
  failed : Bool
  writeError : Nat
  stop : Bool
  registered : Bool
  recycled : Bool
  crashed : Bool
  threads : Multiset Pc

inductive Choice where
  /-- The call succeeds, or there is nothing to choose. -/
  | ok
  | error (errno : Nat)
  | object (a : Addr)
  /-- `CutFromIOBufList` returns `n`. -/
  | wrote (n : Nat)
  /-- `CutFromIOBufList` returns -1 with `EAGAIN`. -/
  | again
  /-- `CutFromIOBufList` returns -1 with another errno, after `n` bytes were posted. -/
  | fatal (n errno : Nat)
  deriving DecidableEq, Repr

namespace WriteState

/-- `error()`. -/
def error (s : WriteState) : Nat :=
  if s.writeError ≠ 0 then s.writeError else if s.failed then ECANCELED else 0

def crash (s : WriteState) : Option (WriteState × List Pc) := some ({ s with crashed := true }, [])

/-- Continue at `pc` with nothing changed. -/
def goto (s : WriteState) (pc : Pc) : Option (WriteState × List Pc) := some (s, [pc])

def exit (s : WriteState) : Option (WriteState × List Pc) := some (s, [])

def withMem (s : WriteState) (m : Mem Addr UInt8) : WriteState := { s with mem := m }

end WriteState

open WriteState

/-- `FailWrite`: `SetFailed`, then drain. -/
def failWrite (req : Addr) (error : Nat) : Pc := .setFailed (if error = 0 then EIO else error) (.drain req)

def Then.resume : Then → List Pc
  | .exit => []
  | .drain req => [.drain req false]
  | .waited req curTail => [.keepWaited req curTail]

/-- After the exchange of `_write_head`: link to the head before, or own the queue. -/
def afterExchange (req : Addr) : Option Addr → Pc
  | some prev => .storeNext req prev
  | none => .storeNull req

/-- After the waiting in `KeepWrite`: find the tail if it is not known. -/
def keepComplete (req : Addr) : Option Addr → Pc
  | none => .keepTail req req
  | some curTail => .isWriteComplete (.keepWrite req curTail)

/-- After the release loop: `WaitForWritable` if nothing was written. -/
def keepReleased (req : Addr) (curTail : Option Addr) : Bool → Pc
  | true => .keepWait req curTail
  | false => keepComplete req curTail

/-- `IsWriteComplete` has returned false, having set `*new_tail` where it was asked to. -/
def Caller.incomplete (newTail : Addr) : Caller → Pc
  | .startWrite req => .startKeepWrite req
  | .keepWrite req _ => .keepStop req (some newTail)
  | .drain req recycler => .drain req recycler

/-- The steps of `StartWrite` before its `IsWriteComplete`, and of `FailPendingWrite`. -/
def startWriteStep (s : WriteState) : Pc → Choice → Option (WriteState × List Pc)
  | .start data, _ => if s.failed then s.exit else s.goto (.loadError data)
  | .loadError data, _ => if s.writeError ≠ 0 then s.exit else s.goto (.loadFailed data)
  | .loadFailed data, _ => if s.failed then s.exit else s.goto (.getObject data)
  | .getObject data, .object a =>
    if s.mem.inUse a then none else (s.withMem (s.mem.take a data)).goto (.exchange a)
  | .getObject _, .error _ => s.exit
  | .exchange req, _ =>
    (s.withMem (s.mem.publish req)).goto (afterExchange req s.mem.head)
  | .storeNext req prev, _ => (s.withMem (s.mem.setNext req (.to prev))).exit
  | .storeNull req, _ => (s.withMem (s.mem.setNext req .null)).goto (.freshError req)
  | .freshError req, _ =>
    if s.writeError ≠ 0 then s.goto (failWrite req s.writeError) else s.goto (.freshFailed req)
  | .freshFailed req, _ =>
    if s.failed then s.goto (failWrite req ECANCELED) else s.goto (.loadHandshake req)
  | .loadHandshake req, _ => if s.handshakeOk then s.goto (.cut req) else s.goto (.storePending req)
  | .storePending req, _ => { s with pending := some req }.goto .startAsyncConnect
  | .startAsyncConnect, .ok => s.goto .registerTcpEvent
  | .startAsyncConnect, .error e => s.goto (.failPending e)
  -- under `connection_mutex_`
  | .registerTcpEvent, .ok =>
    if s.failed then s.goto (.failPending s.error) else { s with registered := true }.exit
  | .registerTcpEvent, .error e => s.goto (.failPending e)
  | .failPending e, _ =>
    match s.pending with
    | some req => { s with pending := none }.goto (failWrite req e)
    | none => s.exit
  | .cut req, .wrote n =>
    if n ≤ (s.mem.data req).length then
      (s.withMem (s.mem.consume [req] n)).goto (.isWriteComplete (.startWrite req))
    else none
  | .cut req, .again => s.goto (.isWriteComplete (.startWrite req))
  | .cut req, .fatal n e =>
    if n ≤ (s.mem.data req).length then (s.withMem (s.mem.consume [req] n)).goto (failWrite req e) else none
  | .startKeepWrite req, .ok => s.goto (.keepStop req none)
  | .startKeepWrite req, .error e => s.goto (failWrite req e)
  | _, _ => none

/-- `SetFailed`: the first caller changes the version and runs `OnFailed`. -/
def setFailedStep (s : WriteState) : Pc → Choice → Option (WriteState × List Pc)
  | .setFailed e after, _ =>
    if s.failed then some (s, after.resume) else { s with failed := true }.goto (.storeError e after)
  | .storeError e after, _ => { s with writeError := e }.goto (.storeStop after)
  | .storeStop after, _ => { s with stop := true }.goto (.unregister after)
  | .unregister after, _ => some ({ s with registered := false }, after.resume)
  | _, _ => none

def keepWriteStep (s : WriteState) : Pc → Choice → Option (WriteState × List Pc)
  | .keepStop req curTail, _ =>
    if s.stop then s.goto (failWrite req ECANCELED) else s.goto (.keepSkip req curTail)
  | .keepSkip req curTail, _ =>
    match s.mem.next req with
    | .unconnected => s.crash
    | .null => s.goto (.doWrite req curTail)
    | .to next =>
      if s.mem.data req = [] then (s.withMem (s.mem.giveBack req)).goto (.doWrite next curTail)
      else s.goto (.doWrite req curTail)
  | .doWrite req curTail, choice =>
    match collect s.mem.next DATA_LIST_MAX (.to req), choice with
    | none, _ => s.crash
    | some list, .wrote n =>
      if n ≤ (list.flatMap s.mem.data).length then
        (s.withMem (s.mem.consume list n)).goto (.keepRelease req curTail (n == 0))
      else none
    | some _, .again => s.goto (.keepRelease req curTail true)
    | some list, .fatal n e =>
      if n ≤ (list.flatMap s.mem.data).length then (s.withMem (s.mem.consume list n)).goto (failWrite req e)
      else none
    | some _, _ => none
  | .keepRelease req curTail wait, _ =>
    match s.mem.next req with
    | .unconnected => s.crash
    | .null => s.goto (keepReleased req curTail wait)
    | .to next =>
      if s.mem.data req = [] then (s.withMem (s.mem.giveBack req)).goto (.keepRelease next curTail wait)
      else s.goto (keepReleased req curTail wait)
  -- `WaitForWritable` returns, or `butex_wait` fails
  | .keepWait req curTail, .ok => s.goto (.keepWaited req curTail)
  | .keepWait req curTail, .error e => s.goto (.setFailed (if e = 0 then EIO else e) (.waited req curTail))
  | .keepWaited req curTail, _ =>
    if s.stop then s.goto (failWrite req ECANCELED) else s.goto (keepComplete req curTail)
  | .keepTail req cur, _ =>
    match s.mem.next cur with
    | .unconnected => s.crash
    | .null => s.goto (.isWriteComplete (.keepWrite req cur))
    | .to next => s.goto (.keepTail req next)
  | _, _ => none

/-- `ReleaseAllFailedWriteRequests` and `IsWriteComplete`. -/
def completeStep (s : WriteState) : Pc → Choice → Option (WriteState × List Pc)
  | .drain req recycler, _ =>
    match s.mem.next req with
    | .unconnected => s.crash
    | .to next => (s.withMem ((s.mem.clear req).giveBack req)).goto (.drain next recycler)
    | .null => (s.withMem (s.mem.clear req)).goto (.isWriteComplete (.drain req recycler))
  | .isWriteComplete c, _ =>
    if s.mem.next c.oldHead ≠ .null then s.crash
    else if s.mem.head = some c.oldHead then
      if s.mem.data c.oldHead = [] ∧ c.singularNode then (s.withMem { s.mem with head := none }).goto (.finish c)
      else s.goto (c.incomplete c.oldHead)
    else
      match s.mem.head with
      | some newHead => s.goto (.reverse c newHead newHead none)
      | none => s.crash
  | .reverse c newHead p tail, _ =>
    match s.mem.next p with
    | .unconnected => none
    | .null => s.crash
    | .to saved =>
      (s.withMem (s.mem.setNext p (linkOf tail))).goto
        (if saved = c.oldHead then .link c newHead p else .reverse c newHead saved (some p))
  | .link c newHead tail, _ =>
    (s.withMem (s.mem.setNext c.oldHead (.to tail))).goto (c.incomplete newHead)
  -- `ReturnSuccessfulWriteRequest` and `ReturnFailedWriteRequest`
  | .finish (.startWrite req), _ =>
    if s.mem.data req = [] then (s.withMem (s.mem.giveBack req)).exit else s.crash
  | .finish (.keepWrite req _), _ =>
    if s.mem.data req = [] then (s.withMem (s.mem.giveBack req)).exit else s.crash
  | .finish (.drain req recycler), _ =>
    some (s.withMem ((s.mem.clear req).giveBack req), if recycler then [.checkHead] else [])
  | _, _ => none

def handshakeStep (s : WriteState) : Pc → Choice → Option (WriteState × List Pc)
  | .clientEvent, _ => { s with registered := false }.goto .clientConnected
  | .clientConnected, .ok => s.goto .clientHandshake
  | .clientConnected, .error e => s.goto (.failPending e)
  | .clientHandshake, .ok => if s.failed then s.goto (.failPending s.error) else s.goto .storeHandshake
  | .clientHandshake, .error e => s.goto (.failPending (if s.failed then s.error else e))
  | .storeHandshake, _ => { s with handshakeOk := true }.goto .takePending
  | .takePending, _ =>
    match s.pending with
    | some req => { s with pending := none }.goto (.startKeepWrite req)
    | none => s.exit
  | .serverHandshake, .ok =>
    if s.failed then s.goto (.setFailed EIO .exit) else s.goto .storeServerHandshake
  | .serverHandshake, .error e => s.goto (.setFailed (if e = 0 then EIO else e) .exit)
  | .storeServerHandshake, _ => { s with handshakeOk := true }.exit
  | _, _ => none

/-- `BeforeRecycled`, around its drain. -/
def recycleStep (s : WriteState) : Pc → Choice → Option (WriteState × List Pc)
  | .beforeRecycled, _ =>
    match s.pending with
    | some req => { s with pending := none }.goto (.drain req true)
    | none => s.goto .checkHead
  | .checkHead, _ => if s.mem.head = none then s.exit else s.crash
  | _, _ => none

/-- One step of a thread at `pc`: the state it leaves, and where the thread is then. -/
def Pc.step (s : WriteState) (pc : Pc) (choice : Choice) : Option (WriteState × List Pc) :=
  match pc with
  | .setFailed .. | .storeError .. | .storeStop .. | .unregister .. => setFailedStep s pc choice
  | .keepStop .. | .keepSkip .. | .doWrite .. | .keepRelease .. | .keepWait .. | .keepWaited ..
  | .keepTail .. => keepWriteStep s pc choice
  | .drain .. | .isWriteComplete .. | .reverse .. | .link .. | .finish .. => completeStep s pc choice
  | .clientEvent | .clientConnected | .clientHandshake | .storeHandshake | .takePending | .serverHandshake
  | .storeServerHandshake => handshakeStep s pc choice
  | .beforeRecycled | .checkHead => recycleStep s pc choice
  | _ => startWriteStep s pc choice

inductive WriteAct where
  | startWrite (data : Bytes)
  | setFailed (error : Nat)
  /-- The connecting socket becomes ready. -/
  | clientEvent
  /-- A server handshake worker starts. -/
  | serverHandshake
  /-- The last reference is released. -/
  | recycle
  /-- Another user of the object pool writes to an object it holds. -/
  | scribble (a : Addr) (l : Link Addr) (data : Bytes)
  | step (pc : Pc) (choice : Choice)

def WriteState.spawn (s : WriteState) (pc : Pc) : WriteState := { s with threads := pc ::ₘ s.threads }

def WriteState.next (s : WriteState) : WriteAct → Option WriteState
  | .startWrite data => if s.recycled then none else some (s.spawn (.start data))
  | .setFailed e => if s.recycled then none else some (s.spawn (.setFailed (if e = 0 then EIO else e) .exit))
  | .clientEvent =>
    if s.recycled ∨ s.failed ∨ ¬ s.registered then none else some (s.spawn .clientEvent)
  | .serverHandshake => if s.recycled ∨ s.failed then none else some (s.spawn .serverHandshake)
  | .recycle =>
    if s.failed ∧ s.threads = 0 ∧ ¬ s.recycled then
      some { s with recycled := true, threads := {.beforeRecycled} }
    else none
  | .scribble a l data => if s.mem.inUse a then none else some (s.withMem (s.mem.scribble a l data))
  | .step pc choice =>
    if pc ∈ s.threads then
      (pc.step s choice).map fun r => { r.1 with threads := Threads.replace s.threads pc r.2 }
    else none

theorem WriteState.next_step {s s' : WriteState} {pc : Pc} {choice : Choice} (hn : s.next (.step pc choice) = some s') :
    pc ∈ s.threads ∧ ∃ r, pc.step s choice = some r ∧ s' = { r.1 with threads := Threads.replace s.threads pc r.2 } := by
  obtain ⟨hmem, hn⟩ := Option.ite_none_right_eq_some.mp hn
  obtain ⟨r, hstep, rfl⟩ := Option.map_eq_some_iff.mp hn
  exact ⟨hmem, r, hstep, rfl⟩

/-- An empty pool and an empty queue. -/
def emptyMem : Mem Addr UInt8 where
  head := none
  next := fun _ => .unconnected
  data := fun _ => []
  inUse := fun _ => false
  ticket := fun _ => 0
  pubs := []
  returned := []
  consumed := []
  dropped := false

/-- A created endpoint, with its connection up or not. -/
def WriteState.created (handshakeOk : Bool) : WriteState :=
  ⟨emptyMem, handshakeOk, none, false, 0, false, false, false, false, 0⟩

def writeMachine (handshakeOk : Bool) : Machine WriteState WriteAct where
  init := fun s => s = .created handshakeOk
  next := WriteState.next

end LightRpc

import LightRpc.Lib.Machine

/- Large transfers, from the sender's side: admission (`WaitForLargeWritable`,
   `CanStartLargeTransfer`, `StartLargeTransfer`), the stored frame, the MSG_AUTHORITY
   branch of the two handlers and the `data_send_cq_` case of `PollCq` with
   `OnLargeTransferComplete`.

   The state is that of one endpoint. A client waits for admission and then stores its
   frame, a server stores first; otherwise the two paths are the same code, so the
   machine has the role as a parameter. Callers of other endpoints of a server share
   `large_mutex_` and `large_cv_`: all they can do to this endpoint is to delay a caller,
   which every interleaving does, and to wake one that then finds its predicate false
   (`wake`, which also stands for a spurious wake-up).

   The threads are anonymous. A step is one access to shared state: the evaluation of the
   predicate under the mutex, the release of the mutex together with the parking, the
   decrement of the counter, the notification. The environment chooses which large
   messages are sent under which `rpc_id` (a server's are its peer's), which AUTHORITY
   frames arrive, the results of `StartWrite` and of the post, and the order in which
   writes complete. What an AUTHORITY frame says about the remote region plays no role
   here; a call that times out changes nothing here either (`await`). -/
namespace LightRpc.LargeSend

open Lib

def kMaxLargeTransfers : Int := 8

def kDataQpDepth : Nat := 8

inductive Role where
  | client
  | server
  deriving DecidableEq, Repr

/-- One large message: the `rpc_id` it is stored under, and a number of its own. -/
structure Transfer where
  rpcId : Nat
  serial : Nat
  deriving DecidableEq, Repr

/-- Where a thread is. -/
inductive Pc where
  /-- About to lock `large_mutex_` in `WaitForLargeWritable`, at first or after a wake-up. -/
  | lock (t : Transfer)
  /-- Holding the mutex, about to evaluate the predicate. -/
  | check (t : Transfer)
  /-- The predicate was false: about to release the mutex and park, atomically. -/
  | park (t : Transfer)
  | parked (t : Transfer)
  /-- The predicate was true. -/
  | admitted (t : Transfer)
  | start (t : Transfer)
  | store (t : Transfer)
  /-- About to hand the NOTIFY frame to `StartWrite`. -/
  | notify (t : Transfer)
  /-- A call waiting for its response or its timeout. -/
  | await (t : Transfer)
  /-- A MSG_AUTHORITY handler with the pointer `GetLargeFrame` returned. -/
  | cutSeg (t : Transfer)
  /-- `ReleaseLargeFrame`, from `PollCq` (`polling`) or from a handler whose post failed. -/
  | release (t : Transfer) (polling : Bool)
  /-- `OnLargeTransferComplete`: the decrement. -/
  | complete (t : Transfer) (polling : Bool)
  /-- `OnLargeTransferComplete`: the callback, `large_cv_.notify_all()`. -/
  | largeDone (t : Transfer) (polling : Bool)
  /-- The failure handler: `OnEndpointFailed` up to its notification, or `NotifyEndpointFailed`. -/
  | endpointFailed
  /-- `large_cv_.notify_all()` after `closed_` was set. -/
  | notifyAll
  deriving DecidableEq, Repr

/-- The thread is `PollCq` in the middle of a completion. -/
def Pc.polling : Pc → Bool
  | .release _ p | .complete _ p | .largeDone _ p => p
  | _ => false

/-- What `notify_all` does to a thread. -/
def Pc.awake : Pc → Pc
  | .parked t => .lock t
  | pc => pc

structure SendState where
  /-- `active_large_transfers_` -/
  active : Int
  /-- `large_mutex_` is held. -/
  locked : Bool
  closed : Bool
  failed : Bool
  /-- `pending_large_frames_`: at most one frame for an `rpc_id`. -/
  pendingLargeFrames : List Transfer
  threads : Multiset Pc
  /-- NOTIFY frames handed to `StartWrite` that no AUTHORITY has answered. -/
  notified : List Transfer
  /-- RDMA writes posted on the data QP whose completion was not polled, by the frame they
      send from. The `wr_id` is the frame's `rpc_id`. -/
  writes : Multiset Transfer
  /-- The number of the next message. -/
  serial : Nat
  /-- The decrements made so far, by the transfer they were made for. -/
  completed : Multiset Transfer

def SendState.canStartLargeTransfer (s : SendState) : Bool := s.active < kMaxLargeTransfers

/-- The caller gives up: `closed_`, and for a server also `ep->Failed()`. -/
def SendState.refuses (r : Role) (s : SendState) : Bool := s.closed || (r == .server && s.failed)

def SendState.getLargeFrame (s : SendState) (rpcId : Nat) : Option Transfer :=
  s.pendingLargeFrames.find? (·.rpcId = rpcId)

def SendState.storeLargeFrame (s : SendState) (t : Transfer) : SendState :=
  { s with pendingLargeFrames := t :: s.pendingLargeFrames.filter (·.rpcId ≠ t.rpcId) }

def SendState.releaseLargeFrame (s : SendState) (rpcId : Nat) : SendState :=
  { s with pendingLargeFrames := s.pendingLargeFrames.filter (·.rpcId ≠ rpcId) }

def SendState.notifyAll (s : SendState) : SendState := { s with threads := s.threads.map Pc.awake }

/-- `SetFailed`; the first call runs the failure handler. -/
def SendState.setFailed (s : SendState) : SendState :=
  if s.failed then s else { s with failed := true, threads := .endpointFailed ::ₘ s.threads }

/-- The thread at `pc` goes on to `pcs`. -/
def SendState.move (s : SendState) (pc : Pc) (pcs : List Pc) : SendState :=
  { s with threads := Threads.replace s.threads pc pcs }

section
variable (s : SendState) (pc : Pc) (pcs : List Pc) (r : Role)

@[simp] theorem SendState.move_active : (s.move pc pcs).active = s.active := rfl
@[simp] theorem SendState.move_locked : (s.move pc pcs).locked = s.locked := rfl
@[simp] theorem SendState.move_failed : (s.move pc pcs).failed = s.failed := rfl
@[simp] theorem SendState.move_refuses : (s.move pc pcs).refuses r = s.refuses r := rfl
@[simp] theorem SendState.move_threads : (s.move pc pcs).threads = Threads.replace s.threads pc pcs := rfl

end

/-- A client is admitted before it stores its frame, a server afterwards. -/
def Role.begin : Role → Transfer → Pc
  | client, t => .lock t
  | server, t => .store t

def Role.afterStart : Role → Transfer → Pc
  | client, t => .store t
  | server, t => .notify t

def Role.afterStore : Role → Transfer → Pc
  | client, t => .notify t
  | server, t => .lock t

/-- A call waits, `ReturnRPCResponse` returns. -/
def Role.afterNotify : Role → Transfer → List Pc
  | client, t => [.await t]
  | server, _ => []

/-- A step of the thread at `pc`; `ok` is the result of what it calls. -/
def SendState.step (r : Role) (s : SendState) (ok : Bool) : Pc → Option SendState
  | .lock t => if s.locked then none else some ({ s with locked := true }.move (.lock t) [.check t])
  | .check t =>
    if s.canStartLargeTransfer || s.refuses r then some (s.move (.check t) [.admitted t])
    else some (s.move (.check t) [.park t])
  | .park t => some ({ s with locked := false }.move (.park t) [.parked t])
  | .parked _ => none
  | .admitted t =>
    if s.refuses r then some ({ s with locked := false }.move (.admitted t) [])
    else some (s.move (.admitted t) [.start t])
  | .start t => some ({ s with active := s.active + 1, locked := false }.move (.start t) [r.afterStart t])
  | .store t => some ((s.storeLargeFrame t).move (.store t) [r.afterStore t])
  | .notify t =>
    if ok && !s.failed then some ({ s with notified := t :: s.notified }.move (.notify t) (r.afterNotify t))
    -- only the client looks at the result
    else match r with
      | .client => some (s.setFailed.move (.notify t) (r.afterNotify t))
      | .server => some (s.move (.notify t) (r.afterNotify t))
  | .await t => some (s.move (.await t) [])
  | .cutSeg t =>
    -- the pointer leads to whatever is stored there now, or to freed memory
    if ok && !s.failed then
      some ({ s with writes := (s.getLargeFrame t.rpcId).getD t ::ₘ s.writes }.move (.cutSeg t) [])
    else some (s.move (.cutSeg t) [.release t false])
  | .release t p => some ((s.releaseLargeFrame t.rpcId).move (.release t p) [.complete t p])
  | .complete t p =>
    some ({ s with active := s.active - 1, completed := t ::ₘ s.completed }.move (.complete t p) [.largeDone t p])
  | .largeDone t p => some (s.move (.largeDone t p) []).notifyAll
  | .endpointFailed =>
    if s.locked then none
    else match r with
      | .client => some ({ s with closed := true }.move .endpointFailed [.notifyAll])
      | .server => some (s.move .endpointFailed []).notifyAll
  | .notifyAll => some (s.move .notifyAll []).notifyAll

inductive SendAct where
  /-- A message from the threshold on is sent under this `rpc_id`. -/
  | begin (rpcId : Nat)
  | step (pc : Pc) (ok : Bool)
  /-- A MSG_AUTHORITY frame reaches a handler, which calls `GetLargeFrame`. -/
  | authority (rpcId : Nat)
  /-- `PollCq` takes the completion of a write. -/
  | poll (t : Transfer)
  | wake (t : Transfer)
  | setFailed
  /-- `FastServer::Close`. -/
  | close
  deriving DecidableEq, Repr

def SendState.next (r : Role) (s : SendState) : SendAct → Option SendState
  | .begin rpcId =>
    if r = .server ∧ s.failed then some s
    else some { s with threads := r.begin ⟨rpcId, s.serial⟩ ::ₘ s.threads, serial := s.serial + 1 }
  | .step pc ok => if pc ∈ s.threads then s.step r ok pc else none
  | .authority rpcId =>
    if r = .server ∧ s.failed then some { s with notified := s.notified.filter (·.rpcId ≠ rpcId) }
    else match s.getLargeFrame rpcId with
      | none => some { s with notified := s.notified.filter (·.rpcId ≠ rpcId) }
      | some t => some { s with
          notified := s.notified.filter (·.rpcId ≠ rpcId), threads := .cutSeg t ::ₘ s.threads }
  | .poll t =>
    if t ∈ s.writes ∧ ∀ pc ∈ s.threads, pc.polling = false then
      some { s with writes := s.writes.erase t, threads := .release t true ::ₘ s.threads }
    else none
  | .wake t => if .parked t ∈ s.threads then some (s.move (.parked t) [.lock t]) else none
  | .setFailed => some s.setFailed
  | .close =>
    if r = .server ∧ s.locked = false then
      some { s with closed := true, threads := .notifyAll ::ₘ s.threads }
    else none

def SendState.connected : SendState := ⟨0, false, false, false, [], 0, [], 0, 0, 0⟩

def sendMachine (r : Role) : Machine SendState SendAct where
  init := fun s => s = .connected
  next := SendState.next r

end LightRpc.LargeSend

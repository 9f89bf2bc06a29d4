import LightRpc.Lib.Machine

/- Completion queues and their poller (`fast_rdma_endpoint.cc`: `OnCompChannelEvent`,
   `AddReadEvent`, `PollCq`, `GetAndAckEvents`, `MoreReadEvents`, the arming at the end of
   `AllocateResources` and the acknowledgements of `DeallocateResources`).

   Four queues report to one completion channel. A queue is armed for one event; the
   completion that fires it puts the queue on the channel and the channel on the ready
   list of the dispatcher's epoll, which is edge triggered: `epoll_wait` takes the
   channel off the list, calls `OnCompChannelEvent`, and only a further event puts it
   back. A notification whose events are gone by then may also be dropped.

   `OnCompChannelEvent` counts itself in `_nevent`, and the callback that finds 0 there
   starts `PollCq`. The poller drains the channel, scans the queues until all are empty,
   arms them, scans once more, and gives the count back only if nobody has counted
   since the last drain.

   Threads are anonymous program counters; a step is one access to what others can see.
   `_nevent` and `progress` are 32-bit, so counting is modulo 2^32. -/
namespace LightRpc.CompletionQueues

open Lib

inductive Cq where
  | recv
  | dataRecv
  | send
  | dataSend
  deriving DecidableEq, Repr

/-- `phase`, by the queue it polls. -/
def Cq.phase : Cq → Nat
  | .recv => 0
  | .dataRecv => 1
  | .send => 2
  | .dataSend => 3

/-- `cqs[phase + 1]`. -/
def Cq.next : Cq → Option Cq
  | .recv => some .dataRecv
  | .dataRecv => some .send
  | .send => some .dataSend
  | .dataSend => none

/-- `solicited_only`. -/
def Cq.solicitedOnly : Cq → Bool
  | .recv | .dataRecv => true
  | .send | .dataSend => false

structure Completion where
  solicited : Bool
  success : Bool
  deriving DecidableEq, Repr

/-- Whether a completion fires an arm: none, for solicited completions and errors, for any. -/
def fires : Option Bool → Completion → Bool
  | none, _ => false
  | some true, c => c.solicited || !c.success
  | some false, _ => true

/-- The queues and their channel. -/
structure Cqs where
  entries : Cq → List Completion
  armed : Cq → Option Bool
  channel : List Cq
  /-- `send_cq_events` and its like: events taken from the channel and not acknowledged. -/
  events : Cq → Nat
  acked : Cq → Nat
  /-- How many events there have been. -/
  fired : Cq → Nat

namespace Cqs

def enqueue (q : Cqs) (cq : Cq) (c : Completion) : Cqs :=
  { q with entries := Function.update q.entries cq (q.entries cq ++ [c]) }

/-- The one event of an arm. -/
def fire (q : Cqs) (cq : Cq) : Cqs :=
  { q with
    armed := Function.update q.armed cq none
    channel := q.channel ++ [cq]
    fired := Function.update q.fired cq (q.fired cq + 1) }

/-- A completion arrives. -/
def complete (q : Cqs) (cq : Cq) (c : Completion) : Cqs :=
  if fires (q.armed cq) c then (q.enqueue cq c).fire cq else q.enqueue cq c

/-- `ibv_req_notify_cq`; an arm for any completion is not narrowed. -/
def reqNotify (q : Cqs) (cq : Cq) (solicitedOnly : Bool) : Cqs :=
  { q with armed := Function.update q.armed cq (some (solicitedOnly && q.armed cq != some false)) }

/-- `ibv_get_cq_event` has returned an event of `cq`. -/
def getEvent (q : Cqs) (cq : Cq) (rest : List Cq) : Cqs :=
  { q with channel := rest, events := Function.update q.events cq (q.events cq + 1) }

end Cqs

def MAX_CQ_EVENTS : Nat := 128

/-- The end of `GetAndAckEvents`. -/
def Cqs.ackEvents (q : Cqs) : Cqs :=
  { q with
    acked := fun cq => if MAX_CQ_EVENTS ≤ q.events cq then q.acked cq + q.events cq else q.acked cq
    events := fun cq => if MAX_CQ_EVENTS ≤ q.events cq then 0 else q.events cq }

/-- `ack_cq_events` -/
def Cqs.ackCqEvents (q : Cqs) (cq : Cq) : Cqs :=
  { q with
    acked := Function.update q.acked cq (q.acked cq + q.events cq)
    events := Function.update q.events cq 0 }

/-- The acknowledgements of `DeallocateResources`, when all threads have left. -/
def Cqs.deallocateResources (q : Cqs) : Cqs := [Cq.send, Cq.recv, Cq.dataSend, Cq.dataRecv].foldl ackCqEvents q

def PROGRESS_INIT : Nat := 1

inductive Pc where
  -- `OnCompChannelEvent` and `AddReadEvent`
  | onCompChannelEvent
  | addReadEvent
  | fetchAdd
  | startPollCq
  -- `PollCq`
  | pollCq
  | getAndAckEvents (progress : Nat)
  | loop (phase : Cq) (notified : Bool) (progress : Nat)
  | poll (phase : Cq) (notified : Bool) (progress : Nat)
  | handle (phase : Cq) (progress : Nat) (wc : List Completion)
  | reqNotify (cq : Cq) (progress : Nat)
  | moreReadEvents (progress : Nat)
  deriving DecidableEq, Repr

structure PollState where
  cqs : Cqs
  /-- The channel is on the dispatcher's ready list. -/
  ready : Bool
  nevent : Nat
  failed : Bool
  stop : Bool
  threads : Multiset Pc

namespace PollState

def goto (s : PollState) (pc : Pc) : Option (PollState × List Pc) := some (s, [pc])

def exit (s : PollState) : Option (PollState × List Pc) := some (s, [])

/-- `SetFailed`, and return. -/
def fail (s : PollState) : Option (PollState × List Pc) := some ({ s with failed := true }, [])

def withCqs (s : PollState) (q : Cqs) : PollState := { s with cqs := q }

end PollState

/-- `OnCompChannelEvent`; `ok` says whether the call at this point succeeds. -/
def callbackStep (s : PollState) : Pc → Bool → Option (PollState × List Pc)
  | .onCompChannelEvent, _ => if s.failed then s.exit else s.goto .addReadEvent
  | .addReadEvent, _ => if s.stop then s.exit else s.goto .fetchAdd
  | .fetchAdd, _ =>
    some ({ s with nevent := (s.nevent + 1) % 2 ^ 32 }, if s.nevent = 0 then [.startPollCq] else [])
  | .startPollCq, true => s.goto .pollCq
  | .startPollCq, false => s.fail
  | _, _ => none

/-- After the arming of `cq`. -/
def afterArm (cq : Cq) (progress : Nat) : Pc :=
  match cq.next with
  | some cq' => .reqNotify cq' progress
  | none => .loop .recv true progress

/-- After `ibv_poll_cq` found `cqs[phase]` empty. -/
def drained (phase : Cq) (notified : Bool) (progress : Nat) : Pc :=
  match phase.next with
  | some phase' => .loop phase' notified progress
  | none => if notified then .moreReadEvents progress else .reqNotify .recv progress

def pollStep (s : PollState) : Pc → Bool → Option (PollState × List Pc)
  | .pollCq, _ => if s.stop then s.exit else s.goto (.getAndAckEvents PROGRESS_INIT)
  | .getAndAckEvents progress, true =>
    match s.cqs.channel with
    | cq :: rest => (s.withCqs (s.cqs.getEvent cq rest)).goto (.getAndAckEvents progress)
    | [] => (s.withCqs s.cqs.ackEvents).goto (.loop .recv false progress)
  | .loop phase notified progress, _ => if s.stop then s.exit else s.goto (.poll phase notified progress)
  | .poll phase notified progress, true =>
    match s.cqs.entries phase with
    | [] => s.goto (drained phase notified progress)
    | wc =>
      (s.withCqs { s.cqs with entries := Function.update s.cqs.entries phase (wc.drop 32) }).goto
        (.handle phase progress (wc.take 32))
  | .handle phase progress wc, true =>
    if wc.all (·.success) then s.goto (.loop phase false progress) else s.fail
  | .reqNotify cq progress, true =>
    (s.withCqs (s.cqs.reqNotify cq cq.solicitedOnly)).goto (afterArm cq progress)
  | .moreReadEvents progress, _ =>
    if s.nevent = progress then { s with nevent := 0 }.exit else s.goto (.getAndAckEvents s.nevent)
  | .getAndAckEvents _, false | .poll .., false | .handle .., false | .reqNotify .., false => s.fail
  | _, _ => none

def Pc.step (s : PollState) (pc : Pc) (ok : Bool) : Option (PollState × List Pc) :=
  match pc with
  | .onCompChannelEvent | .addReadEvent | .fetchAdd | .startPollCq => callbackStep s pc ok
  | _ => pollStep s pc ok

inductive PollAct where
  | complete (cq : Cq) (c : Completion)
  /-- `epoll_wait` returns the channel. -/
  | epollWait
  /-- `epoll_wait` finds the channel empty. -/
  | epollDrop
  /-- `SetFailed` from elsewhere, and its `OnFailed`. -/
  | setFailed
  | storeStop
  | step (pc : Pc) (ok : Bool)
  deriving DecidableEq, Repr

def PollState.next (s : PollState) : PollAct → Option PollState
  | .complete cq c =>
    some { s with cqs := s.cqs.complete cq c, ready := s.ready || fires (s.cqs.armed cq) c }
  | .epollWait =>
    if s.ready then some { s with ready := false, threads := .onCompChannelEvent ::ₘ s.threads } else none
  | .epollDrop => if s.ready ∧ s.cqs.channel = [] then some { s with ready := false } else none
  | .setFailed => some { s with failed := true }
  | .storeStop => if s.failed then some { s with stop := true } else none
  | .step pc ok =>
    if pc ∈ s.threads then
      (pc.step s ok).map fun r => { r.1 with threads := Threads.replace s.threads pc r.2 }
    else none

def Cqs.created : Cqs := ⟨fun _ => [], fun _ => none, [], fun _ => 0, fun _ => 0, fun _ => 0⟩

/-- The arming of `AllocateResources`, `i % 2` being the solicited flag. The queue pairs
    are in RESET until it is done, so nothing completes before. -/
def Cqs.allocated : Cqs :=
  [Cq.send, Cq.recv, Cq.dataSend, Cq.dataRecv].zipIdx.foldl (fun q p => q.reqNotify p.1 (p.2 % 2 == 1)) .created

def pollMachine : Machine PollState PollAct where
  init := fun s => s = ⟨.allocated, false, 0, false, false, 0⟩
  next := PollState.next

end LightRpc.CompletionQueues

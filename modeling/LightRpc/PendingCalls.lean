import LightRpc.ByteOrder
import LightRpc.Lib.Machine
import LightRpc.Lib.Locks

/- The calls of one channel and who settles them (`fast_channel.cc`): `CallMethod` from its
   registration to its clean-up, the MSG_NORMAL_RESPONSE branch of `OnProcessResponse`, and
   `OnEndpointFailed`.

   A `PendingRequest` lives on the stack of its `CallMethod`; three parties may settle it:
   the caller itself (a rejected registration, a timeout), a response handler, and the
   failure sweep. Two kinds of mutexes stand between them, `pending_mutex_` of the channel
   and the mutex of the request. A step is an acquisition, the part of a critical section
   up to the next write, or a write; the last write of a section releases its mutexes.

   Threads have identities, and a request is named by the thread of its call. The
   environment starts calls, delivers response frames with any content, runs
   `OnEndpointFailed` (as often as it likes, from any thread: `SetFailed` in `CallMethod`
   is one of its callers), and chooses the results of `Address`, `WaitForLargeWritable`
   and `StartWrite` and when a wait times out. Waking up is not modelled: a waiting call
   looks at `done` again and again.

   `log` records every write to a request and who made it. -/
namespace LightRpc.Pending

open Lib

def EIO : Int := 5

def ERR_SUCCESS : Nat := 0
def ERR_UNKNOWN_SERVICE : Nat := 1
def ERR_UNKNOWN_METHOD : Nat := 2
def ERR_BAD_REQUEST : Nat := 3
def ERR_BAD_RESPONSE : Nat := 4
def ERR_INTERNAL : Nat := 5

/-- What a `PendingRequest` says about how the call ended. `response` are the bytes the
    response message was parsed from. -/
structure Outcome where
  transportError : Int
  timedOut : Bool
  errorCode : Nat
  response : Option Bytes
  attachment : Bytes
  deriving DecidableEq, Repr

def Outcome.initial : Outcome := ⟨0, false, 0, none, []⟩

structure Request where
  done : Bool
  outcome : Outcome
  deriving DecidableEq, Repr

/-- A response frame behind its message type: `body` is what follows the header,
    `parses` the result of `ParseFromZeroCopyStream` on the payload. -/
structure Response where
  rpcId : Nat
  errorCode : Nat
  attachmentSize : Nat
  body : Bytes
  parses : Bool
  deriving DecidableEq, Repr

/-- What a response frame makes of the request it is for. -/
def Response.apply (f : Response) (o : Outcome) : Outcome :=
  if f.body.length < f.attachmentSize then { o with errorCode := ERR_BAD_RESPONSE }
  else if f.errorCode ≠ ERR_SUCCESS then { o with errorCode := f.errorCode }
  else
    let payloadLen := f.body.length - f.attachmentSize
    let o := { o with response := some (f.body.take payloadLen) }
    if f.parses then
      if 0 < f.attachmentSize then { o with attachment := o.attachment ++ f.body.drop payloadLen } else o
    else { o with errorCode := ERR_BAD_RESPONSE }

/-- What the controller is told: nothing, a text, or the text `strerror` has for an error. -/
inductive Report where
  | success
  | setFailed (text : String)
  | strerror (error : Int)
  deriving DecidableEq, Repr

def errorText (errorCode : Nat) : String :=
  if errorCode = ERR_UNKNOWN_SERVICE then "Server: unknown service"
  else if errorCode = ERR_UNKNOWN_METHOD then "Server: unknown method"
  else if errorCode = ERR_BAD_REQUEST then "Server: bad request"
  else if errorCode = ERR_BAD_RESPONSE then "Client: response parse error"
  else if errorCode = ERR_INTERNAL then "Server: internal error"
  else "Unknown error"

/-- The report on a request that is done and was not timed out by its own call. -/
def Outcome.report (o : Outcome) : Report :=
  if o.transportError ≠ 0 then .strerror o.transportError
  else if o.errorCode ≠ ERR_SUCCESS then .setFailed (errorText o.errorCode)
  else .success

inductive Lock where
  /-- `pending_mutex_` -/
  | pending
  /-- The mutex of a request. -/
  | request (k : Nat)
  deriving DecidableEq, Repr

/-- Where a thread is. -/
inductive Pc where
  -- `CallMethod`
  | address (large : Bool)
  | fetchRpcId (large : Bool)
  /-- Entering `RegisterPending`. -/
  | lockRegister (large : Bool) (rpcId : Nat)
  | register (large : Bool) (rpcId : Nat)
  /-- Rejected: `transport_error` is written. -/
  | reject (rpcId : Nat)
  | waitLarge (rpcId : Nat)
  | startWrite (large : Bool) (rpcId : Nat)
  /-- In `wait_for`, about to lock the request. -/
  | lockRequest (rpcId : Nat)
  | checkDone (rpcId : Nat)
  /-- `timed_out` is written. -/
  | timeoutDone (rpcId : Nat)
  | report (rpcId : Nat)
  | lockErase (rpcId : Nat) (rep : Report)
  | erase (rpcId : Nat) (rep : Report)
  | returned (rep : Report)
  -- `OnProcessResponse`
  | lockPending (f : Response)
  | find (f : Response)
  | lockFound (f : Response) (k : Nat)
  | checkFound (f : Response) (k : Nat)
  /-- The outcome is written. -/
  | respondDone (f : Response) (k : Nat)
  -- `OnEndpointFailed`
  | lockFailed (error : Int)
  | setError (error : Int)
  /-- In the loop over `pending_map_`, with these requests to go. -/
  | sweep (rest : List Nat)
  | sweepCheck (k : Nat) (rest : List Nat)
  /-- `transport_error` is written. -/
  | sweepDone (k : Nat) (rest : List Nat)
  | ended
  deriving DecidableEq, Repr

inductive Party where
  | caller
  /-- A handler of a response frame with this `rpc_id`. -/
  | response (rpcId : Nat)
  | failure
  deriving DecidableEq, Repr

inductive Event where
  /-- The thread `t` gave the request `k` this outcome. -/
  | wrote (k t : Nat) (p : Party) (o : Outcome)
  /-- The thread `t` set `done`. -/
  | finished (k t : Nat)
  | registered (rpcId k : Nat)
  | rejected (k : Nat) (error : Int)
  /-- A call of `OnEndpointFailed` is through with the requests. -/
  | swept
  deriving DecidableEq, Repr

structure ChannelState where
  threads : List Pc
  owner : Lock → Option Nat
  connectionError : Int
  /-- `pending_map_`: from `rpc_id` to request, at most one entry for an `rpc_id`. -/
  pendingMap : List (Nat × Nat)
  /-- The calls that have taken an `rpc_id`, in this order. -/
  issued : List Nat
  requests : Nat → Request
  log : List Event

/-- `rpc_id_`, which starts at 1. -/
def ChannelState.rpcId (s : ChannelState) : Nat := (1 + s.issued.length) % 2 ^ 32

def ChannelState.goto (s : ChannelState) (t : Nat) (pc : Pc) : ChannelState :=
  { s with threads := s.threads.set t pc }

def ChannelState.lock (s : ChannelState) (t : Nat) (l : Lock) (pc : Pc) : Option ChannelState :=
  if s.owner l = none then some ({ s with owner := Function.update s.owner l (some t) }.goto t pc) else none

def ChannelState.unlock (s : ChannelState) (l : Lock) : ChannelState :=
  { s with owner := Function.update s.owner l none }

def ChannelState.note (s : ChannelState) (e : Event) : ChannelState := { s with log := s.log ++ [e] }

/-- The thread `t` writes to the outcome of `k`. -/
def ChannelState.write (s : ChannelState) (t k : Nat) (p : Party) (o : Outcome) : ChannelState :=
  { s.note (.wrote k t p o) with
    requests := Function.update s.requests k { s.requests k with outcome := o } }

/-- The thread `t` sets `done` of `k`. -/
def ChannelState.finish (s : ChannelState) (t k : Nat) : ChannelState :=
  { s.note (.finished k t) with
    requests := Function.update s.requests k { s.requests k with done := true } }

def ChannelState.outcome (s : ChannelState) (k : Nat) : Outcome := (s.requests k).outcome

def ChannelState.done (s : ChannelState) (k : Nat) : Bool := (s.requests k).done

/-- `pending_map_[rpc_id] = request` -/
def ChannelState.insert (s : ChannelState) (rpcId k : Nat) : ChannelState :=
  { s.note (.registered rpcId k) with pendingMap := (rpcId, k) :: s.pendingMap.filter (·.1 ≠ rpcId) }

/-- `pending_map_.erase(rpc_id)` -/
def ChannelState.eraseId (s : ChannelState) (rpcId : Nat) : ChannelState :=
  { s with pendingMap := s.pendingMap.filter (·.1 ≠ rpcId) }

def ChannelState.lookup (s : ChannelState) (rpcId : Nat) : Option Nat :=
  (s.pendingMap.find? (·.1 = rpcId)).map Prod.snd

/-- A step of the thread `t` at `pc`; `ok` is the result of what it calls, or that its wait
    timed out. -/
def ChannelState.step (s : ChannelState) (t : Nat) (ok : Bool) : Pc → Option ChannelState
  | .address large =>
    if ok then some (s.goto t (.fetchRpcId large)) else some (s.goto t (.returned (.setFailed "Channel closed")))
  | .fetchRpcId large => some ({ s with issued := s.issued ++ [t] }.goto t (.lockRegister large s.rpcId))
  | .lockRegister large rpcId => s.lock t .pending (.register large rpcId)
  | .register large rpcId =>
    if s.connectionError ≠ 0 then
      some (((s.write t t .caller { s.outcome t with transportError := s.connectionError }).note
        (.rejected t s.connectionError)).goto t (.reject rpcId))
    else
      some (((s.insert rpcId t).unlock .pending).goto t (if large then .waitLarge rpcId else .startWrite false rpcId))
  | .reject _ =>
    some (((s.finish t t).unlock .pending).goto t (.returned (.strerror (s.outcome t).transportError)))
  | .waitLarge rpcId =>
    if ok then some (s.goto t (.startWrite true rpcId))
    else some (s.goto t (.lockErase rpcId (.setFailed "Connection failed")))
  | .startWrite large rpcId =>
    -- a large call that cannot send its NOTIFY fails the endpoint and waits all the same
    if ok || large then some (s.goto t (.lockRequest rpcId))
    else some (s.goto t (.lockErase rpcId (.setFailed "StartWrite failed")))
  | .lockRequest rpcId => s.lock t (.request t) (.checkDone rpcId)
  | .checkDone rpcId =>
    if s.done t then some ((s.unlock (.request t)).goto t (.report rpcId))
    else if ok then
      some ((s.write t t .caller { s.outcome t with timedOut := true }).goto t (.timeoutDone rpcId))
    else some ((s.unlock (.request t)).goto t (.lockRequest rpcId))
  | .timeoutDone rpcId =>
    some (((s.finish t t).unlock (.request t)).goto t (.lockErase rpcId (.setFailed "RPC timeout")))
  | .report rpcId => some (s.goto t (.lockErase rpcId (s.outcome t).report))
  | .lockErase rpcId rep => s.lock t .pending (.erase rpcId rep)
  | .erase rpcId rep => some (((s.eraseId rpcId).unlock .pending).goto t (.returned rep))
  | .returned _ => none
  | .lockPending f => s.lock t .pending (.find f)
  | .find f =>
    match s.lookup f.rpcId with
    | none => some ((s.unlock .pending).goto t .ended)
    | some k => some (s.goto t (.lockFound f k))
  | .lockFound f k => s.lock t (.request k) (.checkFound f k)
  | .checkFound f k =>
    if s.done k then some (((s.unlock (.request k)).unlock .pending).goto t .ended)
    else some ((s.write t k (.response f.rpcId) (f.apply (s.outcome k))).goto t (.respondDone f k))
  | .respondDone _ k => some ((((s.finish t k).unlock (.request k)).unlock .pending).goto t .ended)
  | .lockFailed error => s.lock t .pending (.setError error)
  | .setError error =>
    some ({ s with connectionError := if s.connectionError = 0 then error else s.connectionError }.goto t
      (.sweep (s.pendingMap.map Prod.snd)))
  | .sweep [] => some (((s.note .swept).unlock .pending).goto t .ended)
  | .sweep (k :: rest) => s.lock t (.request k) (.sweepCheck k rest)
  | .sweepCheck k rest =>
    if s.done k then some ((s.unlock (.request k)).goto t (.sweep rest))
    else
      some ((s.write t k .failure { s.outcome k with transportError := s.connectionError }).goto t (.sweepDone k rest))
  | .sweepDone k rest => some (((s.finish t k).unlock (.request k)).goto t (.sweep rest))
  | .ended => none

inductive ChannelAct where
  | callMethod (large : Bool)
  | onProcessResponse (f : Response)
  /-- `SetFailed(error)`, which turns 0 into `EIO`, calls `OnEndpointFailed`. -/
  | onEndpointFailed (error : Int)
  | step (t : Nat) (ok : Bool)
  deriving DecidableEq, Repr

def ChannelState.spawn (s : ChannelState) (pc : Pc) : ChannelState := { s with threads := s.threads ++ [pc] }

def ChannelState.next (s : ChannelState) : ChannelAct → Option ChannelState
  | .callMethod large => some (s.spawn (.address large))
  | .onProcessResponse f => some (s.spawn (.lockPending f))
  | .onEndpointFailed error => some (s.spawn (.lockFailed (if error = 0 then EIO else error)))
  | .step t ok => s.threads[t]?.bind (s.step t ok)

def ChannelState.created : ChannelState :=
  ⟨[], fun _ => none, 0, [], [], fun _ => ⟨false, .initial⟩, []⟩

def channelMachine : Machine ChannelState ChannelAct where
  init := fun s => s = .created
  next := ChannelState.next

end LightRpc.Pending

import LightRpc.Lib.Machine

/- The timer thread of the bthread library.

   `schedule` takes a task from the pool, puts it into a bucket under the bucket's mutex, and if
   it is the earliest of the bucket publishes its time in `_nearest_run_time` under the global
   mutex, which also counts `_nsignals` up. The timer thread resets `_nearest_run_time`, pulls
   the buckets into its heap, runs what is due and sleeps until the first task is. `unschedule`
   only changes the version of the task: the id's version while it waits, one more while it
   runs, two more when it is done or removed.

   A step of the model is one critical section, one access to a version, one look at the clock or
   one call of the resource pool. A task is the number of its slot, and what is known of it is read
   from `mem`. The heap is kept without its order: `tasks[0]` is some task with the least time.
   A futex wait may end at any time. Versions and `_nsignals` are natural numbers; with fewer than
   2^31 uses of a slot its 32-bit version does not come back to a value it had.

   `issued`, `started`, `unscheduled` and `returned` are a record of what happened. `stop_and_join`
   is left out. -/
namespace LightRpc.TimerThread

open Lib

/-- `std::numeric_limits<int64_t>::max()` -/
def MAX : Int := 2 ^ 63 - 1

structure Task where
  runTime : Int
  /-- The version in the id. -/
  taskId : Nat
  version : Nat
  deriving DecidableEq

/-- One use of a slot. -/
structure Job where
  slot : Nat
  version : Nat
  runTime : Int
  deriving DecidableEq

structure Bucket where
  nearestRunTime : Int
  /-- The list from `_task_head` on. -/
  tasks : List Nat

/-- Where a call of `schedule` is. -/
inductive Caller (n : Nat) where
  /-- The task is initialised, and not yet in the bucket. -/
  | insert (b : Fin n) (t : Nat)
  | publish (runTime : Int)
  | wake
  deriving DecidableEq

/-- Where `TimerThread::run` is. -/
inductive Pc (n : Nat) where
  | reset
  | pull (i : Nat)
  /-- `_task_head` of the bucket was not null. -/
  | take (i : Fin n)
  /-- Goes through the tasks of a bucket. -/
  | delete (i : Nat) (list : List Nat)
  | run
  /-- The task is due. -/
  | check (t : Nat)
  | start (t : Nat)
  | running (t : Nat)
  | finish (t : Nat)
  | sleep (nextRunTime : Int)
  | waiting (nextRunTime : Int) (expectedNsignals : Nat)
  deriving DecidableEq

structure Timer (n : Nat) where
  mem : Nat → Task
  /-- Slots that were returned to the pool. -/
  free : List Nat
  /-- The number of slots the pool has made. -/
  created : Nat
  buckets : Fin n → Bucket
  nearestRunTime : Int
  nsignals : Nat
  callers : Multiset (Caller n)
  pc : Pc n
  heap : List Nat
  now : Int
  /-- A CHECK failed, or the branch marked impossible was taken. -/
  crashed : Bool
  issued : List Job
  /-- With the time at which the function was called. -/
  started : List (Job × Int)
  /-- The ids for which `unschedule` returned 0. -/
  unscheduled : List (Nat × Nat)
  returned : List Job

namespace Timer

variable {n : Nat}

/-- What the slot is used for. -/
def job (s : Timer n) (t : Nat) : Job := ⟨t, (s.mem t).taskId, (s.mem t).runTime⟩

def setVersion (s : Timer n) (t version : Nat) : Timer n :=
  { s with mem := Function.update s.mem t { s.mem t with version := version } }

def goto (s : Timer n) (pc : Pc n) : Timer n := { s with pc := pc }

def returnResource (s : Timer n) (t : Nat) : Timer n :=
  { s with free := t :: s.free, returned := s.job t :: s.returned }

/-! `schedule` -/

/-- `get_resource` gives the slot `t`, a free one or a new one. -/
def schedule (s : Timer n) (b : Fin n) (t : Nat) (runTime : Int) : Timer n :=
  let version := if (s.mem t).version = 0 then 2 else (s.mem t).version
  { s with
    mem := Function.update s.mem t ⟨runTime, version, version⟩
    free := s.free.erase t
    created := if t = s.created then s.created + 1 else s.created
    callers := .insert b t ::ₘ s.callers
    issued := ⟨t, version, runTime⟩ :: s.issued }

/-- The critical section of `Bucket::schedule`. -/
def insert (s : Timer n) (b : Fin n) (t : Nat) : Timer n :=
  let runTime := (s.mem t).runTime
  let earlier := runTime < (s.buckets b).nearestRunTime
  { s with
    buckets := Function.update s.buckets b
      ⟨if earlier then runTime else (s.buckets b).nearestRunTime, t :: (s.buckets b).tasks⟩
    callers := Threads.replace s.callers (.insert b t) (if earlier then [.publish runTime] else []) }

/-- The critical section of `TimerThread::schedule`. -/
def publish (s : Timer n) (runTime : Int) : Timer n :=
  if runTime < s.nearestRunTime then
    { s with
      nearestRunTime := runTime
      nsignals := s.nsignals + 1
      callers := Threads.replace s.callers (.publish runTime) [.wake] }
  else { s with callers := Threads.replace s.callers (.publish runTime) [] }

/-! `unschedule` -/

def unschedule (s : Timer n) (t version : Nat) : Timer n × Int :=
  if (s.mem t).version = version then
    ({ s.setVersion t (version + 2) with unscheduled := (t, version) :: s.unscheduled }, 0)
  else (s, if (s.mem t).version = version + 1 then 1 else -1)

/-! `TimerThread::run` -/

/-- `try_delete`, and the task is kept if it fails. -/
def tryDelete (s : Timer n) (i t : Nat) (rest : List Nat) : Timer n :=
  if (s.mem t).version ≠ (s.mem t).taskId then
    if (s.mem t).version ≠ (s.mem t).taskId + 2 then { s with crashed := true, pc := .delete i rest }
    else (s.returnResource t).goto (.delete i rest)
  else { s with heap := t :: s.heap, pc := .delete i rest }

/-- The compare-and-exchange of `run_and_delete`. -/
def runAndDelete (s : Timer n) (t : Nat) : Timer n :=
  if (s.mem t).version = (s.mem t).taskId then
    { s.setVersion t ((s.mem t).taskId + 1) with pc := .running t, started := (s.job t, s.now) :: s.started }
  else if (s.mem t).version = (s.mem t).taskId + 2 then s.goto (.finish t)
  else { s with crashed := true, pc := .run }

/-- `t` is a task with the least time in the heap. -/
def first (s : Timer n) (t : Nat) : Bool := t ∈ s.heap ∧ ∀ x ∈ s.heap, (s.mem t).runTime ≤ (s.mem x).runTime

/-- A step of the timer thread; `t` is `tasks[0]` where the heap is looked at. -/
def run (s : Timer n) (t : Nat) : Option (Timer n) :=
  match s.pc with
  | .reset => some { s with nearestRunTime := MAX, pc := .pull 0 }
  | .pull i =>
    if h : i < n then
      if (s.buckets ⟨i, h⟩).tasks = [] then some (s.goto (.pull (i + 1))) else some (s.goto (.take ⟨i, h⟩))
    else some (s.goto .run)
  | .take i =>
    if (s.buckets i).tasks = [] then some (s.goto (.pull (i + 1)))
    else some { s with buckets := Function.update s.buckets i ⟨MAX, []⟩, pc := .delete i (s.buckets i).tasks }
  | .delete i [] => some (s.goto (.pull (i + 1)))
  | .delete i (t :: rest) => some (s.tryDelete i t rest)
  | .run =>
    if s.heap = [] then some (s.goto (.sleep MAX))
    else if s.first t then
      if s.now < (s.mem t).runTime then some (s.goto (.sleep (s.mem t).runTime)) else some (s.goto (.check t))
    else none
  | .check t =>
    if s.nearestRunTime < (s.mem t).runTime then some (s.goto .reset)
    else some { s with heap := s.heap.erase t, pc := .start t }
  | .start t => some (s.runAndDelete t)
  | .running t => some ((s.setVersion t ((s.mem t).taskId + 2)).goto (.finish t))
  | .finish t => some ((s.returnResource t).goto .run)
  | .sleep nextRunTime =>
    if s.nearestRunTime < nextRunTime then some (s.goto .reset)
    else some { s with nearestRunTime := nextRunTime, pc := .waiting nextRunTime s.nsignals }
  | .waiting _ _ => some (s.goto .reset)

end Timer

inductive Act (n : Nat) where
  | schedule (b : Fin n) (t : Nat) (runTime : Int)
  | insert (b : Fin n) (t : Nat)
  | publish (runTime : Int)
  | wake
  | unschedule (t version : Nat)
  | run (t : Nat)
  | tick (now : Int)

namespace Timer

variable {n : Nat}

/-- Ids that were never given out are not unscheduled. -/
def next (s : Timer n) : Act n → Option (Timer n)
  | .schedule b t runTime =>
    if (t ∈ s.free ∨ t = s.created) ∧ runTime ≤ MAX then some (s.schedule b t runTime) else none
  | .insert b t => if .insert b t ∈ s.callers then some (s.insert b t) else none
  | .publish runTime => if .publish runTime ∈ s.callers then some (s.publish runTime) else none
  | .wake => if .wake ∈ s.callers then some { s with callers := Threads.replace s.callers .wake [] } else none
  | .unschedule t version =>
    if ∃ j ∈ s.issued, j.slot = t ∧ j.version = version then some (s.unschedule t version).1 else none
  | .run t => s.run t
  | .tick now => if s.now ≤ now then some { s with now := now } else none

/-- After `start`. -/
def new (n : Nat) (now : Int) : Timer n :=
  ⟨fun _ => ⟨0, 0, 2⟩, [], 0, fun _ => ⟨MAX, []⟩, MAX, 0, 0, .reset, [], now, false, [], [], [], []⟩

end Timer

def timerMachine (n : Nat) : Machine (Timer n) (Act n) where
  init := fun s => ∃ now, s = Timer.new n now
  next := Timer.next

end LightRpc.TimerThread

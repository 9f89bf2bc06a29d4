import LightRpc.Lib.Machine

/- The mutex and the condition variable of bthreads, over butexes.

   A butex is a word with a queue of threads that wait for it to change. The word of a mutex is
   two bytes: `locked`, and `contended` once a thread may sleep. The word of a condition counts
   its signals; a broadcast hands all waiters but one to the butex of the mutex.

   What is proved, for any number of threads, with deadlines and interruptions:
     1. at most one thread has the mutex, and it is locked exactly while one has it;
     2. if all threads are bthreads, no wake-up is lost while a thread sleeps on the mutex. A
        pthread may take a wake-up and return ETIMEDOUT nevertheless.

   Enqueueing after the last look at the word is one step, and so is taking a thread off a queue:
   both hold `waiter_lock`. The mutex has one condition variable. -/
namespace LightRpc.Mutex

open Lib Function

/-- `MutexInternal` -/
structure Word where
  locked : Bool
  contended : Bool
  deriving DecidableEq, Repr

/-- `BTHREAD_MUTEX_CONTENDED` -/
@[grind] def contended : Word := ⟨true, true⟩

/-- `BTHREAD_MUTEX_LOCKED` -/
@[grind] def locked : Word := ⟨true, false⟩

def EBUSY : Int := 16

def ETIMEDOUT : Int := 110

/-- Where a thread is. `rc` is what the call returned, or will return when it has the mutex;
    `timed` says whether the call has a deadline. -/
inductive Pc where
  | out (rc : Int)
  | inside (rc : Int)
  /-- In `mutex_lock_contended_impl`: before the exchange, before `butex_wait` and in it. -/
  | contend (timed : Bool) (rc : Int)
  | wait (timed : Bool) (rc : Int)
  | asleep (timed : Bool) (rc : Int)
  /-- In `bthread_mutex_unlock`: before the exchange and before `butex_wake`; in
      `bthread_cond_wait` with what is known there. -/
  | unlock (cond : Option (Bool × Nat))
  | wake (cond : Option (Bool × Nat))
  /-- In `bthread_cond_wait` without the mutex: before `butex_wait` and in it. -/
  | condWait (timed : Bool) (expectedSeq : Nat)
  | condAsleep (timed : Bool) (expectedSeq : Nat)
  /-- Taken off its queue by another thread, before `butex_wait` returns; `cond` if that was
      called by `bthread_cond_wait`. -/
  | woken (cond timed : Bool) (rc : Int)
  /-- Counted a signal, or a broadcast; `held` if it has the mutex. -/
  | notify (all held : Bool)
  deriving DecidableEq, Repr

structure State where
  word : Word
  waiters : List Nat
  /-- `CondInternal`: whether `m` is bound, `seq`, and the queue of its butex -/
  bound : Bool
  seq : Nat
  condWaiters : List Nat
  pc : Nat → Pc

namespace Pc

/-- After `butex_wait`, which timed out, or else was woken, found another value or was
    interrupted. -/
def resume (timedOut : Bool) : Pc → Pc
  | .wait timed rc | .asleep timed rc | .woken false timed rc =>
    if timedOut then .out ETIMEDOUT else .contend timed rc
  | .condWait _ _ | .condAsleep _ _ | .woken true _ _ => .contend false (if timedOut then ETIMEDOUT else 0)
  | pc => pc

def dequeue : Pc → Pc
  | .asleep timed rc => .woken false timed rc
  | .condAsleep timed _ => .woken true timed 0
  | pc => pc

/-- Is to call `butex_wait` or in it, with a deadline if `timed`. -/
def waits (timed : Bool) : Pc → Bool
  | .wait timed' _ | .asleep timed' _ | .condWait timed' _ | .condAsleep timed' _ | .woken _ timed' _ =>
    timed' || !timed
  | _ => false

/-- After `bthread_mutex_unlock` -/
def unlocked : Option (Bool × Nat) → Pc
  | none => .out 0
  | some (timed, expectedSeq) => .condWait timed expectedSeq

end Pc

inductive Act where
  | trylock (t : Nat)
  | lock (t : Nat) (timed : Bool)
  | unlock (t : Nat)
  | condWait (t : Nat) (timed : Bool)
  | condNotify (t : Nat) (all : Bool)
  /-- Goes on in its call. A thread that sleeps again is put in front of the queue if `errno`
      happened to be 0 after an earlier sleep. -/
  | step (t : Nat) (prepend : Bool)
  /-- Ends its `butex_wait` by its deadline or an interruption. With its deadline `wait_pthread`
      returns ETIMEDOUT also to a thread that was woken. -/
  | quit (t : Nat) (timedOut : Bool)

namespace State

@[grind] def put (s : State) (t : Nat) (pc : Pc) : State := { s with pc := update s.pc t pc }

/-- `mutex_trylock_impl`, and where the thread is if that fails -/
@[grind] def trylock (s : State) (t : Nat) (failed : Pc) : State :=
  { s with word := { s.word with locked := true } }.put t (if s.word.locked then failed else .inside 0)

/-- `butex_wake` on the mutex -/
def butexWake (s : State) : State :=
  match s.waiters with
  | [] => s
  | t :: rest => { s with waiters := rest }.put t (s.pc t).dequeue

/-- `butex_wake` on the condition, or `butex_requeue` from it to the mutex -/
def condWake (s : State) (all : Bool) : State :=
  match s.condWaiters with
  | [] => s
  | t :: rest =>
    (if all then { s with condWaiters := [], waiters := s.waiters ++ rest } else { s with condWaiters := rest }).put t
      (s.pc t).dequeue

/-- `bthread_cond_signal` and `bthread_cond_broadcast` -/
def condNotify (s : State) (t : Nat) (all held : Bool) : State :=
  if all && !s.bound then s.put t (if held then .inside 0 else .out 0)
  else { s with seq := (s.seq + 1) % 2 ^ 32 }.put t (.notify all held)

def step (s : State) (t : Nat) (prepend : Bool) : Option State :=
  match s.pc t with
  | .contend timed rc =>
    some ({ s with word := Mutex.contended }.put t (if s.word.locked then .wait timed rc else .inside rc))
  | .wait timed rc =>
    if s.word = Mutex.contended then
      some ({ s with waiters := if prepend then t :: s.waiters else s.waiters ++ [t] }.put t (.asleep timed rc))
    else some (s.put t (.contend timed rc))
  | .unlock cond =>
    some ({ s with word := ⟨false, false⟩ }.put t (if s.word ≠ Mutex.locked then .wake cond else .unlocked cond))
  | .wake cond => some (s.butexWake.put t (.unlocked cond))
  | .condWait timed expectedSeq =>
    if s.seq = expectedSeq then
      some ({ s with condWaiters := s.condWaiters ++ [t] }.put t (.condAsleep timed expectedSeq))
    else some (s.put t (.contend false 0))
  | .woken _ _ _ => some (s.put t ((s.pc t).resume false))
  | .notify all held => some ((s.condWake all).put t (if held then .inside 0 else .out 0))
  | _ => none

def next (s : State) : Act → Option State
  | .trylock t => match s.pc t with
    | .out _ => some (s.trylock t (.out EBUSY))
    | _ => none
  | .lock t timed => match s.pc t with
    | .out _ => some (s.trylock t (.contend timed 0))
    | _ => none
  | .unlock t => match s.pc t with
    | .inside _ => some (s.put t (.unlock none))
    | _ => none
  | .condWait t timed => match s.pc t with
    | .inside _ => some ({ s with bound := true }.put t (.unlock (some (timed, s.seq))))
    | _ => none
  | .condNotify t all => match s.pc t with
    | .out _ => some (s.condNotify t all false)
    | .inside _ => some (s.condNotify t all true)
    | _ => none
  | .step t prepend => s.step t prepend
  | .quit t timedOut =>
    if (s.pc t).waits timedOut then
      some ({ s with waiters := s.waiters.erase t, condWaiters := s.condWaiters.erase t }.put t
        ((s.pc t).resume timedOut))
    else none

end State

def mutexMachine : Machine State Act where
  init := (· = ⟨⟨false, false⟩, [], false, 0, [], fun _ => .out 0⟩)
  next := State.next

namespace Pc

/-- Has the mutex. -/
@[grind] def holds : Pc → Bool
  | .inside _ | .unlock _ => true
  | .notify _ held => held
  | _ => false

/-- How often the thread is in a queue. -/
@[grind] def queued : Pc → Nat
  | .asleep _ _ | .condAsleep _ _ => 1
  | _ => 0

/-- Will wake a thread that sleeps on the mutex, or make it contended. -/
@[grind] def acts : Pc → Bool
  | .contend _ _ | .wake _ | .woken _ _ _ => true
  | _ => false

@[grind =] theorem holds_unlocked (cond : Option (Bool × Nat)) : (unlocked cond).holds = false := by
  cases cond <;> rfl

@[grind =] theorem queued_unlocked (cond : Option (Bool × Nat)) : (unlocked cond).queued = 0 := by
  cases cond <;> rfl

end Pc

@[grind] def State.queues (s : State) : List Nat := s.waiters ++ s.condWaiters

/-- A bthread that was woken does not time out. -/
def bthreads (s : State) : Act → Bool
  | .quit t true => !(s.pc t).acts
  | _ => true

/-- The last part holds if all threads are bthreads (`strict`). -/
structure Inv (strict : Prop) (s : State) : Prop where
  exclusive : ∀ t u, (s.pc t).holds = true → (s.pc u).holds = true → t = u
  locked : s.word.locked = true ↔ ∃ t, (s.pc t).holds = true
  queued : ∀ t, s.queues.count t = (s.pc t).queued
  awake : strict → s.waiters ≠ [] → s.word = contended ∨ ∃ t, (s.pc t).acts = true

namespace Inv

variable {strict : Prop} {s s' : State} {t : Nat} {p : Pc}

section

variable (h : Inv strict s)

include h

/-- Thread `t` goes on to `p`. It gets the mutex only if it has it or the mutex is not locked, and
    stops acting only if the mutex is contended or another thread acts. -/
theorem go (hpc : s'.pc = update s.pc t p) (hholds : p.holds → (s.pc t).holds ∨ s.word.locked = false)
    (hlocked : s'.word.locked = (p.holds || (s.word.locked && !(s.pc t).holds)))
    (hqueues : ∀ u, s'.queues.count u + (if u = t then (s.pc t).queued else 0) = s.queues.count u + if u = t then p.queued else 0)
    (hawake : strict → s'.waiters ≠ [] → s'.word = contended ∨ p.acts ∨ ∃ u, u ≠ t ∧ (s.pc u).acts) :
    Inv strict s' := by
  have hself : s'.pc t = p := by rw [hpc, update_self]
  have hother : ∀ u, u ≠ t → s'.pc u = s.pc u := fun u hu => by rw [hpc, update_of_ne hu]
  have hexclusive := h.exclusive
  have hheld := h.locked
  refine ⟨?_, ?_, fun u => ?_, fun hstrict hne => ?_⟩
  · grind
  · rw [hlocked]
    grind
  · have := hqueues u
    have := h.queued u
    grind
  · rcases hawake hstrict hne with hw | hp | ⟨u, hu, hacts⟩
    · exact .inl hw
    · exact .inr ⟨t, by rwa [hself]⟩
    · exact .inr ⟨u, by rwa [hother u hu]⟩

/-- If the mutex is not contended, a thread other than `t` acts. -/
theorem others (hstrict : strict) (hacts : (s.pc t).acts = false) (hne : s.waiters ≠ []) :
    s.word = contended ∨ ∃ u, u ≠ t ∧ (s.pc u).acts := by
  refine (h.awake hstrict hne).imp_right ?_
  rintro ⟨u, hu⟩
  exact ⟨u, fun heq => by simp [heq, hacts] at hu, hu⟩

/-- Thread `u` is taken off its queue and woken by `t`, which goes on to `p`. -/
theorem woken {u : Nat} (hpc : s'.pc = update s.pc u (s.pc u).dequeue) (hword : s'.word = s.word)
    (hperm : s.queues.Perm (u :: s'.queues)) (ht : (s.pc t).queued = 0) (hholds : p.holds = (s.pc t).holds)
    (hp : p.queued = 0) : Inv strict (s'.put t p) := by
  have hcount : ∀ v, s.queues.count v = (u :: s'.queues).count v := hperm.count_eq
  have hu : 0 < (s.pc u).queued := by
    rw [← h.queued, hcount, List.count_cons_self]
    exact Nat.succ_pos _
  have hut : u ≠ t := by
    rintro rfl
    exact absurd ht (Nat.ne_of_gt hu)
  obtain ⟨cond, timed, rc, hwoken, hfree, hone⟩ :
      ∃ cond timed rc, (s.pc u).dequeue = .woken cond timed rc ∧ (s.pc u).holds = false ∧ (s.pc u).queued = 1 := by
    cases hpu : s.pc u <;> simp [hpu, Pc.queued, Pc.dequeue, Pc.holds] at hu ⊢
  rw [hwoken] at hpc
  have h' : Inv strict s' := by refine h.go hpc ?_ ?_ ?_ ?_ <;> grind
  have hlocked := h'.locked
  have hself : s'.pc t = s.pc t := by rw [hpc, update_of_ne hut.symm]
  have hacts : (s'.pc u).acts = true := by rw [hpc, update_self]; rfl
  refine h'.go rfl ?_ ?_ ?_ ?_ <;> grind

theorem butexWake {cond : Option (Bool × Nat)} (hpc : s.pc t = .wake cond) :
    Inv strict (s.butexWake.put t (.unlocked cond)) := by
  unfold State.butexWake
  split
  · have hlocked := h.locked
    refine h.go rfl ?_ ?_ ?_ ?_ <;> grind
  · next u rest hw => exact h.woken rfl rfl (by rw [State.queues, hw]; rfl) (by grind) (by grind) (by grind)

theorem condWake {all held : Bool} (hpc : s.pc t = .notify all held) :
    Inv strict ((s.condWake all).put t (if held then .inside 0 else .out 0)) := by
  unfold State.condWake
  split
  · have hlocked := h.locked
    have hother := h.others (t := t)
    refine h.go rfl ?_ ?_ ?_ ?_ <;> grind
  · next u rest hw =>
    have hperm : s.queues.Perm (u :: (s.waiters ++ rest)) := by
      rw [State.queues, hw]
      exact List.perm_middle
    cases all with
    | false => exact h.woken rfl rfl hperm (by grind) (by grind) (by grind)
    | true => exact h.woken rfl rfl (by simpa [State.queues, State.put] using hperm) (by grind) (by grind) (by grind)

/-- The thread leaves `butex_wait` by itself. -/
theorem quit {timedOut : Bool} (hwaits : (s.pc t).waits timedOut)
    (hguard : strict → bthreads s (.quit t timedOut)) :
    Inv strict ({ s with waiters := s.waiters.erase t, condWaiters := s.condWaiters.erase t }.put t
      ((s.pc t).resume timedOut)) := by
  have hp : ((s.pc t).resume timedOut).holds = false ∧ ((s.pc t).resume timedOut).queued = 0 ∧
      (s.pc t).holds = false ∧ (s.pc t).queued ≤ 1 ∧
      (strict → (s.pc t).acts = true → ((s.pc t).resume timedOut).acts = true) := by
    rcases hpc : s.pc t with _ | _ | _ | _ | _ | _ | _ | _ | _ | ⟨_ | _, _, _⟩ | _ <;> cases timedOut <;>
      simp [hpc, bthreads, Pc.waits, Pc.resume, Pc.holds, Pc.queued, Pc.acts] at hwaits hguard ⊢
    exact hguard
  have hqueued := h.queued t
  have hother := h.others (t := t)
  have herase : s.waiters = [] → s.waiters.erase t = [] := fun h => by rw [h]; rfl
  refine h.go rfl ?_ ?_ ?_ ?_ <;> grind

theorem step {prepend : Bool} (hn : s.step t prepend = some s') : Inv strict s' := by
  have hlocked := h.locked
  have hother := h.others (t := t)
  unfold State.step at hn
  split at hn
  · cases hn
    refine h.go rfl ?_ ?_ ?_ ?_ <;> grind
  · split at hn <;> cases hn
    all_goals refine h.go rfl ?_ ?_ ?_ ?_ <;> grind
  · cases hn
    refine h.go rfl ?_ ?_ ?_ ?_ <;> grind
  · next cond hpc =>
    cases hn
    exact h.butexWake hpc
  · split at hn <;> cases hn
    all_goals refine h.go rfl ?_ ?_ ?_ ?_ <;> grind
  · next cond timed rc hpc =>
    cases hn
    rw [hpc]
    refine h.go rfl ?_ ?_ ?_ ?_ <;> cases cond <;> grind [Pc.resume]
  · next all held hpc =>
    cases hn
    exact h.condWake hpc
  · cases hn

theorem next {a : Act} (hguard : strict → bthreads s a) (hn : s.next a = some s') : Inv strict s' := by
  cases a with
  | trylock t | lock t timed | unlock t | condWait t timed | condNotify t all =>
    have hlocked := h.locked
    have hother := h.others (t := t)
    simp only [State.next, State.condNotify] at hn
    split at hn <;> cases hn
    all_goals try split
    all_goals refine h.go rfl ?_ ?_ ?_ ?_ <;> grind
  | step t prepend => exact h.step hn
  | quit t timedOut =>
    simp only [State.next] at hn
    split at hn <;> cases hn
    next hwaits => exact h.quit hwaits hguard

end

theorem initial (h : mutexMachine.init s) : Inv strict s := by
  obtain rfl := h
  exact ⟨fun _ _ h => absurd h Bool.false_ne_true, by simp [Pc.holds], fun _ => rfl, fun _ hne => absurd rfl hne⟩

end Inv

variable {s : State}

/-- At most one thread has the mutex, and the mutex is locked exactly while one has it. -/
theorem mutex_excludes (h : mutexMachine.Reachable s) : (∀ t u, (s.pc t).holds = true → (s.pc u).holds = true → t = u) ∧
      (s.word.locked = true ↔ ∃ t, (s.pc t).holds = true) := by
  have hi : Inv False s := h.invariant (fun _ => Inv.initial) fun _ _ _ h hn => h.next False.elim hn
  exact ⟨hi.exclusive, hi.locked⟩

/-- Thread 0 waits for the condition, 1 sleeps for the mutex and gets it. -/
def handOver : List Act :=
  [.lock 0 false, .lock 1 true, .step 1 false, .step 1 false, .condWait 0 true, .step 0 false, .step 0 false,
    .step 0 false, .step 1 false, .step 1 false]

theorem handOver_excludes : ∃ s, mutexMachine.Run handOver s ∧ (s.pc 1).holds = true ∧
    ∀ t u, (s.pc t).holds = true → (s.pc u).holds = true → t = u := by
  obtain ⟨s, hr, hs⟩ : ∃ s, mutexMachine.Run handOver s ∧ (s.pc 1).holds = true :=
    Machine.exists_run rfl (by decide +kernel)
  exact ⟨s, hr, hs, (mutex_excludes ⟨_, hr⟩).1⟩

/-- A thread that sleeps on the mutex is not forgotten: a thread has the mutex and will find it
    contended, or one is about to wake a thread or to make the mutex contended. -/
theorem mutex_wakes (h : (mutexMachine.guard bthreads).Reachable s) (hasleep : s.waiters ≠ []) :
    (s.word = contended ∧ ∃ t, (s.pc t).holds = true) ∨ ∃ t, (s.pc t).acts = true := by
  have hi : Inv True s := by
    refine h.invariant ?_ fun s a s' hi hn => ?_
    · exact fun s => .initial
    · obtain ⟨hguard, hn⟩ := Machine.guard_next.mp hn
      exact hi.next (fun _ => hguard) hn
  refine (hi.awake trivial hasleep).imp_left fun hw => ⟨hw, ?_⟩
  rw [← hi.locked, hw]
  rfl

/-- Of two threads that wait for the condition a broadcast wakes the first, and the other sleeps
    on the mutex. -/
theorem requeued_awaited : ∃ s, (mutexMachine.guard bthreads).Reachable s ∧ s.waiters = [1] ∧
    ((s.word = contended ∧ ∃ t, (s.pc t).holds = true) ∨ ∃ t, (s.pc t).acts = true) := by
  obtain ⟨s, hr, hs⟩ : ∃ s, (mutexMachine.guard bthreads).Run (handOver ++ [.condWait 1 false, .step 1 false,
    .step 1 false, .step 1 false, .lock 2 false, .condNotify 2 true, .step 2 false]) s ∧ s.waiters = [1] :=
    Machine.exists_run rfl (by decide +kernel)
  exact ⟨s, ⟨_, hr⟩, hs, mutex_wakes ⟨_, hr⟩ (hs ▸ List.cons_ne_nil _ _)⟩

/-- With a pthread it can be. Threads 1 and 2 sleep, 0 unlocks and wakes 1, and the deadline of 1
    passes before it runs: 2 sleeps on a mutex that nobody has. -/
theorem woken_pthread_strands : ∃ s, mutexMachine.Reachable s ∧ s.waiters = [2] ∧ s.word = ⟨false, false⟩ ∧
    ∀ t, (s.pc t).holds = false ∧ (s.pc t).acts = false := by
  have hrun : (mutexMachine.exec ⟨⟨false, false⟩, [], false, 0, [], fun _ => .out 0⟩ [.lock 0 false, .lock 1 true,
    .step 1 false, .step 1 false, .lock 2 false, .step 2 false, .step 2 false, .unlock 0, .step 0 false,
    .step 0 false, .quit 1 true]) = some _ := rfl
  refine ⟨_, ⟨_, Machine.run_of_exec rfl hrun⟩, rfl, rfl, fun t => ?_⟩
  rcases t with _ | _ | _ | t <;> exact ⟨rfl, rfl⟩

end LightRpc.Mutex

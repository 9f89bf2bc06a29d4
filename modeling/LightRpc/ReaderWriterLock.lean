import LightRpc.Lib.Machine

/- The reader-writer lock of the bthread library.

   `reader_count` counts the readers that hold the lock or wait for it. A writer takes the mutex
   of the writers, lowers the count by 2^30, which sends later readers to `reader_sema`, and lets
   `reader_wait` count down the readers that were there before; the last of them posts
   `writer_sema`. A step of the model is one atomic operation, one operation on a semaphore or
   the mutex, or one access to `wlock_flag`.

   What is proved, for runs in which no wait on a semaphore times out: a writer is alone, and when
   all calls have returned and all holders have unlocked, the lock is as it was created, whatever
   attempts failed before (`try` calls, or timed waits for the mutex). The invariant follows the
   thread that has the mutex through the phases of `Phase`. A timeout in `bthread_sem_timedwait`
   leaves the counts as they were changed before the wait. -/
namespace LightRpc.ReaderWriterLock

open Lib Multiset Option

def RWLockMaxReaders : Int := 2 ^ 30

structure RWLock where
  readerSema : Nat
  writerSema : Nat
  readerCount : Int
  readerWait : Int
  wlockFlag : Bool
  /-- `write_queue_mutex` is locked. -/
  mutex : Bool
  deriving DecidableEq

/-- `bthread_rwlock_init` -/
def RWLock.new : RWLock := ⟨0, 0, 0, 0, false, false⟩

/-- Where a thread is. `timed`: the call has a deadline. -/
inductive Pc where
  /-- `rdlock` and `timedrdlock`, before the count is raised -/
  | rdlock (timed : Bool)
  | rdWait (timed : Bool)
  /-- Holds the lock for reading; the next step is the first one of `unlock`. -/
  | reading
  | tryrdlock
  | tryrdExchange (readerCount : Int)
  | unrdCount
  | unrdWait
  | unrdPost
  /-- `wrlock` and `timedwrlock`, before they have the mutex -/
  | wrlock (timed : Bool)
  | wrCount (timed : Bool)
  | wrWait (timed : Bool) (readerCount : Int)
  | wrSema (timed : Bool)
  | wrFlag
  /-- Holds the lock for writing; the next step is the first one of `unlock`. -/
  | writing
  | trywrlock
  | trywrExchange
  /-- Unlocks the mutex and returns an error. -/
  | wrFail
  | unwrFlag
  | unwrCount
  | unwrPost (readerCount : Int)
  | unwrMutex
  deriving DecidableEq

/-- A step: what becomes of the lock and of the thread, nothing if the call returns without the
    lock. A thread that has to wait has no step, and neither has one whose CHECK fails. -/
def Pc.next (l : RWLock) : Pc → Option (RWLock × Option Pc)
  | .rdlock timed =>
    let readerCount := l.readerCount + 1
    if readerCount ≥ 0 then
      if readerCount < RWLockMaxReaders then some ({ l with readerCount := readerCount }, some .reading) else none
    else some ({ l with readerCount := readerCount }, some (.rdWait timed))
  | .rdWait _ => if 0 < l.readerSema then some ({ l with readerSema := l.readerSema - 1 }, some .reading) else none
  | .tryrdlock => if l.readerCount < 0 then some (l, none) else some (l, some (.tryrdExchange l.readerCount))
  | .tryrdExchange readerCount =>
    if l.readerCount = readerCount then some ({ l with readerCount := readerCount + 1 }, some .reading)
    else some (l, some .tryrdlock)
  | .reading => if l.wlockFlag then some (l, some .unwrFlag) else some (l, some .unrdCount)
  | .unrdCount =>
    let readerCount := l.readerCount - 1
    if readerCount ≥ 0 then some ({ l with readerCount := readerCount }, none)
    else if readerCount + 1 = 0 ∨ readerCount + 1 = -RWLockMaxReaders then none
    else some ({ l with readerCount := readerCount }, some .unrdWait)
  | .unrdWait =>
    let readerWait := l.readerWait - 1
    some ({ l with readerWait := readerWait }, if readerWait ≠ 0 then none else some .unrdPost)
  | .unrdPost => some ({ l with writerSema := l.writerSema + 1 }, none)
  | .wrlock timed => if l.mutex then none else some ({ l with mutex := true }, some (.wrCount timed))
  | .wrCount timed =>
    some ({ l with readerCount := l.readerCount - RWLockMaxReaders },
      if l.readerCount ≠ 0 then some (.wrWait timed l.readerCount) else some .wrFlag)
  | .wrWait timed readerCount =>
    let readerWait := l.readerWait + readerCount
    some ({ l with readerWait := readerWait }, if readerWait ≠ 0 then some (.wrSema timed) else some .wrFlag)
  | .wrSema _ => if 0 < l.writerSema then some ({ l with writerSema := l.writerSema - 1 }, some .wrFlag) else none
  | .wrFlag => some ({ l with wlockFlag := true }, some .writing)
  | .trywrlock => if l.mutex then some (l, none) else some ({ l with mutex := true }, some .trywrExchange)
  | .trywrExchange =>
    if l.readerCount = 0 then some ({ l with readerCount := -RWLockMaxReaders }, some .wrFlag) else some (l, some .wrFail)
  | .wrFail => some ({ l with mutex := false }, none)
  | .writing => if l.wlockFlag then some (l, some .unwrFlag) else some (l, some .unrdCount)
  | .unwrFlag => some ({ l with wlockFlag := false }, some .unwrCount)
  | .unwrCount =>
    let readerCount := l.readerCount + RWLockMaxReaders
    if readerCount ≥ RWLockMaxReaders then none
    else some ({ l with readerCount := readerCount }, some (.unwrPost readerCount))
  | .unwrPost readerCount => some ({ l with readerSema := l.readerSema + readerCount.toNat }, some .unwrMutex)
  | .unwrMutex => some ({ l with mutex := false }, none)

/-- A timed wait ends without success. -/
def Pc.timeout : Pc → Option (Option Pc)
  | .rdWait true => some none
  | .wrlock true => some none
  | .wrSema true => some (some .wrFail)
  | _ => none

/-- Where a call starts. -/
def Pc.entry : Pc → Bool
  | .rdlock _ | .tryrdlock | .wrlock _ | .trywrlock => true
  | _ => false

/-- The thread is, or wants to become, one of the readers that `reader_count` counts. -/
@[simp] def Pc.reader : Pc → Nat
  | .rdlock _ | .rdWait _ | .reading | .tryrdlock | .tryrdExchange _ | .unrdCount => 1
  | _ => 0

/-- The CHECK the thread is about to make fails. -/
def Pc.checkFails (l : RWLock) : Pc → Prop
  | .rdlock _ => l.readerCount + 1 ≥ RWLockMaxReaders
  | .unrdCount => l.readerCount - 1 < 0 ∧ (l.readerCount = 0 ∨ l.readerCount = -RWLockMaxReaders)
  | .unwrCount => l.readerCount + RWLockMaxReaders ≥ RWLockMaxReaders
  | _ => False

structure System where
  lock : RWLock
  threads : Multiset Pc

/-- A sum over the threads. -/
def sumOf (w : Pc → Nat) (threads : Multiset Pc) : Nat := (threads.map w).sum

inductive Act where
  | call (pc : Pc)
  | step (pc : Pc)
  | timeout (pc : Pc)
  /-- `compare_exchange_weak` fails for no reason. -/
  | spurious (readerCount : Int)

/-- There are fewer than 2^30 readers. -/
def System.next (s : System) : Act → Option System
  | .call pc =>
    if pc.entry ∧ sumOf Pc.reader (pc ::ₘ s.threads) < 2 ^ 30 then some { s with threads := pc ::ₘ s.threads } else none
  | .step pc =>
    if pc ∈ s.threads then (pc.next s.lock).map fun r => ⟨r.1, Threads.replace s.threads pc r.2.toList⟩ else none
  | .timeout pc =>
    if pc ∈ s.threads then pc.timeout.map fun t => { s with threads := Threads.replace s.threads pc t.toList } else none
  | .spurious readerCount =>
    if .tryrdExchange readerCount ∈ s.threads then
      some { s with threads := Threads.replace s.threads (.tryrdExchange readerCount) [.tryrdlock] }
    else none

def lockMachine : Machine System Act where
  init := (· = ⟨RWLock.new, 0⟩)
  next := System.next

/-- The step is no timeout of a wait on a semaphore. -/
def semaWaits : System → Act → Bool
  | _, .timeout (.rdWait _) | _, .timeout (.wrSema _) => false
  | _, _ => true

/-! Sums over the threads. -/

@[simp] theorem sumOf_zero (w : Pc → Nat) : sumOf w 0 = 0 := rfl

@[simp] theorem sumOf_cons (w : Pc → Nat) (pc : Pc) (T : Multiset Pc) : sumOf w (pc ::ₘ T) = w pc + sumOf w T := by
  rw [sumOf, map_cons, sum_cons]
  rfl

@[simp] theorem sumOf_add (w : Pc → Nat) (T T' : Multiset Pc) : sumOf w (T + T') = sumOf w T + sumOf w T' := by
  rw [sumOf, map_add, sum_add]
  rfl

theorem sumOf_le {w w' : Pc → Nat} (h : ∀ pc, w pc ≤ w' pc) (T : Multiset Pc) : sumOf w T ≤ sumOf w' T := by
  induction T using Multiset.induction with
  | empty => exact Nat.le_refl _
  | cons pc T ih =>
    rw [sumOf_cons, sumOf_cons]
    exact Nat.add_le_add (h pc) ih

namespace Pc

/-- Holds the lock for reading, or still counts as if. -/
@[simp] def active : Pc → Nat
  | .reading | .unrdCount => 1
  | _ => 0

@[simp] def waiting : Pc → Nat
  | .rdWait _ => 1
  | _ => 0

@[simp] def departing : Pc → Nat
  | .unrdWait => 1
  | _ => 0

@[simp] def posting : Pc → Nat
  | .unrdPost => 1
  | _ => 0

/-- Holds the lock for writing, or still excludes the others. -/
@[simp] def owning : Pc → Nat
  | .wrFlag | .writing | .unwrFlag | .unwrCount => 1
  | _ => 0

/-- Has the mutex. -/
@[simp] def queued : Pc → Bool
  | .wrCount _ | .wrWait _ _ | .wrSema _ | .wrFlag | .writing | .trywrExchange | .wrFail | .unwrFlag | .unwrCount |
    .unwrPost _ | .unwrMutex => true
  | _ => false

end Pc

/-! Phases. -/

inductive Phase where
  /-- No writer is announced; `posts` permits for the readers that wait are still to be posted. -/
  | unlocked (posts : Int)
  /-- A writer is announced, and about to add the readers it counted to `reader_wait`. -/
  | announced (readerCount : Int)
  | draining
  | owned

/-- The phase, from the thread that has the mutex. -/
def phaseOf : Option Pc → Phase
  | some (.wrWait _ readerCount) => .announced readerCount
  | some (.wrSema _) => .draining
  | some .wrFlag | some .writing | some .unwrFlag | some .unwrCount => .owned
  | some (.unwrPost readerCount) => .unlocked readerCount
  | _ => .unlocked 0

def flagOf : Option Pc → Bool
  | some .writing | some .unwrFlag => true
  | _ => false

/-- How the counts of the lock go with the number of active, waiting, departing and posting
    readers. -/
def Balance (l : RWLock) (active waiting departing posting : Nat) : Phase → Prop
  | .unlocked posts => l.readerCount = active + waiting ∧ l.readerWait = 0 ∧ l.writerSema = 0 ∧ departing = 0 ∧
      posting = 0 ∧ (waiting : Int) = l.readerSema + posts ∧ 0 ≤ posts
  | .announced readerCount => l.readerCount = active + waiting - 2 ^ 30 ∧ l.writerSema = 0 ∧ posting = 0 ∧
      readerCount + l.readerWait = active + l.readerSema + departing ∧ l.readerSema ≤ waiting ∧ l.readerWait ≤ 0
  | .draining => l.readerCount = active + waiting - 2 ^ 30 ∧ l.readerWait = active + l.readerSema + departing ∧
      l.readerSema ≤ waiting ∧
      (0 < l.readerWait ∧ l.writerSema + posting = 0 ∨ l.readerWait = 0 ∧ l.writerSema + posting = 1)
  | .owned => l.readerCount = waiting - 2 ^ 30 ∧ l.readerWait = 0 ∧ l.writerSema = 0 ∧ l.readerSema = 0 ∧
      active = 0 ∧ departing = 0 ∧ posting = 0

/-- `q` is the thread that has the mutex, `R` are the others. -/
structure Inv (l : RWLock) (q : Option Pc) (R : Multiset Pc) : Prop where
  mutex : l.mutex = q.isSome
  flag : l.wlockFlag = flagOf q
  queued : ∀ pc ∈ q, pc.queued = true
  others : ∀ pc ∈ R, pc.queued = false
  few : sumOf Pc.reader R < 2 ^ 30
  loaded : ∀ n, .tryrdExchange n ∈ R → 0 ≤ n
  balance : Balance l (sumOf Pc.active R) (sumOf Pc.waiting R) (sumOf Pc.departing R) (sumOf Pc.posting R) (phaseOf q)

theorem active_waiting_le (R : Multiset Pc) : sumOf Pc.active R + sumOf Pc.waiting R ≤ sumOf Pc.reader R := by
  have : sumOf (fun pc => pc.active + pc.waiting) R = sumOf Pc.active R + sumOf Pc.waiting R := by
    simp only [sumOf, sum_map_add]
  rw [← this]
  apply sumOf_le
  intro pc
  cases pc <;> simp [Pc.active, Pc.waiting, Pc.reader]

@[simp] theorem sumOf_toList (w : Pc → Nat) (t : Option Pc) : sumOf w (↑t.toList : Multiset Pc) = t.elim 0 w := by
  cases t <;> simp [sumOf]

variable {l l' : RWLock} {q t : Option Pc} {R : Multiset Pc} {pc : Pc}

/-- What a step leaves: the thread that has the mutex, and the others. -/
def Leaves (l : RWLock) (T : Multiset Pc) : Prop := ∃ q R, T = ↑q.toList + R ∧ Inv l q R

section

variable (h : Inv l q (pc ::ₘ R))

include h

/-- A thread without the mutex goes on without it. -/
theorem Inv.go (hmutex : l'.mutex = l.mutex) (hflag : l'.wlockFlag = l.wlockFlag) (ht : ∀ x ∈ t, x.queued = false)
    (hreaders : t.elim 0 Pc.reader ≤ pc.reader) (hloaded : ∀ n, t = some (.tryrdExchange n) → 0 ≤ n)
    (hbalance : ∀ phase,
      Balance l (pc.active + sumOf Pc.active R) (pc.waiting + sumOf Pc.waiting R)
        (pc.departing + sumOf Pc.departing R) (pc.posting + sumOf Pc.posting R) phase →
      Balance l' (t.elim 0 Pc.active + sumOf Pc.active R) (t.elim 0 Pc.waiting + sumOf Pc.waiting R)
        (t.elim 0 Pc.departing + sumOf Pc.departing R) (t.elim 0 Pc.posting + sumOf Pc.posting R) phase) :
    Leaves l' (↑t.toList + (↑q.toList + R)) := by
  refine ⟨q, ↑t.toList + R, by abel, hmutex.trans h.mutex, hflag.trans h.flag, h.queued, ?_, ?_, ?_, ?_⟩
  · intro x hx
    rcases mem_add.mp hx with hx | hx
    · exact ht x (mem_toList.mp hx)
    · exact h.others x (mem_cons_of_mem hx)
  · have := h.few
    rw [sumOf_cons] at this
    rw [sumOf_add, sumOf_toList]
    omega
  · intro n hn
    rcases mem_add.mp hn with hn | hn
    · exact hloaded n (mem_toList.mp hn)
    · exact h.loaded n (mem_cons_of_mem hn)
  · have := h.balance
    simp only [sumOf_cons] at this
    simp only [sumOf_add, sumOf_toList]
    exact hbalance _ this

/-- Readers that count are fewer than 2^30. -/
theorem Inv.room : pc.reader + sumOf Pc.active R + sumOf Pc.waiting R < 2 ^ 30 := by
  have := h.few
  have := active_waiting_le R
  rw [sumOf_cons] at *
  omega

/-- While a writer owns the lock no reader does. -/
theorem Inv.flag_clear (hactive : pc.active = 1) : l.wlockFlag = false := by
  rw [h.flag]
  have hb := h.balance
  rw [sumOf_cons, hactive] at hb
  match q with
  | some .writing | some .unwrFlag =>
    simp only [phaseOf, Balance] at hb
    omega
  | none => rfl
  | some (.rdlock _) | some (.rdWait _) | some .reading | some .tryrdlock | some (.tryrdExchange _) | some .unrdCount |
    some .unrdWait | some .unrdPost | some (.wrlock _) | some (.wrCount _) | some (.wrWait _ _) | some (.wrSema _) |
    some .wrFlag | some .trywrlock | some .trywrExchange | some .wrFail | some .unwrCount | some (.unwrPost _) |
    some .unwrMutex => rfl

/-- The mutex is free for a thread that waits for it. -/
theorem Inv.take (hfree : l.mutex = false) (pc' : Pc) (hqueued : pc'.queued)
    (hphase : phaseOf (some pc') = .unlocked 0) (hflag : flagOf (some pc') = false)
    (hzero : pc.active = 0 ∧ pc.waiting = 0 ∧ pc.departing = 0 ∧ pc.posting = 0) :
    q = none ∧ Inv { l with mutex := true } (some pc') R := by
  have hq : q = none := by
    have := h.mutex
    rw [hfree] at this
    simpa using this.symm
  subst hq
  obtain ⟨ha, hw, hd, hp⟩ := hzero
  refine ⟨rfl, rfl, ?_, ?_, ?_, ?_, ?_, ?_⟩
  · rw [hflag]
    exact h.flag
  · intro x hx
    rw [← mem_some.mp hx]
    exact hqueued
  · exact fun x hx => h.others x (mem_cons_of_mem hx)
  · have := h.few
    rw [sumOf_cons] at this
    omega
  · exact fun n hn => h.loaded n (mem_cons_of_mem hn)
  · rw [hphase]
    have := h.balance
    simp only [sumOf_cons, ha, hw, hd, hp, Nat.zero_add] at this
    exact this

/-- A step of a thread that does not have the mutex. -/
theorem Inv.step_other (hn : pc.next l = some (l', t)) : Leaves l' (↑t.toList + (↑q.toList + R)) := by
  have hmax : RWLockMaxReaders = 2 ^ 30 := rfl
  revert h hn
  fun_cases Pc.next l pc <;> intro h hn <;> cases hn <;> have hroom := h.room
  case case6 | case9 | case11 | case24 => exact h.go rfl rfl (by simp) (by simp) (by simp) (fun phase hb => hb)
  case case7 hpos =>
    refine h.go rfl rfl (by simp) (by simp) ?_ (fun phase hb => hb)
    intro n hn
    simp only [some.injEq, Pc.tryrdExchange.injEq] at hn
    omega
  case case8 =>
    -- a count that is not negative says that no writer is announced
    have hpos := h.loaded _ (mem_cons_self _ _)
    simp only [Pc.reader] at hroom
    refine h.go rfl rfl (by simp) (by simp) (by simp) ?_
    intro phase hb
    cases phase <;> simp [Balance] at hb ⊢ <;> omega
  case case10 hflag =>
    rw [h.flag_clear rfl] at hflag
    cases hflag
  case case18 timed hfree =>
    obtain ⟨rfl, hinv⟩ := h.take (by simpa using hfree) (.wrCount timed) rfl rfl rfl ⟨rfl, rfl, rfl, rfl⟩
    exact ⟨_, R, by simp, hinv⟩
  case case25 hfree =>
    obtain ⟨rfl, hinv⟩ := h.take (by simpa using hfree) .trywrExchange rfl rfl rfl ⟨rfl, rfl, rfl, rfl⟩
    exact ⟨_, R, by simp, hinv⟩
  -- the counts move with the thread, whatever the phase
  case case1 | case3 | case4 | case12 | case14 | case15 | case16 =>
    simp only [Pc.reader] at hroom
    try split
    all_goals
      refine h.go rfl rfl (by simp) (by simp) (by simp) ?_
      intro phase hb
      cases phase <;> simp [Balance] at hb ⊢ <;> omega
  all_goals cases h.others _ (mem_cons_self _ _)

end

/-- The thread that has the mutex goes on with it. -/
theorem Inv.pass (h : Inv l (some pc) R) {pc' : Pc} (hmutex : l'.mutex = l.mutex) (hflag : l'.wlockFlag = flagOf (some pc'))
    (hqueued : pc'.queued)
    (hbalance : Balance l (sumOf Pc.active R) (sumOf Pc.waiting R) (sumOf Pc.departing R) (sumOf Pc.posting R)
        (phaseOf (some pc)) →
      Balance l' (sumOf Pc.active R) (sumOf Pc.waiting R) (sumOf Pc.departing R) (sumOf Pc.posting R)
        (phaseOf (some pc'))) : Leaves l' (↑(some pc').toList + R) := by
  refine ⟨some pc', R, rfl, hmutex.trans h.mutex, hflag, ?_, h.others, h.few, h.loaded, hbalance h.balance⟩
  intro x hx
  rw [← mem_some.mp hx]
  exact hqueued

/-- It unlocks the mutex. -/
theorem Inv.release (h : Inv l (some pc) R) (hphase : phaseOf (some pc) = .unlocked 0) (hflag : flagOf (some pc) = false) :
    Leaves { l with mutex := false } (↑(none : Option Pc).toList + R) := by
  refine ⟨none, R, rfl, rfl, h.flag.trans hflag, by simp, h.others, h.few, h.loaded, ?_⟩
  have := h.balance
  rw [hphase] at this
  exact this

/-- A step of the thread that has the mutex. -/
theorem Inv.step_queued (h : Inv l (some pc) R) (hn : pc.next l = some (l', t)) : Leaves l' (↑t.toList + R) := by
  have hmax : RWLockMaxReaders = 2 ^ 30 := rfl
  have hle := active_waiting_le R
  revert h hn
  fun_cases Pc.next l pc <;> intro h hn <;> cases hn <;> have hflag := h.flag <;> have hroom := h.few
  case case19 | case20 | case21 | case26 | case33 | case34 =>
    try split
    all_goals
      refine h.pass rfl hflag rfl ?_
      intro hb
      simp [Balance, phaseOf] at hb ⊢
      omega
  case case23 | case31 => exact h.pass rfl rfl rfl (fun hb => hb)
  case case27 | case29 => exact h.pass rfl hflag rfl (fun hb => hb)
  case case28 | case35 => exact h.release rfl rfl
  case case30 hclear => exact absurd hflag hclear
  all_goals cases h.queued _ rfl

/-! Runs. -/

variable {T : Multiset Pc} {s s' : System} {a : Act}

theorem replace_cons (pc : Pc) (ts : List Pc) (T : Multiset Pc) : Threads.replace (pc ::ₘ T) pc ts = ↑ts + T := by
  simp [Threads.replace]

theorem Leaves.step (h : Leaves l T) (hpc : pc ∈ T) (hn : pc.next l = some (l', t)) :
    Leaves l' (Threads.replace T pc t.toList) := by
  obtain ⟨q, R, rfl, hinv⟩ := h
  rcases mem_add.mp hpc with hq | hR
  · obtain rfl : q = some pc := mem_toList.mp hq
    rw [toList_some, ← cons_coe, cons_add, coe_nil, zero_add, replace_cons]
    exact hinv.step_queued hn
  · obtain ⟨R, rfl⟩ := exists_cons_of_mem hR
    rw [add_cons, replace_cons]
    exact hinv.step_other hn

/-- A thread that leaves without having changed anything. -/
theorem Leaves.other (h : Leaves l T) (hpc : pc ∈ T) (hout : pc.queued = false) (ht : ∀ x ∈ t, x.queued = false)
    (hreaders : t.elim 0 Pc.reader ≤ pc.reader) (hloaded : ∀ n, t ≠ some (.tryrdExchange n))
    (hzero : pc.active = 0 ∧ pc.waiting = 0 ∧ pc.departing = 0 ∧ pc.posting = 0)
    (hzero' : t.elim 0 Pc.active = 0 ∧ t.elim 0 Pc.waiting = 0 ∧ t.elim 0 Pc.departing = 0 ∧ t.elim 0 Pc.posting = 0) :
    Leaves l (Threads.replace T pc t.toList) := by
  obtain ⟨q, R, rfl, hinv⟩ := h
  have hR : pc ∈ R := by
    rcases mem_add.mp hpc with hq | hR
    · have := hinv.queued pc (mem_toList.mp hq)
      rw [hout] at this
      cases this
    · exact hR
  obtain ⟨R, rfl⟩ := exists_cons_of_mem hR
  rw [add_cons, replace_cons]
  refine hinv.go rfl rfl ht hreaders (fun n hn => absurd hn (hloaded n)) ?_
  intro phase hb
  obtain ⟨h₁, h₂, h₃, h₄⟩ := hzero
  obtain ⟨h₁', h₂', h₃', h₄'⟩ := hzero'
  rw [h₁, h₂, h₃, h₄] at hb
  rwa [h₁', h₂', h₃', h₄']

theorem Leaves.call (h : Leaves l T) (hentry : pc.entry) (hfew : sumOf Pc.reader (pc ::ₘ T) < 2 ^ 30) :
    Leaves l (pc ::ₘ T) := by
  obtain ⟨q, R, rfl, hinv⟩ := h
  refine ⟨q, pc ::ₘ R, by rw [add_cons], hinv.mutex, hinv.flag, hinv.queued, ?_, ?_, ?_, ?_⟩
  · intro x hx
    rcases mem_cons.mp hx with rfl | hx
    · cases x <;> first | rfl | cases hentry
    · exact hinv.others x hx
  · rw [sumOf_cons, sumOf_add] at hfew
    rw [sumOf_cons]
    omega
  · intro n hn
    rcases mem_cons.mp hn with rfl | hn
    · cases hentry
    · exact hinv.loaded n hn
  · have := hinv.balance
    cases pc with
    | rdlock _ | tryrdlock | wrlock _ | trywrlock => simpa using this
    | _ => cases hentry

theorem leaves_reachable (h : (lockMachine.guard semaWaits).Reachable s) : Leaves s.lock s.threads := by
  refine Machine.Reachable.invariant (I := fun s => Leaves s.lock s.threads) ?_ ?_ h
  · rintro s rfl
    refine ⟨none, 0, rfl, rfl, rfl, by simp, by simp, by simp, by simp, ?_⟩
    simp [Balance, phaseOf, RWLock.new]
  · intro s a s' hs hguard
    obtain ⟨hok, hn⟩ := Machine.guard_next.mp hguard
    clear hguard
    replace hn : s.next a = some s' := hn
    revert hok hn
    fun_cases System.next s a <;> intro hok hn
    case case1 hc =>
      cases hn
      exact hs.call hc.1 hc.2
    case case3 hpc =>
      obtain ⟨⟨l', t⟩, hnext, rfl⟩ := map_eq_some_iff.mp hn
      exact hs.step hpc hnext
    case case5 pc hpc =>
      obtain ⟨t, ht, rfl⟩ := map_eq_some_iff.mp hn
      match pc, ht with
      | .wrlock true, ht =>
        cases ht
        exact hs.other hpc rfl (by simp) (by simp) (by simp) (by simp) (by simp)
    case case7 hpc =>
      cases hn
      exact hs.other (t := some .tryrdlock) hpc rfl (by simp) (by simp) (by simp) (by simp) (by simp)
    all_goals cases hn

theorem Inv.readers_lt (h : Inv l q R) : sumOf Pc.active R + sumOf Pc.waiting R < 2 ^ 30 :=
  Nat.lt_of_le_of_lt (active_waiting_le R) h.few

theorem Inv.owning_others (h : Inv l q R) : sumOf Pc.owning R = 0 := by
  have hothers := h.others
  clear h
  induction R using Multiset.induction with
  | empty => rfl
  | cons pc R ih =>
    have hout := hothers pc (Multiset.mem_cons_self pc R)
    have : pc.owning = 0 := by
      cases pc <;> first | rfl | cases hout
    rw [sumOf_cons, this, ih fun x hx => hothers x (Multiset.mem_cons_of_mem hx)]

theorem Inv.alone (h : Inv l q R) (hq : 0 < q.elim 0 Pc.owning) :
    phaseOf q = .owned ∧ sumOf Pc.active (↑q.toList + R) = 0 := by
  have hb := h.balance
  match q, hq with
  | some .wrFlag, _ | some .writing, _ | some .unwrFlag, _ | some .unwrCount, _ =>
    simp only [phaseOf, Balance] at hb
    refine ⟨rfl, ?_⟩
    rw [sumOf_add, sumOf_toList, hb.2.2.2.2.1]
    rfl

theorem Inv.check_others (h : Inv l q R) (hpc : pc ∈ R) : ¬ pc.checkFails l := by
  obtain ⟨R, rfl⟩ := exists_cons_of_mem hpc
  have hb := h.balance
  have hroom := h.room
  have hmax : RWLockMaxReaders = 2 ^ 30 := rfl
  generalize phaseOf q = phase at hb
  intro hfails
  cases pc with
  | rdlock _ | unrdCount =>
    simp only [Pc.checkFails] at hfails
    cases phase <;> simp [Balance] at hb hroom <;> omega
  | unwrCount => cases h.others _ hpc
  | _ => exact hfails

theorem Inv.check_queued (h : Inv l (some pc) R) : ¬ pc.checkFails l := by
  have hb := h.balance
  have hroom := h.readers_lt
  have hmax : RWLockMaxReaders = 2 ^ 30 := rfl
  intro hfails
  cases pc with
  | unwrCount =>
    simp only [phaseOf, Balance] at hb
    simp only [Pc.checkFails] at hfails
    omega
  | rdlock _ | unrdCount => cases h.queued _ rfl
  | _ => exact hfails

theorem Inv.eq_new (h : Inv l none 0) : l = RWLock.new := by
  have hb := h.balance
  have hmutex := h.mutex
  have hflag := h.flag
  cases l
  simp only [phaseOf, Balance, flagOf, sumOf_zero, isSome_none] at hb hmutex hflag
  rw [RWLock.new, RWLock.mk.injEq]
  exact ⟨by omega, by omega, by omega, by omega, hflag, hmutex⟩

/-- While no wait on a semaphore times out, a writer is alone, no CHECK fails, and with all calls
    returned and all holders gone the lock is as new. -/
theorem lock_excludes_and_restores (h : (lockMachine.guard semaWaits).Reachable s) :
    sumOf Pc.owning s.threads ≤ 1 ∧
    (0 < sumOf Pc.owning s.threads → sumOf Pc.active s.threads = 0) ∧
    (∀ pc ∈ s.threads, ¬ pc.checkFails s.lock) ∧
    (s.threads = 0 → s.lock = RWLock.new) := by
  obtain ⟨q, R, hT, hinv⟩ := leaves_reachable h
  have hown : sumOf Pc.owning s.threads = q.elim 0 Pc.owning := by
    rw [hT, sumOf_add, sumOf_toList, hinv.owning_others, Nat.add_zero]
  refine ⟨?_, ?_, ?_, ?_⟩
  · rw [hown]
    match q with
    | none => exact Nat.zero_le _
    | some pc => cases pc <;> simp
  · intro hpos
    rw [hown] at hpos
    rw [hT]
    exact (hinv.alone hpos).2
  · intro pc hpc
    rw [hT] at hpc
    rcases Multiset.mem_add.mp hpc with hq | hR
    · obtain rfl : q = some pc := Option.mem_toList.mp hq
      exact hinv.check_queued
    · exact hinv.check_others hR
  · intro hnone
    have hz := hT.symm.trans hnone
    obtain ⟨hq, rfl⟩ := add_eq_zero.mp hz
    obtain rfl : q = none := by
      cases q with
      | none => rfl
      | some pc => simp at hq
    exact hinv.eq_new

/-- A reader unlocks, a writer it kept waiting gets the lock and unlocks, and a `trywrlock` in
    between fails. -/
def busyRun : List Act :=
  [.call (.rdlock false), .step (.rdlock false), .call (.wrlock false), .step (.wrlock false), .step (.wrCount false),
    .call .trywrlock, .step .trywrlock, .step (.wrWait false 1), .step .reading, .step .unrdCount, .step .unrdWait,
    .step .unrdPost, .step (.wrSema false), .step .wrFlag, .step .writing, .step .unwrFlag, .step .unwrCount,
    .step (.unwrPost 0), .step .unwrMutex]

theorem busyRun_restores :
    ∃ s, (lockMachine.guard semaWaits).Run busyRun s ∧ s.threads = 0 ∧ s.lock = RWLock.new := by
  obtain ⟨s, hrun, hnone⟩ : ∃ s, (lockMachine.guard semaWaits).Run busyRun s ∧ s.threads = 0 :=
    Machine.exists_run rfl (by decide)
  exact ⟨s, hrun, hnone, (lock_excludes_and_restores ⟨_, hrun⟩).2.2.2 hnone⟩

/-- A `timedrdlock` that times out behind a writer leaves itself in `reader_count`: after the
    writer has unlocked nobody has the lock or waits for it, and the count and a permit stay. -/
theorem timedrdlock_stays_counted :
    ∃ s, lockMachine.Run
        [.call .trywrlock, .step .trywrlock, .step .trywrExchange, .step .wrFlag, .call (.rdlock true),
          .step (.rdlock true), .timeout (.rdWait true), .step .writing, .step .unwrFlag, .step .unwrCount,
          .step (.unwrPost 1), .step .unwrMutex] s ∧
      s.threads = 0 ∧ s.lock = { RWLock.new with readerCount := 1, readerSema := 1 } :=
  Machine.exists_run rfl (by decide)

end LightRpc.ReaderWriterLock

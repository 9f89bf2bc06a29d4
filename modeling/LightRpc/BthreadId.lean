import LightRpc.Lib.Machine
import LightRpc.Lib.Window

/- `bthread_id`: identifiers that can be locked, and that errors are sent to.

   A slot of the pool is created, used and destroyed again and again. The ids of one creation are
   the versions from `first_ver` up to `locked_ver`, and one word (`butex`) says whether they are
   unlocked (`first_ver`), locked, locked with lockers waiting, or locked and about to be
   destroyed. An error sent to a locked id waits in `pending_q`; `unlock` hands it, and with it
   the lock, to `on_error` in place of unlocking.

   A step of the model is one section under the slot's mutex. A locker between two sections, a
   holder and a running `on_error` are parties. A wait on the butex may end at any time, so that
   waking up is not modelled. Versions are natural numbers: they do not wrap. `queued`, `handed`
   and `past` are a record for the statements: the errors queued and handed over since the last
   creation, and the creations that are over.

   `join_butex`, the user's data and `lock_location` are left out; which of `on_error` and
   `on_error2` is set makes no difference. -/
namespace LightRpc.BthreadId

open Lib Lib.Window Option

/-! `SmallQueue` -/

/-- The first `N` items are in a ring, later ones in `full`. -/
structure SmallQueue (α : Type) (N : Nat) where
  begin : Nat
  size : Nat
  c : List α
  full : Option (List α)
  ring : c.length = N
  begin_lt : begin < N
  size_le : size ≤ N
  deriving DecidableEq

namespace SmallQueue

variable {α : Type} [Inhabited α] {N : Nat}

def empty (q : SmallQueue α N) : Bool := q.size = 0 ∧ q.full.getD [] = []

def push (q : SmallQueue α N) (val : α) : SmallQueue α N :=
  if q.full.getD [] ≠ [] then { q with full := some (q.full.getD [] ++ [val]) }
  else if h : q.size < N then
    let tail := if N ≤ q.begin + q.size then q.begin + q.size - N else q.begin + q.size
    { q with
      c := q.c.set tail val
      size := q.size + 1
      ring := by rw [List.length_set, q.ring]
      size_le := h }
  else { q with full := some (q.full.getD [] ++ [val]) }

def pop (q : SmallQueue α N) : Option (α × SmallQueue α N) :=
  if 0 < q.size then
    let next := if N ≤ q.begin + 1 then q.begin + 1 - N else q.begin + 1
    some (q.c.getD q.begin default,
      { q with
        begin := next
        size := q.size - 1
        begin_lt := by
          have := q.begin_lt
          dsimp only [next]
          split <;> omega
        size_le := Nat.le_trans (Nat.sub_le _ _) q.size_le })
  else
    match q.full with
    | some (val :: rest) => some (val, { q with full := some rest })
    | _ => none

def clear (q : SmallQueue α N) : SmallQueue α N :=
  { q with
    size := 0
    begin := 0
    full := q.full.map fun _ => []
    begin_lt := Nat.lt_of_le_of_lt (Nat.zero_le _) q.begin_lt
    size_le := Nat.zero_le _ }

/-- The items, the oldest first. -/
def toList (q : SmallQueue α N) : List α := window q.c default q.begin q.size ++ q.full.getD []

theorem wrap_eq_mod {n k : Nat} (hk : k < 2 * n) : (if n ≤ k then k - n else k) = k % n := by
  split
  · rw [Nat.mod_eq_sub_mod (by assumption), Nat.mod_eq_of_lt (by omega)]
  · rw [Nat.mod_eq_of_lt (by omega)]

theorem toList_clear (q : SmallQueue α N) : q.clear.toList = [] := by
  rw [toList, clear]
  cases q.full <;> rfl

theorem empty_iff (q : SmallQueue α N) : q.empty = true ↔ q.toList = [] := by
  have hwindow : window q.c default q.begin q.size = [] ↔ q.size = 0 := by
    rw [← List.length_eq_zero_iff, length_window]
  rw [empty, decide_eq_true_iff, toList, List.append_eq_nil_iff, hwindow]

theorem toList_push (q : SmallQueue α N) (val : α) : (q.push val).toList = q.toList ++ [val] := by
  rw [push]
  split
  · exact (List.append_assoc _ _ _).symm
  · next hfull =>
    have hfull : q.full.getD [] = [] := not_not.mp hfull
    split
    · next hlt =>
      have hbegin := q.begin_lt
      have hring := q.ring
      rw [toList, toList]
      dsimp only
      rw [wrap_eq_mod (by omega), hfull, List.append_nil, List.append_nil, ← window_push (by rwa [hring]), hring]
    · exact (List.append_assoc _ _ _).symm

theorem pop_none {q : SmallQueue α N} (h : q.pop = none) : q.toList = [] := by
  rw [pop] at h
  split at h
  · cases h
  · next hzero =>
    have hzero : q.size = 0 := by omega
    rw [toList, hzero]
    split at h
    · cases h
    · next hfull =>
      cases hq : q.full with
      | none => rfl
      | some l =>
        cases l with
        | nil => rfl
        | cons x rest => exact absurd hq (hfull x rest)

theorem pop_some {q q' : SmallQueue α N} {val : α} (h : q.pop = some (val, q')) : q.toList = val :: q'.toList := by
  rw [pop] at h
  split at h
  · next hpos =>
    obtain ⟨rfl, rfl⟩ := Prod.mk.inj (some.inj h)
    have hbegin := q.begin_lt
    obtain ⟨k, hk⟩ := Nat.exists_eq_succ_of_ne_zero (Nat.pos_iff_ne_zero.mp hpos)
    rw [toList, toList]
    dsimp only
    rw [hk, window_cons, q.ring, Nat.mod_eq_of_lt hbegin, wrap_eq_mod (by omega)]
    rfl
  · next hzero =>
    have hzero : q.size = 0 := by omega
    split at h
    · next x rest hfull =>
      obtain ⟨rfl, rfl⟩ := Prod.mk.inj (some.inj h)
      show window q.c default q.begin q.size ++ q.full.getD [] = x :: (window q.c default q.begin q.size ++ rest)
      rw [hfull, hzero]
      rfl
    · cases h

end SmallQueue

/-! One slot. -/

structure PendingError where
  /-- The version in the id the error was sent to. -/
  id : Nat
  errorCode : Int
  errorText : String
  deriving DecidableEq

instance : Inhabited PendingError := ⟨⟨0, 0, ""⟩⟩

structure Id where
  firstVer : Nat
  lockedVer : Nat
  butex : Nat
  pendingQ : SmallQueue PendingError 2
  deriving DecidableEq

inductive Errno where
  | EINVAL
  | EPERM
  | EBUSY
  deriving DecidableEq

def ID_MAX_RANGE : Nat := 1024

namespace Id

def hasVersion (m : Id) (idVer : Nat) : Bool := m.firstVer ≤ idVer ∧ idVer < m.lockedVer

def contendedVer (m : Id) : Nat := m.lockedVer + 1

def unlockableVer (m : Id) : Nat := m.lockedVer + 2

def lastVer (m : Id) : Nat := m.unlockableVer

def endVer (m : Id) : Nat := m.lastVer + 1

/-- `id_create_ranged_impl` on a slot from the pool; `id_create_impl` is the range 1. -/
def create (m : Id) (range : Nat) : Id :=
  let butex := if m.butex = 0 then 1 else m.butex
  { m with butex := butex, firstVer := butex, lockedVer := butex + range }

/-- A section of `bthread_id_lock_and_reset_range_verbose`: the id is locked (`true`), or the
    caller has to wait (`false`). -/
def lockAndResetRange (m : Id) (idVer : Nat) (range : Int) (everContended : Bool) : Except Errno (Id × Bool) :=
  if m.hasVersion idVer then
    if m.butex = m.firstVer then
      let m :=
        if range = 0 then m
        else if range < 0 ∨ ID_MAX_RANGE < range ∨ range + m.firstVer ≤ m.lockedVer then m
        else { m with lockedVer := m.firstVer + range.toNat }
      .ok ({ m with butex := if everContended then m.contendedVer else m.lockedVer }, true)
    else if m.butex ≠ m.unlockableVer then .ok ({ m with butex := m.contendedVer }, false)
    else .error .EPERM
  else .error .EINVAL

def trylock (m : Id) (idVer : Nat) : Except Errno Id :=
  if ¬ m.hasVersion idVer then .error .EINVAL
  else if m.butex ≠ m.firstVer then .error .EBUSY
  else .ok { m with butex := m.lockedVer }

def aboutToDestroy (m : Id) (idVer : Nat) : Except Errno Id :=
  if ¬ m.hasVersion idVer then .error .EINVAL
  else if m.butex = m.firstVer then .error .EPERM
  else .ok { m with butex := m.unlockableVer }

def cancel (m : Id) (idVer : Nat) : Except Errno Id :=
  if ¬ m.hasVersion idVer then .error .EINVAL
  else if m.butex ≠ m.firstVer then .error .EPERM
  else .ok { m with butex := m.endVer, firstVer := m.endVer, lockedVer := m.endVer }

/-- The error that is handed to `on_error`, if there is one. -/
def unlock (m : Id) (idVer : Nat) : Except Errno (Id × Option PendingError) :=
  if ¬ m.hasVersion idVer then .error .EINVAL
  else if m.butex = m.firstVer then .error .EPERM
  else
    match m.pendingQ.pop with
    | some (front, rest) => .ok ({ m with pendingQ := rest }, some front)
    | none => .ok ({ m with butex := m.firstVer }, none)

def unlockAndDestroy (m : Id) (idVer : Nat) : Except Errno Id :=
  if ¬ m.hasVersion idVer then .error .EINVAL
  else if m.butex = m.firstVer then .error .EPERM
  else .ok ⟨m.endVer, m.endVer, m.endVer, m.pendingQ.clear⟩

/-- `bthread_id_error2_verbose`: the id is locked for `on_error` (`true`), or the error is queued. -/
def error (m : Id) (e : PendingError) : Except Errno (Id × Bool) :=
  if ¬ m.hasVersion e.id then .error .EINVAL
  else if m.butex = m.firstVer then .ok ({ m with butex := m.lockedVer }, true)
  else .ok ({ m with pendingQ := m.pendingQ.push e }, false)

end Id

/-! The parties. -/

inductive Party where
  /-- Before a section of `lock_and_reset_range`. -/
  | locking (idVer : Nat) (range : Int) (everContended : Bool)
  /-- In `butex_wait`. -/
  | waiting (idVer : Nat) (range : Int)
  | holding
  /-- `on_error` runs with the error. -/
  | onError (e : PendingError)
  deriving DecidableEq

variable {T : Multiset Party}

/-- The party has the lock. -/
@[simp] def Party.holder : Party → Bool
  | .holding | .onError _ => true
  | _ => false

inductive Status where
  /-- In the pool. -/
  | free
  | created
  /-- Destroyed or cancelled, before `return_resource`. -/
  | returning
  deriving DecidableEq

/-- A creation that is over: the versions of its ids, and its errors. -/
structure Creation where
  firstVer : Nat
  lockedVer : Nat
  queued : List PendingError
  handed : List PendingError
  destroyed : Bool
  deriving DecidableEq

structure Slot where
  id : Id
  status : Status
  parties : Multiset Party
  queued : List PendingError
  handed : List PendingError
  /-- The last one first. -/
  past : List Creation

namespace Slot

/-- There are ids of the slot. -/
def issued (s : Slot) : Bool := s.status ≠ .free ∨ s.past ≠ []

/-- The creation is over. -/
def finish (s : Slot) (m : Id) (destroyed : Bool) : Slot :=
  { s with
    id := m
    status := .returning
    past := ⟨s.id.firstVer, s.id.lockedVer, s.queued, s.handed, destroyed⟩ :: s.past }

def replace (s : Slot) (p : Party) (ps : List Party) : Slot := { s with parties := Threads.replace s.parties p ps }

/-- A section of a locker. -/
def lock (s : Slot) (idVer : Nat) (range : Int) (everContended : Bool) : Slot :=
  let p := Party.locking idVer range everContended
  match s.id.lockAndResetRange idVer range everContended with
  | .ok (m, true) => { s.replace p [.holding] with id := m }
  | .ok (m, false) => { s.replace p [.waiting idVer range] with id := m }
  | .error _ => s.replace p []

def trylock (s : Slot) (idVer : Nat) : Slot :=
  match s.id.trylock idVer with
  | .ok m => { s with id := m, parties := .holding ::ₘ s.parties }
  | .error _ => s

def error (s : Slot) (e : PendingError) : Slot :=
  match s.id.error e with
  | .ok (m, true) => { s with id := m, parties := .onError e ::ₘ s.parties }
  | .ok (m, false) => { s with id := m, queued := s.queued ++ [e] }
  | .error _ => s

def aboutToDestroy (s : Slot) (idVer : Nat) : Slot :=
  match s.id.aboutToDestroy idVer with
  | .ok m => { s with id := m }
  | .error _ => s

def cancel (s : Slot) (idVer : Nat) : Slot :=
  match s.id.cancel idVer with
  | .ok m => s.finish m false
  | .error _ => s

/-- `unlock` by the holder `p`. -/
def unlock (s : Slot) (p : Party) (idVer : Nat) : Slot :=
  match s.id.unlock idVer with
  | .ok (m, some e) => { s.replace p [.onError e] with id := m, handed := s.handed ++ [e] }
  | .ok (m, none) => { s.replace p [] with id := m }
  | .error _ => s

def unlockAndDestroy (s : Slot) (p : Party) (idVer : Nat) : Slot :=
  match s.id.unlockAndDestroy idVer with
  | .ok m => (s.replace p []).finish m true
  | .error _ => s

def create (s : Slot) (range : Nat) : Slot :=
  { s with id := s.id.create range, status := .created, queued := [], handed := [] }

end Slot

inductive Act where
  | create (range : Nat)
  | call (idVer : Nat) (range : Int)
  | lock (idVer : Nat) (range : Int) (everContended : Bool)
  /-- The wait ends: woken up, interrupted, or the butex was changed before. -/
  | wake (idVer : Nat) (range : Int)
  /-- The wait fails, and the call with it. -/
  | fail (idVer : Nat) (range : Int)
  | trylock (idVer : Nat)
  | error (e : PendingError)
  | aboutToDestroy (idVer : Nat)
  | cancel (idVer : Nat)
  | unlock (p : Party) (idVer : Nat)
  | unlockAndDestroy (p : Party) (idVer : Nat)
  | returnResource

def Slot.next (s : Slot) : Act → Option Slot
  | .create range => if s.status = .free ∧ 1 ≤ range ∧ range ≤ ID_MAX_RANGE then some (s.create range) else none
  | .call idVer range => if s.issued then some { s with parties := .locking idVer range false ::ₘ s.parties } else none
  | .lock idVer range c => if .locking idVer range c ∈ s.parties then some (s.lock idVer range c) else none
  | .wake idVer range =>
    if .waiting idVer range ∈ s.parties then some (s.replace (.waiting idVer range) [.locking idVer range true]) else none
  | .fail idVer range => if .waiting idVer range ∈ s.parties then some (s.replace (.waiting idVer range) []) else none
  | .trylock idVer => if s.issued then some (s.trylock idVer) else none
  | .error e => if s.issued then some (s.error e) else none
  | .aboutToDestroy idVer => if s.issued then some (s.aboutToDestroy idVer) else none
  | .cancel idVer => if s.issued then some (s.cancel idVer) else none
  | .unlock p idVer => if p ∈ s.parties ∧ p.holder then some (s.unlock p idVer) else none
  | .unlockAndDestroy p idVer => if p ∈ s.parties ∧ p.holder then some (s.unlockAndDestroy p idVer) else none
  | .returnResource => if s.status = .returning then some { s with status := .free } else none

/-- A slot the pool has just made; its versions are not initialised. -/
def newSlot (firstVer lockedVer : Nat) : Slot :=
  ⟨⟨firstVer, lockedVer, 0, ⟨0, 0, [default, default], none, rfl, by decide, by decide⟩⟩, .free, 0, [], [], []⟩

def idMachine : Machine Slot Act where
  init := fun s => ∃ firstVer lockedVer, s = newSlot firstVer lockedVer
  next := Slot.next

/-! What the sections do. -/

section
variable {m m' : Id} {v : Nat} {range : Int} {c : Bool} {e : PendingError}

theorem lock_locked (h : m.lockAndResetRange v range c = .ok (m', true)) :
    m.hasVersion v ∧ m.butex = m.firstVer ∧ m'.firstVer = m.firstVer ∧ m.lockedVer ≤ m'.lockedVer ∧
      (m'.butex = m'.lockedVer ∨ m'.butex = m'.lockedVer + 1) ∧ m'.pendingQ = m.pendingQ := by
  rw [Id.lockAndResetRange] at h
  split at h
  · next hv =>
    split at h
    · next hfree =>
      have h := (Prod.mk.inj (Except.ok.inj h)).1
      refine ⟨hv, hfree, ?_⟩
      rw [← h]
      dsimp only [Id.contendedVer]
      split
      · cases c <;> simp
      · split
        · cases c <;> simp
        · next hrange =>
          have : m.lockedVer ≤ m.firstVer + range.toNat := by omega
          cases c <;> simp [this]
    · split at h <;> cases h
  · cases h

theorem lock_waits (h : m.lockAndResetRange v range c = .ok (m', false)) :
    m.hasVersion v ∧ m.butex ≠ m.firstVer ∧ m' = { m with butex := m.contendedVer } := by
  rw [Id.lockAndResetRange] at h
  split at h
  · next hv =>
    split at h
    · cases h
    · next hlocked =>
      split at h
      · exact ⟨hv, hlocked, (Prod.mk.inj (Except.ok.inj h)).1.symm⟩
      · cases h
  · cases h

/-- The two checks in front of most sections. -/
theorem ok_of_checks {α : Type} {p : Prop} [Decidable p] {err : Errno} {r : Except Errno α} {x : α}
    (h : (if ¬ m.hasVersion v then .error .EINVAL else if p then .error err else r) = .ok x) :
    m.hasVersion v ∧ ¬ p ∧ r = .ok x := by
  split at h
  · cases h
  · next hv =>
    split at h
    · cases h
    · next hp => exact ⟨not_not.mp hv, hp, h⟩

theorem trylock_ok (h : m.trylock v = .ok m') :
    m.hasVersion v ∧ m.butex = m.firstVer ∧ m' = { m with butex := m.lockedVer } := by
  obtain ⟨hv, hfree, h⟩ := ok_of_checks h
  exact ⟨hv, not_not.mp hfree, (Except.ok.inj h).symm⟩

theorem aboutToDestroy_ok (h : m.aboutToDestroy v = .ok m') :
    m.hasVersion v ∧ m.butex ≠ m.firstVer ∧ m' = { m with butex := m.unlockableVer } := by
  obtain ⟨hv, hlocked, h⟩ := ok_of_checks h
  exact ⟨hv, hlocked, (Except.ok.inj h).symm⟩

theorem cancel_ok (h : m.cancel v = .ok m') : m.hasVersion v ∧ m.butex = m.firstVer ∧
      m' = { m with butex := m.endVer, firstVer := m.endVer, lockedVer := m.endVer } := by
  obtain ⟨hv, hfree, h⟩ := ok_of_checks h
  exact ⟨hv, not_not.mp hfree, (Except.ok.inj h).symm⟩

theorem unlockAndDestroy_ok (h : m.unlockAndDestroy v = .ok m') :
    m.hasVersion v ∧ m.butex ≠ m.firstVer ∧ m' = ⟨m.endVer, m.endVer, m.endVer, m.pendingQ.clear⟩ := by
  obtain ⟨hv, hlocked, h⟩ := ok_of_checks h
  exact ⟨hv, hlocked, (Except.ok.inj h).symm⟩

theorem unlock_hands (h : m.unlock v = .ok (m', some e)) :
    m.hasVersion v ∧ m.butex ≠ m.firstVer ∧ ∃ rest, m.pendingQ.pop = some (e, rest) ∧ m' = { m with pendingQ := rest } := by
  obtain ⟨hv, hlocked, h⟩ := ok_of_checks h
  split at h
  · next front rest hpop =>
    obtain ⟨rfl, hfront⟩ := Prod.mk.inj (Except.ok.inj h)
    cases hfront
    exact ⟨hv, hlocked, rest, hpop, rfl⟩
  · cases h

theorem unlock_unlocks (h : m.unlock v = .ok (m', none)) :
    m.hasVersion v ∧ m.butex ≠ m.firstVer ∧ m.pendingQ.pop = none ∧ m' = { m with butex := m.firstVer } := by
  obtain ⟨hv, hlocked, h⟩ := ok_of_checks h
  split at h
  · cases h
  · next hpop => exact ⟨hv, hlocked, hpop, (Prod.mk.inj (Except.ok.inj h)).1.symm⟩

theorem error_runs (h : m.error e = .ok (m', true)) :
    m.hasVersion e.id ∧ m.butex = m.firstVer ∧ m' = { m with butex := m.lockedVer } := by
  rw [Id.error] at h
  split at h
  · cases h
  · next hv =>
    split at h
    · next hfree => exact ⟨not_not.mp hv, hfree, (Prod.mk.inj (Except.ok.inj h)).1.symm⟩
    · cases h

theorem error_queues (h : m.error e = .ok (m', false)) :
    m.hasVersion e.id ∧ m.butex ≠ m.firstVer ∧ m' = { m with pendingQ := m.pendingQ.push e } := by
  rw [Id.error] at h
  split at h
  · cases h
  · next hv =>
    split at h
    · cases h
    · next hlocked => exact ⟨not_not.mp hv, hlocked, (Prod.mk.inj (Except.ok.inj h)).1.symm⟩

/-- An id whose version the slot does not have. -/
theorem rejected (hv : m.hasVersion v = false) :
    (∀ range c, m.lockAndResetRange v range c = .error .EINVAL) ∧ m.trylock v = .error .EINVAL ∧
      ∀ code text, m.error ⟨v, code, text⟩ = .error .EINVAL := by
  refine ⟨?_, ?_, ?_⟩
  · intro range c
    rw [Id.lockAndResetRange, if_neg (by rw [hv]; exact Bool.false_ne_true)]
  · rw [Id.trylock, if_pos (by rw [hv]; exact Bool.false_ne_true)]
  · intro code text
    rw [Id.error, if_pos (by dsimp only; rw [hv]; exact Bool.false_ne_true)]

end

/-! The invariant. -/

/-- How many parties have the lock. -/
def holders (T : Multiset Party) : Nat := T.countP (fun p => p.holder = true)

theorem holders_cons (p : Party) (T : Multiset Party) : holders (p ::ₘ T) = p.holder.toNat + holders T := by
  rw [holders, Multiset.countP_cons, Nat.add_comm]
  cases p.holder <;> rfl

theorem holders_replace {p : Party} (hp : p ∈ T) (t : Option Party) :
    holders (Threads.replace T p t.toList) + p.holder.toNat = (t.elim 0 fun x => x.holder.toNat) + holders T := by
  obtain ⟨R, rfl, hR⟩ := Threads.replace_spec hp t.toList
  rw [hR, holders_cons]
  cases t with
  | none =>
    rw [toList_none, Multiset.coe_nil, zero_add]
    simp only [elim_none]
    omega
  | some x =>
    have hx : (↑(some x).toList + R : Multiset Party) = x ::ₘ R := by
      rw [toList_some, ← Multiset.cons_coe, Multiset.coe_nil, Multiset.cons_add, zero_add]
    rw [hx, holders_cons]
    simp only [elim_some]
    omega

/-- A slot between its creation and its destruction. -/
structure Live (s : Slot) : Prop where
  range : s.id.firstVer < s.id.lockedVer
  word : s.id.butex = s.id.firstVer ∨ s.id.butex = s.id.lockedVer ∨ s.id.butex = s.id.contendedVer ∨
    s.id.butex = s.id.unlockableVer
  holders : holders s.parties = if s.id.butex = s.id.firstVer then 0 else 1
  unlocked : s.id.butex = s.id.firstVer → s.id.pendingQ.toList = []
  errors : s.queued = s.handed ++ s.id.pendingQ.toList

/-- A slot that is not created: nobody has a lock, no version is the slot's. -/
structure Dead (s : Slot) : Prop where
  holders : holders s.parties = 0
  empty : s.id.pendingQ.toList = []
  versions : s.past ≠ [] → s.id.firstVer = s.id.butex ∧ s.id.lockedVer = s.id.butex
  quiet : s.past = [] → s.status = .free ∧ s.parties = 0 ∧ s.id.butex = 0

/-- A creation that is over. -/
structure Creation.Ended (c : Creation) : Prop where
  range : c.firstVer < c.lockedVer
  handed : c.handed <+: c.queued
  cancelled : c.destroyed = false → c.handed = c.queued

structure Inv (s : Slot) : Prop where
  live : s.status = .created → Live s
  dead : s.status ≠ .created → Dead s
  ended : ∀ c ∈ s.past, c.Ended ∧ c.lockedVer ≤ s.id.firstVer
  past : s.past.Pairwise fun newer older => older.lockedVer ≤ newer.firstVer

section
variable {s s' : Slot} {m : Id} {v : Nat} {p : Party} {e : PendingError}

section

variable (h : Inv s)

include h

/-- A step in the life of a creation. -/
theorem Inv.keep (hcreated : s.status = .created) (hstatus : s'.status = s.status) (hpast : s'.past = s.past)
    (hfirst : s'.id.firstVer = s.id.firstVer) (hlive : Live s → Live s') : Inv s' where
  live := fun _ => hlive (h.live hcreated)
  dead := fun hne => absurd (hstatus.trans hcreated) hne
  ended := by
    rw [hpast, hfirst]
    exact h.ended
  past := by
    rw [hpast]
    exact h.past

/-- Parties that have no lock come and go. -/
theorem Inv.others (hholders : holders T = holders s.parties) (hissued : s.issued) :
    Inv { s with parties := T } where
  live := fun hcreated =>
    let hl := h.live hcreated
    ⟨hl.range, hl.word, hholders.trans hl.holders, hl.unlocked, hl.errors⟩
  dead := fun hne =>
    let hd := h.dead hne
    ⟨hholders.trans hd.holders, hd.empty, hd.versions, fun hpast => by
      have hfree := (hd.quiet hpast).1
      rcases of_decide_eq_true hissued with hx | hx
      · exact absurd hfree hx
      · exact absurd hpast hx⟩
  ended := h.ended
  past := h.past

/-- Only a created slot has versions. -/
theorem Inv.created (hissued : s.issued) (hv : s.id.hasVersion v) : s.status = .created := by
  by_contra hne
  have hd := h.dead hne
  obtain ⟨hle, hlt⟩ := of_decide_eq_true hv
  by_cases hpast : s.past = []
  · have hfree := (hd.quiet hpast).1
    rcases of_decide_eq_true hissued with hx | hx
    · exact hx hfree
    · exact hx hpast
  · have := hd.versions hpast
    omega

/-- Parties are around only once there are ids. -/
theorem Inv.issued (hp : p ∈ s.parties) : s.issued := by
  apply decide_eq_true
  by_contra hnot
  obtain ⟨hfree, hpast⟩ := not_or.mp hnot
  have hfree : s.status = .free := not_not.mp hfree
  have hd := h.dead (by rw [hfree]; decide)
  rw [(hd.quiet (not_not.mp hpast)).2.1] at hp
  exact Multiset.notMem_zero p hp

/-- The lock is taken while it is free. -/
theorem Inv.acquire (hcreated : s.status = .created) (hfree : s.id.butex = s.id.firstVer)
    (hfirst : m.firstVer = s.id.firstVer) (hrange : s.id.lockedVer ≤ m.lockedVer)
    (hword : m.butex = m.lockedVer ∨ m.butex = m.lockedVer + 1) (hqueue : m.pendingQ = s.id.pendingQ)
    (hT : holders T = 1 + holders s.parties) : Inv { s with id := m, parties := T } := by
  refine h.keep hcreated rfl rfl hfirst fun hl => ?_
  have hrange' := hl.range
  have hne : ¬ m.butex = m.firstVer := by omega
  refine ⟨?_, ?_, ?_, fun heq => absurd heq hne, ?_⟩
  · show m.firstVer < m.lockedVer
    omega
  · exact .inr (hword.imp_right .inl)
  · show holders T = if m.butex = m.firstVer then 0 else 1
    rw [if_neg hne, hT, hl.holders, if_pos hfree]
  · show s.queued = s.handed ++ m.pendingQ.toList
    rw [hqueue]
    exact hl.errors

/-- The word changes while the id is locked. -/
theorem Inv.reword (hcreated : s.status = .created) (hlocked : s.id.butex ≠ s.id.firstVer) {word : Nat}
    (hword : word = s.id.contendedVer ∨ word = s.id.unlockableVer) (hT : holders T = holders s.parties) :
    Inv { s with id := { s.id with butex := word }, parties := T } := by
  refine h.keep hcreated rfl rfl rfl fun hl => ?_
  have hrange := hl.range
  have hne : ¬ word = s.id.firstVer := by
    rw [Id.contendedVer, Id.unlockableVer] at hword
    omega
  refine ⟨hrange, .inr (.inr hword), ?_, fun heq => absurd heq hne, hl.errors⟩
  show holders T = if word = s.id.firstVer then 0 else 1
  rw [if_neg hne, hT, hl.holders, if_neg hlocked]

/-- The creation ends. -/
theorem Inv.finish (hcreated : s.status = .created) {q : SmallQueue PendingError 2} (hq : q.toList = [])
    (hT : holders T = 0) {destroyed : Bool} (hall : destroyed = false → s.id.pendingQ.toList = []) :
    Inv (({ s with parties := T }).finish ⟨s.id.endVer, s.id.endVer, s.id.endVer, q⟩ destroyed) := by
  have hl := h.live hcreated
  have hend : s.id.endVer = s.id.lockedVer + 3 := rfl
  have hrange := hl.range
  have hended : Creation.Ended ⟨s.id.firstVer, s.id.lockedVer, s.queued, s.handed, destroyed⟩ := by
    refine ⟨hl.range, ⟨_, hl.errors.symm⟩, fun hd => ?_⟩
    have herrors := hl.errors
    rw [hall hd, List.append_nil] at herrors
    exact herrors.symm
  refine ⟨fun hx => (by cases hx), fun _ => ?_, ?_, ?_⟩
  · exact ⟨hT, hq, fun _ => ⟨rfl, rfl⟩, fun hx => (by cases hx)⟩
  · intro c hc
    show c.Ended ∧ c.lockedVer ≤ s.id.endVer
    rcases List.mem_cons.mp hc with rfl | hc
    · refine ⟨hended, ?_⟩
      dsimp only
      omega
    · have hc := h.ended c hc
      exact ⟨hc.1, by omega⟩
  · apply List.pairwise_cons.mpr
    exact ⟨fun c hc => (h.ended c hc).2, h.past⟩

/-! One lemma for each act. -/

theorem Inv.create (hfree : s.status = .free) {range : Nat} (hrange : 1 ≤ range) : Inv (s.create range) := by
  have hd := h.dead (by rw [hfree]; decide)
  have hfirst : ∀ c ∈ s.past, c.lockedVer ≤ (s.id.create range).firstVer := by
    intro c hc
    have hle := (h.ended c hc).2
    have heq := (hd.versions (List.ne_nil_of_mem hc)).1
    show c.lockedVer ≤ if s.id.butex = 0 then 1 else s.id.butex
    split <;> omega
  refine ⟨fun _ => ⟨?_, .inl rfl, ?_, fun _ => hd.empty, ?_⟩, fun hne => absurd rfl hne, ?_, h.past⟩
  · exact Nat.lt_add_of_pos_right hrange
  · exact hd.holders.trans (if_pos rfl).symm
  · exact hd.empty.symm
  · exact fun c hc => ⟨(h.ended c hc).1, hfirst c hc⟩

theorem Inv.lock {range : Int} {c : Bool} (hp : .locking v range c ∈ s.parties) : Inv (s.lock v range c) := by
  have hissued := h.issued hp
  rw [Slot.lock]
  dsimp only
  split
  · next m hm =>
    obtain ⟨hv, hfree, hfirst, hrange, hword, hqueue⟩ := lock_locked hm
    refine h.acquire (h.created hissued hv) hfree hfirst hrange hword hqueue ?_
    exact holders_replace hp (some .holding)
  · next m hm =>
    obtain ⟨hv, hlocked, rfl⟩ := lock_waits hm
    refine h.reword (h.created hissued hv) hlocked (.inl rfl) ?_
    exact (holders_replace hp (some (.waiting v range))).trans (Nat.zero_add _)
  · exact h.others ((holders_replace hp none).trans (Nat.zero_add _)) hissued

theorem Inv.trylock (hissued : s.issued) : Inv (s.trylock v) := by
  rw [Slot.trylock]
  split
  · next m hm =>
    obtain ⟨hv, hfree, rfl⟩ := trylock_ok hm
    exact h.acquire (m := { s.id with butex := s.id.lockedVer }) (h.created hissued hv) hfree rfl le_rfl (.inl rfl) rfl
      (holders_cons .holding s.parties)
  · exact h

theorem Inv.error (hissued : s.issued) : Inv (s.error e) := by
  rw [Slot.error]
  split
  · next m hm =>
    obtain ⟨hv, hfree, rfl⟩ := error_runs hm
    exact h.acquire (m := { s.id with butex := s.id.lockedVer }) (h.created hissued hv) hfree rfl le_rfl (.inl rfl) rfl
      (holders_cons (.onError e) s.parties)
  · next m hm =>
    obtain ⟨hv, hlocked, rfl⟩ := error_queues hm
    refine h.keep (h.created hissued hv) rfl rfl rfl fun hl => ?_
    refine ⟨hl.range, hl.word, hl.holders, fun heq => absurd heq hlocked, ?_⟩
    show s.queued ++ [e] = s.handed ++ (s.id.pendingQ.push e).toList
    rw [SmallQueue.toList_push, ← List.append_assoc, hl.errors]
  · exact h

theorem Inv.aboutToDestroy (hissued : s.issued) : Inv (s.aboutToDestroy v) := by
  rw [Slot.aboutToDestroy]
  split
  · next m hm =>
    obtain ⟨hv, hlocked, rfl⟩ := aboutToDestroy_ok hm
    exact h.reword (h.created hissued hv) hlocked (.inr rfl) rfl
  · exact h

theorem Inv.cancel (hissued : s.issued) : Inv (s.cancel v) := by
  rw [Slot.cancel]
  split
  · next m hm =>
    obtain ⟨hv, hfree, rfl⟩ := cancel_ok hm
    have hcreated := h.created hissued hv
    have hl := h.live hcreated
    have hempty := hl.unlocked hfree
    exact h.finish hcreated hempty (hl.holders.trans (if_pos hfree)) fun _ => hempty
  · exact h

theorem Inv.unlock (hp : p ∈ s.parties) (hholder : p.holder) : Inv (s.unlock p v) := by
  have hissued := h.issued hp
  rw [Slot.unlock]
  split
  · next m front hm =>
    -- the lock goes on to `on_error`
    obtain ⟨hv, hlocked, rest, hpop, rfl⟩ := unlock_hands hm
    refine h.keep (h.created hissued hv) rfl rfl rfl fun hl => ?_
    refine ⟨hl.range, hl.word, ?_, fun heq => absurd heq hlocked, ?_⟩
    · have hcount := holders_replace hp (some (.onError front))
      rw [hholder] at hcount
      have hsame : holders (Threads.replace s.parties p [.onError front]) = holders s.parties := by
        simpa [Nat.add_comm] using hcount
      exact hsame.trans hl.holders
    · have herrors := hl.errors
      rw [SmallQueue.pop_some hpop] at herrors
      show s.queued = s.handed ++ [front] ++ rest.toList
      rw [herrors, List.append_assoc]
      rfl
  · next m hm =>
    obtain ⟨hv, hlocked, hpop, rfl⟩ := unlock_unlocks hm
    refine h.keep (h.created hissued hv) rfl rfl rfl fun hl => ?_
    refine ⟨hl.range, .inl rfl, ?_, fun _ => SmallQueue.pop_none hpop, hl.errors⟩
    have hcount := holders_replace hp none
    have hone := hl.holders
    rw [if_neg hlocked] at hone
    rw [hholder, hone] at hcount
    show holders (Threads.replace s.parties p []) = if s.id.firstVer = s.id.firstVer then 0 else 1
    rw [if_pos rfl]
    exact Nat.add_right_cancel (hcount.trans (Nat.zero_add 1))
  · exact h

theorem Inv.unlockAndDestroy (hp : p ∈ s.parties) (hholder : p.holder) : Inv (s.unlockAndDestroy p v) := by
  have hissued := h.issued hp
  rw [Slot.unlockAndDestroy]
  split
  · next m hm =>
    obtain ⟨hv, hlocked, rfl⟩ := unlockAndDestroy_ok hm
    have hcreated := h.created hissued hv
    have hone := (h.live hcreated).holders
    have hcount := holders_replace hp none
    rw [if_neg hlocked] at hone
    rw [hholder, hone] at hcount
    refine h.finish hcreated (SmallQueue.toList_clear _) ?_ fun hx => (by cases hx)
    exact Nat.add_right_cancel (hcount.trans (Nat.zero_add 1))
  · exact h

theorem Inv.returnResource (hreturning : s.status = .returning) : Inv { s with status := .free } := by
  have hd := h.dead (by rw [hreturning]; decide)
  refine ⟨fun hx => (by cases hx), fun _ => ⟨hd.holders, hd.empty, hd.versions, fun hpast => ?_⟩, h.ended, h.past⟩
  have hfree := (hd.quiet hpast).1
  rw [hreturning] at hfree
  cases hfree

theorem Inv.next {a : Act} (hn : s.next a = some s') : Inv s' := by
  cases a with
  | create range =>
    obtain ⟨⟨hfree, hrange, _⟩, rfl⟩ := ite_some_none_eq_some.mp hn
    exact h.create hfree hrange
  | call v range =>
    obtain ⟨hissued, rfl⟩ := ite_some_none_eq_some.mp hn
    exact h.others ((holders_cons _ _).trans (Nat.zero_add _)) hissued
  | lock v range c =>
    obtain ⟨hp, rfl⟩ := ite_some_none_eq_some.mp hn
    exact h.lock hp
  | wake v range =>
    obtain ⟨hp, rfl⟩ := ite_some_none_eq_some.mp hn
    exact h.others ((holders_replace hp (some (.locking v range true))).trans (Nat.zero_add _)) (h.issued hp)
  | fail v range =>
    obtain ⟨hp, rfl⟩ := ite_some_none_eq_some.mp hn
    exact h.others ((holders_replace hp none).trans (Nat.zero_add _)) (h.issued hp)
  | trylock v =>
    obtain ⟨hissued, rfl⟩ := ite_some_none_eq_some.mp hn
    exact h.trylock hissued
  | error e =>
    obtain ⟨hissued, rfl⟩ := ite_some_none_eq_some.mp hn
    exact h.error hissued
  | aboutToDestroy v =>
    obtain ⟨hissued, rfl⟩ := ite_some_none_eq_some.mp hn
    exact h.aboutToDestroy hissued
  | cancel v =>
    obtain ⟨hissued, rfl⟩ := ite_some_none_eq_some.mp hn
    exact h.cancel hissued
  | unlock p v =>
    obtain ⟨⟨hp, hholder⟩, rfl⟩ := ite_some_none_eq_some.mp hn
    exact h.unlock hp hholder
  | unlockAndDestroy p v =>
    obtain ⟨⟨hp, hholder⟩, rfl⟩ := ite_some_none_eq_some.mp hn
    exact h.unlockAndDestroy hp hholder
  | returnResource =>
    obtain ⟨hreturning, rfl⟩ := ite_some_none_eq_some.mp hn
    exact h.returnResource hreturning

end

theorem inv_reachable (h : idMachine.Reachable s) : Inv s := by
  refine h.invariant (I := Inv) ?_ fun s a s' hs hn => hs.next hn
  rintro s ⟨firstVer, lockedVer, rfl⟩
  refine ⟨fun hx => (by cases hx), fun _ => ⟨rfl, rfl, fun hne => absurd rfl hne, fun _ => ⟨rfl, rfl, rfl⟩⟩, ?_, .nil⟩
  exact List.forall_mem_nil _

theorem Inv.holders_le (h : Inv s) : BthreadId.holders s.parties ≤ 1 := by
  by_cases hcreated : s.status = .created
  · rw [(h.live hcreated).holders]
    split <;> omega
  · rw [(h.dead hcreated).holders]
    exact Nat.zero_le 1

/-- An id of a creation that is over has no version of the slot. -/
theorem Inv.stale (h : Inv s) {c : Creation} (hc : c ∈ s.past) (hv : v < c.lockedVer) : s.id.hasVersion v = false := by
  have hle := (h.ended c hc).2
  apply decide_eq_false
  omega

end

/-- **Locking and errors of a `bthread_id`.** At most one party has the lock, a running `on_error`
    counted, and none while the id is unlocked. The errors queued since the creation are those
    that `unlock` handed to `on_error`, in this order, and those still in the queue, which is empty
    while the id is unlocked; a creation that is over has handed over the first of its errors, and
    all of them unless it was destroyed. The versions of two creations are apart, the ids of one
    that is over are rejected, and the CHECK of the next creation holds. -/
theorem id_lock_and_errors {s : Slot} (h : idMachine.Reachable s) :
    holders s.parties ≤ 1 ∧
    (s.status = .created → s.id.butex = s.id.firstVer → holders s.parties = 0 ∧ s.id.pendingQ.empty = true) ∧
    (s.status = .created → s.queued = s.handed ++ s.id.pendingQ.toList) ∧
    (∀ c ∈ s.past, c.handed <+: c.queued ∧ (c.destroyed = false → c.handed = c.queued)) ∧
    s.past.Pairwise (fun newer older => older.lockedVer ≤ newer.firstVer) ∧
    (∀ c ∈ s.past, s.status = .created → c.lockedVer ≤ s.id.firstVer) ∧
    (∀ c ∈ s.past, ∀ v, c.firstVer ≤ v → v < c.lockedVer →
      (∀ range contended, s.id.lockAndResetRange v range contended = .error .EINVAL) ∧
      s.id.trylock v = .error .EINVAL ∧ ∀ code text, s.id.error ⟨v, code, text⟩ = .error .EINVAL) ∧
    (s.status = .free → s.id.pendingQ.empty = true) := by
  have hinv := inv_reachable h
  refine ⟨hinv.holders_le, ?_, fun hcreated => (hinv.live hcreated).errors, ?_, hinv.past, ?_, ?_, ?_⟩
  · intro hcreated hfree
    have hl := hinv.live hcreated
    exact ⟨hl.holders.trans (if_pos hfree), (SmallQueue.empty_iff _).mpr (hl.unlocked hfree)⟩
  · intro c hc
    have hended := (hinv.ended c hc).1
    exact ⟨hended.handed, hended.cancelled⟩
  · exact fun c hc _ => (hinv.ended c hc).2
  · exact fun c hc v _ hlt => rejected (hinv.stale hc hlt)
  · intro hfree
    exact (SmallQueue.empty_iff _).mpr (hinv.dead (by rw [hfree]; decide)).empty

/-- A holder gets three errors, hands over two and destroys the id; the next creation is locked. -/
def threeErrors : List Act :=
  [.create 2, .call 1 5, .lock 1 5 false, .error ⟨1, 7, "a"⟩, .error ⟨2, 8, "b"⟩, .error ⟨3, 9, "c"⟩, .unlock .holding 1,
    .unlock (.onError ⟨1, 7, "a"⟩) 1, .unlockAndDestroy (.onError ⟨2, 8, "b"⟩) 1, .returnResource, .create 1, .trylock 9]

theorem threeErrors_handed :
    ∃ s, idMachine.Run threeErrors s ∧
      s.past = [⟨1, 6, [⟨1, 7, "a"⟩, ⟨2, 8, "b"⟩, ⟨3, 9, "c"⟩], [⟨1, 7, "a"⟩, ⟨2, 8, "b"⟩], true⟩] ∧
      holders s.parties = 1 ∧ s.id.trylock 5 = .error .EINVAL := by
  obtain ⟨s, hrun, hpast, hholders⟩ : ∃ s, idMachine.Run threeErrors s ∧
      s.past = [⟨1, 6, [⟨1, 7, "a"⟩, ⟨2, 8, "b"⟩, ⟨3, 9, "c"⟩], [⟨1, 7, "a"⟩, ⟨2, 8, "b"⟩], true⟩] ∧
      holders s.parties = 1 :=
    Machine.exists_run ⟨0, 0, rfl⟩ (by decide +kernel)
  have hstale := (id_lock_and_errors ⟨_, hrun⟩).2.2.2.2.2.2.1
  rw [hpast] at hstale
  exact ⟨s, hrun, hpast, hholders, (hstale _ List.mem_cons_self 5 (by decide) (by decide)).2.1⟩

end LightRpc.BthreadId

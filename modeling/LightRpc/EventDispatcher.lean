import LightRpc.Lib.Machine
import LightRpc.Lib.Lifetime

/- The event dispatcher (`event_dispatcher.{h,cc}`).

   A registration is an `IOEventData` object, created in a slot of its pool and known by a
   versioned id. `_fd_map` holds the id registered for a file descriptor and is changed under
   `_mutex`, so the locked part of a call is one step. epoll carries the id: `Dispatch` takes
   a reference by it before it reads the callbacks, whatever has happened since the event was
   fetched. References are those of `Lib.Lifetime`.

   The environment decides which slot is used, what `epoll_ctl` returns, and which batches of
   events are dispatched and when: any ids with any event bits, so that events may have been
   fetched at any earlier time and file descriptors may have been closed and used again.

   Left out: the destructor of the dispatcher, and `INVALID_REGISTRATION` events, which only
   wake its thread up. -/
namespace LightRpc.Events

open Lib Lib.Lifetime Multiset Function Option

/-- `IOEventDataOptions`, with functions as numbers. -/
structure Options where
  inputCb : Option Nat
  outputCb : Option Nat
  userData : Nat
  onRecycled : Option Nat
  deriving DecidableEq, Repr

namespace Options

def blank : Options := ⟨none, none, 0, none⟩

/-- The callback that `Call` chooses. -/
def callback (o : Options) (output : Bool) : Option Nat := if output then o.outputCb else o.inputCb

end Options

abbrev Registration := Lifetime.Id

def EPOLLIN : Nat := 1
def EPOLLOUT : Nat := 4
def EPOLLERR : Nat := 8
def EPOLLHUP : Nat := 16

/-- A call `Dispatch(id, events, output)`. -/
structure Work where
  id : Registration
  events : Nat
  output : Bool
  deriving DecidableEq, Repr

/-- The calls of `Dispatch` for one event. -/
def dispatches (e : Registration × Nat) : List Work :=
  (if e.2 &&& (EPOLLIN ||| EPOLLERR ||| EPOLLHUP) ≠ 0 then [⟨e.1, e.2, false⟩] else []) ++
    (if e.2 &&& (EPOLLOUT ||| EPOLLERR ||| EPOLLHUP) ≠ 0 then [⟨e.1, e.2, true⟩] else [])

/-- What happens, in order. `ticket` numbers the references taken by `Dispatch`. -/
inductive Entry where
  | created (id : Registration) (o : Options)
  | registered (fd : Int) (id : Registration)
  | unregistered (fd : Int) (id : Registration)
  | invalidated (id : Registration)
  | addressed (id : Registration) (ticket : Nat)
  | called (id : Registration) (ticket : Nat) (output : Bool) (cb userData events : Nat)
  | returned (id : Registration) (ticket : Nat)
  | recycled (id : Registration) (onRecycled : Option Nat)
  deriving DecidableEq, Repr

inductive Pc where
  /-- In `RegisterEvent`, before `IOEventData::Create`. -/
  | create (fd : Int) (o : Options)
  /-- Before the locked part of `RegisterEvent`. -/
  | publish (fd : Int) (id : Registration)
  /-- About to call `SetFailedById`. -/
  | invalidate (id : Registration)
  /-- In `UnregisterEvent`; `none` is `INVALID_REGISTRATION`. -/
  | unregister (fd : Int) (id : Option Registration)
  /-- In `RunEpollLoop`, with these calls to go. -/
  | loop (work : List Work)
  /-- In `Dispatch` with a reference, before `Call`. -/
  | call (w : Work) (ticket : Nat) (rest : List Work)
  | callback (id : Registration) (ticket : Nat) (rest : List Work)
  /-- About to drop a reference. -/
  | release (id : Registration) (rest : List Work)
  /-- Dropped the last reference: in `BeforeRecycled`. -/
  | recycle (id : Registration) (rest : List Work)
  deriving DecidableEq, Repr

structure DispatchState where
  pool : Pool Options
  fdMap : List (Int × Registration)
  threads : Multiset Pc
  tickets : Nat
  log : List Entry

/-- What the environment decides for a step: the slot that `Create` finds, if any, and
    whether `epoll_ctl` succeeds. -/
structure Choice where
  slot : Option Nat
  epollCtl : Bool
  deriving DecidableEq, Repr

inductive Act where
  | registerEvent (fd : Int) (o : Options)
  | unregisterEvent (fd : Int) (id : Option Registration)
  | epollWait (batch : List (Registration × Nat))
  | step (pc : Pc) (c : Choice)
  deriving DecidableEq, Repr

namespace DispatchState

def start : DispatchState := ⟨[], [], 0, 0, []⟩

/-- `_fd_map.find(fd)` -/
def lookup (s : DispatchState) (fd : Int) : Option Registration := (s.fdMap.find? (·.1 = fd)).map Prod.snd

def spawn (s : DispatchState) (pc : Pc) : DispatchState := { s with threads := pc ::ₘ s.threads }

def goto (s : DispatchState) (pc : Pc) (pcs : List Pc) : DispatchState :=
  { s with threads := Threads.replace s.threads pc pcs }

def note (s : DispatchState) (e : Entry) : DispatchState := { s with log := s.log ++ [e] }

def setPool (s : DispatchState) (pool : Pool Options) : DispatchState := { s with pool := pool }

/-- The options in the memory of a slot. -/
def options (s : DispatchState) (id : Registration) : Options := (s.pool.memory id.slot).getD .blank

/-- What the thread at `pc` does, and where it goes. -/
def stepOf (s : DispatchState) (c : Choice) : Pc → Option (DispatchState × List Pc)
  | .create fd o =>
    match c.slot with
    | none => some (s, [])
    | some i => (s.pool.create i o).map fun t => ((s.setPool t.1).note (.created t.2 o), [.publish fd t.2])
  | .publish fd id =>
    if (s.lookup fd).isSome then some (s, [.invalidate id])
    else if c.epollCtl then some ({ s with fdMap := (fd, id) :: s.fdMap }.note (.registered fd id), [])
    else some (s, [.invalidate id])
  | .invalidate id =>
    match s.pool.setFailed id with
    | none => some (s, [])
    | some pool => some ((s.setPool pool).note (.invalidated id), [.release id []])
  | .unregister _ none => some (s, [])
  | .unregister fd (some id) =>
    if s.lookup fd = some id then
      some ({ s with fdMap := s.fdMap.erase (fd, id) }.note (.unregistered fd id), [.invalidate id])
    else some (s, [])
  | .loop [] => some (s, [])
  | .loop (w :: rest) =>
    match s.pool.address w.id with
    | none => some (s, [.loop rest])
    | some pool => some ({ s.setPool pool with tickets := s.tickets + 1 }.note (.addressed w.id s.tickets),
        [.call w s.tickets rest])
  | .call w ticket rest =>
    match (s.options w.id).callback w.output with
    | none => some (s, [.release w.id rest])
    | some cb => some (s.note (.called w.id ticket w.output cb (s.options w.id).userData w.events),
        [.callback w.id ticket rest])
  | .callback id ticket rest => some (s.note (.returned id ticket), [.release id rest])
  | .release id rest =>
    some (s.setPool (s.pool.drop id).1, if (s.pool.drop id).2 then [.recycle id rest] else [.loop rest])
  | .recycle id rest =>
    some ((s.setPool (s.pool.recycle id .blank)).note (.recycled id (s.options id).onRecycled), [.loop rest])

def next (s : DispatchState) : Act → Option DispatchState
  | .registerEvent fd o => some (s.spawn (.create fd o))
  | .unregisterEvent fd id => some (s.spawn (.unregister fd id))
  | .epollWait batch => some (s.spawn (.loop (batch.flatMap dispatches)))
  | .step pc c => if pc ∈ s.threads then (s.stepOf c pc).map (fun t => t.1.goto pc t.2) else none

end DispatchState

def dispatchMachine : Machine DispatchState Act where
  init s := s = .start
  next := DispatchState.next

variable {s s' : DispatchState} {pc : Pc} {pcs : List Pc} {id : Registration} {fd : Int}

/-! Who has a stake in which registration. -/

def Pc.stakes : Pc → Multiset (Stake Registration)
  | .publish _ id | .invalidate id => {.owner id}
  | .call w _ _ => {.ref w.id}
  | .callback id _ _ | .release id _ => {.ref id}
  | .recycle id _ => {.recycler id}
  | _ => 0

/-! What a step does. -/

/-- The calling thread was at the first argument, leaves the state as the second one, and
    goes on as the threads of the third. -/
inductive Did (s : DispatchState) : Pc → DispatchState → List Pc → Prop where
  | quiet {pc : Pc} {pcs : List Pc} (stakes : (pcs.map Pc.stakes).sum = pc.stakes)
      (publish : ∀ fd id, .publish fd id ∉ pcs) (call : ∀ w t rest, .call w t rest ∉ pcs)
      (callback : ∀ id t rest, pc ≠ .callback id t rest) : Did s pc s pcs
  | created {fd : Int} {o : Options} {pool : Pool Options} {id : Registration} (h : Pool.Created s.pool o pool id) :
      Did s (.create fd o) ((s.setPool pool).note (.created id o)) [.publish fd id]
  | registered {fd : Int} {id : Registration} (h : s.lookup fd = none) :
      Did s (.publish fd id) ({ s with fdMap := (fd, id) :: s.fdMap }.note (.registered fd id)) []
  | unregistered {fd : Int} {id : Registration} (h : s.lookup fd = some id) :
      Did s (.unregister fd (some id)) ({ s with fdMap := s.fdMap.erase (fd, id) }.note (.unregistered fd id))
        [.invalidate id]
  | invalidated {id : Registration} (h : (s.pool.status id).phase = .live) :
      Did s (.invalidate id)
        ((s.setPool (s.pool.setStatus id ⟨.failed, (s.pool.status id).count⟩)).note (.invalidated id)) [.release id []]
  /-- `SetFailedById` of a registration that has failed already. -/
  | refused {id : Registration} (h : (s.pool.status id).phase ≠ .live) : Did s (.invalidate id) s []
  | addressed {w : Work} {rest : List Work} (h : (s.pool.status w.id).phase = .live) :
      Did s (.loop (w :: rest))
        ({ s.setPool (s.pool.setStatus w.id ⟨.live, (s.pool.status w.id).count + 1⟩) with
          tickets := s.tickets + 1 }.note (.addressed w.id s.tickets)) [.call w s.tickets rest]
  | called {w : Work} {t cb : Nat} {rest : List Work} (h : (s.options w.id).callback w.output = some cb) :
      Did s (.call w t rest) (s.note (.called w.id t w.output cb (s.options w.id).userData w.events))
        [.callback w.id t rest]
  | returned {id : Registration} {t : Nat} {rest : List Work} :
      Did s (.callback id t rest) (s.note (.returned id t)) [.release id rest]
  | dropped {id : Registration} {rest : List Work} :
      Did s (.release id rest) (s.setPool (s.pool.drop id).1)
        (if (s.pool.drop id).2 then [.recycle id rest] else [.loop rest])
  | recycled {id : Registration} {rest : List Work} :
      Did s (.recycle id rest)
        ((s.setPool (s.pool.recycle id .blank)).note (.recycled id (s.options id).onRecycled)) [.loop rest]

theorem stepOf_did {c : Choice} (h : s.stepOf c pc = some (s', pcs)) : Did s pc s' pcs := by
  revert h
  fun_cases DispatchState.stepOf s c pc <;> intro h
  case case2 i hi =>
    obtain ⟨t, ht, heq⟩ := map_eq_some_iff.mp h
    cases heq
    exact .created (Pool.create_spec ht)
  all_goals cases h
  case case4 hnone _ => exact .registered (not_isSome_iff_eq_none.mp hnone)
  case case6 id hfail =>
    simp only [Pool.setFailed, ite_eq_right_iff, reduceCtorEq, imp_false] at hfail
    exact .refused hfail
  case case7 id pool hfail =>
    simp only [Pool.setFailed, Option.ite_none_right_eq_some, Option.some.injEq] at hfail
    obtain ⟨hlive, rfl⟩ := hfail
    exact .invalidated hlive
  case case9 hid => exact .unregistered hid
  case case13 w rest pool haddr =>
    simp only [Pool.address, Option.ite_none_right_eq_some, Option.some.injEq] at haddr
    obtain ⟨hlive, rfl⟩ := haddr
    exact .addressed hlive
  case case15 hcb => exact .called hcb
  case case16 => exact .returned
  case case17 => exact .dropped
  case case18 => exact .recycled
  all_goals exact .quiet (by simp [Pc.stakes]) (by simp) (by simp) (by simp)

/-! Stakes. -/

/-- The stakes of `_fd_map`. -/
def DispatchState.mapped (s : DispatchState) : Multiset (Stake Registration) :=
  ↑(s.fdMap.map (fun e => Stake.owner e.2))

def DispatchState.stakes (s : DispatchState) : Multiset (Stake Registration) := s.mapped + s.threads.bind Pc.stakes

theorem stakes_of {R : Multiset Pc} (h : s.threads = pc ::ₘ R) :
    s.stakes = pc.stakes + (s.mapped + R.bind Pc.stakes) := by
  rw [DispatchState.stakes, h, cons_bind, add_left_comm]

theorem stakes_goto {R : Multiset Pc} (h : s.threads = pc ::ₘ R) (pcs : List Pc) :
    (s.goto pc pcs).stakes = (pcs.map Pc.stakes).sum + (s.mapped + R.bind Pc.stakes) := by
  have hthreads : (s.goto pc pcs).threads = ↑pcs + R := by
    show Threads.replace s.threads pc pcs = _
    rw [h, Threads.replace, erase_cons_head]
  rw [DispatchState.stakes, hthreads, add_bind, add_left_comm]
  rfl

theorem Did.threads (hd : Did s pc s' pcs) : s'.threads = s.threads := by
  cases hd <;> rfl

structure Lives (s : DispatchState) : Prop where
  stakes : Inv s.pool.status s.stakes
  keys : (s.fdMap.map Prod.fst).Nodup

theorem lookup_none : s.lookup fd = none ↔ fd ∉ s.fdMap.map Prod.fst := by
  rw [DispatchState.lookup, map_eq_none_iff, List.find?_eq_none]
  simp only [decide_eq_true_eq, List.mem_map, not_exists, not_and]

theorem lookup_some (hk : (s.fdMap.map Prod.fst).Nodup) : s.lookup fd = some id ↔ (fd, id) ∈ s.fdMap := by
  rw [DispatchState.lookup, map_eq_some_iff]
  constructor
  · rintro ⟨e, he, rfl⟩
    have hfd : e.1 = fd := by simpa using List.find?_some he
    rw [← hfd]
    exact List.mem_of_find?_eq_some he
  · intro hmem
    cases hf : s.fdMap.find? (·.1 = fd) with
    | none =>
      have := List.find?_eq_none.mp hf _ hmem
      exact absurd (decide_eq_true rfl) this
    | some e =>
      have hfd : e.1 = fd := by simpa using List.find?_some hf
      refine ⟨e, rfl, ?_⟩
      have heq := List.inj_on_of_nodup_map hk (List.mem_of_find?_eq_some hf) hmem hfd
      rw [heq]

/-- Some stakes of one thread, beside those of all others. -/
theorem one_stake (pc : Pc) (T : Multiset (Stake Registration)) :
    (([pc].map Pc.stakes).sum + T : Multiset (Stake Registration)) = pc.stakes + T := by
  rw [List.map_singleton, List.sum_singleton]

theorem mapped_erase (hmem : (fd, id) ∈ s.fdMap) :
    s.mapped = .owner id ::ₘ ↑((s.fdMap.erase (fd, id)).map (fun e => Stake.owner e.2)) := by
  rw [DispatchState.mapped, cons_coe, coe_eq_coe, ← List.map_cons (f := fun e => Stake.owner e.2)
    (a := (fd, id))]
  exact (List.perm_cons_erase hmem).map _

theorem lives_did (hl : Lives s) (hmem : pc ∈ s.threads) (hd : Did s pc s' pcs) : Lives (s'.goto pc pcs) := by
  obtain ⟨R, hR⟩ := exists_cons_of_mem hmem
  have hinv := hl.stakes
  rw [stakes_of hR] at hinv
  suffices hnew : Inv s'.pool.status ((pcs.map Pc.stakes).sum + (s'.mapped + R.bind Pc.stakes)) ∧
      (s'.fdMap.map Prod.fst).Nodup by
    refine ⟨?_, hnew.2⟩
    rw [stakes_goto (hd.threads.trans hR)]
    exact hnew.1
  cases hd with
  | quiet stakes publish call callback =>
    refine ⟨?_, hl.keys⟩
    rw [stakes]
    exact hinv
  | @created fd o pool id h =>
    refine ⟨?_, hl.keys⟩
    rw [one_stake]
    show Inv pool.status (.owner id ::ₘ (s.mapped + _))
    rw [h.status]
    apply Inv.create _ h.before
    rwa [show Pc.stakes (.create fd o) = 0 from rfl, zero_add] at hinv
  | @registered fd id h =>
    refine ⟨?_, List.nodup_cons.mpr ⟨lookup_none.mp h, hl.keys⟩⟩
    -- the owner moves from the thread to the map
    show Inv s.pool.status (0 + ((.owner id ::ₘ s.mapped) + _))
    rw [zero_add, cons_add]
    exact hinv
  | @unregistered fd id h =>
    have hmem := (lookup_some hl.keys).mp h
    refine ⟨?_, hl.keys.sublist (List.erase_sublist.map _)⟩
    rw [one_stake]
    rw [mapped_erase hmem, show Pc.stakes (.unregister fd (some id)) = 0 from rfl, zero_add, cons_add] at hinv
    exact hinv
  | @invalidated id h =>
    refine ⟨?_, hl.keys⟩
    have hne : s.pool.status id ≠ .none := fun heq => absurd (heq ▸ h) (by decide)
    rw [one_stake]
    show Inv (Pool.setStatus s.pool id _).status (.ref id ::ₘ (s.mapped + _))
    rw [Pool.status_setStatus hne]
    exact hinv.setFailed
  | @refused id h => exact absurd (hinv.owner_live (mem_cons_self _ _)) h
  | @addressed w rest h =>
    refine ⟨?_, hl.keys⟩
    have hne : s.pool.status w.id ≠ .none := fun heq => absurd (heq ▸ h) (by decide)
    rw [one_stake]
    show Inv (Pool.setStatus s.pool w.id _).status (.ref w.id ::ₘ (s.mapped + _))
    rw [Pool.status_setStatus hne]
    rw [show Pc.stakes (.loop (w :: rest)) = 0 from rfl, zero_add] at hinv
    exact hinv.address h
  | @called w t cb rest h | @returned id t rest =>
    refine ⟨?_, hl.keys⟩
    rw [one_stake]
    exact hinv
  | @dropped id rest =>
    refine ⟨?_, hl.keys⟩
    have hne : s.pool.status id ≠ .none := by
      intro heq
      have := hinv.ref_held (mem_cons_self _ _)
      rw [heq] at this
      exact absurd this (by decide)
    have hdrop := hinv.drop
    show Inv (Pool.setStatus s.pool id _).status _
    rw [Pool.status_setStatus hne]
    by_cases hlast : (s.pool.status id).phase = .failed ∧ (s.pool.status id).count = 1
    · rw [if_pos hlast] at hdrop
      rw [if_pos (show (s.pool.drop id).2 = true from decide_eq_true hlast), one_stake]
      exact hdrop
    · rw [if_neg hlast] at hdrop
      rw [if_neg (show ¬ (s.pool.drop id).2 = true from fun h => hlast (of_decide_eq_true h)), one_stake]
      show Inv _ (0 + _)
      rw [zero_add]
      exact hdrop
  | @recycled id rest =>
    refine ⟨?_, hl.keys⟩
    have hne : s.pool.status id ≠ .none := by
      intro heq
      have := (hinv.recycler_done (mem_cons_self _ _)).1
      rw [heq] at this
      exact absurd this (by decide)
    rw [one_stake]
    show Inv (Pool.recycle s.pool id .blank).status (0 + (s.mapped + _))
    rw [Pool.status_recycle hne, zero_add]
    exact hinv.recycle

/-! The history. -/

def optionsOf (pool : Pool Options) (id : Registration) : Options := (pool.memory id.slot).getD .blank

def Entry.recycles (id : Registration) : Entry → Bool
  | .recycled id' _ => decide (id' = id)
  | _ => false

/-- The history knows which ids were issued, with what, and how far they have come. -/
structure Recorded (pool : Pool Options) (log : List Entry) : Prop where
  created : ∀ id, (∃ o, .created id o ∈ log) ↔ pool.Issued id
  unique : ∀ id o o', .created id o ∈ log → .created id o' ∈ log → o = o'
  memory : ∀ id, pool.status id ≠ .none → .created id (optionsOf pool id) ∈ log
  invalidated : ∀ id, .invalidated id ∈ log ↔ pool.Issued id ∧ (pool.status id).phase ≠ .live
  recycled : ∀ id, (∃ f, .recycled id f ∈ log) ↔ pool.Issued id ∧ pool.status id = .none
  once : ∀ id, log.countP (Entry.recycles id) ≤ 1

theorem ne_none_of_live {pool : Pool Options} (h : (pool.status id).phase = .live) : pool.status id ≠ .none := by
  intro heq
  rw [heq] at h
  exact absurd h (by decide)

namespace Recorded

variable {pool pool' : Pool Options} {log : List Entry}

theorem start : Recorded [] [] := by
  refine ⟨fun id => ?_, ?_, ?_, fun id => ?_, fun id => ?_, fun id => Nat.zero_le 1⟩ <;> simp [Pool.Issued, Pool.status]

section

variable (h : Recorded pool log)

include h

/-- An entry about something else. -/
theorem note {e : Entry} (hcreated : ∀ id o, e ≠ .created id o) (hinvalidated : ∀ id, e ≠ .invalidated id)
    (hrecycled : ∀ id f, e ≠ .recycled id f) : Recorded pool (log ++ [e]) := by
  have hmem : ∀ x, x ≠ e → (x ∈ log ++ [e] ↔ x ∈ log) := by
    intro x hx
    rw [List.mem_append, List.mem_singleton, or_iff_left hx]
  refine ⟨fun id => ?_, fun id o o' => ?_, fun id hne => ?_, fun id => ?_, fun id => ?_, fun id => ?_⟩
  · rw [← h.created id]
    exact exists_congr fun o => hmem _ (hcreated id o).symm
  · rw [hmem _ (hcreated id o).symm, hmem _ (hcreated id o').symm]
    exact h.unique id o o'
  · exact List.mem_append_left _ (h.memory id hne)
  · rw [hmem _ (hinvalidated id).symm]
    exact h.invalidated id
  · rw [← h.recycled id]
    exact exists_congr fun f => hmem _ (hrecycled id f).symm
  · have hfalse : Entry.recycles id e = false := by
      cases e with
      | recycled id' f => exact absurd rfl (hrecycled id' f)
      | _ => rfl
    rw [List.countP_append, List.countP_singleton, hfalse, if_neg Bool.false_ne_true]
    exact h.once id

/-- A reference is taken or dropped. -/
theorem setStatus {a : Status} (hne : pool.status id ≠ .none) (ha : a ≠ .none)
    (hlive : a.phase = .live ↔ (pool.status id).phase = .live) : Recorded (pool.setStatus id a) log := by
  have hissued := Pool.issued_setStatus hne ha
  have hstatus := Pool.status_setStatus hne a
  refine ⟨fun id' => ?_, h.unique, fun id' hne' => ?_, fun id' => ?_, fun id' => ?_, h.once⟩
  · rw [hissued]
    exact h.created id'
  · rw [optionsOf, Pool.memory_setStatus]
    apply h.memory id'
    rcases eq_or_ne id' id with rfl | hid
    · exact hne
    · rwa [hstatus, update_of_ne hid] at hne'
  · rw [hissued, h.invalidated id', hstatus]
    rcases eq_or_ne id' id with rfl | hid
    · rw [update_self, Ne, Ne, hlive]
    · rw [update_of_ne hid]
  · rw [hissued, h.recycled id', hstatus]
    rcases eq_or_ne id' id with rfl | hid
    · rw [update_self, eq_false hne, eq_false ha]
    · rw [update_of_ne hid]

theorem invalidate {n : Nat} (hlive : (pool.status id).phase = .live) :
    Recorded (pool.setStatus id ⟨.failed, n⟩) (log ++ [.invalidated id]) := by
  have hne := ne_none_of_live hlive
  have ha : (⟨.failed, n⟩ : Status) ≠ .none := by simp [Status.none]
  have hissued := Pool.issued_setStatus hne ha
  have hstatus := Pool.status_setStatus hne ⟨.failed, n⟩
  refine ⟨fun id' => ?_, fun id' o o' => ?_, fun id' hne' => ?_, fun id' => ?_, fun id' => ?_, fun id' => ?_⟩
  · rw [hissued, ← h.created id']
    simp
  · simpa using h.unique id' o o'
  · rw [optionsOf, Pool.memory_setStatus]
    apply List.mem_append_left
    apply h.memory id'
    rcases eq_or_ne id' id with rfl | hid
    · exact hne
    · rwa [hstatus, update_of_ne hid] at hne'
  · rw [hissued, hstatus, List.mem_append, List.mem_singleton, Entry.invalidated.injEq, h.invalidated id']
    rcases eq_or_ne id' id with rfl | hid
    · rw [update_self]
      simp [Pool.issued_of_status hne]
    · rw [update_of_ne hid]
      simp [hid]
  · rw [hissued, hstatus]
    have hold := h.recycled id'
    rcases eq_or_ne id' id with rfl | hid
    · rw [update_self, eq_false ha]
      rw [eq_false hne] at hold
      simpa using hold
    · rw [update_of_ne hid]
      simpa using hold
  · rw [List.countP_append]
    exact h.once id'

theorem recycle {f : Option Nat} (hfailed : (pool.status id).phase = .failed) :
    Recorded (pool.recycle id .blank) (log ++ [.recycled id f]) := by
  have hne : pool.status id ≠ .none := by
    intro heq
    rw [heq] at hfailed
    exact absurd hfailed (by decide)
  have hissued := Pool.issued_recycle hne Options.blank
  have hstatus := Pool.status_recycle hne Options.blank
  have hnever : ∀ f, .recycled id f ∉ log := fun f hf => hne ((h.recycled id).mp ⟨f, hf⟩).2
  refine ⟨fun id' => ?_, fun id' o o' => ?_, fun id' hne' => ?_, fun id' => ?_, fun id' => ?_, fun id' => ?_⟩
  · rw [hissued, ← h.created id']
    simp
  · simpa using h.unique id' o o'
  · rcases eq_or_ne id' id with rfl | hid
    · rw [hstatus, update_self] at hne'
      exact absurd rfl hne'
    · rw [hstatus, update_of_ne hid] at hne'
      have hslot : id'.slot ≠ id.slot := by
        intro hslot
        -- two generations of one slot are not there at once
        obtain ⟨c, hc, hg, -⟩ := Pool.exists_cell hne
        obtain ⟨c', hc', hg', -⟩ := Pool.exists_cell hne'
        rw [hslot, hc] at hc'
        obtain rfl := some.inj hc'
        apply hid
        cases id'
        cases id
        simp_all
      rw [optionsOf, Pool.memory_recycle_ne hslot]
      exact List.mem_append_left _ (h.memory id' hne')
  · rw [hissued, hstatus]
    have hold := h.invalidated id'
    rcases eq_or_ne id' id with rfl | hid
    · rw [update_self]
      rw [hfailed] at hold
      simpa [Status.none] using hold
    · rw [update_of_ne hid]
      simpa using hold
  · rw [hissued, hstatus]
    have hold := h.recycled id'
    rcases eq_or_ne id' id with rfl | hid
    · rw [update_self]
      simp [Pool.issued_of_status hne]
    · rw [update_of_ne hid, ← hold]
      simp [hid]
  · rw [List.countP_append, List.countP_singleton]
    have hold := h.once id'
    by_cases hid : id = id'
    · subst hid
      have hzero : log.countP (Entry.recycles id) = 0 := by
        rw [List.countP_eq_zero]
        intro e he hrec
        cases e with
        | recycled id' f =>
          obtain rfl : id' = id := of_decide_eq_true hrec
          exact hnever f he
        | _ => exact absurd hrec Bool.false_ne_true
      rw [hzero]
      split <;> omega
    · rw [if_neg (by simpa [Entry.recycles] using hid)]
      exact hold

theorem create {o : Options} (hc : Pool.Created pool o pool' id) : Recorded pool' (log ++ [.created id o]) := by
  have hold : ∀ id', id' ≠ id → pool'.status id' = pool.status id' := by
    intro id' hid
    rw [hc.status, update_of_ne hid]
  have hnew : pool'.status id = ⟨.live, 1⟩ := by rw [hc.status, update_self]
  have hissued : ∀ id', id' ≠ id → (pool'.Issued id' ↔ pool.Issued id') := by
    intro id' hid
    rw [hc.issued, or_iff_left hid]
  have hnone : ∀ o', .created id o' ∉ log := fun o' ho' => hc.fresh ((h.created id).mp ⟨o', ho'⟩)
  refine ⟨fun id' => ?_, fun id' o1 o2 h1 h2 => ?_, fun id' hne' => ?_, fun id' => ?_, fun id' => ?_, fun id' => ?_⟩
  · rw [hc.issued, ← h.created id']
    constructor
    · rintro ⟨o', ho'⟩
      rcases List.mem_append.mp ho' with ho' | ho'
      · exact .inl ⟨o', ho'⟩
      · right
        exact (Entry.created.inj (List.mem_singleton.mp ho')).1
    · rintro (⟨o', ho'⟩ | rfl)
      · exact ⟨o', List.mem_append_left _ ho'⟩
      · exact ⟨o, by simp⟩
  · rcases eq_or_ne id' id with rfl | hid
    · have hself : ∀ o', .created id' o' ∈ log ++ [.created id' o] → o' = o := by
        intro o' ho'
        rcases List.mem_append.mp ho' with hpast | hlast
        · exact absurd hpast (hnone o')
        · exact (Entry.created.inj (List.mem_singleton.mp hlast)).2
      rw [hself o1 h1, hself o2 h2]
    · have hother : ∀ o', .created id' o' ∈ log ++ [.created id o] → .created id' o' ∈ log := by
        intro o' ho'
        rcases List.mem_append.mp ho' with hpast | hlast
        · exact hpast
        · exact absurd (Entry.created.inj (List.mem_singleton.mp hlast)).1 hid
      exact h.unique id' o1 o2 (hother o1 h1) (hother o2 h2)
  · rcases eq_or_ne id' id with rfl | hid
    · rw [optionsOf, hc.memory, update_self]
      simp
    · rw [hold id' hid] at hne'
      have hslot : id'.slot ≠ id.slot := fun hslot => hne' (hc.alone id' hslot)
      rw [optionsOf, hc.memory, update_of_ne hslot]
      exact List.mem_append_left _ (h.memory id' hne')
  · have hlog : Entry.invalidated id' ∈ log ++ [.created id o] ↔ .invalidated id' ∈ log := by simp
    rw [hlog, h.invalidated id']
    rcases eq_or_ne id' id with rfl | hid
    · rw [hnew]
      simp [hc.fresh]
    · rw [hold id' hid, hissued id' hid]
  · have hlog : (∃ f, Entry.recycled id' f ∈ log ++ [.created id o]) ↔ ∃ f, .recycled id' f ∈ log := by simp
    rw [hlog, h.recycled id']
    rcases eq_or_ne id' id with rfl | hid
    · rw [hnew]
      simp [hc.fresh, Status.none]
    · rw [hold id' hid, hissued id' hid]
  · rw [List.countP_append]
    exact h.once id'

end

end Recorded

theorem recorded_did (hl : Lives s) (hmem : pc ∈ s.threads) (hr : Recorded s.pool s.log) (hd : Did s pc s' pcs) :
    Recorded s'.pool s'.log := by
  obtain ⟨R, hR⟩ := exists_cons_of_mem hmem
  have hinv := hl.stakes
  rw [stakes_of hR] at hinv
  cases hd with
  | quiet stakes publish call callback => exact hr
  | refused h => exact hr
  | created h => exact hr.create h
  | registered h | unregistered h | called h | returned => exact hr.note (by simp) (by simp) (by simp)
  | invalidated h => exact hr.invalidate h
  | addressed h =>
    refine (hr.setStatus (ne_none_of_live h) ?_ ?_).note (by simp) (by simp) (by simp)
    · simp [Status.none]
    · exact ⟨fun _ => h, fun _ => rfl⟩
  | @dropped id rest =>
    have hthere := hinv.ref_there (mem_cons_self (Stake.ref id) _)
    refine hr.setStatus (fun heq => hthere ?_) (fun heq => hthere (congrArg Status.phase heq)) Iff.rfl
    rw [heq]
    rfl
  | @recycled id rest =>
    exact hr.recycle (hinv.recycler_done (mem_cons_self (Stake.recycler id) _)).1

/-! `_fd_map` and the history. -/

structure Mapped (s : DispatchState) : Prop where
  registered : ∀ fd id, .registered fd id ∈ s.log → s.pool.Issued id ∧ ∀ fd', .publish fd' id ∉ s.threads
  unregistered : ∀ fd id, .unregistered fd id ∈ s.log → .registered fd id ∈ s.log
  exact : ∀ fd id, (fd, id) ∈ s.fdMap ↔ .registered fd id ∈ s.log ∧ .unregistered fd id ∉ s.log

theorem mem_goto {x : Pc} (h : x ∈ (s.goto pc pcs).threads) : x ∈ pcs ∨ x ∈ s.threads :=
  Threads.mem_replace h

theorem Did.issued (hl : Lives s) (hmem : pc ∈ s.threads) (hr : Recorded s.pool s.log) (hd : Did s pc s' pcs)
    (h : s.pool.Issued id) : s'.pool.Issued id := by
  have hr' := recorded_did hl hmem hr hd
  obtain ⟨o, ho⟩ := (hr.created id).mpr h
  apply (hr'.created id).mp
  refine ⟨o, ?_⟩
  cases hd <;> first | exact ho | exact List.mem_append_left _ ho

/-- A thread that is about to publish a registration is the only one to own it. -/
theorem Lives.publish_alone {R : Multiset Pc} (hl : Lives s) (hR : s.threads = .publish fd id ::ₘ R) (hpc : pc ∈ R) :
    .owner id ∉ pc.stakes := by
  intro howner
  have hcount := hl.stakes.owner id
  have hlive : (s.pool.status id).own ≤ 1 := by
    rw [Status.own]
    split <;> omega
  rw [stakes_of hR] at hcount
  have hrest : 0 < (s.mapped + R.bind Pc.stakes).count (.owner id) := by
    apply count_pos.mpr
    exact mem_add.mpr (.inr (mem_bind.mpr ⟨pc, hpc, howner⟩))
  rw [show Pc.stakes (.publish fd id) = {.owner id} from rfl, singleton_add, count_cons_self] at hcount
  omega

/-- Entries and threads about other things leave `Mapped` as it is. -/
theorem Mapped.pass (hm : Mapped s) (hmap : s'.fdMap = s.fdMap) (hthreads : s'.threads = s.threads)
    (hlog : s'.log = s.log ∨ ∃ e, s'.log = s.log ++ [e] ∧ (∀ fd id, e ≠ .registered fd id) ∧
      ∀ fd id, e ≠ .unregistered fd id) (hissued : ∀ id, s.pool.Issued id → s'.pool.Issued id)
    (hpublish : ∀ fd id, .publish fd id ∈ pcs → ¬ s.pool.Issued id) : Mapped (s'.goto pc pcs) := by
  have hreg : ∀ fd id, .registered fd id ∈ s'.log ↔ .registered fd id ∈ s.log := by
    intro fd id
    rcases hlog with hlog | ⟨e, hlog, he, -⟩
    · rw [hlog]
    · rw [hlog, List.mem_append, List.mem_singleton, or_iff_left (he fd id).symm]
  have hunreg : ∀ fd id, .unregistered fd id ∈ s'.log ↔ .unregistered fd id ∈ s.log := by
    intro fd id
    rcases hlog with hlog | ⟨e, hlog, -, he⟩
    · rw [hlog]
    · rw [hlog, List.mem_append, List.mem_singleton, or_iff_left (he fd id).symm]
  refine ⟨fun fd id h => ?_, fun fd id h => ?_, fun fd id => ?_⟩
  · obtain ⟨hid, hno⟩ := hm.registered fd id ((hreg fd id).mp h)
    refine ⟨hissued id hid, fun fd' hpub => ?_⟩
    rcases mem_goto hpub with hnew | hold
    · exact hpublish fd' id hnew hid
    · exact hno fd' (hthreads ▸ hold)
  · exact (hreg fd id).mpr (hm.unregistered fd id ((hunreg fd id).mp h))
  · show (fd, id) ∈ s'.fdMap ↔ .registered fd id ∈ s'.log ∧ .unregistered fd id ∉ s'.log
    rw [hmap, hreg, hunreg]
    exact hm.exact fd id

theorem Mapped.register (hl : Lives s) (hm : Mapped s) (hmem : .publish fd id ∈ s.threads) :
    Mapped (({ s with fdMap := (fd, id) :: s.fdMap }.note (.registered fd id)).goto (.publish fd id) []) := by
  obtain ⟨R, hR⟩ := exists_cons_of_mem hmem
  have hnever : ∀ fd', .registered fd' id ∉ s.log := fun fd' h => (hm.registered fd' id h).2 fd hmem
  have hlive := hl.stakes.owner_live (i := id) (by
    rw [stakes_of hR]
    exact mem_cons_self _ _)
  have hreg : ∀ fd' id', .registered fd' id' ∈ s.log ++ [.registered fd id] ↔
      .registered fd' id' ∈ s.log ∨ (fd' = fd ∧ id' = id) := by simp
  have hunreg : ∀ fd' id', .unregistered fd' id' ∈ s.log ++ [.registered fd id] ↔ .unregistered fd' id' ∈ s.log := by
    simp
  have hthreads : Threads.replace s.threads (.publish fd id) [] = R := by
    rw [hR, Threads.replace, erase_cons_head]
    exact zero_add R
  refine ⟨fun fd' id' h => ?_, fun fd' id' h => ?_, fun fd' id' => ?_⟩
  · rcases (hreg fd' id').mp h with hold | ⟨rfl, rfl⟩
    · obtain ⟨hid, hno⟩ := hm.registered fd' id' hold
      exact ⟨hid, fun fd'' hpub => hno fd'' ((mem_goto hpub).resolve_left List.not_mem_nil)⟩
    · refine ⟨Pool.issued_of_status (ne_none_of_live hlive), fun fd'' hpub => ?_⟩
      have hrest : .publish fd'' id' ∈ R := hthreads ▸ hpub
      exact hl.publish_alone hR hrest (mem_singleton_self _)
  · exact (hreg fd' id').mpr (.inl (hm.unregistered fd' id' ((hunreg fd' id').mp h)))
  · show (fd', id') ∈ (fd, id) :: s.fdMap ↔ .registered fd' id' ∈ s.log ++ [.registered fd id] ∧
      .unregistered fd' id' ∉ s.log ++ [.registered fd id]
    rw [hreg, hunreg, List.mem_cons, Prod.mk.injEq, hm.exact fd' id']
    constructor
    · rintro (⟨rfl, rfl⟩ | ⟨hold, hno⟩)
      · exact ⟨.inr ⟨rfl, rfl⟩, fun h => hnever fd' (hm.unregistered fd' id' h)⟩
      · exact ⟨.inl hold, hno⟩
    · rintro ⟨hold | ⟨rfl, rfl⟩, hno⟩
      · exact .inr ⟨hold, hno⟩
      · exact .inl ⟨rfl, rfl⟩

theorem Mapped.unregister (hl : Lives s) (hm : Mapped s) (hmem : (fd, id) ∈ s.fdMap) :
    Mapped (({ s with fdMap := s.fdMap.erase (fd, id) }.note (.unregistered fd id)).goto pc [.invalidate id]) := by
  have hreg : ∀ fd' id', .registered fd' id' ∈ s.log ++ [.unregistered fd id] ↔ .registered fd' id' ∈ s.log := by simp
  have hunreg : ∀ fd' id', .unregistered fd' id' ∈ s.log ++ [.unregistered fd id] ↔
      .unregistered fd' id' ∈ s.log ∨ (fd' = fd ∧ id' = id) := by simp
  have hnodup : s.fdMap.Nodup := List.Nodup.of_map _ hl.keys
  refine ⟨fun fd' id' h => ?_, fun fd' id' h => ?_, fun fd' id' => ?_⟩
  · obtain ⟨hid, hno⟩ := hm.registered fd' id' ((hreg fd' id').mp h)
    refine ⟨hid, fun fd'' hpub => ?_⟩
    rcases mem_goto hpub with hnew | hold
    · exact Pc.noConfusion (List.mem_singleton.mp hnew)
    · exact hno fd'' hold
  · apply (hreg fd' id').mpr
    rcases (hunreg fd' id').mp h with hold | ⟨rfl, rfl⟩
    · exact hm.unregistered fd' id' hold
    · exact ((hm.exact fd' id').mp hmem).1
  · show (fd', id') ∈ s.fdMap.erase (fd, id) ↔ .registered fd' id' ∈ s.log ++ [.unregistered fd id] ∧
      .unregistered fd' id' ∉ s.log ++ [.unregistered fd id]
    rw [hreg, hunreg, hnodup.mem_erase_iff, hm.exact fd' id', Ne, Prod.mk.injEq, not_or]
    constructor
    · rintro ⟨hne, hold, hno⟩
      exact ⟨hold, hno, hne⟩
    · rintro ⟨hold, hno, hne⟩
      exact ⟨hne, hold, hno⟩

theorem mapped_did (hl : Lives s) (hmem : pc ∈ s.threads) (hr : Recorded s.pool s.log) (hm : Mapped s)
    (hd : Did s pc s' pcs) : Mapped (s'.goto pc pcs) := by
  have hissued : ∀ id, s.pool.Issued id → s'.pool.Issued id := fun id => hd.issued hl hmem hr
  cases hd with
  | quiet stakes publish call callback => exact hm.pass rfl rfl (.inl rfl) hissued (fun fd id h => absurd h (publish fd id))
  | refused h => exact hm.pass rfl rfl (.inl rfl) hissued (by simp)
  | created h =>
    refine hm.pass rfl rfl (.inr ⟨_, rfl, by simp, by simp⟩) hissued (fun fd' id' hpub => ?_)
    obtain ⟨-, rfl⟩ := Pc.publish.inj (List.mem_singleton.mp hpub)
    exact h.fresh
  | registered h => exact hm.register hl hmem
  | unregistered h => exact hm.unregister hl ((lookup_some hl.keys).mp h)
  | invalidated h | addressed h | called h | returned | recycled =>
    exact hm.pass rfl rfl (.inr ⟨_, rfl, by simp, by simp⟩) hissued (by simp)
  | dropped =>
    refine hm.pass rfl rfl (.inl rfl) hissued (fun fd id hpub => ?_)
    split at hpub <;> simp at hpub

/-! Callbacks. -/

/-- What the history says about an entry when it is made. -/
def Isolated (past : List Entry) : Entry → Prop
  | .addressed id _ => .invalidated id ∉ past
  | .called id t output cb userData _ => .addressed id t ∈ past ∧ (∀ f, .recycled id f ∉ past) ∧
      ∃ o, .created id o ∈ past ∧ o.callback output = some cb ∧ o.userData = userData
  | .recycled id f => (∀ f', .recycled id f' ∉ past) ∧ (∃ o, .created id o ∈ past ∧ o.onRecycled = f) ∧
      ∀ t output cb userData events, .called id t output cb userData events ∈ past → .returned id t ∈ past
  | _ => True

structure Calls (s : DispatchState) : Prop where
  calling : ∀ w t rest, .call w t rest ∈ s.threads → .addressed w.id t ∈ s.log
  running : ∀ id t output cb userData events, .called id t output cb userData events ∈ s.log →
    .returned id t ∈ s.log ∨ ∃ rest, .callback id t rest ∈ s.threads
  along : Along Isolated s.log

theorem Recorded.not_recycled {pool : Pool Options} {log : List Entry} (h : Recorded pool log)
    (hthere : (pool.status id).phase ≠ .free) (f : Option Nat) : .recycled id f ∉ log := by
  intro hf
  have := ((h.recycled id).mp ⟨f, hf⟩).2
  rw [this] at hthere
  exact hthere rfl

theorem Did.mono (hd : Did s pc s' pcs) {e : Entry} (he : e ∈ s.log) : e ∈ s'.log := by
  cases hd <;> first | exact he | exact List.mem_append_left _ he

/-- A thread that does not move stays where it is. -/
theorem mem_goto_of_ne {x : Pc} (h : x ∈ s.threads) (hne : x ≠ pc) : x ∈ (s.goto pc pcs).threads :=
  mem_add.mpr (.inr ((mem_erase_of_ne hne).mpr h))

theorem Lives.stake {k : Stake Registration} (hmem : pc ∈ s.threads) (hk : k ∈ pc.stakes) : k ∈ s.stakes :=
  mem_add.mpr (.inr (mem_bind.mpr ⟨pc, hmem, hk⟩))

theorem calling_did (hc : Calls s) (hd : Did s pc s' pcs) {w : Work} {t : Nat} {rest : List Work}
    (hcall : .call w t rest ∈ (s'.goto pc pcs).threads) : .addressed w.id t ∈ s'.log := by
  rcases mem_goto hcall with hnew | hold
  · cases hd with
    | quiet stakes publish call callback => exact absurd hnew (call w t rest)
    | addressed h =>
      obtain ⟨rfl, rfl, rfl⟩ := Pc.call.inj (List.mem_singleton.mp hnew)
      exact List.mem_append_right _ (List.mem_singleton_self _)
    | dropped => split at hnew <;> simp at hnew
    | _ => simp at hnew
  · rw [hd.threads] at hold
    exact hd.mono (hc.calling w t rest hold)

theorem running_did (hc : Calls s) (hd : Did s pc s' pcs) {t cb userData events : Nat} {output : Bool}
    (hcalled : .called id t output cb userData events ∈ s'.log) :
    .returned id t ∈ s'.log ∨ ∃ rest, .callback id t rest ∈ (s'.goto pc pcs).threads := by
  by_cases hpast : .called id t output cb userData events ∈ s.log
  · rcases hc.running id t output cb userData events hpast with hret | ⟨rest, hrun⟩
    · exact .inl (hd.mono hret)
    · by_cases hpc : .callback id t rest = pc
      · subst hpc
        left
        cases hd with
        | quiet stakes publish call callback => exact absurd rfl (callback id t rest)
        | returned => exact List.mem_append_right _ (List.mem_singleton_self _)
      · rw [← hd.threads] at hrun
        exact .inr ⟨rest, mem_goto_of_ne hrun hpc⟩
  · cases hd with
    | quiet stakes publish call callback => exact absurd hcalled hpast
    | refused h => exact absurd hcalled hpast
    | dropped => exact absurd hcalled hpast
    | @called w t' cb' rest h =>
      rcases List.mem_append.mp hcalled with hold | hnew
      · exact absurd hold hpast
      · obtain ⟨rfl, rfl, -⟩ := Entry.called.inj (List.mem_singleton.mp hnew)
        exact .inr ⟨rest, mem_add.mpr (.inl (by simp))⟩
    | _ =>
      rcases List.mem_append.mp hcalled with hold | hnew
      · exact absurd hold hpast
      · exact Entry.noConfusion (List.mem_singleton.mp hnew)

theorem along_did (hl : Lives s) (hmem : pc ∈ s.threads) (hr : Recorded s.pool s.log) (hc : Calls s)
    (hd : Did s pc s' pcs) : Along Isolated s'.log := by
  cases hd with
  | quiet stakes publish call callback => exact hc.along
  | refused h => exact hc.along
  | dropped => exact hc.along
  | addressed h => exact hc.along.concat (fun hinv => ((hr.invalidated _).mp hinv).2 h)
  | @called w t cb rest h =>
    have hthere := hl.stakes.ref_there (i := w.id) (Lives.stake hmem (mem_singleton_self _))
    have hcreated := hr.memory w.id (fun heq => hthere (by rw [heq]; rfl))
    exact hc.along.concat ⟨hc.calling w t rest hmem, hr.not_recycled hthere, _, hcreated, h, rfl⟩
  | @recycled id rest =>
    have hstake := Lives.stake hmem (mem_singleton_self (Stake.recycler id))
    have hthere : (s.pool.status id).phase ≠ .free := by
      rw [(hl.stakes.recycler_done hstake).1]
      decide
    have hcreated := hr.memory id (fun heq => hthere (by rw [heq]; rfl))
    refine hc.along.concat ⟨hr.not_recycled hthere, ⟨_, hcreated, rfl⟩, ?_⟩
    intro t output cb userData events hcalled
    rcases hc.running id t output cb userData events hcalled with hret | ⟨rest', hrun⟩
    · exact hret
    · exact absurd (Lives.stake hrun (mem_singleton_self _)) (hl.stakes.no_refs hstake)
  | _ => exact hc.along.concat trivial

/-! Runs. -/

structure DispatchInv (s : DispatchState) : Prop where
  lives : Lives s
  recorded : Recorded s.pool s.log
  mapped : Mapped s
  calls : Calls s

theorem dispatchInv_start : DispatchInv .start := by
  refine ⟨⟨?_, List.nodup_nil⟩, .start, ⟨?_, ?_, ?_⟩, ⟨?_, ?_, .nil⟩⟩
  · have hnone : Pool.status ([] : Pool Options) = fun _ => Status.none := rfl
    show Inv (Pool.status []) _
    rw [hnone]
    exact Inv.empty
  all_goals simp [DispatchState.start]

/-- A call that starts has no stake in anything yet. -/
theorem DispatchInv.spawn (h : DispatchInv s) (hstakes : pc.stakes = 0) (hpublish : ∀ fd id, pc ≠ .publish fd id)
    (hcall : ∀ w t rest, pc ≠ .call w t rest) : DispatchInv (s.spawn pc) := by
  have hsame : (s.spawn pc).stakes = s.stakes := by
    show s.mapped + (pc ::ₘ s.threads).bind Pc.stakes = _
    rw [cons_bind, hstakes, zero_add]
    rfl
  refine ⟨⟨?_, h.lives.keys⟩, h.recorded, ⟨?_, h.mapped.unregistered, h.mapped.exact⟩, ⟨?_, ?_, h.calls.along⟩⟩
  · rw [hsame]
    exact h.lives.stakes
  · intro fd id hreg
    obtain ⟨hid, hno⟩ := h.mapped.registered fd id hreg
    refine ⟨hid, fun fd' hpub => ?_⟩
    exact hno fd' ((mem_cons.mp hpub).resolve_left (hpublish fd' id).symm)
  · intro w t rest hmem
    exact h.calls.calling w t rest ((mem_cons.mp hmem).resolve_left (hcall w t rest).symm)
  · intro id t output cb userData events hcalled
    refine (h.calls.running id t output cb userData events hcalled).imp_right fun ⟨rest, hrun⟩ => ?_
    exact ⟨rest, mem_cons_of_mem hrun⟩

theorem dispatchInv_next {a : Act} (h : DispatchInv s) (hn : s.next a = some s') : DispatchInv s' := by
  cases a with
  | registerEvent fd o | unregisterEvent fd id | epollWait batch =>
    cases hn
    exact h.spawn rfl (by simp) (by simp)
  | step pc c =>
    obtain ⟨hmem, hstep⟩ := ite_none_right_eq_some.mp hn
    obtain ⟨⟨s1, pcs⟩, hs1, rfl⟩ := map_eq_some_iff.mp hstep
    have hd := stepOf_did hs1
    have hrecorded := recorded_did h.lives hmem h.recorded hd
    have halong := along_did h.lives hmem h.recorded h.calls hd
    exact ⟨lives_did h.lives hmem hd, hrecorded, mapped_did h.lives hmem h.recorded h.mapped hd,
      ⟨fun _ _ _ => calling_did h.calls hd, fun _ _ _ _ _ _ => running_did h.calls hd, halong⟩⟩

theorem dispatchInv_run {tr : List Act} (hrun : dispatchMachine.Run tr s) : DispatchInv s := by
  apply hrun.invariant (I := fun _ s => DispatchInv s)
  · rintro s rfl
    exact dispatchInv_start
  · intro tr s a s' _ h hn
    exact dispatchInv_next h hn

/-- How often `on_recycled` of a registration has run. -/
def DispatchState.recycles (s : DispatchState) (id : Registration) : Nat := s.log.countP (Entry.recycles id)

/-- The registration a thread is working on. -/
def Pc.worksOn : Pc → Option Registration
  | .publish _ id | .invalidate id | .callback id _ _ | .release id _ | .recycle id _ => some id
  | .call w _ _ => some w.id
  | _ => none

theorem worksOn_of_stake {k : Stake Registration} (hk : k ∈ pc.stakes)
    (hid : k = .owner id ∨ k = .ref id ∨ k = .recycler id) : pc.worksOn = some id := by
  cases pc <;> simp [Pc.stakes] at hk <;> subst hk <;> simp_all [Pc.worksOn]

/-- A registration that nobody works on is in the map or was recycled. -/
theorem DispatchInv.settled {o : Options} (h : DispatchInv s) (hcreated : .created id o ∈ s.log) :
    s.recycles id = 1 ∨ (s.recycles id = 0 ∧
      ((∃ fd, s.lookup fd = some id) ∨ ∃ pc ∈ s.threads, pc.worksOn = some id)) := by
  have hissued := (h.recorded.created id).mp ⟨o, hcreated⟩
  have honce : s.recycles id ≤ 1 := h.recorded.once id
  by_cases hnone : s.pool.status id = .none
  · left
    obtain ⟨f, hf⟩ := (h.recorded.recycled id).mpr ⟨hissued, hnone⟩
    have hpos : 0 < s.recycles id := List.countP_pos_iff.mpr ⟨_, hf, decide_eq_true rfl⟩
    omega
  · right
    have hthere : (s.pool.status id).phase ≠ .free := by
      intro hp
      apply hnone
      have hz := h.lives.stakes.gone id hp
      generalize s.pool.status id = a at hp hz
      obtain ⟨p, n⟩ := a
      obtain rfl : p = .free := hp
      obtain rfl : n = 0 := hz
      rfl
    have hzero : s.recycles id = 0 := by
      rw [DispatchState.recycles, List.countP_eq_zero]
      intro e he hrec
      cases e with
      | recycled id' f =>
        obtain rfl : id' = id := of_decide_eq_true hrec
        exact h.recorded.not_recycled hthere f he
      | _ => exact absurd hrec Bool.false_ne_true
    refine ⟨hzero, ?_⟩
    obtain ⟨k, hk, hid⟩ : ∃ k ∈ s.stakes, k = .owner id ∨ k = .ref id ∨ k = .recycler id := by
      rcases h.lives.stakes.staked hthere with hk | hk | hk
      · exact ⟨_, hk, .inl rfl⟩
      · exact ⟨_, hk, .inr (.inl rfl)⟩
      · exact ⟨_, hk, .inr (.inr rfl)⟩
    rcases mem_add.mp hk with hmap | hthread
    · left
      obtain ⟨⟨fd, id'⟩, he, rfl⟩ := List.mem_map.mp (mem_coe.mp hmap)
      obtain rfl : id' = id := by simpa using hid
      exact ⟨fd, (lookup_some h.lives.keys).mpr he⟩
    · right
      obtain ⟨pc, hpc, hkpc⟩ := mem_bind.mp hthread
      exact ⟨pc, hpc, worksOn_of_stake hkpc hid⟩

/-- Event registrations are isolated from each other in every run. -/
theorem registrations_isolated {tr : List Act} {s : DispatchState} (hrun : dispatchMachine.Run tr s) :
    Along Isolated s.log ∧
    (∀ id o o', .created id o ∈ s.log → .created id o' ∈ s.log → o = o') ∧
    (∀ fd id c s', s.lookup fd ≠ some id → s.next (.step (.unregister fd (some id)) c) = some s' →
      s' = s.goto (.unregister fd (some id)) []) ∧
    (∀ fd id, s.lookup fd = some id ↔ .registered fd id ∈ s.log ∧ .unregistered fd id ∉ s.log) ∧
    ∀ id o, .created id o ∈ s.log →
      s.recycles id = 1 ∨ (s.recycles id = 0 ∧
        ((∃ fd, s.lookup fd = some id) ∨ ∃ pc ∈ s.threads, pc.worksOn = some id)) := by
  have h := dispatchInv_run hrun
  refine ⟨h.calls.along, h.recorded.unique, fun fd id c s' hstale hn => ?_, fun fd id => ?_,
    fun id o hcreated => h.settled hcreated⟩
  · obtain ⟨-, hstep⟩ := Option.ite_none_right_eq_some.mp hn
    rw [DispatchState.stepOf, if_neg hstale] at hstep
    exact (Option.some.inj hstep).symm
  · rw [lookup_some h.lives.keys]
    exact h.mapped.exact fd id

/-- A registration is removed while its callback runs, and recycled when it has returned; a
    second event that was fetched before finds nothing. -/
def unregisterInCallback : List Act :=
  let o : Options := ⟨some 1, none, 77, some 9⟩
  let id : Registration := ⟨0, 0⟩
  let w : Work := ⟨id, EPOLLIN, false⟩
  [.registerEvent 5 o, .step (.create 5 o) ⟨some 0, true⟩, .step (.publish 5 id) ⟨none, true⟩,
    .epollWait [(id, EPOLLIN), (id, EPOLLIN)], .step (.loop [w, w]) ⟨none, true⟩, .step (.call w 0 [w]) ⟨none, true⟩,
    .unregisterEvent 5 (some id), .step (.unregister 5 (some id)) ⟨none, true⟩, .step (.invalidate id) ⟨none, true⟩,
    .step (.release id []) ⟨none, true⟩, .step (.callback id 0 [w]) ⟨none, true⟩, .step (.release id [w]) ⟨none, true⟩,
    .step (.recycle id [w]) ⟨none, true⟩, .step (.loop [w]) ⟨none, true⟩]

theorem unregisterInCallback_isolated : ∃ s, dispatchMachine.Run unregisterInCallback s ∧
    s.recycles ⟨0, 0⟩ = 1 ∧ Along Isolated s.log := by
  have hexec : ∃ s, dispatchMachine.Run unregisterInCallback s ∧ s.recycles ⟨0, 0⟩ = 1 :=
    Machine.exists_run (s := DispatchState.start) rfl (by decide +kernel)
  obtain ⟨s, hrun, honce⟩ := hexec
  exact ⟨s, hrun, honce, (registrations_isolated hrun).1⟩

end LightRpc.Events

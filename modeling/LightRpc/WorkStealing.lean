import LightRpc.Lib.Machine
import LightRpc.Lib.Window
import LightRpc.Lib.DequeLog

/- The work-stealing queue: one owner that pushes and pops at `_bottom`, and any number of
   thieves that take from `_top`.

   A step of the model is one load, store or compare-exchange of the source. The log gets an
   event in the step in which a call returns true, so it lists the successful calls in the
   order in which they end.

   `pop` lowers `_bottom` before it looks at `_top` again, so between the two a thief may still
   take what `pop` is after. The items of the queue reach up to `hi`, which `pop` lowers only
   when it returns. A thief that has found its item below `_bottom` has to succeed in the
   compare-exchange on `_top`; `bound` says up to where it then takes what belongs to it. -/
namespace LightRpc.WorkStealing

open Lib Lib.Window Lib.DequeLog

variable {T : Type}

/-- Where the owner is; `b` is the `_bottom` it loaded. -/
inductive Owner (T : Type) where
  | idle
  | pushTop (x : T) (b : Nat)
  | pushWrite (x : T) (b : Nat)
  | pushBottom (x : T) (b : Nat)
  | popTop (b : Nat)
  | popBottom (b : Nat)
  /-- `_bottom` is lowered. -/
  | popTopAgain (b : Nat)
  | popRead (b t : Nat)
  | popExchange (b t : Nat) (val : T)
  /-- `_bottom` is to be set back; with the item if the exchange succeeded. -/
  | popRestore (b : Nat) (popped : Option T)

/-- Where a thief is; `t` is the `_top` it loaded. -/
inductive Thief (T : Type) where
  | idle
  | bottom (t : Nat)
  /-- In the loop. -/
  | bottomAgain (t : Nat)
  | read (t : Nat)
  | exchange (t : Nat) (val : T)

structure Queue (T : Type) where
  bottom : Nat
  top : Nat
  buffer : List T
  owner : Owner T
  thieves : Nat → Thief T
  log : List (Event T)

inductive Act (T : Type) where
  | push (x : T)
  | pop
  /-- The next step of the owner's call. -/
  | owner
  /-- The next step of a thief, the first one if it is idle. -/
  | thief (i : Nat)

namespace Queue

variable [Inhabited T] {s s' : Queue T}

def capacity (s : Queue T) : Nat := s.buffer.length

/-- The slot of an index. -/
def slot (s : Queue T) (i : Nat) : Nat := i &&& (s.capacity - 1)

/-- What the slot of an index holds. -/
def item (s : Queue T) (i : Nat) : T := s.buffer.getD (s.slot i) default

def push (s : Queue T) (x : T) : Option (Queue T) :=
  match s.owner with
  | .idle => some { s with owner := .pushTop x s.bottom }
  | _ => none

def pop (s : Queue T) : Option (Queue T) :=
  match s.owner with
  | .idle => some { s with owner := .popTop s.bottom }
  | _ => none

/-- `push` and `pop` after their first load -/
def ownerNext (s : Queue T) : Option (Queue T) :=
  match s.owner with
  | .idle => none
  | .pushTop x b =>
    if s.top + s.capacity ≤ b then some { s with owner := .idle }
    else some { s with owner := .pushWrite x b }
  | .pushWrite x b => some { s with buffer := s.buffer.set (s.slot b) x, owner := .pushBottom x b }
  | .pushBottom x b => some { s with bottom := b + 1, owner := .idle, log := s.log ++ [.push x] }
  | .popTop b =>
    if b ≤ s.top then some { s with owner := .idle }
    else some { s with owner := .popBottom b }
  | .popBottom b => some { s with bottom := b - 1, owner := .popTopAgain b }
  | .popTopAgain b =>
    if b - 1 < s.top then some { s with owner := .popRestore b none }
    else some { s with owner := .popRead b s.top }
  | .popRead b t =>
    let val := s.item (b - 1)
    if t ≠ b - 1 then some { s with owner := .idle, log := s.log ++ [.pop val] }
    else some { s with owner := .popExchange b t val }
  | .popExchange b t val =>
    if s.top = t then some { s with top := t + 1, owner := .popRestore b (some val) }
    else some { s with owner := .popRestore b none }
  | .popRestore b popped =>
    some { s with bottom := b, owner := .idle, log := s.log ++ (popped.map Event.pop).toList }

def setThief (s : Queue T) (i : Nat) (pc : Thief T) : Queue T := { s with thieves := Function.update s.thieves i pc }

/-- `steal` -/
def thiefNext (s : Queue T) (i : Nat) : Queue T :=
  match s.thieves i with
  | .idle => s.setThief i (.bottom s.top)
  | .bottom t => if s.bottom ≤ t then s.setThief i .idle else s.setThief i (.bottomAgain t)
  | .bottomAgain t => if s.bottom ≤ t then s.setThief i .idle else s.setThief i (.read t)
  | .read t => s.setThief i (.exchange t (s.item t))
  | .exchange t val =>
    if s.top = t then { s.setThief i .idle with top := t + 1, log := s.log ++ [.steal val] }
    else s.setThief i (.bottomAgain s.top)

def next (s : Queue T) : Act T → Option (Queue T)
  | .push x => s.push x
  | .pop => s.pop
  | .owner => s.ownerNext
  | .thief i => some (s.thiefNext i)

/-- `init` with a capacity of `2 ^ k` -/
def start (k : Nat) : Queue T := ⟨1, 1, List.replicate (2 ^ k) default, .idle, fun _ => .idle, []⟩

/-- The items between `_top` and `_bottom`. -/
def between (s : Queue T) : List T := (List.range (s.bottom - s.top)).map fun i => s.item (s.top + i)

end Queue

def queueMachine (T : Type) [Inhabited T] (k : Nat) : Machine (Queue T) (Act T) where
  init := (· = Queue.start k)
  next := Queue.next

/-! The invariant. -/

namespace Queue

variable [Inhabited T] {s s' : Queue T} {i : Nat}

/-- The index behind the last item. -/
def hi (s : Queue T) : Nat :=
  match s.owner with
  | .popTopAgain b | .popRead b _ | .popExchange b _ _ | .popRestore b _ => b
  | _ => s.bottom

/-- The index of the first item: an exchange that succeeded is in the log only when `pop` returns. -/
def lo (s : Queue T) : Nat :=
  match s.owner with
  | .popRestore _ (some _) => s.top - 1
  | _ => s.top

/-- A thief that is past its checks with the current `_top` is below this. -/
def bound (s : Queue T) : Nat :=
  match s.owner with
  | .popRead b t => if t + 1 = b then b else s.bottom
  | .popTopAgain b | .popExchange b _ _ | .popRestore b _ => b
  | _ => s.bottom

def items (s : Queue T) : List T := window s.buffer default s.lo (s.hi - s.lo)

/-- What the owner knows. -/
def OwnerOk (s : Queue T) : Prop :=
  match s.owner with
  | .idle => True
  | .pushTop _ b | .popTop b => b = s.bottom
  | .pushWrite _ b => b = s.bottom ∧ b < s.top + s.capacity
  | .pushBottom x b => b = s.bottom ∧ b < s.top + s.capacity ∧ s.item b = x
  | .popBottom b => b = s.bottom ∧ 0 < b
  | .popTopAgain b => b = s.bottom + 1
  | .popRead b t => b = s.bottom + 1 ∧ t ≤ s.bottom ∧ t ≤ s.top ∧ (t < s.bottom → s.top ≤ s.bottom)
  | .popExchange b t val => b = s.bottom + 1 ∧ t = s.bottom ∧ t ≤ s.top ∧ val = s.item t
  | .popRestore b none => b = s.bottom + 1 ∧ s.top = b
  | .popRestore b (some val) => b = s.bottom + 1 ∧ s.top = b ∧ val = s.item s.bottom

/-- What a thief knows. -/
def ThiefOk (s : Queue T) : Thief T → Prop
  | .idle => True
  | .bottom t | .bottomAgain t => t ≤ s.top
  | .read t => t ≤ s.top ∧ (t = s.top → t < s.bound)
  | .exchange t val => t ≤ s.top ∧ (t = s.top → t < s.bound ∧ val = s.item t)

structure Inv (k : Nat) (s : Queue T) : Prop where
  pow : s.capacity = 2 ^ k
  low : s.top ≤ s.hi
  high : s.hi ≤ s.top + s.capacity
  owner : s.OwnerOk
  thieves : ∀ i, s.ThiefOk (s.thieves i)
  replays : ∃ D, Replays s.log D ∧ D.items.map Prod.snd = s.items

variable {k : Nat}

theorem Inv.start : Inv k (start k : Queue T) where
  pow := List.length_replicate
  low := Nat.le_refl 1
  high := Nat.le_add_right 1 _
  owner := trivial
  thieves := fun _ => trivial
  replays := ⟨_, .nil, rfl⟩

omit [Inhabited T] in
theorem slot_eq (hcap : s.capacity = 2 ^ k) (i : Nat) : s.slot i = i % s.buffer.length := by
  rw [slot, hcap, Nat.and_two_pow_sub_one_eq_mod, ← hcap]
  rfl

theorem item_eq (hcap : s.capacity = 2 ^ k) (i : Nat) : s.item i = s.buffer.getD (i % s.buffer.length) default := by
  rw [item, slot_eq hcap]

theorem bound_le_hi (h : s.OwnerOk) : s.bottom ≤ s.bound ∧ s.bound ≤ s.hi := by
  cases ho : s.owner with
  | popRead b t =>
    simp only [OwnerOk, ho] at h
    simp only [bound, hi, ho]
    split <;> omega
  | popRestore b popped =>
    cases popped <;> simp only [OwnerOk, ho] at h <;> simp only [bound, hi, ho] <;> omega
  | popTopAgain b | popExchange b t val =>
    simp only [OwnerOk, ho] at h
    simp only [bound, hi, ho]
    omega
  | _ => simp [bound, hi, ho]

/-! The owner's steps. -/

/-- The owner's step left `_top` and the slots of the items alone, and the thieves are bounded as
    before. -/
theorem ThiefOk.of_owner {pc : Thief T} (h : s.ThiefOk pc) (htop : s'.top = s.top)
    (hbound : s.top < s.bound → s.top < s'.bound) (hitem : s.top < s.bound → s'.item s.top = s.item s.top) :
    s'.ThiefOk pc := by
  cases pc with
  | idle => trivial
  | bottom t | bottomAgain t => exact Nat.le_trans h (Nat.le_of_eq htop.symm)
  | read t =>
    obtain ⟨hle, hlt⟩ := h
    refine ⟨htop ▸ hle, fun heq => ?_⟩
    rw [htop] at heq
    rw [heq] at hlt ⊢
    exact hbound (hlt rfl)
  | exchange t val =>
    obtain ⟨hle, hlt⟩ := h
    refine ⟨htop ▸ hle, fun heq => ?_⟩
    rw [htop] at heq
    rw [heq] at hlt ⊢
    obtain ⟨hlt, hval⟩ := hlt rfl
    exact ⟨hbound hlt, hval.trans (hitem hlt).symm⟩

/-- `_top` moved on, so every thief that was past its checks is late. -/
theorem ThiefOk.of_top {pc : Thief T} (h : s.ThiefOk pc) (htop : s.top < s'.top) : s'.ThiefOk pc := by
  cases pc with
  | idle => trivial
  | bottom t | bottomAgain t => exact Nat.le_of_lt (Nat.lt_of_le_of_lt h htop)
  | read t | exchange t val =>
    have hlt : t < s'.top := Nat.lt_of_le_of_lt h.1 htop
    exact ⟨Nat.le_of_lt hlt, fun heq => absurd heq (Nat.ne_of_lt hlt)⟩

section

variable (h : Inv k s)

include h

/-- The owner went on; the items are where they were. -/
theorem Inv.move {bottom : Nat} {owner : Owner T} (hs : some { s with bottom := bottom, owner := owner } = some s')
    (hhi : ({ s with bottom := bottom, owner := owner } : Queue T).hi = s.hi)
    (hlo : ({ s with bottom := bottom, owner := owner } : Queue T).lo = s.lo)
    (howner : ({ s with bottom := bottom, owner := owner } : Queue T).OwnerOk)
    (hbound : s.top < s.bound → s.top < ({ s with bottom := bottom, owner := owner } : Queue T).bound) : Inv k s' := by
  cases hs
  refine ⟨h.pow, ?_, ?_, howner, fun i => (h.thieves i).of_owner rfl hbound (fun _ => rfl), ?_⟩
  · rw [hhi]
    exact h.low
  · rw [hhi]
    exact h.high
  · rw [items, hlo, hhi]
    exact h.replays

/-- The slot behind the last item is no item's. -/
theorem Inv.slot_free {x : T} {b : Nat} (ho : s.owner = .pushWrite x b) :
    b < s.top + s.capacity ∧ s.hi = b ∧ s.lo = s.top ∧ s.bound = b ∧ ∀ i, s.top ≤ i → i < b → s.slot i ≠ s.slot b := by
  obtain ⟨hb, hfull⟩ : b = s.bottom ∧ b < s.top + s.capacity := by simpa only [OwnerOk, ho] using h.owner
  refine ⟨hfull, by simp [hi, ho, hb], by simp [lo, ho], by simp [bound, ho, hb], fun i hlo hlt heq => ?_⟩
  rw [slot_eq h.pow, slot_eq h.pow] at heq
  obtain ⟨d, rfl⟩ := Nat.exists_eq_add_of_le hlo
  obtain ⟨e, rfl⟩ := Nat.exists_eq_add_of_le (Nat.le_of_lt (Nat.lt_of_le_of_lt hlo hlt))
  have hcap : s.capacity = s.buffer.length := rfl
  have := index_inj (by omega) (by omega) heq
  omega

theorem Inv.pushWrite {x : T} {b : Nat} (ho : s.owner = .pushWrite x b) :
    Inv k { s with buffer := s.buffer.set (s.slot b) x, owner := .pushBottom x b } := by
  obtain ⟨hb, hfull⟩ : b = s.bottom ∧ b < s.top + s.capacity := by simpa only [OwnerOk, ho] using h.owner
  obtain ⟨-, hhi, hlo, hbound, hslot⟩ := h.slot_free ho
  have hlow : s.top ≤ b := hhi ▸ h.low
  have hcap : s.capacity = s.buffer.length := rfl
  have hpos : 0 < s.buffer.length := by omega
  have hslot_lt : s.slot b < s.buffer.length := by
    rw [slot_eq h.pow]
    exact Nat.mod_lt _ hpos
  set s' : Queue T := { s with buffer := s.buffer.set (s.slot b) x, owner := .pushBottom x b } with hs'
  have hcap' : s'.capacity = s.capacity := by simp [hs', capacity]
  have hsame : ∀ i, s'.slot i = s.slot i := fun i => by rw [slot, slot, hcap']
  have hhi' : s'.hi = b := by simp [hs', hi, hb]
  constructor
  · rw [hcap']
    exact h.pow
  · rw [hhi']
    exact hlow
  · rw [hhi', hcap']
    exact Nat.le_of_lt hfull
  · refine ⟨hb, by rw [hcap']; exact hfull, ?_⟩
    rw [item, hsame]
    simp [hs', hslot_lt]
  · intro i
    refine (h.thieves i).of_owner rfl ?_ ?_
    · intro hlt
      rw [hbound, hb] at hlt
      exact hlt
    · intro hlt
      rw [hbound] at hlt
      have hne := hslot s.top (Nat.le_refl _) hlt
      show (s.buffer.set (s.slot b) x).getD (s'.slot s.top) default = _
      rw [hsame, item, List.getD_eq_getElem?_getD, List.getD_eq_getElem?_getD, List.getElem?_set_ne (Ne.symm hne)]
  · -- the items' slots are not written
    obtain ⟨D, hD, hitems⟩ := h.replays
    refine ⟨D, hD, ?_⟩
    have hwrite : s.slot b = (s.top + (b - s.top)) % s.buffer.length := by
      rw [Nat.add_sub_cancel' hlow, slot_eq h.pow]
    rw [hitems, items, items, hhi, hlo, hhi']
    show _ = window (s.buffer.set (s.slot b) x) default s.top (b - s.top)
    rw [hwrite, window_behind (Nat.le_refl _) (by omega)]

/-- The item is taken in, and `push` returns. -/
theorem Inv.pushBottom {x : T} {b : Nat} (ho : s.owner = .pushBottom x b) :
    Inv k { s with bottom := b + 1, owner := .idle, log := s.log ++ [.push x] } := by
  obtain ⟨hb, hfull, hx⟩ : b = s.bottom ∧ b < s.top + s.capacity ∧ s.item b = x := by
    simpa only [OwnerOk, ho] using h.owner
  have hhi : s.hi = b := by simp [hi, ho, hb]
  have hlow : s.top ≤ b := hhi ▸ h.low
  refine ⟨h.pow, Nat.le_succ_of_le hlow, hfull, trivial, ?_, ?_⟩
  · intro i
    refine (h.thieves i).of_owner rfl ?_ (fun _ => rfl)
    intro hlt
    simp only [bound, ho, ← hb] at hlt
    exact Nat.lt_succ_of_lt hlt
  · obtain ⟨D, hD, hitems⟩ := h.replays
    refine ⟨_, hD.push x, ?_⟩
    have hitem : s.buffer.getD ((s.top + (b - s.top)) % s.buffer.length) default = x := by
      rw [Nat.add_sub_cancel' hlow, ← item_eq h.pow, hx]
    rw [List.map_append, hitems, items, hhi, show s.lo = s.top by simp [lo, ho]]
    show _ = window s.buffer default s.top (b + 1 - s.top)
    rw [Nat.succ_sub hlow, window_succ, hitem]
    rfl

/-- `pop` takes the last item of several, and returns. -/
theorem Inv.popRead {b t : Nat} (ho : s.owner = .popRead b t) (hne : t ≠ b - 1) :
    Inv k { s with owner := .idle, log := s.log ++ [.pop (s.item (b - 1))] } := by
  obtain ⟨hb, hle, -, hlow⟩ : b = s.bottom + 1 ∧ t ≤ s.bottom ∧ t ≤ s.top ∧ (t < s.bottom → s.top ≤ s.bottom) := by
    simpa only [OwnerOk, ho] using h.owner
  have hhi : s.hi = s.bottom + 1 := by simp [hi, ho, hb]
  have hlow : s.top ≤ s.bottom := hlow (by omega)
  have hhigh := h.high
  refine ⟨h.pow, hlow, ?_, trivial, ?_, ?_⟩
  · show s.bottom ≤ s.top + s.capacity
    omega
  · intro i
    refine (h.thieves i).of_owner rfl ?_ (fun _ => rfl)
    intro hlt
    simp only [bound, ho] at hlt
    rwa [if_neg (by omega)] at hlt
  · obtain ⟨D, hD, hitems⟩ := h.replays
    have hitem : s.buffer.getD ((s.top + (s.bottom - s.top)) % s.buffer.length) default = s.item (b - 1) := by
      rw [Nat.add_sub_cancel' hlow, ← item_eq h.pow, hb, Nat.add_sub_cancel]
    rw [items, hhi, show s.lo = s.top by simp [lo, ho], Nat.succ_sub hlow, window_succ, hitem] at hitems
    obtain ⟨rest, last, hsplit, hrest, hlast⟩ := List.map_eq_append_iff.mp hitems
    obtain ⟨⟨n, y⟩, rfl, hy⟩ := List.map_eq_singleton_iff.mp hlast
    rw [show y = s.item (b - 1) from hy] at hsplit
    exact ⟨_, hD.pop hsplit, hrest⟩

/-- `pop` gets the single last item. -/
theorem Inv.popExchange {b t : Nat} {val : T} (ho : s.owner = .popExchange b t val) (heq : s.top = t) :
    Inv k { s with top := t + 1, owner := .popRestore b (some val) } := by
  obtain ⟨hb, ht, -, hval⟩ : b = s.bottom + 1 ∧ t = s.bottom ∧ t ≤ s.top ∧ val = s.item t := by
    simpa only [OwnerOk, ho] using h.owner
  have hhi : s.hi = b := by simp [hi, ho]
  refine ⟨h.pow, ?_, ?_, ⟨hb, ?_, ?_⟩, ?_, ?_⟩
  · show t + 1 ≤ b
    omega
  · show b ≤ t + 1 + s.capacity
    omega
  · show t + 1 = b
    omega
  · rw [hval, ht]
    rfl
  · intro i
    apply (h.thieves i).of_top
    show s.top < t + 1
    omega
  · obtain ⟨D, hD, hitems⟩ := h.replays
    refine ⟨D, hD, ?_⟩
    rw [hitems, items, hhi, show s.lo = s.top by simp [lo, ho], heq]
    rfl

/-- `pop` sets `_bottom` back and returns, with the item if it has it. -/
theorem Inv.popRestore {b : Nat} {popped : Option T} (ho : s.owner = .popRestore b popped) :
    Inv k { s with bottom := b, owner := .idle, log := s.log ++ (popped.map Event.pop).toList } := by
  have htop : s.top = b := by
    have := h.owner
    cases popped <;> simp only [OwnerOk, ho] at this
    · exact this.2
    · exact this.2.1
  refine ⟨h.pow, Nat.le_of_eq htop, ?_, trivial, ?_, ?_⟩
  · show b ≤ s.top + s.capacity
    omega
  · intro i
    refine (h.thieves i).of_owner rfl ?_ (fun _ => rfl)
    intro hlt
    simpa only [bound, ho] using hlt
  · obtain ⟨D, hD, hitems⟩ := h.replays
    have hnone : ({ s with bottom := b, owner := .idle, log := s.log ++ (popped.map Event.pop).toList } : Queue T).items = [] := by
      show window s.buffer default s.top (b - s.top) = []
      rw [htop, Nat.sub_self]
      rfl
    rw [hnone]
    cases popped with
    | none =>
      refine ⟨D, by simpa using hD, ?_⟩
      rw [hitems, items, show s.hi = b by simp [hi, ho], show s.lo = s.top by simp [lo, ho], htop, Nat.sub_self]
      rfl
    | some val =>
      obtain ⟨hb, -, hval⟩ : b = s.bottom + 1 ∧ s.top = b ∧ val = s.item s.bottom := by
        simpa only [OwnerOk, ho] using h.owner
      have hlo : s.lo = s.bottom := by
        simp only [lo, ho]
        omega
      rw [items, show s.hi = b by simp [hi, ho], hlo, show b - s.bottom = 0 + 1 by omega, window_succ, Nat.add_zero,
        ← item_eq h.pow, ← hval] at hitems
      obtain ⟨⟨n, y⟩, hitems, hy⟩ := List.map_eq_singleton_iff.mp hitems
      rw [show y = val from hy] at hitems
      exact ⟨_, hD.pop (hitems.trans (List.nil_append _).symm), rfl⟩

theorem Inv.ownerNext (hn : s.ownerNext = some s') : Inv k s' := by
  have hold := h.owner
  have hlow := h.low
  revert hn
  fun_cases Queue.ownerNext s <;> intro hn
  case case1 => cases hn
  case case3 x b ho hroom =>
    simp only [OwnerOk, ho] at hold
    refine h.move hn (by simp [hi, ho]) (by simp [lo, ho]) ?_ (by simp [bound, ho])
    exact ⟨hold, not_le.mp hroom⟩
  case case4 x b ho => exact Option.some.inj hn ▸ h.pushWrite ho
  case case5 x b ho => exact Option.some.inj hn ▸ h.pushBottom ho
  case case7 b ho hne =>
    simp only [OwnerOk, ho] at hold
    refine h.move hn (by simp [hi, ho]) (by simp [lo, ho]) ?_ (by simp [bound, ho])
    exact ⟨hold, by omega⟩
  case case8 b ho =>
    simp only [OwnerOk, ho] at hold
    refine h.move hn (by simp [hi, ho, hold.1]) (by simp [lo, ho]) ?_ (by simp [bound, ho, hold.1])
    show b = b - 1 + 1
    omega
  case case9 b ho hlt =>
    simp only [OwnerOk, hi, ho] at hold hlow
    refine h.move hn (by simp [hi, ho]) (by simp [lo, ho]) ?_ (by simp [bound, ho])
    exact ⟨hold, by show s.top = b; omega⟩
  case case10 b ho hle =>
    simp only [OwnerOk, ho] at hold
    refine h.move hn (by simp [hi, ho]) (by simp [lo, ho]) ?_ ?_
    · exact ⟨hold, by show s.top ≤ s.bottom; omega, Nat.le_refl _, fun _ => by show s.top ≤ s.bottom; omega⟩
    · -- a thief with this `_top` is below `_bottom`, unless both are after the same item
      intro hlt
      simp only [bound]
      split <;> omega
  case case11 b t ho _ hne => exact Option.some.inj hn ▸ h.popRead ho hne
  case case12 b t ho _ heq =>
    simp only [OwnerOk, ho] at hold
    refine h.move hn (by simp [hi, ho]) (by simp [lo, ho]) ?_ ?_
    · refine ⟨hold.1, by show t = s.bottom; omega, hold.2.2.1, ?_⟩
      rw [not_not.mp heq]
      rfl
    · intro hlt
      simp only [bound, ho] at hlt ⊢
      rwa [if_pos (by omega)] at hlt
  case case13 b val ho => exact Option.some.inj hn ▸ h.popExchange ho rfl
  case case14 b t val ho hne =>
    simp only [OwnerOk, hi, ho] at hold hlow
    refine h.move hn (by simp [hi, ho]) (by simp [lo, ho]) ?_ (by simp [bound, ho])
    exact ⟨hold.1, by show s.top = b; omega⟩
  case case15 b popped ho => exact Option.some.inj hn ▸ h.popRestore ho
  -- the calls that find the queue full or empty
  all_goals exact h.move hn (by simp [hi, *]) (by simp [lo, *]) trivial (by simp [bound, *])

/-! The thieves' steps. -/

theorem Inv.setThief {pc : Thief T} (hpc : s.ThiefOk pc) : Inv k (s.setThief i pc) := by
  refine ⟨h.pow, h.low, h.high, h.owner, fun j => ?_, h.replays⟩
  show s.ThiefOk (Function.update s.thieves i pc j)
  by_cases hj : j = i
  · rwa [hj, Function.update_self]
  · rw [Function.update_of_ne hj]
    exact h.thieves j

/-- The thief takes the first item, and returns. -/
theorem Inv.steal {val : T} (hlt : s.top < s.bound) (hval : val = s.item s.top) :
    Inv k { s.setThief i .idle with top := s.top + 1, log := s.log ++ [.steal val] } := by
  have hhi := (bound_le_hi h.owner).2
  have hhigh := h.high
  set s' : Queue T := { s.setThief i .idle with top := s.top + 1, log := s.log ++ [.steal val] } with hs'
  -- the owner has not taken the item, and is not about to
  have hold := h.owner
  have hlo : s.lo = s.top ∧ s'.lo = s.top + 1 := by
    cases ho : s.owner with
    | popRestore b popped => cases popped <;> simp only [OwnerOk, bound, ho] at hold hlt <;> omega
    | _ => simp [hs', lo, Queue.setThief, ho]
  have howner : s'.OwnerOk := by
    cases ho : s.owner with
    | popRestore b popped => cases popped <;> simp only [OwnerOk, bound, ho] at hold hlt <;> omega
    | popRead b t =>
      simp only [OwnerOk, bound, hs', Queue.setThief, ho] at hold hlt ⊢
      refine ⟨hold.1, hold.2.1, by omega, fun hless => ?_⟩
      rwa [if_neg (by omega)] at hlt
    | popExchange b t val =>
      simp only [OwnerOk, hs', Queue.setThief, ho] at hold ⊢
      exact ⟨hold.1, hold.2.1, by omega, hold.2.2.2⟩
    | pushWrite x b =>
      simp only [OwnerOk, hs', Queue.setThief, ho] at hold ⊢
      exact ⟨hold.1, Nat.lt_of_lt_of_le hold.2 (Nat.add_le_add_right (Nat.le_succ _) _)⟩
    | pushBottom x b =>
      simp only [OwnerOk, hs', Queue.setThief, ho] at hold ⊢
      exact ⟨hold.1, Nat.lt_of_lt_of_le hold.2.1 (Nat.add_le_add_right (Nat.le_succ _) _), hold.2.2⟩
    | idle => simp only [OwnerOk, hs', Queue.setThief, ho]
    | _ => simpa only [OwnerOk, hs', Queue.setThief, ho] using hold
  obtain ⟨hlo, hlo'⟩ := hlo
  refine ⟨h.pow, ?_, ?_, howner, ?_, ?_⟩
  · show s.top + 1 ≤ s.hi
    omega
  · show s.hi ≤ s.top + 1 + s.capacity
    omega
  · intro j
    show s'.ThiefOk (Function.update s.thieves i .idle j)
    by_cases hj : j = i
    · rw [hj, Function.update_self]
      trivial
    · rw [Function.update_of_ne hj]
      exact (h.thieves j).of_top (Nat.lt_succ_self _)
  · obtain ⟨D, hD, hitems⟩ := h.replays
    rw [items, hlo, show s.hi - s.top = (s.hi - (s.top + 1)) + 1 by omega, window_cons, ← item_eq h.pow, ← hval,
      window_mod] at hitems
    obtain ⟨⟨n, y⟩, rest, hsplit, hy, hrest⟩ := List.map_eq_cons_iff.mp hitems
    rw [show y = val from hy] at hsplit
    refine ⟨_, hD.steal hsplit, ?_⟩
    rw [items, hlo']
    exact hrest

theorem Inv.thiefNext (i : Nat) : Inv k (s.thiefNext i) := by
  have hpc := h.thieves i
  have hbound := (bound_le_hi h.owner).1
  cases ht : s.thieves i with
  | idle =>
    simp only [Queue.thiefNext, ht]
    exact h.setThief (Nat.le_refl _)
  | bottom t =>
    rw [ht] at hpc
    simp only [Queue.thiefNext, ht]
    split
    · exact h.setThief trivial
    · exact h.setThief hpc
  | bottomAgain t =>
    rw [ht] at hpc
    simp only [Queue.thiefNext, ht]
    split
    · exact h.setThief trivial
    · exact h.setThief ⟨hpc, fun _ => by omega⟩
  | read t =>
    rw [ht] at hpc
    simp only [Queue.thiefNext, ht]
    exact h.setThief ⟨hpc.1, fun heq => ⟨hpc.2 heq, rfl⟩⟩
  | exchange t val =>
    rw [ht] at hpc
    simp only [Queue.thiefNext, ht]
    split
    · next heq =>
      obtain ⟨hlt, hval⟩ := hpc.2 heq.symm
      subst heq
      exact h.steal hlt hval
    · exact h.setThief (Nat.le_refl _)

theorem Inv.next {a : Act T} (hn : s.next a = some s') : Inv k s' := by
  cases a with
  | push x =>
    cases ho : s.owner <;> simp only [Queue.next, Queue.push, ho, reduceCtorEq] at hn
    refine h.move hn (by simp [hi, ho]) (by simp [lo, ho]) ?_ ?_
    · exact rfl
    · simp [bound, ho]
  | pop =>
    cases ho : s.owner <;> simp only [Queue.next, Queue.pop, ho, reduceCtorEq] at hn
    refine h.move hn (by simp [hi, ho]) (by simp [lo, ho]) ?_ ?_
    · exact rfl
    · simp [bound, ho]
  | owner => exact h.ownerNext hn
  | thief i =>
    rw [← Option.some.inj hn]
    exact h.thiefNext i

end

theorem inv_reachable (h : (queueMachine T k).Reachable s) : Inv k s := by
  refine Machine.Reachable.invariant (I := Inv k) ?_ ?_ h
  · rintro s rfl
    exact Inv.start
  · intro s a s' hs hn
    exact hs.next hn

/-- In every state of every run the successful calls so far are those of a double-ended queue:
    every item pushed was taken once or is there, the stolen ones were stolen in the order of
    their pushes, and a pop took the newest that was there. What is there is between `_top` and
    `_bottom` when the owner is idle, and a push writes to a slot of none of it. -/
theorem queue_keeps_items (h : (queueMachine T k).Reachable s) :
    (∃ D, Replays s.log D ∧ (D.taken ++ D.items.map Prod.fst).Perm (List.range D.count) ∧
      D.stolen.Pairwise (· < ·) ∧ (s.owner = .idle → D.items.map Prod.snd = s.between)) ∧
    ∀ x b, s.owner = .pushWrite x b → ∀ i, s.top ≤ i → i < s.bottom → s.slot i ≠ s.slot b := by
  have hinv := inv_reachable h
  refine ⟨?_, ?_⟩
  · obtain ⟨D, hD, hitems⟩ := hinv.replays
    refine ⟨D, hD, hD.once, hD.stolen_lt, fun ho => ?_⟩
    rw [hitems, items, between, show s.hi = s.bottom by simp [hi, ho], show s.lo = s.top by simp [lo, ho], window]
    apply List.map_congr_left
    intro j _
    rw [item_eq hinv.pow]
  · intro x b ho i hlow hlt
    obtain ⟨hb, -⟩ : b = s.bottom ∧ b < s.top + s.capacity := by simpa only [OwnerOk, ho] using hinv.owner
    exact (hinv.slot_free ho).2.2.2.2 i hlow (hb ▸ hlt)

end Queue

/-- The owner pushes two items; a thief reads the first one and exchanges `_top` while the owner
    pops the second. -/
def popAndSteal : List (Act Nat) :=
  [.push 5, .owner, .owner, .owner, .push 6, .owner, .owner, .owner, .thief 0, .thief 0, .pop, .owner, .thief 0,
    .owner, .owner, .thief 0, .owner, .thief 0]

theorem popAndSteal_kept : ∃ s, (queueMachine Nat 1).Run popAndSteal s ∧ s.log.length = 4 ∧
    (∃ D, Replays s.log D ∧ (D.taken ++ D.items.map Prod.fst).Perm (List.range D.count)) := by
  obtain ⟨s, hrun, hlog⟩ : ∃ s, (queueMachine Nat 1).Run popAndSteal s ∧ s.log.length = 4 :=
    Machine.exists_run rfl (by decide)
  obtain ⟨⟨D, hD, honce, -⟩, -⟩ := Queue.queue_keeps_items ⟨_, hrun⟩
  exact ⟨s, hrun, hlog, D, hD, honce⟩

end LightRpc.WorkStealing

import Mathlib

/- Objects that live as long as somebody holds a reference to them.

   A store maps the numbers handed out so far to objects with a count. `inc` and `dec` are
   what a holder calls when it copies or drops a reference: the last `dec` takes the object
   out of the store and writes it down in `released`. A call for a number without an object
   is an error, and the store remembers it (`broken`).

   `Exact σ m` says that the counts are the ones of the multiset `m` of all references there
   are, that every object ever allocated was released exactly once if no reference to it is
   left and never otherwise, and that no call was an error. Every operation comes with the
   change of `m` that keeps this (`Exact.alloc`, `Exact.modify`, `Recount.inc`,
   `Recount.dec`). -/
namespace Lib.RefCount

open Multiset

structure Cell (π : Type) where
  count : Nat
  pos : 0 < count
  payload : π

structure Store (π : Type) where
  cells : Nat → Option (Cell π)
  next : Nat
  released : List Nat
  broken : Bool

variable {π : Type}

namespace Store

def empty : Store π := ⟨fun _ => none, 0, [], false⟩

def fail (σ : Store π) : Store π := { σ with broken := true }

def setCell (σ : Store π) (b : Nat) (c : Option (Cell π)) : Store π :=
  { σ with cells := fun b' => if b' = b then c else σ.cells b' }

def count (σ : Store π) (b : Nat) : Nat := (σ.cells b).elim 0 Cell.count

def payload (σ : Store π) (b : Nat) : Option π := (σ.cells b).map Cell.payload

/-- A new object with one holder; its number is `σ.next`. -/
def alloc (σ : Store π) (p : π) : Store π :=
  { σ.setCell σ.next (some ⟨1, Nat.one_pos, p⟩) with next := σ.next + 1 }

def inc (σ : Store π) (b : Nat) : Store π :=
  match σ.cells b with
  | some c => σ.setCell b (some ⟨c.count + 1, Nat.succ_pos _, c.payload⟩)
  | none => σ.fail

def dec (σ : Store π) (b : Nat) : Store π :=
  match σ.cells b with
  | some c =>
    if h : c.count = 1 then { σ.setCell b none with released := σ.released ++ [b] }
    else σ.setCell b (some ⟨c.count - 1, by have := c.pos; omega, c.payload⟩)
  | none => σ.fail

def modify (σ : Store π) (b : Nat) (f : π → π) : Store π :=
  match σ.cells b with
  | some c => σ.setCell b (some { c with payload := f c.payload })
  | none => σ.fail

/-- The memory of the object is gone, with nobody told. -/
def free (σ : Store π) (b : Nat) : Store π := σ.setCell b none

variable {σ : Store π} {b b' : Nat} {c : Cell π} {p : π}

theorem count_pos : 0 < σ.count b ↔ ∃ c, σ.cells b = some c := by
  rw [count]
  cases hc : σ.cells b with
  | none => simp
  | some c => simpa using c.pos

theorem exists_payload (h : 0 < σ.count b) : ∃ p, σ.payload b = some p := by
  obtain ⟨c, hc⟩ := count_pos.mp h
  exact ⟨c.payload, by rw [payload, hc, Option.map_some]⟩

theorem payload_setCell (σ : Store π) (b b' : Nat) (c : Option (Cell π)) :
    (σ.setCell b c).payload b' = if b' = b then c.map Cell.payload else σ.payload b' := by
  unfold payload setCell
  by_cases h : b' = b <;> simp [h]

theorem payload_alloc (σ : Store π) (p : π) (b : Nat) :
    (σ.alloc p).payload b = if b = σ.next then some p else σ.payload b :=
  payload_setCell σ σ.next b _

theorem payload_inc (σ : Store π) (b b' : Nat) : (σ.inc b).payload b' = σ.payload b' := by
  unfold inc
  split
  · rename_i c hc
    rw [payload_setCell]
    split
    · rename_i heq
      rw [heq, payload, hc]
      rfl
    · rfl
  · rfl

theorem cells_dec (hne : b' ≠ b) : (σ.dec b).cells b' = σ.cells b' := by
  unfold dec
  split
  · split <;> exact if_neg hne
  · rfl

/-- Dropping a reference leaves every object as it is that has holders afterwards. -/
theorem payload_dec (h : 0 < (σ.dec b).count b') : (σ.dec b).payload b' = σ.payload b' := by
  obtain ⟨c', hc'⟩ := count_pos.mp h
  unfold dec at hc' ⊢
  split at hc'
  · rename_i c hc
    split at hc'
    · rename_i h1
      rw [dif_pos h1]
      by_cases heq : b' = b
      · simp [setCell, heq] at hc'
      · exact (payload_setCell σ b b' none).trans (if_neg heq)
    · rename_i h1
      rw [dif_neg h1, payload_setCell]
      split
      · rename_i heq
        rw [heq, payload, hc]
        rfl
      · rfl
  · rfl

theorem payload_modify (σ : Store π) (b b' : Nat) (f : π → π) :
    (σ.modify b f).payload b' = if b' = b then (σ.payload b).map f else σ.payload b' := by
  unfold modify
  split
  · rename_i c hc
    have hp : σ.payload b = some c.payload := by rw [payload, hc, Option.map_some]
    rw [payload_setCell, hp]
    rfl
  · rename_i hc
    by_cases heq : b' = b
    · rw [if_pos heq, payload, heq, fail, hc, payload, hc]
      rfl
    · rw [if_neg heq]
      rfl

@[simp] theorem next_inc (σ : Store π) (b : Nat) : (σ.inc b).next = σ.next := by
  unfold inc
  split <;> rfl

@[simp] theorem next_dec (σ : Store π) (b : Nat) : (σ.dec b).next = σ.next := by
  unfold dec
  split
  · split <;> rfl
  · rfl

@[simp] theorem released_modify (σ : Store π) (b : Nat) (f : π → π) : (σ.modify b f).released = σ.released := by
  unfold modify
  split <;> rfl

@[simp] theorem next_modify (σ : Store π) (b : Nat) (f : π → π) : (σ.modify b f).next = σ.next := by
  unfold modify
  split <;> rfl

end Store

/-- Objects may be gone; those that are left are as they were, and what was released stays so. -/
structure Thins (σ σ' : Store π) : Prop where
  payload : ∀ b p, σ'.payload b = some p → σ.payload b = some p
  next : σ'.next = σ.next
  released : σ.released <+: σ'.released

namespace Thins

variable {σ σ' σ'' : Store π}

theorem refl (σ : Store π) : Thins σ σ := ⟨fun _ _ h => h, rfl, List.prefix_refl _⟩

theorem trans (t : Thins σ σ') (t' : Thins σ' σ'') : Thins σ σ'' :=
  ⟨fun b p h => t.payload b p (t'.payload b p h), t'.next.trans t.next, t.released.trans t'.released⟩

theorem fail (σ : Store π) : Thins σ σ.fail := ⟨fun _ _ h => h, rfl, List.prefix_refl _⟩

theorem free (σ : Store π) (b : Nat) : Thins σ (σ.free b) := by
  refine ⟨fun b' p h => ?_, rfl, List.prefix_refl _⟩
  rw [Store.free, Store.payload_setCell] at h
  split at h
  · cases h
  · exact h

theorem inc (σ : Store π) (b : Nat) : Thins σ (σ.inc b) := by
  refine ⟨fun b' _ h => (Store.payload_inc σ b b').symm.trans h, Store.next_inc σ b, ?_⟩
  unfold Store.inc
  split <;> exact List.prefix_refl _

theorem dec (σ : Store π) (b : Nat) : Thins σ (σ.dec b) := by
  refine ⟨fun b' p h => ?_, Store.next_dec σ b, ?_⟩
  · obtain ⟨c, hc, -⟩ := Option.map_eq_some_iff.mp h
    exact (Store.payload_dec (Store.count_pos.mpr ⟨c, hc⟩)).symm.trans h
  · unfold Store.dec
    split
    · split
      · exact List.prefix_append _ _
      · exact List.prefix_refl _
    · exact List.prefix_refl _

theorem foldl_dec (bs : List Nat) : ∀ σ : Store π, Thins σ (bs.foldl Store.dec σ) := by
  induction bs with
  | nil => exact refl
  | cons b bs ih => exact fun σ => (dec σ b).trans (ih (σ.dec b))

end Thins

/-- The store counts the references `m`, and has released what nobody refers to any more. -/
structure Exact (σ : Store π) (m : Multiset Nat) : Prop where
  sound : σ.broken = false
  counts : ∀ b, σ.count b = m.count b
  fresh : ∀ b, σ.next ≤ b → m.count b = 0
  once : ∀ b, σ.released.count b = if b < σ.next ∧ m.count b = 0 then 1 else 0

variable {σ σ' σ'' : Store π} {m m' m'' : Multiset Nat} {b : Nat}

theorem Exact.empty : Exact (Store.empty : Store π) 0 := by
  refine ⟨rfl, fun b => ?_, fun b _ => ?_, fun b => ?_⟩
  · rw [count_zero]
    rfl
  · exact count_zero b
  · simp [Store.empty]

theorem Exact.cell (h : Exact σ m) (hb : b ∈ m) : ∃ c, σ.cells b = some c ∧ c.count = m.count b := by
  have hpos : 0 < σ.count b := by
    rw [h.counts]
    exact count_pos.mpr hb
  obtain ⟨c, hc⟩ := Store.count_pos.mp hpos
  refine ⟨c, hc, ?_⟩
  rw [← h.counts, Store.count, hc]
  rfl

theorem Exact.payload (h : Exact σ m) (hb : b ∈ m) : ∃ p, σ.payload b = some p := by
  apply Store.exists_payload
  rw [h.counts]
  exact count_pos.mpr hb

theorem Exact.lt_next (h : Exact σ m) (hb : b ∈ m) : b < σ.next := by
  by_contra hge
  have := h.fresh b (by omega)
  exact count_ne_zero.mpr hb this

theorem Exact.mem_of_payload {p : π} (h : Exact σ m) (hp : σ.payload b = some p) : b ∈ m := by
  obtain ⟨c, hc, -⟩ := Option.map_eq_some_iff.mp hp
  have hpos : 0 < σ.count b := Store.count_pos.mpr ⟨c, hc⟩
  rw [h.counts] at hpos
  exact count_pos.mp hpos

theorem Exact.alloc (h : Exact σ m) (p : π) : Exact (σ.alloc p) (σ.next ::ₘ m) := by
  refine ⟨h.sound, fun b => ?_, fun b hb => ?_, fun b => ?_⟩
  · rw [count_cons]
    by_cases heq : b = σ.next
    · rw [heq, if_pos rfl, h.fresh _ (Nat.le_refl _)]
      simp [Store.count, Store.alloc, Store.setCell]
    · rw [if_neg heq, Nat.add_zero, ← h.counts]
      simp [Store.count, Store.alloc, Store.setCell, heq]
  · have hb : σ.next + 1 ≤ b := hb
    rw [count_cons, if_neg (by omega), h.fresh b (by omega)]
  · have hrel : (σ.alloc p).released = σ.released := rfl
    have hnext : (σ.alloc p).next = σ.next + 1 := rfl
    rw [hrel, h.once b, hnext, count_cons]
    by_cases heq : b = σ.next
    · rw [if_neg (by omega), if_neg (by rw [if_pos heq]; omega)]
    · rw [if_neg heq, Nat.add_zero]
      congr 1
      rw [eq_iff_iff]
      omega

theorem Exact.modify (h : Exact σ m) (hb : b ∈ m) (f : π → π) : Exact (σ.modify b f) m := by
  obtain ⟨c, hc, -⟩ := h.cell hb
  have heq : σ.modify b f = σ.setCell b (some { c with payload := f c.payload }) := by
    rw [Store.modify, hc]
  rw [heq]
  refine ⟨h.sound, fun b' => ?_, h.fresh, h.once⟩
  rw [← h.counts, Store.count, Store.count, Store.setCell]
  by_cases hb' : b' = b
  · simp [hb', hc]
  · simp [hb']

/-- The references went from `m` to `m'` with the objects left as they are: nothing is
    allocated, and what is still referred to has the payload it had. -/
structure Recount (σ : Store π) (m : Multiset Nat) (σ' : Store π) (m' : Multiset Nat) : Prop where
  exact : Exact σ' m'
  sub : ∀ b ∈ m', b ∈ m
  keeps : ∀ b ∈ m', σ'.payload b = σ.payload b
  next : σ'.next = σ.next

namespace Recount

theorem refl (h : Exact σ m) : Recount σ m σ m :=
  ⟨h, fun _ hb => hb, fun _ _ => rfl, rfl⟩

theorem trans (h : Recount σ m σ' m') (h' : Recount σ' m' σ'' m'') : Recount σ m σ'' m'' where
  exact := h'.exact
  sub b hb := h.sub b (h'.sub b hb)
  keeps b hb := (h'.keeps b hb).trans (h.keeps b (h'.sub b hb))
  next := h'.next.trans h.next

theorem inc (h : Exact σ m) (hb : b ∈ m) : Recount σ m (σ.inc b) (b ::ₘ m) := by
  obtain ⟨c, hc, hcount⟩ := h.cell hb
  have heq : σ.inc b = σ.setCell b (some ⟨c.count + 1, Nat.succ_pos _, c.payload⟩) := by
    rw [Store.inc, hc]
  have hlt : b < σ.next := h.lt_next hb
  refine ⟨⟨?_, fun b' => ?_, fun b' hb' => ?_, fun b' => ?_⟩, fun b' hb' => ?_, fun b' _ => ?_, ?_⟩
  · rw [heq]
    exact h.sound
  · rw [heq, count_cons, ← h.counts]
    by_cases hb' : b' = b
    · simp [Store.count, Store.setCell, hb', hc]
    · simp [Store.count, Store.setCell, hb']
  · rw [Store.next_inc] at hb'
    rw [count_cons, if_neg (by omega), h.fresh b' hb']
  · have hrel : (σ.inc b).released = σ.released := by rw [heq]; rfl
    rw [hrel, h.once, Store.next_inc, count_cons]
    by_cases hb' : b' = b
    · have hpos : 0 < m.count b' := count_pos.mpr (hb' ▸ hb)
      rw [if_neg (by omega), if_neg (by omega)]
    · rw [if_neg hb', Nat.add_zero]
  · rcases mem_cons.mp hb' with rfl | hb'
    · exact hb
    · exact hb'
  · exact Store.payload_inc σ b b'
  · exact Store.next_inc σ b

theorem dec (h : Exact σ (b ::ₘ m)) : Recount σ (b ::ₘ m) (σ.dec b) m := by
  obtain ⟨c, hc, hcount⟩ := h.cell (mem_cons_self b m)
  rw [count_cons_self] at hcount
  have hlt : b < σ.next := h.lt_next (mem_cons_self b m)
  have hcounts : ∀ b', (σ.dec b).count b' = m.count b' := by
    intro b'
    have hb' := h.counts b'
    rw [count_cons] at hb'
    rw [Store.dec, hc]
    by_cases heq : b' = b
    · subst heq
      dsimp only
      split
      · rename_i h1
        simp [Store.count, Store.setCell]
        omega
      · simp [Store.count, Store.setCell]
        omega
    · rw [if_neg heq, Nat.add_zero] at hb'
      rw [← hb']
      dsimp only
      split <;> simp [Store.count, Store.setCell, heq]
  refine ⟨⟨?_, hcounts, fun b' hb' => ?_, fun b' => ?_⟩, fun b' => mem_cons_of_mem, fun b' hb' => ?_,
    Store.next_dec σ b⟩
  · rw [Store.dec, hc]
    dsimp only
    split <;> exact h.sound
  · rw [Store.next_dec] at hb'
    have := h.fresh b' hb'
    rw [count_cons] at this
    omega
  · rw [Store.next_dec]
    have honce := h.once b'
    rw [count_cons] at honce
    rw [Store.dec, hc]
    dsimp only
    split
    · -- the last reference: the object is written down as released
      rename_i h1
      show (σ.released ++ [b]).count b' = _
      rw [List.count_append, honce, List.count_singleton]
      by_cases heq : b' = b
      · subst heq
        rw [if_neg (by simp), if_pos (by simp), if_pos (by omega)]
      · have hne : ¬ (b == b') = true := by simpa using Ne.symm heq
        rw [if_neg heq, Nat.add_zero, if_neg hne, Nat.add_zero]
    · rename_i h1
      show σ.released.count b' = _
      rw [honce]
      by_cases heq : b' = b
      · subst heq
        rw [if_neg (by simp), if_neg (by omega)]
      · rw [if_neg heq, Nat.add_zero]
  · apply Store.payload_dec
    rw [hcounts]
    exact count_pos.mpr hb'

/-- Dropping a list of references one after the other. -/
theorem decAll : ∀ (bs : List Nat) {σ : Store π} {m : Multiset Nat}, Exact σ (↑bs + m) →
    Recount σ (↑bs + m) (bs.foldl Store.dec σ) m
  | [], σ, m, h => by
    rw [coe_nil, zero_add] at h ⊢
    exact refl h
  | b :: bs, σ, m, h => by
    rw [← cons_coe, cons_add] at h ⊢
    have h1 := dec h
    exact h1.trans (decAll bs h1.exact)

/-- Copying a list of references one after the other. -/
theorem incAll : ∀ (bs : List Nat) {σ : Store π} {m : Multiset Nat}, Exact σ m → (∀ b ∈ bs, b ∈ m) →
    Recount σ m (bs.foldl Store.inc σ) (↑bs + m)
  | [], σ, m, h, _ => by
    rw [coe_nil, zero_add]
    exact refl h
  | b :: bs, σ, m, h, hbs => by
    have h1 := inc h (hbs b List.mem_cons_self)
    have h2 := incAll bs h1.exact
      (fun b' hb' => mem_cons_of_mem (hbs b' (List.mem_cons_of_mem b hb')))
    rw [← cons_coe, cons_add, ← add_cons]
    exact h1.trans h2

end Recount

/-! Holders in a list, each with references of its own. -/

section Pool

variable {α : Type} {f : α → List Nat} {l : List α} {i : Nat} {x z : α}

/-- The references of all holders in the list. -/
def pool (f : α → List Nat) (l : List α) : Multiset Nat := ↑(l.flatMap f)

theorem pool_append (l l' : List α) : pool f (l ++ l') = pool f l + pool f l' := by
  rw [pool, List.flatMap_append]
  rfl

theorem mem_pool (hx : x ∈ l) (hb : b ∈ f x) : b ∈ pool f l :=
  mem_coe.mpr (List.mem_flatMap.mpr ⟨x, hx, hb⟩)

/-- The references of the list, with the entry at `i` taken apart: `z` is a holder without any. -/
theorem pool_set (hz : f z = []) (hi : i < l.length) (x : α) : pool f (l.set i x) = ↑(f x) + pool f (l.set i z) := by
  induction l generalizing i with
  | nil => exact absurd hi (Nat.not_lt_zero i)
  | cons y l ih =>
    cases i with
    | zero =>
      show (↑(f x ++ l.flatMap f) : Multiset Nat) = ↑(f x) + ↑(f z ++ l.flatMap f)
      rw [hz, List.nil_append, ← coe_add]
    | succ i =>
      have hrest := ih (Nat.lt_of_succ_lt_succ hi)
      show (↑(f y ++ (l.set i x).flatMap f) : Multiset Nat) = ↑(f x) + ↑(f y ++ (l.set i z).flatMap f)
      rw [← coe_add, ← coe_add, add_left_comm]
      exact congrArg ((↑(f y) : Multiset Nat) + ·) hrest

theorem pool_get (hz : f z = []) (hi : l[i]? = some x) : pool f l = ↑(f x) + pool f (l.set i z) := by
  obtain ⟨hlt, rfl⟩ := List.getElem?_eq_some_iff.mp hi
  rw [← pool_set hz hlt, List.set_getElem_self]

theorem pool_map (g : α → α) (hg : ∀ x, f (g x) = f x) (l : List α) : pool f (l.map g) = pool f l := by
  rw [pool, List.flatMap_map]
  exact congrArg _ (List.flatMap_congr fun x _ => hg x)

end Pool

end Lib.RefCount

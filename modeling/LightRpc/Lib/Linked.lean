import Mathlib

/- Singly linked lists of nodes on a heap.

   A node is an entry of the store with a link to the next one; `none` is the null pointer.
   `Seg σ p l q` says that the links lead from `p` through the nodes `l` to `q`, so a whole
   list is a segment that ends in null. The operations that C code does on such a list by
   hand (link a new node in, unlink one, cut the end off) each write one link, the last one
   of a segment, and leave the links behind it as they are: `Seg.setNext` is that rule,
   and `Seg.frame` says that writes elsewhere do not matter. -/
namespace Lib.Linked

open Function

structure Node (π : Type) where
  payload : π
  next : Option Nat

/-- The nodes by address, and the address the next new one gets. -/
structure Store (π : Type) where
  cells : Nat → Option (Node π)
  fresh : Nat

variable {π : Type}

namespace Store

def empty : Store π := ⟨fun _ => none, 0⟩

/-- `new`, at the address `fresh` -/
def alloc (σ : Store π) (x : π) : Store π := ⟨Function.update σ.cells σ.fresh (some ⟨x, none⟩), σ.fresh + 1⟩

/-- `delete` -/
def free (σ : Store π) (a : Nat) : Store π := { σ with cells := Function.update σ.cells a none }

/-- `a->next = p`, if there is a node at `a`. -/
def setNext (σ : Store π) (a : Nat) (p : Option Nat) : Option (Store π) :=
  (σ.cells a).map fun n => { σ with cells := Function.update σ.cells a (some { n with next := p }) }

/-- `*link = q`, where the link is that of the node `prev`, or the head pointer `p` if there
    is no node before. -/
def relink (σ : Store π) (p prev q : Option Nat) : Option (Store π × Option Nat) :=
  match prev with
  | some a => (σ.setNext a q).map fun σ => (σ, p)
  | none => some (σ, q)

theorem setNext_eq {σ : Store π} {a : Nat} {n : Node π} (h : σ.cells a = some n) (p : Option Nat) :
    σ.setNext a p = some { σ with cells := update σ.cells a (some { n with next := p }) } := by
  simp [setNext, h]

end Store

/-- From `p` the links lead through the nodes `l`, given by address and payload, to `q`. -/
def Seg (σ : Store π) : Option Nat → List (Nat × π) → Option Nat → Prop
  | p, [], q => p = q
  | p, (a, x) :: l, q => p = some a ∧ ∃ n, σ.cells a = some ⟨x, n⟩ ∧ Seg σ n l q

def addrs (l : List (Nat × π)) : List Nat := l.map Prod.fst

@[simp] theorem addrs_nil : addrs ([] : List (Nat × π)) = [] := rfl

@[simp] theorem addrs_cons (e : Nat × π) (l : List (Nat × π)) : addrs (e :: l) = e.1 :: addrs l := rfl

@[simp] theorem addrs_append (l l' : List (Nat × π)) : addrs (l ++ l') = addrs l ++ addrs l' := by
  simp [addrs]

@[simp] theorem length_addrs (l : List (Nat × π)) : (addrs l).length = l.length := by
  simp [addrs]

variable {σ σ' : Store π} {p q q' : Option Nat} {l l' l'' : List (Nat × π)} {a : Nat} {x : π} {e : Nat × π}

theorem Seg.append : Seg σ p (l ++ l') q ↔ ∃ m, Seg σ p l m ∧ Seg σ m l' q := by
  induction l generalizing p with
  | nil => simp [Seg]
  | cons y l ih =>
    constructor
    · rintro ⟨hp, n, hn, hs⟩
      obtain ⟨m, hl, hl'⟩ := ih.mp hs
      exact ⟨m, ⟨hp, n, hn, hl⟩, hl'⟩
    · rintro ⟨m, ⟨hp, n, hn, hl⟩, hl'⟩
      exact ⟨hp, n, hn, ih.mpr ⟨m, hl, hl'⟩⟩

/-- Writes to other addresses leave a segment as it is. -/
theorem Seg.frame (hs : Seg σ p l q) (hsame : ∀ b ∈ addrs l, σ'.cells b = σ.cells b) : Seg σ' p l q := by
  induction l generalizing p with
  | nil => exact hs
  | cons y l ih =>
    obtain ⟨hp, n, hn, hs⟩ := hs
    refine ⟨hp, n, ?_, ih hs ?_⟩
    · rw [hsame y.1 (by simp), hn]
    · exact fun b hb => hsame b (List.mem_cons_of_mem _ hb)

theorem update_ne {a b : Nat} {n : Option (Node π)} {f : Nat → Option (Node π)} (h : b ≠ a) :
    update f a n b = f b := update_of_ne h n f

/-- The last node of a segment, and what its link is. -/
theorem Seg.last (hs : Seg σ p (l ++ [(a, x)]) q) : σ.cells a = some ⟨x, q⟩ ∧ Seg σ p l (some a) := by
  obtain ⟨m, hl, hm, n, hn, hq⟩ := Seg.append.mp hs
  refine ⟨?_, ?_⟩
  · rw [hn, show n = q from hq]
  · rw [← hm]
    exact hl

/-- The link of the last node of a segment is written. -/
theorem Seg.setNext (hs : Seg σ p (l ++ [(a, x)]) q) (hnd : (addrs (l ++ [(a, x)])).Nodup) (q' : Option Nat) :
    ∃ σ', σ.setNext a q' = some σ' ∧ Seg σ' p (l ++ [(a, x)]) q' ∧ σ'.fresh = σ.fresh ∧
      ∀ b, b ≠ a → σ'.cells b = σ.cells b := by
  obtain ⟨ha, hl⟩ := hs.last
  refine ⟨_, Store.setNext_eq ha q', Seg.append.mpr ⟨some a, hl.frame ?_, ⟨rfl, q', ?_, rfl⟩⟩, rfl, ?_⟩
  · intro b hb
    have hne : b ≠ a := by
      rintro rfl
      simp [List.nodup_append] at hnd
      exact hnd.2 b hb rfl
    exact update_ne hne
  · simp
  · exact fun b hb => update_ne hb

/-- The first node of a segment. -/
theorem Seg.head (hs : Seg σ p ((a, x) :: l) q) : p = some a ∧ ∃ n, σ.cells a = some ⟨x, n⟩ ∧ Seg σ n l q := hs

/-- A list that has been walked to its end is empty there. -/
theorem Seg.null (hs : Seg σ none l q) : l = [] ∧ q = none := by
  cases l with
  | nil => exact ⟨rfl, hs.symm⟩
  | cons y l =>
    obtain ⟨hp, _⟩ := hs
    cases hp

/-- What follows the nodes `l` is replaced by another list. -/
theorem Seg.relink (hs : Seg σ p (l ++ l') none) (hq : Seg σ q l'' none) (hnd : (addrs (l ++ l'')).Nodup) :
    ∃ σ' p', σ.relink p (l.getLast?.map Prod.fst) q = some (σ', p') ∧ Seg σ' p' (l ++ l'') none ∧
      σ'.fresh = σ.fresh ∧ ∀ b, b ∉ addrs l → σ'.cells b = σ.cells b := by
  obtain ⟨m, hfront, -⟩ := Seg.append.mp hs
  rcases List.eq_nil_or_concat l with rfl | ⟨init, c, rfl⟩
  · exact ⟨σ, q, rfl, hq, rfl, fun _ _ => rfl⟩
  · rw [List.concat_eq_append] at hfront hnd ⊢
    have hsplit : (addrs (init ++ [c])).Nodup ∧ c.1 ∉ addrs l'' := by
      simp only [addrs_append, List.nodup_append] at hnd ⊢
      exact ⟨hnd.1, fun hmem => hnd.2.2 c.1 (by simp) c.1 hmem rfl⟩
    obtain ⟨σ', hset, hseg, hfresh, hother⟩ := Seg.setNext hfront hsplit.1 q
    refine ⟨σ', p, ?_, Seg.append.mpr ⟨q, hseg, hq.frame ?_⟩, hfresh, ?_⟩
    · simp [Store.relink, hset]
    · exact fun b hb => hother b (fun heq => hsplit.2 (heq ▸ hb))
    · exact fun b hb => hother b (fun heq => hb (by simp [heq]))

/-! Whole lists: the nodes are distinct, and older than the next one to come. -/

structure Chain (σ : Store π) (p : Option Nat) (l : List (Nat × π)) : Prop where
  seg : Seg σ p l none
  nodup : (addrs l).Nodup
  below : ∀ b ∈ addrs l, b < σ.fresh

namespace Chain

theorem empty : Chain (Store.empty : Store π) none [] := ⟨rfl, by simp, by simp⟩

theorem length_le (h : Chain σ p l) : l.length ≤ σ.fresh := by
  have hsub : addrs l ⊆ List.range σ.fresh := fun b hb => List.mem_range.mpr (h.below b hb)
  simpa using (h.nodup.subperm hsub).length_le

/-- A new node, not linked yet. -/
theorem alloc (h : Chain σ p l) (x : π) : Chain (σ.alloc x) p l where
  seg := h.seg.frame fun b hb => update_ne (Nat.ne_of_lt (h.below b hb))
  nodup := h.nodup
  below := fun b hb => Nat.lt_succ_of_lt (h.below b hb)

/-- A node outside the list is deleted. -/
theorem free (h : Chain σ p l) (ha : a ∉ addrs l) : Chain (σ.free a) p l where
  seg := h.seg.frame fun _ hb => update_ne (fun heq => ha (heq ▸ hb))
  nodup := h.nodup
  below := h.below

theorem tail (h : Chain σ p (e :: l)) : ∃ n, p = some e.1 ∧ σ.cells e.1 = some ⟨e.2, n⟩ ∧ Chain σ n l ∧ e.1 ∉ addrs l := by
  obtain ⟨hp, n, hn, hs⟩ := h.seg
  have hnd := List.nodup_cons.mp h.nodup
  exact ⟨n, hp, hn, ⟨hs, hnd.2, fun b hb => h.below b (List.mem_cons_of_mem _ hb)⟩, hnd.1⟩

/-- A node outside the list is linked in: its link is set to what follows `l`, and the link that
    leads there is set to it. -/
theorem link (h : Chain σ p (l ++ l')) {n : Node π} (hn : σ.cells a = some n) (ha : a ∉ addrs (l ++ l'))
    (hlt : a < σ.fresh) {m : Option Nat} (hm : Seg σ m l' none) :
    ∃ σ₁ σ' p', σ.setNext a m = some σ₁ ∧ (∀ b, b ≠ a → σ₁.cells b = σ.cells b) ∧
      σ₁.relink p (l.getLast?.map Prod.fst) (some a) = some (σ', p') ∧ Chain σ' p' (l ++ (a, n.payload) :: l') := by
  have hperm : (addrs (l ++ (a, n.payload) :: l')).Perm (a :: addrs (l ++ l')) := by
    simp
  have hnd : (addrs (l ++ (a, n.payload) :: l')).Nodup := hperm.nodup_iff.mpr (List.nodup_cons.mpr ⟨ha, h.nodup⟩)
  have hother : ∀ b, b ≠ a → update σ.cells a (some { n with next := m }) b = σ.cells b :=
    fun b hb => update_ne hb
  have hback : Seg { σ with cells := update σ.cells a (some { n with next := m }) } (some a)
      ((a, n.payload) :: l') none := by
    refine ⟨rfl, m, by simp, hm.frame ?_⟩
    exact fun b hb => hother b (fun heq => ha (by simp [← heq, hb]))
  have hfront : Seg { σ with cells := update σ.cells a (some { n with next := m }) } p (l ++ l') none :=
    h.seg.frame fun b hb => hother b (fun heq => ha (heq ▸ hb))
  obtain ⟨σ', p', hset, hseg, hfresh, -⟩ := Seg.relink hfront hback hnd
  refine ⟨_, σ', p', Store.setNext_eq hn m, hother, hset, hseg, hnd, ?_⟩
  intro b hb
  rw [hfresh]
  rcases List.mem_cons.mp (hperm.mem_iff.mp hb) with rfl | hb
  · exact hlt
  · exact h.below b hb

end Chain

end Lib.Linked

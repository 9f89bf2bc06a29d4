import Mathlib

/- A slot that is used again and again, one generation after the other, and is
   counted by the threads that look at it.

   Looking is wait-free: a thread adds one to the count before it knows whether the
   generation it wanted is still there, and takes the one away again if it is not.
   So the count of a failed generation can reach zero several times, and everyone who
   sees that happen tries to recycle the slot. What a thread has in hand is a
   `Share`; `Inv` ties the shares of all threads to the slot, and there is one rule
   for each thing a thread can do. -/
namespace Lib.Generations

open Multiset

inductive Phase where
  | free
  | taken
  /-- Counted, not announced yet. -/
  | building
  | live
  | failed
  /-- Recycled: the next generation's number, still with the one who recycled it. -/
  | cleaning
  deriving DecidableEq, Repr

structure Slot where
  gen : Nat
  phase : Phase
  count : Nat

/-- The count the slot holds of itself until its generation fails. -/
def Slot.own (a : Slot) : Nat := if a.phase = .building ∨ a.phase = .live then 1 else 0

inductive Share where
  | creator
  | builder (g : Nat)
  /-- A reference to generation `g`. -/
  | ref (g : Nat)
  /-- The slot's own count, passed to the thread that failed the generation. -/
  | extra (g : Nat)
  /-- One added to the count by a thread that did not find what it looked for. -/
  | probe (g : Nat) (sawFailed : Bool)
  /-- Saw the count of the failed generation `g` reach zero. -/
  | attempt (g : Nat)
  | cleaner (g : Nat)
  deriving DecidableEq, Repr

namespace Share

def counted : Share → Nat
  | ref _ | extra _ | probe _ _ => 1
  | _ => 0

/-- There is never more than one of these. -/
def exclusive : Share → Nat
  | creator | builder _ | extra _ | cleaner _ => 1
  | _ => 0

/-- The generation a share is about. -/
def about (g : Nat) : Share → Bool
  | creator => false
  | builder g' | ref g' | extra g' | probe g' _ | attempt g' | cleaner g' => g' == g

def Valid (a : Slot) : Share → Prop
  | creator => a.phase = .taken
  | builder g => g = a.gen ∧ a.phase = .building
  | ref g => g = a.gen ∧ (a.phase = .live ∨ a.phase = .failed)
  | extra g => g = a.gen ∧ a.phase = .failed
  | probe g sawFailed => g = a.gen ∧ (sawFailed = true → a.phase = .failed)
  | attempt g => g < a.gen ∨ g = a.gen ∧ a.phase = .failed
  | cleaner g => g + 1 = a.gen ∧ a.phase = .cleaning

end Share

structure Inv (a : Slot) (T : Multiset Share) : Prop where
  count : a.count = a.own + (T.map Share.counted).sum
  valid : ∀ t ∈ T, t.Valid a
  alone : (T.map Share.exclusive).sum ≤ 1
  /-- A recycled slot is with its cleaner. -/
  kept : a.phase = .cleaning → .cleaner (a.gen - 1) ∈ T
  /-- A failed generation nobody counts is about to be recycled. -/
  covered : a.phase = .failed → a.count = 0 → .attempt a.gen ∈ T

variable {a : Slot} {R T : Multiset Share} {t : Share} {g : Nat}

/-! What the shares say. -/

section

variable (h : Inv a (t ::ₘ R))

include h

theorem Inv.head_valid : t.Valid a := h.valid t (mem_cons_self t R)

theorem Inv.rest_valid : ∀ u ∈ R, u.Valid a :=
  fun u hu => h.valid u (mem_cons_of_mem hu)

theorem Inv.count_cons : a.count = a.own + (t.counted + (R.map Share.counted).sum) := by
  simpa using h.count

theorem Inv.alone_cons : t.exclusive + (R.map Share.exclusive).sum ≤ 1 := by
  simpa using h.alone

theorem Inv.own_lt_count (ht : t.counted = 1) : a.own < a.count := by
  have := h.count_cons
  omega

end

theorem weight_eq_zero {w : Share → Nat} (hsum : (T.map w).sum = 0) : ∀ u ∈ T, w u = 0 :=
  fun _ hu => sum_eq_zero_iff.mp hsum _ (mem_map_of_mem w hu)

/-- Beside an exclusive share there is no other. -/
theorem Inv.others (h : Inv a (t ::ₘ R)) (ht : t.exclusive = 1) :
    (R.map Share.exclusive).sum = 0 ∧ ∀ u ∈ R, u.exclusive = 0 := by
  have hsum : (R.map Share.exclusive).sum = 0 := by
    have := h.alone_cons
    omega
  exact ⟨hsum, weight_eq_zero hsum⟩

theorem Inv.no_exclusive (h : Inv a T) (hp : a.phase = .free ∨ a.phase = .live) : (T.map Share.exclusive).sum = 0 := by
  refine sum_eq_zero fun n hn => ?_
  obtain ⟨u, hu, rfl⟩ := mem_map.mp hn
  have hv := h.valid u hu
  cases u <;> rcases hp with hp | hp <;> simp_all [Share.Valid, Share.exclusive]

/-- A failed generation no share is about has been recycled. -/
theorem Inv.lt_of_untouched (h : Inv a T) {k : Nat} (hk : k < a.gen ∨ k = a.gen ∧ a.phase = .failed)
    (hnone : ∀ u ∈ T, u.about k = false) : k < a.gen := by
  rcases hk with hk | ⟨rfl, hp⟩
  · exact hk
  exfalso
  have hzero : (T.map Share.counted).sum = 0 := by
    refine sum_eq_zero fun n hn => ?_
    obtain ⟨u, hu, rfl⟩ := mem_map.mp hn
    have hv := h.valid u hu
    have ha := hnone u hu
    cases u <;> simp_all [Share.Valid, Share.about, Share.counted]
  have hcount : a.count = 0 := by
    have := h.count
    simpa [Slot.own, hp, hzero] using this
  have := hnone _ (h.covered hp hcount)
  simp [Share.about] at this

/-! The rules. -/

theorem Inv.take (h : Inv a R) (hp : a.phase = .free) : Inv { a with phase := .taken } (.creator ::ₘ R) where
  count := by simpa [Slot.own, hp, Share.counted] using h.count
  valid := by
    intro u hu
    rcases mem_cons.mp hu with rfl | hu
    · rfl
    · have hv := h.valid u hu
      cases u <;> simp_all [Share.Valid]
  alone := by simp [Share.exclusive, h.no_exclusive (.inl hp)]
  kept := nofun
  covered := nofun

theorem Inv.start (h : Inv a (.creator ::ₘ R)) :
    Inv { a with phase := .building, count := a.count + 1 } (.builder a.gen ::ₘ R) where
  count := by
    have hp : a.phase = .taken := h.head_valid
    have := h.count
    simp only [map_cons, sum_cons, Slot.own, Share.counted, hp] at this ⊢
    simp at this ⊢
    omega
  valid := by
    have hp : a.phase = .taken := h.head_valid
    obtain ⟨_, hothers⟩ := h.others rfl
    intro u hu
    rcases mem_cons.mp hu with rfl | hu
    · exact ⟨rfl, rfl⟩
    · have hv := h.rest_valid u hu
      have he := hothers u hu
      cases u <;> simp_all [Share.Valid, Share.exclusive]
  alone := by simpa [Share.exclusive] using h.alone
  kept := nofun
  covered := nofun

theorem Inv.publish (h : Inv a (.builder g ::ₘ R)) : Inv { a with phase := .live } R where
  count := by
    obtain ⟨_, hp⟩ := h.head_valid
    simpa [Slot.own, hp, Share.counted] using h.count
  valid := by
    obtain ⟨_, hp⟩ := h.head_valid
    obtain ⟨_, hothers⟩ := h.others rfl
    intro u hu
    have hv := h.rest_valid u hu
    have he := hothers u hu
    cases u <;> simp_all [Share.Valid, Share.exclusive]
  alone := by
    have := h.alone_cons
    show (R.map Share.exclusive).sum ≤ 1
    omega
  kept := nofun
  covered := nofun

/-- Failing a generation passes the slot's own count to the thread that does it. -/
theorem Inv.fail (h : Inv a R) (hp : a.phase = .live) : Inv { a with phase := .failed } (.extra a.gen ::ₘ R) where
  count := by simpa [Slot.own, hp, Share.counted] using h.count
  valid := by
    intro u hu
    rcases mem_cons.mp hu with rfl | hu
    · exact ⟨rfl, rfl⟩
    · have hv := h.valid u hu
      cases u <;> simp_all [Share.Valid]
  alone := by simp [Share.exclusive, h.no_exclusive (.inr hp)]
  kept := nofun
  covered := by
    intro _ hzero
    have hcount := h.count
    simp only [Slot.own, hp] at hcount hzero
    simp at hcount
    omega

theorem Inv.fail_building (h : Inv a (.builder g ::ₘ R)) : Inv { a with phase := .failed } (.extra a.gen ::ₘ R) :=
  h.publish.fail rfl

theorem Inv.join (h : Inv a R) (hp : a.phase = .live ∨ a.phase = .failed) :
    Inv { a with count := a.count + 1 } (.ref a.gen ::ₘ R) where
  count := by
    have := h.count
    simp only [map_cons, sum_cons, Share.counted, Slot.own] at this ⊢
    omega
  valid := by
    intro u hu
    rcases mem_cons.mp hu with rfl | hu
    · exact ⟨rfl, hp⟩
    · exact h.valid u hu
  alone := by simpa [Share.exclusive] using h.alone
  kept hc := by
    rcases hp with hp | hp <;> cases hp.symm.trans hc
  covered := by simp

theorem Inv.probe (h : Inv a R) :
    Inv { a with count := a.count + 1 } (.probe a.gen (decide (a.phase = .failed)) ::ₘ R) where
  count := by
    have := h.count
    simp only [map_cons, sum_cons, Share.counted, Slot.own] at this ⊢
    omega
  valid := by
    intro u hu
    rcases mem_cons.mp hu with rfl | hu
    · exact ⟨rfl, fun hb => of_decide_eq_true hb⟩
    · exact h.valid u hu
  alone := by simpa [Share.exclusive] using h.alone
  kept hc := mem_cons_of_mem (h.kept hc)
  covered := by simp

/-- Taking one from the count, when that does not make a failed generation's zero. -/
theorem Inv.drop (h : Inv a (t ::ₘ R)) (ht : t.counted = 1) (hmore : a.phase = .failed → 1 < a.count) :
    Inv { a with count := a.count - 1 } R where
  count := by
    have := h.count_cons
    simp only [Slot.own] at this ⊢
    omega
  valid := h.rest_valid
  alone := by
    have := h.alone_cons
    show (R.map Share.exclusive).sum ≤ 1
    omega
  kept hc := by
    rcases mem_cons.mp (h.kept hc) with rfl | hmem
    · cases ht
    · exact hmem
  covered hp hzero := by
    have := hmore hp
    have hzero : a.count - 1 = 0 := hzero
    omega

/-- Whoever takes the last one from a failed generation gets to try recycling it. -/
theorem Inv.drop_last (h : Inv a (t ::ₘ R)) (ht : t.counted = 1) (hp : a.phase = .failed) :
    Inv { a with count := a.count - 1 } (.attempt a.gen ::ₘ R) where
  count := by
    have := h.count_cons
    simp only [map_cons, sum_cons, Slot.own] at this ⊢
    show a.count - 1 = _ + (0 + _)
    omega
  valid := by
    intro u hu
    rcases mem_cons.mp hu with rfl | hu
    · exact .inr ⟨rfl, hp⟩
    · exact h.rest_valid u hu
  alone := by
    have := h.alone_cons
    simp only [map_cons, sum_cons, Share.exclusive]
    omega
  kept hc := nomatch hp.symm.trans hc
  covered _ _ := mem_cons_self _ _

theorem Inv.abandon (h : Inv a (.attempt g ::ₘ R)) (hlate : g = a.gen → a.phase = .failed → a.count ≠ 0) : Inv a R where
  count := by simpa [Share.counted] using h.count
  valid := h.rest_valid
  alone := by simpa [Share.exclusive] using h.alone
  kept hc := by simpa using h.kept hc
  covered hp hzero := by
    rcases mem_cons.mp (h.covered hp hzero) with heq | hmem
    · cases heq
      exact absurd hzero (hlate rfl hp)
    · exact hmem

theorem Inv.recycle (h : Inv a (.attempt a.gen ::ₘ R)) (hp : a.phase = .failed) (hzero : a.count = 0) :
    Inv ⟨a.gen + 1, .cleaning, 0⟩ (.cleaner a.gen ::ₘ R) := by
  have hsum : (R.map Share.counted).sum = 0 := by
    have := h.count_cons
    omega
  -- With nothing counted there is no `extra` share, the only exclusive one of a failed generation.
  have hshape : ∀ u ∈ R, u.exclusive = 0 ∧ u.Valid ⟨a.gen + 1, .cleaning, 0⟩ := by
    intro u hu
    have hv := h.rest_valid u hu
    have hc := weight_eq_zero hsum u hu
    cases u <;> simp_all [Share.Valid, Share.counted, Share.exclusive]
    omega
  exact {
    count := by simpa [Slot.own, Share.counted] using hsum.symm
    valid := by
      intro u hu
      rcases mem_cons.mp hu with rfl | hu
      · exact ⟨rfl, rfl⟩
      · exact (hshape u hu).2
    alone := by
      have hnone : (R.map Share.exclusive).sum = 0 := by
        refine sum_eq_zero fun n hn => ?_
        obtain ⟨u, hu, rfl⟩ := mem_map.mp hn
        exact (hshape u hu).1
      simp [Share.exclusive, hnone]
    kept := by simp
    covered := nofun }

theorem Inv.giveBack (h : Inv a (.cleaner g ::ₘ R)) : Inv { a with phase := .free } R where
  count := by
    obtain ⟨_, hp⟩ := h.head_valid
    simpa [Slot.own, hp, Share.counted] using h.count
  valid := by
    obtain ⟨_, hp⟩ := h.head_valid
    obtain ⟨_, hothers⟩ := h.others rfl
    intro u hu
    have hv := h.rest_valid u hu
    have he := hothers u hu
    cases u <;> simp_all [Share.Valid, Share.exclusive]
  alone := by
    have := h.alone_cons
    show (R.map Share.exclusive).sum ≤ 1
    omega
  kept := nofun
  covered := nofun

end Lib.Generations

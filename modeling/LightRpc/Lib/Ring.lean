import Mathlib

/- Slots in a ring, filled behind the last occupied one and released from the first.

   `Holds slots first blank xs` says that the occupied slots are `xs`, in this order from
   the slot `first` on, around the end of the list if need be, and that all others are
   blank. Filling the next slot appends to `xs` (`Holds.fill`); releasing the first one
   takes the head off (`Holds.release`). -/
namespace Lib.Ring

open List

variable {α : Type} {slots : List α} {first : Nat} {blank x : α} {xs : List α}

structure Holds (slots : List α) (first : Nat) (blank : α) (xs : List α) : Prop where
  fits : xs.length ≤ slots.length
  seen : slots.rotate first = xs ++ List.replicate (slots.length - xs.length) blank

theorem Holds.empty (n : Nat) (blank : α) : Holds (replicate n blank) 0 blank [] := by
  refine ⟨Nat.zero_le _, ?_⟩
  rw [rotate_zero, nil_append, length_nil, length_replicate, Nat.sub_zero]

theorem Holds.get_first (h : Holds slots first blank xs) {i : Nat} (hi : i < slots.length) :
    slots[(first + i) % slots.length]? =
      (xs ++ replicate (slots.length - xs.length) blank)[i]? := by
  rw [← h.seen, getElem?_rotate hi, Nat.add_comm]

/-- The slots behind the occupied ones are blank. -/
theorem Holds.behind {i : Nat} (h : Holds slots first blank xs) (hle : xs.length ≤ i) (hlt : i < slots.length) :
    slots[(first + i) % slots.length]? = some blank := by
  rw [h.get_first hlt, getElem?_append_right hle, getElem?_replicate_of_lt]
  omega

theorem rotate_modify (slots : List α) (first : Nat) (f : α → α) {i : Nat} (hi : i < slots.length) :
    (slots.modify ((first + i) % slots.length) f).rotate first = (slots.rotate first).modify i f := by
  have hpos : 0 < slots.length := Nat.zero_lt_of_lt hi
  apply ext_getElem
  · simp
  · intro j hj hj'
    have hj : j < slots.length := by simpa using hj
    rw [getElem_rotate, getElem_modify, getElem_modify]
    simp only [length_modify, getElem_rotate]
    -- the two indices agree exactly when the positions in the ring do
    by_cases heq : i = j
    · rw [if_pos heq, if_pos (by rw [heq, Nat.add_comm])]
    · have hne : (first + i) % slots.length ≠ (j + first) % slots.length := by
        intro hmod
        have hij : i % slots.length = j % slots.length := by
          apply Nat.ModEq.add_left_cancel' first
          rw [Nat.ModEq, hmod, Nat.add_comm]
        rw [Nat.mod_eq_of_lt hi, Nat.mod_eq_of_lt hj] at hij
        exact heq hij
      rw [if_neg heq, if_neg hne]

theorem modify_append (xs ys : List α) (y : α) (f : α → α) : (xs ++ y :: ys).modify xs.length f = xs ++ f y :: ys := by
  induction xs with
  | nil => rfl
  | cons x xs ih => rw [cons_append, length_cons, modify_succ_cons, ih, cons_append]

theorem Holds.fill (h : Holds slots first blank xs) (hlt : xs.length < slots.length) (f : α → α) :
    Holds (slots.modify ((first + xs.length) % slots.length) f) first blank (xs ++ [f blank]) := by
  have hlen : (slots.modify ((first + xs.length) % slots.length) f).length = slots.length := length_modify ..
  obtain ⟨n, hn⟩ : ∃ n, slots.length - xs.length = n + 1 := ⟨slots.length - xs.length - 1, by omega⟩
  refine ⟨?_, ?_⟩
  · rw [hlen, length_append, length_singleton]
    omega
  · have hrest : slots.length - (xs ++ [f blank]).length = n := by
      rw [length_append, length_singleton]
      omega
    rw [rotate_modify slots first f hlt, h.seen, hlen, hrest, hn, replicate_succ, modify_append,
      append_assoc]
    rfl

theorem Holds.release (h : Holds slots first blank (x :: xs)) (hfirst : first < slots.length) :
    Holds (slots.set first blank) (if first + 1 = slots.length then 0 else first + 1) blank xs := by
  have hfits : xs.length + 1 ≤ slots.length := h.fits
  -- from the first slot on: `x`, then what follows it, then what lies before it
  have hseen : slots.drop (first + 1) ++ slots.take first =
      xs ++ replicate (slots.length - (xs.length + 1)) blank := by
    have hrot := h.seen
    rw [rotate_eq_drop_append_take (Nat.le_of_lt hfirst), drop_eq_getElem_cons hfirst] at hrot
    exact (cons.inj hrot).2
  have hnext : (slots.set first blank).rotate (if first + 1 = slots.length then 0 else first + 1) =
      (slots.set first blank).rotate (first + 1) := by
    split
    case isTrue heq =>
      have hwrap : first + 1 = (slots.set first blank).length := heq.trans length_set.symm
      rw [hwrap, rotate_length, rotate_zero]
    case isFalse => rfl
  have hlen : (slots.set first blank).length = slots.length := length_set
  refine ⟨?_, ?_⟩
  · rw [hlen]
    omega
  · have hcount : slots.length - xs.length = slots.length - (xs.length + 1) + 1 := by omega
    calc (slots.set first blank).rotate (if first + 1 = slots.length then 0 else first + 1)
        = (slots.set first blank).drop (first + 1) ++ (slots.set first blank).take (first + 1) := by
          rw [hnext, rotate_eq_drop_append_take (by rw [hlen]; omega)]
      _ = slots.drop (first + 1) ++ (slots.take first ++ [blank]) := by
          rw [drop_set_of_lt (Nat.lt_succ_self first), take_add_one, take_set_of_le (Nat.le_refl first),
            getElem?_set_self hfirst]
          rfl
      _ = xs ++ replicate ((slots.set first blank).length - xs.length) blank := by
          rw [← append_assoc, hseen, hlen, hcount, replicate_succ', append_assoc]

end Lib.Ring

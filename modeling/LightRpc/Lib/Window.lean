import Mathlib

/- A window of a ring: some consecutive entries of a list that is read around its end.

   The entries outside of the window mean nothing. Writing behind the window and making it
   one longer appends to it, moving its start takes its head off, and writing inside of it
   writes at that place of the window. -/
namespace Lib.Window

variable {α : Type} {ring : List α} {d x : α} {s k i j n : Nat}

/-- The `k` entries of the ring from `s` on. -/
def window (ring : List α) (d : α) (s k : Nat) : List α :=
  (List.range k).map (fun i => ring.getD ((s + i) % ring.length) d)

@[simp] theorem length_window (ring : List α) (d : α) (s k : Nat) : (window ring d s k).length = k := by
  rw [window, List.length_map, List.length_range]

theorem window_succ (ring : List α) (d : α) (s k : Nat) :
    window ring d s (k + 1) = window ring d s k ++ [ring.getD ((s + k) % ring.length) d] := by
  rw [window, List.range_succ, List.map_append]
  rfl

theorem window_cons (ring : List α) (d : α) (s k : Nat) :
    window ring d s (k + 1) = ring.getD (s % ring.length) d :: window ring d ((s + 1) % ring.length) k := by
  rw [window, List.range_succ_eq_map, List.map_cons, List.map_map, Nat.add_zero]
  congr 1
  apply List.map_congr_left
  intro i _
  rw [Function.comp, Nat.mod_add_mod]
  congr 2
  omega

theorem window_append (xs ys : List α) (d : α) : window (xs ++ ys) d 0 xs.length = xs := by
  apply List.ext_getElem
  · exact length_window _ _ _ _
  · intro i hi hi'
    have hlt : i < (xs ++ ys).length := by
      rw [List.length_append]
      omega
    simp only [window, List.getElem_map, List.getElem_range, Nat.zero_add, Nat.mod_eq_of_lt hlt]
    rw [List.getD_eq_getElem _ _ hlt, List.getElem_append_left hi']

theorem index_inj (hi : i < n) (hj : j < n) (h : (s + i) % n = (s + j) % n) : i = j := by
  have hmod : i % n = j % n := Nat.ModEq.add_left_cancel' s h
  rwa [Nat.mod_eq_of_lt hi, Nat.mod_eq_of_lt hj] at hmod

theorem window_modify {f : α → α} (hj : j < ring.length) (hk : k ≤ ring.length) :
    window (ring.modify ((s + j) % ring.length) f) d s k = (window ring d s k).modify j f := by
  have hpos : 0 < ring.length := by omega
  apply List.ext_getElem
  · rw [List.length_modify, length_window, length_window]
  · intro i hi hi'
    have hi : i < k := by rwa [length_window] at hi
    have hlt : (s + i) % ring.length < ring.length := Nat.mod_lt _ hpos
    simp only [window, List.getElem_map, List.getElem_range, List.length_modify, List.getElem_modify]
    rw [List.getD_eq_getElem _ _ (by rwa [List.length_modify]), List.getD_eq_getElem _ _ hlt, List.getElem_modify]
    by_cases heq : j = i
    · rw [if_pos heq, if_pos (by rw [heq])]
    · rw [if_neg heq, if_neg (fun h => heq (index_inj hj (by omega) h))]

theorem window_set (hj : j < ring.length) (hk : k ≤ ring.length) :
    window (ring.set ((s + j) % ring.length) x) d s k = (window ring d s k).set j x := by
  rw [List.set_eq_modify, window_modify hj hk, ← List.set_eq_modify]

/-- Writing behind the window and taking the entry in. -/
theorem window_push (hk : k < ring.length) :
    window (ring.set ((s + k) % ring.length) x) d s (k + 1) = window ring d s k ++ [x] := by
  rw [window_set hk hk, window_succ, List.set_append_right _ _ (by rw [length_window]), length_window,
    Nat.sub_self, List.set_cons_zero]

/-- Writing behind the window without taking the entry in. -/
theorem window_behind (hk : k ≤ j) (hj : j < ring.length) :
    window (ring.set ((s + j) % ring.length) x) d s k = window ring d s k := by
  rw [window_set hj (by omega), List.set_eq_of_length_le]
  rwa [length_window]

/-- A start beyond the end of the ring. -/
theorem window_mod (ring : List α) (d : α) (s k : Nat) : window ring d (s % ring.length) k = window ring d s k := by
  apply List.map_congr_left
  intro i _
  rw [Nat.mod_add_mod]

end Lib.Window

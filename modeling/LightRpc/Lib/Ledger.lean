import Mathlib

/- Accounts that are summed up.

   What is kept in several places is accounted for by a weight of every place and the sum of
   the weights. An operation that writes one place changes the sum by the new weight minus
   the old one; the rules below say so as equations of sums, without subtraction. -/
namespace Lib.Ledger

variable {κ α M : Type} [AddCommMonoid M]

/-- One place of a finite family is written. -/
theorem sum_update [Fintype κ] [DecidableEq κ] (w : κ → α → M) (f : κ → α) (k : κ) (x : α) :
    ∑ j, w j (Function.update f k x j) + w k (f k) = ∑ j, w j (f j) + w k x := by
  have hrest : ∑ j ∈ Finset.univ.erase k, w j (Function.update f k x j) = ∑ j ∈ Finset.univ.erase k, w j (f j) := by
    apply Finset.sum_congr rfl
    intro j hj
    rw [Function.update_of_ne (Finset.ne_of_mem_erase hj)]
  calc ∑ j, w j (Function.update f k x j) + w k (f k)
      = w k x + ∑ j ∈ Finset.univ.erase k, w j (f j) + w k (f k) := by
        rw [← Finset.add_sum_erase _ _ (Finset.mem_univ k), hrest, Function.update_self]
    _ = w k (f k) + ∑ j ∈ Finset.univ.erase k, w j (f j) + w k x := by abel
    _ = ∑ j, w j (f j) + w k x := by rw [Finset.add_sum_erase _ (fun j => w j (f j)) (Finset.mem_univ k)]

/-- One entry of a list is written. -/
theorem sum_set (w : α → M) {l : List α} {i : Nat} {x : α} (h : l[i]? = some x) (y : α) :
    ((l.set i y).map w).sum + w x = (l.map w).sum + w y := by
  induction l generalizing i with
  | nil => simp at h
  | cons z l ih =>
    cases i with
    | zero =>
      cases h
      rw [List.set_cons_zero, List.map_cons, List.map_cons, List.sum_cons, List.sum_cons]
      abel
    | succ i =>
      rw [List.set_cons_succ, List.map_cons, List.map_cons, List.sum_cons, List.sum_cons, add_assoc, add_assoc,
        ih (by simpa using h)]

end Lib.Ledger

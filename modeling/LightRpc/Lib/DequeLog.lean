import Mathlib

/- Logs of a double-ended queue that is pushed and popped at one end and stolen from at the
   other.

   `Replays log D`: the log is one that a queue can have, and leaves `D`. The items carry the
   number of their push, so that two items of the same value are told apart. An item is taken
   once (`Replays.once`), and the stolen ones were pushed in the order in which they were
   stolen (`Replays.stolen_lt`). -/
namespace Lib.DequeLog

variable {α : Type}

inductive Event (α : Type) where
  | push (x : α)
  | pop (x : α)
  | steal (x : α)

/-- The items from the oldest to the newest, and the numbers of those taken, in the order in
    which they were. -/
structure Deque (α : Type) where
  count : Nat
  items : List (Nat × α)
  taken : List Nat
  stolen : List Nat

def Deque.empty : Deque α := ⟨0, [], [], []⟩

inductive Replays : List (Event α) → Deque α → Prop where
  | nil : Replays [] Deque.empty
  | push {log : List (Event α)} {D : Deque α} (x : α) : Replays log D →
      Replays (log ++ [.push x]) { D with count := D.count + 1, items := D.items ++ [(D.count, x)] }
  | pop {log : List (Event α)} {D : Deque α} {rest : List (Nat × α)} {n : Nat} {x : α} : Replays log D →
      D.items = rest ++ [(n, x)] → Replays (log ++ [.pop x]) { D with items := rest, taken := D.taken ++ [n] }
  | steal {log : List (Event α)} {D : Deque α} {rest : List (Nat × α)} {n : Nat} {x : α} : Replays log D →
      D.items = (n, x) :: rest →
      Replays (log ++ [.steal x]) { D with items := rest, taken := D.taken ++ [n], stolen := D.stolen ++ [n] }

variable {log : List (Event α)} {D : Deque α}

/-- Every item pushed was taken or is there, and not both. -/
theorem Replays.once (h : Replays log D) : (D.taken ++ D.items.map Prod.fst).Perm (List.range D.count) := by
  induction h with
  | nil => exact List.Perm.nil
  | push x h ih =>
    rw [List.map_append, ← List.append_assoc, List.range_succ]
    exact ih.append_right _
  | @pop log D rest n x h hitems ih =>
    have hmove : (D.taken ++ [n] ++ rest.map Prod.fst).Perm (D.taken ++ D.items.map Prod.fst) := by
      rw [hitems, List.map_append, List.append_assoc]
      exact List.Perm.append_left _ List.perm_append_comm
    exact hmove.trans ih
  | @steal log D rest n x h hitems ih =>
    rw [hitems, List.map_cons] at ih
    simpa using ih

/-- The items are in the order of their pushes, and behind all stolen ones. -/
theorem Replays.in_order (h : Replays log D) :
    (D.stolen ++ D.items.map Prod.fst).Pairwise (· < ·) ∧ ∀ n ∈ D.stolen ++ D.items.map Prod.fst, n < D.count := by
  induction h with
  | nil => exact ⟨List.Pairwise.nil, nofun⟩
  | @push log D x h ih =>
    rw [List.map_append, ← List.append_assoc]
    constructor
    · refine List.pairwise_append.mpr ⟨ih.1, List.pairwise_singleton _ _, ?_⟩
      intro n hn m hm
      rw [List.mem_singleton.mp hm]
      exact ih.2 n hn
    · intro n hn
      rcases List.mem_append.mp hn with hn | hn
      · exact Nat.lt_succ_of_lt (ih.2 n hn)
      · rw [List.mem_singleton.mp hn]
        exact Nat.lt_succ_self _
  | @pop log D rest n x h hitems ih =>
    have hsub : (D.stolen ++ rest.map Prod.fst).Sublist (D.stolen ++ D.items.map Prod.fst) := by
      rw [hitems, List.map_append]
      exact List.Sublist.append_left (List.sublist_append_left _ _) _
    exact ⟨ih.1.sublist hsub, fun m hm => ih.2 m (hsub.subset hm)⟩
  | @steal log D rest n x h hitems ih =>
    rw [hitems, List.map_cons] at ih
    simpa using ih

theorem Replays.stolen_lt (h : Replays log D) : D.stolen.Pairwise (· < ·) := (List.pairwise_append.mp h.in_order.1).1

end Lib.DequeLog

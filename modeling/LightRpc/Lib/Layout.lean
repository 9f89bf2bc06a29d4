import Mathlib

/- Packed records: values written one behind the other, each in a fixed number of bytes.

   A `Field` writes a value as `n` bytes and reads it back from the front of a byte string.
   Its two laws say that reading undoes writing, whatever follows, and that writing undoes
   reading. `pair` puts one field behind another and keeps both laws, so a record laid out
   as nested pairs has them without a further proof. -/
namespace Lib

structure Field (α : Type) (n : Nat) where
  put : α → List UInt8
  get : List UInt8 → α
  length_put : ∀ a, (put a).length = n
  get_put : ∀ a rest, get (put a ++ rest) = a
  put_get : ∀ b, n ≤ b.length → put (get b) = b.take n

namespace Field

variable {α β : Type} {m n : Nat}

def pair (f : Field α m) (g : Field β n) : Field (α × β) (m + n) where
  put p := f.put p.1 ++ g.put p.2
  get b := (f.get b, g.get (b.drop m))
  length_put p := by rw [List.length_append, f.length_put, g.length_put]
  get_put := by
    intro p rest
    have hdrop : (f.put p.1 ++ g.put p.2 ++ rest).drop m = g.put p.2 ++ rest := by
      rw [List.append_assoc, List.drop_left' (f.length_put _)]
    rw [hdrop, g.get_put, List.append_assoc, f.get_put]
  put_get := by
    intro b hb
    have hrest : n ≤ (b.drop m).length := by
      rw [List.length_drop]
      omega
    rw [f.put_get b (by omega), g.put_get _ hrest, ← List.take_add]

/-- Bytes written as they are. -/
def raw (n : Nat) : Field (Fin n → UInt8) n where
  put := List.ofFn
  get b := fun i => b.getD i 0
  length_put _ := List.length_ofFn
  get_put := by
    intro a rest
    funext i
    have hi : i.val < (List.ofFn a ++ rest).length := by
      rw [List.length_append, List.length_ofFn]
      omega
    rw [List.getD_eq_getElem _ _ hi, List.getElem_append_left (by rw [List.length_ofFn]; exact i.isLt), List.getElem_ofFn]
  put_get := by
    intro b hb
    apply List.ext_getElem
    · rw [List.length_ofFn, List.length_take, Nat.min_eq_left hb]
    · intro i hi hi'
      rw [List.length_ofFn] at hi
      rw [List.getElem_ofFn, List.getElem_take, List.getD_eq_getElem _ _ (by omega)]

theorem put_get_self (f : Field α n) {b : List UInt8} (hb : b.length = n) : f.put (f.get b) = b := by
  rw [f.put_get b (Nat.le_of_eq hb.symm), ← hb, List.take_length]

end Field

end Lib

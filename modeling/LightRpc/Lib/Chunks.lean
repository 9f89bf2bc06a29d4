import Mathlib

/- Cutting items off the front of a sequence that arrives in chunks.

   A `Cutter` looks at what has arrived: it takes one item off the front, asks for more,
   or finds the sequence invalid. Its laws say that the last two answers and the item do
   not depend on what arrives later.

   `run` cuts until it cannot, `feed` does so after every chunk and stops at the first
   error. `feed_eq_run` says that the two come to the same: the law of `run` and `++`
   (`run_append`, `run_append_error`) is the induction over what is cut, and `feed_eq_run`
   the induction over the chunks. -/
namespace Lib

inductive Cut (α : Type) where
  | more
  | invalid
  | item (f rest : List α)

structure Cutter (α : Type) where
  cut : List α → Cut α
  item_split : ∀ {b f rest : List α}, cut b = .item f rest → b = f ++ rest
  item_ne : ∀ {b f rest : List α}, cut b = .item f rest → f ≠ []
  item_append : ∀ {b f rest : List α} (c : List α), cut b = .item f rest → cut (b ++ c) = .item f (rest ++ c)
  invalid_append : ∀ {b : List α} (c : List α), cut b = .invalid → cut (b ++ c) = .invalid

namespace Cutter

variable {α ε : Type} (C : Cutter α)

theorem length_rest {b f rest : List α} (h : C.cut b = .item f rest) : rest.length < b.length := by
  have hpos := List.length_pos_of_ne_nil (C.item_ne h)
  rw [C.item_split h, List.length_append]
  omega

/-- The items cut, what is left, and the error that ended the cutting. -/
structure Parse (α ε : Type) where
  items : List (List α)
  rest : List α
  error : Option ε

/-- Cut until nothing can be cut. `answer n` is the reply to the item after `n`; an item that
    is refused is off the sequence, and the cutting ends with the error. -/
def run (answer : Nat → Option ε) (bad : ε) (n : Nat) (b : List α) : Parse α ε :=
  match h : C.cut b with
  | .more => ⟨[], b, none⟩
  | .invalid => ⟨[], b, some bad⟩
  | .item f rest =>
    match answer n with
    | some e => ⟨[f], rest, some e⟩
    | none =>
      have := C.length_rest h
      let p := run answer bad (n + 1) rest
      ⟨f :: p.items, p.rest, p.error⟩
termination_by b.length

/-- Append a chunk, cut, and go on with the next chunk: the outcome, and the chunks that were
    not delivered because of an error. -/
def feed (answer : Nat → Option ε) (bad : ε) : Nat → List α → List (List α) → Parse α ε × List (List α)
  | _, b, [] => (⟨[], b, none⟩, [])
  | n, b, c :: cs =>
    let p := C.run answer bad n (b ++ c)
    match p.error with
    | some _ => (p, cs)
    | none =>
      let q := feed answer bad (n + p.items.length) p.rest cs
      (⟨p.items ++ q.1.items, q.1.rest, q.1.error⟩, q.2)

variable {C} {answer : Nat → Option ε} {bad : ε} {n : Nat} {b : List α}

theorem run_more (h : C.cut b = .more) : C.run answer bad n b = ⟨[], b, none⟩ := by
  rw [run]
  split <;> simp_all

theorem run_invalid (h : C.cut b = .invalid) : C.run answer bad n b = ⟨[], b, some bad⟩ := by
  rw [run]
  split <;> simp_all

theorem run_refused {f rest : List α} {e : ε} (h : C.cut b = .item f rest) (he : answer n = some e) :
    C.run answer bad n b = ⟨[f], rest, some e⟩ := by
  rw [run]
  split <;> simp_all

theorem run_item {f rest : List α} (h : C.cut b = .item f rest) (he : answer n = none) :
    C.run answer bad n b = ⟨f :: (C.run answer bad (n + 1) rest).items,
      (C.run answer bad (n + 1) rest).rest, (C.run answer bad (n + 1) rest).error⟩ := by
  rw [run]
  split <;> simp_all

/-- What is cut and what is left make up the sequence. -/
theorem run_flatten (answer : Nat → Option ε) (bad : ε) (n : Nat) (b : List α) :
    (C.run answer bad n b).items.flatten ++ (C.run answer bad n b).rest = b := by
  induction n, b using run.induct C answer bad with
  | case1 n b h => rw [run_more h]; rfl
  | case2 n b h => rw [run_invalid h]; rfl
  | case3 n b f rest h e he => rw [run_refused h he, C.item_split h]; simp
  | case4 n b f rest h he _ ih =>
    rw [run_item h he, C.item_split h, List.flatten_cons, List.append_assoc, ih]

/-- A cutting without an error ends where more is needed. -/
theorem cut_rest (answer : Nat → Option ε) (bad : ε) (n : Nat) (b : List α)
    (hok : (C.run answer bad n b).error = none) : C.cut (C.run answer bad n b).rest = .more := by
  induction n, b using run.induct C answer bad with
  | case1 n b h => rw [run_more h]; exact h
  | case2 n b h => rw [run_invalid h] at hok; cases hok
  | case3 n b f rest h e he => rw [run_refused h he] at hok; cases hok
  | case4 n b f rest h he _ ih =>
    rw [run_item h he] at hok ⊢
    exact ih hok

/-- Cutting goes on where it had to stop. -/
theorem run_append (answer : Nat → Option ε) (bad : ε) (c : List α) (n : Nat) (b : List α)
    (hok : (C.run answer bad n b).error = none) : C.run answer bad n (b ++ c) =
      let p := C.run answer bad n b
      let q := C.run answer bad (n + p.items.length) (p.rest ++ c)
      ⟨p.items ++ q.items, q.rest, q.error⟩ := by
  induction n, b using run.induct C answer bad with
  | case1 n b h => rw [run_more h]; rfl
  | case2 n b h => rw [run_invalid h] at hok; cases hok
  | case3 n b f rest h e he => rw [run_refused h he] at hok; cases hok
  | case4 n b f rest h he _ ih =>
    rw [run_item h he] at hok ⊢
    rw [run_item (C.item_append c h) he, ih hok]
    simp only [List.length_cons, List.cons_append, Nat.add_assoc, Nat.add_comm 1]

/-- An error stays, with what arrives later left uncut. -/
theorem run_append_error (answer : Nat → Option ε) (bad : ε) (c : List α) {e : ε} (n : Nat) (b : List α)
    (herr : (C.run answer bad n b).error = some e) : C.run answer bad n (b ++ c) =
      let p := C.run answer bad n b
      ⟨p.items, p.rest ++ c, p.error⟩ := by
  induction n, b using run.induct C answer bad with
  | case1 n b h => rw [run_more h] at herr; cases herr
  | case2 n b h => rw [run_invalid h, run_invalid (C.invalid_append c h)]
  | case3 n b f rest h e' he => rw [run_refused h he, run_refused (C.item_append c h) he]
  | case4 n b f rest h he _ ih =>
    rw [run_item h he] at herr ⊢
    rw [run_item (C.item_append c h) he, ih herr]

/-- **Chunks do not matter.** -/
theorem feed_eq_run (answer : Nat → Option ε) (bad : ε) : ∀ (cs : List (List α)) (n : Nat) (b : List α),
    C.cut b = .more → C.run answer bad n (b ++ cs.flatten) =
      let q := C.feed answer bad n b cs
      ⟨q.1.items, q.1.rest ++ q.2.flatten, q.1.error⟩ := by
  intro cs
  induction cs with
  | nil =>
    intro n b hb
    simp only [List.flatten_nil, List.append_nil, feed]
    exact run_more hb
  | cons c cs ih =>
    intro n b hb
    rw [List.flatten_cons, ← List.append_assoc]
    cases hp : (C.run answer bad n (b ++ c)).error with
    | some e =>
      rw [run_append_error answer bad cs.flatten n (b ++ c) hp]
      simp only [feed, hp]
    | none =>
      have hrest := ih (n + (C.run answer bad n (b ++ c)).items.length) _ (cut_rest answer bad n (b ++ c) hp)
      rw [run_append answer bad cs.flatten n (b ++ c) hp]
      simp only [feed, hp, hrest]

end Cutter

end Lib

import Mathlib

/- Sequences that lie in memory in pieces.

   A sequence is a list of segments, none of them empty; behind each segment the memory
   goes on with items that are no part of the sequence. Dropping and cutting at the front
   and copying follow the segments; looking at the front (`Cursor.peek`) does not: it
   reads on in memory where the first segment ends.

   A `Cursor` is a computation that looks at such a sequence and moves forward in it. Its
   trace keeps what it has looked at, and ends where there was nothing to look at. A trace
   is clean if every look stayed in a segment; `Cursor.clean_peek` says when it does, and
   that the items are then those of the sequence. -/
namespace Lib

open List

structure Segment (α : Type) where
  items : List α
  /-- What the memory holds behind the items. -/
  after : List α
  ne : items ≠ []

namespace Segment

variable {α : Type} (r : Segment α)

def length : Nat := r.items.length

theorem length_pos : 0 < r.length := length_pos_of_ne_nil r.ne

def drop (n : Nat) (h : n < r.length) : Segment α where
  items := r.items.drop n
  after := r.after
  ne := by
    rw [Ne, List.drop_eq_nil_iff]
    exact Nat.not_le_of_lt h

/-- The first items; the others now lie behind them. -/
def take (n : Nat) (h : 0 < n) : Segment α where
  items := r.items.take n
  after := r.items.drop n ++ r.after
  ne := by
    rw [Ne, List.take_eq_nil_iff, not_or]
    exact ⟨Nat.ne_of_gt h, r.ne⟩

theorem length_drop (n : Nat) (h : n < r.length) : (r.drop n h).length = r.length - n :=
  List.length_drop

theorem drop_zero : r.drop 0 r.length_pos = r := rfl

end Segment

abbrev Segments (α : Type) := List (Segment α)

namespace Segments

variable {α : Type}

def content : Segments α → List α
  | [] => []
  | r :: b => r.items ++ content b

def drop : Segments α → Nat → Segments α
  | [], _ => []
  | r :: b, n => if h : n < r.length then r.drop n h :: b else drop b (n - r.length)

def take : Segments α → Nat → Segments α
  | [], _ => []
  | r :: b, n =>
    if h : 0 < n then
      if n < r.length then [r.take n h] else r :: take b (n - r.length)
    else []

/-- The first `n` items, copied from segment to segment. -/
def copy : Segments α → Nat → List α
  | [], _ => []
  | r :: b, n => r.items.take n ++ copy b (n - r.length)

/-- The `w` items from position `o` on lie in one segment. -/
def Inside : Segments α → Nat → Nat → Prop
  | [], _, _ => False
  | r :: b, o, w => if o < r.length then o + w ≤ r.length else Inside b (o - r.length) w

instance Inside.decidable : ∀ (b : Segments α) (o w : Nat), Decidable (b.Inside o w)
  | [], _, _ => isFalse id
  | r :: b, o, w =>
    if h : o < r.length then decidable_of_iff (o + w ≤ r.length) (by rw [Inside, if_pos h])
    else
      have := Inside.decidable b (o - r.length) w
      decidable_of_iff (Inside b (o - r.length) w) (by rw [Inside, if_neg h])

/-! What the operations do to the content. -/

theorem content_drop (b : Segments α) : ∀ n, (b.drop n).content = b.content.drop n := by
  induction b with
  | nil =>
    intro n
    rw [drop, content, drop_nil]
  | cons r b ih =>
    intro n
    rw [drop, content, drop_append]
    by_cases h : n < r.length
    · have hzero : n - r.items.length = 0 := Nat.sub_eq_zero_of_le (Nat.le_of_lt h)
      rw [dif_pos h, content, hzero, drop_zero]
      rfl
    · have hnil : r.items.drop n = [] := drop_eq_nil_iff.mpr (Nat.le_of_not_lt h)
      rw [dif_neg h, ih, hnil, nil_append]
      rfl

theorem content_take (b : Segments α) : ∀ n, (b.take n).content = b.content.take n := by
  induction b with
  | nil =>
    intro n
    rw [take, content, take_nil]
  | cons r b ih =>
    intro n
    rw [take, content, take_append]
    by_cases h0 : 0 < n
    · rw [dif_pos h0]
      by_cases h : n < r.length
      · have hzero : n - r.items.length = 0 := Nat.sub_eq_zero_of_le (Nat.le_of_lt h)
        rw [if_pos h, hzero, take_zero]
        rfl
      · have hall : r.items.take n = r.items := take_of_length_le (Nat.le_of_not_lt h)
        rw [if_neg h, content, ih, hall]
        rfl
    · rw [dif_neg h0, Nat.eq_zero_of_not_pos h0]
      simp [content]

theorem copy_eq (b : Segments α) : ∀ n, b.copy n = b.content.take n := by
  induction b with
  | nil =>
    intro n
    rw [copy, content, take_nil]
  | cons r b ih =>
    intro n
    rw [copy, content, take_append, ih]
    rfl

theorem drop_zero (b : Segments α) : b.drop 0 = b := by
  cases b with
  | nil => rfl
  | cons r b => rw [drop, dif_pos r.length_pos, Segment.drop_zero]

theorem drop_drop (b : Segments α) : ∀ m n, (b.drop m).drop n = b.drop (m + n) := by
  induction b with
  | nil =>
    intro m n
    rfl
  | cons r b ih =>
    intro m n
    by_cases hm : m < r.length
    · have hlen := r.length_drop m hm
      rw [drop, dif_pos hm, drop, drop]
      by_cases hn : n < (r.drop m hm).length
      · have hboth : m + n < r.length := by omega
        rw [dif_pos hn, dif_pos hboth]
        simp only [Segment.drop, List.drop_drop]
      · have hboth : ¬ m + n < r.length := by omega
        have hrest : n - (r.drop m hm).length = m + n - r.length := by omega
        rw [dif_neg hn, dif_neg hboth, hrest]
    · have hboth : ¬ m + n < r.length := by omega
      have hrest : m - r.length + n = m + n - r.length := by omega
      rw [drop, dif_neg hm, ih, drop, dif_neg hboth, hrest]

theorem take_length (b : Segments α) : b.take b.content.length = b := by
  induction b with
  | nil => rfl
  | cons r b ih =>
    have hpos := r.length_pos
    have hlen : (content (r :: b)).length = r.length + (content b).length := length_append
    rw [hlen, take, dif_pos (by omega), if_neg (by omega), Nat.add_sub_cancel_left, ih]

theorem drop_length (b : Segments α) : b.drop b.content.length = [] := by
  induction b with
  | nil => rfl
  | cons r b ih =>
    have hlen : (content (r :: b)).length = r.length + (content b).length := length_append
    rw [hlen, drop, dif_neg (by omega), Nat.add_sub_cancel_left, ih]

/-! Positions inside a segment. -/

theorem Inside.mono {b : Segments α} {w o' w' : Nat} : ∀ {o : Nat}, b.Inside o w → o ≤ o' → o' + w' ≤ o + w → 0 < w' →
    b.Inside o' w' := by
  induction b generalizing o' with
  | nil =>
    intro o h
    exact h.elim
  | cons r b ih =>
    intro o h hle hend hpos
    rw [Inside] at h ⊢
    by_cases ho : o < r.length
    · rw [if_pos ho] at h
      rw [if_pos (by omega)]
      omega
    · rw [if_neg ho] at h
      rw [if_neg (by omega)]
      exact ih h (by omega) (by omega) hpos

theorem Inside.le {b : Segments α} {w : Nat} : ∀ {o : Nat}, b.Inside o w → o + w ≤ b.content.length := by
  induction b with
  | nil =>
    intro o h
    exact h.elim
  | cons r b ih =>
    intro o h
    have hlen : (content (r :: b)).length = r.length + (content b).length := length_append
    rw [hlen]
    rw [Inside] at h
    by_cases ho : o < r.length
    · rw [if_pos ho] at h
      omega
    · rw [if_neg ho] at h
      have := ih h
      omega

theorem inside_single {r : Segment α} {o w : Nat} (hw : 0 < w) : Inside [r] o w ↔ o + w ≤ r.length := by
  rw [Inside]
  by_cases ho : o < r.length
  · rw [if_pos ho]
  · rw [if_neg ho, Inside, false_iff]
    omega

/-- At the front of what is left from `o` on is a segment that holds the `w` items, and they
    are those of the sequence. -/
theorem Inside.front {b : Segments α} {w : Nat} : ∀ {o : Nat}, b.Inside o w →
    ∃ r rest, b.drop o = r :: rest ∧ w ≤ r.length ∧ r.items.take w = (b.content.drop o).take w := by
  induction b with
  | nil =>
    intro o h
    exact h.elim
  | cons r b ih =>
    intro o h
    rw [Inside] at h
    by_cases ho : o < r.length
    · rw [if_pos ho] at h
      have hw : w ≤ (r.drop o ho).length := by
        rw [Segment.length_drop]
        omega
      refine ⟨r.drop o ho, b, by rw [drop, dif_pos ho], hw, ?_⟩
      have hzero : o - r.items.length = 0 := Nat.sub_eq_zero_of_le (Nat.le_of_lt ho)
      rw [content, List.drop_append, hzero, List.drop_zero]
      exact (List.take_append_of_le_length hw).symm
    · rw [if_neg ho] at h
      obtain ⟨r', rest, hdrop, hlen, hitems⟩ := ih h
      refine ⟨r', rest, by rw [drop, dif_neg ho, hdrop], hlen, ?_⟩
      have hnil : r.items.drop o = [] := List.drop_eq_nil_iff.mpr (Nat.le_of_not_lt ho)
      rw [hitems, content, List.drop_append, hnil, List.nil_append]
      rfl

theorem inside_of_front {b : Segments α} {w : Nat} {r : Segment α} {rest : Segments α} : ∀ {o : Nat},
    b.drop o = r :: rest → w ≤ r.length → b.Inside o w := by
  induction b with
  | nil =>
    intro o h
    simp [drop] at h
  | cons r' b ih =>
    intro o h hw
    rw [drop] at h
    rw [Inside]
    by_cases ho : o < r'.length
    · rw [dif_pos ho] at h
      obtain ⟨rfl, rfl⟩ := cons.inj h
      rw [Segment.length_drop] at hw
      rw [if_pos ho]
      omega
    · rw [dif_neg ho] at h
      rw [if_neg ho]
      exact ih h hw

end Segments

/-! Looking at a sequence from the front. -/

/-- One look: the items seen, and whether all of them are in a segment. -/
structure Access (α : Type) where
  items : List α
  inside : Bool
  deriving DecidableEq, Repr

structure Trace (α β : Type) where
  reads : List (Access α)
  /-- Nothing once there was nothing to look at. -/
  result : Option β

/-- Every look stayed in a segment. -/
structure Trace.Clean {α β : Type} (t : Trace α β) : Prop where
  result : t.result.isSome = true
  reads : ∀ a ∈ t.reads, a.inside = true

def Cursor (α β : Type) := Segments α → Trace α (β × Segments α)

namespace Cursor

variable {α β γ : Type}

def bind (m : Cursor α β) (k : β → Cursor α γ) : Cursor α γ := fun b =>
  match (m b).result with
  | none => ⟨(m b).reads, none⟩
  | some (x, b') => ⟨(m b).reads ++ (k x b').reads, (k x b').result⟩

instance : Monad (Cursor α) where
  pure x := fun b => ⟨[], some (x, b)⟩
  bind := bind

/-- The first `w` items as they lie in memory. -/
def peek (w : Nat) : Cursor α (List α)
  | [] => ⟨[], none⟩
  | r :: b =>
    ⟨[⟨(r.items ++ r.after).take w, w ≤ r.length⟩], some ((r.items ++ r.after).take w, r :: b)⟩

def skip (n : Nat) : Cursor α Unit := fun b => ⟨[], some ((), b.drop n)⟩

/-- The content of the next `n` items, or of all there are. -/
def cut (n : Nat) : Cursor α (List α) := fun b => ⟨[], some ((b.take n).content, b.drop n)⟩

def rest : Cursor α (List α) := fun b => ⟨[], some (b.content, b)⟩

variable (k : β → Cursor α γ) (b : Segments α) (n o w : Nat)

theorem run_pure (x : β) : (pure x : Cursor α β) b = ⟨[], some (x, b)⟩ := rfl

theorem map_bind {δ : Type} (m : Cursor α δ) (f : δ → β) :
    ((do let x ← m; return f x) >>= k) b = (m >>= fun x => k (f x)) b := by
  show bind (bind m fun x => pure (f x)) k b = bind m (fun x => k (f x)) b
  cases hm : (m b).result with
  | none => simp [bind, hm]
  | some x => simp [bind, hm, run_pure]

theorem skip_bind (k : Unit → Cursor α γ) : (skip n >>= k) (b.drop o) = k () (b.drop (o + n)) := by
  show (⟨[] ++ (k () ((b.drop o).drop n)).reads, _⟩ : Trace α (γ × Segments α)) = _
  rw [nil_append, Segments.drop_drop]

theorem cut_bind (k : List α → Cursor α γ) :
    (cut n >>= k) (b.drop o) = k ((b.content.drop o).take n) (b.drop (o + n)) := by
  show (⟨[] ++ (k ((b.drop o).take n).content ((b.drop o).drop n)).reads, _⟩ : Trace α (γ × Segments α)) = _
  rw [nil_append, Segments.drop_drop, Segments.content_take, Segments.content_drop]

theorem rest_bind (k : List α → Cursor α γ) : (rest >>= k) (b.drop o) = k (b.content.drop o) (b.drop o) := by
  show (⟨[] ++ (k (b.drop o).content (b.drop o)).reads, _⟩ : Trace α (γ × Segments α)) = _
  rw [nil_append, Segments.content_drop]

/-- A look inside a segment sees the items of the sequence. -/
theorem peek_bind (k : List α → Cursor α γ) (h : b.Inside o w) : (peek w >>= k) (b.drop o) =
      ⟨⟨(b.content.drop o).take w, true⟩ :: (k ((b.content.drop o).take w) (b.drop o)).reads,
        (k ((b.content.drop o).take w) (b.drop o)).result⟩ := by
  obtain ⟨r, rest, hdrop, hw, hitems⟩ := h.front
  have hseen : (r.items ++ r.after).take w = (b.content.drop o).take w := by
    rw [take_append_of_le_length hw, hitems]
  rw [hdrop, ← hseen]
  show (⟨[⟨_, decide (w ≤ r.length)⟩] ++ _, _⟩ : Trace α (γ × Segments α)) = _
  rw [decide_eq_true hw]
  rfl

theorem clean_peek (k : List α → Cursor α γ) :
    ((peek w >>= k) (b.drop o)).Clean ↔ b.Inside o w ∧ (k ((b.content.drop o).take w) (b.drop o)).Clean := by
  constructor
  · intro h
    have hin : b.Inside o w := by
      cases hdrop : b.drop o with
      | nil =>
        rw [hdrop] at h
        exact absurd h.result Bool.false_ne_true
      | cons r rest =>
        rw [hdrop] at h
        apply Segments.inside_of_front hdrop
        exact of_decide_eq_true (h.reads _ (mem_append_left _ (mem_singleton.mpr rfl)))
    rw [peek_bind b o w k hin] at h
    exact ⟨hin, h.result, fun a ha => h.reads a (mem_cons_of_mem _ ha)⟩
  · rintro ⟨hin, h⟩
    rw [peek_bind b o w k hin]
    refine ⟨h.result, fun a ha => ?_⟩
    rcases mem_cons.mp ha with rfl | ha
    · rfl
    · exact h.reads a ha

end Cursor

end Lib

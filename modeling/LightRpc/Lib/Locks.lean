import Mathlib

/- Threads with identities, and locks.

   A thread's identity is its place in the list of thread states, so threads are only
   added and changed, never removed. `owner` says who has which lock, `holds t pc l` that a
   thread `t` at `pc` believes to have the lock `l`. `Disciplined` is the agreement of the
   two: everyone who believes to have a lock is its owner, so nobody else does. -/
namespace Lib.Locks

variable {τ ℓ : Type}

/-- Who believes to have a lock owns it. -/
def Disciplined (holds : Nat → τ → ℓ → Prop) (threads : List τ) (owner : ℓ → Option Nat) : Prop :=
  ∀ t pc, threads[t]? = some pc → ∀ l, holds t pc l → owner l = some t

variable {holds : Nat → τ → ℓ → Prop} {threads : List τ} {owner owner' : ℓ → Option Nat} {t t' : Nat} {pc pc' : τ}
  {l : ℓ}

theorem Disciplined.exclusive (h : Disciplined holds threads owner) (ht : threads[t]? = some pc)
    (ht' : threads[t']? = some pc') (hl : holds t pc l) (hl' : holds t' pc' l) : t = t' := by
  have hown := h t pc ht l hl
  rw [h t' pc' ht' l hl'] at hown
  exact (Option.some.inj hown).symm

/-- Another thread after a step of `t`. -/
theorem other_set {x : τ} (hne : t' ≠ t) (hx : (threads.set t pc')[t']? = some x) : threads[t']? = some x := by
  rwa [List.getElem?_set_ne (Ne.symm hne)] at hx

theorem self_set {x : τ} (hx : (threads.set t pc')[t]? = some x) : x = pc' := by
  rw [List.getElem?_set_self'] at hx
  cases hget : threads[t]? with
  | none => simp [hget] at hx
  | some y => simpa [hget] using hx.symm

theorem get_set (ht : threads[t]? = some pc) : (threads.set t pc')[t]? = some pc' := by
  rw [List.getElem?_set_self (List.getElem?_eq_some_iff.mp ht).1]

theorem set_same (ht : threads[t]? = some pc) : threads.set t pc = threads := by
  obtain ⟨hlt, rfl⟩ := List.getElem?_eq_some_iff.mp ht
  exact List.set_getElem_self hlt

/-- A thread that was just added, or an old one. -/
theorem get_concat {x : τ} (hx : (threads ++ [pc'])[t]? = some x) : threads[t]? = some x ∨ x = pc' := by
  rcases Nat.lt_or_ge t threads.length with hlt | hge
  · rw [List.getElem?_append_left hlt] at hx
    exact .inl hx
  · rw [List.getElem?_append_right hge, List.getElem?_singleton] at hx
    split at hx
    · exact .inr (Option.some.inj hx).symm
    · cases hx

theorem get_old (ht : threads[t]? = some pc) : (threads ++ [pc'])[t]? = some pc := by
  rw [List.getElem?_append_left (List.getElem?_eq_some_iff.mp ht).1]
  exact ht

/-! Taking a free lock leaves the others what they have. -/

variable [DecidableEq ℓ]

theorem acquire_others (hfree : owner l = none) (l' : ℓ) (_ : t' ≠ t) (hown : owner l' = some t') :
    Function.update owner l (some t) l' = some t' := by
  have hne : l' ≠ l := by
    intro heq
    rw [heq, hfree] at hown
    cases hown
  rw [Function.update_of_ne hne, hown]

omit [DecidableEq ℓ]

/-- The thread `t` moves. It owns what it believes to have, and takes nothing from others. -/
theorem Disciplined.move (h : Disciplined holds threads owner) (hmine : ∀ l, holds t pc' l → owner' l = some t)
    (hothers : ∀ l t', t' ≠ t → owner l = some t' → owner' l = some t') :
    Disciplined holds (threads.set t pc') owner' := by
  intro t' x hx l hl
  by_cases heq : t' = t
  · subst heq
    rw [self_set hx] at hl
    exact hmine l hl
  · exact hothers l t' heq (h t' x (other_set heq hx) l hl)

theorem Disciplined.spawn (h : Disciplined holds threads owner) (hnone : ∀ t l, ¬ holds t pc' l) :
    Disciplined holds (threads ++ [pc']) owner := by
  intro t x hx l hl
  rcases get_concat hx with hx | rfl
  · exact h t x hx l hl
  · exact absurd hl (hnone t l)

end Lib.Locks

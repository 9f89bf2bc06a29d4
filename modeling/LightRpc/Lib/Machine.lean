import Mathlib

/- Machines: states, a computable partial next-state function over actions, and
   the runs they generate.

   An action carries every choice the environment makes (which thread moves,
   what a call returns, which message is delivered), so `next` is a function and
   a list of actions can be executed (`exec`). A property of every interleaving
   is a property of every `Run`; `Run.invariant` is the one induction over runs,
   and `guard` is the machine that only takes the steps a condition allows, for
   results of the form "in every run whose steps all meet the condition".

   The second half is for machines whose threads are anonymous: the state holds a
   multiset of thread-local states, and a step replaces one of them. -/
namespace Lib

structure Machine (σ α : Type) where
  init : σ → Prop
  next : σ → α → Option σ

namespace Machine

variable {σ α : Type}

/-- `s` is reached from an initial state by the actions `tr`, first action first. -/
inductive Run (M : Machine σ α) : List α → σ → Prop where
  | start {s : σ} : M.init s → Run M [] s
  | step {tr : List α} {s s' : σ} {a : α} : Run M tr s → M.next s a = some s' → Run M (tr ++ [a]) s'

def Reachable (M : Machine σ α) (s : σ) : Prop := ∃ tr, M.Run tr s

variable {M : Machine σ α}
variable {s s' : σ} {a : α} {tr as : List α} {ok : σ → α → Bool} {ε : Type} {P : List ε → ε → Prop}

/-- What holds initially and is kept by every step of a run holds of every run. -/
theorem Run.invariant {I : List α → σ → Prop} (hinit : ∀ s, M.init s → I [] s)
    (hstep : ∀ tr s a s', M.Run tr s → I tr s → M.next s a = some s' → I (tr ++ [a]) s') (h : M.Run tr s) : I tr s := by
  induction h with
  | start h => exact hinit _ h
  | step hr hn ih => exact hstep _ _ _ _ hr ih hn

theorem Reachable.invariant {I : σ → Prop} (hinit : ∀ s, M.init s → I s)
    (hstep : ∀ s a s', I s → M.next s a = some s' → I s') (h : M.Reachable s) : I s := by
  obtain ⟨tr, hr⟩ := h
  exact hr.invariant (I := fun _ s => I s) hinit (fun _ s a s' _ hi hn => hstep s a s' hi hn)

theorem Reachable.step (h : M.Reachable s) (hn : M.next s a = some s') : M.Reachable s' := by
  obtain ⟨tr, hr⟩ := h
  exact ⟨tr ++ [a], .step hr hn⟩

/-! The parts of a run. -/

theorem Run.last (h : M.Run (tr ++ [a]) s') : ∃ s, M.Run tr s ∧ M.next s a = some s' := by
  generalize heq : tr ++ [a] = tr' at h
  cases h with
  | start _ => simp at heq
  | step hr hn =>
    obtain ⟨hprev, hlast⟩ := List.append_inj' heq rfl
    rw [hprev, List.singleton_inj.mp hlast]
    exact ⟨_, hr, hn⟩

/-- A run up to one of its actions, and the action. -/
theorem Run.at {tr₁ tr₂ : List α} (h : M.Run (tr₁ ++ a :: tr₂) s) :
    ∃ s₁ s₂, M.Run tr₁ s₁ ∧ M.next s₁ a = some s₂ ∧ M.Run (tr₁ ++ [a]) s₂ := by
  induction tr₂ using List.reverseRecOn generalizing s with
  | nil =>
    obtain ⟨s₁, hr, hn⟩ := h.last
    exact ⟨s₁, s, hr, hn, h⟩
  | append_singleton rest b ih =>
    rw [← List.cons_append, ← List.append_assoc] at h
    obtain ⟨s', hr, _⟩ := h.last
    exact ih hr

/-- Actions determine the state when there is one initial state. -/
theorem Run.unique (hinit : ∀ s s', M.init s → M.init s' → s = s') (h : M.Run tr s) (h' : M.Run tr s') : s = s' := by
  induction h generalizing s' with
  | start hi =>
    generalize heq : ([] : List α) = tr' at h'
    cases h' with
    | start hi' => exact hinit _ _ hi hi'
    | step _ _ => simp at heq
  | step hr hn ih =>
    obtain ⟨s₁, hr', hn'⟩ := h'.last
    rw [ih hr', hn'] at hn
    exact (Option.some.inj hn).symm

/-! Executing a list of actions. -/

def exec (M : Machine σ α) : σ → List α → Option σ
  | s, [] => some s
  | s, a :: rest => (M.next s a).bind (M.exec · rest)

theorem Run.exec : ∀ {tr : List α} {s s' : σ}, M.Run tr s → M.exec s as = some s' → M.Run (tr ++ as) s' := by
  induction as with
  | nil =>
    intro tr s s' hr he
    cases he
    simpa using hr
  | cons a rest ih =>
    intro tr s s' hr he
    obtain ⟨s₁, hn, he⟩ := Option.bind_eq_some_iff.mp he
    have := ih (.step hr hn) he
    simpa using this

theorem run_of_exec (hi : M.init s) (he : M.exec s as = some s') : M.Run as s' := by
  simpa using Run.exec (.start hi) he

/-- A run found by executing it, with a property of its last state found by evaluation. -/
theorem exists_run {P : σ → Prop} [DecidablePred P] (hi : M.init s)
    (h : (M.exec s as).any (fun s' => decide (P s'))) : ∃ s', M.Run as s' ∧ P s' := by
  cases he : M.exec s as with
  | none => simp [he] at h
  | some s' =>
    rw [he] at h
    exact ⟨s', run_of_exec hi he, of_decide_eq_true h⟩

/-- The same with one more step, and a property of the states around it. -/
theorem exists_step {P : σ → σ → Prop} [∀ s₁ s₂, Decidable (P s₁ s₂)] (hi : M.init s)
    (h : (M.exec s as).any (fun s₁ => (M.next s₁ a).any fun s₂ => decide (P s₁ s₂))) :
    ∃ s₁ s₂, M.Run as s₁ ∧ M.next s₁ a = some s₂ ∧ P s₁ s₂ := by
  obtain ⟨s₁, he, hs₁⟩ := (Option.any_eq_true _ _).mp h
  obtain ⟨s₂, hn, hP⟩ := (Option.any_eq_true _ _).mp hs₁
  exact ⟨s₁, s₂, run_of_exec hi he, hn, of_decide_eq_true hP⟩

/-! Runs whose steps meet a condition. -/

/-- The machine that takes only the steps `ok` allows. -/
def guard (M : Machine σ α) (ok : σ → α → Bool) : Machine σ α :=
  { M with next := fun s a => if ok s a then M.next s a else none }

theorem guard_next : (M.guard ok).next s a = some s' ↔ ok s a ∧ M.next s a = some s' := by
  by_cases h : ok s a <;> simp [guard, h]

theorem Run.of_guard (h : (M.guard ok).Run tr s) : M.Run tr s := by
  induction h with
  | start h => exact .start h
  | step _ hn ih => exact .step ih (guard_next.mp hn).2

theorem Reachable.of_guard (h : (M.guard ok).Reachable s) : M.Reachable s := by
  obtain ⟨tr, hr⟩ := h
  exact ⟨tr, hr.of_guard⟩

end Machine

/-! Histories: what the entries before an entry say about it. -/

/-- Every entry of the history is allowed by those before it. -/
def Along {ε : Type} (P : List ε → ε → Prop) (h : List ε) : Prop :=
  ∀ h₁ e h₂, h = h₁ ++ e :: h₂ → P h₁ e

theorem Along.nil : Along P [] := by
  intro h₁ e h₂ heq
  simp at heq

theorem Along.of_concat {h : List ε} {e : ε} (hall : Along P (h ++ [e])) : Along P h ∧ P h e := by
  refine ⟨fun h₁ e' h₂ heq => hall h₁ e' (h₂ ++ [e]) ?_, hall h e [] rfl⟩
  rw [heq, List.append_assoc, List.cons_append]

theorem Along.concat {h : List ε} {e : ε} (hold : Along P h) (hnew : P h e) : Along P (h ++ [e]) := by
  intro h₁ e' h₂ heq
  rcases List.eq_nil_or_concat h₂ with rfl | ⟨h₃, x, rfl⟩
  · obtain ⟨rfl, rfl⟩ := List.append_inj' heq rfl |>.imp_right List.singleton_inj.mp
    exact hnew
  · rw [List.concat_eq_append, ← List.cons_append, ← List.append_assoc] at heq
    exact hold h₁ e' h₃ (List.append_inj' heq rfl).1

/-! Anonymous threads: a multiset of local states, and sums of weights over it. -/

namespace Threads

variable {τ : Type}

/-- Replace one thread in local state `t` by the threads `ts`: none when it ends,
    two when it starts another. -/
def replace [DecidableEq τ] (m : Multiset τ) (t : τ) (ts : List τ) : Multiset τ := ↑ts + m.erase t

/-- A thread in the pool, and the pool around it after its step. -/
theorem replace_spec [DecidableEq τ] {m : Multiset τ} {t : τ} (h : t ∈ m) (ts : List τ) :
    ∃ rest, m = t ::ₘ rest ∧ replace m t ts = ↑ts + rest := by
  obtain ⟨rest, rfl⟩ := Multiset.exists_cons_of_mem h
  exact ⟨rest, rfl, by simp [replace]⟩

theorem mem_replace [DecidableEq τ] {m : Multiset τ} {t x : τ} {ts : List τ} (h : x ∈ replace m t ts) :
    x ∈ ts ∨ x ∈ m :=
  (Multiset.mem_add.mp h).imp_right Multiset.mem_of_mem_erase

end Threads

end Lib

import LightRpc.TimerThread
import LightRpc.Lib.Ledger

/- Timer tasks run once, on time, and are not slept past.

   `Did` says what a step can do to the slots: nothing (a task only moves on), take one from the
   pool, return one, or write a version. `Slots` follows from it: every slot is in one place, and
   its version says how far its use has come. `Signals` is about the buckets the timer thread has
   already pulled in this round: the time of a task there is on its way to the global minimum, or
   the minimum is not later. -/
namespace LightRpc.TimerThread

open Lib Function Option List Timer

variable {n : Nat}

/-! Where a slot is. -/

@[simp] def Caller.holds (t : Nat) : Caller n → Nat
  | .insert _ t' => if t' = t then 1 else 0
  | _ => 0

@[simp] def Pc.holds (t : Nat) : Pc n → Nat
  | .delete _ list => list.count t
  | .start t' | .running t' | .finish t' => if t' = t then 1 else 0
  | _ => 0

namespace Timer

/-- In how many places outside of the pool the slot is. -/
def uses (s : Timer n) (t : Nat) : Nat :=
  (s.callers.map (·.holds t)).sum + ∑ b, (s.buckets b).tasks.count t + s.pc.holds t + s.heap.count t

theorem uses_of_heap {s : Timer n} {t : Nat} (h : t ∈ s.heap) : 0 < s.uses t := by
  have := count_pos_iff.mpr h
  rw [uses]
  omega

theorem uses_of_pc {s : Timer n} {t : Nat} (h : 0 < s.pc.holds t) : 0 < s.uses t := by
  rw [uses]
  omega

theorem uses_of_bucket {s : Timer n} {b : Fin n} {t : Nat} (h : t ∈ (s.buckets b).tasks) : 0 < s.uses t := by
  have hpos := count_pos_iff.mpr h
  have hle : (s.buckets b).tasks.count t ≤ ∑ b, (s.buckets b).tasks.count t :=
    Finset.single_le_sum (f := fun b => (s.buckets b).tasks.count t) (fun _ _ => Nat.zero_le _) (Finset.mem_univ b)
  rw [uses]
  omega

theorem uses_of_insert {s : Timer n} {b : Fin n} {t : Nat} (h : .insert b t ∈ s.callers) : 0 < s.uses t := by
  have hle : (Caller.insert b t).holds t ≤ (s.callers.map (·.holds t)).sum :=
    Multiset.single_le_sum (fun _ _ => Nat.zero_le _) _ (Multiset.mem_map_of_mem _ h)
  rw [Caller.holds, if_pos rfl] at hle
  rw [uses]
  omega

end Timer

/-! What a step does to the slots. -/

/-- The timer thread goes on: it does not start or end the run of a function, and the task it is
    about to return is done. -/
def Pc.Goes (mem : Nat → Task) (pc pc' : Pc n) : Prop :=
  pc' = pc ∨ (∀ t, pc ≠ .running t) ∧ (∀ t, pc' ≠ .running t) ∧
    ∀ t, pc' = .finish t → (mem t).version = (mem t).taskId + 2

inductive Did (s s' : Timer n) : Prop where
  | quiet (hmem : s'.mem = s.mem) (hfree : s'.free = s.free) (hcreated : s'.created = s.created)
      (huses : ∀ t, s'.uses t = s.uses t) (hpc : s.pc.Goes s.mem s'.pc) (hissued : s'.issued = s.issued)
      (hstarted : s'.started = s.started) (hunscheduled : s'.unscheduled = s.unscheduled)
      (hreturned : s'.returned = s.returned) (hcrashed : s'.crashed = s.crashed)
  | scheduled (b : Fin n) (t : Nat) (runTime : Int) (hslot : t ∈ s.free ∨ t = s.created)
      (heq : s' = s.schedule b t runTime)
  | unscheduled (t version : Nat) (hid : ∃ j ∈ s.issued, j.slot = t ∧ j.version = version)
      (hversion : (s.mem t).version = version) (heq : s' = (s.unschedule t version).1)
  | starts (t : Nat) (hpc : s.pc = .start t) (hversion : (s.mem t).version = (s.mem t).taskId)
      (heq : s' = s.runAndDelete t)
  | ends (t : Nat) (hpc : s.pc = .running t) (heq : s' = (s.setVersion t ((s.mem t).taskId + 2)).goto (.finish t))
  | returns (t : Nat) (pc : Pc n) (hhere : s.pc.holds t = 1 + pc.holds t) (hothers : ∀ x, x ≠ t → s.pc.holds x = pc.holds x)
      (hfrom : ∀ x, s.pc ≠ .running x) (hpc : ∀ x, pc ≠ .running x ∧ pc ≠ .finish x)
      (hversion : (s.mem t).version = (s.mem t).taskId + 2) (heq : s' = (s.returnResource t).goto pc)

/-- Every slot is in one place, and its version says how far its use has come. -/
structure Slots (s : Timer n) : Prop where
  place : ∀ t, s.free.count t + s.uses t = if t < s.created then 1 else 0
  idle : ∀ t, s.uses t = 0 → (s.mem t).version = (s.mem t).taskId + 2
  live : ∀ t, (s.mem t).version = (s.mem t).taskId ∨ (s.mem t).version = (s.mem t).taskId + 2 ∨
    s.pc = .running t ∧ (s.mem t).version = (s.mem t).taskId + 1
  runs : ∀ t, s.pc = .running t → (s.mem t).version = (s.mem t).taskId + 1
  ended : ∀ t, s.pc = .finish t → (s.mem t).version = (s.mem t).taskId + 2
  ids : ∀ j ∈ s.issued, j.version = (s.mem j.slot).taskId ∨ j.version + 2 ≤ (s.mem j.slot).taskId
  fine : s.crashed = false

section
variable {s s' : Timer n} {t : Nat}

theorem sum_replace {callers : Multiset (Caller n)} {c : Caller n} (hc : c ∈ callers) (cs : List (Caller n)) (t : Nat) :
    ((Threads.replace callers c cs).map (·.holds t)).sum + c.holds t =
      (cs.map (·.holds t)).sum + (callers.map (·.holds t)).sum := by
  obtain ⟨rest, rfl, hrest⟩ := Threads.replace_spec hc cs
  rw [hrest, Multiset.map_add, Multiset.sum_add, Multiset.map_cons, Multiset.sum_cons, Multiset.map_coe, Multiset.sum_coe]
  omega

theorem insert_did {b : Fin n} (hc : .insert b t ∈ s.callers) : Did s (s.insert b t) := by
  refine .quiet rfl rfl rfl (fun x => ?_) (.inl rfl) rfl rfl rfl rfl rfl
  have hbuckets := Ledger.sum_update (fun (_ : Fin n) (k : Bucket) => k.tasks.count x) s.buckets b
    ⟨if (s.mem t).runTime < (s.buckets b).nearestRunTime then (s.mem t).runTime else (s.buckets b).nearestRunTime,
      t :: (s.buckets b).tasks⟩
  have hcallers := sum_replace hc
    (if (s.mem t).runTime < (s.buckets b).nearestRunTime then [.publish (s.mem t).runTime] else []) x
  have hnone : (((if (s.mem t).runTime < (s.buckets b).nearestRunTime then [Caller.publish (s.mem t).runTime]
      else []) : List (Caller n)).map (·.holds x)).sum = 0 := by
    split <;> rfl
  rw [hnone, Caller.holds] at hcallers
  dsimp only at hbuckets
  rw [count_cons] at hbuckets
  simp only [Timer.uses, Timer.insert]
  by_cases hx : t = x
  · simp only [hx, beq_self_eq_true, if_true] at hbuckets hcallers ⊢
    omega
  · simp only [hx, beq_iff_eq, if_false] at hbuckets hcallers ⊢
    omega

theorem publish_did {runTime : Int} (hc : .publish runTime ∈ s.callers) : Did s (s.publish runTime) := by
  have hcallers : ∀ cs : List (Caller n), (∀ x, (cs.map (·.holds x)).sum = 0) → ∀ x,
      ((Threads.replace s.callers (.publish runTime) cs).map (·.holds x)).sum = (s.callers.map (·.holds x)).sum := by
    intro cs hnone x
    have := sum_replace hc cs x
    rw [hnone, Nat.zero_add] at this
    exact this
  rw [publish]
  split
  · refine .quiet rfl rfl rfl (fun x => ?_) (.inl rfl) rfl rfl rfl rfl rfl
    simp only [uses, hcallers [.wake] (fun _ => rfl)]
  · refine .quiet rfl rfl rfl (fun x => ?_) (.inl rfl) rfl rfl rfl rfl rfl
    simp only [uses, hcallers [] (fun _ => rfl)]

/-- The timer thread only goes on. -/
theorem goto_did {pc : Pc n} (hholds : ∀ x, pc.holds x = s.pc.holds x) (hpc : s.pc.Goes s.mem pc) : Did s (s.goto pc) := by
  refine .quiet rfl rfl rfl (fun x => ?_) hpc rfl rfl rfl rfl rfl
  simp only [uses, goto, hholds]

theorem tryDelete_did (h : Slots s) {i : Nat} {rest : List Nat} (hpc : s.pc = .delete i (t :: rest)) :
    Did s (s.tryDelete i t rest) := by
  have hnot : ∀ x, s.pc ≠ .running x := by
    intro x hx
    rw [hpc] at hx
    cases hx
  rw [tryDelete]
  split
  · next hne =>
    have hdone : (s.mem t).version = (s.mem t).taskId + 2 := by
      rcases h.live t with heq | heq | ⟨heq, _⟩
      · exact absurd heq hne
      · exact heq
      · exact absurd heq (hnot t)
    rw [if_neg (not_not.mpr hdone)]
    refine .returns t (.delete i rest) ?_ ?_ hnot (fun x => ⟨?_, ?_⟩) hdone rfl
    · simp only [hpc, Pc.holds, count_cons_self]
      omega
    · intro x hx
      simp only [hpc, Pc.holds]
      rw [count_cons_of_ne (Ne.symm hx)]
    · intro hx
      cases hx
    · intro hx
      cases hx
  · refine .quiet rfl rfl rfl (fun x => ?_) (.inr ⟨hnot, ?_, ?_⟩) rfl rfl rfl rfl rfl
    · simp only [uses, hpc, Pc.holds, count_cons]
      omega
    · intro x hx
      cases hx
    · intro x hx
      cases hx

theorem runAndDelete_did (h : Slots s) (hpc : s.pc = .start t) : Did s (s.runAndDelete t) := by
  have hnot : ∀ x, s.pc ≠ .running x := by
    intro x hx
    rw [hpc] at hx
    cases hx
  by_cases hwaits : (s.mem t).version = (s.mem t).taskId
  · exact .starts t hpc hwaits rfl
  · have hdone : (s.mem t).version = (s.mem t).taskId + 2 := by
      rcases h.live t with heq | heq | ⟨heq, _⟩
      · exact absurd heq hwaits
      · exact heq
      · exact absurd heq (hnot t)
    rw [runAndDelete, if_neg hwaits, if_pos hdone]
    apply goto_did
    · intro x
      rw [hpc]
      rfl
    · refine .inr ⟨hnot, ?_, ?_⟩
      · intro x hx
        cases hx
      · intro x hx
        cases hx
        exact hdone

/-- A place of the timer thread that holds no task. -/
theorem goes_free {mem : Nat → Task} {pc pc' : Pc n} (hpc : ∀ x, pc ≠ .running x) (hpc' : ∀ x, pc' ≠ .running x ∧ pc' ≠ .finish x) :
    pc.Goes mem pc' :=
  .inr ⟨hpc, fun x => (hpc' x).1, fun x hx => absurd hx (hpc' x).2⟩

theorem take_did {i : Fin n} (hpc : s.pc = .take i) :
    Did s { s with buckets := update s.buckets i ⟨MAX, []⟩, pc := .delete i (s.buckets i).tasks } := by
  refine .quiet rfl rfl rfl (fun x => ?_) (goes_free (by simp [hpc]) (by simp)) rfl rfl rfl rfl rfl
  have hbuckets := Ledger.sum_update (fun (_ : Fin n) (k : Bucket) => k.tasks.count x) s.buckets i ⟨MAX, []⟩
  dsimp only at hbuckets
  rw [count_nil, Nat.add_zero] at hbuckets
  simp only [uses, hpc, Pc.holds]
  omega

theorem check_did (hpc : s.pc = .check t) (hmem : t ∈ s.heap) : Did s { s with heap := s.heap.erase t, pc := .start t } := by
  refine .quiet rfl rfl rfl (fun x => ?_) (goes_free (by simp [hpc]) (by simp)) rfl rfl rfl rfl rfl
  have hpos := count_pos_iff.mpr hmem
  simp only [uses, hpc, Pc.holds, count_erase, beq_iff_eq]
  by_cases hx : t = x
  · subst hx
    simp only [if_true]
    omega
  · simp only [hx, if_false]
    omega

theorem run_did (h : Slots s) (hheap : ∀ x, s.pc = .check x → x ∈ s.heap) (hn : s.run t = some s') : Did s s' := by
  have hgoto : ∀ pc : Pc n, (∀ x, s.pc ≠ .running x) → (∀ x, s.pc.holds x = 0) → (∀ x, pc.holds x = 0) →
      (∀ x, pc ≠ .running x ∧ pc ≠ .finish x) → Did s (s.goto pc) := by
    intro pc hnot hnone hnone' hnot'
    exact goto_did (fun x => (hnone' x).trans (hnone x).symm) (goes_free hnot hnot')
  revert hn
  fun_cases Timer.run s t <;> intro hn <;> cases hn
  case case1 hpc =>
    refine .quiet rfl rfl rfl (fun x => ?_) (goes_free (by simp [hpc]) (by simp)) rfl rfl rfl rfl rfl
    simp [uses, hpc]
  case case6 i hpc hne => exact take_did hpc
  case case8 i x rest hpc => exact tryDelete_did h hpc
  case case14 x hpc hle => exact check_did hpc (hheap x hpc)
  case case15 x hpc => exact runAndDelete_did h hpc
  case case16 x hpc => exact .ends x hpc rfl
  case case17 x hpc =>
    refine .returns x .run ?_ ?_ (by simp [hpc]) (by simp) (h.ended x hpc) rfl
    · simp [hpc]
    · intro y hy
      simp [hpc, Ne.symm hy]
  case case19 w hpc hle =>
    refine .quiet rfl rfl rfl (fun x => ?_) (goes_free (by simp [hpc]) (by simp)) rfl rfl rfl rfl rfl
    simp [uses, hpc]
  all_goals exact hgoto _ (by simp [*]) (by simp [*]) (by simp) (by simp)

theorem did_same : Did s s := .quiet rfl rfl rfl (fun _ => rfl) (.inl rfl) rfl rfl rfl rfl rfl

theorem next_did (h : Slots s) (hheap : ∀ x, s.pc = .check x → x ∈ s.heap) {a : Act n} (hn : s.next a = some s') :
    Did s s' := by
  cases a with
  | schedule b t runTime =>
    obtain ⟨⟨hslot, _⟩, rfl⟩ := ite_some_none_eq_some.mp hn
    exact .scheduled b t runTime hslot rfl
  | insert b t =>
    obtain ⟨hc, rfl⟩ := ite_some_none_eq_some.mp hn
    exact insert_did hc
  | publish runTime =>
    obtain ⟨hc, rfl⟩ := ite_some_none_eq_some.mp hn
    exact publish_did hc
  | wake =>
    obtain ⟨hc, rfl⟩ := ite_some_none_eq_some.mp hn
    refine .quiet rfl rfl rfl (fun x => ?_) (.inl rfl) rfl rfl rfl rfl rfl
    have hcallers := sum_replace hc [] x
    rw [map_nil, sum_nil, Nat.zero_add] at hcallers
    simp only [uses, ← hcallers]
    rfl
  | unschedule t version =>
    obtain ⟨hid, rfl⟩ := ite_some_none_eq_some.mp hn
    by_cases hversion : (s.mem t).version = version
    · exact .unscheduled t version hid hversion rfl
    · rw [unschedule, if_neg hversion]
      exact did_same
  | run t => exact run_did h hheap hn
  | tick now =>
    obtain ⟨_, rfl⟩ := ite_some_none_eq_some.mp hn
    exact .quiet rfl rfl rfl (fun _ => rfl) (.inl rfl) rfl rfl rfl rfl rfl

/-! The slots. -/

/-- The slot `get_resource` gives is in no place, and its version is new. -/
theorem Slots.fresh (h : Slots s) (hslot : t ∈ s.free ∨ t = s.created) :
    s.uses t = 0 ∧ (s.mem t).version = (s.mem t).taskId + 2 := by
  have hplace := h.place t
  have hnone : s.uses t = 0 := by
    rcases hslot with hfree | rfl
    · have := count_pos_iff.mpr hfree
      split at hplace <;> omega
    · rw [if_neg (Nat.lt_irrefl _)] at hplace
      omega
  exact ⟨hnone, h.idle t hnone⟩

theorem schedule_eq (h : Slots s) {b : Fin n} {runTime : Int} (hslot : t ∈ s.free ∨ t = s.created) :
    s.schedule b t runTime = { s with
      mem := update s.mem t ⟨runTime, (s.mem t).version, (s.mem t).version⟩
      free := s.free.erase t
      created := if t = s.created then s.created + 1 else s.created
      callers := .insert b t ::ₘ s.callers
      issued := ⟨t, (s.mem t).version, runTime⟩ :: s.issued } := by
  have hne : (s.mem t).version ≠ 0 := by
    rw [(h.fresh hslot).2]
    omega
  rw [schedule, if_neg hne]

theorem uses_schedule (b : Fin n) (runTime : Int) (x : Nat) :
    (s.schedule b t runTime).uses x = (if t = x then 1 else 0) + s.uses x := by
  simp only [uses, schedule, Multiset.map_cons, Multiset.sum_cons]
  rw [Caller.holds]
  omega

/-- The task an id stands for, if its version is the slot's. -/
theorem Slots.current (h : Slots s) {version : Nat} (hid : ∃ j ∈ s.issued, j.slot = t ∧ j.version = version)
    (hversion : (s.mem t).version = version) : version = (s.mem t).taskId := by
  obtain ⟨j, hj, rfl, rfl⟩ := hid
  rcases h.ids j hj with heq | hle
  · exact heq
  · rcases h.live j.slot with heq | heq | ⟨_, heq⟩ <;> omega

theorem Slots.scheduled (h : Slots s) {b : Fin n} {runTime : Int} (hslot : t ∈ s.free ∨ t = s.created) :
    Slots (s.schedule b t runTime) := by
  obtain ⟨hnone, hversion⟩ := h.fresh hslot
  have huses := uses_schedule (s := s) (t := t) b runTime
  have hnotHere : ∀ x, 0 < s.pc.holds x → x ≠ t := by
    rintro x hx rfl
    have := uses_of_pc hx
    omega
  -- the slots made so far, with `t` if it is new
  have hself : t < if t = s.created then s.created + 1 else s.created := by
    have hplace := h.place t
    rcases hslot with hfree | rfl
    · have := count_pos_iff.mpr hfree
      split at hplace <;> split <;> omega
    · rw [if_pos rfl]
      exact Nat.lt_succ_self _
  have hother : ∀ x, x ≠ t → ((x < if t = s.created then s.created + 1 else s.created) ↔ x < s.created) := by
    intro x hx
    split <;> omega
  rw [schedule_eq h hslot] at huses ⊢
  refine ⟨?_, ?_, ?_, ?_, ?_, ?_, h.fine⟩
  · intro x
    have hplace := h.place x
    have herase : (s.free.erase t).count x = s.free.count x - if t == x then 1 else 0 := count_erase
    rw [huses]
    simp only [herase, beq_iff_eq]
    by_cases hx : t = x
    · subst hx
      rw [if_pos rfl, if_pos hself]
      rw [hnone] at hplace ⊢
      split at hplace <;> omega
    · simp only [if_neg hx, hother x (Ne.symm hx)]
      omega
  · intro x hx
    rw [huses] at hx
    have hne : x ≠ t := by
      rintro rfl
      rw [if_pos rfl] at hx
      omega
    simp only [update_of_ne hne]
    exact h.idle x (by omega)
  · intro x
    by_cases hx : x = t
    · subst hx
      simp only [update_self]
      exact .inl trivial
    · simp only [update_of_ne hx]
      exact h.live x
  · intro x hx
    have hne := hnotHere x (by rw [show s.pc = .running x from hx]; simp)
    simp only [update_of_ne hne]
    exact h.runs x hx
  · intro x hx
    have hne := hnotHere x (by rw [show s.pc = .finish x from hx]; simp)
    simp only [update_of_ne hne]
    exact h.ended x hx
  · intro j hj
    rcases mem_cons.mp hj with rfl | hj
    · simp only [update_self]
      exact .inl trivial
    · have hids := h.ids j hj
      by_cases hx : j.slot = t
      · rw [hx] at hids ⊢
        simp only [update_self]
        omega
      · simp only [update_of_ne hx]
        exact hids

/-- Only the version of `t` is written, and the timer thread is at most at `t` before and after. -/
theorem Slots.retag (h : Slots s) {version : Nat} (hfree : s'.free = s.free) (hcreated : s'.created = s.created)
    (huses : ∀ x, s'.uses x = s.uses x) (hissued : s'.issued = s.issued) (hcrashed : s'.crashed = s.crashed)
    (hmem : s'.mem = update s.mem t { s.mem t with version := version })
    (hrunning : ∀ x, x ≠ t → (s'.pc = .running x ↔ s.pc = .running x)) (hfinish : ∀ x, x ≠ t → s'.pc = .finish x → s.pc = .finish x)
    (hself : version = (s.mem t).taskId + 2 ∧ s'.pc ≠ .running t ∨
      version = (s.mem t).taskId + 1 ∧ s'.pc = .running t ∧ 0 < s.uses t) : Slots s' := by
  have hother : ∀ x, x ≠ t → s'.mem x = s.mem x := by
    intro x hx
    rw [hmem, update_of_ne hx]
  have hthis : s'.mem t = { s.mem t with version := version } := by rw [hmem, update_self]
  have htask : ∀ x, (s'.mem x).taskId = (s.mem x).taskId := by
    intro x
    by_cases hx : x = t
    · rw [hx, hthis]
    · rw [hother x hx]
  refine ⟨?_, ?_, ?_, ?_, ?_, ?_, hcrashed.trans h.fine⟩
  · intro x
    rw [hfree, huses, hcreated]
    exact h.place x
  · intro x hx
    rw [huses] at hx
    by_cases hxt : x = t
    · subst hxt
      rw [hthis]
      dsimp only
      omega
    · rw [hother x hxt]
      exact h.idle x hx
  · intro x
    by_cases hxt : x = t
    · subst hxt
      rw [hthis]
      dsimp only
      rcases hself with ⟨hv, _⟩ | ⟨hv, hpc, _⟩
      · exact .inr (.inl hv)
      · exact .inr (.inr ⟨hpc, hv⟩)
    · rw [hother x hxt, hrunning x hxt]
      exact h.live x
  · intro x hx
    by_cases hxt : x = t
    · subst hxt
      rw [hthis]
      rcases hself with ⟨_, hpc⟩ | ⟨hv, _⟩
      · exact absurd hx hpc
      · exact hv
    · rw [hother x hxt]
      exact h.runs x ((hrunning x hxt).mp hx)
  · intro x hx
    by_cases hxt : x = t
    · subst hxt
      rw [hthis]
      rcases hself with ⟨hv, _⟩ | ⟨_, hpc, _⟩
      · exact hv
      · rw [hpc] at hx
        cases hx
    · rw [hother x hxt]
      exact h.ended x (hfinish x hxt hx)
  · intro j hj
    rw [hissued] at hj
    rw [htask]
    exact h.ids j hj

theorem uses_returns {pc : Pc n} (hhere : s.pc.holds t = 1 + pc.holds t) (hothers : ∀ x, x ≠ t → s.pc.holds x = pc.holds x)
    (x : Nat) : ((s.returnResource t).goto pc).uses x + (if t = x then 1 else 0) = s.uses x := by
  simp only [uses, goto, returnResource]
  by_cases hx : t = x
  · subst hx
    rw [if_pos rfl]
    omega
  · rw [if_neg hx, hothers x (Ne.symm hx)]
    rfl

theorem Slots.returns (h : Slots s) {pc : Pc n} (hhere : s.pc.holds t = 1 + pc.holds t)
    (hothers : ∀ x, x ≠ t → s.pc.holds x = pc.holds x) (hfrom : ∀ x, s.pc ≠ .running x)
    (hpc : ∀ x, pc ≠ .running x ∧ pc ≠ .finish x) (hversion : (s.mem t).version = (s.mem t).taskId + 2) :
    Slots ((s.returnResource t).goto pc) := by
  have huses := uses_returns hhere hothers
  refine ⟨?_, ?_, ?_, ?_, ?_, h.ids, h.fine⟩
  · intro x
    have hplace := h.place x
    have hx := huses x
    have hfree : ((s.returnResource t).goto pc).free.count x = s.free.count x + if t = x then 1 else 0 := by
      show (t :: s.free).count x = _
      rw [count_cons]
      simp only [beq_iff_eq]
    rw [hfree]
    show _ = if x < s.created then 1 else 0
    omega
  · intro x hx
    have hsum := huses x
    by_cases hxt : t = x
    · subst hxt
      exact hversion
    · rw [if_neg hxt] at hsum
      exact h.idle x (by omega)
  · intro x
    rcases h.live x with heq | heq | ⟨hrun, _⟩
    · exact .inl heq
    · exact .inr (.inl heq)
    · exact absurd hrun (hfrom x)
  · exact fun x hx => absurd hx (hpc x).1
  · exact fun x hx => absurd hx (hpc x).2

theorem Slots.did (h : Slots s) (hd : Did s s') : Slots s' := by
  cases hd with
  | quiet hmem hfree hcreated huses hpc hissued _ _ _ hcrashed =>
    refine ⟨?_, ?_, ?_, ?_, ?_, ?_, hcrashed.trans h.fine⟩
    · intro x
      rw [hfree, huses, hcreated]
      exact h.place x
    · intro x hx
      rw [huses] at hx
      rw [hmem]
      exact h.idle x hx
    · intro x
      rw [hmem]
      rcases h.live x with heq | heq | ⟨hrun, heq⟩
      · exact .inl heq
      · exact .inr (.inl heq)
      · rcases hpc with hsame | ⟨hnot, _⟩
        · exact .inr (.inr ⟨hsame.trans hrun, heq⟩)
        · exact absurd hrun (hnot x)
    · intro x hx
      rw [hmem]
      rcases hpc with hsame | ⟨_, hnot, _⟩
      · exact h.runs x (hsame.symm.trans hx)
      · exact absurd hx (hnot x)
    · intro x hx
      rw [hmem]
      rcases hpc with hsame | ⟨_, _, hdone⟩
      · exact h.ended x (hsame.symm.trans hx)
      · exact hdone x hx
    · rw [hissued, hmem]
      exact h.ids
  | scheduled b t runTime hslot heq =>
    rw [heq]
    exact h.scheduled hslot
  | unscheduled t version hid hversion heq =>
    have htask := h.current hid hversion
    rw [unschedule, if_pos hversion] at heq
    subst heq
    refine h.retag rfl rfl (fun _ => rfl) rfl rfl rfl (fun _ _ => Iff.rfl) (fun _ _ hx => hx) (.inl ⟨by omega, ?_⟩)
    intro hrun
    have := h.runs t hrun
    omega
  | starts t hpc hversion heq =>
    rw [runAndDelete, if_pos hversion] at heq
    subst heq
    refine h.retag rfl rfl (fun x => ?_) rfl rfl rfl (fun x hx => ?_) (fun x _ hx => (by cases hx)) (.inr ⟨rfl, rfl, ?_⟩)
    · simp only [uses, setVersion, hpc, Pc.holds]
    · rw [hpc]
      constructor
      · intro heq
        cases heq
        exact absurd rfl hx
      · intro heq
        cases heq
    · exact uses_of_pc (by simp [hpc])
  | ends t hpc heq =>
    subst heq
    refine h.retag rfl rfl (fun x => ?_) rfl rfl rfl (fun x hx => ?_) (fun x hx hf => ?_) (.inl ⟨rfl, fun hx => by cases hx⟩)
    · simp only [uses, setVersion, goto, hpc, Pc.holds]
    · rw [hpc]
      constructor
      · intro heq
        cases heq
      · intro heq
        cases heq
        exact absurd rfl hx
    · cases hf
      exact absurd rfl hx
  | returns t pc hhere hothers hfrom hpc hversion heq =>
    rw [heq]
    exact h.returns hhere hothers hfrom hpc hversion

/-! The record. -/

theorem Did.version_le (h : Slots s) (hd : Did s s') (x : Nat) : (s.mem x).version ≤ (s'.mem x).version := by
  have hset : ∀ {t version : Nat}, (s.mem t).version ≤ version →
      (s.mem x).version ≤ (update s.mem t { s.mem t with version := version } x).version := by
    intro t version hle
    by_cases hx : x = t
    · rw [hx, update_self]
      exact hle
    · rw [update_of_ne hx]
  cases hd with
  | quiet hmem => rw [hmem]
  | scheduled b t runTime hslot heq =>
    rw [heq, schedule_eq h hslot]
    by_cases hx : x = t
    · simp only [hx, update_self, le_refl]
    · simp only [update_of_ne hx, le_refl]
  | unscheduled t version _ hversion heq =>
    rw [heq, unschedule, if_pos hversion]
    exact hset (by omega)
  | starts t _ hversion heq =>
    rw [heq, runAndDelete, if_pos hversion]
    exact hset (by omega)
  | ends t hpc heq =>
    have := h.runs t hpc
    rw [heq]
    exact hset (by omega)
  | returns t pc _ _ _ _ _ heq =>
    rw [heq]
    exact le_rfl

/-- The job of a slot stays while the slot is in use. -/
theorem Did.job_eq (h : Slots s) (hd : Did s s') {x : Nat} (hx : 0 < s.uses x) : s'.job x = s.job x := by
  have hset : ∀ t version, (update s.mem t { s.mem t with version := version } x).taskId = (s.mem x).taskId ∧
      (update s.mem t { s.mem t with version := version } x).runTime = (s.mem x).runTime := by
    intro t version
    by_cases hxt : x = t
    · rw [hxt, update_self]
      exact ⟨rfl, rfl⟩
    · rw [update_of_ne hxt]
      exact ⟨rfl, rfl⟩
  have hjob : ∀ (s' : Timer n) t version, s'.mem = update s.mem t { s.mem t with version := version } →
      s'.job x = s.job x := by
    intro s' t version hmem
    rw [job, job, hmem, (hset t version).1, (hset t version).2]
  cases hd with
  | quiet hmem => rw [job, job, hmem]
  | scheduled b t runTime hslot heq =>
    have hne : x ≠ t := by
      rintro rfl
      have := (h.fresh hslot).1
      omega
    rw [heq, job, job, schedule_eq h hslot]
    simp only [update_of_ne hne]
  | unscheduled t version _ hversion heq =>
    rw [heq, unschedule, if_pos hversion]
    exact hjob _ t (version + 2) rfl
  | starts t _ hversion heq =>
    rw [heq, runAndDelete, if_pos hversion]
    exact hjob _ t _ rfl
  | ends t _ heq =>
    rw [heq]
    exact hjob _ t _ rfl
  | returns t pc _ _ _ _ _ heq => rw [heq]; rfl

def Job.id (j : Job) : Nat × Nat := (j.slot, j.version)

/-- What happened so far. -/
structure Records (s : Timer n) : Prop where
  nodup : (s.issued.map Job.id).Nodup
  ledger : ∀ j, s.issued.count j = s.returned.count j + if j = s.job j.slot then s.uses j.slot else 0
  once : (s.started.map fun r => r.1.id).Nodup
  started : ∀ r ∈ s.started, r.1 ∈ s.issued ∧ r.1.version < (s.mem r.1.slot).version ∧ r.1.runTime ≤ r.2
  removed : ∀ id ∈ s.unscheduled, id.2 + 2 ≤ (s.mem id.1).version
  apart : ∀ r ∈ s.started, r.1.id ∉ s.unscheduled

section

variable (h : Records s) (hs : Slots s)

include h hs

/-- Nothing is recorded, or the record grows at the versions it may grow at. -/
theorem Records.keep (hd : Did s s') (hissued : s'.issued = s.issued)
    (hledger : ∀ j, s.issued.count j = s'.returned.count j + if j = s'.job j.slot then s'.uses j.slot else 0)
    (hstarted : s'.started = s.started) (hunscheduled : s'.unscheduled = s.unscheduled) : Records s' where
  nodup := by
    rw [hissued]
    exact h.nodup
  ledger := by
    rw [hissued]
    exact hledger
  once := by
    rw [hstarted]
    exact h.once
  started := by
    rw [hstarted, hissued]
    intro r hr
    obtain ⟨hmem, hlt, htime⟩ := h.started r hr
    exact ⟨hmem, Nat.lt_of_lt_of_le hlt (hd.version_le hs _), htime⟩
  removed := by
    rw [hunscheduled]
    intro id hid
    exact Nat.le_trans (h.removed id hid) (hd.version_le hs _)
  apart := by
    rw [hstarted, hunscheduled]
    exact h.apart

theorem Records.scheduled {b : Fin n} {runTime : Int} (hslot : t ∈ s.free ∨ t = s.created) :
    Records (s.schedule b t runTime) := by
  obtain ⟨hnone, hversion⟩ := hs.fresh hslot
  have hd : Did s (s.schedule b t runTime) := .scheduled b t runTime hslot rfl
  have huses := uses_schedule (s := s) (t := t) b runTime
  have hle := hd.version_le hs
  have hjob := fun x (hx : 0 < s.uses x) => hd.job_eq hs hx
  rw [schedule_eq hs hslot] at huses hle hjob ⊢
  -- no id of the slot has this version yet
  have hnew : ∀ j ∈ s.issued, j.slot = t → j.version ≠ (s.mem t).version := by
    rintro j hj rfl
    have := hs.ids j hj
    omega
  refine ⟨?_, ?_, h.once, ?_, ?_, h.apart⟩
  · apply nodup_cons.mpr
    refine ⟨?_, h.nodup⟩
    intro hmem
    obtain ⟨j, hj, hid⟩ := mem_map.mp hmem
    obtain ⟨hslot, hver⟩ := Prod.mk.inj hid
    exact hnew j hj hslot hver
  · intro j
    have hledger := h.ledger j
    have hzero : j.slot = t → j.version = (s.mem t).version → s.issued.count j = 0 := by
      intro hjt hjv
      apply count_eq_zero_of_not_mem
      intro hj
      exact hnew j hj hjt hjv
    rw [huses, count_cons]
    by_cases hjt : j.slot = t
    · subst hjt
      rw [hnone] at hledger
      simp only [job, update_self, beq_iff_eq, if_true, hnone]
      by_cases hj : j = ⟨j.slot, (s.mem j.slot).version, runTime⟩
      · have hver : j.version = (s.mem j.slot).version := congrArg Job.version hj
        have := hzero rfl hver
        rw [if_pos hj.symm, if_pos hj]
        split at hledger <;> omega
      · rw [if_neg (Ne.symm hj), if_neg hj]
        split at hledger <;> omega
    · have hne : ¬ (⟨t, (s.mem t).version, runTime⟩ : Job) = j := by
        rintro rfl
        exact hjt rfl
      simp only [beq_iff_eq, if_neg hne, if_neg (Ne.symm hjt), Nat.add_zero, Nat.zero_add]
      rw [hledger]
      congr 1
      apply if_congr _ rfl rfl
      simp only [job, update_of_ne hjt]
  · intro r hr
    obtain ⟨hmem, hlt, htime⟩ := h.started r hr
    exact ⟨mem_cons_of_mem _ hmem, Nat.lt_of_lt_of_le hlt (hle _), htime⟩
  · intro id hid
    exact Nat.le_trans (h.removed id hid) (hle _)

theorem Records.returns {pc : Pc n} (hd : Did s ((s.returnResource t).goto pc)) (hhere : s.pc.holds t = 1 + pc.holds t)
    (hothers : ∀ x, x ≠ t → s.pc.holds x = pc.holds x) : Records ((s.returnResource t).goto pc) := by
  refine h.keep hs hd rfl (fun j => ?_) rfl rfl
  have huses := uses_returns hhere hothers j.slot
  have hledger := h.ledger j
  have hreturned : ((s.returnResource t).goto pc).returned.count j = s.returned.count j + if s.job t = j then 1 else 0 := by
    show (s.job t :: s.returned).count j = _
    rw [count_cons]
    simp only [beq_iff_eq]
  have hjob : ((s.returnResource t).goto pc).job j.slot = s.job j.slot := rfl
  rw [hreturned, hjob]
  by_cases hj : j = s.job j.slot
  · by_cases hjt : t = j.slot
    · subst hjt
      rw [if_pos hj] at hledger ⊢
      rw [if_pos hj.symm]
      rw [if_pos rfl] at huses
      omega
    · have hne : ¬ s.job t = j := by
        intro heq
        exact hjt (congrArg Job.slot heq)
      rw [if_pos hj] at hledger ⊢
      rw [if_neg hne]
      rw [if_neg hjt] at huses
      omega
  · have hne : ¬ s.job t = j := by
      rintro rfl
      exact hj rfl
    rw [if_neg hj] at hledger ⊢
    rw [if_neg hne]
    exact hledger

/-- A step keeps the record right, if a task that starts is due. -/
theorem Records.did (hdue : ∀ t, s.pc = .start t → (s.mem t).runTime ≤ s.now) (hd : Did s s') : Records s' := by
  have hd' := hd
  have hsame : ∀ {s' : Timer n}, Did s s' → s'.returned = s.returned → (∀ x, s'.uses x = s.uses x) →
      ∀ j, s.issued.count j = s'.returned.count j + if j = s'.job j.slot then s'.uses j.slot else 0 := by
    intro s' hd hreturned huses j
    rw [hreturned, huses, h.ledger j]
    rcases Nat.eq_zero_or_pos (s.uses j.slot) with hzero | hpos
    · rw [hzero, ite_self, ite_self]
    · rw [hd.job_eq hs hpos]
  cases hd with
  | quiet hmem _ _ huses _ hissued hstarted hunscheduled hreturned _ =>
    exact h.keep hs hd' hissued (hsame hd' hreturned huses) hstarted hunscheduled
  | scheduled b t runTime hslot heq =>
    rw [heq]
    exact h.scheduled hs hslot
  | unscheduled t version hid hversion heq =>
    rw [unschedule, if_pos hversion] at heq
    subst heq
    have hledger := hsame hd' rfl fun _ => rfl
    have hle := hd'.version_le hs
    refine ⟨h.nodup, hledger, h.once, ?_, ?_, ?_⟩
    · intro r hr
      obtain ⟨hmem, hlt, htime⟩ := h.started r hr
      exact ⟨hmem, Nat.lt_of_lt_of_le hlt (hle _), htime⟩
    · intro id hid
      rcases mem_cons.mp hid with rfl | hid
      · show version + 2 ≤ (update s.mem t { s.mem t with version := version + 2 } t).version
        rw [update_self]
      · exact Nat.le_trans (h.removed id hid) (hle _)
    · intro r hr hmem
      rcases mem_cons.mp hmem with heq | hmem
      · -- the function of a task with this version has not been called
        cases heq
        have := (h.started r hr).2.1
        omega
      · exact h.apart r hr hmem
  | starts t hpc hversion heq =>
    have hused : 0 < s.uses t := uses_of_pc (by simp [hpc])
    have hissued : s.job t ∈ s.issued := by
      apply count_pos_iff.mp
      have hself : s.job t = s.job (s.job t).slot := rfl
      rw [h.ledger, if_pos hself]
      exact Nat.lt_of_lt_of_le hused (Nat.le_add_left _ _)
    rw [runAndDelete, if_pos hversion] at heq
    subst heq
    have hledger := hsame hd' rfl fun x => by simp only [uses, setVersion, hpc, Pc.holds]
    have hle := hd'.version_le hs
    refine ⟨h.nodup, hledger, ?_, ?_, ?_, ?_⟩
    · apply nodup_cons.mpr
      refine ⟨?_, h.once⟩
      intro hmem
      obtain ⟨r, hr, hid⟩ := mem_map.mp hmem
      obtain ⟨hslot, hver⟩ := Prod.mk.inj hid
      have hlt := (h.started r hr).2.1
      rw [show r.1.slot = t from hslot, show r.1.version = (s.mem t).taskId from hver] at hlt
      omega
    · intro r hr
      rcases mem_cons.mp hr with rfl | hr
      · refine ⟨hissued, ?_, hdue t hpc⟩
        show (s.mem t).taskId < (update s.mem t { s.mem t with version := (s.mem t).taskId + 1 } t).version
        rw [update_self]
        exact Nat.lt_succ_self _
      · obtain ⟨hmem, hlt, htime⟩ := h.started r hr
        exact ⟨hmem, Nat.lt_of_lt_of_le hlt (hle _), htime⟩
    · intro id hid
      exact Nat.le_trans (h.removed id hid) (hle _)
    · intro r hr hmem
      rcases mem_cons.mp hr with rfl | hr
      · have hge : (s.mem t).taskId + 2 ≤ (s.mem t).version := h.removed _ hmem
        omega
      · exact h.apart r hr hmem
  | ends t hpc heq =>
    subst heq
    refine h.keep hs hd' rfl (hsame hd' rfl fun x => ?_) rfl rfl
    simp only [uses, setVersion, goto, hpc, Pc.holds]
  | returns t pc hhere hothers hfrom hpc hversion heq =>
    subst heq
    exact h.returns hs hd' hhere hothers

end

end

end LightRpc.TimerThread

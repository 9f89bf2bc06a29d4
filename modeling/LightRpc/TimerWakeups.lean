import LightRpc.TimerSafety

/- No wake-up of the timer thread is lost.

   A round of the timer thread resets the global minimum and pulls the buckets one by one. A task
   that is put into a bucket behind the pull is the earliest of the bucket, and then its call goes
   on to publish its time, or there is an earlier one in the bucket for which this holds. So for
   every task in a bucket that was pulled an earlier or equal time is on its way or has arrived,
   and the timer thread, which goes to sleep only if the minimum is not earlier, misses nothing
   that has arrived. What arrives later changes `_nsignals`. -/
namespace LightRpc.TimerThread

open Lib Option Function Timer

variable {n : Nat} {s s' : Timer n} {t : Nat}

/-! The timer thread and its heap. -/

structure Timely (s : Timer n) : Prop where
  heap : ∀ t, s.pc = .check t → t ∈ s.heap
  due : ∀ t, s.pc = .check t ∨ s.pc = .start t → (s.mem t).runTime ≤ s.now
  ahead : ∀ w, (s.pc = .sleep w ∨ ∃ e, s.pc = .waiting w e) → ∀ t ∈ s.heap, w ≤ (s.mem t).runTime

/-- The run times of the tasks that are in use stay. -/
def SameTimes (s s' : Timer n) : Prop := ∀ x, 0 < s.uses x → (s'.mem x).runTime = (s.mem x).runTime

theorem Did.sameTimes (h : Slots s) (hd : Did s s') : SameTimes s s' :=
  fun _ hx => congrArg Job.runTime (hd.job_eq h hx)

theorem Timely.frame (h : Timely s) (hpc : s'.pc = s.pc) (hheap : s'.heap = s.heap) (hnow : s.now ≤ s'.now)
    (htimes : SameTimes s s') : Timely s' := by
  refine ⟨?_, ?_, ?_⟩
  · rw [hpc, hheap]
    exact h.heap
  · intro x hx
    rw [hpc] at hx
    have hused : 0 < s.uses x := by
      rcases hx with hx | hx
      · exact uses_of_heap (h.heap x hx)
      · exact uses_of_pc (by simp [hx])
    rw [htimes x hused]
    exact le_trans (h.due x hx) hnow
  · intro w hw x hx
    rw [hpc] at hw
    rw [hheap] at hx
    rw [htimes x (uses_of_heap hx)]
    exact h.ahead w hw x hx

/-- The timer thread is not about to run a task or to sleep. -/
theorem Timely.other (hcheck : ∀ x, s.pc ≠ .check x ∧ s.pc ≠ .start x) (hsleep : ∀ w e, s.pc ≠ .sleep w ∧ s.pc ≠ .waiting w e) :
    Timely s := by
  refine ⟨fun x hx => absurd hx (hcheck x).1, ?_, ?_⟩
  · rintro x (hx | hx)
    · exact absurd hx (hcheck x).1
    · exact absurd hx (hcheck x).2
  · rintro w (hw | ⟨e, hw⟩)
    · exact absurd hw (hsleep w 0).1
    · exact absurd hw (hsleep w e).2

theorem Timely.run (h : Timely s) (hn : s.run t = some s') : Timely s' := by
  revert hn
  fun_cases Timer.run s t <;> intro hn <;> cases hn
  case case8 i x rest hpc =>
    have hpc' : (s.tryDelete i x rest).pc = .delete i rest := by
      rw [Timer.tryDelete]
      split
      · split <;> rfl
      · rfl
    exact .other (by simp [hpc']) (by simp [hpc'])
  case case9 hpc hempty =>
    refine ⟨by simp [Timer.goto], by simp [Timer.goto], fun w _ x hx => ?_⟩
    rw [show (s.goto (.sleep MAX)).heap = [] from hempty] at hx
    cases hx
  case case10 hpc hne hfirst hlate =>
    refine ⟨by simp [Timer.goto], by simp [Timer.goto], ?_⟩
    rintro w (hw | ⟨e, hw⟩)
    · cases hw
      exact (of_decide_eq_true hfirst).2
    · cases hw
  case case11 hpc hne hfirst hdue =>
    refine ⟨?_, ?_, by simp [Timer.goto]⟩
    · intro x hx
      cases hx
      exact (of_decide_eq_true hfirst).1
    · rintro x (hx | hx)
      · cases hx
        exact not_lt.mp hdue
      · cases hx
  case case14 x hpc hle =>
    refine ⟨by simp, ?_, by simp⟩
    rintro y (hy | hy)
    · cases hy
    · cases hy
      exact h.due x (.inl hpc)
  case case15 x hpc =>
    have hpc' : (s.runAndDelete x).pc = .running x ∨ (s.runAndDelete x).pc = .finish x ∨ (s.runAndDelete x).pc = .run := by
      rw [Timer.runAndDelete]
      split
      · exact .inl rfl
      · split
        · exact .inr (.inl rfl)
        · exact .inr (.inr rfl)
    rcases hpc' with hpc' | hpc' | hpc' <;> exact .other (by simp [hpc']) (by simp [hpc'])
  case case19 w hpc hle =>
    refine ⟨by simp, by simp, ?_⟩
    rintro w' (hw | ⟨e, hw⟩)
    · cases hw
    · cases hw
      exact h.ahead w (.inl hpc)
  all_goals exact .other (by simp [Timer.goto]) (by simp [Timer.goto])

theorem Timely.next (h : Timely s) (hs : Slots s) {a : Act n} (hn : s.next a = some s') : Timely s' := by
  have htimes := (next_did hs h.heap hn).sameTimes hs
  cases a with
  | run t => exact h.run hn
  | schedule b t runTime | insert b t | wake =>
    obtain ⟨_, rfl⟩ := ite_some_none_eq_some.mp hn
    exact h.frame rfl rfl le_rfl htimes
  | publish runTime =>
    obtain ⟨_, rfl⟩ := ite_some_none_eq_some.mp hn
    revert htimes
    rw [publish]
    split <;> exact h.frame rfl rfl le_rfl
  | unschedule t version =>
    obtain ⟨_, rfl⟩ := ite_some_none_eq_some.mp hn
    revert htimes
    rw [unschedule]
    split
    · exact h.frame rfl rfl le_rfl
    · exact fun _ => h
  | tick now =>
    obtain ⟨hle, rfl⟩ := ite_some_none_eq_some.mp hn
    exact h.frame rfl rfl hle htimes

/-! The buckets that are pulled. -/

/-- The timer thread is done with the bucket in this round. -/
@[simp] def Pc.visited (b : Fin n) : Pc n → Prop
  | .reset => False
  | .pull i => b.val < i
  | .take i => b.val < i.val
  | .delete i _ => b.val ≤ i
  | _ => True

/-- The minimum of the bucket is one. -/
structure Bucket.Ok (mem : Nat → Task) (k : Bucket) : Prop where
  nearest : ∀ t ∈ k.tasks, k.nearestRunTime ≤ (mem t).runTime
  least : k.nearestRunTime = MAX ∨ ∃ t ∈ k.tasks, (mem t).runTime = k.nearestRunTime
  max : ∀ t ∈ k.tasks, (mem t).runTime ≤ MAX

/-- A call is about to publish a time that is not later, or the global minimum is not later. -/
def Covered (s : Timer n) (runTime : Int) : Prop :=
  (∃ r, .publish r ∈ s.callers ∧ r ≤ runTime) ∨ s.nearestRunTime ≤ runTime

theorem Covered.mono {r r' : Int} (h : Covered s r) (hle : r ≤ r') : Covered s r' := by
  rcases h with ⟨x, hx, hxr⟩ | hr
  · exact .inl ⟨x, hx, le_trans hxr hle⟩
  · exact .inr (le_trans hr hle)

structure Signals (s : Timer n) : Prop where
  buckets : ∀ b, (s.buckets b).Ok s.mem
  nearest : s.nearestRunTime ≤ MAX
  inserts : ∀ b t, .insert b t ∈ s.callers → (s.mem t).runTime ≤ MAX
  covered : ∀ b, s.pc.visited b → ∀ t ∈ (s.buckets b).tasks, Covered s (s.mem t).runTime
  waits : ∀ w e, s.pc = .waiting w e → e ≤ s.nsignals ∧ (s.nsignals = e → s.nearestRunTime = w)

theorem Bucket.Ok.congr {mem mem' : Nat → Task} {k : Bucket} (h : k.Ok mem)
    (htimes : ∀ t ∈ k.tasks, (mem' t).runTime = (mem t).runTime) : k.Ok mem' := by
  refine ⟨?_, ?_, ?_⟩
  · intro t ht
    rw [htimes t ht]
    exact h.nearest t ht
  · rcases h.least with hmax | ⟨t, ht, heq⟩
    · exact .inl hmax
    · exact .inr ⟨t, ht, (htimes t ht).trans heq⟩
  · intro t ht
    rw [htimes t ht]
    exact h.max t ht

/-- Nothing changes for the buckets and the global minimum; no more buckets are visited. -/
theorem Signals.frame (h : Signals s) (htimes : SameTimes s s') (hbuckets : s'.buckets = s.buckets)
    (hnearest : s'.nearestRunTime = s.nearestRunTime) (hnsignals : s'.nsignals = s.nsignals)
    (hpublish : ∀ r, .publish r ∈ s.callers → .publish r ∈ s'.callers)
    (hinserts : ∀ b x, .insert b x ∈ s'.callers → (s'.mem x).runTime ≤ MAX)
    (hvisited : ∀ b, s'.pc.visited b → s.pc.visited b ∨ (s.buckets b).tasks = [])
    (hwaits : ∀ w e, s'.pc = .waiting w e → s.pc = .waiting w e) : Signals s' := by
  have hsame : ∀ b, ∀ x ∈ (s.buckets b).tasks, (s'.mem x).runTime = (s.mem x).runTime :=
    fun b x hx => htimes x (uses_of_bucket hx)
  refine ⟨?_, ?_, hinserts, ?_, ?_⟩
  · intro b
    rw [hbuckets]
    exact (h.buckets b).congr (hsame b)
  · rw [hnearest]
    exact h.nearest
  · intro b hb x hx
    rw [hbuckets] at hx
    rw [hsame b x hx]
    rcases hvisited b hb with hb | hempty
    · rcases h.covered b hb x hx with ⟨r, hr, hle⟩ | hle
      · exact .inl ⟨r, hpublish r hr, hle⟩
      · exact .inr (hnearest.le.trans hle)
    · rw [hempty] at hx
      cases hx
  · intro w e hw
    rw [hnsignals, hnearest]
    exact h.waits w e (hwaits w e hw)

/-- The timer thread goes on and changes no bucket. -/
theorem Signals.goto (h : Signals s) (htimes : SameTimes s s') (hbuckets : s'.buckets = s.buckets)
    (hnearest : s'.nearestRunTime = s.nearestRunTime) (hnsignals : s'.nsignals = s.nsignals) (hcallers : s'.callers = s.callers)
    (hvisited : ∀ b, s'.pc.visited b → s.pc.visited b ∨ (s.buckets b).tasks = [])
    (hwaits : ∀ w e, s'.pc ≠ .waiting w e) : Signals s' := by
  refine h.frame htimes hbuckets hnearest hnsignals ?_ ?_ hvisited fun w e hw => absurd hw (hwaits w e)
  · intro r hr
    rwa [hcallers]
  · intro b x hx
    rw [hcallers] at hx
    rw [htimes x (uses_of_insert hx)]
    exact h.inserts b x hx

/-! One lemma for each act. -/

theorem Signals.schedule (h : Signals s) (hs : Slots s) {b : Fin n} {runTime : Int} (hslot : t ∈ s.free ∨ t = s.created)
    (hmax : runTime ≤ MAX) (htimes : SameTimes s (s.schedule b t runTime)) : Signals (s.schedule b t runTime) := by
  refine h.frame htimes rfl rfl rfl ?_ ?_ (fun _ hb => .inl hb) fun _ _ hw => hw
  · exact fun r hr => Multiset.mem_cons_of_mem hr
  · intro c x hx
    rcases Multiset.mem_cons.mp hx with heq | hx
    · cases heq
      rw [schedule_eq hs hslot]
      simp only [update_self]
      exact hmax
    · rw [htimes x (uses_of_insert hx)]
      exact h.inserts c x hx

/-- A caller that publishes stays if another one moves. -/
theorem mem_replace_of_ne {callers : Multiset (Caller n)} {c c' : Caller n} {cs : List (Caller n)} (hne : c' ≠ c)
    (hc' : c' ∈ callers) : c' ∈ Threads.replace callers c cs :=
  Multiset.mem_add.mpr (.inr ((Multiset.mem_erase_of_ne hne).mpr hc'))

theorem Signals.insert (h : Signals s) {b : Fin n} (hc : .insert b t ∈ s.callers) : Signals (s.insert b t) := by
  have hok := h.buckets b
  have hmax := h.inserts b t hc
  have hpublish : ∀ r, .publish r ∈ s.callers → .publish r ∈ (s.insert b t).callers :=
    fun r hr => mem_replace_of_ne (by simp) hr
  have hkeeps : ∀ r, Covered s r → Covered (s.insert b t) r := by
    rintro r (⟨x, hx, hle⟩ | hle)
    · exact .inl ⟨x, hpublish x hx, hle⟩
    · exact .inr hle
  have hbucket : (s.insert b t).buckets b = ⟨if (s.mem t).runTime < (s.buckets b).nearestRunTime then (s.mem t).runTime
      else (s.buckets b).nearestRunTime, t :: (s.buckets b).tasks⟩ := update_self ..
  refine ⟨?_, h.nearest, ?_, ?_, h.waits⟩
  · intro c
    by_cases hcb : c = b
    · subst hcb
      rw [hbucket]
      by_cases hearlier : (s.mem t).runTime < (s.buckets c).nearestRunTime
      · rw [if_pos hearlier]
        refine ⟨?_, .inr ⟨t, List.mem_cons_self, rfl⟩, List.forall_mem_cons.mpr ⟨hmax, hok.max⟩⟩
        exact List.forall_mem_cons.mpr ⟨le_rfl, fun x hx => le_trans hearlier.le (hok.nearest x hx)⟩
      · rw [if_neg hearlier]
        refine ⟨?_, ?_, List.forall_mem_cons.mpr ⟨hmax, hok.max⟩⟩
        · exact List.forall_mem_cons.mpr ⟨not_lt.mp hearlier, hok.nearest⟩
        · exact hok.least.imp_right fun ⟨x, hx, heq⟩ => ⟨x, List.mem_cons_of_mem t hx, heq⟩
    · rw [show (s.insert b t).buckets c = s.buckets c from update_of_ne hcb ..]
      exact h.buckets c
  · intro c x hx
    have hx : .insert c x ∈ s.callers := by
      rcases Threads.mem_replace hx with hx | hx
      · split at hx
        · cases List.mem_singleton.mp hx
        · cases hx
      · exact hx
    exact h.inserts c x hx
  · intro c hvisited x hx
    by_cases hcb : c = b
    · subst hcb
      rw [hbucket] at hx
      rcases List.mem_cons.mp hx with rfl | hx
      · by_cases hearlier : (s.mem x).runTime < (s.buckets c).nearestRunTime
        · -- the call goes on to publish the time
          refine .inl ⟨(s.mem x).runTime, ?_, le_rfl⟩
          show _ ∈ Threads.replace _ _ _
          rw [if_pos hearlier]
          exact Multiset.mem_add.mpr (.inl (Multiset.mem_coe.mpr List.mem_cons_self))
        · rcases hok.least with hnone | ⟨y, hy, heq⟩
          · refine .inr ?_
            show s.nearestRunTime ≤ (s.mem x).runTime
            have := h.nearest
            omega
          · apply hkeeps
            apply (h.covered c hvisited y hy).mono
            rw [heq]
            exact not_lt.mp hearlier
      · exact hkeeps _ (h.covered c hvisited x hx)
    · rw [show (s.insert b t).buckets c = s.buckets c from update_of_ne hcb ..] at hx
      exact hkeeps _ (h.covered c hvisited x hx)

theorem Signals.publish (h : Signals s) {runTime : Int} : Signals (s.publish runTime) := by
  have hstays : ∀ cs : List (Caller n), ∀ r, .publish r ∈ s.callers → r ≠ runTime →
      .publish r ∈ Threads.replace s.callers (.publish runTime) cs := by
    intro cs r hr hne
    refine mem_replace_of_ne ?_ hr
    intro heq
    exact hne (Caller.publish.inj heq)
  have hinserts : ∀ cs : List (Caller n), (∀ b x, .insert b x ∉ cs) → ∀ b x,
      .insert b x ∈ Threads.replace s.callers (.publish runTime) cs → (s.mem x).runTime ≤ MAX := by
    intro cs hnone b x hx
    rcases Threads.mem_replace hx with hx | hx
    · exact absurd hx (hnone b x)
    · exact h.inserts b x hx
  rw [Timer.publish]
  split
  · next hlt =>
    refine ⟨h.buckets, le_trans hlt.le h.nearest, hinserts [.wake] (by simp), ?_, ?_⟩
    · intro b hb x hx
      rcases h.covered b hb x hx with ⟨r, hr, hle⟩ | hle
      · by_cases hne : r = runTime
        · exact .inr (hne ▸ hle)
        · exact .inl ⟨r, hstays _ r hr hne, hle⟩
      · exact .inr (le_trans hlt.le hle)
    · intro w e hw
      obtain ⟨hle, _⟩ := h.waits w e hw
      refine ⟨Nat.le_succ_of_le hle, fun heq => ?_⟩
      dsimp only at heq
      omega
  · next hge =>
    refine ⟨h.buckets, h.nearest, hinserts [] (by simp), ?_, h.waits⟩
    intro b hb x hx
    rcases h.covered b hb x hx with ⟨r, hr, hle⟩ | hle
    · by_cases hne : r = runTime
      · exact .inr (le_trans (not_lt.mp hge) (hne ▸ hle))
      · exact .inl ⟨r, hstays _ r hr hne, hle⟩
    · exact .inr hle

/-- The buckets from which the timer thread has taken the tasks. -/
theorem Signals.take (h : Signals s) {i : Fin n} (hpc : s.pc = .take i) :
    Signals { s with buckets := update s.buckets i ⟨MAX, []⟩, pc := .delete i (s.buckets i).tasks } := by
  refine ⟨?_, h.nearest, h.inserts, ?_, by simp⟩
  · intro b
    by_cases hb : b = i
    · subst hb
      simp only [update_self]
      exact ⟨by simp, .inl rfl, by simp⟩
    · simp only [update_of_ne hb]
      exact h.buckets b
  · intro b hvisited x hx
    by_cases hb : b = i
    · subst hb
      simp only [update_self] at hx
      cases hx
    · simp only [update_of_ne hb] at hx
      have hlt : b.val < i.val := Nat.lt_of_le_of_ne hvisited fun heq => hb (Fin.ext heq)
      exact h.covered b (by rw [hpc]; exact hlt) x hx

/-- The timer thread goes to sleep: the minimum is not earlier than what it waits for. -/
theorem Signals.sleep (h : Signals s) {w : Int} (hpc : s.pc = .sleep w) (hle : w ≤ s.nearestRunTime) :
    Signals { s with nearestRunTime := w, pc := .waiting w s.nsignals } := by
  refine ⟨h.buckets, le_trans hle h.nearest, h.inserts, ?_, ?_⟩
  · intro b _ x hx
    rcases h.covered b (by rw [hpc]; trivial) x hx with hpending | hx
    · exact .inl hpending
    · exact .inr (le_trans hle hx)
  · intro w' e hw
    cases hw
    exact ⟨le_rfl, fun _ => rfl⟩

theorem Signals.run (h : Signals s) (htimes : SameTimes s s') (hn : s.run t = some s') : Signals s' := by
  revert hn
  fun_cases Timer.run s t <;> intro hn <;> cases hn
  case case1 hpc => exact ⟨h.buckets, le_rfl, h.inserts, by simp, by simp⟩
  case case2 i hpc hi hempty =>
    refine h.goto htimes rfl rfl rfl rfl (fun b hb => ?_) (by simp [Timer.goto])
    by_cases hbi : b.val = i
    · subst hbi
      exact .inr hempty
    · refine .inl ?_
      rw [hpc]
      have hb : b.val < i + 1 := hb
      show b.val < i
      omega
  case case3 i hpc hi hne =>
    exact h.goto htimes rfl rfl rfl rfl (fun b hb => .inl (by rw [hpc]; exact hb)) (by simp [Timer.goto])
  case case4 i hpc hi =>
    refine h.goto htimes rfl rfl rfl rfl (fun b _ => .inl ?_) (by simp [Timer.goto])
    rw [hpc]
    exact Nat.lt_of_lt_of_le b.isLt (not_lt.mp hi)
  case case5 i hpc hempty =>
    refine h.goto htimes rfl rfl rfl rfl (fun b hb => ?_) (by simp [Timer.goto])
    by_cases hbi : b = i
    · subst hbi
      exact .inr hempty
    · refine .inl ?_
      rw [hpc]
      exact Nat.lt_of_le_of_ne (Nat.le_of_lt_succ hb) fun heq => hbi (Fin.ext heq)
  case case6 i hpc hne => exact h.take hpc
  case case7 i hpc =>
    exact h.goto htimes rfl rfl rfl rfl (fun b hb => .inl (by rw [hpc]; exact Nat.le_of_lt_succ hb)) (by simp [Timer.goto])
  case case8 i x rest hpc =>
    have hvisited : ∀ b, Pc.visited b (.delete i rest : Pc n) → s.pc.visited b ∨ (s.buckets b).tasks = [] := by
      intro b hb
      rw [hpc]
      exact .inl hb
    revert htimes
    rw [Timer.tryDelete]
    repeat' split
    all_goals exact fun htimes => h.goto htimes rfl rfl rfl rfl hvisited (by simp [Timer.goto])
  case case15 x hpc =>
    revert htimes
    rw [Timer.runAndDelete]
    repeat' split
    all_goals exact fun htimes => h.goto htimes rfl rfl rfl rfl (by simp [hpc]) (by simp [Timer.goto])
  case case19 w hpc hle => exact h.sleep hpc (not_lt.mp hle)
  all_goals exact h.goto htimes rfl rfl rfl rfl (by simp [*]) (by simp [Timer.goto])

theorem Signals.next (h : Signals s) (hs : Slots s) (hd : Did s s') {a : Act n} (hn : s.next a = some s') : Signals s' := by
  have htimes := hd.sameTimes hs
  cases a with
  | run t => exact h.run htimes hn
  | schedule b t runTime =>
    obtain ⟨⟨hslot, hmax⟩, rfl⟩ := ite_some_none_eq_some.mp hn
    exact h.schedule hs hslot hmax htimes
  | insert b t =>
    obtain ⟨hc, rfl⟩ := ite_some_none_eq_some.mp hn
    exact h.insert hc
  | publish runTime =>
    obtain ⟨_, rfl⟩ := ite_some_none_eq_some.mp hn
    exact h.publish
  | wake =>
    obtain ⟨_, rfl⟩ := ite_some_none_eq_some.mp hn
    refine h.frame htimes rfl rfl rfl (fun r hr => mem_replace_of_ne (by simp) hr) ?_ (fun _ hb => .inl hb) fun _ _ hw => hw
    intro b x hx
    rcases Threads.mem_replace hx with hx | hx
    · cases hx
    · exact h.inserts b x hx
  | unschedule t version =>
    obtain ⟨_, rfl⟩ := ite_some_none_eq_some.mp hn
    revert htimes
    rw [unschedule]
    split
    · intro htimes
      refine h.frame htimes rfl rfl rfl (fun _ hr => hr) ?_ (fun _ hb => .inl hb) fun _ _ hw => hw
      intro b x hx
      rw [htimes x (uses_of_insert hx)]
      exact h.inserts b x hx
    · exact fun _ => h
  | tick now =>
    obtain ⟨_, rfl⟩ := ite_some_none_eq_some.mp hn
    exact ⟨h.buckets, h.nearest, h.inserts, h.covered, h.waits⟩

/-! Runs. -/

structure Inv (s : Timer n) : Prop where
  slots : Slots s
  timely : Timely s
  records : Records s
  signals : Signals s

theorem inv_reachable (h : (timerMachine n).Reachable s) : Inv s := by
  refine h.invariant (I := Inv) ?_ ?_
  · rintro s ⟨now, rfl⟩
    refine ⟨?_, .other (by simp [new]) (by simp [new]), ?_, ?_⟩
    · refine ⟨?_, ?_, ?_, ?_, ?_, ?_, rfl⟩ <;> simp [new, uses]
    · refine ⟨?_, ?_, ?_, ?_, ?_, ?_⟩ <;> simp [new, uses]
    · refine ⟨?_, le_rfl, ?_, ?_, ?_⟩
      · exact fun b => ⟨by simp [new], .inl rfl, by simp [new]⟩
      all_goals simp [new]
  · intro s a s' hi hn
    have hd := next_did hi.slots hi.timely.heap hn
    refine ⟨hi.slots.did hd, hi.timely.next hi.slots hn, ?_, hi.signals.next hi.slots hd hn⟩
    exact hi.records.did hi.slots (fun t ht => hi.timely.due t (.inr ht)) hd

/-- The call has still to publish a time that is not later than `runTime`. -/
def Caller.publishes (mem : Nat → Task) (runTime : Int) : Caller n → Prop
  | .insert _ t => (mem t).runTime ≤ runTime
  | .publish r => r ≤ runTime
  | .wake => False

/-- While the timer thread waits, a task outside of the heap is in a call or in a bucket. -/
theorem waiting_place {w : Int} {e : Nat} (hpc : s.pc = .waiting w e) (hused : 0 < s.uses t) (hheap : t ∉ s.heap) :
    (∃ b, .insert b t ∈ s.callers) ∨ ∃ b, t ∈ (s.buckets b).tasks := by
  by_contra hnone
  obtain ⟨hcallers, hbuckets⟩ := not_or.mp hnone
  have hzero : (s.callers.map (·.holds t)).sum = 0 := by
    apply Multiset.sum_eq_zero
    intro k hk
    obtain ⟨c, hc, rfl⟩ := Multiset.mem_map.mp hk
    cases c with
    | insert b x =>
      apply if_neg
      rintro rfl
      exact hcallers ⟨b, hc⟩
    | _ => rfl
  have hempty : ∑ b, (s.buckets b).tasks.count t = 0 := by
    apply Finset.sum_eq_zero
    intro b _
    apply List.count_eq_zero_of_not_mem
    exact fun ht => hbuckets ⟨b, ht⟩
  have hout : s.heap.count t = 0 := List.count_eq_zero_of_not_mem hheap
  rw [uses, hzero, hempty, hout, hpc] at hused
  exact Nat.lt_irrefl 0 hused

theorem Inv.not_slept_past (h : Inv s) {w : Int} {e : Nat} (hpc : s.pc = .waiting w e) (hused : 0 < s.uses t)
    (hheap : t ∉ s.heap) (hearly : (s.mem t).runTime < w) :
    s.nsignals ≠ e ∨ ∃ c ∈ s.callers, c.publishes s.mem (s.mem t).runTime := by
  rcases waiting_place hpc hused hheap with ⟨b, hc⟩ | ⟨b, ht⟩
  · exact .inr ⟨_, hc, le_rfl⟩
  · rcases h.signals.covered b (by rw [hpc]; trivial) t ht with ⟨r, hr, hle⟩ | hle
    · exact .inr ⟨_, hr, hle⟩
    · refine .inl fun heq => ?_
      have := (h.signals.waits w e hpc).2 heq
      omega

/-- What `unschedule` returns for an id that was given out. -/
theorem Inv.unschedule_result (h : Inv s) {j : Job} (hj : j ∈ s.issued) :
    ((s.unschedule j.slot j.version).2 = 1 → s.pc = .running j.slot ∧ (s.mem j.slot).taskId = j.version) ∧
    ((s.mem j.slot).taskId ≠ j.version ∨ s.uses j.slot = 0 → s.unschedule j.slot j.version = (s, -1)) := by
  have hids := h.slots.ids j hj
  have hlive := h.slots.live j.slot
  have hidle := h.slots.idle j.slot
  rw [unschedule]
  refine ⟨?_, ?_⟩
  · intro hone
    split at hone
    · cases hone
    · split at hone
      · next hversion =>
        rcases hlive with heq | heq | ⟨hrun, heq⟩
        · omega
        · omega
        · exact ⟨hrun, by omega⟩
      · cases hone
  · intro hold
    have hne : (s.mem j.slot).version ≠ j.version ∧ (s.mem j.slot).version ≠ j.version + 1 := by
      rcases hold with hold | hnone
      · rcases hlive with heq | heq | ⟨_, heq⟩ <;> omega
      · have := hidle hnone
        omega
    rw [if_neg hne.1, if_neg hne.2]

/-- **Timer tasks.** The impossible branches are not taken. A function is started once per id and
    not before its time, and never after `unschedule` of the id returned 0; a result of 1 means
    that it runs, and an id whose use of the slot is over changes nothing. A slot is in one place,
    and a use of it is returned once or still in a place. While the timer thread waits, no task of
    its heap is earlier, and for every other task that is, `_nsignals` has changed or a call has
    still to publish a time that is not later. -/
theorem timer_tasks_run_once_on_time (h : (timerMachine n).Reachable s) :
    s.crashed = false ∧
    (s.issued.map Job.id).Nodup ∧ (s.started.map fun r => r.1.id).Nodup ∧
    (∀ r ∈ s.started, r.1 ∈ s.issued ∧ r.1.runTime ≤ r.2 ∧ r.1.id ∉ s.unscheduled) ∧
    (∀ j ∈ s.issued,
      ((s.unschedule j.slot j.version).2 = 1 → s.pc = .running j.slot ∧ (s.mem j.slot).taskId = j.version) ∧
      ((s.mem j.slot).taskId ≠ j.version ∨ s.uses j.slot = 0 → s.unschedule j.slot j.version = (s, -1))) ∧
    (∀ t, s.free.count t + s.uses t = if t < s.created then 1 else 0) ∧
    (∀ j, s.issued.count j = s.returned.count j + if j = s.job j.slot then s.uses j.slot else 0) ∧
    ∀ w e, s.pc = .waiting w e → (∀ t ∈ s.heap, w ≤ (s.mem t).runTime) ∧
      ∀ t, 0 < s.uses t → t ∉ s.heap → (s.mem t).runTime < w →
        s.nsignals ≠ e ∨ ∃ c ∈ s.callers, c.publishes s.mem (s.mem t).runTime := by
  have hi := inv_reachable h
  refine ⟨hi.slots.fine, hi.records.nodup, hi.records.once, ?_, fun j hj => hi.unschedule_result hj, hi.slots.place,
    hi.records.ledger, ?_⟩
  · intro r hr
    obtain ⟨hissued, _, htime⟩ := hi.records.started r hr
    exact ⟨hissued, htime, hi.records.apart r hr⟩
  · intro w e hpc
    refine ⟨hi.timely.ahead w (.inr ⟨e, hpc⟩), ?_⟩
    intro t hused hheap hearly
    exact hi.not_slept_past hpc hused hheap hearly

/-- The timer thread waits for a task at 5 while one at 3 is put into the bucket. -/
def earlierTask : List (Act 1) :=
  [.schedule 0 0 5, .insert 0 0, .publish 5, .wake, .run 0, .run 0, .run 0, .run 0, .run 0, .run 0, .run 0, .run 0,
    .schedule 0 1 3, .insert 0 1]

theorem earlierTask_covered :
    ∃ s, (timerMachine 1).Run earlierTask s ∧ s.pc = .waiting 5 1 ∧ (s.mem 1).runTime = 3 ∧
      (s.nsignals ≠ 1 ∨ ∃ c ∈ s.callers, c.publishes s.mem (s.mem 1).runTime) := by
  obtain ⟨s, hrun, hpc, htime, hused, hheap⟩ : ∃ s, (timerMachine 1).Run earlierTask s ∧ s.pc = .waiting 5 1 ∧
      (s.mem 1).runTime = 3 ∧ 0 < s.uses 1 ∧ 1 ∉ s.heap :=
    Machine.exists_run ⟨0, rfl⟩ (by decide +kernel)
  have hcovered := (timer_tasks_run_once_on_time ⟨_, hrun⟩).2.2.2.2.2.2.2 5 1 hpc
  exact ⟨s, hrun, hpc, htime, hcovered.2 1 hused hheap (by omega)⟩

end LightRpc.TimerThread

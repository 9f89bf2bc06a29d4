import LightRpc.CompletionQueues

/- What holds along every run of the completion queues.

   A state without a poller is settled: every queue is armed or on the channel, an armed
   queue holds nothing that would have fired its arm, and if the channel is not empty
   somebody has still to count it. `Pc.Holds` says how much of that the poller has
   established at each of its program counters; what the others do (a completion, a
   notification, a callback) keeps it (`Keeps`), and what the poller does takes it to
   its next program counter (`pollStep_holds`). -/
namespace LightRpc.CompletionQueues

open Lib Multiset

variable {s s' : PollState} {q q' : Cqs} {pc : Pc} {cq cq' : Cq} {N N' : Prop} {ok : Bool} {r : PollState × List Pc}
  {n : Nat} {rest : Multiset Pc}

/-! What the poller establishes. -/

def Cqs.WellArmed (q : Cqs) : Prop := ∀ cq, q.armed cq = none ∨ q.armed cq = some cq.solicitedOnly

/-- An event of the queue is to come or on the channel. -/
def Cqs.Covered (q : Cqs) (cq : Cq) : Prop := q.armed cq ≠ none ∨ cq ∈ q.channel

/-- If the queue is armed, nothing in it would have fired the arm. -/
def Cqs.Quiet (q : Cqs) (cq : Cq) : Prop :=
  q.armed cq ≠ none → ∀ c ∈ q.entries cq, fires (some cq.solicitedOnly) c = false

/-- What is on the channel will be counted (`noticed`), or was since `progress`. -/
def Watched (q : Cqs) (nevent : Nat) (noticed : Prop) (progress : Nat) : Prop :=
  progress ≤ nevent ∧ (q.channel ≠ [] → noticed ∨ nevent ≠ progress)

/-- `PollCq`, from the moment `AddReadEvent` returned true. -/
def Pc.polling : Pc → Bool
  | .onCompChannelEvent | .addReadEvent | .fetchAdd => false
  | _ => true

def Pc.Holds (q : Cqs) (nevent : Nat) (noticed : Prop) : Pc → Prop
  | .getAndAckEvents progress => progress ≤ nevent
  | .loop phase notified progress | .poll phase notified progress =>
    Watched q nevent noticed progress ∧
    (notified = true → ∀ cq, q.Covered cq ∧ (cq.phase < phase.phase → q.Quiet cq))
  | .handle _ progress _ => Watched q nevent noticed progress
  | .reqNotify cq progress =>
    Watched q nevent noticed progress ∧ ∀ cq', cq'.phase < cq.phase → q.Covered cq'
  | .moreReadEvents progress =>
    Watched q nevent noticed progress ∧ ∀ cq, q.Covered cq ∧ q.Quiet cq
  | _ => True

/-- A notification is outstanding: on the ready list, or in a callback that has not counted. -/
def PollState.Noticed (s : PollState) : Prop := s.ready = true ∨ ∃ pc ∈ s.threads, pc.polling = false

def PollState.pollers (s : PollState) : Nat := s.threads.countP (fun pc => pc.polling = true)

structure PollInv (s : PollState) : Prop where
  small : s.nevent < 2 ^ 32
  running : s.stop = false
  armed : s.cqs.WellArmed
  owner : s.pollers = if s.nevent = 0 then 0 else 1
  holds : ∀ pc ∈ s.threads, pc.Holds s.cqs s.nevent s.Noticed
  free : s.nevent = 0 → (s.cqs.channel ≠ [] → s.Noticed) ∧ ∀ cq, s.cqs.Covered cq ∧ s.cqs.Quiet cq

/-! What the other threads keep. -/

structure Keeps (q q' : Cqs) (nevent nevent' : Nat) (noticed noticed' : Prop) : Prop where
  count : nevent ≤ nevent'
  covered : ∀ cq, q.Covered cq → q'.Covered cq
  quiet : ∀ cq, q.Quiet cq → q'.Quiet cq
  watched : ∀ progress, Watched q nevent noticed progress → Watched q' nevent' noticed' progress

theorem Keeps.holds {n' : Nat} (h : Keeps q q' n n' N N') (hpc : pc.Holds q n N) : pc.Holds q' n' N' := by
  cases pc with
  | getAndAckEvents progress => exact Nat.le_trans hpc h.count
  | loop phase notified progress | poll phase notified progress =>
    exact ⟨h.watched _ hpc.1, fun hn cq => ⟨h.covered cq (hpc.2 hn cq).1, fun hlt => h.quiet cq ((hpc.2 hn cq).2 hlt)⟩⟩
  | handle phase progress wc => exact h.watched _ hpc
  | reqNotify cq progress => exact ⟨h.watched _ hpc.1, fun cq' hlt => h.covered cq' (hpc.2 cq' hlt)⟩
  | moreReadEvents progress =>
    exact ⟨h.watched _ hpc.1, fun cq => ⟨h.covered cq (hpc.2 cq).1, h.quiet cq (hpc.2 cq).2⟩⟩
  | _ => trivial

/-- The queues are as they were, and whatever was noticed still is. -/
theorem Keeps.of_noticed (h : q.channel ≠ [] → N → N') : Keeps q q n n N N' where
  count := Nat.le_refl n
  covered := fun _ => id
  quiet := fun _ => id
  watched := fun _ hw => ⟨hw.1, fun hne => (hw.2 hne).imp_left (h hne)⟩

/-- A callback counts itself. -/
theorem Keeps.counted : Keeps q q n (n + 1) N N' where
  count := Nat.le_succ n
  covered := fun _ => id
  quiet := fun _ => id
  watched := fun _ hw => ⟨Nat.le_succ_of_le hw.1, fun _ => .inr (Nat.ne_of_gt (Nat.lt_succ_of_le hw.1))⟩

/-- A completion either fires the arm, and is noticed, or is none the arm is for. -/
theorem Keeps.complete {c : Completion} (hq : q.WellArmed) (hN : N → N') (hfires : fires (q.armed cq) c → N') :
    Keeps q (q.complete cq c) n n N N' := by
  unfold Cqs.complete
  split
  · rename_i hf
    refine ⟨Nat.le_refl n, fun cq' hc => ?_, fun cq' hc => ?_, fun _ hw => ⟨hw.1, fun _ => .inl (hfires hf)⟩⟩
    · rcases eq_or_ne cq' cq with rfl | hne
      · exact .inr (by simp [Cqs.fire])
      · refine hc.imp (fun ha => ?_) (fun hm => List.mem_append_left _ hm)
        simpa [Cqs.fire, Cqs.enqueue, hne] using ha
    · rcases eq_or_ne cq' cq with rfl | hne
      · intro ha
        simp [Cqs.fire] at ha
      · simpa [Cqs.Quiet, Cqs.fire, Cqs.enqueue, hne] using hc
  · rename_i hf
    refine ⟨Nat.le_refl n, fun _ => id, fun cq' hc => ?_, fun _ hw => ⟨hw.1, fun hne => (hw.2 hne).imp_left hN⟩⟩
    rcases eq_or_ne cq' cq with rfl | hne
    · intro ha x hx
      have hx : x ∈ q.entries cq' ++ [c] := by simpa [Cqs.enqueue] using hx
      rcases List.mem_append.mp hx with hx | hx
      · exact hc ha x hx
      · rw [List.mem_singleton.mp hx, ← (hq cq').resolve_left ha]
        exact Bool.eq_false_iff.mpr hf
    · simpa [Cqs.Quiet, Cqs.enqueue, hne] using hc

theorem complete_wellArmed (hq : q.WellArmed) (cq : Cq) (c : Completion) : (q.complete cq c).WellArmed := by
  intro cq'
  unfold Cqs.complete
  split
  · rcases eq_or_ne cq' cq with rfl | hne
    · exact .inl (by simp [Cqs.fire])
    · simpa [Cqs.fire, Cqs.enqueue, hne] using hq cq'
  · exact hq cq'

/-! What the poller does. -/

theorem Cq.phase_lt_next {next : Cq} (hnext : cq.next = some next) (h : cq'.phase < next.phase) :
    cq'.phase < cq.phase ∨ cq' = cq := by
  cases cq <;> cases cq' <;> cases hnext <;> first | exact .inr rfl | exact .inl (by decide) | exact absurd h (by decide)

theorem Cq.phase_lt_last (hnext : cq.next = none) : cq'.phase < cq.phase ∨ cq' = cq := by
  cases cq <;> cases cq' <;> cases hnext <;> first | exact .inr rfl | exact .inl (by decide)

theorem quiet_of_empty (h : q.entries cq = []) : q.Quiet cq := by
  intro _ c hc
  rw [h] at hc
  cases hc

/-- The scan has found `cqs[phase]` empty. -/
theorem drained_holds {phase : Cq} {notified : Bool} {progress : Nat}
    (hpc : (Pc.poll phase notified progress).Holds q n N) (hempty : q.entries phase = []) :
    (drained phase notified progress).Holds q n N := by
  obtain ⟨hw, hscan⟩ := hpc
  have hquiet : notified = true → ∀ cq, cq.phase < phase.phase ∨ cq = phase → q.Quiet cq := by
    rintro hn cq (hlt | rfl)
    · exact (hscan hn cq).2 hlt
    · exact quiet_of_empty hempty
  unfold drained
  split
  · rename_i next hnext
    exact ⟨hw, fun hn cq => ⟨(hscan hn cq).1, fun hlt => hquiet hn cq (Cq.phase_lt_next hnext hlt)⟩⟩
  · rename_i hnext
    split
    · rename_i hn
      exact ⟨hw, fun cq => ⟨(hscan hn cq).1, hquiet hn cq (Cq.phase_lt_last hnext)⟩⟩
    · exact ⟨hw, fun cq hlt => absurd hlt (Nat.not_lt_zero _)⟩

theorem reqNotify_covered {solicitedOnly : Bool} (h : q.Covered cq' ∨ cq' = cq) :
    (q.reqNotify cq solicitedOnly).Covered cq' := by
  rcases eq_or_ne cq' cq with rfl | hne
  · exact .inl (by simp [Cqs.reqNotify])
  · refine (h.resolve_right hne).imp_left fun ha => ?_
    simpa [Cqs.reqNotify, hne] using ha

theorem reqNotify_wellArmed (hq : q.WellArmed) (cq : Cq) : (q.reqNotify cq cq.solicitedOnly).WellArmed := by
  intro cq'
  rcases eq_or_ne cq' cq with rfl | hne
  · right
    rcases hq cq' with h | h <;> cases hs : cq'.solicitedOnly <;> simp [Cqs.reqNotify, h, hs]
  · simpa [Cqs.reqNotify, hne] using hq cq'

theorem reqNotify_holds {progress : Nat} {solicitedOnly : Bool} (hpc : (Pc.reqNotify cq progress).Holds q n N) :
    (afterArm cq progress).Holds (q.reqNotify cq solicitedOnly) n N := by
  obtain ⟨hw, harmed⟩ := hpc
  unfold afterArm
  split
  · rename_i next hnext
    refine ⟨hw, fun cq' hlt => reqNotify_covered ?_⟩
    exact (Cq.phase_lt_next hnext hlt).imp_left (harmed cq')
  · rename_i hnext
    refine ⟨hw, fun _ cq' => ⟨reqNotify_covered ?_, fun hlt => absurd hlt (Nat.not_lt_zero _)⟩⟩
    exact (Cq.phase_lt_last hnext).imp_left (harmed cq')

theorem drained_polling (phase : Cq) (notified : Bool) (progress : Nat) :
    (drained phase notified progress).polling := by
  unfold drained
  split
  · rfl
  · split <;> rfl

theorem afterArm_polling (cq : Cq) (progress : Nat) : (afterArm cq progress).polling := by
  unfold afterArm
  split <;> rfl

/-- What a step of the poller leads to: its next program counter with what holds there, or
    the end of `PollCq` in a settled state. -/
inductive Polled (s : PollState) (N : Prop) : PollState × List Pc → Prop where
  | goto {q : Cqs} {pc : Pc} : pc.polling = true → q.WellArmed → pc.Holds q s.nevent N →
      Polled s N (s.withCqs q, [pc])
  | release : (s.cqs.channel ≠ [] → N) → (∀ cq, s.cqs.Covered cq ∧ s.cqs.Quiet cq) →
      Polled s N ({ s with nevent := 0 }, [])

theorem pollStep_holds (harmed : s.cqs.WellArmed) (hrun : s.stop = false) (hpos : 0 < s.nevent)
    (hpc : pc.Holds s.cqs s.nevent N) (h : pollStep s pc ok = some r) (hok : r.1.failed = false) : Polled s N r := by
  have stay : ∀ {pc' : Pc}, pc'.polling = true → pc'.Holds s.cqs s.nevent N → Polled s N (s, [pc']) :=
    fun hpolling hholds => .goto (q := s.cqs) hpolling harmed hholds
  revert h
  fun_cases pollStep s pc ok <;> intro h <;> cases h
  case case1 hstop => simp [hrun] at hstop
  case case2 => exact stay rfl hpos
  case case3 => exact .goto rfl harmed hpc
  case case4 hempty => exact .goto rfl harmed ⟨⟨hpc, fun hne => absurd hempty hne⟩, nofun⟩
  case case5 hstop => simp [hrun] at hstop
  case case6 => exact stay rfl hpc
  case case7 hempty => exact stay (drained_polling _ _ _) (drained_holds hpc hempty)
  case case8 => exact .goto rfl harmed hpc.1
  case case9 => exact stay rfl ⟨hpc, nofun⟩
  case case11 => exact .goto (afterArm_polling _ _) (reqNotify_wellArmed harmed _) (reqNotify_holds hpc)
  case case12 => exact .release (fun hne => (hpc.1.2 hne).resolve_right (absurd rfl)) hpc.2
  case case13 => exact stay rfl (Nat.le_refl _)
  -- the failures
  all_goals cases hok

/-! Runs. -/

/-- A callback holds nothing. -/
theorem holds_of_callback (h : pc.polling = false) (q : Cqs) (n : Nat) (N : Prop) : pc.Holds q n N := by
  cases pc <;> trivial

/-- Steps that keep what the poller holds and leave the count alone keep the invariant. -/
theorem PollInv.of_keeps (hinv : PollInv s) (hcount : s'.nevent = s.nevent)
    (hk : Keeps s.cqs s'.cqs s.nevent s.nevent s.Noticed s'.Noticed) (hstop : s'.stop = s.stop)
    (harmed : s'.cqs.WellArmed) (hpollers : s'.pollers = s.pollers)
    (hthreads : ∀ pc ∈ s'.threads, pc ∈ s.threads ∨ pc.Holds s'.cqs s.nevent s'.Noticed) : PollInv s' where
  small := hcount ▸ hinv.small
  running := hstop.trans hinv.running
  armed := harmed
  owner := by rw [hpollers, hcount, hinv.owner]
  holds := fun pc hpc => by
    rw [hcount]
    exact (hthreads pc hpc).elim (fun hold => hk.holds (hinv.holds pc hold)) id
  free := fun hzero => by
    rw [hcount] at hzero
    obtain ⟨hchannel, hsettled⟩ := hinv.free hzero
    have hwatched := hk.watched s.nevent ⟨Nat.le_refl _, fun hne => .inl (hchannel hne)⟩
    exact ⟨fun hne => (hwatched.2 hne).resolve_right (absurd rfl),
      fun cq => ⟨hk.covered cq (hsettled cq).1, hk.quiet cq (hsettled cq).2⟩⟩

/-- A step of one thread, with the others around it. -/
theorem pollers_cons (h : s.threads = pc ::ₘ rest) :
    s.pollers = rest.countP (fun pc => pc.polling = true) + if pc.polling = true then 1 else 0 := by
  rw [PollState.pollers, h, countP_cons]

/-- `OnCompChannelEvent` before it counts: it stays outstanding. -/
theorem PollInv.callback (hinv : PollInv s) (pc' : Pc) (hmem : pc ∈ s.threads) (hpc : pc.polling = pc'.polling)
    (hholds : pc'.Holds s.cqs s.nevent s'.Noticed)
    (hs' : s' = { s with threads := Threads.replace s.threads pc [pc'] }) : PollInv s' := by
  obtain ⟨rest, hthreads, hreplace⟩ := Threads.replace_spec hmem [pc']
  have hnew : s'.threads = pc' ::ₘ rest := by
    rw [hs']
    exact hreplace
  have hnoticed : s.Noticed → s'.Noticed := by
    rintro (hready | ⟨x, hx, hxpc⟩)
    · exact .inl (by rw [hs']; exact hready)
    · refine .inr ?_
      rw [hthreads] at hx
      rcases mem_cons.mp hx with rfl | hx
      · exact ⟨pc', by simp [hnew], hpc ▸ hxpc⟩
      · exact ⟨x, by simp [hnew, hx], hxpc⟩
  have hpollers : s'.pollers = s.pollers := by rw [pollers_cons hthreads, pollers_cons hnew, hpc]
  subst hs'
  refine hinv.of_keeps rfl (.of_noticed fun _ => hnoticed) rfl hinv.armed hpollers fun x hx => ?_
  rw [hnew] at hx
  rcases mem_cons.mp hx with rfl | hx
  · exact .inr hholds
  · exact .inl (hthreads ▸ mem_cons_of_mem hx)

/-- The fetch-and-add of `AddReadEvent`, unless it wraps. -/
theorem PollInv.fetchAdd (hinv : PollInv s) (hmem : .fetchAdd ∈ s.threads) (hwrap : s.nevent + 1 ≠ 2 ^ 32)
    {ts : List Pc} (hts : ts = if s.nevent = 0 then [.startPollCq] else []) :
    PollInv { s with nevent := (s.nevent + 1) % 2 ^ 32, threads := Threads.replace s.threads .fetchAdd ts } := by
  obtain ⟨rest, hthreads, hreplace⟩ := Threads.replace_spec hmem ts
  have hcount : (s.nevent + 1) % 2 ^ 32 = s.nevent + 1 := Nat.mod_eq_of_lt (by have := hinv.small; omega)
  rw [hreplace, hcount]
  have howner := hinv.owner
  rw [pollers_cons hthreads, if_neg (by decide)] at howner
  have hstart : Pc.startPollCq.polling = true := rfl
  refine ⟨by have := hinv.small; show s.nevent + 1 < _; omega, hinv.running, hinv.armed, ?_, ?_, nofun⟩
  · simp only [PollState.pollers, countP_add, coe_countP, hts]
    by_cases hzero : s.nevent = 0 <;> simpa [hzero, hstart] using howner
  · intro pc hpc
    rcases mem_add.mp hpc with hpc | hpc
    · -- the new poller has nothing to hold yet
      rw [hts] at hpc
      split at hpc
      · rw [List.mem_singleton.mp hpc]
        trivial
      · cases hpc
    · exact Keeps.counted.holds (hinv.holds pc (hthreads ▸ mem_cons_of_mem hpc))

/-- A step of the poller: the others are callbacks. -/
theorem PollInv.polled (hinv : PollInv s) (hmem : pc ∈ s.threads) (hpc : pc.polling)
    (hr : Polled s s.Noticed r) (hs' : s' = { r.1 with threads := Threads.replace s.threads pc r.2 }) : PollInv s' := by
  obtain ⟨rest, hthreads, hreplace⟩ := Threads.replace_spec hmem r.2
  have howner := hinv.owner
  rw [pollers_cons hthreads, if_pos hpc] at howner
  have hrest : rest.countP (fun pc => pc.polling = true) = 0 ∧ s.nevent ≠ 0 := by
    split at howner
    · omega
    · exact ⟨by omega, by assumption⟩
  have hothers : ∀ x ∈ rest, x.polling = false := fun x hx =>
    Bool.eq_false_iff.mpr (countP_eq_zero.mp hrest.1 x hx)
  rw [hreplace] at hs'
  have hnoticed : ∀ {t : PollState}, t.ready = s.ready → t.threads = ↑r.2 + rest → s.Noticed → t.Noticed := by
    rintro t hready hts (hn | ⟨x, hx, hxpc⟩)
    · exact .inl (hready.trans hn)
    · rw [hthreads] at hx
      rcases mem_cons.mp hx with rfl | hx
      · rw [hpc] at hxpc
        cases hxpc
      · exact .inr ⟨x, by rw [hts]; exact mem_add.mpr (.inr hx), hxpc⟩
  cases hr with
  | @goto q pc' hpolling harmed hholds =>
    subst hs'
    have hn := hnoticed (t := ⟨q, s.ready, s.nevent, s.failed, s.stop, ↑[pc'] + rest⟩) rfl rfl
    refine ⟨hinv.small, hinv.running, harmed, ?_, fun x hx => ?_, fun hzero => absurd hzero hrest.2⟩
    · simp [PollState.pollers, PollState.withCqs, hrest, hpolling]
    · rcases mem_add.mp hx with hx | hx
      · rw [List.mem_singleton.mp hx]
        exact (Keeps.of_noticed fun _ => hn).holds hholds
      · exact holds_of_callback (hothers x hx) _ _ _
  | release hchannel hsettled =>
    subst hs'
    have hn := hnoticed (t := ⟨s.cqs, s.ready, 0, s.failed, s.stop, ↑([] : List Pc) + rest⟩) rfl rfl
    refine ⟨Nat.two_pow_pos 32, hinv.running, hinv.armed, ?_, fun x hx => ?_, fun _ => ⟨fun hne => hn (hchannel hne), hsettled⟩⟩
    · simp [PollState.pollers, hrest.1]
    · rcases mem_add.mp hx with hx | hx
      · cases hx
      · exact holds_of_callback (hothers x hx) _ _ _

/-- No callback's fetch-and-add takes `_nevent` back to 0. -/
def noWrap (s : PollState) : PollAct → Bool
  | .step .fetchAdd _ => s.nevent + 1 != 2 ^ 32
  | _ => true

theorem PollInv.step (hinv : PollInv s) (hok : noWrap s (.step pc ok)) (hn : s.next (.step pc ok) = some s')
    (hf : s'.failed = false) : PollInv s' := by
  simp only [PollState.next, Option.ite_none_right_eq_some] at hn
  obtain ⟨hmem, hn⟩ := hn
  obtain ⟨r, hstep, rfl⟩ := Option.map_eq_some_iff.mp hn
  have hpos : pc.polling = true → 0 < s.nevent := by
    intro hpc
    obtain ⟨rest, hthreads⟩ := exists_cons_of_mem hmem
    have howner := hinv.owner
    rw [pollers_cons hthreads, if_pos hpc] at howner
    split at howner <;> omega
  have hpoll : pollStep s pc ok = some r → pc.polling = true →
      PollInv { r.1 with threads := Threads.replace s.threads pc r.2 } := fun h hpc =>
    hinv.polled hmem hpc (pollStep_holds hinv.armed hinv.running (hpos hpc) (hinv.holds pc hmem) h hf) rfl
  unfold Pc.step at hstep
  split at hstep
  · -- `Address` refuses a failed endpoint only
    cases hfailed : s.failed <;> rw [callbackStep, hfailed] at hstep <;> cases hstep
    · exact hinv.callback .addReadEvent hmem rfl trivial rfl
    · rw [hfailed] at hf
      cases hf
  · simp only [callbackStep, hinv.running] at hstep
    cases hstep
    exact hinv.callback .fetchAdd hmem rfl trivial rfl
  · cases hstep
    exact hinv.fetchAdd hmem (bne_iff_ne.mp hok) rfl
  · cases ok <;> cases hstep
    · cases hf
    · exact hinv.callback .pollCq hmem rfl trivial rfl
  · exact hpoll hstep (by cases pc <;> first | rfl | contradiction)

theorem PollInv.next {a : PollAct} (hinv : PollInv s) (hok : noWrap s a) (hn : s.next a = some s')
    (hf : s'.failed = false) : PollInv s' := by
  cases a with
  | complete cq c =>
    cases hn
    have hnoticed : s.Noticed → PollState.Noticed ⟨s.cqs.complete cq c, s.ready || fires (s.cqs.armed cq) c,
        s.nevent, s.failed, s.stop, s.threads⟩ := Or.imp_left fun h => by simp [h]
    refine hinv.of_keeps rfl (.complete hinv.armed hnoticed fun h => ?_) rfl (complete_wellArmed hinv.armed cq c) rfl
      fun _ => .inl
    exact .inl (by simp [h])
  | epollWait =>
    obtain ⟨_, rfl⟩ := Option.ite_some_none_eq_some.mp hn
    refine hinv.of_keeps rfl (.of_noticed fun _ _ => .inr ⟨_, mem_cons_self _ _, rfl⟩) rfl hinv.armed ?_
      fun x hx => ?_
    · simp [PollState.pollers, show Pc.onCompChannelEvent.polling = false from rfl]
    · rcases mem_cons.mp hx with rfl | hx
      · exact .inr trivial
      · exact .inl hx
  | epollDrop =>
    obtain ⟨⟨_, hempty⟩, rfl⟩ := Option.ite_some_none_eq_some.mp hn
    exact hinv.of_keeps rfl (.of_noticed fun hne => absurd hempty hne) rfl hinv.armed rfl fun _ => .inl
  | setFailed =>
    cases hn
    cases hf
  | storeStop =>
    obtain ⟨hfailed, rfl⟩ := Option.ite_some_none_eq_some.mp hn
    rw [hfailed] at hf
    cases hf
  | step pc ok => exact hinv.step hok hn hf

theorem callbackStep_failed (h : callbackStep s pc ok = some r) (hf : s.failed) : r.1.failed := by
  revert h
  fun_cases callbackStep s pc ok <;> intro h <;> cases h <;> first | exact hf | rfl

theorem pollStep_failed (h : pollStep s pc ok = some r) (hf : s.failed) : r.1.failed := by
  revert h
  fun_cases pollStep s pc ok <;> intro h <;> cases h <;> first | exact hf | rfl

/-- A failed endpoint stays failed. -/
theorem next_failed {a : PollAct} (hn : s.next a = some s') (hf : s.failed) : s'.failed := by
  cases a with
  | step pc ok =>
    simp only [PollState.next, Option.ite_none_right_eq_some] at hn
    obtain ⟨_, hn⟩ := hn
    obtain ⟨r, hstep, rfl⟩ := Option.map_eq_some_iff.mp hn
    unfold Pc.step at hstep
    split at hstep
    all_goals first
      | exact callbackStep_failed hstep hf
      | exact pollStep_failed hstep hf
  | _ =>
    simp only [PollState.next, Option.ite_none_right_eq_some, Option.some.injEq] at hn
    grind

theorem pollInv_allocated : PollInv ⟨.allocated, false, 0, false, false, 0⟩ where
  small := Nat.two_pow_pos 32
  running := rfl
  armed := fun cq => .inr (by cases cq <;> rfl)
  owner := rfl
  holds := fun _ hpc => absurd hpc (notMem_zero _)
  free := fun _ => ⟨absurd rfl, fun cq => ⟨.inl (by cases cq <;> nofun), quiet_of_empty (by cases cq <;> rfl)⟩⟩

theorem pollInv_reachable (h : (pollMachine.guard noWrap).Reachable s) (hf : s.failed = false) : PollInv s := by
  revert hf
  refine h.invariant (I := fun s => s.failed = false → PollInv s) ?_ ?_
  · rintro s rfl _
    exact pollInv_allocated
  · intro s a s' ih hn hf
    obtain ⟨hok, hn⟩ := Machine.guard_next.mp hn
    have hn : s.next a = some s' := hn
    have hbefore : s.failed = false := by
      by_contra hne
      rw [next_failed hn (Bool.not_eq_false _ ▸ hne)] at hf
      cases hf
    exact (ih hbefore).next hok hn hf

/-- **Polling strands no work.** As long as no callback takes the count back to 0, on an
    endpoint that has not failed: at most one `PollCq` is active; while none is, an event
    on the channel has its notification outstanding, and if there is no event, all four
    queues are armed, the send queues are empty and the receive queues hold no solicited
    completion. -/
theorem polling_never_strands {s : PollState} (h : (pollMachine.guard noWrap).Reachable s) (hf : s.failed = false) :
    s.pollers ≤ 1 ∧
    (s.pollers = 0 → s.cqs.channel ≠ [] → s.Noticed) ∧
    (s.pollers = 0 → s.cqs.channel = [] →
      (∀ cq, s.cqs.armed cq = some cq.solicitedOnly) ∧ s.cqs.entries .send = [] ∧ s.cqs.entries .dataSend = [] ∧
      (∀ c ∈ s.cqs.entries .recv, c.solicited = false) ∧ ∀ c ∈ s.cqs.entries .dataRecv, c.solicited = false) := by
  have hinv := pollInv_reachable h hf
  have hzero : s.pollers = 0 → s.nevent = 0 := by
    intro hp
    have howner := hinv.owner
    rw [hp] at howner
    split at howner
    · assumption
    · cases howner
  refine ⟨?_, fun hp => (hinv.free (hzero hp)).1, fun hp hempty => ?_⟩
  · rw [hinv.owner]
    split <;> omega
  · have hsettled := (hinv.free (hzero hp)).2
    have harmed : ∀ cq, s.cqs.armed cq ≠ none := fun cq =>
      (hsettled cq).1.resolve_right (by rw [hempty]; exact List.not_mem_nil)
    have hquiet := fun cq => (hsettled cq).2 (harmed cq)
    have hsend : ∀ cq, cq.solicitedOnly = false → s.cqs.entries cq = [] := by
      intro cq hany
      refine List.eq_nil_iff_forall_not_mem.mpr fun c hc => ?_
      have := hquiet cq c hc
      rw [hany] at this
      cases this
    have hrecv : ∀ cq, cq.solicitedOnly = true → ∀ c ∈ s.cqs.entries cq, c.solicited = false := by
      intro cq honly c hc
      have := hquiet cq c hc
      rw [honly] at this
      exact (Bool.or_eq_false_iff.mp this).1
    exact ⟨fun cq => (hinv.armed cq).resolve_left (harmed cq), hsend _ rfl, hsend _ rfl, hrecv _ rfl, hrecv _ rfl⟩

/-- One queue is found empty. -/
def pollEmpty (notified : Bool) (progress : Nat) (cq : Cq) : List PollAct :=
  [.step (.loop cq notified progress) true, .step (.poll cq notified progress) true]

/-- One completion is polled and handled. -/
def pollOne (progress : Nat) (cq : Cq) (c : Completion) : List PollAct :=
  [.step (.loop cq false progress) true, .step (.poll cq false progress) true, .step (.handle cq progress [c]) true]

def scan (notified : Bool) (progress : Nat) : List PollAct :=
  [Cq.recv, Cq.dataRecv, Cq.send, Cq.dataSend].flatMap (pollEmpty notified progress)

def armAll (progress : Nat) : List PollAct :=
  [Cq.recv, Cq.dataRecv, Cq.send, Cq.dataSend].map fun cq => .step (.reqNotify cq progress) true

def notify : List PollAct :=
  [.epollWait, .step .onCompChannelEvent true, .step .addReadEvent true, .step .fetchAdd true]

def drainOne (progress : Nat) : List PollAct :=
  [.step (.getAndAckEvents progress) true, .step (.getAndAckEvents progress) true]

/-- A message is polled; a send completes after the last scan and before the release. -/
def lateSend : List PollAct :=
  List.flatten [
    [.complete .recv ⟨true, true⟩], notify, [.step .startPollCq true, .step .pollCq true], drainOne 1,
    pollOne 1 .recv ⟨true, true⟩, scan false 1, armAll 1, scan true 1,
    [.complete .send ⟨false, true⟩], notify, [.step (.moreReadEvents 1) true], drainOne 2,
    pollEmpty false 2 .recv, pollEmpty false 2 .dataRecv, pollOne 2 .send ⟨false, true⟩, pollEmpty false 2 .send,
    pollEmpty false 2 .dataSend, armAll 2, scan true 2, [.step (.moreReadEvents 2) true]]

theorem lateSend_polled : ∃ s, (pollMachine.guard noWrap).Run lateSend s ∧ s.failed = false ∧ s.pollers = 0 ∧
    s.cqs.channel = [] ∧ (∀ cq, s.cqs.armed cq = some cq.solicitedOnly) ∧ s.cqs.entries .send = [] := by
  have hexec : ∃ s, (pollMachine.guard noWrap).Run lateSend s ∧ s.failed = false ∧ s.pollers = 0 ∧
      s.cqs.channel = [] := Machine.exists_run rfl (by decide +kernel)
  obtain ⟨s, hrun, hf, hzero, hempty⟩ := hexec
  obtain ⟨_, _, hidle⟩ := polling_never_strands ⟨_, hrun⟩ hf
  obtain ⟨harmed, hsend, _⟩ := hidle hzero hempty
  exact ⟨s, hrun, hf, hzero, hempty, harmed, hsend⟩

/-! Every event is acknowledged once: with `MAX_CQ_EVENTS` or more of its queue at the end of
    a drain, or by `DeallocateResources`. -/

/-- An event is acknowledged, counted for acknowledgement, or still on the channel. -/
def Cqs.Accounted (q : Cqs) : Prop := ∀ cq, q.fired cq = q.acked cq + q.events cq + q.channel.count cq

theorem complete_accounted (hq : q.Accounted) (cq : Cq) (c : Completion) : (q.complete cq c).Accounted := by
  intro cq'
  have := hq cq'
  unfold Cqs.complete
  split
  · rcases eq_or_ne cq' cq with rfl | hne
    · simp [Cqs.fire, Cqs.enqueue, List.count_append, this, Nat.add_assoc]
    · simp [Cqs.fire, Cqs.enqueue, List.count_append, this, hne, hne.symm]
  · exact this

theorem complete_events (q : Cqs) (cq : Cq) (c : Completion) : (q.complete cq c).events = q.events := by
  unfold Cqs.complete
  split <;> rfl

theorem getEvent_accounted {rest : List Cq} (hq : q.Accounted) (hchannel : q.channel = cq :: rest) :
    (q.getEvent cq rest).Accounted := by
  intro cq'
  have := hq cq'
  rw [hchannel, List.count_cons] at this
  rcases eq_or_ne cq' cq with rfl | hne
  · simp [Cqs.getEvent] at this ⊢
    omega
  · simpa [Cqs.getEvent, hne, hne.symm] using this

theorem ackEvents_accounted (hq : q.Accounted) : q.ackEvents.Accounted := by
  intro cq
  have := hq cq
  simp only [Cqs.ackEvents]
  split <;> omega

theorem ackEvents_few (q : Cqs) (cq : Cq) : q.ackEvents.events cq < MAX_CQ_EVENTS := by
  simp only [Cqs.ackEvents]
  split
  · decide
  · omega

theorem deallocateResources_acked (q : Cqs) (cq : Cq) : q.deallocateResources.acked cq = q.acked cq + q.events cq := by
  cases cq <;> rfl

def Pc.draining : Pc → Bool
  | .getAndAckEvents _ => true
  | _ => false

/-- What the step of a thread does to the counters, and how many pollers there are then, with
    `n` elsewhere. -/
structure Acks (s : PollState) (pc : Pc) (r : PollState × List Pc) : Prop where
  accounted : s.cqs.Accounted → r.1.cqs.Accounted
  small : s.nevent < 2 ^ 32 → r.1.nevent < 2 ^ 32
  few : r.1.failed = false → (∀ pc' ∈ r.2, pc'.draining = false) →
    (∀ cq, r.1.cqs.events cq < MAX_CQ_EVENTS) ∨ pc.draining = false ∧ r.1.cqs.events = s.cqs.events
  owner : ∀ n, (n + if pc.polling = true then 1 else 0) ≤ (if s.nevent = 0 then 0 else 1) →
    n + r.2.countP (fun pc => pc.polling = true) ≤ if r.1.nevent = 0 then 0 else 1

/-- A poller goes on with the count it has, or leaves. -/
theorem poller_owner (hpc : pc.polling) (hr : r.1.nevent = s.nevent ∧ r.2.length ≤ 1 ∨ r.2 = []) (n : Nat)
    (hn : (n + if pc.polling = true then 1 else 0) ≤ if s.nevent = 0 then 0 else 1) :
    n + r.2.countP (fun pc => pc.polling = true) ≤ if r.1.nevent = 0 then 0 else 1 := by
  rw [if_pos hpc] at hn
  rcases hr with ⟨hnevent, hone⟩ | hnone
  · have := List.countP_le_length (p := fun pc : Pc => decide (pc.polling = true)) (l := r.2)
    rw [hnevent]
    omega
  · split at hn
    · omega
    · simp only [hnone, List.countP_nil]
      omega

theorem callbackStep_acks (hsmall : s.nevent < 2 ^ 32) (hok : noWrap s (.step pc ok))
    (h : callbackStep s pc ok = some r) : Acks s pc r := by
  revert h
  fun_cases callbackStep s pc ok <;> intro h <;> cases h
  case case5 =>
    have hwrap := bne_iff_ne.mp hok
    have hcount : (s.nevent + 1) % 2 ^ 32 = s.nevent + 1 := Nat.mod_eq_of_lt (by omega)
    refine ⟨id, fun _ => Nat.mod_lt _ (Nat.two_pow_pos 32), fun _ _ => .inr ⟨rfl, rfl⟩, fun n hn => ?_⟩
    simp only [hcount]
    by_cases hzero : s.nevent = 0 <;> simpa [hzero, Pc.polling] using hn
  case case6 | case7 => exact ⟨id, id, fun _ _ => .inr ⟨rfl, rfl⟩, poller_owner rfl (by simp)⟩
  all_goals exact ⟨id, id, fun _ _ => .inr ⟨rfl, rfl⟩, fun _ => id⟩

theorem pollStep_acks (h : pollStep s pc ok = some r) : Acks s pc r := by
  revert h
  fun_cases pollStep s pc ok <;> intro h <;> cases h
  case case3 hchannel =>
    refine ⟨fun hq => getEvent_accounted hq hchannel, id, fun _ hd => ?_, fun _ => id⟩
    exact absurd (hd _ (List.mem_singleton_self _)) nofun
  case case4 => exact ⟨ackEvents_accounted, id, fun _ _ => .inl (ackEvents_few _), fun _ => id⟩
  all_goals
    refine ⟨id, ?_, ?_, poller_owner rfl ?_⟩
    · first
      | exact id
      | exact fun _ => Nat.two_pow_pos 32
    · first
      | exact fun _ _ => .inr ⟨rfl, rfl⟩
      | exact nofun
    · first
      | exact .inl ⟨rfl, Nat.le_refl 1⟩
      | exact .inr rfl

/-- The counters are the one poller's. -/
structure Acking (s : PollState) : Prop where
  small : s.nevent < 2 ^ 32
  owner : s.pollers ≤ if s.nevent = 0 then 0 else 1
  accounted : s.cqs.Accounted
  few : s.failed = false → (∀ pc ∈ s.threads, pc.draining = false) → ∀ cq, s.cqs.events cq < MAX_CQ_EVENTS

theorem Acking.step (h : Acking s) (hok : noWrap s (.step pc ok)) (hn : s.next (.step pc ok) = some s') :
    Acking s' := by
  have hfailed := fun hf => next_failed hn hf
  simp only [PollState.next, Option.ite_none_right_eq_some] at hn
  obtain ⟨hmem, hn⟩ := hn
  obtain ⟨r, hstep, rfl⟩ := Option.map_eq_some_iff.mp hn
  obtain ⟨rest, hthreads, hreplace⟩ := Threads.replace_spec hmem r.2
  have hacks : Acks s pc r := by
    unfold Pc.step at hstep
    split at hstep
    all_goals first
      | exact callbackStep_acks h.small hok hstep
      | exact pollStep_acks hstep
  rw [hreplace]
  refine ⟨hacks.small h.small, ?_, hacks.accounted h.accounted, fun hf hd => ?_⟩
  · have howner := h.owner
    rw [pollers_cons hthreads] at howner
    simpa [PollState.pollers, Nat.add_comm] using hacks.owner _ howner
  · obtain hfew | ⟨hpc, hevents⟩ := hacks.few hf fun x hx => hd x (mem_add.mpr (.inl hx))
    · exact hfew
    · simp only [hevents]
      refine h.few (by grind) fun x hx => ?_
      rw [hthreads] at hx
      rcases mem_cons.mp hx with rfl | hx
      · exact hpc
      · exact hd x (mem_add.mpr (.inr hx))

theorem Acking.next {a : PollAct} (h : Acking s) (hok : noWrap s a) (hn : s.next a = some s') : Acking s' := by
  cases a with
  | complete cq c =>
    cases hn
    exact ⟨h.small, h.owner, complete_accounted h.accounted cq c, (complete_events s.cqs cq c).symm ▸ h.few⟩
  | epollWait =>
    obtain ⟨_, rfl⟩ := Option.ite_some_none_eq_some.mp hn
    refine ⟨h.small, ?_, h.accounted, fun hf hd => h.few hf fun pc hpc => hd pc (mem_cons_of_mem hpc)⟩
    simpa [PollState.pollers, show Pc.onCompChannelEvent.polling = false from rfl] using h.owner
  | epollDrop | storeStop =>
    obtain ⟨_, rfl⟩ := Option.ite_some_none_eq_some.mp hn
    exact ⟨h.small, h.owner, h.accounted, h.few⟩
  | setFailed =>
    cases hn
    exact ⟨h.small, h.owner, h.accounted, nofun⟩
  | step pc ok => exact h.step hok hn

/-- **Every event is acknowledged once, by one poller.** As long as no callback takes the
    count back to 0: at most one `PollCq` is active, also on a failed endpoint, and the
    counters are its own; each event is acknowledged, counted or on the channel; unless
    the channel is being drained or the endpoint has failed, fewer than `MAX_CQ_EVENTS`
    events of a queue are counted; and after `DeallocateResources` all that were taken
    from the channel are acknowledged. -/
theorem events_accounted (h : (pollMachine.guard noWrap).Reachable s) :
    s.pollers ≤ 1 ∧ s.cqs.Accounted ∧
    (s.failed = false → (∀ pc ∈ s.threads, pc.draining = false) → ∀ cq, s.cqs.events cq < MAX_CQ_EVENTS) ∧
    ∀ cq, s.cqs.deallocateResources.acked cq + s.cqs.channel.count cq = s.cqs.fired cq := by
  have hacking : Acking s := by
    refine h.invariant ?_ fun s a s' hi hn => ?_
    · rintro s rfl
      exact ⟨Nat.two_pow_pos 32, Nat.le_refl 0, fun cq => by cases cq <;> rfl, fun _ _ cq => by cases cq <;> decide⟩
    · obtain ⟨hok, hn⟩ := Machine.guard_next.mp hn
      exact hi.next hok hn
  refine ⟨Nat.le_trans hacking.owner (by split <;> omega), hacking.accounted, hacking.few, fun cq => ?_⟩
  rw [deallocateResources_acked]
  exact (hacking.accounted cq).symm

theorem lateSend_accounted : ∃ s, (pollMachine.guard noWrap).Run lateSend s ∧ 0 < s.cqs.fired .send ∧
    s.cqs.events .send < MAX_CQ_EVENTS ∧ s.cqs.deallocateResources.acked .send = s.cqs.fired .send := by
  obtain ⟨s, hrun, hf, hfired, hempty, hleft⟩ : ∃ s, (pollMachine.guard noWrap).Run lateSend s ∧ s.failed = false ∧
      0 < s.cqs.fired .send ∧ s.cqs.channel = [] ∧ s.threads = 0 := Machine.exists_run rfl (by decide +kernel)
  obtain ⟨_, _, hfew, hacked⟩ := events_accounted ⟨_, hrun⟩
  refine ⟨s, hrun, hfired, hfew hf (by simp [hleft]) .send, ?_⟩
  simpa [hempty] using hacked .send

/-! The count comes round after 2^32 callbacks. -/

/-- A solicited completion without error. -/
def message : Completion := ⟨true, true⟩

/-- One thread in the endpoint, at `pc`. -/
def alone (q : Cqs) (nevent : Nat) (pc : Pc) : PollState := ⟨q, false, nevent, false, false, {pc}⟩

section
variable {progress : Nat} {pc' : Pc}

theorem thread_step {n' : Nat} {ts : List Pc} (h : pollMachine.Reachable ⟨q, false, n, false, false, pc ::ₘ rest⟩)
    (hstep : pc.step ⟨q, false, n, false, false, pc ::ₘ rest⟩ true =
      some (⟨q', false, n', false, false, pc ::ₘ rest⟩, ts)) :
    pollMachine.Reachable ⟨q', false, n', false, false, ↑ts + rest⟩ := by
  refine h.step (a := .step pc true) ?_
  simp only [pollMachine, PollState.next, if_pos (mem_cons_self pc rest), hstep, Option.map_some,
    Threads.replace, erase_cons_head]

theorem alone_step (h : pollMachine.Reachable (alone q n pc))
    (hstep : pc.step (alone q n pc) true = some (⟨q', false, n, false, false, {pc}⟩, [pc'])) :
    pollMachine.Reachable (alone q' n pc') :=
  thread_step h hstep

/-- A notification is delivered and counted; the callback that finds 0 starts a poller. -/
theorem notified (h : pollMachine.Reachable ⟨q, false, n, false, false, rest⟩) (cq : Cq)
    (hfires : fires (q.armed cq) message) :
    pollMachine.Reachable ⟨q.complete cq message, false, (n + 1) % 2 ^ 32, false, false,
      ↑(if n = 0 then [Pc.startPollCq] else []) + rest⟩ := by
  have harrived : pollMachine.Reachable ⟨q.complete cq message, true, n, false, false, rest⟩ :=
    h.step (a := .complete cq message) (by simp [pollMachine, PollState.next, hfires])
  have hcalled : pollMachine.Reachable
      ⟨q.complete cq message, false, n, false, false, .onCompChannelEvent ::ₘ rest⟩ :=
    harrived.step (a := .epollWait) rfl
  have haddressed : pollMachine.Reachable
      ⟨q.complete cq message, false, n, false, false, .addReadEvent ::ₘ rest⟩ := thread_step hcalled rfl
  have hloaded : pollMachine.Reachable
      ⟨q.complete cq message, false, n, false, false, .fetchAdd ::ₘ rest⟩ := thread_step haddressed rfl
  exact thread_step hloaded rfl

/-- The same with a poller about to release: it stays alone. -/
theorem alone_notified (h : pollMachine.Reachable (alone q n pc)) (cq : Cq)
    (hfires : fires (q.armed cq) message) (hn : n ≠ 0) :
    pollMachine.Reachable (alone (q.complete cq message) ((n + 1) % 2 ^ 32) pc) := by
  have := notified h cq hfires
  rwa [if_neg hn, coe_nil, zero_add] at this

/-- The scan over empty queues. -/
theorem alone_scanned {notified : Bool} (h : pollMachine.Reachable (alone q n (.loop .recv notified progress)))
    (hempty : ∀ cq, q.entries cq = []) :
    pollMachine.Reachable (alone q n (if notified then .moreReadEvents progress else .reqNotify .recv progress)) := by
  have hnext : ∀ phase, pollMachine.Reachable (alone q n (.loop phase notified progress)) →
      pollMachine.Reachable (alone q n (drained phase notified progress)) := by
    intro phase hphase
    have hpoll : pollMachine.Reachable (alone q n (.poll phase notified progress)) := alone_step hphase rfl
    refine alone_step hpoll ?_
    simp only [Pc.step, pollStep, alone, hempty phase]
    rfl
  exact hnext .dataSend (hnext .send (hnext .dataRecv (hnext .recv h)))

/-- All queues empty, armed, and the channel drained. -/
structure Cqs.Idle (q : Cqs) : Prop where
  entries : ∀ cq, q.entries cq = []
  armed : ∀ cq, q.armed cq = some cq.solicitedOnly
  channel : q.channel = []

/-- The arming of all four queues. -/
theorem alone_armed (h : pollMachine.Reachable (alone q n (.reqNotify .recv progress))) (harmed : q.WellArmed)
    (hempty : ∀ cq, q.entries cq = []) (hchannel : q.channel = []) :
    ∃ q', q'.Idle ∧ pollMachine.Reachable (alone q' n (.loop .recv true progress)) := by
  have harm : ∀ (q : Cqs) (cq : Cq), pollMachine.Reachable (alone q n (.reqNotify cq progress)) →
      pollMachine.Reachable (alone (q.reqNotify cq cq.solicitedOnly) n (afterArm cq progress)) :=
    fun _ _ h => alone_step h rfl
  have hall := harm _ .dataSend (harm _ .send (harm _ .dataRecv (harm _ .recv h)))
  refine ⟨_, ⟨?_, ?_, ?_⟩, hall⟩
  · exact hempty
  · intro cq
    have hkind := reqNotify_wellArmed (reqNotify_wellArmed (reqNotify_wellArmed (reqNotify_wellArmed harmed
      .recv) .dataRecv) .send) .dataSend cq
    refine hkind.resolve_left ?_
    cases cq <;> simp [Cqs.reqNotify]
  · exact hchannel

/-- One message after an idle moment: the poller takes it, and is back before its release. -/
theorem alone_rescanned (hidle : q.Idle)
    (h : pollMachine.Reachable (alone (q.complete .recv message) n (.getAndAckEvents progress))) :
    ∃ q', q'.Idle ∧ pollMachine.Reachable (alone q' n (.moreReadEvents progress)) := by
  obtain ⟨entries, arms, channel, events, acked, fired⟩ := q
  obtain rfl : entries = fun _ => [] := funext hidle.entries
  obtain rfl : arms = fun cq => some cq.solicitedOnly := funext hidle.armed
  obtain rfl : channel = [] := hidle.channel
  have hgot := alone_step h rfl
  have hacked := alone_step hgot rfl
  have hpoll := alone_step hacked rfl
  have hhandle := alone_step hpoll rfl
  have hloop := alone_step hhandle rfl
  obtain ⟨q', hidle, harmed⟩ := alone_armed (alone_scanned hloop fun cq => by cases cq <;> rfl)
    (fun cq => by cases cq <;> first | exact .inl rfl | exact .inr rfl) (fun cq => by cases cq <;> rfl) rfl
  exact ⟨q', hidle, alone_scanned harmed hidle.entries⟩

theorem allocated_idle : Cqs.allocated.Idle :=
  ⟨fun cq => by cases cq <;> rfl, fun cq => by cases cq <;> rfl, rfl⟩

theorem Cqs.Idle.fires (h : q.Idle) (cq : Cq) : fires (q.armed cq) message := by
  rw [h.armed]
  cases cq <;> rfl

/-- A poller that is never let go, at any count. -/
theorem alone_counted : ∀ k, k + 1 < 2 ^ 32 →
    ∃ q, q.Idle ∧ pollMachine.Reachable (alone q (k + 1) (.moreReadEvents (k + 1))) := by
  intro k
  induction k with
  | zero =>
    intro _
    have hstarted : pollMachine.Reachable (alone (Cqs.allocated.complete .recv message) 1 .startPollCq) :=
      notified ⟨[], .start rfl⟩ .recv rfl
    have hpoll : pollMachine.Reachable (alone (Cqs.allocated.complete .recv message) 1 .pollCq) :=
      alone_step hstarted rfl
    exact alone_rescanned allocated_idle (alone_step hpoll rfl)
  | succ k ih =>
    intro hk
    obtain ⟨q, hidle, h⟩ := ih (Nat.lt_of_succ_lt hk)
    have hcounted := alone_notified h .recv (hidle.fires .recv) (Nat.succ_ne_zero k)
    rw [Nat.mod_eq_of_lt hk] at hcounted
    -- the exchange fails, and `progress` becomes the new count
    refine alone_rescanned hidle (alone_step hcounted ?_)
    simp [Pc.step, pollStep, PollState.goto, alone]

end

/-- After 2^32 callbacks the count is 0 with the poller active, and the next callback
    starts a second one. -/
theorem second_poller : ∃ s, pollMachine.Reachable s ∧ s.failed = false ∧
    s.threads = {.pollCq, .moreReadEvents (2 ^ 32 - 1)} ∧ s.pollers = 2 := by
  obtain ⟨q, hidle, h⟩ := alone_counted (2 ^ 32 - 2) (by norm_num)
  rw [show 2 ^ 32 - 2 + 1 = 2 ^ 32 - 1 by norm_num] at h
  have hwrapped := alone_notified h .recv (hidle.fires .recv) (by norm_num)
  rw [show (2 ^ 32 - 1 + 1) % 2 ^ 32 = 0 by norm_num] at hwrapped
  have harmed : fires ((q.complete .recv message).armed .send) message = true := by
    simp [Cqs.complete, hidle.fires, Cqs.fire, Cqs.enqueue]
  have hsecond := notified hwrapped .send harmed
  rw [if_pos rfl, show (0 + 1) % 2 ^ 32 = 1 by norm_num] at hsecond
  have hstarted : pollMachine.Reachable ⟨(q.complete .recv message).complete .send message, false, 1, false, false,
      .startPollCq ::ₘ {.moreReadEvents (2 ^ 32 - 1)}⟩ := hsecond
  exact ⟨_, thread_step hstarted rfl, rfl, rfl, rfl⟩

end LightRpc.CompletionQueues

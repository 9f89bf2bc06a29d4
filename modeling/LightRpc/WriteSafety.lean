import LightRpc.WriteRight

/- What holds along every run of the write queue.

   `WriteInv` puts together what `step_fits` says of single steps: the tokens of the
   queue fit the memory, no `CHECK` has failed, and a recycled endpoint has at most
   one thread left, the one in `BeforeRecycled`. From it follow the two main
   results: on a connected endpoint the bytes posted are a prefix of what was
   published, in the order of the exchanges, and whatever fails, every published
   request goes back to the pool exactly once. -/
namespace LightRpc

open Lib OwnedQueue WriteState List Multiset Option

variable {s : WriteState} {pc : Pc} {choice : Choice} {r : WriteState × List Pc}

structure WriteInv (s : WriteState) : Prop where
  fits : Fits s s.threads
  sound : s.crashed = false
  /-- Only a recycled endpoint runs `BeforeRecycled`, -/
  recycler : ∀ pc ∈ s.threads, pc.recycler = true → s.recycled = true
  /-- and nothing else; the slot is empty once it has been looked at. -/
  recycled : s.recycled = true → (∀ pc ∈ s.threads, pc.recycler = true) ∧ s.threads.card ≤ 1 ∧
    (s.pending = none ∨ s.threads = {.beforeRecycled})

theorem Fits.spawn (h : Fits s s.threads) (hwf : pc.Wf)
    (hv : pc.views = 0 ∧ pc.links = 0 ∧ pc.preps = 0 ∧ pc.rets = 0) : Fits (s.spawn pc) (s.spawn pc).threads := by
  obtain ⟨hall, seg, hseg⟩ := h
  obtain ⟨hv, hl, hp, hr⟩ := hv
  refine ⟨fun x hx => ?_, seg, ?_⟩
  · rcases Multiset.mem_cons.mp hx with rfl | hx
    · exact hwf
    · exact hall x hx
  · simpa only [WriteState.spawn, cons_bind, hv, hl, hp, hr, zero_add] using hseg

theorem WriteInv.spawn (h : WriteInv s) (hrec : s.recycled = false) (hwf : pc.Wf) (hpc : pc.recycler = false)
    (hv : pc.views = 0 ∧ pc.links = 0 ∧ pc.preps = 0 ∧ pc.rets = 0) : WriteInv (s.spawn pc) where
  fits := h.fits.spawn hwf hv
  sound := h.sound
  recycler := fun x hx hx' => by
    rcases Multiset.mem_cons.mp hx with rfl | hx
    · rw [hpc] at hx'; cases hx'
    · exact h.recycler x hx hx'
  recycled := fun ht => by
    rw [show (s.spawn pc).recycled = s.recycled from rfl, hrec] at ht
    cases ht

/-- When `BeforeRecycled` looks at the head, the queue is empty. -/
theorem WriteInv.head_none (h : WriteInv s) (hmem : .checkHead ∈ s.threads) : s.mem.head = none := by
  obtain ⟨_, hcard, hslot⟩ := h.recycled (h.recycler _ hmem rfl)
  obtain ⟨T, hT⟩ := exists_cons_of_mem hmem
  have hzero : T = 0 := by
    rw [hT, card_cons] at hcard
    exact card_eq_zero.mp (by omega)
  rw [hzero, cons_zero] at hT
  have hpend : s.pending = none := by
    refine hslot.resolve_right fun hb => ?_
    rw [hT, Multiset.singleton_inj] at hb
    cases hb
  obtain ⟨_, seg, hseg⟩ := h.fits
  refine hseg.head_eq_none.mpr ?_
  rw [hT, hpend]
  simp [pendingViews]

theorem writeInv_step (h : WriteInv s) (hmem : pc ∈ s.threads) (hstep : pc.step s choice = some r) :
    WriteInv { r.1 with threads := Threads.replace s.threads pc r.2 } := by
  obtain ⟨T, hT, hreplace⟩ := Threads.replace_spec hmem r.2
  obtain ⟨hcrash, hframe, hfits⟩ := step_fits hstep (hT ▸ h.fits)
  refine ⟨?_, ?_, fun x hx hx' => ?_, fun ht => ?_⟩
  · rw [hreplace]
    exact hfits
  · rcases hcrash with ⟨rfl, hhead⟩ | hcrash
    · exact absurd (h.head_none hmem) hhead
    · exact hcrash.trans h.sound
  · rw [hreplace] at hx
    refine hframe.recycled.trans ?_
    rcases mem_add.mp hx with hx | hx
    · exact h.recycler pc hmem ((hframe.recycler x hx).symm.trans hx')
    · exact h.recycler x (hT ▸ Multiset.mem_cons_of_mem hx) hx'
  · -- the only thread was this one
    obtain ⟨hall, hcard, hslot⟩ := h.recycled (hframe.recycled.symm.trans ht)
    have hpc := hall pc hmem
    have hzero : T = 0 := by
      rw [hT, card_cons] at hcard
      exact card_eq_zero.mp (by omega)
    have hnone : r.1.pending = none := by
      refine hframe.pending hpc (hslot.imp_right fun hb => ?_)
      rw [hT, hzero, cons_zero, Multiset.singleton_inj] at hb
      exact hb
    rw [hreplace, hzero, add_zero]
    exact ⟨fun x hx => (hframe.recycler x hx).trans hpc, hframe.single, .inl hnone⟩

theorem writeInv_next {s' : WriteState} {a : WriteAct} (h : WriteInv s) (hn : s.next a = some s') : WriteInv s' := by
  cases a with
  | startWrite data | setFailed e =>
    obtain ⟨hrec, ⟨⟩⟩ := ite_none_left_eq_some.mp hn
    exact h.spawn (by simpa using hrec) trivial rfl ⟨rfl, rfl, rfl, rfl⟩
  | clientEvent | serverHandshake =>
    simp only [WriteState.next, ite_none_left_eq_some, some.injEq, not_or] at hn
    obtain ⟨⟨hrec, _⟩, rfl⟩ := hn
    exact h.spawn (by simpa using hrec) trivial rfl ⟨rfl, rfl, rfl, rfl⟩
  | recycle =>
    obtain ⟨⟨_, hzero, _⟩, rfl⟩ := ite_some_none_eq_some.mp hn
    obtain ⟨_, seg, hseg⟩ := h.fits
    refine ⟨⟨fun x hx => ?_, seg, ?_⟩, h.sound, fun _ _ _ => rfl, fun _ => ⟨fun x hx => ?_, by simp, .inr rfl⟩⟩
    · rw [Multiset.mem_singleton.mp hx]; trivial
    · simpa only [hzero, zero_bind, singleton_bind, Pc.views, Pc.links, Pc.preps, Pc.rets] using hseg
    · rw [Multiset.mem_singleton.mp hx]; rfl
  | scribble a l data =>
    obtain ⟨hfree, ⟨⟩⟩ := ite_none_left_eq_some.mp hn
    obtain ⟨hall, seg, hseg⟩ := h.fits
    exact ⟨⟨hall, seg, hseg.scribble (by simpa using hfree) l data⟩, h.sound, h.recycler, h.recycled⟩
  | step pc choice =>
    obtain ⟨hmem, r, hstep, rfl⟩ := WriteState.next_step hn
    exact writeInv_step h hmem hstep

theorem writeInv_created (handshakeOk : Bool) : WriteInv (.created handshakeOk) where
  fits := ⟨fun _ hx => absurd hx (notMem_zero _), ⟨[], [], [], []⟩, {
    nodup := nodup_zero
    inUse := fun a => by simp [WriteState.created, emptyMem, Seg.all]
    head := rfl
    right := .inl ⟨rfl, rfl⟩
    back_mid := trivial
    back_newer := trivial
    links_nodup := nodup_zero
    links_open := fun _ hl => absurd hl (notMem_zero _)
    taken_open := fun _ ha => absurd ha (notMem_zero _)
    tickets := rfl
    cleared := fun _ hr => absurd hr not_mem_nil
    finished := fun _ ha => absurd ha (notMem_zero _)
    bytes := fun _ => rfl }⟩
  sound := rfl
  recycler := fun _ hx => absurd hx (notMem_zero _)
  recycled := fun ht => by cases ht

theorem writeInv_reachable {handshakeOk : Bool} (h : (writeMachine handshakeOk).Reachable s) : WriteInv s := by
  refine h.invariant (I := WriteInv) ?_ fun s a s' hi hn => writeInv_next hi hn
  rintro s rfl
  exact writeInv_created handshakeOk

/-! Failure. -/

/-- Tickets of requests that went back to the pool. -/
def returnedTickets (s : WriteState) : List Nat := s.mem.returned.map Prod.fst

/-- The write rights that are out: held by threads, or in the slot. -/
def writeRights (s : WriteState) : Multiset (View Addr) := s.threads.bind Pc.views + pendingViews s.pending

theorem WriteInv.tickets_nodup (h : WriteInv s) :
    (returnedTickets s).Nodup ∧ ∀ t ∈ returnedTickets s, t < s.mem.pubs.length := by
  obtain ⟨_, seg, hseg⟩ := h.fits
  have hle : (↑(returnedTickets s) : Multiset Nat) ≤ Multiset.range s.mem.pubs.length := by
    rw [hseg.tickets, add_assoc]
    exact Multiset.le_add_right _ _
  refine ⟨coe_nodup.mp (nodup_of_le hle (Multiset.nodup_range _)), fun t ht => ?_⟩
  exact Multiset.mem_range.mp (mem_of_le hle ht)

/-- With no thread and an empty slot, all that was published has been returned. -/
theorem WriteInv.all_returned (h : WriteInv s) (hthreads : s.threads = 0) (hpend : s.pending = none) :
    s.mem.head = none ∧ (returnedTickets s).Perm (List.range s.mem.pubs.length) := by
  obtain ⟨_, seg, hseg⟩ := h.fits
  simp only [hthreads, hpend, zero_bind, pendingViews, add_zero] at hseg
  have hhead := hseg.head_eq_none.mpr rfl
  have hall : seg.all = [] := getLast?_eq_none_iff.mp (hseg.head.symm.trans hhead)
  have htickets := hseg.tickets
  rw [hall, map_nil, coe_nil, Multiset.map_zero, add_zero, add_zero] at htickets
  exact ⟨hhead, coe_eq_coe.mp htickets.symm⟩

/-- Every program counter but that of a reversing thread has a step. -/
theorem step_exists (s : WriteState) (pc : Pc) (h : ∀ c newHead p tail, pc ≠ .reverse c newHead p tail) :
    ∃ choice r, pc.step s choice = some r := by
  cases pc with
  | getObject data => exact ⟨.error 0, _, rfl⟩
  | cut req => exact ⟨.again, _, rfl⟩
  | doWrite req curTail =>
    refine ⟨.again, ?_⟩
    simp only [Pc.step, keepWriteStep]
    cases collect s.mem.next DATA_LIST_MAX (.to req) <;> exact ⟨_, rfl⟩
  | reverse c newHead p tail => exact absurd rfl (h c newHead p tail)
  | finish c =>
    refine ⟨.ok, isSome_iff_exists.mp ?_⟩
    cases c <;> simp only [Pc.step, completeStep] <;> (try split) <;> rfl
  | isWriteComplete c =>
    refine ⟨.ok, isSome_iff_exists.mp ?_⟩
    simp only [Pc.step, completeStep]
    split
    · rfl
    split <;> split <;> rfl
  | _ =>
    refine ⟨.ok, isSome_iff_exists.mp ?_⟩
    simp only [Pc.step, startWriteStep, setFailedStep, keepWriteStep, completeStep, handshakeStep, recycleStep]
    first
    | rfl
    | (split <;> first | rfl | (split <;> rfl))

/-- A thread can go on, or it waits for the link of a request whose producer can. -/
theorem WriteInv.not_stuck (h : WriteInv s) (hmem : pc ∈ s.threads) : (∃ choice r, pc.step s choice = some r) ∨
      ∃ c newHead p tail prev, pc = .reverse c newHead p tail ∧ .storeNext p prev ∈ s.threads := by
  by_cases hrev : ∀ c newHead p tail, pc ≠ .reverse c newHead p tail
  · exact .inl (step_exists s pc hrev)
  · simp only [not_forall, not_not] at hrev
    obtain ⟨c, newHead, p, tail, rfl⟩ := hrev
    obtain ⟨T, hT⟩ := exists_cons_of_mem hmem
    have hfits := h.fits
    rw [hT] at hfits
    obtain ⟨seg, hseg⟩ := hfits.view rfl
    obtain ⟨_, q, _, _, _, hconn⟩ := hseg.rev_next (h.fits.1 _ hmem)
    rcases hconn with hto | ⟨_, hlink⟩
    · refine .inl ⟨.ok, isSome_iff_exists.mp ?_⟩
      simp only [Pc.step, completeStep, hto]
      rfl
    · -- the link is still to be stored, by a thread that holds its token
      obtain ⟨x, hx, hlx⟩ := mem_bind.mp hlink
      refine .inr ⟨c, newHead, p, tail, q, rfl, hT ▸ Multiset.mem_cons_of_mem ?_⟩
      cases x with
      | storeNext a b =>
        rw [Pc.links, Multiset.mem_singleton, Prod.mk.injEq] at hlx
        rw [hlx.1, hlx.2]
        exact hx
      | _ => exact absurd hlx (notMem_zero _)

/-- **Failure drains the queue exactly once.** Whatever fails and whenever, no `CHECK`
    fails, in particular not that of `BeforeRecycled`; at most one party owns the queue,
    the slot included; a request goes back at most once and empty, and every published one
    has gone back when the endpoint is recycled; no thread is stuck on the way there. -/
theorem failure_drains_once (handshakeOk : Bool) {s : WriteState}
    (h : (writeMachine handshakeOk).Reachable s) :
    s.crashed = false ∧ (.checkHead ∈ s.threads → s.mem.head = none) ∧
    (writeRights s).card ≤ 1 ∧
    (returnedTickets s).Nodup ∧ (∀ r ∈ s.mem.returned, r.1 < s.mem.pubs.length ∧ r.2 = []) ∧
    (s.threads = 0 → s.pending = none ∨ s.recycled = true →
      s.mem.head = none ∧ (returnedTickets s).Perm (List.range s.mem.pubs.length)) ∧
    ∀ pc ∈ s.threads, (∃ choice r, pc.step s choice = some r) ∨
      ∃ c newHead p tail prev, pc = .reverse c newHead p tail ∧ .storeNext p prev ∈ s.threads := by
  have hinv := writeInv_reachable h
  obtain ⟨hnodup, hlt⟩ := hinv.tickets_nodup
  refine ⟨hinv.sound, hinv.head_none, ?_, hnodup, fun r hr => ?_, fun hzero hslot => ?_, fun pc hpc =>
    hinv.not_stuck hpc⟩
  · obtain ⟨_, seg, hseg⟩ := hinv.fits
    exact hseg.card_views_le
  · obtain ⟨_, seg, hseg⟩ := hinv.fits
    exact ⟨hlt r.1 (List.mem_map_of_mem hr), hseg.cleared r hr⟩
  · refine hinv.all_returned hzero (hslot.elim id fun hrec => ?_)
    obtain ⟨_, _, hnone⟩ := hinv.recycled hrec
    exact hnone.resolve_right fun hb => by
      rw [hzero] at hb
      exact absurd hb.symm (Multiset.singleton_ne_zero _)

/-- A request that waits for a connection which never comes up, and an endpoint that fails
    and is recycled by another thread. -/
def neverConnected : List WriteAct :=
  [.startWrite [1], .step (.start [1]) .ok, .step (.loadError [1]) .ok, .step (.loadFailed [1]) .ok,
    .step (.getObject [1]) (.object 0), .step (.exchange 0) .ok, .step (.storeNull 0) .ok,
    .step (.freshError 0) .ok, .step (.freshFailed 0) .ok, .step (.loadHandshake 0) .ok,
    .step (.storePending 0) .ok, .step .startAsyncConnect .ok, .step .registerTcpEvent .ok,
    .setFailed 5, .step (.setFailed 5 .exit) .ok, .step (.storeError 5 .exit) .ok, .step (.storeStop .exit) .ok,
    .step (.unregister .exit) .ok, .recycle, .step .beforeRecycled .ok, .step (.drain 0 true) .ok,
    .step (.isWriteComplete (.drain 0 true)) .ok, .step (.finish (.drain 0 true)) .ok, .step .checkHead .ok]

theorem neverConnected_returned : ∃ s, (writeMachine false).Run neverConnected s ∧ s.mem.pubs = [[1]] ∧
    (returnedTickets s).Perm [0] := by
  have hexec : ∃ s, (writeMachine false).Run neverConnected s ∧ s.mem.pubs = [[1]] ∧ s.threads = 0 ∧
      s.recycled = true := Machine.exists_run rfl (by decide +kernel)
  obtain ⟨s, hrun, hpubs, hzero, hrec⟩ := hexec
  obtain ⟨_, _, _, _, _, hall, _⟩ := failure_drains_once false ⟨_, hrun⟩
  refine ⟨s, hrun, hpubs, ?_⟩
  have hperm := (hall hzero (.inr hrec)).2
  rwa [hpubs] at hperm

/-! A connected endpoint. -/

/-- Actions that are neither a failure nor a step of one. -/
def unfailing (_ : WriteState) : WriteAct → Bool
  | .startWrite _ => true
  | .scribble .. => true
  | .step (.getObject _) _ => true
  | .step _ (.error _) => false
  | .step _ (.fatal ..) => false
  | .step _ _ => true
  | _ => false

def Caller.normal : Caller → Bool
  | .drain .. => false
  | _ => true

/-- Program counters of `StartWrite` and `KeepWrite` on a connected endpoint. -/
def Pc.normal : Pc → Bool
  | .start _ | .loadError _ | .loadFailed _ | .getObject _ | .exchange _ | .storeNext .. | .storeNull _
  | .freshError _ | .freshFailed _ | .loadHandshake _ | .cut _ | .startKeepWrite _ | .keepStop ..
  | .keepSkip .. | .doWrite .. | .keepRelease .. | .keepWait .. | .keepWaited .. | .keepTail .. => true
  | .isWriteComplete c | .reverse c .. | .link c .. | .finish c => c.normal
  | _ => false

/-- Nothing has failed, and no request waits for a connection. -/
structure Healthy (s : WriteState) : Prop where
  failed : s.failed = false
  writeError : s.writeError = 0
  stop : s.stop = false
  pending : s.pending = none
  dropped : s.mem.dropped = false

theorem incomplete_normal {c : Caller} (h : c.normal) (newTail : Addr) :
    (c.incomplete newTail).normal := by
  cases c with
  | startWrite req => rfl
  | keepWrite req curTail => rfl
  | drain req recycler => cases h

theorem keepComplete_normal (req : Addr) (curTail : Option Addr) : (keepComplete req curTail).normal := by
  cases curTail <;> rfl

theorem keepReleased_normal (req : Addr) (curTail : Option Addr) (wait : Bool) :
    (keepReleased req curTail wait).normal := by
  cases wait
  · exact keepComplete_normal req curTail
  · rfl

theorem Healthy.withMem (h : Healthy s) {m : Mem Addr UInt8} (hm : m.dropped = s.mem.dropped) : Healthy (s.withMem m) :=
  ⟨h.failed, h.writeError, h.stop, h.pending, hm.trans h.dropped⟩

theorem Healthy.withThreads (h : Healthy s) (ts : Multiset Pc) : Healthy { s with threads := ts } :=
  ⟨h.failed, h.writeError, h.stop, h.pending, h.dropped⟩

theorem Healthy.crash (h : Healthy s) : Healthy { s with crashed := true } :=
  ⟨h.failed, h.writeError, h.stop, h.pending, h.dropped⟩

/-- The step leaves the endpoint healthy, and its thread where it can be on a healthy one. -/
def Stays (r : WriteState × List Pc) : Prop := Healthy r.1 ∧ ∀ x ∈ r.2, x.normal = true

theorem Stays.exit (h : Healthy s) : Stays (s, []) := ⟨h, forall_mem_nil _⟩

theorem Stays.goto (h : Healthy s) (hpc : pc.normal) : Stays (s, [pc]) := ⟨h, forall_mem_singleton.mpr hpc⟩

theorem startWriteStep_healthy (hc : Healthy s) (hpc : pc.normal)
    (hshake : ∀ req, pc = .loadHandshake req → s.handshakeOk) (hok : unfailing s (.step pc choice))
    (h : startWriteStep s pc choice = some r) : Stays r := by
  have hexchange : ∀ req head, (afterExchange req head).normal = true := fun _ head => by cases head <;> rfl
  revert h
  fun_cases startWriteStep s pc choice <;> intro h <;> cases h
  case case13 hne => exact absurd hc.writeError hne
  case case15 hfailed => exact absurd (hc.failed.symm.trans hfailed) Bool.false_ne_true
  case case18 hclosed => exact absurd (hshake _ rfl) hclosed
  all_goals first
    | exact .exit hc
    | exact .goto hc rfl
    | exact .exit (hc.withMem rfl)
    | exact .goto (hc.withMem rfl) rfl
    | exact .goto (hc.withMem rfl) (hexchange _ _)
    | (cases hok; done)
    | cases hpc

theorem keepWriteStep_healthy (hc : Healthy s) (hok : unfailing s (.step pc choice))
    (h : keepWriteStep s pc choice = some r) : Stays r := by
  revert h
  fun_cases keepWriteStep s pc choice <;> intro h <;> cases h
  case case1 hstop | case20 hstop => exact absurd (hc.stop.symm.trans hstop) Bool.false_ne_true
  all_goals first
    | exact .exit hc.crash
    | exact .goto hc rfl
    | exact .goto (hc.withMem rfl) rfl
    | exact .goto hc (keepReleased_normal _ _ _)
    | exact .goto hc (keepComplete_normal _ _)
    | cases hok

theorem completeStep_healthy (hc : Healthy s) (hpc : pc.normal) (h : completeStep s pc choice = some r) :
    Stays r := by
  revert h
  fun_cases completeStep s pc choice <;> intro h <;> cases h
  all_goals first
    | exact .exit hc.crash
    | exact .exit (hc.withMem rfl)
    | exact .goto hc hpc
    | exact .goto (hc.withMem rfl) hpc
    | exact .goto hc (incomplete_normal hpc _)
    | exact .goto (hc.withMem rfl) (incomplete_normal hpc _)
    | exact .goto (hc.withMem rfl) (by split <;> exact hpc)
    | cases hpc

theorem step_healthy (hc : Healthy s) (hpc : pc.normal)
    (hshake : ∀ req, pc = .loadHandshake req → s.handshakeOk) (hok : unfailing s (.step pc choice))
    (h : pc.step s choice = some r) : Stays r := by
  unfold Pc.step at h
  split at h
  all_goals first
    | (cases hpc; done)
    | exact keepWriteStep_healthy hc hok h
    | exact completeStep_healthy hc hpc h
    | exact startWriteStep_healthy hc hpc hshake hok h

/-- Program counters of the connection callbacks. -/
def Pc.handshaking : Pc → Bool
  | .clientEvent | .clientConnected | .clientHandshake | .storeHandshake | .takePending | .serverHandshake
  | .storeServerHandshake => true
  | _ => false

/-- The step leaves `_handshake_ok` alone and its thread is no connection callback. -/
def Aside (s : WriteState) (r : WriteState × List Pc) : Prop :=
  r.1.handshakeOk = s.handshakeOk ∧ ∀ x ∈ r.2, x.handshaking = false

theorem Aside.exit {s' : WriteState} (h : s'.handshakeOk = s.handshakeOk) : Aside s (s', []) :=
  ⟨h, forall_mem_nil _⟩

theorem Aside.goto {s' : WriteState} (h : s'.handshakeOk = s.handshakeOk) (hpc : pc.handshaking = false) :
    Aside s (s', [pc]) :=
  ⟨h, forall_mem_singleton.mpr hpc⟩

theorem startWriteStep_aside (h : startWriteStep s pc choice = some r) : Aside s r := by
  have hexchange : ∀ req head, (afterExchange req head).handshaking = false := fun _ head => by cases head <;> rfl
  revert h
  fun_cases startWriteStep s pc choice <;> intro h <;> cases h <;>
    first
    | exact .exit rfl
    | exact .goto rfl rfl
    | exact .goto rfl (hexchange _ _)

theorem setFailedStep_aside (h : setFailedStep s pc choice = some r) : Aside s r := by
  have hresume : ∀ (after : Then), ∀ x ∈ after.resume, x.handshaking = false := by
    intro after
    cases after <;> simp [Then.resume, Pc.handshaking]
  revert h
  fun_cases setFailedStep s pc choice <;> intro h <;> cases h <;>
    first
    | exact ⟨rfl, hresume _⟩
    | exact .goto rfl rfl

theorem keepWriteStep_aside (h : keepWriteStep s pc choice = some r) : Aside s r := by
  have hcomplete : ∀ req tail, (keepComplete req tail).handshaking = false := fun _ tail => by cases tail <;> rfl
  have hreleased : ∀ req tail wait, (keepReleased req tail wait).handshaking = false := by
    intro req tail wait
    cases wait
    · exact hcomplete req tail
    · rfl
  revert h
  fun_cases keepWriteStep s pc choice <;> intro h <;> cases h <;>
    first
    | exact .exit rfl
    | exact .goto rfl rfl
    | exact .goto rfl (hcomplete _ _)
    | exact .goto rfl (hreleased _ _ _)

theorem completeStep_aside (h : completeStep s pc choice = some r) : Aside s r := by
  have hincomplete : ∀ (c : Caller) newTail, (c.incomplete newTail).handshaking = false :=
    fun c _ => by cases c <;> rfl
  revert h
  fun_cases completeStep s pc choice <;> intro h <;> cases h <;>
    first
    | exact .exit rfl
    | exact .goto rfl rfl
    | exact .goto rfl (hincomplete _ _)
    | exact .goto rfl (by split <;> rfl)
    | exact ⟨rfl, by split <;> simp [Pc.handshaking]⟩

theorem recycleStep_aside (h : recycleStep s pc choice = some r) : Aside s r := by
  revert h
  fun_cases recycleStep s pc choice <;> intro h <;> cases h <;>
    first
    | exact .exit rfl
    | exact .goto rfl rfl

/-- Only a connection callback sets `_handshake_ok`, and no other thread becomes one. -/
theorem step_aside (hpc : pc.handshaking = false) (h : pc.step s choice = some r) : Aside s r := by
  unfold Pc.step at h
  split at h
  all_goals first
    | (cases hpc; done)
    | exact setFailedStep_aside h
    | exact keepWriteStep_aside h
    | exact completeStep_aside h
    | exact recycleStep_aside h
    | exact startWriteStep_aside h

theorem normal_not_handshaking (h : pc.normal) : pc.handshaking = false := by
  cases pc <;> first | rfl | cases h

/-- A connected endpoint stays connected as long as nothing fails. -/
theorem connected_reachable (h : ((writeMachine true).guard unfailing).Reachable s) :
    (Healthy s ∧ s.handshakeOk) ∧ ∀ pc ∈ s.threads, pc.normal := by
  refine h.invariant (I := fun s => (Healthy s ∧ s.handshakeOk = true) ∧ ∀ pc ∈ s.threads, pc.normal = true) ?_ ?_
  · rintro s rfl
    exact ⟨⟨⟨rfl, rfl, rfl, rfl, rfl⟩, rfl⟩, fun _ hx => absurd hx (notMem_zero _)⟩
  · rintro s a s' ⟨⟨hc, hshake⟩, hnormal⟩ hn
    obtain ⟨hok, hn⟩ := Machine.guard_next.mp hn
    have hn : s.next a = some s' := hn
    cases a with
    | startWrite data =>
      obtain ⟨_, ⟨⟩⟩ := ite_none_left_eq_some.mp hn
      refine ⟨⟨hc.withThreads _, hshake⟩, fun x hx => ?_⟩
      rcases Multiset.mem_cons.mp hx with rfl | hx
      · rfl
      · exact hnormal x hx
    | scribble a l data =>
      obtain ⟨_, ⟨⟩⟩ := ite_none_left_eq_some.mp hn
      exact ⟨⟨hc.withMem rfl, hshake⟩, hnormal⟩
    | step pc choice =>
      obtain ⟨hmem, r, hstep, rfl⟩ := WriteState.next_step hn
      obtain ⟨hc', hnew⟩ := step_healthy hc (hnormal pc hmem) (fun _ _ => hshake) hok hstep
      have hsame := (step_aside (normal_not_handshaking (hnormal pc hmem)) hstep).1
      refine ⟨⟨hc'.withThreads _, hsame.trans hshake⟩, fun x hx => ?_⟩
      exact (Threads.mem_replace hx).elim (hnew x) (hnormal x)
    | _ => cases hok

/-- **The write queue is safe.** On a connected endpoint, for every interleaving of
    `StartWrite` calls and the writer: one thread at most holds the right, no `CHECK`
    fails, the bytes posted are a prefix of the data published in the order of the
    exchanges and all of it when the right is released, and every request goes back to
    the pool once and empty. -/
theorem write_queue_safe {s : WriteState} (h : ((writeMachine true).guard unfailing).Reachable s) :
    (s.threads.bind Pc.views).card ≤ 1 ∧ s.crashed = false ∧
    s.mem.consumed <+: s.mem.pubs.flatten ∧ (s.mem.head = none → s.mem.consumed = s.mem.pubs.flatten) ∧
    (returnedTickets s).Nodup ∧ (∀ r ∈ s.mem.returned, r.1 < s.mem.pubs.length ∧ r.2 = []) ∧
    (s.threads = 0 → (returnedTickets s).Perm (List.range s.mem.pubs.length)) := by
  obtain ⟨⟨hc, _⟩, _⟩ := connected_reachable h
  have hinv := writeInv_reachable h.of_guard
  obtain ⟨hnodup, hlt⟩ := hinv.tickets_nodup
  obtain ⟨_, seg, hseg⟩ := hinv.fits
  have hbytes := hseg.bytes hc.dropped
  refine ⟨?_, hinv.sound, ⟨_, hbytes⟩, fun hhead => ?_, hnodup,
    fun r hr => ⟨hlt r.1 (List.mem_map_of_mem hr), hseg.cleared r hr⟩,
    fun hzero => (hinv.all_returned hzero hc.pending).2⟩
  · have hcard := hseg.card_views_le
    rw [hc.pending] at hcard
    simpa [pendingViews] using hcard
  · have hall : seg.all = [] := List.getLast?_eq_none_iff.mp (hseg.head.symm.trans hhead)
    rw [hall, List.flatMap_nil, List.append_nil] at hbytes
    exact hbytes

/-- Two producers; the second links its request only after the writer has begun to wait
    for it. -/
def twoWriters : List WriteAct :=
  [.startWrite [1], .startWrite [2],
    .step (.start [1]) .ok, .step (.loadError [1]) .ok, .step (.loadFailed [1]) .ok,
    .step (.getObject [1]) (.object 0), .step (.exchange 0) .ok,
    .step (.start [2]) .ok, .step (.loadError [2]) .ok, .step (.loadFailed [2]) .ok,
    .step (.getObject [2]) (.object 1), .step (.exchange 1) .ok,
    .step (.storeNull 0) .ok, .step (.freshError 0) .ok, .step (.freshFailed 0) .ok,
    .step (.loadHandshake 0) .ok, .step (.cut 0) (.wrote 1), .step (.isWriteComplete (.startWrite 0)) .ok,
    .step (.storeNext 1 0) .ok, .step (.reverse (.startWrite 0) 1 1 none) .ok,
    .step (.link (.startWrite 0) 1 1) .ok, .step (.startKeepWrite 0) .ok, .step (.keepStop 0 none) .ok,
    .step (.keepSkip 0 none) .ok, .step (.doWrite 1 none) (.wrote 1), .step (.keepRelease 1 none false) .ok,
    .step (.keepTail 1 1) .ok, .step (.isWriteComplete (.keepWrite 1 1)) .ok,
    .step (.finish (.keepWrite 1 1)) .ok]

theorem twoWriters_safe : ∃ s, ((writeMachine true).guard unfailing).Run twoWriters s ∧
    s.mem.pubs = [[1], [2]] ∧ s.mem.consumed = [1, 2] ∧ (returnedTickets s).Perm [0, 1] := by
  have hexec : ∃ s, ((writeMachine true).guard unfailing).Run twoWriters s ∧ s.mem.pubs = [[1], [2]] ∧
      s.mem.head = none ∧ s.threads = 0 := Machine.exists_run rfl (by decide +kernel)
  obtain ⟨s, hrun, hpubs, hhead, hzero⟩ := hexec
  obtain ⟨_, _, _, hbytes, _, _, hall⟩ := write_queue_safe ⟨_, hrun⟩
  have hconsumed := hbytes hhead
  have hperm := hall hzero
  rw [hpubs] at hconsumed hperm
  exact ⟨s, hrun, hpubs, hconsumed, hperm⟩

end LightRpc

import LightRpc.LargeSend

/- What the counter of large transfers is worth, and who is left parked.

   The upper bound holds whatever the peer does: `large_mutex_` makes the check of the
   counter and its increment one step, and nothing else increments (`Monitor`). The rest
   rests on the peer: nothing in `pending_large_frames_` says that a frame has been
   written already, so an AUTHORITY frame that no NOTIFY has asked for starts a write, and
   later a decrement, that nobody has counted. With one AUTHORITY for a NOTIFY and no
   `rpc_id` used twice at a time, each transfer is in one place only, from its first step
   to its decrement (`Ledger`).

   The decrement and its notification are made without the mutex. A caller that found its
   predicate false and has not parked yet misses both. -/
namespace LightRpc.LargeSend

open Lib SendState Multiset

variable {pcs : List Pc} {ok : Bool} {a : SendAct}

/-! The mutex. -/

def Pc.holds : Pc → Bool
  | .check _ | .park _ | .admitted _ | .start _ => true
  | _ => false

/-- What a caller that holds the mutex knows about the counter. -/
def Pc.Room (r : Role) (s : SendState) : Pc → Prop
  | .admitted _ => s.active < kMaxLargeTransfers ∨ s.refuses r = true
  | .start _ => s.active < kMaxLargeTransfers
  | _ => True

structure Monitor (r : Role) (s : SendState) : Prop where
  holders : s.threads.countP (·.holds = true) = if s.locked then 1 else 0
  room : ∀ pc ∈ s.threads, pc.Room r s
  bounded : s.active ≤ kMaxLargeTransfers

section
variable {r : Role} {s s' : SendState} {pc : Pc}

theorem Pc.room_of_not_holds (h : pc.holds = false) : pc.Room r s := by
  cases pc <;> trivial

theorem Pc.holds_awake (pc : Pc) : pc.awake.holds = pc.holds := by cases pc <;> rfl

theorem Pc.Room.awake (h : pc.Room r s) : pc.awake.Room r s := by cases pc <;> exact h

/-- The counter going down, or the caller's reasons to give up coming true, takes no room away. -/
theorem Pc.Room.mono (h : pc.Room r s) (hactive : s'.active ≤ s.active)
    (hrefuses : s.refuses r → s'.refuses r) : pc.Room r s' := by
  cases pc with
  | admitted t => exact h.imp (lt_of_le_of_lt hactive) hrefuses
  | start t => exact lt_of_le_of_lt hactive h
  | _ => trivial

/-- One thread moves: what it gives up and takes of the mutex, and what the others know. -/
theorem Monitor.move (h : Monitor r s) (hpc : pc ∈ s.threads) (hthreads : s'.threads = Threads.replace s.threads pc pcs)
    (hmutex : pcs.countP (·.holds = true) + (if s.locked then 1 else 0) =
      (if s'.locked then 1 else 0) + if pc.holds then 1 else 0) (hroom : ∀ x ∈ pcs, x.Room r s')
    (hothers : pc.holds ∨ s'.active ≤ s.active ∧ (s.refuses r → s'.refuses r))
    (hbounded : s'.active ≤ kMaxLargeTransfers) : Monitor r s' := by
  obtain ⟨R, hR, hreplace⟩ := Threads.replace_spec hpc pcs
  have hholders := h.holders
  rw [hR, countP_cons] at hholders
  rw [hreplace] at hthreads
  refine ⟨?_, fun x hx => ?_, hbounded⟩
  · rw [hthreads, countP_add, coe_countP]
    omega
  · rw [hthreads, mem_add] at hx
    rcases hx with hx | hx
    · exact hroom x hx
    · rcases hothers with hholds | ⟨hactive, hrefuses⟩
      · -- the others are outside of the mutex
        have hzero : R.countP (·.holds = true) = 0 := by
          rw [if_pos hholds] at hholders
          split at hholders <;> omega
        have := countP_eq_zero.mp hzero x hx
        exact Pc.room_of_not_holds (Bool.eq_false_iff.mpr this)
      · have hmem : x ∈ s.threads := hR ▸ mem_cons_of_mem hx
        exact (h.room x hmem).mono hactive hrefuses

theorem Monitor.notifyAll (h : Monitor r s) : Monitor r s.notifyAll where
  holders := by
    rw [SendState.notifyAll, countP_map, ← h.holders, countP_eq_card_filter]
    simp only [Pc.holds_awake]
  room := by
    intro x hx
    obtain ⟨y, hy, hyx⟩ := mem_map.mp hx
    rw [← hyx]
    exact (h.room y hy).awake
  bounded := h.bounded

/-- A new thread that does not hold the mutex. -/
theorem Monitor.spawn (h : Monitor r s) (hthreads : s'.threads = pc ::ₘ s.threads) (hpc : pc.holds = false)
    (hlocked : s'.locked = s.locked) (hactive : s'.active = s.active)
    (hrefuses : s.refuses r → s'.refuses r) : Monitor r s' where
  holders := by
    rw [hthreads, countP_cons_of_neg _ (by simp [hpc]), h.holders, hlocked]
  room := by
    intro x hx
    rw [hthreads] at hx
    rcases mem_cons.mp hx with hx | hx
    · exact Pc.room_of_not_holds (hx ▸ hpc)
    · exact (h.room x hx).mono hactive.le hrefuses
  bounded := hactive ▸ h.bounded

theorem SendState.mem_setFailed (s : SendState) (hpc : pc ∈ s.threads) : pc ∈ s.setFailed.threads := by
  unfold setFailed
  split
  · exact hpc
  · exact mem_cons_of_mem hpc

theorem Monitor.setFailed (h : Monitor r s) : Monitor r s.setFailed := by
  unfold SendState.setFailed
  split
  · exact h
  · refine h.spawn rfl rfl rfl rfl ?_
    intro hrefuses
    simp only [SendState.refuses, Bool.or_eq_true, Bool.and_eq_true] at hrefuses ⊢
    exact hrefuses.imp_right fun hfailed => ⟨hfailed.1, trivial⟩

theorem Monitor.locked (h : Monitor r s) (hpc : pc ∈ s.threads) (hholds : pc.holds) : s.locked := by
  by_contra hfree
  have hholders := h.holders
  rw [if_neg hfree, countP_eq_zero] at hholders
  exact hholders pc hpc hholds

/-- A step outside of the mutex that leaves the counter alone or lowers it. -/
theorem Monitor.outside (h : Monitor r s) (hpc : pc ∈ s.threads) (hholds : pc.holds = false)
    (hthreads : s'.threads = Threads.replace s.threads pc pcs) (hpcs : ∀ x ∈ pcs, x.holds = false)
    (hlocked : s'.locked = s.locked) (hactive : s'.active ≤ s.active)
    (hrefuses : s.refuses r → s'.refuses r) : Monitor r s' := by
  apply h.move hpc hthreads
  · have hnone : pcs.countP (·.holds = true) = 0 := by
      rw [List.countP_eq_zero]
      intro x hx
      simp [hpcs x hx]
    rw [hnone, hlocked, hholds]
    simp
  · intro x hx
    exact Pc.room_of_not_holds (hpcs x hx)
  · exact .inr ⟨hactive, hrefuses⟩
  · exact hactive.trans h.bounded

theorem Monitor.step (h : Monitor r s) (hpc : pc ∈ s.threads) (hn : s.step r ok pc = some s') : Monitor r s' := by
  have hlocked := h.locked hpc
  have hroom := h.room pc hpc
  revert hpc hn hlocked hroom
  fun_cases SendState.step r s ok pc <;> intro hpc hn hlocked hroom <;> cases hn
  case case2 t hfree =>
    refine h.move hpc rfl ?_ ?_ (.inr ⟨le_rfl, id⟩) h.bounded
    · simp [Pc.holds, hfree]
    · simp [Pc.Room]
  case case3 t hpred =>
    refine h.move hpc rfl ?_ ?_ (.inl rfl) h.bounded
    · simp [Pc.holds, hlocked rfl]
    · simpa [Pc.Room, SendState.canStartLargeTransfer] using hpred
  case case4 | case5 | case7 =>
    refine h.move hpc rfl ?_ ?_ (.inl rfl) h.bounded
    · simp [Pc.holds, hlocked rfl]
    · simp [Pc.Room]
  case case8 t hgoes =>
    refine h.move hpc rfl ?_ ?_ (.inl rfl) h.bounded
    · simp [Pc.holds, hlocked rfl]
    · simpa [Pc.Room] using hroom.resolve_right hgoes
  case case9 t =>
    refine h.move hpc rfl ?_ ?_ (.inl rfl) (Int.add_one_le_iff.mpr hroom)
    · cases r <;> simp [Role.afterStart, Pc.holds, hlocked rfl]
    · cases r <;> simp [Role.afterStart, Pc.Room]
  case case10 t => exact h.outside hpc rfl rfl (by cases r <;> simp [Role.afterStore, Pc.holds]) rfl le_rfl id
  case case11 t _ => exact h.outside hpc rfl rfl (by cases r <;> simp [Role.afterNotify, Pc.holds]) rfl le_rfl id
  case case12 t _ =>
    exact h.setFailed.outside (s.mem_setFailed hpc) rfl rfl (by simp [Role.afterNotify, Pc.holds]) rfl le_rfl id
  case case13 t _ => exact h.outside hpc rfl rfl (by simp [Role.afterNotify, Pc.holds]) rfl le_rfl id
  case case18 t p => exact h.outside hpc rfl rfl (by simp [Pc.holds]) rfl (Int.sub_le_self _ zero_le_one) id
  case case21 =>
    refine h.outside hpc rfl rfl (by simp [Pc.holds]) rfl le_rfl fun _ => ?_
    simp [SendState.refuses, SendState.move]
  case case19 | case22 | case23 =>
    refine Monitor.notifyAll ?_
    exact h.outside hpc rfl rfl (List.forall_mem_nil _) rfl le_rfl id
  all_goals exact h.outside hpc rfl rfl (by simp [Pc.holds]) rfl le_rfl id

theorem Monitor.next (h : Monitor r s) (hn : s.next r a = some s') : Monitor r s' := by
  revert hn
  fun_cases SendState.next r s a <;> intro hn
  case case3 hpc => exact h.step hpc hn
  all_goals cases hn
  case case1 => exact h
  case case2 => exact h.spawn rfl (by cases r <;> rfl) rfl rfl id
  case case5 | case6 => exact ⟨h.holders, h.room, h.bounded⟩
  case case7 | case8 => exact h.spawn rfl rfl rfl rfl id
  case case10 hpc => exact h.outside hpc rfl rfl (by simp [Pc.holds]) rfl le_rfl id
  case case12 => exact h.setFailed
  case case13 => exact h.spawn rfl rfl rfl rfl fun _ => by simp [refuses]

/-- Whatever the peer sends, no more transfers are started than the counter allows. -/
theorem monitor_reachable (h : (sendMachine r).Reachable s) : Monitor r s := by
  apply h.invariant (I := Monitor r)
  · intro s hs
    rw [hs]
    exact ⟨rfl, by simp [connected], by decide⟩
  · intro s a s' hmonitor hn
    exact hmonitor.next hn

end

/-! Where transfers are. -/

/-- The transfer the thread still has to see through. -/
def Pc.held : Pc → Multiset Transfer
  | .lock t | .check t | .park t | .parked t | .admitted t | .start t | .store t | .notify t | .cutSeg t
  | .release t _ | .complete t _ => {t}
  | .await _ | .largeDone _ _ | .endpointFailed | .notifyAll => 0

/-- It is counted in `active_large_transfers_`. -/
def Pc.counted (r : Role) : Pc → Multiset Transfer
  | .store t => if r = .client then {t} else 0
  | .notify t | .cutSeg t | .release t _ | .complete t _ => {t}
  | _ => 0

/-- Its frame is still to be stored. -/
def Pc.claims (r : Role) : Pc → Multiset Transfer
  | .lock t | .check t | .park t | .parked t | .admitted t | .start t => if r = .client then {t} else 0
  | .store t => {t}
  | _ => 0

/-- Its frame has to be there. -/
def Pc.needs (r : Role) : Pc → Multiset Transfer
  | .lock t | .check t | .park t | .parked t | .admitted t | .start t => if r = .server then {t} else 0
  | .notify t | .cutSeg t | .release t _ => {t}
  | _ => 0

/-- Transfers with a thread, as `f` counts them, with the peer, and in the data QP. -/
def SendState.total (f : Pc → Multiset Transfer) (s : SendState) : Multiset Transfer :=
  s.threads.bind f + s.notified + s.writes

def SendState.held (s : SendState) : Multiset Transfer := s.total Pc.held + s.completed

def SendState.counted (r : Role) (s : SendState) : Multiset Transfer := s.total (Pc.counted r)

def SendState.claimed (r : Role) (s : SendState) : Multiset Transfer := s.threads.bind (Pc.claims r)

def SendState.needed (r : Role) (s : SendState) : Multiset Transfer := s.total (Pc.needs r)

structure Ledger (r : Role) (s : SendState) : Prop where
  /-- A transfer is in one place, and decremented for once. -/
  held : s.held.Nodup
  serial : ∀ t ∈ s.held, t.serial < s.serial
  counted : ((s.counted r).card : Int) ≤ s.active
  kept : ∀ t ∈ s.needed r, t ∈ s.pendingLargeFrames
  /-- No `rpc_id` is used twice at a time. -/
  keys : ((s.claimed r + s.pendingLargeFrames).map Transfer.rpcId).Nodup

/-- A large message is sent under an `rpc_id` only when no frame is stored under it, nor about
    to be, and an AUTHORITY frame arrives only as the answer to a NOTIFY. -/
def SendState.solicited (r : Role) (s : SendState) : SendAct → Bool
  | .begin rpcId => decide (∀ t ∈ s.claimed r + s.pendingLargeFrames, t.rpcId ≠ rpcId)
  | .authority rpcId => decide (∃ t ∈ s.notified, t.rpcId = rpcId)
  | _ => true

section
variable {r : Role} {s s' : SendState} {pc : Pc} {t : Transfer}

/-- Transfers that stay where they are, move on or get lost. -/
theorem Ledger.of_le (h : Ledger r s) (hheld : s'.held ≤ s.held) (hcounted : s'.counted r ≤ s.counted r)
    (hclaimed : s'.claimed r ≤ s.claimed r) (hneeded : s'.needed r ≤ s.needed r)
    (hframes : s'.pendingLargeFrames = s.pendingLargeFrames) (hactive : s'.active = s.active)
    (hserial : s'.serial = s.serial) : Ledger r s' where
  held := nodup_of_le hheld h.held
  serial := by
    intro t ht
    rw [hserial]
    exact h.serial t (mem_of_le hheld ht)
  counted := by
    have hcard := card_le_card hcounted
    have := h.counted
    rw [hactive]
    omega
  kept := by
    intro t ht
    rw [hframes]
    exact h.kept t (mem_of_le hneeded ht)
  keys := by
    rw [hframes]
    exact nodup_of_le (map_le_map (add_le_add hclaimed le_rfl)) h.keys

theorem Ledger.same_frame (h : Ledger r s) {t' : Transfer} (ht : t ∈ s.pendingLargeFrames)
    (ht' : t' ∈ s.pendingLargeFrames) (heq : t.rpcId = t'.rpcId) : t = t' := by
  have hkeys := h.keys
  rw [map_add, nodup_add] at hkeys
  exact List.inj_on_of_nodup_map (coe_nodup.mp hkeys.2.1) ht ht' heq

/-- The frame that has to be there is the one `GetLargeFrame` finds. -/
theorem Ledger.getLargeFrame (h : Ledger r s) (ht : t ∈ s.needed r) : s.getLargeFrame t.rpcId = some t := by
  have hframe := h.kept t ht
  cases hfind : s.getLargeFrame t.rpcId with
  | none => exact absurd (decide_eq_true rfl) (List.find?_eq_none.mp hfind t hframe)
  | some t' =>
    have hkey : t'.rpcId = t.rpcId := by simpa using List.find?_some hfind
    rw [h.same_frame (List.mem_of_find?_eq_some hfind) hframe hkey]

/-- Only threads differ. -/
structure Untouched (s s' : SendState) : Prop where
  active : s'.active = s.active
  frames : s'.pendingLargeFrames = s.pendingLargeFrames
  notified : s'.notified = s.notified
  writes : s'.writes = s.writes
  serial : s'.serial = s.serial
  completed : s'.completed = s.completed

theorem Ledger.untouched (h : Ledger r s) (hsame : Untouched s s')
    (hbind : ∀ f ∈ [Pc.held, Pc.counted r, Pc.claims r, Pc.needs r], s'.threads.bind f ≤ s.threads.bind f) :
    Ledger r s' := by
  have htotal : ∀ f ∈ [Pc.held, Pc.counted r, Pc.claims r, Pc.needs r], s'.total f ≤ s.total f := by
    intro f hf
    rw [total, total, hsame.notified, hsame.writes]
    exact add_le_add (add_le_add (hbind f hf) le_rfl) le_rfl
  refine h.of_le ?_ (htotal _ (by simp)) (hbind _ (by simp)) (htotal _ (by simp)) hsame.frames hsame.active
    hsame.serial
  rw [SendState.held, SendState.held, hsame.completed]
  exact add_le_add (htotal _ (by simp)) le_rfl

/-- `pcs` carry no more than `pc`. -/
def Keeps (r : Role) (pc : Pc) (pcs : List Pc) : Prop :=
  ∀ f ∈ [Pc.held, Pc.counted r, Pc.claims r, Pc.needs r], (pcs : Multiset Pc).bind f ≤ f pc

theorem Keeps.nothing : Keeps r pc [] := by
  intro f _
  exact zero_le _

theorem Keeps.same {pc' : Pc} (hheld : pc'.held = pc.held) (hcounted : pc'.counted r = pc.counted r)
    (hclaims : pc'.claims r = pc.claims r) (hneeds : pc'.needs r = pc.needs r) : Keeps r pc [pc'] := by
  simp [Keeps, hheld, hcounted, hclaims, hneeds]

section

variable (h : Ledger r s)

include h

/-- A thread moves on, with its transfer or without. -/
theorem Ledger.pass (hpc : pc ∈ s.threads) (hthreads : s'.threads = Threads.replace s.threads pc pcs)
    (hkeeps : Keeps r pc pcs) (hsame : Untouched s s') : Ledger r s' := by
  obtain ⟨R, hR, hreplace⟩ := Threads.replace_spec hpc pcs
  apply h.untouched hsame
  intro f hf
  rw [hthreads, hreplace, hR, add_bind, cons_bind]
  exact add_le_add (hkeeps f hf) le_rfl

/-- A thread that carries no transfer starts. -/
theorem Ledger.spawn (hthreads : s'.threads = pc ::ₘ s.threads)
    (hnone : pc.held = 0 ∧ pc.counted r = 0 ∧ pc.claims r = 0 ∧ pc.needs r = 0) (hsame : Untouched s s') :
    Ledger r s' := by
  apply h.untouched hsame
  rw [hthreads]
  simp [hnone]

theorem Ledger.notifyAll : Ledger r s.notifyAll := by
  refine h.untouched ⟨rfl, rfl, rfl, rfl, rfl, rfl⟩ fun f hf => ?_
  have hawake : ∀ pc : Pc, f pc.awake = f pc := by
    intro pc
    simp only [List.mem_cons, List.not_mem_nil, or_false] at hf
    rcases hf with rfl | rfl | rfl | rfl <;> cases pc <;> rfl
  rw [SendState.notifyAll, bind_map]
  simp only [hawake, le_rfl]

theorem Ledger.setFailed : Ledger r s.setFailed := by
  unfold SendState.setFailed
  split
  · exact h
  · exact h.spawn rfl ⟨rfl, rfl, rfl, rfl⟩ ⟨rfl, rfl, rfl, rfl, rfl, rfl⟩

/-- How a transfer with its frame stored and counted is carried. -/
structure Carries (t : Transfer) (f : Pc → Multiset Transfer) : Prop where
  notify : f (.notify t) = {t}
  cutSeg : f (.cutSeg t) = {t}
  release : ∀ p, f (.release t p) = {t}
  await : f (.await t) = 0

/-- Such a transfer goes from one hand to another. -/
theorem Ledger.handOver (t : Transfer) (htotal : ∀ f, Carries t f → s'.total f = s.total f)
    (hclaimed : s'.claimed r = s.claimed r) (hcompleted : s'.completed = s.completed)
    (hframes : s'.pendingLargeFrames = s.pendingLargeFrames) (hactive : s'.active = s.active)
    (hserial : s'.serial = s.serial) : Ledger r s' := by
  refine h.of_le (le_of_eq ?_) (le_of_eq ?_) hclaimed.le (le_of_eq ?_) hframes hactive hserial
  · rw [SendState.held, SendState.held, htotal _ ⟨rfl, rfl, fun _ => rfl, rfl⟩, hcompleted]
  · exact htotal _ ⟨rfl, rfl, fun _ => rfl, rfl⟩
  · exact htotal _ ⟨rfl, rfl, fun _ => rfl, rfl⟩

/-! The steps that move a transfer. -/

/-- Admission: the transfer is counted from here on. -/
theorem Ledger.start (hpc : .start t ∈ s.threads) :
    Ledger r ({ s with active := s.active + 1, locked := false }.move (.start t) [r.afterStart t]) := by
  obtain ⟨R, hR, hreplace⟩ := Threads.replace_spec hpc [r.afterStart t]
  have hthreads : Threads.replace s.threads (.start t) [r.afterStart t] = r.afterStart t ::ₘ R := hreplace
  obtain ⟨hheld, hserial, hcounted, hkept, hkeys⟩ := h
  simp only [SendState.held, SendState.counted, claimed, needed, total, hR,
    cons_bind] at hheld hserial hcounted hkept hkeys
  constructor <;>
    simp only [SendState.held, SendState.counted, claimed, needed, total,
      SendState.move, hthreads, cons_bind]
  · cases r <;> exact hheld
  · cases r <;> exact hserial
  · cases r <;> simp [Role.afterStart, Pc.counted] at hcounted ⊢ <;> omega
  · cases r <;> exact hkept
  · cases r <;> exact hkeys

/-- `StoreLargeFrame` overwrites nothing. -/
theorem Ledger.store (hpc : .store t ∈ s.threads) :
    Ledger r ((s.storeLargeFrame t).move (.store t) [r.afterStore t]) := by
  obtain ⟨R, hR, hreplace⟩ := Threads.replace_spec hpc [r.afterStore t]
  have hthreads : Threads.replace s.threads (.store t) [r.afterStore t] = r.afterStore t ::ₘ R := hreplace
  obtain ⟨hheld, hserial, hcounted, hkept, hkeys⟩ := h
  simp only [SendState.held, SendState.counted, claimed, needed, total, hR,
    cons_bind] at hheld hserial hcounted hkept hkeys
  have hnew : s.pendingLargeFrames.filter (·.rpcId ≠ t.rpcId) = s.pendingLargeFrames := by
    rw [List.filter_eq_self]
    intro t' ht'
    have hmem : t'.rpcId ∈ (R.bind (Pc.claims r) + s.pendingLargeFrames).map Transfer.rpcId :=
      mem_map_of_mem _ (mem_add.mpr (.inr ht'))
    have hnot : t.rpcId ∉ (R.bind (Pc.claims r) + s.pendingLargeFrames).map Transfer.rpcId := by
      simp only [Pc.claims, singleton_add, cons_add, map_cons, nodup_cons] at hkeys
      exact hkeys.1
    simp only [decide_not, Bool.not_eq_eq_eq_not, Bool.not_true, decide_eq_false_iff_not]
    intro heq
    exact hnot (heq ▸ hmem)
  constructor <;>
    simp only [SendState.held, SendState.counted, claimed, needed, total,
      SendState.move, SendState.storeLargeFrame, hnew, hthreads, cons_bind]
  · cases r <;> exact hheld
  · cases r <;> exact hserial
  · cases r <;> exact hcounted
  · intro t' ht'
    have ht' : t' = t ∨ t' ∈ R.bind (Pc.needs r) + s.notified + s.writes := by
      cases r <;> simpa [Role.afterStore, Pc.needs, or_assoc] using ht'
    refine ht'.elim (fun heq => heq ▸ List.mem_cons_self) fun ht' => List.mem_cons_of_mem _ (hkept t' ?_)
    simpa [Pc.needs] using ht'
  · have hsame : (r.afterStore t).claims r = 0 := by cases r <;> rfl
    rw [hsame, zero_add, ← cons_coe, add_cons]
    simpa [Pc.claims] using hkeys

/-- The NOTIFY goes out. -/
theorem Ledger.notify (hpc : .notify t ∈ s.threads) :
    Ledger r ({ s with notified := t :: s.notified }.move (.notify t) (r.afterNotify t)) := by
  obtain ⟨R, hR, hreplace⟩ := Threads.replace_spec hpc (r.afterNotify t)
  have hbind : ∀ f : Pc → Multiset Transfer, f (.await t) = 0 →
      (Threads.replace s.threads (.notify t) (r.afterNotify t)).bind f = R.bind f := by
    intro f hf
    rw [hreplace]
    cases r <;> simp [Role.afterNotify, hf]
  refine h.handOver t (fun f hf => ?_) ?_ rfl rfl rfl rfl
  · rw [total, total, move_threads, hbind f hf.await, hR, cons_bind, hf.notify]
    simp only [move, ← cons_coe, ← singleton_add]
    abel
  · rw [claimed, claimed, move_threads, hbind _ rfl, hR, cons_bind]
    exact (zero_add _).symm

/-- The frame the handler points to is the one it found, and the write sends from it. -/
theorem Ledger.cutSeg (hpc : .cutSeg t ∈ s.threads) :
    Ledger r ({ s with writes := (s.getLargeFrame t.rpcId).getD t ::ₘ s.writes }.move (.cutSeg t) []) := by
  obtain ⟨R, hR, hreplace⟩ := Threads.replace_spec hpc []
  have hthreads : Threads.replace s.threads (.cutSeg t) [] = R := by simpa using hreplace
  have hneeded : t ∈ s.needed r := by simp [needed, total, hR, Pc.needs]
  rw [h.getLargeFrame hneeded, Option.getD_some]
  refine h.handOver t (fun f hf => ?_) ?_ rfl rfl rfl rfl
  · rw [total, total, move_threads, hthreads, hR, cons_bind, hf.cutSeg]
    simp only [move, ← singleton_add]
    abel
  · rw [claimed, claimed, move_threads, hthreads, hR, cons_bind]
    exact (zero_add _).symm

/-- The completion of a write is taken. -/
theorem Ledger.poll (ht : t ∈ s.writes) :
    Ledger r { s with writes := s.writes.erase t, threads := .release t true ::ₘ s.threads } := by
  obtain ⟨W, hW⟩ := exists_cons_of_mem ht
  refine h.handOver t (fun f hf => ?_) ?_ rfl rfl rfl rfl
  · rw [total, total, hW, erase_cons_head, cons_bind, hf.release,
      ← singleton_add t W]
    abel
  · simp [claimed, Pc.claims]

/-- A NOTIFY whose answer comes to nothing. -/
theorem Ledger.lose (p : Transfer → Bool) : Ledger r { s with notified := s.notified.filter p } := by
  have htotal : ∀ f : Pc → Multiset Transfer,
      total f { s with notified := s.notified.filter p } ≤ s.total f := by
    intro f
    refine add_le_add (add_le_add le_rfl ?_) le_rfl
    exact coe_le.mpr List.filter_sublist.subperm
  exact h.of_le (add_le_add (htotal _) le_rfl) (htotal _) le_rfl (htotal _) rfl rfl rfl

/-- The AUTHORITY that was asked for: its handler finds the frame. -/
theorem Ledger.authority (ht : t ∈ s.notified) :
    s.getLargeFrame t.rpcId = some t ∧ Ledger r
      { s with notified := s.notified.filter (·.rpcId ≠ t.rpcId), threads := .cutSeg t ::ₘ s.threads } := by
  have hneeded : ∀ t' ∈ s.notified, t' ∈ s.needed r := by
    intro t' ht'
    simp [needed, total, ht']
  refine ⟨h.getLargeFrame (hneeded t ht), h.handOver t (fun f hf => ?_) ?_ rfl rfl rfl rfl⟩
  · -- the only NOTIFY under this `rpc_id`
    have hfilter : s.notified.filter (·.rpcId ≠ t.rpcId) = s.notified.erase t := by
      have hnodup : s.notified.Nodup := by
        have := h.held
        simp only [SendState.held, total, nodup_add] at this
        exact coe_nodup.mp this.1.1.2.1
      rw [hnodup.erase_eq_filter]
      apply List.filter_congr
      intro t' ht'
      have hiff : t'.rpcId = t.rpcId ↔ t' = t :=
        ⟨h.same_frame (h.kept t' (hneeded t' ht')) (h.kept t (hneeded t ht)), congrArg _⟩
      by_cases heq : t' = t <;> simp [hiff, heq]
    have hperm : (s.notified : Multiset Transfer) = {t} + (s.notified.erase t : List Transfer) :=
      coe_eq_coe.mpr (List.perm_cons_erase ht)
    rw [total, total, hperm, cons_bind, hf.cutSeg]
    simp only [hfilter]
    abel
  · simp [claimed, Pc.claims]

end

theorem Pc.needs_subset_held (pc : Pc) : pc.needs r ⊆ pc.held := by
  cases r <;> cases pc <;> simp [Pc.needs, Pc.held]

/-- A transfer is with one thread or somewhere else. -/
theorem Ledger.not_elsewhere (h : Ledger r s) {R : Multiset Pc} (hR : s.threads = pc ::ₘ R) (ht : pc.held = {t}) :
    t ∉ R.bind (Pc.needs r) + s.notified + s.writes := by
  have hheld := h.held
  simp only [SendState.held, total, hR, cons_bind, ht, add_assoc, singleton_add,
    cons_add, nodup_cons] at hheld
  intro hmem
  apply hheld.1
  simp only [mem_add, or_assoc] at hmem ⊢
  refine hmem.imp (fun hneeds => ?_) (Or.imp_right .inl)
  obtain ⟨x, hx, hxt⟩ := mem_bind.mp hneeds
  exact mem_bind.mpr ⟨x, hx, x.needs_subset_held hxt⟩

/-- `ReleaseLargeFrame` erases the frame of this transfer only. -/
theorem Ledger.release (h : Ledger r s) {p : Bool} (hpc : .release t p ∈ s.threads) :
    Ledger r ((s.releaseLargeFrame t.rpcId).move (.release t p) [.complete t p]) := by
  obtain ⟨R, hR, hreplace⟩ := Threads.replace_spec hpc [.complete t p]
  have hthreads : Threads.replace s.threads (.release t p) [.complete t p] = .complete t p ::ₘ R := hreplace
  have hframe : t ∈ s.pendingLargeFrames := h.kept t (by simp [needed, total, hR, Pc.needs])
  have helsewhere := h.not_elsewhere hR rfl
  have hsame : ∀ t' ∈ s.pendingLargeFrames, t'.rpcId = t.rpcId → t' = t :=
    fun t' ht' heq => h.same_frame ht' hframe heq
  obtain ⟨hheld, hserial, hcounted, hkept, hkeys⟩ := h
  simp only [SendState.held, SendState.counted, claimed, needed, total, hR,
    cons_bind] at hheld hserial hcounted hkept hkeys
  constructor <;>
    simp only [SendState.held, SendState.counted, claimed, needed, total,
      SendState.move, SendState.releaseLargeFrame, hthreads, cons_bind]
  · exact hheld
  · exact hserial
  · exact hcounted
  · intro t' ht'
    have ht' : t' ∈ R.bind (Pc.needs r) + s.notified + s.writes := by simpa [Pc.needs] using ht'
    have hframe' : t' ∈ s.pendingLargeFrames := by
      apply hkept t'
      rw [add_assoc, add_assoc, ← add_assoc (R.bind _)]
      exact mem_add.mpr (.inr ht')
    refine List.mem_filter.mpr ⟨hframe', decide_eq_true fun heq => ?_⟩
    rw [hsame t' hframe' heq] at ht'
    exact helsewhere ht'
  · refine nodup_of_le (map_le_map (add_le_add le_rfl ?_)) hkeys
    exact coe_le.mpr List.filter_sublist.subperm

/-- The decrement. -/
theorem Ledger.complete (h : Ledger r s) {p : Bool} (hpc : .complete t p ∈ s.threads) :
    Ledger r ({ s with active := s.active - 1, completed := t ::ₘ s.completed }.move (.complete t p)
      [.largeDone t p]) := by
  obtain ⟨R, hR, hreplace⟩ := Threads.replace_spec hpc [.largeDone t p]
  have hthreads : Threads.replace s.threads (.complete t p) [.largeDone t p] = .largeDone t p ::ₘ R := hreplace
  obtain ⟨hheld, hserial, hcounted, hkept, hkeys⟩ := h
  simp only [SendState.held, SendState.counted, claimed, needed, total, hR,
    cons_bind, Pc.held, Pc.counted, Pc.claims, Pc.needs] at hheld hserial hcounted hkept hkeys
  have hmoved : (0 : Multiset Transfer) + R.bind Pc.held + s.notified + s.writes + t ::ₘ s.completed =
      {t} + R.bind Pc.held + s.notified + s.writes + s.completed := by
    rw [← singleton_add]
    abel
  constructor <;>
    simp only [SendState.held, SendState.counted, claimed, needed, total,
      SendState.move, hthreads, cons_bind, Pc.held, Pc.counted, Pc.claims, Pc.needs]
  · exact hmoved ▸ hheld
  · exact hmoved ▸ hserial
  · simp only [zero_add, card_add, card_singleton] at hcounted ⊢
    omega
  · exact hkept
  · exact hkeys

/-- A new message, under an `rpc_id` nobody uses. -/
theorem Ledger.begin (h : Ledger r s) {rpcId : Nat}
    (hfresh : ∀ t ∈ s.claimed r + s.pendingLargeFrames, t.rpcId ≠ rpcId) :
    Ledger r { s with threads := r.begin ⟨rpcId, s.serial⟩ ::ₘ s.threads, serial := s.serial + 1 } := by
  have hheld : (r.begin ⟨rpcId, s.serial⟩).held = {⟨rpcId, s.serial⟩} := by cases r <;> rfl
  have hcounted : (r.begin ⟨rpcId, s.serial⟩).counted r = 0 := by cases r <;> rfl
  have hclaims : (r.begin ⟨rpcId, s.serial⟩).claims r = {⟨rpcId, s.serial⟩} := by cases r <;> rfl
  have hneeds : (r.begin ⟨rpcId, s.serial⟩).needs r = 0 := by cases r <;> rfl
  have htotal : SendState.held
      { s with threads := r.begin ⟨rpcId, s.serial⟩ ::ₘ s.threads, serial := s.serial + 1 } =
        ⟨rpcId, s.serial⟩ ::ₘ s.held := by
    simp [SendState.held, total, hheld]
  constructor
  · rw [htotal, nodup_cons]
    exact ⟨fun hmem => lt_irrefl _ (h.serial _ hmem), h.held⟩
  · intro t ht
    rw [htotal] at ht
    rcases mem_cons.mp ht with ht | ht
    · rw [ht]
      exact Nat.lt_succ_self _
    · exact Nat.lt_succ_of_lt (h.serial t ht)
  · simpa [SendState.counted, total, hcounted] using h.counted
  · simpa [needed, total, hneeds] using h.kept
  · have hkeys : claimed r
        { s with threads := r.begin ⟨rpcId, s.serial⟩ ::ₘ s.threads, serial := s.serial + 1 } =
          ⟨rpcId, s.serial⟩ ::ₘ s.claimed r := by
      simp [claimed, hclaims]
    rw [hkeys, cons_add, map_cons, nodup_cons]
    refine ⟨fun hmem => ?_, h.keys⟩
    obtain ⟨t, ht, hkey⟩ := mem_map.mp hmem
    exact hfresh t ht hkey

theorem Ledger.step (h : Ledger r s) (hpc : pc ∈ s.threads) (hn : s.step r ok pc = some s') : Ledger r s' := by
  have hkeeps : ∀ r t, Keeps r (.notify t) (r.afterNotify t) := by
    intro r t f hf
    simp only [List.mem_cons, List.not_mem_nil, or_false] at hf
    rcases hf with rfl | rfl | rfl | rfl <;> cases r <;> exact zero_le _
  revert hpc hn
  fun_cases SendState.step r s ok pc <;> intro hpc hn <;> cases hn
  case case9 => exact h.start hpc
  case case10 => exact h.store hpc
  case case11 => exact h.notify hpc
  case case12 => exact h.setFailed.pass (s.mem_setFailed hpc) rfl (hkeeps _ _) ⟨rfl, rfl, rfl, rfl, rfl, rfl⟩
  case case13 => exact h.pass hpc rfl (hkeeps _ _) ⟨rfl, rfl, rfl, rfl, rfl, rfl⟩
  case case15 => exact h.cutSeg hpc
  case case17 => exact h.release hpc
  case case18 => exact h.complete hpc
  case case7 | case14 => exact h.pass hpc rfl .nothing ⟨rfl, rfl, rfl, rfl, rfl, rfl⟩
  case case19 | case22 | case23 =>
    apply Ledger.notifyAll
    exact h.pass hpc rfl .nothing ⟨rfl, rfl, rfl, rfl, rfl, rfl⟩
  all_goals exact h.pass hpc rfl (.same rfl rfl rfl rfl) ⟨rfl, rfl, rfl, rfl, rfl, rfl⟩

theorem Ledger.next (h : Ledger r s) (ha : s.solicited r a) (hn : s.next r a = some s') : Ledger r s' := by
  revert ha hn
  fun_cases SendState.next r s a <;> intro ha hn
  case case3 hpc => exact h.step hpc hn
  all_goals cases hn
  case case1 => exact h
  case case2 => exact h.begin (of_decide_eq_true ha)
  case case5 =>
    -- a failed server answers nobody: the transfer is lost
    obtain ⟨t, ht, rfl⟩ := of_decide_eq_true ha
    exact h.lose _
  case case6 hnone =>
    obtain ⟨t, ht, rfl⟩ := of_decide_eq_true ha
    rw [(h.authority ht).1] at hnone
    cases hnone
  case case7 t' hfind =>
    obtain ⟨t, ht, rfl⟩ := of_decide_eq_true ha
    obtain ⟨hfind', hledger⟩ := h.authority ht
    cases hfind.symm.trans hfind'
    exact hledger
  case case8 ht => exact h.poll ht.1
  case case10 hpc => exact h.pass hpc rfl (.same rfl rfl rfl rfl) ⟨rfl, rfl, rfl, rfl, rfl, rfl⟩
  case case12 => exact h.setFailed
  case case13 => exact h.spawn rfl ⟨rfl, rfl, rfl, rfl⟩ ⟨rfl, rfl, rfl, rfl, rfl, rfl⟩

theorem ledger_run {tr : List SendAct} (h : ((sendMachine r).guard (solicited r)).Run tr s) : Ledger r s := by
  apply h.invariant (I := fun _ s => Ledger r s)
  · intro s hs
    obtain rfl : s = .connected := hs
    refine ⟨?_, ?_, ?_, ?_, ?_⟩ <;>
      simp [held, counted, claimed, needed, total,
        connected]
  · intro tr s a s' _ hledger hn
    obtain ⟨ha, hn⟩ := Machine.guard_next.mp hn
    exact hledger.next ha hn

/-- What the accounting of large transfers is for. -/
structure SendState.Accounted (s : SendState) : Prop where
  nonneg : 0 ≤ s.active
  bounded : s.active ≤ kMaxLargeTransfers
  /-- The data QP has room for all writes. -/
  depth : s.writes.card ≤ kDataQpDepth
  /-- No transfer is decremented for twice. -/
  once : ∀ t, s.completed.count t ≤ 1
  /-- The frame of an outstanding write is still stored. -/
  stored : ∀ t ∈ s.writes, t ∈ s.pendingLargeFrames

/-- **Accounting of large transfers.** In every run in which AUTHORITY frames only answer
    NOTIFY frames, each once, and no `rpc_id` is used for two large messages at a time, the
    counter stays between 0 and its limit, the data QP is deep enough, every transfer is
    decremented for at most once, and no frame is erased under a write. -/
theorem transfers_accounted {tr : List SendAct}
    (h : ((sendMachine r).guard (SendState.solicited r)).Run tr s) : s.Accounted := by
  have hledger := ledger_run h
  have hmonitor := monitor_reachable ⟨tr, h.of_guard⟩
  have hcounted := hledger.counted
  have hbounded := hmonitor.bounded
  refine ⟨?_, hbounded, ?_, ?_, ?_⟩
  · omega
  · have hwrites : s.writes.card ≤ (s.counted r).card := Multiset.card_le_card (Multiset.le_add_left _ _)
    simp only [kMaxLargeTransfers] at hbounded
    simp only [kDataQpDepth]
    omega
  · intro t
    have hcompleted : s.completed ≤ s.held := Multiset.le_add_left _ _
    exact Multiset.nodup_iff_count_le_one.mp (Multiset.nodup_of_le hcompleted hledger.held) t
  · intro t ht
    exact hledger.kept t (Multiset.mem_add.mpr (.inr ht))

end

/-- A client sends one large message up to its NOTIFY. -/
def sendLarge (t : Transfer) : List SendAct :=
  [.begin t.rpcId, .step (.lock t) true, .step (.check t) true, .step (.admitted t) true, .step (.start t) true,
    .step (.store t) true, .step (.notify t) true]

/-- A completion from its poll to its notification. -/
def pollDone (t : Transfer) : List SendAct :=
  [.poll t, .step (.release t true) true, .step (.complete t true) true, .step (.largeDone t true) true]

/-- The message is answered once, written and done with; its call times out. -/
theorem answered_once_accounted :
    ∃ s, ((sendMachine .client).guard (SendState.solicited .client)).Run
      (List.flatten [sendLarge ⟨1, 0⟩, [.authority 1, .step (.cutSeg ⟨1, 0⟩) true], pollDone ⟨1, 0⟩,
        [.step (.await ⟨1, 0⟩) false]]) s ∧
      s.completed = {⟨1, 0⟩} ∧ s.Accounted := by
  have hexec : ∃ s, ((sendMachine .client).guard (SendState.solicited .client)).Run
      (List.flatten [sendLarge ⟨1, 0⟩, [.authority 1, .step (.cutSeg ⟨1, 0⟩) true], pollDone ⟨1, 0⟩,
        [.step (.await ⟨1, 0⟩) false]]) s ∧ s.completed = {⟨1, 0⟩} :=
    Machine.exists_run rfl (by decide +kernel)
  obtain ⟨s, hrun, hcompleted⟩ := hexec
  exact ⟨s, hrun, hcompleted, transfers_accounted hrun⟩

/-- The same AUTHORITY frame twice. Both writes are posted from the one frame; the first
    completion erases it under the second write, and the second one takes the counter below
    zero. -/
theorem repeated_authority :
    (∃ s, (sendMachine .client).Run
      (List.flatten [sendLarge ⟨1, 0⟩, [.authority 1, .authority 1, .step (.cutSeg ⟨1, 0⟩) true,
        .step (.cutSeg ⟨1, 0⟩) true, .poll ⟨1, 0⟩, .step (.release ⟨1, 0⟩ true) true]]) s ∧
      s.writes = {⟨1, 0⟩} ∧ s.pendingLargeFrames = []) ∧
    (∃ s, (sendMachine .client).Run
      (List.flatten [sendLarge ⟨1, 0⟩, [.authority 1, .authority 1, .step (.cutSeg ⟨1, 0⟩) true,
        .step (.cutSeg ⟨1, 0⟩) true], pollDone ⟨1, 0⟩, pollDone ⟨1, 0⟩]) s ∧
      s.active = -1 ∧ s.completed.count ⟨1, 0⟩ = 2) :=
  ⟨Machine.exists_run rfl (by decide +kernel), Machine.exists_run rfl (by decide +kernel)⟩

/-! Who is left parked. -/

/-- The predicate was false for this caller, and nothing has woken it since. -/
def Pc.waits : Pc → Bool
  | .park _ | .parked _ => true
  | _ => false

/-- Between its check and its parking. -/
def Pc.parking : Pc → Bool
  | .park _ => true
  | _ => false

/-- The notification of a completed transfer is still to come. -/
def Pc.notifies : Pc → Bool
  | .largeDone _ _ => true
  | _ => false

/-- A caller is parked for good: it could start, and no notification is on its way. -/
def SendState.Stranded (s : SendState) : Prop :=
  (∃ t, .parked t ∈ s.threads) ∧ s.canStartLargeTransfer = true ∧ s.failed = false ∧
    ∀ pc ∈ s.threads, pc.notifies = false

/-- `large_cv_` is notified of a completion only while no caller is between its check and its
    parking, as if the notifier held `large_mutex_`. -/
def SendState.unhurried (s : SendState) : SendAct → Bool
  | .step (.largeDone _ _) _ => decide (∀ pc ∈ s.threads, pc.parking = false)
  | _ => true

/-- Whoever waits has a reason to, or is going to be notified. -/
def SendState.Covered (s : SendState) : Prop :=
  (∃ pc ∈ s.threads, pc.waits = true) →
    s.canStartLargeTransfer = false ∨ s.failed = true ∨ ∃ pc ∈ s.threads, pc.notifies = true

section
variable {r : Role} {s s' : SendState} {pc : Pc}

theorem SendState.Covered.keep (h : s.Covered)
    (hwaits : ∀ pc ∈ s'.threads, pc.waits → ∃ pc ∈ s.threads, pc.waits)
    (hnotifies : ∀ pc ∈ s.threads, pc.notifies → ∃ pc ∈ s'.threads, pc.notifies)
    (hactive : s.active ≤ s'.active) (hfailed : s.failed → s'.failed) : s'.Covered := by
  intro ⟨pc, hpc, hw⟩
  rcases h (hwaits pc hpc hw) with hfull | hfail | ⟨pc', hpc', hn⟩
  · refine .inl (decide_eq_false fun hlt => ?_)
    exact of_decide_eq_false hfull (lt_of_le_of_lt hactive hlt)
  · exact .inr (.inl (hfailed hfail))
  · exact .inr (.inr (hnotifies pc' hpc' hn))

/-- One thread moves that has nothing to notify, and waits afterwards only if it did before. -/
theorem SendState.Covered.move (h : s.Covered) (hpc : pc ∈ s.threads)
    (hthreads : s'.threads = Threads.replace s.threads pc pcs) (hnot : pc.notifies = false)
    (hpcs : ∀ x ∈ pcs, x.waits → pc.waits) (hactive : s.active ≤ s'.active)
    (hfailed : s.failed → s'.failed) : s'.Covered := by
  obtain ⟨R, hR, hreplace⟩ := Threads.replace_spec hpc pcs
  rw [hreplace] at hthreads
  apply h.keep _ _ hactive hfailed
  · intro x hx hw
    rw [hthreads] at hx
    rcases mem_add.mp hx with hx | hx
    · exact ⟨pc, hpc, hpcs x hx hw⟩
    · exact ⟨x, hR ▸ mem_cons_of_mem hx, hw⟩
  · intro x hx hn
    rw [hR] at hx
    rcases mem_cons.mp hx with hx | hx
    · rw [hx, hnot] at hn
      cases hn
    · exact ⟨x, hthreads ▸ mem_add.mpr (.inr hx), hn⟩

theorem SendState.Covered.spawn (h : s.Covered) (hthreads : s'.threads = pc ::ₘ s.threads) (hpc : pc.waits = false)
    (hactive : s.active ≤ s'.active) (hfailed : s.failed → s'.failed) : s'.Covered := by
  apply h.keep _ _ hactive hfailed
  · intro x hx hw
    rw [hthreads] at hx
    rcases mem_cons.mp hx with hx | hx
    · rw [hx, hpc] at hw
      cases hw
    · exact ⟨x, hx, hw⟩
  · intro x hx hn
    exact ⟨x, hthreads ▸ mem_cons_of_mem hx, hn⟩

theorem SendState.Covered.setFailed (h : s.Covered) : s.setFailed.Covered := by
  unfold SendState.setFailed
  split
  · exact h
  · exact h.spawn rfl rfl le_rfl fun _ => rfl

theorem SendState.Covered.notifyAll (h : s.Covered) : s.notifyAll.Covered := by
  refine h.keep ?_ ?_ le_rfl id
  · intro x hx hw
    obtain ⟨y, hy, hyx⟩ := mem_map.mp hx
    refine ⟨y, hy, ?_⟩
    rw [← hyx] at hw
    cases y <;> first | rfl | exact hw
  · intro x hx hn
    refine ⟨x.awake, mem_map_of_mem _ hx, ?_⟩
    cases x <;> first | rfl | exact hn

/-- After a notification that no caller misses, nobody waits. -/
theorem covered_of_notifyAll (hparking : ∀ pc ∈ s.threads, pc.parking = false) : s.notifyAll.Covered := by
  rintro ⟨x, hx, hw⟩
  obtain ⟨y, hy, hyx⟩ := mem_map.mp hx
  have hawake : y.awake.waits = y.parking := by cases y <;> rfl
  rw [← hyx, hawake, hparking y hy] at hw
  cases hw

theorem SendState.Covered.step (h : s.Covered) (hpc : pc ∈ s.threads) (ha : s.unhurried (.step pc ok))
    (hn : s.step r ok pc = some s') : s'.Covered := by
  revert hpc ha hn
  fun_cases SendState.step r s ok pc <;> intro hpc ha hn <;> cases hn
  case case4 t hpred =>
    intro _
    simp only [Bool.or_eq_true, not_or, Bool.not_eq_true] at hpred
    exact .inl hpred.1
  case case5 => exact h.move hpc rfl rfl (fun _ _ _ => rfl) le_rfl id
  case case9 =>
    exact h.move hpc rfl rfl (by cases r <;> simp [Role.afterStart, Pc.waits]) (Int.le_add_one le_rfl) id
  case case10 => exact h.move hpc rfl rfl (by cases r <;> simp [Role.afterStore, Pc.waits]) le_rfl id
  case case11 => exact h.move hpc rfl rfl (by cases r <;> simp [Role.afterNotify, Pc.waits]) le_rfl id
  case case12 =>
    exact h.setFailed.move (s.mem_setFailed hpc) rfl rfl (by simp [Role.afterNotify, Pc.waits]) le_rfl id
  case case13 => exact h.move hpc rfl rfl (by simp [Role.afterNotify]) le_rfl id
  case case18 t p =>
    -- the counter goes down, and the notification is due
    intro _
    refine .inr (.inr ⟨.largeDone t p, ?_, rfl⟩)
    exact mem_add.mpr (.inl (List.mem_singleton.mpr rfl))
  case case19 t p =>
    apply covered_of_notifyAll
    intro x hx
    have hx := Threads.mem_replace hx
    exact of_decide_eq_true ha x (hx.resolve_left List.not_mem_nil)
  case case22 | case23 =>
    apply SendState.Covered.notifyAll
    exact h.move hpc rfl rfl (by simp) le_rfl id
  all_goals exact h.move hpc rfl rfl (by simp [Pc.waits]) le_rfl id

theorem SendState.Covered.next (h : s.Covered) (ha : s.unhurried a) (hn : s.next r a = some s') : s'.Covered := by
  revert ha hn
  fun_cases SendState.next r s a <;> intro ha hn
  case case3 hpc => exact h.step hpc ha hn
  all_goals cases hn
  case case1 | case5 | case6 => exact h
  case case2 => exact h.spawn rfl (by cases r <;> rfl) le_rfl id
  case case10 hpc => exact h.move hpc rfl rfl (by simp [Pc.waits]) le_rfl id
  case case12 => exact h.setFailed
  all_goals exact h.spawn rfl rfl le_rfl id

/-- **No lost wake-up, with the mutex held.** In every run in which the notification of a
    completion never falls between a caller's check and its parking, no caller is left parked
    that could start. -/
theorem no_caller_stranded {tr : List SendAct} (h : ((sendMachine r).guard SendState.unhurried).Run tr s) :
    ¬ s.Stranded := by
  have hcovered : s.Covered := by
    apply h.invariant (I := fun _ s => s.Covered)
    · intro s hs
      obtain rfl : s = .connected := hs
      rintro ⟨pc, hpc, _⟩
      exact absurd hpc (Multiset.notMem_zero pc)
    · intro tr s a s' _ hcovered hn
      obtain ⟨ha, hn⟩ := Machine.guard_next.mp hn
      exact hcovered.next ha hn
  rintro ⟨⟨t, ht⟩, hroom, hfailed, hnone⟩
  rcases hcovered ⟨_, ht, rfl⟩ with hfull | hfail | ⟨pc, hpc, hnotifies⟩
  · rw [hroom] at hfull
    cases hfull
  · rw [hfailed] at hfail
    cases hfail
  · rw [hnone pc hpc] at hnotifies
    cases hnotifies

end

/-- Eight messages fill the counter, the ninth caller finds its predicate false, and the first
    message is answered and written. -/
def ninthCaller : List SendAct :=
  List.flatten [(List.range 8).flatMap fun i => sendLarge ⟨i + 1, i⟩,
    [.begin 9, .step (.lock ⟨9, 8⟩) true, .step (.check ⟨9, 8⟩) true, .authority 1, .step (.cutSeg ⟨1, 0⟩) true]]

/-- The ninth caller parks before the completion and is woken by it. -/
theorem parkedFirst_woken :
    ∃ s, ((sendMachine .client).guard SendState.unhurried).Run
      (List.flatten [ninthCaller, [.step (.park ⟨9, 8⟩) true], pollDone ⟨1, 0⟩]) s ∧
      .lock ⟨9, 8⟩ ∈ s.threads ∧ ¬ s.Stranded := by
  have hexec : ∃ s, ((sendMachine .client).guard SendState.unhurried).Run
      (List.flatten [ninthCaller, [.step (.park ⟨9, 8⟩) true], pollDone ⟨1, 0⟩]) s ∧ .lock ⟨9, 8⟩ ∈ s.threads :=
    Machine.exists_run rfl (by decide +kernel)
  obtain ⟨s, hrun, hwoken⟩ := hexec
  exact ⟨s, hrun, hwoken, no_caller_stranded hrun⟩

/-- The completion is counted and notified while the ninth caller is about to park. -/
theorem wakeup_lost :
    ∃ s, (sendMachine .client).Run
      (List.flatten [ninthCaller, pollDone ⟨1, 0⟩, [.step (.park ⟨9, 8⟩) true]]) s ∧ s.Stranded := by
  have hexec : ∃ s, (sendMachine .client).Run
      (List.flatten [ninthCaller, pollDone ⟨1, 0⟩, [.step (.park ⟨9, 8⟩) true]]) s ∧
      (.parked ⟨9, 8⟩ ∈ s.threads ∧ s.canStartLargeTransfer = true ∧ s.failed = false ∧
        ∀ pc ∈ s.threads, pc.notifies = false) :=
    Machine.exists_run rfl (by decide +kernel)
  obtain ⟨s, hrun, hparked, hrest⟩ := hexec
  exact ⟨s, hrun, ⟨_, hparked⟩, hrest⟩

end LightRpc.LargeSend

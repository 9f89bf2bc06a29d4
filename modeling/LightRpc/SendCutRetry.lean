import LightRpc.SendCut

/- What EAGAIN tells the caller of `CutFromIOBufList`.

   `StartWrite` and `KeepWrite` call it again after -1 with `errno` EAGAIN. Only the exit for a
   closed window sets `errno`. The exits for memory that is not registered and for a refused
   post leave it as it was: if it is EAGAIN from an earlier system call of the thread, the
   caller tries again although bytes have left its buffers.

   Whether that happens is decided by what the call is given: the references of the buffers, the
   region lookups, the windows with what the poller adds to them, `errno` on entry, and the
   results of the posts with the `errno` they set. -/
namespace LightRpc.Sending

open IOBuffer

/-- The call has done nothing so far that a second one would repeat or lose. -/
structure Untouched (ep : Endpoint) (bufs slots : List IOBuf) (s : CutState) : Prop where
  posted : s.posted = []
  bufs : s.bufs = bufs
  slots : s.slots = slots
  credits : s.ep.newRqWrs = ep.newRqWrs

/-- What a round starts with: the references that are left, `errno` and the windows. -/
structure RoundStart where
  rest : List BlockRef
  errno : Int
  remoteRqWnd : Int
  sqWnd : Int

/-- What the call is given. -/
structure Inputs where
  region : Regions
  maxSge : Nat
  env : Nat → Round
  ep : Endpoint
  bufs : List IOBuf
  errno : Int

namespace Inputs

/-- What the request of a round takes, and whether it finds it registered. -/
def request (c : Inputs) (b : RoundStart) : Nat × Bool := requestLen c.region c.maxSge c.ep.remoteRecvBlockSize b.rest

/-- What round `k` starts with if the requests before it were accepted. -/
def start (c : Inputs) : Nat → RoundStart
  | 0 => ⟨c.bufs.flatMap IOBuf.refs, c.errno, c.ep.remoteRqWindowSize, c.ep.sqWindowSize⟩
  | k + 1 =>
    let b := c.start k
    let e := c.env k
    ⟨dropRefs b.rest (c.request b).1, e.errno.getD b.errno, int32 (b.remoteRqWnd + e.gainRemote - 1),
      int32 (b.sqWnd + e.gainSq - 1)⟩

/-- The windows are open, and the round finds bytes to send or memory that is not registered. -/
def Goes (c : Inputs) (k : Nat) : Prop :=
  uint32 (c.start k).remoteRqWnd ≠ 0 ∧ uint32 (c.start k).sqWnd ≠ 0 ∧ c.request (c.start k) ≠ (0, true)

/-- Round `k` has a request, and it is accepted. -/
def Passes (c : Inputs) (k : Nat) : Prop := c.Goes k ∧ (c.request (c.start k)).2 = true ∧ (c.env k).post = 0

/-- Round `k` would fail with EAGAIN in `errno`: at memory that is not registered, when bytes have
    been taken before, or because its request is refused. -/
def FailsStale (c : Inputs) (k : Nat) : Prop :=
  (c.request (c.start k)).2 = false ∧ (0 < k ∨ 0 < (c.request (c.start k)).1) ∧ (c.start k).errno = EAGAIN ∨
    (c.request (c.start k)).2 = true ∧ (c.env k).post ≠ 0 ∧ (c.start (k + 1)).errno = EAGAIN

/-- The call comes to a round that fails with an EAGAIN that is not its own. -/
def StaleErrno (c : Inputs) : Prop :=
  c.ep.failed = false ∧ ∃ k, (∀ i < k, c.Passes i) ∧ c.Goes k ∧ c.FailsStale k

end Inputs

def CutState.roundStart (s : CutState) : RoundStart := ⟨s.rest, s.errno, s.ep.remoteRqWindowSize, s.ep.sqWindowSize⟩

variable {c : Inputs} {heap : Heap} {slots : List IOBuf} {error : Int} {s s' : CutState} {r q m n k k' : Nat}
  {sg : List Sge} {ok : Bool}

/-- A round that leaves the buffers as they were took nothing. -/
theorem CutState.Shift.took_nothing (hs : s.Ok) (hshift : s.Shift m s') (hbufs : s'.bufs = s.bufs) : m = 0 := by
  have hrest : s'.rest = s.rest := by rw [← hshift.ok.flatMap, ← hs.flatMap, hbufs]
  have htotal := (total_dropRefs hs.rest hshift.le).2
  rw [← hshift.rest, hrest] at htotal
  have := hshift.le
  omega

/-- A round that took nothing changed nothing. -/
theorem Untouched.shift {ep : Endpoint} {bufs : List IOBuf} (hu : Untouched ep bufs slots s) (hshift : s.Shift 0 s') :
    Untouched ep bufs slots s' := by
  obtain ⟨-, hbufs, hslots⟩ := hshift.same rfl
  refine ⟨hshift.posted.trans hu.posted, hbufs.trans hu.bufs, hslots.trans hu.slots, ?_⟩
  rw [hshift.ep]
  exact hu.credits

/-- There is one round at which the call stops. -/
theorem Inputs.stop_unique (hk : ∀ i < k, c.Passes i) (hstop : ¬ c.Passes k) (hk' : ∀ i < k', c.Passes i)
    (hstop' : ¬ c.Passes k') : k' = k := by
  rcases Nat.lt_trichotomy k' k with hlt | heq | hgt
  · exact absurd (hk k' hlt) hstop'
  · exact heq
  · exact absurd (hk' k hgt) hstop

theorem Inputs.FailsStale.not_passes (h : c.FailsStale k) : ¬ c.Passes k := by
  rintro ⟨-, hok, hpost⟩
  rcases h with ⟨hfail, -⟩ | ⟨-, hrefused, -⟩
  · rw [hok] at hfail
    cases hfail
  · exact hrefused hpost

/-- The rounds so far have passed, and until the first one nothing is changed. -/
structure Follows (c : Inputs) (slots : List IOBuf) (s : CutState) (r q : Nat) : Prop where
  passed : ∀ i < s.posted.length, c.Passes i
  start : s.roundStart = c.start s.posted.length
  remote : r = uint32 s.ep.remoteRqWindowSize
  sq : q = uint32 s.ep.sqWindowSize
  block : s.ep.remoteRecvBlockSize = c.ep.remoteRecvBlockSize
  posted : s.posted ≠ [] → 0 < s.totalLen
  untouched : s.posted = [] → Untouched c.ep c.bufs slots s

namespace Follows

section

variable (h : Follows c slots s r q)

include h

theorem request (hf : Filled c.region c.maxSge s [] 0 m (s', sg, n, ok)) :
    c.request (c.start s.posted.length) = (m, ok) := by
  have hasked := hf.asked
  rw [h.block] at hasked
  rw [← h.start]
  exact hasked

theorem errno (hshift : s.Shift m s') : s'.errno = (c.start s.posted.length).errno := by
  rw [hshift.errno, ← h.start]
  rfl

theorem goes_iff : c.Goes s.posted.length ↔ r ≠ 0 ∧ q ≠ 0 ∧ c.request (c.start s.posted.length) ≠ (0, true) := by
  rw [h.remote, h.sq, Inputs.Goes, ← h.start]
  rfl

/-- The call stops at this round. -/
theorem stale_iff (hup : c.ep.failed = false) (hstop : ¬ c.Passes s.posted.length) :
    c.StaleErrno ↔ c.Goes s.posted.length ∧ c.FailsStale s.posted.length := by
  constructor
  · rintro ⟨-, k, hpassed, hgoes, hfails⟩
    obtain rfl := Inputs.stop_unique h.passed hstop hpassed hfails.not_passes
    exact ⟨hgoes, hfails⟩
  · exact fun hfails => ⟨hup, _, h.passed, hfails⟩

theorem not_stale (hup : c.ep.failed = false) (hidle : ¬ c.Goes s.posted.length) : ¬ c.StaleErrno := by
  rw [h.stale_iff hup fun hp => hidle hp.1]
  exact fun hfails => hidle hfails.1

theorem untouched_iff (hs : s.Ok) (hshift : s.Shift m s') :
    Untouched c.ep c.bufs slots s' ↔ s.posted.length = 0 ∧ m = 0 := by
  constructor
  · intro hu
    have hnone := hshift.posted.symm.trans hu.posted
    exact ⟨List.length_eq_zero_iff.mpr hnone, hshift.took_nothing hs (hu.bufs.trans (h.untouched hnone).bufs.symm)⟩
  · rintro ⟨hnone, rfl⟩
    exact (h.untouched (List.length_eq_zero_iff.mp hnone)).shift hshift

theorem sent (hr : r ≠ 0) (hq : q ≠ 0) (hm : 0 < m) (hf : Filled c.region c.maxSge s [] 0 m (s', sg, m, true))
    (hpost : (c.env s'.posted.length).post = 0) :
    let t := s'.sent r q sg (c.env s'.posted.length)
    Follows c slots t (uint32 t.ep.remoteRqWindowSize) (uint32 t.ep.sqWindowSize) := by
  intro t
  have hlength : t.posted.length = s.posted.length + 1 := by
    rw [← hf.shift.posted]
    exact List.length_append
  have hrequest := h.request hf
  obtain ⟨_, _, _, hep⟩ := sent_ep s' r q sg (c.env s'.posted.length)
  have hstart : t.roundStart = c.start (s.posted.length + 1) := by
    rw [Inputs.start, hrequest, ← h.start, ← hf.shift.posted]
    show RoundStart.mk s'.rest ((c.env s'.posted.length).errno.getD s'.errno) t.ep.remoteRqWindowSize t.ep.sqWindowSize = _
    rw [hep, hf.shift.rest, hf.shift.errno, hf.shift.ep]
    rfl
  refine ⟨fun i hi => ?_, hlength ▸ hstart, rfl, rfl, ?_, fun _ => ?_, fun hnone => ?_⟩
  · rw [hlength] at hi
    rcases Nat.lt_succ_iff_lt_or_eq.mp hi with hi | rfl
    · exact h.passed i hi
    · refine ⟨h.goes_iff.mpr ⟨hr, hq, ?_⟩, congrArg Prod.snd hrequest, hf.shift.posted ▸ hpost⟩
      rw [hrequest]
      exact fun heq => absurd (congrArg Prod.fst heq) (Nat.ne_of_gt hm)
  · rw [hep, hf.shift.ep]
    exact h.block
  · have hlen : s'.totalLen = s.totalLen + m := (hf.len rfl).2
    show 0 < s'.totalLen
    omega
  · rw [hnone] at hlength
    cases hlength

end

end Follows

/-- The call keeps what EAGAIN says exactly when no round fails with an old one. -/
theorem retryRule (hup : c.ep.failed = false) : LoopRule c.region c.maxSge c.env (Follows c slots)
    (fun out => (returned out = -1 → out.2.errno = EAGAIN → Untouched c.ep c.bufs slots out.2) ↔ ¬ c.StaleErrno) where
  finished := by
    intro s r q _ h hend
    have hrest : s.rest = [] := by rw [CutState.rest, hend, List.drop_length, List.flatMap_nil]
    refine iff_of_true (fun hret => ?_) (h.not_stale hup fun hgoes => (h.goes_iff.mp hgoes).2.2 ?_)
    · have hret : (s.totalLen : Int) = -1 := hret
      omega
    · rw [← h.start]
      exact requestLen_stop (.inr (.inr hrest))
  closed := by
    intro s r q _ h _ hwnd
    refine iff_of_true ?_ (h.not_stale hup fun hgoes => ?_)
    · split
      · intro hret
        have hret : (s.totalLen : Int) = -1 := hret
        omega
      · rename_i hlen
        exact fun _ _ => { h.untouched (by_contra fun hne => hlen (h.posted hne)) with }
    · obtain ⟨hr, hq, -⟩ := h.goes_iff.mp hgoes
      exact hwnd.elim hr hq
  unregistered := by
    intro s r q m s' sg n hs h _ hr hq hf
    have hrequest := h.request hf
    have hgoes : c.Goes s.posted.length := h.goes_iff.mpr ⟨hr, hq, by simp [hrequest]⟩
    rw [h.stale_iff hup fun hp => by simpa [hrequest] using hp.2.1, Inputs.FailsStale, hrequest, ← h.errno hf.shift,
      h.untouched_iff hs hf.shift]
    have hret : returned (.notRegistered, s') = -1 := rfl
    simp only [hgoes, hret]
    grind
  empty := by
    intro s r q k h hrest _
    refine { h with start := ?_, untouched := fun hnone => { h.untouched hnone with } }
    rw [CutState.roundStart, hrest]
    exact h.start
  refused := by
    intro s r q m s' sg hs h _ hr hq hm hf hpost
    rw [show s'.posted = s.posted from hf.shift.posted] at hpost ⊢
    have hrequest := h.request hf
    have hgoes : c.Goes s.posted.length := h.goes_iff.mpr ⟨hr, hq, by simp [hrequest]; omega⟩
    have hchanged : ¬ Untouched c.ep c.bufs slots (s'.offered r q sg (c.env s.posted.length)) := by
      intro hu
      have hnone := hf.shift.posted.symm.trans hu.posted
      have hzero := hf.shift.took_nothing hs (hu.bufs.trans (h.untouched hnone).bufs.symm)
      omega
    have herrno : (s'.offered r q sg (c.env s.posted.length)).errno = (c.start (s.posted.length + 1)).errno := by
      rw [Inputs.start, ← h.errno hf.shift]
      rfl
    have hret : returned (.notPosted, s'.offered r q sg (c.env s.posted.length)) = -1 := rfl
    rw [h.stale_iff hup fun hp => hpost hp.2.2, Inputs.FailsStale, hrequest, ← herrno]
    simp only [hgoes, hret]
    grind
  posted := by
    intro s r q m s' sg _ h _ hr hq hm hf hpost
    exact h.sent hr hq hm hf hpost

/-- **EAGAIN means nothing happened**, exactly when the call comes to no round that fails with an
    EAGAIN from before. -/
theorem eagain_untouched_iff {out : Exit × CutState} (hbufs : ∀ v ∈ c.bufs, v.Ok)
    (hout : cutFromIOBufList c.region c.maxSge c.env error c.ep heap c.bufs slots c.errno = some out) :
    (returned out = -1 → out.2.errno = EAGAIN → Untouched c.ep c.bufs slots out.2) ↔ ¬ c.StaleErrno := by
  rw [cutFromIOBufList] at hout
  split at hout
  · rename_i hfailed
    cases hout
    refine iff_of_true (fun _ _ => ⟨rfl, rfl, rfl, rfl⟩) fun hstale => ?_
    rw [hstale.1] at hfailed
    cases hfailed
  · rename_i hup
    refine (retryRule (Bool.eq_false_iff.mpr hup)).cutLoop (start_ok hbufs) ?_ hout
    exact ⟨fun i hi => absurd hi (Nat.not_lt_zero i), rfl, rfl, rfl, rfl, fun hne => absurd rfl hne,
      fun _ => ⟨rfl, rfl, rfl, rfl⟩⟩

/-- Only the first block is registered; user data is not. -/
def onlyPool : Regions := fun b _ => if b = 0 then 5 else 0

/-- With EAGAIN in `errno` on entry: the first buffer is empty and its bytes are in the slot
    when the call fails at the second one, and the caller is told to try again. -/
theorem unregistered_block_retried : ∃ s,
    cutFromIOBufList onlyPool 32 quiet 0 openEndpoint pairHeap pairBufs emptySlots EAGAIN = some (.notRegistered, s) ∧
    returned (.notRegistered, s) = -1 ∧ s.errno = EAGAIN ∧
    s.bufs.map IOBuf.length = [0, 2] ∧ (s.slots.getD 0 .new).length = 3 := by
  have hrun : (cutFromIOBufList onlyPool 32 quiet 0 openEndpoint pairHeap pairBufs emptySlots EAGAIN).any
      (fun out => decide (out.1 = .notRegistered ∧ out.2.errno = EAGAIN ∧ out.2.bufs.map IOBuf.length = [0, 2] ∧
        (out.2.slots.getD 0 .new).length = 3)) = true := by
    decide
  obtain ⟨⟨exit, s⟩, hcall, hout⟩ := (Option.any_eq_true _ _).mp hrun
  obtain ⟨rfl, herrno, hbufs, hslot⟩ := of_decide_eq_true hout
  exact ⟨s, hcall, rfl, herrno, hbufs, hslot⟩

/-- The same call without an old EAGAIN. -/
def freshCall : Inputs := ⟨onlyPool, 32, quiet, openEndpoint, pairBufs, 0⟩

theorem freshCall_errno (k : Nat) : (freshCall.start k).errno = 0 := by
  induction k with
  | zero => rfl
  | succ k ih => exact ih

/-- It is not tried again. -/
theorem unregistered_block_reported : ∃ out,
    cutFromIOBufList onlyPool 32 quiet 0 openEndpoint pairHeap pairBufs emptySlots 0 = some out ∧
    (returned out = -1 → out.2.errno = EAGAIN → Untouched openEndpoint pairBufs emptySlots out.2) := by
  obtain ⟨out, hcall⟩ : ∃ out,
      cutFromIOBufList onlyPool 32 quiet 0 openEndpoint pairHeap pairBufs emptySlots 0 = some out :=
    cutFromIOBufList_returns pairBufs_ok (by decide) (by decide)
  refine ⟨out, hcall, (eagain_untouched_iff (c := freshCall) pairBufs_ok hcall).mpr ?_⟩
  rintro ⟨-, k, -, -, ⟨-, -, hagain⟩ | ⟨-, -, hagain⟩⟩
  all_goals
    rw [freshCall_errno] at hagain
    exact absurd hagain (by decide)

end LightRpc.Sending

import LightRpc.SendCut

/- The peer is told of every call of `CutFromIOBufList`.

   The receive CQ of the peer is armed for solicited completions only. Whether a request has to
   be solicited is decided before it is posted, from the windows the loop knows of and from
   the number of the current buffer: the last one that a window admits, or one that reaches the
   last buffer. What the loop then does depends on the windows as they are after the post. The
   poller only ever adds to them, so that a request that was not the last one is followed by
   another one. -/
namespace LightRpc.Sending

open List

open IOBuffer

variable {w : Int} {gain : Nat → Nat} {k : Nat} {s : CutState}

/-- What the poller has added to a window before its `k`-th decrement. -/
def gained (gain : Nat → Nat) (k : Nat) : Int := (Finset.range k).sum fun i => (gain i : Int)

/-- A window that the poller never drives out of the range of `int`. -/
structure Window (w : Int) (gain : Nat → Nat) : Prop where
  nonneg : 0 ≤ w
  bounded : ∀ k : Nat, w + gained gain (k + 1) - k < 2 ^ 31

/-- The value of a window after `k` requests. -/
def windowAfter (w : Int) (gain : Nat → Nat) (k : Nat) : Int := w + gained gain k - k

theorem windowAfter_succ (w : Int) (gain : Nat → Nat) (k : Nat) :
    windowAfter w gain (k + 1) = windowAfter w gain k + gain k - 1 := by
  rw [windowAfter, windowAfter, gained, gained, Finset.sum_range_succ]
  push_cast
  omega

theorem Window.lt (hw : Window w gain) (k : Nat) : windowAfter w gain k + gain k < 2 ^ 31 := by
  have hbound := hw.bounded k
  have hsucc := windowAfter_succ w gain k
  rw [windowAfter] at hsucc
  push_cast at hsucc
  omega

/-- The window after `k` requests, and what the loop knows of it. -/
structure Known (w : Int) (gain : Nat → Nat) (k : Nat) (now : Int) (r : Nat) : Prop where
  value : now = windowAfter w gain k
  nonneg : 0 ≤ now
  known : r = uint32 now

theorem Window.start (hw : Window w gain) : Known w gain 0 w (uint32 w) := by
  refine ⟨?_, hw.nonneg, rfl⟩
  rw [windowAfter, gained, Finset.sum_range_zero, Int.add_zero, Int.natCast_zero, Int.sub_zero]

/-- A window that is not closed is decremented without a wrap, and one that admits two requests is
    open after the next one. -/
theorem Known.step {now : Int} {r : Nat} (h : Known w gain k now r) (hw : Window w gain) (hr : r ≠ 0) :
    let now' := int32 (now + gain k - 1)
    Known w gain (k + 1) now' (uint32 now') ∧ (r ≠ 1 → uint32 now' ≠ 0) := by
  have hlt := hw.lt k
  have hsucc := windowAfter_succ w gain k
  rw [← h.value] at hlt hsucc
  have h0 := h.nonneg
  have hcast := uint32_of_bounds (x := now) h0 (by omega)
  have hknown := h.known
  have hstep : int32 (now + gain k - 1) = windowAfter w gain (k + 1) := by
    rw [← hsucc]
    exact int32_of_bounds (by omega) (by omega)
  have hcast' := uint32_of_bounds (x := windowAfter w gain (k + 1)) (by omega) (by omega)
  rw [hstep]
  exact ⟨⟨rfl, by omega, rfl⟩, by omega⟩

/-! How the flags are spaced. -/

/-- Since the last solicited request there were no more than `counter` others; there are never
    more than `limit + 1` of them between two; and `entry` counts those before the call. -/
structure Spaced (limit entry : Int) (flags : List Bool) (counter : Int) : Prop where
  low : -2 ^ 31 ≤ counter
  between : ∀ i j, i < j → j ≤ flags.length → flags[i]? = some true →
    (∀ k, i < k → k < j → flags[k]? = some false) → (j - i - 1 : Int) ≤ limit + 1
  since : ∀ i, i < flags.length → flags[i]? = some true →
    (∀ k, i < k → k < flags.length → flags[k]? = some false) → (flags.length - i - 1 : Int) ≤ counter
  first : ∀ j, 0 < j → j ≤ flags.length → (∀ k, k < j → flags[k]? = some false) → entry + j ≤ limit + 1
  counted : (∀ k, k < flags.length → flags[k]? = some false) → counter = entry + flags.length

theorem Spaced.nil {limit entry : Int} (h : -2 ^ 31 ≤ entry) : Spaced limit entry [] entry := by
  refine ⟨h, ?_, ?_, ?_, fun _ => (Int.add_zero entry).symm⟩
  · intro i j hij hj
    exact absurd (Nat.lt_of_lt_of_le hij hj) (Nat.not_lt_zero i)
  · intro i hi
    exact absurd hi (Nat.not_lt_zero i)
  · intro j h0 hj
    exact absurd (Nat.lt_of_lt_of_le h0 hj) (Nat.not_lt_zero 0)

section Concat

variable {limit entry counter : Int} {flags : List Bool}

theorem getElem?_concat_lt {b : Bool} (hk : k < flags.length) : (flags ++ [b])[k]? = flags[k]? :=
  getElem?_append_left hk

/-- A solicited request starts a new count. -/
theorem Spaced.solicited (hs : Spaced limit entry flags counter) (hlimit : 0 ≤ limit) :
    Spaced limit entry (flags ++ [true]) 0 := by
  have hlast : (flags ++ [true])[flags.length]? = some true := by
    rw [getElem?_append_right (Nat.le_refl _), Nat.sub_self, getElem?_cons_zero]
  have hend : ∀ {i j}, i < j → j = flags.length + 1 → (∀ k, i < k → k < j → (flags ++ [true])[k]? = some false) →
      i = flags.length := by
    intro i j hij hj hfalse
    by_contra hne
    have := hfalse flags.length (by omega) (by omega)
    rw [hlast] at this
    exact nomatch this
  refine ⟨by decide, ?_, ?_, ?_, ?_⟩
  all_goals rw [length_append, length_singleton]
  · intro i j hij hj htrue hfalse
    rcases Nat.lt_or_ge flags.length j with hlt | hle
    · have := hend hij (by omega) hfalse
      omega
    · refine hs.between i j hij hle ?_ fun k hik hkj => ?_
      · rwa [getElem?_concat_lt (by omega)] at htrue
      · rw [← getElem?_concat_lt (b := true) (by omega)]
        exact hfalse k hik hkj
  · intro i hi htrue hfalse
    have := hend hi rfl hfalse
    push_cast
    omega
  · intro j h0 hj hfalse
    rcases Nat.lt_or_ge flags.length j with hlt | hle
    · have := hfalse flags.length hlt
      rw [hlast] at this
      exact nomatch this
    · refine hs.first j h0 hle fun k hk => ?_
      rw [← getElem?_concat_lt (b := true) (by omega)]
      exact hfalse k hk
  · intro hfalse
    have := hfalse flags.length (Nat.lt_succ_self _)
    rw [hlast] at this
    exact nomatch this

/-- Another one is posted only while the count is within the limit. -/
theorem Spaced.unsolicited (hs : Spaced limit entry flags counter) (hle : counter ≤ limit) :
    Spaced limit entry (flags ++ [false]) (counter + 1) := by
  have hlast : (flags ++ [false])[flags.length]? = some false := by
    rw [getElem?_append_right (Nat.le_refl _), Nat.sub_self, getElem?_cons_zero]
  have hlow := hs.low
  have htrue_lt : ∀ {i}, i < flags.length + 1 → (flags ++ [false])[i]? = some true → i < flags.length := by
    intro i hi htrue
    by_contra hge
    rw [show i = flags.length by omega, hlast] at htrue
    exact nomatch htrue
  refine ⟨by omega, ?_, ?_, ?_, ?_⟩
  all_goals rw [length_append, length_singleton]
  · intro i j hij hj htrue hfalse
    have hi := htrue_lt (by omega) htrue
    rw [getElem?_concat_lt hi] at htrue
    rcases Nat.lt_or_ge flags.length j with hlt | hge
    · have hsince := hs.since i hi htrue fun k hik hk => by
        rw [← getElem?_concat_lt (b := false) hk]
        exact hfalse k hik (by omega)
      omega
    · refine hs.between i j hij hge htrue fun k hik hkj => ?_
      rw [← getElem?_concat_lt (b := false) (by omega)]
      exact hfalse k hik hkj
  · intro i hi htrue hfalse
    have hi := htrue_lt hi htrue
    rw [getElem?_concat_lt hi] at htrue
    have hsince := hs.since i hi htrue fun k hik hk => by
      rw [← getElem?_concat_lt (b := false) hk]
      exact hfalse k hik (by omega)
    push_cast
    omega
  · intro j h0 hj hfalse
    rcases Nat.lt_or_ge flags.length j with hlt | hge
    · have hcounted := hs.counted fun k hk => by
        rw [← getElem?_concat_lt (b := false) hk]
        exact hfalse k (by omega)
      omega
    · refine hs.first j h0 hge fun k hk => ?_
      rw [← getElem?_concat_lt (b := false) (by omega)]
      exact hfalse k hk
  · intro hfalse
    have hcounted := hs.counted fun k hk => by
      rw [← getElem?_concat_lt (b := false) hk]
      exact hfalse k (by omega)
    push_cast
    omega

end Concat

/-! The decision of one round. -/

variable {region : Regions} {maxSge : Nat} {env : Nat → Round} {error : Int} {ep : Endpoint} {heap : Heap}
  {bufs slots : List IOBuf} {errno : Int}

theorem sent_unsolicited (s : CutState) (r q : Nat) (sg : List Sge) (e : Round) : ∃ imm,
    (s.makeWr r q sg e).1.solicited =
      (Endpoint.solicit { s.ep with newRqWrs := 0 } r q (decide (s.bufs.length ≤ s.current + 1)) imm).1 ∧
    (s.sent r q sg e).ep.unsolicited =
      (Endpoint.solicit { s.ep with newRqWrs := 0 } r q (decide (s.bufs.length ≤ s.current + 1)) imm).2.unsolicited := by
  refine ⟨uint32 (int32 (s.ep.newRqWrs + e.credits)), rfl, ?_⟩
  simp only [CutState.sent, CutState.charge, CutState.offered, CutState.afterPost, CutState.makeWr, Endpoint.advanceSq,
    Endpoint.makeWr, Endpoint.signal]
  split <;> rfl

/-- A request that is not solicited leaves both windows open and the last buffer untouched, and
    is counted. -/
theorem solicited_or (s : CutState) (r q : Nat) (sg : List Sge) (e : Round) :
    ((s.makeWr r q sg e).1.solicited ∧ (s.sent r q sg e).ep.unsolicited = 0) ∨
    ((s.makeWr r q sg e).1.solicited = false ∧ r ≠ 1 ∧ q ≠ 1 ∧ s.current + 1 < s.bufs.length ∧
      s.ep.unsolicited ≤ s.ep.localWindowCapacity.tdiv 4 ∧
      (s.sent r q sg e).ep.unsolicited = int32 (s.ep.unsolicited + 1)) := by
  obtain ⟨imm, hflag, hcounter⟩ := sent_unsolicited s r q sg e
  rw [hflag, hcounter, Endpoint.solicit]
  split
  · exact .inl ⟨rfl, rfl⟩
  · rename_i hnone
    simp only [not_or, decide_eq_true_eq, not_le, gt_iff_lt, not_lt] at hnone
    obtain ⟨hr, hq, hcur, hcount, -⟩ := hnone
    exact .inr ⟨rfl, hr, hq, hcur, hcount, rfl⟩

/-! The whole call. -/

/-- The flags of the requests posted so far. -/
def CutState.flags (s : CutState) : List Bool := s.posted.map fun w => w.wr.solicited

/-- There are buffers behind the current one only if the last of them has data. -/
def CutState.DataAhead (s : CutState) : Prop :=
  s.current + 1 < s.bufs.length → ∃ v, s.bufs.getLast? = some v ∧ v.refs ≠ []

/-- What holds at the head of the loop. -/
structure Notifying (env : Nat → Round) (ep : Endpoint) (s : CutState) (r q : Nat) : Prop where
  ahead : s.DataAhead
  blockSize : s.ep.remoteRecvBlockSize = ep.remoteRecvBlockSize
  capacity : s.ep.localWindowCapacity = ep.localWindowCapacity
  remote : Known ep.remoteRqWindowSize (fun i => (env i).gainRemote) s.posted.length s.ep.remoteRqWindowSize r
  sq : Known ep.sqWindowSize (fun i => (env i).gainSq) s.posted.length s.ep.sqWindowSize q
  spaced : Spaced (ep.localWindowCapacity.tdiv 4) ep.unsolicited s.flags s.ep.unsolicited
  /-- The last request was solicited, or another one will follow. -/
  last : s.posted ≠ [] → (s.flags.getLast? = some true ∧ s.ep.unsolicited = 0) ∨
    (s.current + 1 < s.bufs.length ∧ r ≠ 0 ∧ q ≠ 0)

theorem CutState.DataAhead.shift {s' : CutState} {m : Nat} (h : s.DataAhead) (hshift : s.Shift m s') : s'.DataAhead := by
  intro hlt
  have hforward := hshift.forward
  have hlength := hshift.length
  obtain ⟨v, hlast, hne⟩ := h (by omega)
  refine ⟨v, ?_, hne⟩
  have hdrop := congrArg getLast? hshift.later
  rw [getLast?_drop, getLast?_drop, if_neg (by omega), if_neg (by omega)] at hdrop
  exact hdrop.trans hlast

/-- With data ahead there is something left. -/
theorem CutState.DataAhead.rest_ne_nil (h : s.DataAhead) (hlt : s.current + 1 < s.bufs.length) : s.rest ≠ [] := by
  obtain ⟨v, hlast, hne⟩ := h hlt
  intro hnil
  have hmem : v ∈ s.bufs.drop s.current := by
    apply mem_of_getLast?
    rw [getLast?_drop, if_neg (by omega)]
    exact hlast
  exact hne (flatMap_eq_nil_iff.mp hnil v hmem)

theorem flags_shift {s' : CutState} {m : Nat} (hshift : s.Shift m s') : s'.flags = s.flags := by
  rw [CutState.flags, CutState.flags, hshift.posted]

theorem flags_sent (s : CutState) (r q : Nat) (sg : List Sge) (e : Round) :
    (s.sent r q sg e).flags = s.flags ++ [(s.makeWr r q sg e).1.solicited] :=
  map_append

/-- The result of a call for the peer. -/
structure Notified (ep : Endpoint) (out : Exit × CutState) : Prop where
  last : out.1 = .done → out.2.posted ≠ [] → out.2.flags.getLast? = some true ∧ out.2.ep.unsolicited = 0
  spaced : ∃ counter, Spaced (ep.localWindowCapacity.tdiv 4) ep.unsolicited out.2.flags counter
  windows : 0 ≤ out.2.ep.remoteRqWindowSize ∧ 0 ≤ out.2.ep.sqWindowSize

theorem notifyRule (hremote : Window ep.remoteRqWindowSize fun i => (env i).gainRemote)
    (hsq : Window ep.sqWindowSize fun i => (env i).gainSq) (hsge : 0 < maxSge) (hblock : 0 < ep.remoteRecvBlockSize)
    (hcap : 0 ≤ ep.localWindowCapacity ∧ ep.localWindowCapacity < 2 ^ 31) :
    LoopRule region maxSge env (Notifying env ep) (Notified ep) where
  finished := by
    intro s r q hs hI hend
    refine ⟨fun _ hne => ?_, ⟨_, hI.spaced⟩, hI.remote.nonneg, hI.sq.nonneg⟩
    rcases hI.last hne with hlast | ⟨hlt, -⟩
    · exact hlast
    · omega
  closed := by
    intro s r q hs hI hlt hwnd
    split
    · refine ⟨fun _ hne => ?_, ⟨_, hI.spaced⟩, hI.remote.nonneg, hI.sq.nonneg⟩
      rcases hI.last hne with hlast | ⟨-, hr, hq⟩
      · exact hlast
      · exact absurd hwnd (not_or.mpr ⟨hr, hq⟩)
    · exact ⟨fun hdone => Exit.noConfusion hdone, ⟨_, hI.spaced⟩, hI.remote.nonneg, hI.sq.nonneg⟩
  unregistered := by
    intro s r q m s' sg n hs hI hlt hr hq hf
    refine ⟨fun hdone => Exit.noConfusion hdone, ⟨s.ep.unsolicited, ?_⟩, ?_⟩
    · show Spaced _ _ s'.flags _
      rw [flags_shift hf.shift]
      exact hI.spaced
    · show 0 ≤ s'.ep.remoteRqWindowSize ∧ 0 ≤ s'.ep.sqWindowSize
      rw [hf.shift.ep]
      exact ⟨hI.remote.nonneg, hI.sq.nonneg⟩
  empty := by
    intro s r q k hI hrest hend
    have hend := hend hsge (by rw [hI.blockSize]; exact hblock)
    have hnone : s.rest = [] := by rw [← hrest, CutState.rest, hend, drop_length, flatMap_nil]
    refine { hI with ahead := fun hlt => ?_, last := fun hne => ?_ }
    · dsimp only at hlt
      omega
    · exact (hI.last hne).imp_right fun hlast => absurd hnone (hI.ahead.rest_ne_nil hlast.1)
  refused := by
    intro s r q m s' sg hs hI hlt hr hq hm hf hpost
    obtain ⟨_, _, _, hep⟩ := makeWr_frame { s'.ep with newRqWrs := 0 } r q (gather s'.heap sg)
      (decide (s'.bufs.length ≤ s'.current + 1)) (uint32 (int32 (s'.ep.newRqWrs + (env s'.posted.length).credits)))
    refine ⟨fun hdone => Exit.noConfusion hdone, ⟨s.ep.unsolicited, ?_⟩, ?_⟩
    · show Spaced _ _ s'.flags _
      rw [flags_shift hf.shift]
      exact hI.spaced
    · show 0 ≤ (s'.makeWr r q sg _).2.remoteRqWindowSize ∧ 0 ≤ (s'.makeWr r q sg _).2.sqWindowSize
      rw [CutState.makeWr, hep, hf.shift.ep]
      exact ⟨hI.remote.nonneg, hI.sq.nonneg⟩
  posted := by
    intro s r q m s' sg _ hI _ hr hq _ hf _
    have hlimit : 0 ≤ ep.localWindowCapacity.tdiv 4 ∧ ep.localWindowCapacity.tdiv 4 < 2 ^ 30 := by
      rw [Int.tdiv_eq_ediv_of_nonneg hcap.1]
      omega
    have hposted : s'.posted = s.posted := hf.shift.posted
    rw [hposted]
    obtain ⟨hremote', hropen⟩ := hI.remote.step hremote hr
    obtain ⟨hsq', hqopen⟩ := hI.sq.step hsq hq
    have hcount : (s'.sent r q sg (env s.posted.length)).posted.length = s.posted.length + 1 := by
      rw [← hposted]
      exact length_append
    have hdecided := solicited_or s' r q sg (env s.posted.length)
    obtain ⟨_, _, _, hep⟩ := sent_ep s' r q sg (env s.posted.length)
    have hspaced := hI.spaced
    rw [← flags_shift hf.shift] at hspaced
    have hahead : s'.DataAhead := hI.ahead.shift hf.shift
    refine ⟨hahead, ?_, ?_, ?_, ?_, ?_, fun _ => ?_⟩
    · rw [hep, hf.shift.ep]
      exact hI.blockSize
    · rw [hep, hf.shift.ep]
      exact hI.capacity
    · rw [hcount, hep, hf.shift.ep]
      exact hremote'
    · rw [hcount, hep, hf.shift.ep]
      exact hsq'
    · rw [flags_sent]
      rw [hf.shift.ep, hI.capacity] at hdecided
      rcases hdecided with ⟨hflag, hcounter⟩ | ⟨hflag, -, -, -, hwithin, hcounter⟩
      · rw [hflag, hcounter]
        exact hspaced.solicited hlimit.1
      · have hlow := hspaced.low
        rw [hflag, hcounter, int32_of_bounds (by omega) (by omega)]
        exact hspaced.unsolicited hwithin
    · rw [flags_sent, getLast?_concat]
      rcases hdecided with ⟨hflag, hcounter⟩ | ⟨-, hr1, hq1, hahead, -⟩
      · exact .inl ⟨congrArg some hflag, hcounter⟩
      · rw [hep, hf.shift.ep]
        exact .inr ⟨hahead, hropen hr1, hqopen hq1⟩

/-- Every call that posts something and succeeds ends with a solicited request, and no more
    than a quarter of the window and one lie between two of them. The counter starts at zero
    after such a call, so that this holds across calls as well. -/
theorem receiver_notified (hbufs : ∀ v ∈ bufs, v.Ok) (hlast : ∃ v, bufs.getLast? = some v ∧ v.refs ≠ [])
    (hremote : Window ep.remoteRqWindowSize fun i => (env i).gainRemote)
    (hsq : Window ep.sqWindowSize fun i => (env i).gainSq) (hsge : 0 < maxSge) (hblock : 0 < ep.remoteRecvBlockSize)
    (hcap : 0 ≤ ep.localWindowCapacity ∧ ep.localWindowCapacity < 2 ^ 31) (hentry : -2 ^ 31 ≤ ep.unsolicited) :
    ∃ out, cutFromIOBufList region maxSge env error ep heap bufs slots errno = some out ∧
      (0 ≤ returned out → out.2.posted ≠ [] → out.2.flags.getLast? = some true ∧ out.2.ep.unsolicited = 0) ∧
      (∀ i j, i < j → j ≤ out.2.flags.length → out.2.flags[i]? = some true →
        (∀ k, i < k → k < j → out.2.flags[k]? = some false) → (j - i - 1 : Int) ≤ ep.localWindowCapacity / 4 + 1) ∧
      (∀ j, 0 < j → j ≤ out.2.flags.length → (∀ k, k < j → out.2.flags[k]? = some false) →
        ep.unsolicited + j ≤ ep.localWindowCapacity / 4 + 1) ∧
      0 ≤ out.2.ep.remoteRqWindowSize ∧ 0 ≤ out.2.ep.sqWindowSize := by
  obtain ⟨out, hout⟩ : ∃ out, cutFromIOBufList region maxSge env error ep heap bufs slots errno = some out :=
    cutFromIOBufList_returns hbufs hsge hblock
  have hnotified : Notified ep out := by
    rw [cutFromIOBufList] at hout
    split at hout
    · cases hout
      exact ⟨fun hdone => Exit.noConfusion hdone, ⟨_, .nil hentry⟩, hremote.nonneg, hsq.nonneg⟩
    · exact (notifyRule hremote hsq hsge hblock hcap).cutLoop (start_ok hbufs)
        ⟨fun _ => hlast, rfl, rfl, hremote.start, hsq.start, .nil hentry, fun hne => absurd rfl hne⟩ hout
  obtain ⟨counter, hspaced⟩ := hnotified.spaced
  have hbetween := hspaced.between
  have hfirst := hspaced.first
  rw [Int.tdiv_eq_ediv_of_nonneg hcap.1] at hbetween hfirst
  refine ⟨out, hout, fun hret => hnotified.last ?_, hbetween, hfirst, hnotified.windows⟩
  by_contra hne
  rw [returned, if_neg hne] at hret
  exact absurd hret (by decide)

theorem quiet_window (h0 : 0 ≤ w) (h1 : w < 2 ^ 31) : Window w fun _ => 0 := by
  refine ⟨h0, fun k => ?_⟩
  rw [gained, Int.natCast_zero, Finset.sum_const_zero]
  omega

/-- Two requests, of which the second one is solicited. -/
theorem pairBufs_notified : ∃ out,
    cutFromIOBufList allRegistered 1 quiet 0 openEndpoint pairHeap pairBufs emptySlots 0 = some out ∧
    out.2.flags.length = 2 ∧ out.2.flags.getLast? = some true := by
  have hnotified : ∃ out,
      cutFromIOBufList allRegistered 1 quiet 0 openEndpoint pairHeap pairBufs emptySlots 0 = some out ∧
        (0 ≤ returned out → out.2.posted ≠ [] → out.2.flags.getLast? = some true ∧ out.2.ep.unsolicited = 0) ∧ _ :=
    receiver_notified pairBufs_ok ⟨_, rfl, List.cons_ne_nil _ _⟩ (quiet_window (by decide) (by decide))
      (quiet_window (by decide) (by decide)) (by decide) (by decide) (by decide) (by decide)
  obtain ⟨out, hcall, hlast, -⟩ := hnotified
  have hrun : (cutFromIOBufList allRegistered 1 quiet 0 openEndpoint pairHeap pairBufs emptySlots 0).any
      (fun out => decide (out.1 = .done ∧ out.2.flags.length = 2)) = true := by
    decide
  rw [hcall, Option.any_some] at hrun
  obtain ⟨hdone, hlength⟩ := of_decide_eq_true hrun
  refine ⟨out, hcall, hlength, (hlast ?_ ?_).1⟩
  · rw [returned, if_pos hdone]
    exact Int.natCast_nonneg _
  · intro hnil
    rw [CutState.flags, hnil] at hlength
    exact nomatch hlength

end LightRpc.Sending

import LightRpc.FlowSafety

/- Flow control does not stall.

   A writer that finds a window at 0 waits until the poller gives it back. The send window
   comes back with signalled completions, the other one with the peer's immediates, and
   the peer may keep credits to itself: `SendAck` sends them only above half a window, and
   only if one of the three entries for pure ACKs is free; it is tried again when one gets
   free. So when nothing is under way any more, the question is how many credits the peer
   can have kept.

   `Acked` bounds them. Until the first data SEND is handled they are the ones posted by
   `BringUpQp` and one for each pure ACK, of which `remote_rq_window_size_` needs none.
   Later the last `SendAck` has left at most half a window, unless all entries for pure ACKs
   are in use, and what came after it are pure ACKs, one credit each. By the balance of the
   credits (`CreditLaw`) the rest is in the window. There is one more place where credits
   can be: with a writer that has taken them and not yet posted its SEND
   (`creditsInHand`). -/
namespace LightRpc

open Lib List

variable {s s' r r' : Side} {n : Nat}

/-- Credits the poller has still to count for the SEND in its hands. -/
def Poller.uncounted : Poller → Int
  | .repost n | .credit n => if 0 < n then 2 else 1
  | .ack num => num
  | _ => 0

/-- `SendAck` has left at most `bound` credits, or is still to come. -/
def Poller.Checked (bound wrs : Int) : Poller → Prop
  | .idle | .restore _ | .stopped _ => wrs ≤ bound
  | .repost n | .credit n => 0 < n ∨ wrs + 1 ≤ bound
  | .ack _ | .ackExchange => True
  | .sendImm _ => wrs = 0

/-- More than this many credits are worth a pure ACK. -/
def Endpoint.threshold (ep : Endpoint) : Int := ep.remoteWindowCapacity.tdiv 2

/-- The credits a side keeps to itself. -/
structure Acked (s : Side) : Prop where
  rq : s.ep.rqSize < 2 ^ 16
  threshold : 1 ≤ s.ep.threshold ∧ s.ep.threshold ≤ s.ep.rqSize
  lost : s.lost = 0
  range : -2 ^ 31 ≤ s.ep.remoteRqWindowSize ∧ s.ep.remoteRqWindowSize < 2 ^ 31
  nonneg : 0 ≤ s.ep.newRqWrs
  counted : s.ep.newRqWrs + s.poller.uncounted ≤ s.ep.rqSize + 2 * s.dataHandled + s.acksHandled
  checked : s.dataHandled = 0 ∨ s.ep.sqImmWindowSize ≤ 0 ∨
    s.poller.Checked (s.ep.threshold + s.acksHandled) s.ep.newRqWrs

/-- The fields of an endpoint this is about, `remote_rq_window_size_` apart. -/
structure SameAcks (ep ep' : Endpoint) : Prop where
  rq : ep'.rqSize = ep.rqSize
  capacity : ep'.remoteWindowCapacity = ep.remoteWindowCapacity
  wrs : ep'.newRqWrs = ep.newRqWrs
  imm : ep'.sqImmWindowSize = ep.sqImmWindowSize

theorem makeWr_acks (ep : Endpoint) (r q : Nat) (piece : Bytes) (last : Bool) (imm : Nat) :
    SameAcks ep (ep.makeWr r q piece last imm).2 ∧
      (ep.makeWr r q piece last imm).2.remoteRqWindowSize = ep.remoteRqWindowSize := by
  obtain ⟨_, _, _, heq⟩ := makeWr_frame ep r q piece last imm
  rw [heq]
  exact ⟨⟨rfl, rfl, rfl, rfl⟩, rfl⟩

theorem clearSlots_acks (k : Nat) (ep : Endpoint) : SameAcks ep (Endpoint.clearSlots k ep) ∧
    (Endpoint.clearSlots k ep).remoteRqWindowSize = ep.remoteRqWindowSize := by
  obtain ⟨_, _, heq⟩ := clearSlots_frame k ep
  rw [heq]
  exact ⟨⟨rfl, rfl, rfl, rfl⟩, rfl⟩

/-- Taking the credits out is as good as a `SendAck`. -/
theorem Poller.checked_zero (p : Poller) {bound : Int} (h : 1 ≤ bound) : p.Checked bound 0 := by
  cases p with
  | repost n => exact .inr h
  | credit n => exact .inr h
  | ack num => trivial
  | ackExchange => trivial
  | sendImm total => rfl
  | idle => exact Int.le_of_lt h
  | restore wrId => exact Int.le_of_lt h
  | stopped n => exact Int.le_of_lt h

namespace Acked

/-- A step that changes neither the credits nor where the poller is. -/
theorem keep (h : Acked s) (hep : SameAcks s.ep s'.ep) (hpoller : s'.poller = s.poller) (hlost : s'.lost = s.lost)
    (hdata : s'.dataHandled = s.dataHandled) (hacks : s'.acksHandled = s.acksHandled)
    (hrange : -2 ^ 31 ≤ s'.ep.remoteRqWindowSize ∧ s'.ep.remoteRqWindowSize < 2 ^ 31) : Acked s' where
  rq := hep.rq.symm ▸ h.rq
  threshold := by
    rw [Endpoint.threshold, hep.capacity, hep.rq]
    exact h.threshold
  lost := hlost.trans h.lost
  range := hrange
  nonneg := hep.wrs.symm ▸ h.nonneg
  counted := by
    rw [hep.wrs, hep.rq, hpoller, hdata, hacks]
    exact h.counted
  checked := by
    rw [hdata, hacks, hep.imm, hpoller, Endpoint.threshold, hep.capacity, hep.wrs]
    exact h.checked

/-- The writer takes the credits and sends them along with its data. -/
theorem exchange (h : Acked s) (w : Writer) : Acked { s with writer := w, ep := { s.ep with newRqWrs := 0 } } := by
  have hcounted := h.counted
  have hnonneg := h.nonneg
  obtain ⟨hthreshold, hle⟩ := h.threshold
  refine ⟨h.rq, h.threshold, h.lost, h.range, Int.le_refl 0, ?_, .inr (.inr ?_)⟩
  · show 0 + s.poller.uncounted ≤ (s.ep.rqSize : Int) + 2 * s.dataHandled + s.acksHandled
    omega
  · apply s.poller.checked_zero
    show 1 ≤ s.ep.threshold + s.acksHandled
    omega

theorem writer (h : Acked s) {a : WriterAct} (hok : a ≠ .post false) (hn : s.writerNext a = some s') : Acked s' := by
  cases writerNext_step hn with
  | exchange hpc => exact h.exchange _
  | @post r q piece last imm hpc =>
    obtain ⟨⟨h1, h2, h3, h4⟩, hwindow⟩ := makeWr_acks s.ep r q piece last imm
    exact h.keep ⟨h1, h2, h3, h4⟩ rfl rfl rfl rfl (hwindow.symm ▸ h.range)
  | postFailed _ => exact absurd rfl hok
  | subRemote _ => exact h.keep ⟨rfl, rfl, rfl, rfl⟩ rfl rfl rfl rfl (int32_bounds _)
  | _ => exact h.keep ⟨rfl, rfl, rfl, rfl⟩ rfl rfl rfl rfl h.range

/-- Counting a credit does not wrap. -/
theorem addRqWrs (h : Acked s) (hfew : s.dataHandled + s.acksHandled < 2 ^ 28) (num : Int) (hnum : 0 ≤ num)
    (hle : num ≤ s.poller.uncounted) : (s.ep.addRqWrs num).newRqWrs = s.ep.newRqWrs + num := by
  have hcounted := h.counted
  have hnonneg := h.nonneg
  have hrq := h.rq
  exact int32_of_bounds (by omega) (by omega)

/-- The poller goes on to `p`, having counted `num` credits. -/
theorem counts (h : Acked s) (hfew : s.dataHandled + s.acksHandled < 2 ^ 28) {num : Int} {p : Poller}
    (hnum : 0 ≤ num) (hp : 0 ≤ p.uncounted) (huncounted : s.poller.uncounted = num + p.uncounted)
    (hchecked : s.dataHandled = 0 ∨ s.ep.sqImmWindowSize ≤ 0 ∨
      p.Checked (s.ep.threshold + s.acksHandled) (s.ep.newRqWrs + num)) :
    Acked { s with poller := p, ep := s.ep.addRqWrs num } := by
  have hcounted := h.counted
  have hnonneg := h.nonneg
  have hadd := h.addRqWrs hfew num hnum (by omega)
  refine ⟨h.rq, h.threshold, h.lost, h.range, ?_, ?_, ?_⟩
  · show 0 ≤ (s.ep.addRqWrs num).newRqWrs
    omega
  · show (s.ep.addRqWrs num).newRqWrs + p.uncounted ≤ (s.ep.rqSize : Int) + 2 * s.dataHandled + s.acksHandled
    omega
  · show s.dataHandled = 0 ∨ s.ep.sqImmWindowSize ≤ 0 ∨
      p.Checked (s.ep.threshold + s.acksHandled) (s.ep.addRqWrs num).newRqWrs
    rw [hadd]
    exact hchecked

/-- `SendAck` keeps more than the threshold only if no entry for a pure ACK is free. -/
theorem ackKeep (h : Acked s) (hfew : s.dataHandled + s.acksHandled < 2 ^ 28) {num : Nat} (hpc : s.poller = .ack num)
    (hkeep : ¬ (int32 (s.ep.newRqWrs + num) > s.ep.remoteWindowCapacity.tdiv 2 ∧ 0 < s.ep.sqImmWindowSize)) :
    Acked { s with poller := .idle, ep := s.ep.addRqWrs num } := by
  have huncounted : s.poller.uncounted = num := by rw [hpc]; rfl
  have hsum : int32 (s.ep.newRqWrs + num) = s.ep.newRqWrs + num :=
    h.addRqWrs hfew num (Int.natCast_nonneg num) (by rw [huncounted])
  refine h.counts hfew (Int.natCast_nonneg num) (Int.le_refl 0) (by rw [huncounted]; rfl) (.inr ?_)
  rw [hsum] at hkeep
  by_cases himm : 0 < s.ep.sqImmWindowSize
  · have hkept : s.ep.newRqWrs + num ≤ s.ep.threshold := by
      by_contra hgt
      exact hkeep ⟨by rw [Endpoint.threshold] at hgt; omega, himm⟩
    refine .inr ?_
    show s.ep.newRqWrs + num ≤ s.ep.threshold + s.acksHandled
    omega
  · exact .inl (by omega)

/-- In `SendImm` the counter is 0: nobody but the poller adds to it. -/
theorem sent (h : Acked s) {total : Nat} (hpc : s.poller = .sendImm total) :
    s.dataHandled = 0 ∨ s.ep.sqImmWindowSize ≤ 0 ∨
      Poller.idle.Checked (s.ep.threshold + s.acksHandled) s.ep.newRqWrs := by
  have hchecked := h.checked
  obtain ⟨hthreshold, _⟩ := h.threshold
  rw [hpc] at hchecked
  refine hchecked.imp_right (Or.imp_right fun hzero => ?_)
  have hzero : s.ep.newRqWrs = 0 := hzero
  show s.ep.newRqWrs ≤ s.ep.threshold + s.acksHandled
  omega

theorem poller (h : Acked s) (hfew : s.dataHandled + s.acksHandled < 2 ^ 28) {a : PollerAct}
    (hrepost : a ≠ .repost false) (hok : a ≠ .sendImm false) (hn : s.pollerNext a = some s') : Acked s' := by
  have hcounted := h.counted
  have hnonneg := h.nonneg
  have hchecked := h.checked
  cases pollerNext_step hn with
  | repost hpc | restore hpc =>
    rw [hpc] at hcounted hchecked
    exact ⟨h.rq, h.threshold, h.lost, h.range, hnonneg, hcounted, hchecked⟩
  | repostFailed _ => exact absurd rfl hrepost
  | creditData hpc hm =>
    refine h.counts hfew (by decide) (by decide) ?_ (.inr (.inr trivial))
    rw [hpc]
    exact if_pos hm
  | creditAck hpc =>
    rw [hpc] at hchecked
    refine h.counts hfew (by decide) (by decide) (by rw [hpc]; rfl) ?_
    exact hchecked.imp_right (Or.imp_right fun hc => hc.resolve_left (Nat.lt_irrefl 0))
  | ackSend hpc _ _ =>
    exact h.counts hfew (Int.natCast_nonneg _) (Int.le_refl 0) (by rw [hpc]; exact (Int.add_zero _).symm)
      (.inr (.inr trivial))
  | ackKeep hpc hkeep => exact h.ackKeep hfew hpc hkeep
  | exchange hpc =>
    rw [hpc] at hcounted
    refine ⟨h.rq, h.threshold, h.lost, h.range, Int.le_refl 0, ?_, .inr (.inr rfl)⟩
    show 0 + 0 ≤ (s.ep.rqSize : Int) + 2 * s.dataHandled + s.acksHandled
    omega
  | sendNothing hpc =>
    have hidle := h.sent hpc
    rw [hpc] at hcounted
    exact ⟨h.rq, h.threshold, h.lost, h.range, hnonneg, hcounted, hidle⟩
  | sendImm hpc _ =>
    have hidle := h.sent hpc
    rw [hpc] at hcounted
    refine ⟨h.rq, h.threshold, h.lost, h.range, hnonneg, hcounted, ?_⟩
    exact hidle.imp_right (Or.imp_left fun himm => Int.le_trans (Int.sub_le_self _ (by decide)) himm)
  | sendImmFailed _ _ => exact absurd rfl hok
  | ackDone hpc _ =>
    rw [hpc] at hcounted
    exact ⟨h.rq, h.threshold, h.lost, h.range, hnonneg, hcounted, .inr (.inr trivial)⟩
  | @batchDone wrId _ hpc _ _ =>
    rw [hpc] at hcounted hchecked
    obtain ⟨⟨h1, h2, h3, h4⟩, hwindow⟩ := clearSlots_acks wrId s.ep
    refine ⟨h1.symm ▸ h.rq, ?_, h.lost, hwindow.symm ▸ h.range, h3.symm ▸ hnonneg, ?_, ?_⟩
    · rw [Endpoint.threshold, h2, h1]
      exact h.threshold
    · rw [h3, h1]
      exact hcounted
    · rw [h4, h3, Endpoint.threshold, h2]
      exact hchecked

/-- Taking a SEND: data will be followed by `SendAck`, a pure ACK is one more credit. -/
theorem recv (h : Acked s) {decode : Nat → Nat} (hn : s.recvNext decode r = some (s', r')) : Acked s' := by
  have hcounted := h.counted
  have hchecked := h.checked
  obtain ⟨wr, rest, hpc, _, _, rfl⟩ := recvNext_step hn
  obtain ⟨_, heq⟩ := applyImm_frame decode s.ep wr.immData
  have hep : SameAcks s.ep (s.ep.applyImm decode wr.immData) := by
    rw [heq]
    exact ⟨rfl, rfl, rfl, rfl⟩
  have hrange : -2 ^ 31 ≤ (s.ep.applyImm decode wr.immData).remoteRqWindowSize ∧
      (s.ep.applyImm decode wr.immData).remoteRqWindowSize < 2 ^ 31 := by
    rw [Endpoint.applyImm]
    split
    · exact int32_bounds _
    · exact h.range
  rw [hpc] at hcounted hchecked
  simp only [Poller.uncounted] at hcounted
  refine ⟨hep.rq.symm ▸ h.rq, ?_, h.lost, hrange, hep.wrs.symm ▸ h.nonneg, ?_, ?_⟩
  · rw [Endpoint.threshold, hep.capacity, hep.rq]
    exact h.threshold
  · rw [hep.wrs, hep.rq]
    by_cases hdata : wr.payload = []
    · simp only [hdata, length_nil, Poller.uncounted, if_true, Nat.lt_irrefl, if_false]
      omega
    · have hpos : 0 < wr.payload.length := length_pos_iff.mpr hdata
      simp only [hdata, hpos, Poller.uncounted, if_true, if_false]
      omega
  · rw [hep.imm, hep.wrs, Endpoint.threshold, hep.capacity]
    by_cases hdata : wr.payload = []
    · simp only [hdata, length_nil, if_true]
      refine hchecked.imp_right (Or.imp_right fun hkept => .inr ?_)
      have hkept : s.ep.newRqWrs ≤ s.ep.threshold + s.acksHandled := hkept
      rw [Endpoint.threshold] at hkept
      omega
    · exact .inr (.inr (.inl (length_pos_iff.mpr hdata)))

theorem handshaken (mine remote : Hello) : Acked (.handshaken mine remote) := by
  have hcapacity : (Endpoint.handshaken mine remote).remoteWindowCapacity =
      min (mine.rqSize : Int) remote.sqSize - RESERVED_WR_NUM := by
    obtain ⟨_, heq⟩ := handshaken_frame mine remote
    rw [heq]
    rfl
  obtain ⟨hwrs, hrq⟩ := handshaken_rqWrs mine remote
  have hmin := mine.rq_min
  have hmax := mine.rq_max
  have hsq := remote.sq_min
  have hlow : (16 : Int) ≤ min (mine.rqSize : Int) remote.sqSize := le_min (by omega) (by omega)
  have hhigh : min (mine.rqSize : Int) remote.sqSize ≤ mine.rqSize := min_le_left _ _
  have hwindow := SendWindow.handshaken mine remote
  have hlocal : 13 ≤ (Endpoint.handshaken mine remote).localWindowCapacity := hwindow.capacity
  have hlimit : (Endpoint.handshaken mine remote).localWindowCapacity + RESERVED_WR_NUM ≤
      (Endpoint.handshaken mine remote).sqSize := hwindow.limit
  have hsize : (Endpoint.handshaken mine remote).sqSize < 2 ^ 16 := hwindow.size
  refine ⟨hrq.symm ▸ hmax, ?_, rfl, ?_, ?_, ?_, .inl rfl⟩
  · show 1 ≤ (Endpoint.handshaken mine remote).threshold ∧
      (Endpoint.handshaken mine remote).threshold ≤ ((Endpoint.handshaken mine remote).rqSize : Int)
    rw [Endpoint.threshold, hcapacity, hrq, RESERVED_WR_NUM, Int.tdiv_eq_ediv_of_nonneg (by omega)]
    omega
  · show -2 ^ 31 ≤ (Endpoint.handshaken mine remote).remoteRqWindowSize ∧
      (Endpoint.handshaken mine remote).remoteRqWindowSize < 2 ^ 31
    rw [handshaken_window]
    omega
  · show 0 ≤ (Endpoint.handshaken mine remote).newRqWrs
    omega
  · show (Endpoint.handshaken mine remote).newRqWrs + 0 ≤ ((Endpoint.handshaken mine remote).rqSize : Int) + 2 * 0 + 0
    omega

end Acked

/-! Runs. -/

/-- The SENDs `s` has posted so far. -/
def posted (s r : Side) : Nat := r.dataHandled + r.acksHandled + s.wire.length

def Pair.sends (s : Pair) : Nat := posted s.a s.b + posted s.b s.a

theorem Sends.posted_le {n' : Nat} (h : Sends s s' n n') (r : Side) : posted s r ≤ posted s' r := by
  cases h with
  | nothing hwire _ => rw [posted, posted, hwire]
  | data wr _ hwire _ | ack wr _ hwire _ =>
    rw [posted, posted, hwire, length_append]
    omega

/-- Only taking a SEND changes the number of SENDs handled. -/
theorem KeepsCredits.posted_eq (h : KeepsCredits s s') (r : Side) : posted r s' = posted r s := by
  have hsurplus := h.surplus
  have hrq := h.rq
  simp only [Side.surplus, hrq] at hsurplus
  rw [posted, posted]
  omega

theorem recvNext_posted {decode : Nat → Nat} (h : s.recvNext decode r = some (s', r')) :
    posted s' r' = posted s r ∧ posted r' s' = posted r s := by
  obtain ⟨wr, rest, _, hwire, rfl, rfl⟩ := recvNext_step h
  refine ⟨rfl, ?_⟩
  simp only [posted, hwire, length_cons]
  by_cases hdata : wr.payload = []
  · simp only [hdata, if_true]
    omega
  · simp only [hdata, if_false]
    omega

/-- What a step does to what the two sides keep. -/
structure KeepsFlow (s r s' r' : Side) : Prop where
  window : ∃ n, SendWindow s' n
  peer : ∃ n, SendWindow r' n
  sends : posted s r + posted r s ≤ posted s' r' + posted r' s'
  acked : s.dataHandled + s.acksHandled < 2 ^ 28 → Acked s → Acked s'
  peerAcked : Acked r → Acked r'

theorem sendDone_window (h : SendWindow s n) (hn : s.pollerNext .sendDone = some s') : ∃ n', SendWindow s' n' := by
  cases pollerNext_step hn with
  | ackDone _ hcq => exact ⟨n, (h.ackDone hcq hn).1⟩
  | batchDone _ hcq hid => exact ⟨_, (h.batchDone hcq hid hn).2.2.1⟩

theorem side_next_flow {act : SideAct} {m : Nat} (hs : s.Wf) (hws : SendWindow s n) (hwr : SendWindow r m)
    (hok : act.succeeds) (h : s.next ntohl r act = some (s', r')) : KeepsFlow s r s' r' := by
  -- a step of one side alone: its own window, the SENDs it adds, the credits it keeps
  have hown : ∀ x : Side, (∃ n', SendWindow x n') → posted s r ≤ posted x r → KeepsCredits s x →
      (s.dataHandled + s.acksHandled < 2 ^ 28 → Acked s → Acked x) → KeepsFlow s r x r := by
    intro x hwindow hposted hcredits hacked
    refine ⟨hwindow, ⟨m, hwr⟩, ?_, hacked, id⟩
    rw [hcredits.posted_eq r]
    exact Nat.add_le_add_right hposted _
  cases act with
  | writer a =>
    obtain ⟨x, hnext, heq⟩ := Option.map_eq_some_iff.mp h
    obtain ⟨rfl, rfl⟩ := Prod.mk.inj heq
    have hpost : a ≠ .post false := by
      rintro rfl
      cases hok
    obtain ⟨n', hwindow, hsends⟩ := hws.writer_sends hs.1 hpost hnext
    exact hown x ⟨n', hwindow⟩ (hsends.posted_le r) (writerNext_keeps hs hnext) fun _ hacked => hacked.writer hpost hnext
  | setFailed =>
    cases h
    exact hown _ ⟨n, hws.setFailed⟩ (Nat.le_refl _) ⟨hs, rfl, rfl, rfl, rfl, rfl⟩ fun _ hacked =>
      hacked.keep ⟨rfl, rfl, rfl, rfl⟩ rfl rfl rfl rfl hacked.range
  | poller a =>
    cases a with
    | recv =>
      obtain ⟨hposted, hposted'⟩ := recvNext_posted h
      obtain ⟨_, rest, _, _, rfl, _⟩ := recvNext_step h
      refine ⟨⟨n, hws.recv h⟩, ⟨m, hwr.taken rest⟩, ?_, fun _ hacked => hacked.recv h, fun hacked => ?_⟩
      · rw [hposted, hposted']
      · exact hacked.keep ⟨rfl, rfl, rfl, rfl⟩ rfl rfl rfl rfl hacked.range
    | sendDone =>
      obtain ⟨x, hnext, heq⟩ := Option.map_eq_some_iff.mp h
      obtain ⟨rfl, rfl⟩ := Prod.mk.inj heq
      refine hown x (sendDone_window hws hnext) ?_ (pollerNext_keeps hs hnext) fun hfew hacked =>
        hacked.poller hfew (by simp) (by simp) hnext
      rw [posted, posted, sendDone_wire hnext]
    | _ =>
      obtain ⟨x, hnext, heq⟩ := Option.map_eq_some_iff.mp h
      obtain ⟨rfl, rfl⟩ := Prod.mk.inj heq
      obtain ⟨n', hwindow, hsends⟩ := hws.poller_sends (by intro heq; cases heq <;> cases hok) (by simp) hnext
      exact hown x ⟨n', hwindow⟩ (hsends.posted_le r) (pollerNext_keeps hs hnext) fun hfew hacked =>
        hacked.poller hfew (by intro heq; cases heq <;> cases hok) (by intro heq; cases heq <;> cases hok) hnext

/-- What holds along a run in which every post succeeds. -/
structure Pair.Flowing (s : Pair) : Prop where
  wf : s.a.Wf ∧ s.b.Wf
  windows : (∃ n, SendWindow s.a n) ∧ ∃ n, SendWindow s.b n
  acked : s.sends < 2 ^ 28 → Acked s.a ∧ Acked s.b

theorem pair_flowing {ha hb : Hello} {s : Pair}
    (hreach : ((pairMachine ntohl ha hb).guard fun _ act => act.2.succeeds).Reachable s) : s.Flowing := by
  refine hreach.invariant ?_ ?_
  · rintro s rfl
    exact ⟨⟨⟨trivial, trivial⟩, trivial, trivial⟩, ⟨⟨0, .handshaken ha hb⟩, 0, .handshaken hb ha⟩,
      fun _ => ⟨.handshaken ha hb, .handshaken hb ha⟩⟩
  · rintro s ⟨p, act⟩ s' ⟨⟨hwa, hwb⟩, ⟨⟨n, hna⟩, m, hmb⟩, hacked⟩ hn
    obtain ⟨hok, hn⟩ := Machine.guard_next.mp hn
    cases p with
    | a =>
      obtain ⟨⟨x, y⟩, hxy, rfl⟩ := Option.map_eq_some_iff.mp hn
      obtain ⟨hwindow, hpeer, hsends, hx, hy⟩ := side_next_flow hwa hna hmb hok hxy
      refine ⟨(side_next_credits hwa hwb hxy).wf, ⟨hwindow, hpeer⟩, fun hfew => ?_⟩
      simp only [Pair.sends, posted] at hfew hsends hacked
      obtain ⟨hackedA, hackedB⟩ := hacked (by omega)
      exact ⟨hx (by omega) hackedA, hy hackedB⟩
    | b =>
      obtain ⟨⟨x, y⟩, hxy, rfl⟩ := Option.map_eq_some_iff.mp hn
      obtain ⟨hwindow, hpeer, hsends, hx, hy⟩ := side_next_flow hwb hmb hna hok hxy
      refine ⟨(side_next_credits hwb hwa hxy).wf.symm, ⟨hpeer, hwindow⟩, fun hfew => ?_⟩
      simp only [Pair.sends, posted] at hfew hsends hacked
      obtain ⟨hackedA, hackedB⟩ := hacked (by omega)
      exact ⟨hy hackedA, hx (by omega) hackedB⟩

/-! Quiescent states. -/

/-- No SEND is in flight and every completion is handled. -/
structure Side.Quiescent (s : Side) : Prop where
  wire : s.wire = []
  sendCq : s.sendCq = []
  poller : s.poller = .idle

instance (s : Side) : Decidable s.Quiescent :=
  decidable_of_iff (s.wire = [] ∧ s.sendCq = [] ∧ s.poller = .idle)
    ⟨fun ⟨h1, h2, h3⟩ => ⟨h1, h2, h3⟩, fun ⟨h1, h2, h3⟩ => ⟨h1, h2, h3⟩⟩

/-- The writer has taken the credits for a SEND and not yet posted it. -/
def Writer.posting : Writer → Bool
  | .exchanged _ _ _ _ _ => true
  | _ => false

/-- Fewer than a batch are unreleased. -/
theorem sqWindow_pos (h : SendWindow s n) (hquiet : s.Quiescent) : 0 < s.ep.sqWindowSize := by
  obtain ⟨hbatch, hcap⟩ := h.batch_bounds
  have hwindow := h.window
  have hcompletions := h.completions
  rw [hquiet.sendCq] at hcompletions
  have hdiv : n / s.ep.batch = 0 := (replicate_eq_nil_iff _).mp hcompletions.symm
  have hlt : n < s.ep.batch := (Nat.div_eq_zero_iff_lt (by omega)).mp hdiv
  have howed : 0 ≤ s.writer.owed := by
    cases s.writer <;> simp [Writer.owed]
  rw [hquiet.poller] at hwindow
  simp only [Poller.restoring] at hwindow
  omega

/-- What `r` can have kept to itself leaves `s` with credits. -/
theorem remoteRqWindow_pos {m : Nat} (hlaw : CreditLaw s r) (hws : SendWindow s n) (hwr : SendWindow r m)
    (has : Acked s) (har : Acked r) (hfew : r.dataHandled + r.acksHandled < 2 ^ 28) (hs : s.Quiescent)
    (hr : r.Quiescent) (hposting : r.writer.posting = false) : 0 < s.ep.remoteRqWindowSize := by
  obtain ⟨hlow, hhigh⟩ := has.range
  obtain ⟨_, hthreshold⟩ := har.threshold
  have hrq := har.rq
  have hcapacity := hws.capacity
  have hlimit := hws.limit
  have hsize := hws.size
  have himm := hwr.imm
  have hcounted := har.counted
  have hchecked := har.checked
  have hnonneg := har.nonneg
  have huncharged : 0 ≤ s.writer.uncharged ∧ s.writer.uncharged ≤ 1 := by
    cases s.writer <;> simp
  have hcarried : r.writer.carried = 0 := by
    cases hpc : r.writer with
    | exchanged _ _ _ _ _ => simp [hpc, Writer.posting] at hposting
    | _ => rfl
  rw [hr.sendCq, count_nil] at himm
  rw [hr.poller] at hcounted hchecked
  simp only [Poller.uncounted] at hcounted
  -- everything the balance speaks of is in the window or kept by `r`
  simp only [CreditLaw, Side.held, Side.returning, Side.surplus, hs.wire, hr.wire, hr.poller, har.lost, hcarried,
    dataInFlight, creditsInFlight, countP_nil, map_nil, sum_nil, Poller.carried] at hlaw
  have hkept : r.ep.newRqWrs ≤ r.ep.rqSize + r.dataHandled + r.acksHandled := by
    rcases hchecked with hnone | hfull | hbound
    · omega
    · simp only [RESERVED_WR_NUM] at himm
      omega
    · have hbound : r.ep.newRqWrs ≤ r.ep.threshold + r.acksHandled := hbound
      omega
  simp only [RESERVED_WR_NUM] at hlimit
  omega

/-- In a quiescent state both send windows are open, and so is the window of either side for
    the other's receives, unless the other's writer is about to post the credits it lacks. -/
theorem flow_never_stalls (ha hb : Hello) {s : Pair}
    (hreach : ((pairMachine ntohl ha hb).guard fun _ act => act.2.succeeds).Reachable s)
    (hfew : s.sends < 2 ^ 28) (hquietA : s.a.Quiescent) (hquietB : s.b.Quiescent) :
    (0 < s.a.ep.sqWindowSize ∧ 0 < s.b.ep.sqWindowSize) ∧
      (s.b.writer.posting = false → 0 < s.a.ep.remoteRqWindowSize) ∧
      (s.a.writer.posting = false → 0 < s.b.ep.remoteRqWindowSize) := by
  obtain ⟨_, ⟨⟨n, hna⟩, m, hmb⟩, hacked⟩ := pair_flowing hreach
  obtain ⟨hackedA, hackedB⟩ := hacked hfew
  obtain ⟨_, _, hab, hba⟩ := pair_lawful hreach.of_guard
  simp only [Pair.sends, posted] at hfew
  refine ⟨⟨sqWindow_pos hna hquietA, sqWindow_pos hmb hquietB⟩, ?_, ?_⟩
  · exact remoteRqWindow_pos hab hna hmb hackedA hackedB (by omega) hquietA hquietB
  · exact remoteRqWindow_pos hba hmb hna hackedB hackedA (by omega) hquietB hquietA

/-- A pure ACK is taken. -/
def takeAck (p : Party) : List (Party × SideAct) :=
  [(p, .poller .recv), (p, .poller (.repost true)), (p, .poller .credit)]

/-- `b` takes four data SENDs; the fourth takes its credits above the threshold. -/
def takeFour : List (Party × SideAct) := (List.replicate 4 (takeByte .b)).flatten

/-- `a` uses up its window. `b` answers with three pure ACKs and has no entry left for the
    fourth, which it sends when the completion of the first is handled. Then everything is
    brought to an end. -/
def drained : List (Party × SideAct) :=
  List.flatten [(List.replicate 13 (sendByte .a)).flatten, takeByte .b, sendAck .b, takeFour, sendAck .b, takeFour,
    sendAck .b, takeFour, ackReleased .b, sendAck .b, (List.replicate 3 (ackReleased .b)).flatten,
    (List.replicate 4 (takeAck .a)).flatten, (List.replicate 4 (batchRestored .a)).flatten]

theorem drained_open :
    ∃ s, ((pairMachine ntohl smallestHello smallestHello).guard fun _ act => act.2.succeeds).Run drained s ∧
      s.sends = 17 ∧ s.a.Quiescent ∧ s.b.Quiescent ∧ (0 < s.a.ep.sqWindowSize ∧ 0 < s.b.ep.sqWindowSize) ∧
      0 < s.a.ep.remoteRqWindowSize ∧ 0 < s.b.ep.remoteRqWindowSize := by
  have hexec : ∃ s, ((pairMachine ntohl smallestHello smallestHello).guard fun _ act => act.2.succeeds).Run drained s ∧
      s.sends = 17 ∧ s.a.Quiescent ∧ s.b.Quiescent ∧ s.a.writer.posting = false ∧ s.b.writer.posting = false :=
    Machine.exists_run rfl (by decide +kernel)
  obtain ⟨s, hrun, hsends, hquietA, hquietB, hpostingA, hpostingB⟩ := hexec
  have hfew : s.sends < 2 ^ 28 := by
    rw [hsends]
    decide
  obtain ⟨hwindows, ha, hb⟩ := flow_never_stalls smallestHello smallestHello ⟨_, hrun⟩ hfew hquietA hquietB
  exact ⟨s, hrun, hsends, hquietA, hquietB, hwindows, ha hpostingB, hb hpostingA⟩

/-- Three data SENDs of `a`, handled by `b` before their completion is. -/
def threeBytes : List (Party × SideAct) :=
  List.flatten [sendByte .a, sendByte .a, sendByte .a, takeByte .b, takeByte .b, takeByte .b, batchRestored .a]

/-- `b` answers nine SENDs with three pure ACKs and has no entry left for another. `a` uses
    up what it got, the writer of `b` takes the credits of all of that, and then the
    completions of the ACKs are handled: `SendAck` finds nothing to send. -/
def creditsInHand : List (Party × SideAct) :=
  List.flatten [(List.replicate 9 (sendByte .a)).flatten, takeByte .b, sendAck .b, takeFour, sendAck .b, takeFour,
    sendAck .b, (List.replicate 3 (takeAck .a)).flatten, (List.replicate 3 (batchRestored .a)).flatten,
    (List.replicate 12 threeBytes).flatten, sendByte .a, sendByte .a, takeByte .b, takeByte .b,
    [(.b, .writer .loadRemote), (.b, .writer .loadSq), (.b, .writer (.cut [0] true)), (.b, .writer .exchange)],
    (List.replicate 3 (ackReleased .b)).flatten]

/-- Until the writer of `b` posts its SEND, `a` has no credit left. -/
theorem creditsInHand_closed :
    ∃ s, ((pairMachine ntohl smallestHello smallestHello).guard fun _ act => act.2.succeeds).Run creditsInHand s ∧
      s.sends < 2 ^ 28 ∧ s.a.Quiescent ∧ s.b.Quiescent ∧ s.a.ep.remoteRqWindowSize = 0 :=
  Machine.exists_run rfl (by decide +kernel)

end LightRpc

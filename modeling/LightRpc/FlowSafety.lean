import LightRpc.Credits
import LightRpc.SendWindow

/- Posted receives.

   The QPs are configured with `rnr_retry = 0`: a SEND that arrives where no receive is
   posted is an error. A side has posted `rq_size_` receives when the handshake returns, and
   each SEND takes one until the poller has handled it and posted the receive again. So the
   SENDs posted by one side and not handled by the other must be at most `rq_size_` of the
   other (`unhandled`).

   The credits do not give this bound, since the code returns more of them than it has
   receives (`CreditLaw`). What bounds the SENDs is the sender's own send window, as long as
   no send completion is handled before the peer has handled the SENDs it covers and posted
   their receives again (`patient`). The transport promises less: a SEND is complete when
   it has arrived. `overrun` is a run in which completions are handled as early
   as that. -/
namespace LightRpc

open Lib List

/-- Every verbs post succeeds. -/
def SideAct.succeeds : SideAct → Bool
  | .writer (.post ok) | .poller (.repost ok) | .poller (.sendImm ok) => ok
  | _ => true

/-- The SEND that is taken off the receive CQ and whose receive is not posted again, by its
    length. -/
def Poller.holding : Poller → List Nat
  | .repost byteLen | .stopped byteLen => [byteLen]
  | _ => []

/-- The SENDs of `s` that `r` has not handled and posted a receive again for, by their
    lengths, oldest first. Pure ACKs have length 0. -/
def unhandled (s r : Side) : List Nat := r.poller.holding ++ s.wire.map (·.payload.length)

/-- The data SENDs posted and not released by a completion. -/
def Side.unreleased (s : Side) : Nat := s.sendCq.sum + s.ep.sqUnsignaled.toNat

/-- If the step handles a send completion, the SENDs it covers, which are the oldest ones
    outstanding, are not among those `r` has still to handle. -/
def patient (s r : Side) : SideAct → Bool
  | .poller .sendDone =>
    match s.sendCq with
    | [] => true
    | wrId :: _ =>
      if wrId = 0 then (unhandled s r).count 0 + 1 ≤ s.sendCq.count 0
      else (unhandled s r).countP (· ≠ 0) + wrId ≤ s.unreleased
  | _ => true

def Pair.patient (s : Pair) : Party × SideAct → Bool
  | (.a, act) => LightRpc.patient s.a s.b act
  | (.b, act) => LightRpc.patient s.b s.a act

/-! What a step does to the SENDs of its side. -/

/-- The SENDs posted by a step that handles no completion: none, a data SEND or a pure ACK. -/
inductive Sends (s s' : Side) (n : Nat) : Nat → Prop where
  | nothing : s'.wire = s.wire → s'.sendCq.count 0 = s.sendCq.count 0 → Sends s s' n n
  | data (wr : SendWr) : wr.payload ≠ [] → s'.wire = s.wire ++ [wr] →
    s'.sendCq.count 0 = s.sendCq.count 0 → Sends s s' n (n + 1)
  | ack (wr : SendWr) : wr.payload = [] → s'.wire = s.wire ++ [wr] →
    s'.sendCq.count 0 = s.sendCq.count 0 + 1 → Sends s s' n n

namespace SendWindow

variable {s s' : Side} {n : Nat}

theorem sum_completions (l : List Nat) : (l.filter (· ≠ 0)).sum = l.sum := by
  induction l with
  | nil => rfl
  | cons x l ih =>
    by_cases hx : x = 0
    · rw [filter_cons_of_neg (by simpa using hx), ih, sum_cons, hx, Nat.zero_add]
    · rw [filter_cons_of_pos (by simpa using hx), sum_cons, sum_cons, ih]

/-- The completions on the queue and the counter account for every SEND. -/
theorem unreleased_eq (h : SendWindow s n) : s.unreleased = n := by
  calc s.unreleased = n / s.ep.batch * s.ep.batch + n % s.ep.batch := by
        rw [Side.unreleased, ← sum_completions, h.completions, sum_replicate, h.unsignaled]
        rfl
    _ = n := Nat.div_add_mod' n s.ep.batch

theorem writer_sends (h : SendWindow s n) (hwf : s.writer.Wf) {a : WriterAct} (hok : a ≠ .post false)
    (hn : s.writerNext a = some s') : ∃ n', SendWindow s' n' ∧ Sends s s' n n' := by
  have hwindow := h.writer hok hn
  refine ⟨_, hwindow, ?_⟩
  cases writerNext_step hn with
  | @post r q piece last imm hpc =>
    obtain ⟨_, _, _, himm⟩ := SendWindow.makeWr_others s.ep r q piece last imm
    have hold := h.imm
    have hnew := hwindow.imm
    rw [hpc] at hwf
    refine .data (s.ep.makeWr r q piece last imm).1 hwf.1 rfl ?_
    -- the completion of a data SEND carries the size of a batch
    have hsame : _ = s.ep.sqImmWindowSize := himm
    simp only [Side.put, Endpoint.advanceSq, hsame] at hnew ⊢
    omega
  | postFailed _ => exact absurd rfl hok
  | _ => exact .nothing rfl rfl

theorem poller_sends (h : SendWindow s n) {a : PollerAct} (hok : a ≠ .sendImm false) (hdone : a ≠ .sendDone)
    (hn : s.pollerNext a = some s') : ∃ n', SendWindow s' n' ∧ Sends s s' n n' := by
  refine ⟨n, h.poller hok hdone hn, ?_⟩
  cases pollerNext_step hn with
  | @sendImm total _ _ =>
    refine .ack (ackWr total) rfl rfl ?_
    show (s.sendCq ++ [0]).count 0 = s.sendCq.count 0 + 1
    rw [count_append, count_singleton_self]
  | sendImmFailed _ _ => exact absurd rfl hok
  | ackDone _ _ => exact absurd rfl hdone
  | batchDone _ _ _ => exact absurd rfl hdone
  | _ => exact .nothing rfl rfl

end SendWindow

/-! One direction. -/

/-- `n` data SENDs of `s` are unreleased; those `r` has still to handle are among them, and
    the pure ACKs among those whose completion is not handled. -/
structure Bounded (s r : Side) (n : Nat) : Prop where
  window : SendWindow s n
  data : (unhandled s r).countP (· ≠ 0) ≤ n
  acks : (unhandled s r).count 0 ≤ s.sendCq.count 0
  fits : s.ep.localWindowCapacity + RESERVED_WR_NUM ≤ r.ep.rqSize

theorem length_unhandled (l : List Nat) : l.length = l.countP (· ≠ 0) + l.count 0 := by
  induction l with
  | nil => rfl
  | cons x l ih =>
    by_cases hx : x = 0
    · rw [length_cons, ih, hx, countP_cons_of_neg (by simp), count_cons_self, Nat.add_assoc]
    · rw [length_cons, ih, countP_cons_of_pos (by simpa using hx), count_cons_of_ne hx]
      omega

theorem unhandled_snoc {s s' r : Side} {wr : SendWr} (h : s'.wire = s.wire ++ [wr]) :
    unhandled s' r = unhandled s r ++ [wr.payload.length] := by
  rw [unhandled, h, map_append, ← append_assoc]
  rfl

namespace Bounded

variable {s s' r r' : Side} {n : Nat}

section

variable (h : Bounded s r n)

include h

/-- Data SENDs fill at most the window, pure ACKs the three entries kept for them. -/
theorem le_rqSize : (unhandled s r).length ≤ r.ep.rqSize := by
  have hdata := h.data
  have hacks := h.acks
  have hfits := h.fits
  have hcap := h.window.le_capacity
  have himm := h.window.imm
  have hnonneg := h.window.imm_nonneg
  rw [length_unhandled]
  omega

/-- A step of the sender that handles no completion. -/
theorem sends {n' : Nat} (hwindow : SendWindow s' n') (hsends : Sends s s' n n')
    (hcap : s'.ep.localWindowCapacity = s.ep.localWindowCapacity) : Bounded s' r n' := by
  have hdata := h.data
  have hacks := h.acks
  have hfits := h.fits
  rw [← hcap] at hfits
  cases hsends with
  | nothing hwire hcount =>
    have hsame : unhandled s' r = unhandled s r := by rw [unhandled, hwire, unhandled]
    exact ⟨hwindow, hsame ▸ hdata, by rw [hsame, hcount]; exact hacks, hfits⟩
  | data wr hpayload hwire hcount =>
    have hlen : wr.payload.length ≠ 0 := fun hzero => hpayload (length_eq_zero_iff.mp hzero)
    refine ⟨hwindow, ?_, ?_, hfits⟩
    · rw [unhandled_snoc hwire, countP_append, countP_singleton, if_pos (by simpa using hlen)]
      omega
    · rw [unhandled_snoc hwire, count_append, count_singleton, if_neg (by simpa using hlen), hcount]
      exact hacks
  | ack wr hpayload hwire hcount =>
    refine ⟨hwindow, ?_, ?_, hfits⟩
    · rw [unhandled_snoc hwire, countP_append, hpayload]
      exact hdata
    · rw [unhandled_snoc hwire, count_append, hpayload, hcount]
      exact Nat.add_le_add_right hacks 1

/-- Handling a send completion, when the peer is done with what it covers. -/
theorem sendDone (hpatient : patient s r (.poller .sendDone))
    (hcap : s'.ep.localWindowCapacity = s.ep.localWindowCapacity) (hwire : s'.wire = s.wire)
    (hn : s.pollerNext .sendDone = some s') : ∃ n', Bounded s' r n' := by
  have hsame : unhandled s' r = unhandled s r := by rw [unhandled, hwire, unhandled]
  have hfits := h.fits
  rw [← hcap] at hfits
  cases pollerNext_step hn with
  | ackDone _ hcq =>
    obtain ⟨hwindow, hcq', _⟩ := h.window.ackDone hcq hn
    simp only [patient, hcq, if_true, decide_eq_true_eq, count_cons_self] at hpatient
    refine ⟨n, hwindow, hsame ▸ h.data, ?_, hfits⟩
    rw [hsame, hcq']
    omega
  | batchDone _ hcq hid =>
    obtain ⟨hbatch, hle, hwindow, hcq', _⟩ := h.window.batchDone hcq hid hn
    have hacks := h.acks
    rw [hcq, count_cons_of_ne hid] at hacks
    simp only [patient, hcq, hid, if_false, decide_eq_true_eq, h.window.unreleased_eq] at hpatient
    refine ⟨_, hwindow, ?_, ?_, hfits⟩
    · rw [hsame]
      omega
    · rw [hsame, hcq']
      exact hacks

/-- A step of the receiver that takes no SEND. -/
theorem handled (hholding : ∃ done, r.poller.holding = done ++ r'.poller.holding) (hrq : r'.ep.rqSize = r.ep.rqSize) :
    Bounded s r' n := by
  obtain ⟨done, hdone⟩ := hholding
  have hunhandled : unhandled s r = done ++ unhandled s r' := by
    rw [unhandled, hdone, append_assoc, unhandled]
  have hdata := h.data
  have hacks := h.acks
  rw [hunhandled, countP_append] at hdata
  rw [hunhandled, count_append] at hacks
  exact ⟨h.window, by omega, by omega, hrq ▸ h.fits⟩

/-- Taking a SEND moves it from the wire into the poller's hands. -/
theorem taken {decode : Nat → Nat} (hrq : r'.ep.rqSize = r.ep.rqSize) (hn : r.recvNext decode s = some (r', s')) :
    Bounded s' r' n := by
  obtain ⟨wr, rest, hpc, hwire, rfl, rfl⟩ := recvNext_step hn
  have hsame : unhandled s r = wr.payload.length :: rest.map (·.payload.length) := by
    rw [unhandled, hpc, hwire]
    rfl
  have hdata := h.data
  have hacks := h.acks
  rw [hsame] at hdata hacks
  exact ⟨h.window.taken rest, hdata, hacks, hrq.symm ▸ h.fits⟩

theorem recv {decode : Nat → Nat} (hn : s.recvNext decode r = some (s', r')) : Bounded s' r' n := by
  have hwindow := h.window.recv hn
  obtain ⟨wr, rest, _, _, rfl, rfl⟩ := recvNext_step hn
  obtain ⟨_, heq⟩ := applyImm_frame decode s.ep wr.immData
  have hcap : (s.ep.applyImm decode wr.immData).localWindowCapacity = s.ep.localWindowCapacity := by rw [heq]
  exact ⟨hwindow, h.data, h.acks, hcap.symm ▸ h.fits⟩

end

end Bounded

/-! Steps of either side. -/

theorem writerNext_poller {s s' : Side} {a : WriterAct} (hn : s.writerNext a = some s') : s'.poller = s.poller := by
  cases writerNext_step hn <;> rfl

/-- Only posting the receive again lets go of a SEND. -/
theorem pollerNext_holding {s s' : Side} {a : PollerAct} (hn : s.pollerNext a = some s') :
    ∃ done, s.poller.holding = done ++ s'.poller.holding := by
  cases pollerNext_step hn with
  | @repost m hpc => exact ⟨[m], by rw [hpc]; rfl⟩
  | repostFailed hpc | creditAck hpc | exchange hpc | sendNothing hpc | restore hpc => exact ⟨[], by rw [hpc]; rfl⟩
  | creditData hpc _ | ackKeep hpc _ | sendImm hpc _ | sendImmFailed hpc _ | ackDone hpc _ =>
    exact ⟨[], by rw [hpc]; rfl⟩
  | ackSend hpc _ _ | batchDone hpc _ _ => exact ⟨[], by rw [hpc]; rfl⟩

theorem sendDone_wire {s s' : Side} (hn : s.pollerNext .sendDone = some s') : s'.wire = s.wire := by
  cases pollerNext_step hn <;> rfl

/-- One step, towards the peer and from it. -/
theorem side_next_bounded {s r s' r' : Side} {act : SideAct} (hs : s.Wf) (hr : r.Wf) (hok : act.succeeds)
    (hpatient : patient s r act) (h : s.next ntohl r act = some (s', r')) :
    (∀ n, Bounded s r n → ∃ n', Bounded s' r' n') ∧ ∀ n, Bounded r s n → Bounded r' s' n := by
  have hrq := (side_next_credits hs hr h).rq.1
  cases act with
  | writer a =>
    obtain ⟨x, hnext, heq⟩ := Option.map_eq_some_iff.mp h
    cases heq
    have hpost : a ≠ .post false := by
      rintro rfl
      cases hok
    refine ⟨fun n hb => ?_, fun n hb => hb.handled ⟨[], by rw [writerNext_poller hnext]; rfl⟩ hrq⟩
    obtain ⟨n', hwindow, hsends⟩ := hb.window.writer_sends hs.1 hpost hnext
    exact ⟨n', hb.sends hwindow hsends (writerNext_keeps hs hnext).capacity⟩
  | setFailed =>
    cases h
    refine ⟨fun n hb => ⟨n, ⟨hb.window.setFailed, hb.data, hb.acks, hb.fits⟩⟩, fun n hb => ?_⟩
    exact ⟨hb.window, hb.data, hb.acks, hb.fits⟩
  | poller a =>
    cases a with
    | recv => exact ⟨fun n hb => ⟨n, hb.recv h⟩, fun n hb => hb.taken hrq h⟩
    | sendDone =>
      obtain ⟨x, hnext, heq⟩ := Option.map_eq_some_iff.mp h
      cases heq
      refine ⟨fun n hb => ?_, fun n hb => hb.handled (pollerNext_holding hnext) hrq⟩
      exact hb.sendDone hpatient (pollerNext_keeps hs hnext).capacity (sendDone_wire hnext) hnext
    | _ =>
      obtain ⟨x, hnext, heq⟩ := Option.map_eq_some_iff.mp h
      cases heq
      refine ⟨fun n hb => ?_, fun n hb => hb.handled (pollerNext_holding hnext) hrq⟩
      obtain ⟨n', hwindow, hsends⟩ := hb.window.poller_sends (by intro heq; cases heq <;> cases hok) (by simp) hnext
      exact ⟨n', hb.sends hwindow hsends (pollerNext_keeps hs hnext).capacity⟩

theorem handshaken_bounded (mine remote : Hello) : Bounded (.handshaken mine remote) (.handshaken remote mine) 0 := by
  refine ⟨.handshaken mine remote, Nat.le_refl 0, Nat.le_refl 0, ?_⟩
  show (Endpoint.handshaken mine remote).localWindowCapacity + _ ≤ ((Endpoint.handshaken remote mine).rqSize : Int)
  rw [SendWindow.handshaken_capacity, (handshaken_rqWrs remote mine).2]
  have hle : min (mine.sqSize : Int) remote.rqSize ≤ remote.rqSize := min_le_right _ _
  omega

/-! Whole runs. -/

/-- Every SEND finds a receive, in runs in which posts succeed and no send completion is
    handled before the peer is done with the SENDs it covers. -/
theorem receiver_ready (ha hb : Hello) {s : Pair}
    (hreach : ((pairMachine ntohl ha hb).guard fun s act => act.2.succeeds && s.patient act).Reachable s) :
    (unhandled s.a s.b).length ≤ s.b.ep.rqSize ∧ (unhandled s.b s.a).length ≤ s.a.ep.rqSize := by
  have hbounds : (s.a.Wf ∧ s.b.Wf) ∧ (∃ n, Bounded s.a s.b n) ∧ ∃ n, Bounded s.b s.a n := by
    refine hreach.invariant (I := fun s =>
      (s.a.Wf ∧ s.b.Wf) ∧ (∃ n, Bounded s.a s.b n) ∧ ∃ n, Bounded s.b s.a n) ?_ ?_
    · rintro s rfl
      exact ⟨⟨⟨trivial, trivial⟩, trivial, trivial⟩, ⟨0, handshaken_bounded ha hb⟩, 0, handshaken_bounded hb ha⟩
    · rintro s ⟨p, act⟩ s' ⟨⟨hwa, hwb⟩, ⟨n, hab⟩, m, hba⟩ hn
      obtain ⟨hok, hn⟩ := Machine.guard_next.mp hn
      obtain ⟨hsucceeds, hpatient⟩ := Bool.and_eq_true_iff.mp hok
      cases p with
      | a =>
        obtain ⟨⟨x, y⟩, hxy, rfl⟩ := Option.map_eq_some_iff.mp hn
        obtain ⟨htowards, hfrom⟩ := side_next_bounded hwa hwb hsucceeds hpatient hxy
        exact ⟨(side_next_credits hwa hwb hxy).wf, htowards n hab, m, hfrom m hba⟩
      | b =>
        obtain ⟨⟨x, y⟩, hxy, rfl⟩ := Option.map_eq_some_iff.mp hn
        obtain ⟨htowards, hfrom⟩ := side_next_bounded hwb hwa hsucceeds hpatient hxy
        exact ⟨(side_next_credits hwb hwa hxy).wf.symm, ⟨n, hfrom n hab⟩, htowards m hba⟩
  obtain ⟨_, ⟨n, hab⟩, m, hba⟩ := hbounds
  exact ⟨hab.le_rqSize, hba.le_rqSize⟩

/-- One data SEND of a single byte, from entering `CutFromIOBufList` to leaving it. -/
def sendByte (p : Party) : List (Party × SideAct) :=
  [(p, .writer .loadRemote), (p, .writer .loadSq), (p, .writer (.cut [0] true)), (p, .writer .exchange),
    (p, .writer (.post true)), (p, .writer .subRemote), (p, .writer .subSq), (p, .writer .leave)]

/-- A data SEND is taken and its receive posted again. -/
def takeByte (p : Party) : List (Party × SideAct) :=
  [(p, .poller .recv), (p, .poller (.repost true)), (p, .poller .credit), (p, .poller .ack)]

def sendAck (p : Party) : List (Party × SideAct) := [(p, .poller .exchange), (p, .poller (.sendImm true))]

/-- The completion of a pure ACK. -/
def ackReleased (p : Party) : List (Party × SideAct) := [(p, .poller .sendDone), (p, .poller .ack)]

/-- The completion of a batch. -/
def batchRestored (p : Party) : List (Party × SideAct) := [(p, .poller .sendDone), (p, .poller .restore)]

/-- `a` sends a batch of three, handles its completion when `b` has handled the SENDs, and
    sends a fourth byte. -/
def patientBatch : List (Party × SideAct) :=
  List.flatten [sendByte .a, sendByte .a, sendByte .a, takeByte .b, sendAck .b, takeByte .b, takeByte .b,
    batchRestored .a, sendByte .a]

theorem patientBatch_ready :
    ∃ s, ((pairMachine ntohl smallestHello smallestHello).guard fun s act => act.2.succeeds && s.patient act).Run
        patientBatch s ∧ unhandled s.a s.b = [1] ∧ unhandled s.b s.a = [0] ∧
      (unhandled s.a s.b).length ≤ s.b.ep.rqSize ∧ (unhandled s.b s.a).length ≤ s.a.ep.rqSize := by
  have hexec : ∃ s, ((pairMachine ntohl smallestHello smallestHello).guard
      fun s act => act.2.succeeds && s.patient act).Run patientBatch s ∧ unhandled s.a s.b = [1] ∧
        unhandled s.b s.a = [0] :=
    Machine.exists_run rfl (by decide +kernel)
  obtain ⟨s, hrun, hab, hba⟩ := hexec
  exact ⟨s, hrun, hab, hba, receiver_ready smallestHello smallestHello ⟨_, hrun⟩⟩

/-- `b` sends one byte, whose immediate carries `rq_size_` credits; then `a` sends sixteen,
    and the completions of twelve of them are handled while `b` handles none. -/
def overrun : List (Party × SideAct) :=
  List.flatten [sendByte .b, takeByte .a, sendAck .a, ackReleased .a, (List.replicate 13 (sendByte .a)).flatten,
    (List.replicate 4 (batchRestored .a)).flatten, (List.replicate 3 (sendByte .a)).flatten]

/-- Seventeen SENDs for sixteen receives. -/
theorem overrun_receiver :
    ∃ s, ((pairMachine ntohl smallestHello smallestHello).guard fun _ act => act.2.succeeds).Run overrun s ∧
      s.b.ep.rqSize = 16 ∧ (unhandled s.a s.b).length = 17 :=
  Machine.exists_run rfl (by decide +kernel)

end LightRpc

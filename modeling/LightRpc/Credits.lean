import LightRpc.FlowControl

/- Receive credits between two endpoints.

   A credit is the right to send one SEND. `remote_rq_window_size_` counts the
   credits a side holds; a data SEND uses one up, and the receiver returns credits
   through `new_rq_wrs_` and the immediates. `creditLaw` is what the code keeps
   along every run, whatever the interleaving: the credits a side holds, has in
   flight or is owed are its window capacity plus `rq_size_` of the peer (the
   receives posted by `BringUpQp` count as returned credits), plus one for every
   data SEND handled (`PostRecv` and `SendAck` each return one), plus one for every
   pure ACK handled. So the balance is never the capacity.

   The immediate that carries the credits is written with `htonl` and read with
   `ntohs`, which keeps its high half only. -/
namespace LightRpc

open Lib Side

variable {s s' r r' : Side}

/-! Where credits are. -/

def dataInFlight (wire : List SendWr) : Nat := wire.countP (·.payload ≠ [])

/-- Credits carried by immediates, each with the value it was posted with. -/
def creditsInFlight (wire : List SendWr) : Nat := (wire.map fun wr => ntohl wr.immData).sum

/-- A SEND of the writer that is posted and not yet charged to the window. -/
@[simp]
def Writer.uncharged : Writer → Int
  | .posted => 1
  | _ => 0

@[simp]
def Writer.carried : Writer → Int
  | .exchanged _ _ _ _ imm => imm
  | _ => 0

/-- Credits the poller holds or will still count for the SEND it is handling. -/
@[simp]
def Poller.carried : Poller → Int
  | .repost n => if 0 < n then 2 else 1
  | .credit n => if 0 < n then 2 else 1
  | .stopped n => if 0 < n then 2 else 1
  | .ack num => num
  | .sendImm total => total
  | _ => 0

/-- The sender's half of the balance. -/
def Side.held (s : Side) : Int :=
  s.ep.remoteRqWindowSize + dataInFlight s.wire - s.writer.uncharged

/-- The receiver's half of the balance. -/
def Side.returning (s : Side) : Int :=
  s.ep.newRqWrs + creditsInFlight s.wire + s.writer.carried + s.poller.carried + s.lost

/-- The receiver's half less what the code has added to it. -/
def Side.surplus (s : Side) : Int := s.ep.rqSize + s.dataHandled + s.acksHandled

/-- The exact balance of the code, in 32-bit arithmetic. -/
def CreditLaw (s r : Side) : Prop :=
  (s.held + r.returning) % 2 ^ 32 = (s.ep.localWindowCapacity + r.surplus) % 2 ^ 32

/-- The balance when nobody is inside a call: window, data SENDs in flight, credits not
    yet sent and credits in flight. -/
def creditBalance (s r : Side) : Int :=
  s.ep.remoteRqWindowSize + dataInFlight s.wire + r.ep.newRqWrs + creditsInFlight r.wire

def Side.Idle (s : Side) : Prop := s.writer = .idle ∧ s.poller = .idle

instance (s : Side) : Decidable s.Idle := inferInstanceAs (Decidable (_ ∧ _))

/-! What the steps change. -/

theorem dataInFlight_snoc (wire : List SendWr) (wr : SendWr) :
    dataInFlight (wire ++ [wr]) = dataInFlight wire + if wr.payload = [] then 0 else 1 := by
  by_cases h : wr.payload = [] <;> simp [dataInFlight, h]

theorem creditsInFlight_snoc (wire : List SendWr) (wr : SendWr) :
    creditsInFlight (wire ++ [wr]) = creditsInFlight wire + ntohl wr.immData := by
  simp [creditsInFlight]

theorem dataInFlight_cons (wire : List SendWr) (wr : SendWr) :
    dataInFlight (wr :: wire) = dataInFlight wire + if wr.payload = [] then 0 else 1 := by
  by_cases h : wr.payload = [] <;> simp [dataInFlight, h]

theorem creditsInFlight_cons (wire : List SendWr) (wr : SendWr) :
    creditsInFlight (wr :: wire) = ntohl wr.immData + creditsInFlight wire := by
  simp [creditsInFlight]

/-- The parts of an endpoint the balance reads. -/
structure SameCredits (ep ep' : Endpoint) : Prop where
  window : ep'.remoteRqWindowSize = ep.remoteRqWindowSize
  wrs : ep'.newRqWrs = ep.newRqWrs
  capacity : ep'.localWindowCapacity = ep.localWindowCapacity
  rq : ep'.rqSize = ep.rqSize

theorem makeWr_credits (ep : Endpoint) (r q : Nat) (piece : Bytes) (last : Bool) (imm : Nat) :
    (ep.makeWr r q piece last imm).1.payload = piece ∧
      (ep.makeWr r q piece last imm).1.immData = htonl imm ∧
      SameCredits ep (ep.makeWr r q piece last imm).2 := by
  obtain ⟨_, _, _, heq⟩ := makeWr_frame ep r q piece last imm
  refine ⟨rfl, rfl, ?_⟩
  rw [heq]
  exact ⟨rfl, rfl, rfl, rfl⟩

theorem clearSlots_credits (n : Nat) (ep : Endpoint) : SameCredits ep (Endpoint.clearSlots n ep) := by
  obtain ⟨_, _, heq⟩ := clearSlots_frame n ep
  rw [heq]
  exact ⟨rfl, rfl, rfl, rfl⟩

/-- With immediates read back as posted. -/
theorem applyImm_credits (ep : Endpoint) (imm : Nat) :
    (ep.applyImm ntohl imm).remoteRqWindowSize % 2 ^ 32 = (ep.remoteRqWindowSize + ntohl imm) % 2 ^ 32 ∧
      (ep.applyImm ntohl imm).newRqWrs = ep.newRqWrs ∧
      (ep.applyImm ntohl imm).localWindowCapacity = ep.localWindowCapacity ∧
      (ep.applyImm ntohl imm).rqSize = ep.rqSize := by
  unfold Endpoint.applyImm
  by_cases h : 0 < imm
  · simp only [h, if_true]
    exact ⟨int32_emod _, trivial, trivial, trivial⟩
  · rw [Nat.eq_zero_of_not_pos h]
    simp [ntohl, htonl]

/-- A SEND of the writer carries data, and its immediate fits 32 bits. -/
def Writer.Wf : Writer → Prop
  | .cut _ _ piece _ => piece ≠ []
  | .exchanged _ _ piece _ imm => piece ≠ [] ∧ imm < 2 ^ 32
  | _ => True

def Poller.Wf : Poller → Prop
  | .sendImm total => total < 2 ^ 32
  | _ => True

def Side.Wf (s : Side) : Prop := s.writer.Wf ∧ s.poller.Wf

/-- What every step of a side except taking a SEND does: credits only move. -/
structure KeepsCredits (s s' : Side) : Prop where
  wf : s'.Wf
  held : s'.held % 2 ^ 32 = s.held % 2 ^ 32
  returning : s'.returning % 2 ^ 32 = s.returning % 2 ^ 32
  surplus : s'.surplus = s.surplus
  capacity : s'.ep.localWindowCapacity = s.ep.localWindowCapacity
  rq : s'.ep.rqSize = s.ep.rqSize

theorem writerNext_keeps {a : WriterAct} (hwf : s.Wf) (h : s.writerNext a = some s') : KeepsCredits s s' := by
  obtain ⟨hw, hp⟩ := hwf
  cases writerNext_step h with
  | loadRemote hpc _ | loadSq hpc | leave hpc | subSq hpc =>
    refine ⟨⟨trivial, hp⟩, ?_, ?_, rfl, rfl, rfl⟩ <;> simp [held, returning, hpc]
  | cut hpc _ _ hpiece =>
    refine ⟨⟨hpiece, hp⟩, ?_, ?_, rfl, rfl, rfl⟩ <;> simp [held, returning, hpc, Endpoint.fillSlot]
  | cutFailed hpc =>
    refine ⟨⟨trivial, hp⟩, ?_, ?_, rfl, rfl, rfl⟩ <;> simp [held, returning, hpc, Endpoint.fillSlot]
  | exchange hpc =>
    rw [hpc] at hw
    refine ⟨⟨⟨hw, uint32_lt _⟩, hp⟩, by simp [held, hpc], ?_, rfl, rfl, rfl⟩
    -- the credits leave the counter and are in the writer's hands
    simp only [returning, hpc, Writer.carried, uint32_cast]
    omega
  | @post r q piece last imm hpc =>
    obtain ⟨hpay, himm, hep⟩ := makeWr_credits s.ep r q piece last imm
    rw [hpc] at hw
    refine ⟨⟨trivial, hp⟩, ?_, ?_, ?_, hep.capacity, hep.rq⟩
    · simp only [held, put, Endpoint.advanceSq, dataInFlight_snoc, hpay, hw.1, hep.window, hpc,
        Writer.uncharged, if_false, Int.natCast_add]
      omega
    · simp only [returning, put, Endpoint.advanceSq, creditsInFlight_snoc, himm, ntohl_htonl hw.2,
        hep.wrs, hpc, Writer.carried, Int.natCast_add]
      omega
    · simp [surplus, put, Endpoint.advanceSq, hep.rq]
  | @postFailed r q piece last imm hpc =>
    -- the credits that were taken out are lost
    obtain ⟨_, _, hep⟩ := makeWr_credits s.ep r q piece last imm
    refine ⟨⟨trivial, hp⟩, ?_, ?_, ?_, hep.capacity, hep.rq⟩
    · simp [held, hep.window, hpc]
    · simp only [returning, hep.wrs, hpc, Writer.carried]
      omega
    · simp [surplus, hep.rq]
  | subRemote hpc =>
    refine ⟨⟨trivial, hp⟩, ?_, by simp [returning, hpc], rfl, rfl, rfl⟩
    have hw := int32_emod (s.ep.remoteRqWindowSize - 1)
    simp only [held, hpc, Writer.uncharged]
    omega

theorem pollerNext_keeps {a : PollerAct} (hwf : s.Wf) (h : s.pollerNext a = some s') : KeepsCredits s s' := by
  obtain ⟨hw, hp⟩ := hwf
  cases pollerNext_step h with
  | repost hpc =>
    refine ⟨⟨hw, trivial⟩, rfl, ?_, rfl, rfl, rfl⟩
    simp [returning, hpc, Endpoint.advanceRq]
  | repostFailed hpc | sendNothing hpc | ackDone hpc _ | restore hpc =>
    refine ⟨⟨hw, trivial⟩, rfl, ?_, rfl, rfl, rfl⟩
    simp [returning, hpc]
  | creditData hpc hn =>
    have hadd := int32_emod (s.ep.newRqWrs + 1)
    refine ⟨⟨hw, trivial⟩, rfl, ?_, rfl, rfl, rfl⟩
    simp only [returning, hpc, Endpoint.addRqWrs, hn, if_true, Poller.carried]
    omega
  | creditAck hpc =>
    have hadd := int32_emod (s.ep.newRqWrs + 1)
    refine ⟨⟨hw, trivial⟩, rfl, ?_, rfl, rfl, rfl⟩
    simp only [returning, hpc, Endpoint.addRqWrs, Nat.lt_irrefl, if_false, Poller.carried]
    omega
  | @ackSend num hpc _ _ | @ackKeep num hpc _ =>
    have hadd := int32_emod (s.ep.newRqWrs + num)
    refine ⟨⟨hw, trivial⟩, rfl, ?_, rfl, rfl, rfl⟩
    simp only [returning, hpc, Endpoint.addRqWrs, Poller.carried]
    omega
  | exchange hpc =>
    refine ⟨⟨hw, uint32_lt _⟩, rfl, ?_, rfl, rfl, rfl⟩
    simp only [returning, hpc, Poller.carried, uint32_cast]
    omega
  | sendImm hpc _ =>
    rw [hpc] at hp
    refine ⟨⟨hw, trivial⟩, ?_, ?_, rfl, rfl, rfl⟩
    · simp [held, put, ackWr, dataInFlight_snoc]
    · simp only [returning, put, ackWr, creditsInFlight_snoc, ntohl_htonl hp, hpc, Poller.carried,
        Int.natCast_add]
      omega
  | sendImmFailed hpc _ =>
    refine ⟨⟨hw, trivial⟩, rfl, ?_, rfl, rfl, rfl⟩
    simp only [returning, hpc, Poller.carried]
    omega
  | @batchDone wrId _ hpc _ _ =>
    obtain ⟨hwin, hwrs, hcap, hrq⟩ := clearSlots_credits wrId s.ep
    refine ⟨⟨hw, trivial⟩, ?_, ?_, ?_, hcap, hrq⟩
    · simp [held, hwin]
    · simp [returning, hwrs, hpc]
    · simp [surplus, hrq]

/-- What a step of a side does to the law, towards its peer and from it. -/
structure LawKept (s r s' r' : Side) : Prop where
  wf : s'.Wf ∧ r'.Wf
  rq : s'.ep.rqSize = s.ep.rqSize ∧ r'.ep.rqSize = r.ep.rqSize
  towards : CreditLaw s r → CreditLaw s' r'
  from_peer : CreditLaw r s → CreditLaw r' s'

theorem KeepsCredits.law (h : KeepsCredits s s') (hr : r.Wf) : LawKept s r s' r := by
  refine ⟨⟨h.wf, hr⟩, ⟨h.rq, rfl⟩, fun hl => ?_, fun hl => ?_⟩
  · have := h.held
    simp only [CreditLaw, h.capacity] at hl ⊢
    omega
  · have := h.returning
    simp only [CreditLaw, h.surplus] at hl ⊢
    omega

/-- Taking a SEND moves its immediate into the window, and turns one SEND in flight into
    the credits the poller is about to count. -/
theorem recvNext_credits (hs : s.Wf) (hr : r.Wf) (h : s.recvNext ntohl r = some (s', r')) : LawKept s r s' r' := by
  obtain ⟨wr, rest, hpc, hwire, rfl, rfl⟩ := recvNext_step h
  obtain ⟨hwin, hnew, hcap, hrq⟩ := applyImm_credits s.ep wr.immData
  refine ⟨⟨⟨hs.1, trivial⟩, hr⟩, ⟨hrq, rfl⟩, ?_, ?_⟩
  · simp only [CreditLaw, held, returning, surplus, hcap, hwire, creditsInFlight_cons,
      Int.natCast_add]
    omega
  · simp only [CreditLaw, held, returning, surplus, hnew, hrq, hwire, hpc,
      dataInFlight_cons, Poller.carried, Int.natCast_add]
    by_cases hdata : wr.payload = []
    · simp only [hdata, List.length_nil, if_true, if_false, Nat.lt_irrefl]
      omega
    · have hpos : 0 < wr.payload.length := List.length_pos_iff.mpr hdata
      simp only [hdata, hpos, if_true, if_false]
      omega

/-- One step of a side, towards its peer and from it. -/
theorem side_next_credits {a : SideAct} (hs : s.Wf) (hr : r.Wf) (h : s.next ntohl r a = some (s', r')) :
    LawKept s r s' r' := by
  cases a with
  | writer w =>
    obtain ⟨x, hx, heq⟩ := Option.map_eq_some_iff.mp h
    cases heq
    exact (writerNext_keeps hs hx).law hr
  | setFailed =>
    cases h
    exact KeepsCredits.law ⟨hs, rfl, rfl, rfl, rfl, rfl⟩ hr
  | poller p =>
    cases p with
    | recv => exact recvNext_credits hs hr h
    | _ =>
      obtain ⟨x, hx, heq⟩ := Option.map_eq_some_iff.mp h
      cases heq
      exact (pollerNext_keeps hs hx).law hr

/-! Whole runs. -/

/-- The law in both directions. -/
structure Pair.Lawful (ha hb : Hello) (s : Pair) : Prop where
  wf : s.a.Wf ∧ s.b.Wf
  rq : s.a.ep.rqSize = ha.rqSize ∧ s.b.ep.rqSize = hb.rqSize
  ab : CreditLaw s.a s.b
  ba : CreditLaw s.b s.a

theorem handshaken_window (mine remote : Hello) :
    (Endpoint.handshaken mine remote).remoteRqWindowSize = (Endpoint.handshaken mine remote).localWindowCapacity := by
  obtain ⟨_, heq⟩ := handshaken_frame mine remote
  rw [heq]
  rfl

/-- `BringUpQp` leaves `rq_size_` credits to return. -/
theorem handshaken_rqWrs (mine remote : Hello) : (Endpoint.handshaken mine remote).newRqWrs = mine.rqSize ∧
    (Endpoint.handshaken mine remote).rqSize = mine.rqSize := by
  obtain ⟨_, heq⟩ := handshaken_frame mine remote
  have hmax := mine.rq_max
  rw [heq]
  refine ⟨?_, rfl⟩
  simp only [Int.zero_add]
  exact int32_of_bounds (by omega) (by omega)

theorem handshaken_law (ha hb : Hello) : CreditLaw (.handshaken ha hb) (.handshaken hb ha) := by
  obtain ⟨hwrs, hrq⟩ := handshaken_rqWrs hb ha
  simp [CreditLaw, held, returning, surplus, handshaken, handshaken_window, hwrs, hrq,
    dataInFlight, creditsInFlight]

theorem pair_lawful {ha hb : Hello} {s : Pair} (h : (pairMachine ntohl ha hb).Reachable s) : s.Lawful ha hb := by
  refine h.invariant ?_ ?_
  · rintro s rfl
    exact ⟨⟨⟨trivial, trivial⟩, trivial, trivial⟩, ⟨(handshaken_rqWrs ha hb).2, (handshaken_rqWrs hb ha).2⟩,
      handshaken_law ha hb, handshaken_law hb ha⟩
  · rintro s ⟨p, act⟩ s' ⟨⟨hwa, hwb⟩, ⟨hra, hrb⟩, hab, hba⟩ hn
    cases p with
    | a =>
      obtain ⟨⟨x, y⟩, hxy, rfl⟩ := Option.map_eq_some_iff.mp hn
      obtain ⟨hwf, ⟨hx, hy⟩, h1, h2⟩ := side_next_credits hwa hwb hxy
      exact ⟨hwf, ⟨hx.trans hra, hy.trans hrb⟩, h1 hab, h2 hba⟩
    | b =>
      obtain ⟨⟨x, y⟩, hxy, rfl⟩ := Option.map_eq_some_iff.mp hn
      obtain ⟨hwf, ⟨hx, hy⟩, h1, h2⟩ := side_next_credits hwb hwa hxy
      exact ⟨hwf.symm, ⟨hy.trans hra, hx.trans hrb⟩, h2 hab, h1 hba⟩

theorem creditBalance_idle (hs : s.Idle) (hr : r.Idle) (hlaw : CreditLaw s r) :
    (creditBalance s r + r.lost) % 2 ^ 32 = (s.ep.localWindowCapacity + r.surplus) % 2 ^ 32 := by
  have heq : creditBalance s r + r.lost = s.held + r.returning := by
    simp only [creditBalance, held, returning, hs.1, hr.1, hr.2, Writer.uncharged, Writer.carried,
      Poller.carried]
    omega
  rw [heq]
  exact hlaw

/-- Between calls the balance is the capacity plus the surplus, and so, as long as no post
    failed and the counters have not wrapped, never the capacity. -/
theorem credit_not_conserved (ha hb : Hello) {s : Pair} (hreach : (pairMachine ntohl ha hb).Reachable s)
    (hidleA : s.a.Idle) (hidleB : s.b.Idle) :
    (creditBalance s.a s.b + s.b.lost) % 2 ^ 32 =
        (s.a.ep.localWindowCapacity + (hb.rqSize + s.b.dataHandled + s.b.acksHandled)) % 2 ^ 32 ∧
      (s.b.lost = 0 → hb.rqSize + s.b.dataHandled + s.b.acksHandled < 2 ^ 32 →
        creditBalance s.a s.b ≠ s.a.ep.localWindowCapacity) := by
  obtain ⟨_, ⟨_, hrq⟩, hlaw, _⟩ := pair_lawful hreach
  have hbalance := creditBalance_idle hidleA hidleB hlaw
  rw [Side.surplus, hrq] at hbalance
  refine ⟨hbalance, fun hlost hwrap heq => ?_⟩
  have hmin := hb.rq_min
  rw [hlost, heq] at hbalance
  omega

/-- The sizes `OnCreated` sets, with the receive block of the smallest pool class. -/
def defaultHello : Hello := ⟨128, 128, 8160, by decide, by decide, by decide, by decide, by decide, by decide⟩

/-- The smallest sizes `HelloNegotiationValid` accepts. -/
def smallestHello : Hello := ⟨16, 16, 1024, by decide, by decide, by decide, by decide, by decide, by decide⟩

/-- One SEND of a single byte by `a`, handled by `b`, which answers with a pure ACK. -/
def oneSend : List (Party × SideAct) :=
  [(.a, .writer .loadRemote), (.a, .writer .loadSq), (.a, .writer (.cut [0] true)), (.a, .writer .exchange),
    (.a, .writer (.post true)), (.a, .writer .subRemote), (.a, .writer .subSq), (.a, .writer .leave),
    (.b, .poller .recv), (.b, .poller (.repost true)), (.b, .poller .credit), (.b, .poller .ack),
    (.b, .poller .exchange), (.b, .poller (.sendImm true))]

theorem oneSend_not_conserved : ∃ s, (pairMachine ntohl defaultHello defaultHello).Run oneSend s ∧
    creditBalance s.a s.b ≠ s.a.ep.localWindowCapacity := by
  have hexec : ∃ s, (pairMachine ntohl defaultHello defaultHello).Run oneSend s ∧ s.a.Idle ∧ s.b.Idle ∧
      s.b.lost = 0 ∧ 128 + s.b.dataHandled + s.b.acksHandled < 2 ^ 32 :=
    Machine.exists_run rfl (by decide +kernel)
  obtain ⟨s, hrun, hidleA, hidleB, hlost, hwrap⟩ := hexec
  exact ⟨s, hrun, (credit_not_conserved defaultHello defaultHello ⟨_, hrun⟩ hidleA hidleB).2 hlost hwrap⟩

/-- 253 credits right after the handshake and 254 after one SEND, with a capacity of 125. -/
theorem credits_exceed_capacity :
    (∃ s, (pairMachine ntohl defaultHello defaultHello).Run [] s ∧ s.a.Idle ∧ s.b.Idle ∧
      creditBalance s.a s.b = 253 ∧ s.a.ep.localWindowCapacity = 125) ∧
    ∃ s, (pairMachine ntohl defaultHello defaultHello).Run oneSend s ∧ s.a.Idle ∧ s.b.Idle ∧
      creditBalance s.a s.b = 254 ∧ s.a.ep.localWindowCapacity = 125 := by
  constructor
  · exact Machine.exists_run rfl (by decide +kernel)
  · exact Machine.exists_run rfl (by decide +kernel)

/-! The immediate as the code reads it. -/

/-- A step that posts a SEND carrying `c` credits: `CutFromIOBufList` or `SendImm`. -/
inductive PostsCredits (c : Nat) (s s' : Side) : Prop where
  | cutFromIOBufList (r q : Nat) (piece : Bytes) (last : Bool) :
    s.writer = .exchanged r q piece last c → s.writerNext (.post true) = some s' → PostsCredits c s s'
  | sendImm : s.poller = .sendImm c → s.pollerNext (.sendImm true) = some s' → PostsCredits c s s'

theorem PostsCredits.wire {c : Nat} (hpos : 0 < c) (h : PostsCredits c s s') :
    ∃ wr, s'.wire = s.wire ++ [wr] ∧ wr.immData = htonl c := by
  cases h with
  | cutFromIOBufList r q piece last hpc h =>
    simp only [writerNext, hpc, if_true, Option.some.injEq] at h
    exact ⟨_, by rw [← h]; rfl, (makeWr_credits s.ep r q piece last c).2.1⟩
  | sendImm hpc h =>
    simp only [pollerNext, hpc, Nat.pos_iff_ne_zero.mp hpos, if_true, if_false, Option.some.injEq] at h
    exact ⟨ackWr c, by rw [← h]; rfl, rfl⟩

theorem recvNext_window {decode : Nat → Nat} {wr : SendWr} (hhead : r.wire.head? = some wr)
    (h : s.recvNext decode r = some (s', r')) :
    s'.ep.remoteRqWindowSize = (s.ep.applyImm decode wr.immData).remoteRqWindowSize := by
  obtain ⟨first, rest, _, hwire, _, rfl⟩ := recvNext_step h
  rw [hwire, List.head?_cons, Option.some.injEq] at hhead
  rw [hhead]

/-- Whoever posts `c` credits, the peer's window grows by `c / 65536`, never by `c`. -/
theorem credit_imm_truncated {c : Nat} (hpos : 0 < c) (hmax : c < 2 ^ 32) {s s' : Side}
    (hpost : PostsCredits c s s') :
    ∃ wr, s'.wire = s.wire ++ [wr] ∧ ∀ x x' y y' : Side, y.wire.head? = some wr →
      x.recvNext ntohs y = some (x', y') →
        x'.ep.remoteRqWindowSize = int32 (x.ep.remoteRqWindowSize + (c / 2 ^ 16 : Nat)) ∧
        x'.ep.remoteRqWindowSize ≠ int32 (x.ep.remoteRqWindowSize + c) := by
  obtain ⟨wr, hwire, himm⟩ := hpost.wire hpos
  refine ⟨wr, hwire, fun x x' y y' hhead hrecv => ?_⟩
  have hwin : x'.ep.remoteRqWindowSize = int32 (x.ep.remoteRqWindowSize + (c / 2 ^ 16 : Nat)) := by
    rw [recvNext_window hhead hrecv, himm, Endpoint.applyImm, if_pos (htonl_pos hmax hpos), ntohs_htonl hmax]
  refine ⟨hwin, fun heq => ?_⟩
  have hless : c / 2 ^ 16 < c := Nat.div_lt_self hpos (by decide)
  have h1 := int32_emod (x.ep.remoteRqWindowSize + (c / 2 ^ 16 : Nat))
  have h2 := int32_emod (x.ep.remoteRqWindowSize + c)
  rw [← hwin, heq, h2] at h1
  generalize c / 2 ^ 16 = high at hless h1
  omega

theorem credit_imm_truncated_130 : ∃ wr : SendWr, wr = ackWr 130 ∧ ∀ x x' y y' : Side, y.wire.head? = some wr →
    x.recvNext ntohs y = some (x', y') → x'.ep.remoteRqWindowSize ≠ int32 (x.ep.remoteRqWindowSize + 130) := by
  have hpost : PostsCredits 130 { Side.handshaken defaultHello defaultHello with poller := .sendImm 130 }
      ({ Side.handshaken defaultHello defaultHello with
        ep := { Endpoint.handshaken defaultHello defaultHello with sqImmWindowSize := 2 } }.put (ackWr 130)) :=
    .sendImm rfl rfl
  obtain ⟨wr, hwire, hrecv⟩ := credit_imm_truncated (by decide) (by decide) hpost
  refine ⟨wr, ?_, fun x x' y y' hhead h => (hrecv x x' y y' hhead h).2⟩
  have heq : [ackWr 130] = [wr] := hwire
  exact (List.cons.inj heq).1.symm

/-- `b` returns 130 credits for the one SEND of `a`, whose window stays where it was. -/
theorem returned_credits_ignored :
    (∃ s, (pairMachine ntohs defaultHello defaultHello).Run oneSend s ∧
      s.b.wire = [ackWr 130] ∧ s.a.ep.remoteRqWindowSize = 124) ∧
    ∃ s, (pairMachine ntohs defaultHello defaultHello).Run (oneSend ++ [(.a, .poller .recv)]) s ∧
      s.b.wire = [] ∧ s.a.ep.remoteRqWindowSize = 124 := by
  constructor
  · exact Machine.exists_run rfl (by decide +kernel)
  · exact Machine.exists_run rfl (by decide +kernel)

end LightRpc

import LightRpc.FlowControl

/- The send window of one endpoint.

   `sq_window_size_` counts the data SENDs that may still be posted. The writer takes one
   off after each post; the poller gives back as many as a signalled completion covers. A
   data SEND is signalled if it is the last of a batch of `local_window_capacity_ / 4`, so
   every signalled completion covers one batch, and the SENDs behind the last signalled
   one are fewer than a batch (`SendWindow`). The pure ACKs have a window of their own,
   `sq_imm_window_size_`, which only the poller touches.

   All of this is about the endpoint alone: its peer matters only through the credits,
   which may be anything here. -/
namespace LightRpc

open Endpoint

/-- The number of data SENDs a signalled completion covers. -/
def Endpoint.batch (ep : Endpoint) : Nat := (ep.localWindowCapacity.tdiv 4).toNat

/-- A data SEND that is posted and not yet taken off the window. -/
def Writer.owed : Writer → Int
  | .posted | .charged _ => 1
  | _ => 0

/-- What the writer relies on finding in the window. -/
def Writer.claims : Writer → Int
  | .ready _ q => q
  | .cut _ _ _ _ | .exchanged _ _ _ _ _ | .posted | .charged _ => 1
  | _ => 0

/-- Released by the poller and not yet given back to the window. -/
def Poller.restoring : Poller → Int
  | .restore wrId => wrId
  | _ => 0

/-- The room `SendAck` has found for a pure ACK. -/
def Poller.acking : Poller → Int
  | .ackExchange | .sendImm _ => 1
  | _ => 0

/-- `n` data SENDs are posted and not released by a completion. -/
structure SendWindow (s : Side) (n : Nat) : Prop where
  capacity : 13 ≤ s.ep.localWindowCapacity
  limit : s.ep.localWindowCapacity + RESERVED_WR_NUM ≤ s.ep.sqSize
  size : s.ep.sqSize < 2 ^ 16
  unsignaled : s.ep.sqUnsignaled = (n % s.ep.batch : Nat)
  completions : s.sendCq.filter (· ≠ 0) = List.replicate (n / s.ep.batch) s.ep.batch
  window : s.ep.sqWindowSize + s.poller.restoring + n = s.ep.localWindowCapacity + s.writer.owed
  claims : s.writer.claims ≤ s.ep.sqWindowSize
  imm : s.ep.sqImmWindowSize + s.sendCq.count 0 = RESERVED_WR_NUM
  acking : s.poller.acking ≤ s.ep.sqImmWindowSize
  restoring : s.poller.restoring ≤ s.ep.batch

/-- The fields of an endpoint the window is about. -/
structure SameWindow (ep ep' : Endpoint) : Prop where
  capacity : ep'.localWindowCapacity = ep.localWindowCapacity
  size : ep'.sqSize = ep.sqSize
  unsignaled : ep'.sqUnsignaled = ep.sqUnsignaled
  window : ep'.sqWindowSize = ep.sqWindowSize
  imm : ep'.sqImmWindowSize = ep.sqImmWindowSize

theorem SameWindow.refl (ep : Endpoint) : SameWindow ep ep := ⟨rfl, rfl, rfl, rfl, rfl⟩

/-- The solicited flag has counters of its own. -/
theorem solicit_window (ep : Endpoint) (r q : Nat) (last : Bool) (imm : Nat) :
    SameWindow ep (ep.solicit r q last imm).2 := by
  rw [solicit]
  split <;> exact ⟨rfl, rfl, rfl, rfl, rfl⟩

theorem Writer.claims_nonneg (w : Writer) : 0 ≤ w.claims := by
  cases w <;> simp [Writer.claims]

theorem Poller.restoring_nonneg (p : Poller) : 0 ≤ p.restoring := by
  cases p <;> simp [Poller.restoring]

namespace SendWindow

variable {s s' : Side} {n : Nat}

section

variable (h : SendWindow s n)

include h

theorem tdiv_eq_batch : s.ep.localWindowCapacity.tdiv 4 = (s.ep.batch : Int) := by
  have hcap := h.capacity
  rw [batch, Int.tdiv_eq_ediv_of_nonneg (by omega)]
  omega

theorem batch_bounds : 3 ≤ s.ep.batch ∧ 4 * (s.ep.batch : Int) ≤ s.ep.localWindowCapacity := by
  have hcap := h.capacity
  have hbatch := h.tdiv_eq_batch
  rw [Int.tdiv_eq_ediv_of_nonneg (by omega)] at hbatch
  omega

theorem le_capacity : (n : Int) ≤ s.ep.localWindowCapacity := by
  have hwindow := h.window
  have hclaims := h.claims
  have hrestoring := s.poller.restoring_nonneg
  have howed : s.writer.owed ≤ s.writer.claims := by
    cases s.writer <;> simp [Writer.owed, Writer.claims]
  omega

theorem imm_nonneg : 0 ≤ s.ep.sqImmWindowSize := by
  have hacking := h.acking
  have hnonneg : 0 ≤ s.poller.acking := by
    cases s.poller <;> simp [Poller.acking]
  omega

/-- A step that leaves window, completions and counters alone. -/
theorem keep (hep : SameWindow s.ep s'.ep) (hcq : s'.sendCq = s.sendCq) (howed : s'.writer.owed = s.writer.owed)
    (hclaims : s'.writer.claims ≤ s.ep.sqWindowSize) (hrestoring : s'.poller.restoring = s.poller.restoring)
    (hacking : s'.poller.acking ≤ s.ep.sqImmWindowSize) : SendWindow s' n where
  capacity := by
    rw [hep.capacity]
    exact h.capacity
  limit := by
    rw [hep.capacity, hep.size]
    exact h.limit
  size := by
    rw [hep.size]
    exact h.size
  unsignaled := by
    rw [hep.unsignaled, batch, hep.capacity]
    exact h.unsignaled
  completions := by
    rw [hcq, batch, hep.capacity]
    exact h.completions
  window := by
    rw [hep.window, hrestoring, hep.capacity, howed]
    exact h.window
  claims := by
    rw [hep.window]
    exact hclaims
  imm := by
    rw [hep.imm, hcq]
    exact h.imm
  acking := by
    rw [hep.imm]
    exact hacking
  restoring := by
    rw [hrestoring, batch, hep.capacity]
    exact h.restoring

/-! Posting a data SEND. -/

/-- The SEND is the last of a batch, or not. -/
theorem signal_eq {ep : Endpoint} (hep : SameWindow s.ep ep) :
    ep.signal = if (n + 1) % s.ep.batch = 0 then (true, s.ep.batch, { ep with sqUnsignaled := 0 })
      else (false, 0, { ep with sqUnsignaled := ((n + 1) % s.ep.batch : Nat) }) := by
  obtain ⟨hk, _⟩ := h.batch_bounds
  have hlt : n % s.ep.batch < s.ep.batch := Nat.mod_lt _ (by omega)
  have hmod : (n + 1) % s.ep.batch = if n % s.ep.batch + 1 = s.ep.batch then 0 else n % s.ep.batch + 1 := by
    rw [Nat.add_mod, Nat.mod_eq_of_lt (a := 1) (by omega)]
    split
    case isTrue heq => rw [heq, Nat.mod_self]
    case isFalse hne => exact Nat.mod_eq_of_lt (by omega)
  rw [signal, hep.unsignaled, h.unsignaled, hep.capacity, h.tdiv_eq_batch, hmod]
  by_cases heq : n % s.ep.batch + 1 = s.ep.batch
  · have hsignal : ((n % s.ep.batch : Nat) : Int) + 1 ≥ (s.ep.batch : Int) := by omega
    have hid : (((n % s.ep.batch : Nat) : Int) + 1).toNat = s.ep.batch := by omega
    rw [if_pos hsignal, if_pos heq, if_pos rfl, hid]
  · have hsilent : ¬ ((n % s.ep.batch : Nat) : Int) + 1 ≥ (s.ep.batch : Int) := by omega
    rw [if_neg hsilent, if_neg heq, if_neg (by omega)]
    rfl

theorem makeWr_signaled (r q : Nat) (piece : Bytes) (last : Bool) (imm : Nat) :
    (s.ep.makeWr r q piece last imm).1.signaled = decide ((n + 1) % s.ep.batch = 0) ∧
      (s.ep.makeWr r q piece last imm).1.wrId = (if (n + 1) % s.ep.batch = 0 then s.ep.batch else 0) ∧
      (s.ep.makeWr r q piece last imm).2.sqUnsignaled = ((n + 1) % s.ep.batch : Nat) := by
  simp only [makeWr, h.signal_eq (solicit_window s.ep r q last imm)]
  by_cases hlast : (n + 1) % s.ep.batch = 0 <;> simp [hlast]

end

theorem makeWr_others (ep : Endpoint) (r q : Nat) (piece : Bytes) (last : Bool) (imm : Nat) :
    (ep.makeWr r q piece last imm).2.localWindowCapacity = ep.localWindowCapacity ∧
    (ep.makeWr r q piece last imm).2.sqSize = ep.sqSize ∧
    (ep.makeWr r q piece last imm).2.sqWindowSize = ep.sqWindowSize ∧
    (ep.makeWr r q piece last imm).2.sqImmWindowSize = ep.sqImmWindowSize := by
  obtain ⟨_, _, _, heq⟩ := makeWr_frame ep r q piece last imm
  rw [heq]
  exact ⟨rfl, rfl, rfl, rfl⟩

/-- Every batch that is complete has its completion, and no other. -/
theorem completions_post (h : SendWindow s n) : (if (n + 1) % s.ep.batch = 0 then s.sendCq ++ [s.ep.batch] else
    s.sendCq).filter (· ≠ 0) = List.replicate ((n + 1) / s.ep.batch) s.ep.batch := by
  obtain ⟨hk, _⟩ := h.batch_bounds
  have hne : s.ep.batch ≠ 0 := by omega
  by_cases hlast : (n + 1) % s.ep.batch = 0
  · have hdiv : (n + 1) / s.ep.batch = n / s.ep.batch + 1 := by
      rw [Nat.succ_div, if_pos (Nat.dvd_of_mod_eq_zero hlast)]
    rw [if_pos hlast, List.filter_append, h.completions, hdiv, List.replicate_succ']
    simp [hne]
  · have hdiv : (n + 1) / s.ep.batch = n / s.ep.batch := by
      rw [Nat.succ_div, if_neg (fun hdvd => hlast (Nat.mod_eq_zero_of_dvd hdvd)), Nat.add_zero]
    rw [if_neg hlast, h.completions, hdiv]

theorem post (h : SendWindow s n) {r q : Nat} {piece : Bytes} {last : Bool} {imm : Nat}
    (hpc : s.writer = .exchanged r q piece last imm) (hn : s.writerNext (.post true) = some s') :
    SendWindow s' (n + 1) := by
  obtain ⟨hsignaled, hid, hunsignaled⟩ := h.makeWr_signaled r q piece last imm
  obtain ⟨hcap, hsize, hwindow, himm⟩ := makeWr_others s.ep r q piece last imm
  obtain ⟨hk, _⟩ := h.batch_bounds
  have hpaid : 1 ≤ s.ep.sqWindowSize := by
    have := h.claims
    rwa [hpc] at this
  simp only [Side.writerNext, hpc, if_true, Option.some.injEq] at hn
  have hcq : s'.sendCq = if (n + 1) % s.ep.batch = 0 then s.sendCq ++ [s.ep.batch] else s.sendCq := by
    rw [← hn, Side.put, hsignaled, hid]
    by_cases hlast : (n + 1) % s.ep.batch = 0 <;> simp [hlast]
  have hbatch : s'.ep.batch = s.ep.batch := by
    rw [← hn, batch, batch, ← hcap]
    rfl
  constructor
  · rw [← hn]
    exact hcap.symm ▸ h.capacity
  · rw [← hn]
    show (s.ep.makeWr r q piece last imm).2.localWindowCapacity + _ ≤ ((s.ep.makeWr r q piece last imm).2.sqSize : Int)
    rw [hcap, hsize]
    exact h.limit
  · rw [← hn]
    exact hsize.symm ▸ h.size
  · rw [hbatch, ← hn]
    exact hunsignaled
  · rw [hcq, hbatch]
    exact h.completions_post
  · have hold := h.window
    rw [← hn]
    show (s.ep.makeWr r q piece last imm).2.sqWindowSize + s.poller.restoring + (n + 1 : Nat) =
      (s.ep.makeWr r q piece last imm).2.localWindowCapacity + 1
    rw [hwindow, hcap]
    rw [hpc] at hold
    simp only [Writer.owed] at hold
    omega
  · rw [← hn]
    exact hwindow.symm ▸ hpaid
  · have hold := h.imm
    rw [hcq, ← hn]
    show (s.ep.makeWr r q piece last imm).2.sqImmWindowSize + _ = _
    rw [himm]
    by_cases hlast : (n + 1) % s.ep.batch = 0
    · rw [if_pos hlast, List.count_append, List.count_singleton]
      simpa [show s.ep.batch ≠ 0 by omega] using hold
    · rw [if_neg hlast]
      exact hold
  · rw [← hn]
    exact himm.symm ▸ h.acking
  · rw [hbatch, ← hn]
    exact h.restoring

/-- The window after the SEND is taken off it. -/
theorem subSq (h : SendWindow s n) {r : Nat} (hpc : s.writer = .charged r)
    (hn : s.writerNext .subSq = some s') : SendWindow s' n := by
  have hwindow := h.window
  have hclaims := h.claims
  have hlimit := h.limit
  have hsize := h.size
  have hrestoring := s.poller.restoring_nonneg
  rw [hpc] at hwindow hclaims
  simp only [Writer.owed, Writer.claims, RESERVED_WR_NUM] at hwindow hclaims hlimit
  have hsub : int32 (s.ep.sqWindowSize - 1) = s.ep.sqWindowSize - 1 := int32_of_bounds (by omega) (by omega)
  simp only [Side.writerNext, hpc, hsub, Option.some.injEq] at hn
  subst hn
  refine ⟨h.capacity, h.limit, h.size, h.unsignaled, h.completions, ?_, ?_, h.imm, h.acking, h.restoring⟩
  · show s.ep.sqWindowSize - 1 + s.poller.restoring + n = s.ep.localWindowCapacity + 0
    omega
  · show ((uint32 (s.ep.sqWindowSize - 1) : Nat) : Int) ≤ s.ep.sqWindowSize - 1
    rw [uint32_of_bounds (by omega) (by omega)]

/-- Every data SEND the writer posts is one more to be released. -/
def posts : WriterAct → Nat
  | .post _ => 1
  | _ => 0

theorem writer (h : SendWindow s n) {a : WriterAct} (hok : a ≠ .post false) (hn : s.writerNext a = some s') :
    SendWindow s' (n + posts a) := by
  have hnonneg := Int.le_trans s.writer.claims_nonneg h.claims
  have hclaims := h.claims
  cases writerNext_step hn with
  | loadRemote hpc _ | leave hpc => exact h.keep (.refl _) rfl (by rw [hpc]; rfl) hnonneg rfl h.acking
  | loadSq hpc =>
    have hcap := h.le_capacity
    have hwindow := h.window
    have hrestoring := s.poller.restoring_nonneg
    have hlimit := h.limit
    have hsize := h.size
    rw [hpc] at hwindow
    simp only [Writer.owed, RESERVED_WR_NUM] at hwindow hlimit
    refine h.keep (.refl _) rfl (by rw [hpc]; rfl) ?_ rfl h.acking
    show ((uint32 s.ep.sqWindowSize : Nat) : Int) ≤ s.ep.sqWindowSize
    rw [uint32_of_bounds (by omega) (by omega)]
  | cut hpc _ hq _ =>
    rw [hpc] at hclaims
    simp only [Writer.claims] at hclaims
    refine h.keep ⟨rfl, rfl, rfl, rfl, rfl⟩ rfl (by rw [hpc]; rfl) ?_ rfl h.acking
    show 1 ≤ s.ep.sqWindowSize
    omega
  | cutFailed hpc => exact h.keep ⟨rfl, rfl, rfl, rfl, rfl⟩ rfl (by rw [hpc]; rfl) hnonneg rfl h.acking
  | exchange hpc | subRemote hpc =>
    rw [hpc] at hclaims
    exact h.keep ⟨rfl, rfl, rfl, rfl, rfl⟩ rfl (by rw [hpc]; rfl) hclaims rfl h.acking
  | post hpc => exact h.post hpc hn
  | postFailed hpc => exact absurd rfl hok
  | subSq hpc => exact h.subSq hpc hn

/-! The poller. -/

theorem clearSlots_window (k : Nat) (ep : Endpoint) : SameWindow ep (clearSlots k ep) := by
  obtain ⟨_, _, heq⟩ := clearSlots_frame k ep
  rw [heq]
  exact ⟨rfl, rfl, rfl, rfl, rfl⟩

section

variable (h : SendWindow s n)

include h

/-- The window is given back what a completion has released. -/
theorem restore {wrId : Nat} (hpc : s.poller = .restore wrId) :
    SendWindow { s with poller := .idle, ep := { s.ep with sqWindowSize := int32 (s.ep.sqWindowSize + wrId) } } n := by
  have hwindow := h.window
  have hclaims := h.claims
  have hnonneg := Int.le_trans s.writer.claims_nonneg h.claims
  have hlimit := h.limit
  have hsize := h.size
  rw [hpc] at hwindow
  simp only [Poller.restoring, RESERVED_WR_NUM] at hwindow hlimit
  have howed : s.writer.owed ≤ 1 := by
    cases s.writer <;> simp [Writer.owed]
  have hadd : int32 (s.ep.sqWindowSize + wrId) = s.ep.sqWindowSize + wrId := int32_of_bounds (by omega) (by omega)
  refine ⟨h.capacity, h.limit, h.size, h.unsignaled, h.completions, ?_, ?_, h.imm, h.imm_nonneg,
    Int.natCast_nonneg _⟩
  · show int32 (s.ep.sqWindowSize + wrId) + 0 + n = s.ep.localWindowCapacity + s.writer.owed
    rw [hadd]
    omega
  · show s.writer.claims ≤ int32 (s.ep.sqWindowSize + wrId)
    rw [hadd]
    omega

/-- A pure ACK takes one of the entries kept for it. -/
theorem sendImm {total : Nat} (hpc : s.poller = .sendImm total) :
    SendWindow
      ({ s with poller := .idle, ep := { s.ep with sqImmWindowSize := s.ep.sqImmWindowSize - 1 } }.put (ackWr total))
      n := by
  have hwindow := h.window
  have himm := h.imm
  have hacking := h.acking
  rw [hpc] at hwindow hacking
  refine ⟨h.capacity, h.limit, h.size, h.unsignaled, ?_, hwindow, h.claims, ?_, Int.sub_nonneg_of_le hacking,
    Int.natCast_nonneg _⟩
  · show (s.sendCq ++ [0]).filter (· ≠ 0) = List.replicate (n / s.ep.batch) s.ep.batch
    rw [List.filter_append, h.completions]
    simp
  · show s.ep.sqImmWindowSize - 1 + ((s.sendCq ++ [0]).count 0 : Nat) = RESERVED_WR_NUM
    rw [List.count_append, List.count_singleton_self]
    omega

/-- The steps of the poller other than taking a send completion. -/
theorem poller {a : PollerAct} (hok : a ≠ .sendImm false) (hdone : a ≠ .sendDone) (hn : s.pollerNext a = some s') :
    SendWindow s' n := by
  cases pollerNext_step hn with
  | repost hpc | repostFailed hpc | creditData hpc _ | creditAck hpc | ackKeep hpc _ =>
    exact h.keep ⟨rfl, rfl, rfl, rfl, rfl⟩ rfl rfl h.claims (by rw [hpc]; rfl) h.imm_nonneg
  | ackSend hpc _ hroom => exact h.keep ⟨rfl, rfl, rfl, rfl, rfl⟩ rfl rfl h.claims (by rw [hpc]; rfl) hroom
  | exchange hpc =>
    have hacking := h.acking
    rw [hpc] at hacking
    exact h.keep ⟨rfl, rfl, rfl, rfl, rfl⟩ rfl rfl h.claims (by rw [hpc]; rfl) hacking
  | sendNothing hpc => exact h.keep (.refl _) rfl rfl h.claims (by rw [hpc]; rfl) h.imm_nonneg
  | sendImm hpc _ => exact h.sendImm hpc
  | sendImmFailed _ _ => exact absurd rfl hok
  | ackDone _ _ => exact absurd rfl hdone
  | batchDone _ _ _ => exact absurd rfl hdone
  | restore hpc => exact h.restore hpc

/-- A completion of a pure ACK. -/
theorem ackDone {rest : List Nat} (hcq : s.sendCq = 0 :: rest) (hn : s.pollerNext .sendDone = some s') :
    SendWindow s' n ∧ s'.sendCq = rest ∧ s'.poller = .ack 0 := by
  have hwindow := h.window
  have himm := h.imm
  have hcompletions := h.completions
  cases pollerNext_step hn with
  | ackDone hpc hcq' =>
    rw [hcq] at hcq'
    obtain ⟨_, rfl⟩ := List.cons.inj hcq'
    rw [hpc] at hwindow
    rw [hcq] at himm hcompletions
    refine ⟨⟨h.capacity, h.limit, h.size, h.unsignaled, ?_, hwindow, h.claims, ?_,
      Int.add_nonneg h.imm_nonneg (by decide), Int.natCast_nonneg _⟩, rfl, rfl⟩
    · show rest.filter (· ≠ 0) = List.replicate (n / s.ep.batch) s.ep.batch
      simpa using hcompletions
    · show s.ep.sqImmWindowSize + 1 + (rest.count 0 : Nat) = RESERVED_WR_NUM
      rw [List.count_cons_self] at himm
      omega
  | batchDone _ hcq' hid =>
    rw [hcq] at hcq'
    exact absurd (List.cons.inj hcq').1.symm hid

/-- A completion of a data SEND covers one batch. -/
theorem batchDone {wrId : Nat} {rest : List Nat} (hcq : s.sendCq = wrId :: rest) (hid : wrId ≠ 0)
    (hn : s.pollerNext .sendDone = some s') :
    wrId = s.ep.batch ∧ s.ep.batch ≤ n ∧ SendWindow s' (n - s.ep.batch) ∧ s'.sendCq = rest ∧ s'.ep = clearSlots wrId
      s.ep ∧ s'.writer = s.writer := by
  obtain ⟨hk, _⟩ := h.batch_bounds
  have hwindow := h.window
  have himm := h.imm
  have hcompletions := h.completions
  rw [hcq, List.filter_cons_of_pos (by simpa using hid)] at hcompletions
  -- the completion is the first of at least one
  obtain ⟨m, hm⟩ : ∃ m, n / s.ep.batch = m + 1 := by
    cases hdiv : n / s.ep.batch with
    | zero =>
      rw [hdiv] at hcompletions
      cases hcompletions
    | succ m => exact ⟨m, rfl⟩
  rw [hm, List.replicate_succ] at hcompletions
  obtain ⟨hbatch, hrest⟩ := List.cons.inj hcompletions
  have hle : s.ep.batch ≤ n := (Nat.div_pos_iff.mp (by omega)).2
  have hdiv : (n - s.ep.batch) / s.ep.batch = m := by
    rw [Nat.div_eq_sub_div (by omega) hle] at hm
    omega
  have hmod : (n - s.ep.batch) % s.ep.batch = n % s.ep.batch := (Nat.mod_eq_sub_mod hle).symm
  refine ⟨hbatch, hle, ?_⟩
  cases pollerNext_step hn with
  | ackDone _ hcq' =>
    rw [hcq] at hcq'
    exact absurd (List.cons.inj hcq').1 hid
  | batchDone hpc hcq' _ =>
    rw [hcq] at hcq'
    obtain ⟨rfl, rfl⟩ := List.cons.inj hcq'
    have hep := clearSlots_window wrId s.ep
    have hbatch' : (clearSlots wrId s.ep).batch = s.ep.batch := by
      rw [batch, hep.capacity, batch]
    rw [hpc] at hwindow
    rw [hcq, List.count_cons_of_ne hid] at himm
    refine ⟨⟨?_, ?_, ?_, ?_, ?_, ?_, ?_, ?_, hep.imm.symm ▸ h.imm_nonneg, ?_⟩, rfl, rfl, rfl⟩
    · exact hep.capacity.symm ▸ h.capacity
    · show (clearSlots wrId s.ep).localWindowCapacity + _ ≤ ((clearSlots wrId s.ep).sqSize : Int)
      rw [hep.capacity, hep.size]
      exact h.limit
    · exact hep.size.symm ▸ h.size
    · show (clearSlots wrId s.ep).sqUnsignaled = _
      rw [hep.unsignaled, h.unsignaled, hbatch', hmod]
    · show rest.filter (· ≠ 0) = _
      rw [hrest, hbatch', hdiv]
    · show (clearSlots wrId s.ep).sqWindowSize + (wrId : Int) + (n - s.ep.batch : Nat) =
        (clearSlots wrId s.ep).localWindowCapacity + s.writer.owed
      rw [hep.window, hep.capacity]
      simp only [Poller.restoring] at hwindow
      omega
    · exact hep.window.symm ▸ h.claims
    · exact hep.imm.symm ▸ himm
    · show (wrId : Int) ≤ (clearSlots wrId s.ep).batch
      rw [hbatch', hbatch]

theorem recv {decode : Nat → Nat} {r r' : Side} (hn : s.recvNext decode r = some (s', r')) : SendWindow s' n := by
  obtain ⟨wr, rest, hpc, _, _, rfl⟩ := recvNext_step hn
  obtain ⟨_, heq⟩ := applyImm_frame decode s.ep wr.immData
  have hep : SameWindow s.ep (s.ep.applyImm decode wr.immData) := by
    rw [heq]
    exact ⟨rfl, rfl, rfl, rfl, rfl⟩
  exact h.keep hep rfl rfl h.claims (by rw [hpc]; rfl) h.imm_nonneg

/-- Taking a SEND off the wire is nothing to its sender. -/
theorem taken (rest : List SendWr) : SendWindow { s with wire := rest } n :=
  h.keep (.refl _) rfl rfl h.claims rfl h.acking

theorem setFailed : SendWindow { s with ep := { s.ep with failed := true } } n :=
  h.keep ⟨rfl, rfl, rfl, rfl, rfl⟩ rfl rfl h.claims rfl h.acking

end

/-! After the handshake. -/

theorem handshaken_capacity (mine remote : Hello) : (handshaken mine remote).localWindowCapacity =
    min (mine.sqSize : Int) remote.rqSize - RESERVED_WR_NUM := by
  obtain ⟨_, heq⟩ := handshaken_frame mine remote
  rw [heq]
  rfl

theorem handshaken (mine remote : Hello) : SendWindow (Side.handshaken mine remote) 0 := by
  have hep : SameWindow ((Endpoint.onCreated mine).negotiate remote) (Endpoint.handshaken mine remote) := by
    obtain ⟨_, heq⟩ := handshaken_frame mine remote
    rw [heq]
    exact ⟨rfl, rfl, rfl, rfl, rfl⟩
  have hcap := handshaken_capacity mine remote
  have hsq := mine.sq_min
  have hrq := remote.rq_min
  have hsize : (Endpoint.handshaken mine remote).sqSize = mine.sqSize := hep.size
  have hmin : (16 : Int) ≤ min (mine.sqSize : Int) remote.rqSize := le_min (by omega) (by omega)
  have hle : min (mine.sqSize : Int) remote.rqSize ≤ mine.sqSize := min_le_left _ _
  have hwindow : (Endpoint.handshaken mine remote).sqWindowSize = (Endpoint.handshaken mine remote).localWindowCapacity :=
    hep.window.trans hep.capacity.symm
  have himm : (Endpoint.handshaken mine remote).sqImmWindowSize = RESERVED_WR_NUM := hep.imm
  refine ⟨?_, ?_, ?_, ?_, ?_, ?_, ?_, ?_, ?_, Int.natCast_nonneg _⟩
  · show 13 ≤ (Endpoint.handshaken mine remote).localWindowCapacity
    rw [hcap, RESERVED_WR_NUM]
    omega
  · show (Endpoint.handshaken mine remote).localWindowCapacity + _ ≤ ((Endpoint.handshaken mine remote).sqSize : Int)
    rw [hcap, hsize]
    omega
  · exact hsize.symm ▸ mine.sq_max
  · show (Endpoint.handshaken mine remote).sqUnsignaled = _
    rw [Nat.zero_mod]
    exact hep.unsignaled
  · rw [Nat.zero_div]
    rfl
  · show (Endpoint.handshaken mine remote).sqWindowSize + 0 + 0 =
      (Endpoint.handshaken mine remote).localWindowCapacity + 0
    rw [hwindow]
    omega
  · show 0 ≤ (Endpoint.handshaken mine remote).sqWindowSize
    rw [hwindow, hcap, RESERVED_WR_NUM]
    omega
  · show (Endpoint.handshaken mine remote).sqImmWindowSize + ((0 : Nat) : Int) = RESERVED_WR_NUM
    rw [himm]
    omega
  · show 0 ≤ (Endpoint.handshaken mine remote).sqImmWindowSize
    rw [himm]
    decide

end SendWindow

end LightRpc

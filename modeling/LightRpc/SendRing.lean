import LightRpc.Credits
import LightRpc.SendWindow
import LightRpc.Lib.Ring

/- The ring of send buffers, `sbuf_`.

   A data SEND keeps the blocks it is sent from in a slot of `sbuf_`: the writer fills the
   slot `sq_current_` and moves on when the SEND is posted; the poller clears slots from
   `sq_sent_` on when a signalled completion says that their SENDs are done. The machine
   here is one endpoint with its two threads; its peer sends whatever it likes. `data` are
   the data SENDs that are posted and not yet released by a completion.

   Seen from `sq_sent_` the slots hold the payloads of `data`, then what the writer has cut
   for the next SEND, and nothing (`RingInv`). A cut that fails leaves what it has moved in
   the slot, and `CutFromIOBufList` returns without an `errno` of its own: where the last
   one was `EAGAIN` the callers try again, and the slot is filled a second time
   (`failedCut`). -/
namespace LightRpc

open Lib List Endpoint

variable {r q wrId : Nat} {decode : Nat → Nat} {rest : List Nat}

structure Tracked where
  side : Side
  /-- Data SENDs posted and not yet released, oldest first. -/
  data : List SendWr
  deriving DecidableEq, Repr

inductive RingAct where
  | writer (a : WriterAct)
  | poller (a : PollerAct)
  /-- A SEND of the peer is taken off the receive CQ. -/
  | recv (wr : SendWr)
  | setFailed
  deriving DecidableEq, Repr

/-- What a signalled completion leaves of the posted data SENDs: those behind the first
    signalled one. -/
def release (data : List SendWr) : List SendWr := (data.dropWhile (!·.signaled)).drop 1

def Tracked.next (decode : Nat → Nat) (s : Tracked) : RingAct → Option Tracked
  | .writer a => (s.side.writerNext a).map fun side => ⟨side, s.data ++ side.wire.drop s.side.wire.length⟩
  | .poller .sendDone =>
    (s.side.pollerNext .sendDone).map fun side => ⟨side, if s.side.sendCq.head? = some 0 then s.data else release s.data⟩
  | .poller a => (s.side.pollerNext a).map fun side => ⟨side, s.data⟩
  | .recv wr => (s.side.recvNext decode { s.side with wire := [wr] }).map fun r => ⟨r.1, s.data⟩
  | .setFailed => some { s with side := { s.side with ep := { s.side.ep with failed := true } } }

/-- One endpoint from the end of its handshake on. -/
def ringMachine (decode : Nat → Nat) (mine remote : Hello) : Machine Tracked RingAct where
  init := fun s => s = ⟨.handshaken mine remote, []⟩
  next := Tracked.next decode

/-- Every verbs post succeeds. -/
def RingAct.succeeds : RingAct → Bool
  | .writer (.post ok) | .poller (.repost ok) | .poller (.sendImm ok) => ok
  | _ => true

/-- Every block of a message is in a registered region. -/
def RingAct.registered : RingAct → Bool
  | .writer (.cutFailed _) => false
  | _ => true

/-- What is in the slot of the next SEND. -/
def Writer.filling : Writer → List Bytes
  | .cut _ _ piece _ | .exchanged _ _ piece _ _ => [piece]
  | _ => []

structure RingInv (s : Tracked) : Prop where
  window : SendWindow s.side s.data.length
  slots : s.side.ep.sbuf.length + RESERVED_WR_NUM = s.side.ep.sqSize
  sent : s.side.ep.sqSent < s.side.ep.sbuf.length
  current : s.side.ep.sqCurrent = (s.side.ep.sqSent + s.data.length) % s.side.ep.sbuf.length
  holds : Ring.Holds s.side.ep.sbuf s.side.ep.sqSent [] (s.data.map (·.payload) ++ s.side.writer.filling)
  signals : ∀ i wr, s.data[i]? = some wr → wr.signaled = decide ((i + 1) % s.side.ep.batch = 0) ∧
    wr.wrId = if (i + 1) % s.side.ep.batch = 0 then s.side.ep.batch else 0
  wf : s.side.writer.Wf
  posted : ∀ wr ∈ s.data, wr.payload ≠ []

/-! The cursors. -/

/-- The cursor after one more slot. -/
theorem next_slot {len i : Nat} (hi : i < len) : (if i + 1 = len then 0 else i + 1) = (i + 1) % len := by
  split
  case isTrue heq => rw [heq, Nat.mod_self]
  case isFalse hne => exact (Nat.mod_eq_of_lt (by omega)).symm

theorem slot_add (len i j k : Nat) : ((i + j) % len + k) % len = (i + (j + k)) % len := by
  rw [Nat.mod_add_mod, Nat.add_assoc]

/-- `clearSlots` moves `sq_sent_` on. -/
theorem clearSlots_cursor (k : Nat) : ∀ ep : Endpoint, ep.sqSent < ep.sbuf.length →
    (clearSlots k ep).sbuf.length = ep.sbuf.length ∧
    (clearSlots k ep).sqSent = (ep.sqSent + k) % ep.sbuf.length := by
  induction k with
  | zero =>
    intro ep hsent
    exact ⟨rfl, (Nat.mod_eq_of_lt hsent).symm⟩
  | succ k ih =>
    intro ep hsent
    rw [clearSlots, if_pos hsent]
    have hnext : (ep.sqSent + 1) % ep.sbuf.length < ep.sbuf.length := Nat.mod_lt _ (by omega)
    obtain ⟨hlen, hsent'⟩ := ih { ep with
        sbuf := ep.sbuf.set ep.sqSent []
        sqSent := if ep.sqSent + 1 = ep.sbuf.length then 0 else ep.sqSent + 1 } (by
      rw [length_set]
      exact next_slot hsent ▸ hnext)
    refine ⟨?_, ?_⟩
    · rw [hlen, length_set]
    · rw [hsent', length_set, next_slot hsent, slot_add, Nat.add_comm 1 k]

/-- Releasing `xs` leaves what was behind it. -/
theorem clearSlots_holds (xs : List Bytes) : ∀ (ep : Endpoint) (ys : List Bytes), ep.sqSent < ep.sbuf.length →
    Ring.Holds ep.sbuf ep.sqSent [] (xs ++ ys) →
    Ring.Holds (clearSlots xs.length ep).sbuf (clearSlots xs.length ep).sqSent [] ys := by
  induction xs with
  | nil =>
    intro ep ys _ h
    exact h
  | cons x xs ih =>
    intro ep ys hsent h
    rw [length_cons, clearSlots, if_pos hsent]
    refine ih _ ys ?_ (h.release hsent)
    show (if ep.sqSent + 1 = ep.sbuf.length then 0 else ep.sqSent + 1) < (ep.sbuf.set ep.sqSent []).length
    rw [length_set, next_slot hsent]
    exact Nat.mod_lt _ (by omega)

/-- `clearSlots` clears `k` slots from `sq_sent_` on, and no other. -/
theorem clearSlots_exact (k : Nat) : ∀ (ep : Endpoint) (j : Nat), ep.sqSent < ep.sbuf.length → j < ep.sbuf.length →
    (clearSlots k ep).sbuf[j]? =
      if ∃ i < k, j = (ep.sqSent + i) % ep.sbuf.length then some [] else ep.sbuf[j]? := by
  induction k with
  | zero =>
    intro ep j _ _
    simp [clearSlots]
  | succ k ih =>
    intro ep j hsent hj
    rw [clearSlots, if_pos hsent]
    have hnext : (ep.sqSent + 1) % ep.sbuf.length < ep.sbuf.length := Nat.mod_lt _ (by omega)
    rw [ih _ j (by rw [length_set]; exact next_slot hsent ▸ hnext) (by rw [length_set]; exact hj)]
    simp only [length_set, next_slot hsent, slot_add]
    by_cases hfirst : j = ep.sqSent
    · have hhere : ∃ i < k + 1, j = (ep.sqSent + i) % ep.sbuf.length :=
        ⟨0, by omega, by rw [Nat.add_zero, Nat.mod_eq_of_lt hsent, hfirst]⟩
      rw [if_pos hhere, hfirst, getElem?_set_self hsent, ite_self]
    · have hiff : (∃ i < k, j = (ep.sqSent + (1 + i)) % ep.sbuf.length) ↔
          ∃ i < k + 1, j = (ep.sqSent + i) % ep.sbuf.length := by
        constructor
        · rintro ⟨i, hi, heq⟩
          exact ⟨1 + i, by omega, heq⟩
        · rintro ⟨i, hi, heq⟩
          cases i with
          | zero =>
            rw [Nat.add_zero, Nat.mod_eq_of_lt hsent] at heq
            exact absurd heq hfirst
          | succ i => exact ⟨i, by omega, by rw [heq, Nat.add_comm 1 i]⟩
      simp only [hiff, getElem?_set_ne (Ne.symm hfirst)]

/-! The steps. -/

/-- The fields of an endpoint the ring is about. -/
structure SameRing (ep ep' : Endpoint) : Prop where
  slots : ep'.sbuf = ep.sbuf
  current : ep'.sqCurrent = ep.sqCurrent
  sent : ep'.sqSent = ep.sqSent
  size : ep'.sqSize = ep.sqSize
  capacity : ep'.localWindowCapacity = ep.localWindowCapacity

theorem makeWr_ring (ep : Endpoint) (r q : Nat) (piece : Bytes) (last : Bool) (imm : Nat) :
    SameRing ep (ep.makeWr r q piece last imm).2 := by
  obtain ⟨_, _, _, heq⟩ := makeWr_frame ep r q piece last imm
  rw [heq]
  exact ⟨rfl, rfl, rfl, rfl, rfl⟩

/-- The poller touches the ring when it takes a send completion, and only then. -/
theorem pollerNext_ring {s s' : Side} {a : PollerAct} (hdone : a ≠ .sendDone) (hn : s.pollerNext a = some s') :
    SameRing s.ep s'.ep ∧ s'.writer = s.writer := by
  cases pollerNext_step hn with
  | ackDone _ _ => exact absurd rfl hdone
  | batchDone _ _ _ => exact absurd rfl hdone
  | _ => exact ⟨⟨rfl, rfl, rfl, rfl, rfl⟩, rfl⟩

/-- What a signalled completion releases is one batch. -/
theorem release_eq {data : List SendWr} {k : Nat} (hk : 0 < k) (hle : k ≤ data.length)
    (hsignals : ∀ i wr, data[i]? = some wr → wr.signaled = decide ((i + 1) % k = 0)) :
    ∃ silent wr, data = silent ++ wr :: release data ∧ silent.length + 1 = k ∧ wr.signaled ∧
      ∀ x ∈ silent, x.signaled = false := by
  have hlast : k - 1 < data.length := by omega
  have hsplit : data = data.take (k - 1) ++ data[k - 1] :: data.drop k := by
    have hdrop := drop_eq_getElem_cons hlast
    rw [Nat.sub_add_cancel hk] at hdrop
    rw [← hdrop, take_append_drop]
  have hsilent : ∀ x ∈ data.take (k - 1), x.signaled = false := by
    intro x hx
    obtain ⟨i, hi, rfl⟩ := getElem_of_mem hx
    rw [length_take] at hi
    have hget : data[i]? = some ((data.take (k - 1))[i]) := by
      rw [getElem_take, getElem?_eq_getElem]
    rw [hsignals i _ hget, Nat.mod_eq_of_lt (by omega)]
    exact decide_eq_false (by omega)
  have hsignaled : data[k - 1].signaled = true := by
    rw [hsignals (k - 1) _ (getElem?_eq_getElem hlast), Nat.sub_add_cancel hk, Nat.mod_self]
    rfl
  have hrelease : release data = data.drop k := by
    rw [release]
    nth_rewrite 1 [hsplit]
    rw [dropWhile_append_of_pos (by simpa using hsilent), dropWhile_cons_of_neg (by simpa using hsignaled)]
    rfl
  refine ⟨data.take (k - 1), data[k - 1], ?_, ?_, hsignaled, hsilent⟩
  · rw [hrelease]
    exact hsplit
  · rw [length_take]
    omega

namespace RingInv

variable {s : Tracked} {side : Side}

section

variable (h : RingInv s)

include h

/-- There is room for the slot the writer is about to fill. -/
theorem room (hpc : s.side.writer = .ready r q) (hq : q ≠ 0) : s.data.length < s.side.ep.sbuf.length := by
  have hwindow := h.window.window
  have hclaims := h.window.claims
  have hlimit := h.window.limit
  have hslots := h.slots
  have hrestoring := s.side.poller.restoring_nonneg
  rw [hpc] at hwindow hclaims
  simp only [Writer.owed, Writer.claims] at hwindow hclaims
  omega

/-- A step that leaves the ring alone. -/
theorem keep (hwindow : SendWindow side s.data.length) (hring : SameRing s.side.ep side.ep)
    (hfilling : side.writer.filling = s.side.writer.filling) (hwf : side.writer.Wf) : RingInv ⟨side, s.data⟩ where
  window := hwindow
  slots := by
    show side.ep.sbuf.length + _ = side.ep.sqSize
    rw [hring.slots, hring.size]
    exact h.slots
  sent := by
    show side.ep.sqSent < side.ep.sbuf.length
    rw [hring.slots, hring.sent]
    exact h.sent
  current := by
    show side.ep.sqCurrent = (side.ep.sqSent + s.data.length) % side.ep.sbuf.length
    rw [hring.slots, hring.sent, hring.current]
    exact h.current
  holds := by
    show Ring.Holds side.ep.sbuf side.ep.sqSent [] (s.data.map (·.payload) ++ side.writer.filling)
    rw [hring.slots, hring.sent, hfilling]
    exact h.holds
  signals := by
    show ∀ i wr, s.data[i]? = some wr → wr.signaled = decide ((i + 1) % side.ep.batch = 0) ∧
      wr.wrId = if (i + 1) % side.ep.batch = 0 then side.ep.batch else 0
    rw [batch, hring.capacity]
    exact h.signals
  wf := hwf
  posted := h.posted

/-- `cut_into_sglist_and_iobuf` fills the slot behind the posted ones. -/
theorem cut {piece : Bytes} {last : Bool} (hpc : s.side.writer = .ready r q)
    (hn : s.side.writerNext (.cut piece last) = some side) : RingInv ⟨side, s.data⟩ := by
  have hwindow := h.window.writer (a := .cut piece last) (by simp) hn
  simp only [Side.writerNext, hpc, Option.ite_none_left_eq_some, not_or, Option.some.injEq] at hn
  obtain ⟨⟨_, hq, hpiece, _⟩, rfl⟩ := hn
  have hlen : (s.side.ep.sbuf.modify s.side.ep.sqCurrent (· ++ piece)).length = s.side.ep.sbuf.length :=
    length_modify ..
  have hholds := h.holds
  rw [hpc] at hholds
  simp only [Writer.filling, append_nil] at hholds
  have hfill := hholds.fill (by rw [length_map]; exact h.room hpc hq) (· ++ piece)
  rw [length_map, ← h.current, nil_append] at hfill
  refine ⟨hwindow, ?_, ?_, ?_, hfill, h.signals, hpiece, h.posted⟩
  · show (s.side.ep.sbuf.modify s.side.ep.sqCurrent (· ++ piece)).length + _ = s.side.ep.sqSize
    rw [hlen]
    exact h.slots
  · show s.side.ep.sqSent < (s.side.ep.sbuf.modify s.side.ep.sqCurrent (· ++ piece)).length
    rw [hlen]
    exact h.sent
  · show s.side.ep.sqCurrent = _ % (s.side.ep.sbuf.modify s.side.ep.sqCurrent (· ++ piece)).length
    rw [hlen]
    exact h.current

/-- The post turns what is in the slot into a SEND, and the cursor moves on. -/
theorem post {piece : Bytes} {last : Bool} {imm : Nat} (hpc : s.side.writer = .exchanged r q piece last imm)
    (hn : s.side.writerNext (.post true) = some side) :
    RingInv ⟨side, s.data ++ side.wire.drop s.side.wire.length⟩ := by
  have hwindow := h.window.post hpc hn
  obtain ⟨hsignaled, hid, _⟩ := h.window.makeWr_signaled r q piece last imm
  have hring := makeWr_ring s.side.ep r q piece last imm
  have hholds := h.holds
  have hwf := h.wf
  rw [hpc] at hholds hwf
  simp only [Side.writerNext, hpc, if_true, Option.some.injEq] at hn
  have hwire : side.wire.drop s.side.wire.length = [(s.side.ep.makeWr r q piece last imm).1] := by
    rw [← hn]
    exact drop_left
  have hbatch : side.ep.batch = s.side.ep.batch := by
    rw [← hn, batch, batch, ← hring.capacity]
    rfl
  have hslots : side.ep.sbuf = s.side.ep.sbuf := by
    rw [← hn]
    exact hring.slots
  have hsent : side.ep.sqSent = s.side.ep.sqSent := by
    rw [← hn]
    exact hring.sent
  rw [hwire]
  refine ⟨?_, ?_, ?_, ?_, ?_, ?_, ?_, ?_⟩
  · show SendWindow side (s.data ++ [_]).length
    rw [length_append, length_singleton]
    exact hwindow
  · show side.ep.sbuf.length + _ = side.ep.sqSize
    rw [hslots, h.slots, ← hn]
    exact hring.size.symm
  · show side.ep.sqSent < side.ep.sbuf.length
    rw [hslots, hsent]
    exact h.sent
  · have hlt : s.side.ep.sqCurrent < s.side.ep.sbuf.length := by
      rw [h.current]
      exact Nat.mod_lt _ (Nat.zero_lt_of_lt h.sent)
    have hcurrent : side.ep.sqCurrent = (s.side.ep.sqCurrent + 1) % s.side.ep.sbuf.length := by
      rw [← next_slot hlt, ← hn, ← hring.current, ← hring.slots]
      rfl
    show side.ep.sqCurrent = (side.ep.sqSent + (s.data ++ [_]).length) % side.ep.sbuf.length
    rw [hcurrent, h.current, slot_add, hslots, hsent, length_append, length_singleton]
  · show Ring.Holds side.ep.sbuf side.ep.sqSent [] ((s.data ++ [_]).map SendWr.payload ++ side.writer.filling)
    rw [hslots, hsent, map_append, ← hn]
    show Ring.Holds _ _ [] (s.data.map SendWr.payload ++ [piece] ++ [])
    rw [append_nil]
    exact hholds
  · intro i wr hget
    show wr.signaled = decide ((i + 1) % side.ep.batch = 0) ∧
      wr.wrId = if (i + 1) % side.ep.batch = 0 then side.ep.batch else 0
    rw [hbatch]
    by_cases hi : i < s.data.length
    · exact h.signals i wr (by rwa [getElem?_append_left hi] at hget)
    · rw [getElem?_append_right (Nat.le_of_not_lt hi), getElem?_singleton] at hget
      have hi : i = s.data.length := by
        by_contra hne
        rw [if_neg (by omega)] at hget
        cases hget
      rw [hi, Nat.sub_self, if_pos rfl, Option.some.injEq] at hget
      rw [← hget, hi]
      exact ⟨hsignaled, hid⟩
  · rw [← hn]
    trivial
  · intro wr hwr
    rcases mem_append.mp hwr with hold | hnew
    · exact h.posted wr hold
    · rw [mem_singleton.mp hnew]
      exact hwf.1

/-- The writer, as long as no cut fails. -/
theorem writer {a : WriterAct} (hok : a ≠ .post false) (hcut : ∀ piece, a ≠ .cutFailed piece)
    (hn : s.side.writerNext a = some side) : RingInv ⟨side, s.data ++ side.wire.drop s.side.wire.length⟩ := by
  have hwindow := h.window.writer hok hn
  have hwf := h.wf
  -- only the post puts something on the wire
  have hquiet : s.data ++ s.side.wire.drop s.side.wire.length = s.data := by
    rw [drop_length, append_nil]
  cases writerNext_step hn with
  | cut hpc _ _ _ =>
    have hinv := h.cut hpc hn
    rw [← hquiet] at hinv
    exact hinv
  | cutFailed hpc => exact absurd rfl (hcut _)
  | exchange hpc =>
    rw [hpc] at hwf
    have hinv := h.keep hwindow ⟨rfl, rfl, rfl, rfl, rfl⟩ (by rw [hpc]; rfl) ⟨hwf, uint32_lt _⟩
    rw [← hquiet] at hinv
    exact hinv
  | post hpc => exact h.post hpc hn
  | postFailed hpc => exact absurd rfl hok
  | loadRemote hpc _ | loadSq hpc | leave hpc | subRemote hpc | subSq hpc =>
    have hinv := h.keep hwindow ⟨rfl, rfl, rfl, rfl, rfl⟩ (by rw [hpc]; rfl) trivial
    rw [← hquiet] at hinv
    exact hinv

/-- A signalled completion covers the SENDs up to the first signalled one, and its `wr_id`
    says how many. -/
theorem covered (hcq : s.side.sendCq = wrId :: rest) (hid : wrId ≠ 0) (hn : s.side.pollerNext .sendDone = some side) :
    ∃ silent wr, s.data = silent ++ wr :: release s.data ∧ silent.length + 1 = wrId ∧ wr.signaled ∧ wr.wrId =
      wrId ∧ ∀ x ∈ silent, x.signaled = false := by
  obtain ⟨hbatch, hle, _⟩ := h.window.batchDone hcq hid hn
  obtain ⟨silent, wr, hdata, hlen, hsignaled, hsilent⟩ :=
    release_eq (Nat.pos_of_ne_zero (hbatch ▸ hid)) hle (fun i wr hget => (h.signals i wr hget).1)
  refine ⟨silent, wr, hdata, hlen.trans hbatch.symm, hsignaled, ?_, hsilent⟩
  have hget : s.data[silent.length]? = some wr := by
    rw [hdata, getElem?_append_right (Nat.le_refl _), Nat.sub_self]
    rfl
  rw [(h.signals _ wr hget).2, hlen, Nat.mod_self, if_pos rfl, hbatch]

theorem batchDone (hcq : s.side.sendCq = wrId :: rest) (hid : wrId ≠ 0) (hn : s.side.pollerNext .sendDone = some side) :
    RingInv ⟨side, release s.data⟩ := by
  obtain ⟨hbatch, hle, hwindow, _, hep, hwriter⟩ := h.window.batchDone hcq hid hn
  obtain ⟨silent, wr, hdata, hlen, _⟩ := h.covered hcq hid hn
  obtain ⟨hslots, hsent⟩ := clearSlots_cursor wrId s.side.ep h.sent
  obtain ⟨_, _, hframe⟩ := clearSlots_frame wrId s.side.ep
  have hcount : wrId + (release s.data).length = s.data.length := by
    nth_rewrite 2 [hdata]
    rw [length_append, length_cons]
    omega
  have hcap : side.ep.batch = s.side.ep.batch := by
    rw [hep, hframe]
    rfl
  have hcurrent : side.ep.sqCurrent = s.side.ep.sqCurrent := by rw [hep, hframe]
  have hsize : side.ep.sqSize = s.side.ep.sqSize := by rw [hep, hframe]
  rw [← hep] at hslots hsent
  refine ⟨?_, ?_, ?_, ?_, ?_, ?_, ?_, ?_⟩
  · show SendWindow side (release s.data).length
    rw [show (release s.data).length = s.data.length - s.side.ep.batch by omega]
    exact hwindow
  · show side.ep.sbuf.length + _ = side.ep.sqSize
    rw [hslots, hsize]
    exact h.slots
  · show side.ep.sqSent < side.ep.sbuf.length
    rw [hslots, hsent]
    exact Nat.mod_lt _ (Nat.zero_lt_of_lt h.sent)
  · show side.ep.sqCurrent = (side.ep.sqSent + (release s.data).length) % side.ep.sbuf.length
    rw [hcurrent, hslots, hsent, slot_add, hcount]
    exact h.current
  · show Ring.Holds side.ep.sbuf side.ep.sqSent [] ((release s.data).map SendWr.payload ++ side.writer.filling)
    have hxs : ((silent ++ [wr]).map SendWr.payload).length = wrId := by
      rw [length_map, length_append, length_singleton, hlen]
    have hholds := h.holds
    rw [hdata, append_cons, map_append, append_assoc] at hholds
    have hcleared := clearSlots_holds _ s.side.ep _ h.sent hholds
    rw [hxs, ← hep] at hcleared
    rw [hwriter]
    exact hcleared
  · intro i wr' hget
    show wr'.signaled = decide ((i + 1) % side.ep.batch = 0) ∧
      wr'.wrId = if (i + 1) % side.ep.batch = 0 then side.ep.batch else 0
    have hold : s.data[i + wrId]? = some wr' := by
      rw [hdata, append_cons, getElem?_append_right]
      · rw [length_append, length_singleton, hlen, Nat.add_sub_cancel]
        exact hget
      · rw [length_append, length_singleton, hlen]
        omega
    have hmod : (i + wrId + 1) % s.side.ep.batch = (i + 1) % s.side.ep.batch := by
      rw [Nat.add_right_comm, hbatch, Nat.add_mod_right]
    rw [hcap, ← hmod]
    exact h.signals _ wr' hold
  · rw [hwriter]
    exact h.wf
  · intro wr' hwr
    apply h.posted wr'
    rw [hdata]
    exact mem_append_right _ (mem_cons_of_mem _ hwr)

/-- Taking a send completion, of a pure ACK or of a batch. -/
theorem sendDone (hn : s.side.pollerNext .sendDone = some side) :
    RingInv ⟨side, if s.side.sendCq.head? = some 0 then s.data else release s.data⟩ := by
  cases pollerNext_step hn with
  | ackDone _ hcq =>
    obtain ⟨hwindow, _⟩ := h.window.ackDone hcq hn
    rw [hcq, head?_cons, if_pos rfl]
    exact h.keep hwindow ⟨rfl, rfl, rfl, rfl, rfl⟩ rfl h.wf
  | batchDone _ hcq hid =>
    rw [hcq, head?_cons, if_neg (by simpa using hid)]
    exact h.batchDone hcq hid hn

theorem recv {peer peer' : Side} (hn : s.side.recvNext decode peer = some (side, peer')) : RingInv ⟨side, s.data⟩ := by
  have hwindow := h.window.recv hn
  obtain ⟨wr, rest, _, _, _, rfl⟩ := recvNext_step hn
  obtain ⟨_, heq⟩ := applyImm_frame decode s.side.ep wr.immData
  have hring : SameRing s.side.ep (s.side.ep.applyImm decode wr.immData) := by
    rw [heq]
    exact ⟨rfl, rfl, rfl, rfl, rfl⟩
  exact h.keep hwindow hring rfl h.wf

theorem next {a : RingAct} {s' : Tracked} (hok : a.succeeds) (hregistered : a.registered)
    (hn : s.next decode a = some s') : RingInv s' := by
  cases a with
  | writer a =>
    obtain ⟨side, hnext, rfl⟩ := Option.map_eq_some_iff.mp hn
    refine h.writer ?_ ?_ hnext
    · rintro rfl
      cases hok
    · rintro piece rfl
      cases hregistered
  | poller a =>
    by_cases hdone : a = .sendDone
    · subst hdone
      obtain ⟨side, hnext, rfl⟩ := Option.map_eq_some_iff.mp hn
      exact h.sendDone hnext
    · have hmap : (s.side.pollerNext a).map (fun side => (⟨side, s.data⟩ : Tracked)) = some s' := by
        rw [← hn, Tracked.next]
        exact hdone
      obtain ⟨side, hnext, rfl⟩ := Option.map_eq_some_iff.mp hmap
      have himm : a ≠ .sendImm false := by
        rintro rfl
        cases hok
      obtain ⟨hring, hwriter⟩ := pollerNext_ring hdone hnext
      exact h.keep (h.window.poller himm hdone hnext) hring (by rw [hwriter]) (hwriter ▸ h.wf)
  | recv wr =>
    obtain ⟨⟨side, peer⟩, hnext, rfl⟩ := Option.map_eq_some_iff.mp hn
    exact h.recv hnext
  | setFailed =>
    cases hn
    exact h.keep h.window.setFailed ⟨rfl, rfl, rfl, rfl, rfl⟩ rfl h.wf

end

theorem handshaken (mine remote : Hello) : RingInv ⟨.handshaken mine remote, []⟩ := by
  obtain ⟨hslots, hcurrent, hsent, hsize, _⟩ :
      SameRing ((Endpoint.onCreated mine).negotiate remote) (Endpoint.handshaken mine remote) := by
    obtain ⟨_, heq⟩ := handshaken_frame mine remote
    rw [heq]
    exact ⟨rfl, rfl, rfl, rfl, rfl⟩
  have hmin := mine.sq_min
  have hsbuf : (Endpoint.handshaken mine remote).sbuf = replicate (mine.sqSize - RESERVED_WR_NUM) [] := hslots
  have hzero : (Endpoint.handshaken mine remote).sqSent = 0 := hsent
  refine ⟨.handshaken mine remote, ?_, ?_, ?_, ?_, by simp, trivial, by simp⟩
  · show (Endpoint.handshaken mine remote).sbuf.length + _ = (Endpoint.handshaken mine remote).sqSize
    rw [hsbuf, length_replicate, show (Endpoint.handshaken mine remote).sqSize = mine.sqSize from hsize,
      RESERVED_WR_NUM]
    omega
  · show (Endpoint.handshaken mine remote).sqSent < (Endpoint.handshaken mine remote).sbuf.length
    rw [hsbuf, hzero, length_replicate, RESERVED_WR_NUM]
    omega
  · show (Endpoint.handshaken mine remote).sqCurrent = ((Endpoint.handshaken mine remote).sqSent + 0) % _
    rw [hzero, show (Endpoint.handshaken mine remote).sqCurrent = 0 from hcurrent, Nat.zero_mod]
  · show Ring.Holds (Endpoint.handshaken mine remote).sbuf (Endpoint.handshaken mine remote).sqSent [] []
    rw [hsbuf, hzero]
    exact .empty _ _

end RingInv

theorem ringInv_of_reachable {mine remote : Hello} {s : Tracked}
    (h : ((ringMachine decode mine remote).guard fun _ a => a.succeeds && a.registered).Reachable s) : RingInv s := by
  refine h.invariant ?_ ?_
  · rintro s rfl
    exact .handshaken mine remote
  · intro s a s' hinv hn
    obtain ⟨hok, hn⟩ := Machine.guard_next.mp hn
    obtain ⟨hsucceeds, hregistered⟩ := Bool.and_eq_true_iff.mp hok
    exact hinv.next hsucceeds hregistered hn

/-! The invariant, as users of the endpoint see it. -/

/-- From `s` to `s'` a completion with this `wr_id` is handled: it covers the SENDs up to the
    first signalled one, and the slots of these are cleared, and no others. -/
structure Clears (s s' : Tracked) (wrId : Nat) : Prop where
  covered : ∃ silent wr, s.data = silent ++ wr :: s'.data ∧ silent.length + 1 = wrId ∧ wr.signaled = true ∧
    wr.wrId = wrId ∧ ∀ x ∈ silent, x.signaled = false
  cleared : ∀ j < s.side.ep.sbuf.length, s'.side.ep.sbuf[j]? =
    if ∃ i < wrId, j = (s.side.ep.sqSent + i) % s.side.ep.sbuf.length then some [] else s.side.ep.sbuf[j]?

structure RingSafe (decode : Nat → Nat) (s : Tracked) : Prop where
  /-- From `sq_sent_` on: the posted SENDs, what is cut for the next one, and nothing. -/
  segment : Ring.Holds s.side.ep.sbuf s.side.ep.sqSent [] (s.data.map (·.payload) ++ s.side.writer.filling)
  posted : ∀ wr ∈ s.data, wr.payload ≠ []
  /-- The slot about to be filled. -/
  empty : ∀ r q, s.side.writer = .ready r q → r ≠ 0 → q ≠ 0 → s.side.ep.sbuf[s.side.ep.sqCurrent]? = some []
  clears : ∀ wrId rest s', s.side.sendCq = wrId :: rest → wrId ≠ 0 → s.next decode (.poller .sendDone) = some s' →
    Clears s s' wrId
  /-- A pure ACK is outstanding until its completion, with `wr_id` 0, is handled. -/
  outstanding : s.data.length + s.side.sendCq.count 0 ≤ s.side.ep.sqSize
  imm : 0 ≤ s.side.ep.sqImmWindowSize ∧ s.side.ep.sqImmWindowSize ≤ RESERVED_WR_NUM
  signaled : ∀ wr ∈ s.data, wr.signaled = true → wr.wrId ≠ 0
  reclaims : s.side.ep.sqWindowSize = 0 → ∃ wr ∈ s.data, wr.signaled = true

namespace RingInv

variable {s : Tracked}

theorem next_empty (h : RingInv s) (hpc : s.side.writer = .ready r q) (hq : q ≠ 0) :
    s.side.ep.sbuf[s.side.ep.sqCurrent]? = some [] := by
  have hholds := h.holds
  rw [hpc] at hholds
  simp only [Writer.filling, append_nil] at hholds
  rw [h.current]
  exact hholds.behind (Nat.le_of_eq (length_map _)) (h.room hpc hq)

theorem clears (h : RingInv s) {s' : Tracked} (hcq : s.side.sendCq = wrId :: rest) (hid : wrId ≠ 0)
    (hn : s.next decode (.poller .sendDone) = some s') : Clears s s' wrId := by
  obtain ⟨side, hnext, rfl⟩ := Option.map_eq_some_iff.mp hn
  obtain ⟨_, _, _, _, hep, _⟩ := h.window.batchDone hcq hid hnext
  rw [hcq, head?_cons, if_neg (by simpa using hid)]
  refine ⟨h.covered hcq hid hnext, fun j hj => ?_⟩
  show side.ep.sbuf[j]? = _
  rw [hep]
  exact clearSlots_exact wrId s.side.ep j h.sent hj

/-- A window of 0 leaves more than a batch outstanding. -/
theorem reclaims (h : RingInv s) (hzero : s.side.ep.sqWindowSize = 0) : ∃ wr ∈ s.data, wr.signaled := by
  obtain ⟨hbatch, hcap⟩ := h.window.batch_bounds
  have hwindow := h.window.window
  have howed : 0 ≤ s.side.writer.owed := by
    cases s.side.writer <;> simp [Writer.owed]
  have hrestoring : s.side.poller.restoring ≤ s.side.ep.batch := h.window.restoring
  have hlt : s.side.ep.batch - 1 < s.data.length := by omega
  refine ⟨s.data[s.side.ep.batch - 1], getElem_mem hlt, ?_⟩
  rw [(h.signals _ _ (getElem?_eq_getElem hlt)).1, Nat.sub_add_cancel (by omega), Nat.mod_self]
  rfl

end RingInv

/-- Whatever the interleaving of writer and poller, and whatever the peer sends, as long as
    posts succeed and no cut fails. -/
theorem send_ring_safe (decode : Nat → Nat) (mine remote : Hello) {s : Tracked}
    (hreach : ((ringMachine decode mine remote).guard fun _ a => a.succeeds && a.registered).Reachable s) :
    RingSafe decode s := by
  have h := ringInv_of_reachable hreach
  have hcap := h.window.le_capacity
  have hlimit := h.window.limit
  have himm := h.window.imm
  have hnonneg : 0 ≤ s.side.ep.sqImmWindowSize := h.window.imm_nonneg
  obtain ⟨hbatch, _⟩ := h.window.batch_bounds
  refine ⟨h.holds, h.posted, fun r q hpc _ hq => h.next_empty hpc hq,
    fun wrId rest s' hcq hid hn => h.clears hcq hid hn, by omega, ⟨hnonneg, by omega⟩, ?_, h.reclaims⟩
  intro wr hwr hsignaled
  obtain ⟨i, hi, rfl⟩ := List.getElem_of_mem hwr
  obtain ⟨hsignal, hid⟩ := h.signals i _ (List.getElem?_eq_getElem hi)
  rw [hsignal, decide_eq_true_iff] at hsignaled
  rw [hid, if_pos hsignaled]
  omega

/-- One SEND of a single byte. -/
def oneByte : List RingAct :=
  [.writer .loadRemote, .writer .loadSq, .writer (.cut [0] true), .writer .exchange, .writer (.post true)]

def charge : List RingAct := [.writer .subRemote, .writer .subSq, .writer .leave]

/-- A batch of three, with its completion handled before the third is taken off the window. -/
def batchReleased : List RingAct :=
  List.flatten [oneByte, charge, oneByte, charge, oneByte, [.poller .sendDone, .poller .restore], charge]

theorem batchReleased_safe :
    ∃ s, ((ringMachine ntohl smallestHello smallestHello).guard fun _ a => a.succeeds && a.registered).Run
        batchReleased s ∧ s.data = [] ∧ s.side.ep.sqSent = 3 ∧ s.side.ep.sqWindowSize = 13 ∧ RingSafe ntohl s := by
  have hexec : ∃ s, ((ringMachine ntohl smallestHello smallestHello).guard fun _ a => a.succeeds && a.registered).Run
      batchReleased s ∧ s.data = [] ∧ s.side.ep.sqSent = 3 ∧ s.side.ep.sqWindowSize = 13 :=
    Machine.exists_run rfl (by decide +kernel)
  obtain ⟨s, hrun, hdata, hsent, hwindow⟩ := hexec
  exact ⟨s, hrun, hdata, hsent, hwindow, send_ring_safe ntohl smallestHello smallestHello ⟨_, hrun⟩⟩

/-- The first block of a message is moved into the slot and the second has no memory
    region; the call returns with the `EAGAIN` of an earlier one still in `errno`, and the
    caller tries again. -/
def failedCut : List RingAct :=
  [.writer .loadRemote, .writer .loadSq, .writer (.cutFailed [1]), .writer .loadRemote, .writer .loadSq]

/-- The slot about to be filled holds the block, which no SEND has taken. -/
theorem refilled_slot : ∃ s, ((ringMachine ntohl smallestHello smallestHello).guard fun _ a => a.succeeds).Run
    failedCut s ∧ s.data = [] ∧ s.side.ep.sbuf[s.side.ep.sqCurrent]? = some [1] ∧ ¬ RingSafe ntohl s := by
  have hexec : ∃ s, ((ringMachine ntohl smallestHello smallestHello).guard fun _ a => a.succeeds).Run failedCut s ∧
      s.data = [] ∧ s.side.ep.sbuf[s.side.ep.sqCurrent]? = some [1] ∧ s.side.writer = .ready 13 13 :=
    Machine.exists_run rfl (by decide +kernel)
  obtain ⟨s, hrun, hdata, hslot, hpc⟩ := hexec
  refine ⟨s, hrun, hdata, hslot, fun hsafe => ?_⟩
  have hempty := hsafe.empty 13 13 hpc (by decide) (by decide)
  rw [hslot] at hempty
  cases hempty

end LightRpc

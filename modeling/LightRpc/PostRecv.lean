import LightRpc.Credits

/- Posting receives (`DoPostRecv`, `PostRecv`, and their callers `BringUpQp` and
   `HandleCompletion` of `fast_rdma_endpoint.cc`).

   `ibv_post_recv` returns 0, or a positive errno value and does not accept the receive.
   `PostRecv` fills the slots of `rbuf_` in ring order and posts their memory; it takes a
   negative result for a failure. Completions consume the receives that were posted first,
   and each one handled posts one receive again.

   Left out: what `HandleCompletion` does with the bytes that arrived. -/
namespace LightRpc.Receives

open List

/-- A slot of `rbuf_` with the block it holds, and its entry of `rbuf_data_`. -/
structure RecvSlot where
  buf : Option Nat
  data : Nat
  deriving DecidableEq, Repr

/-- The receive side of an endpoint, and the memory of the receives the queue pair holds. -/
structure RecvQueue where
  ep : Endpoint
  slots : List RecvSlot
  posted : List Nat
  deriving DecidableEq, Repr

/-- One round of the loop: the block that `os.Next` finds, and what `ibv_post_recv` returns. -/
structure Attempt where
  block : Option Nat
  result : Int
  deriving DecidableEq, Repr

namespace RecvQueue

/-- `rbuf_[rq_received_].clear()` -/
def clearSlot (q : RecvQueue) : RecvQueue :=
  { q with slots := q.slots.modify q.ep.rqReceived (fun s => { s with buf := none }) }

/-- `os.Next(&rbuf_data_[rq_received_], &size)` when there is a block. -/
def fillSlot (q : RecvQueue) (block : Nat) : RecvQueue :=
  { q with slots := q.slots.modify q.ep.rqReceived (fun _ => ⟨some block, block⟩) }

/-- `DoPostRecv(rbuf_data_[rq_received_], g_rdma_recv_block_size)`: a receive is accepted if
    the result is 0. -/
def doPostRecv (q : RecvQueue) (result : Int) : RecvQueue :=
  if result = 0 then { q with posted := q.posted ++ [((q.slots[q.ep.rqReceived]?).map RecvSlot.data).getD 0] } else q

def advance (q : RecvQueue) : RecvQueue := { q with ep := q.ep.advanceRq }

/-- The loop of `PostRecv` with `left` rounds to go after `posted` of them. -/
def postRecvLoop (zerocopy : Bool) (env : Nat → Attempt) : Nat → Nat → RecvQueue → RecvQueue × Int
  | 0, posted, q => ({ q with ep := q.ep.addRqWrs posted }, 0)
  | left + 1, posted, q =>
    let q := if zerocopy then q.clearSlot else q
    if zerocopy && (env posted).block.isNone then (q, -1)
    else
      let q := if zerocopy then q.fillSlot ((env posted).block.getD 0) else q
      let q := q.doPostRecv (env posted).result
      if (env posted).result < 0 then (q.clearSlot, -1)
      else postRecvLoop zerocopy env left (posted + 1) q.advance

/-- `PostRecv` -/
def postRecv (q : RecvQueue) (num : Nat) (zerocopy : Bool) (env : Nat → Attempt) : RecvQueue × Int :=
  postRecvLoop zerocopy env num 0 q

end RecvQueue

/-! An endpoint from `BringUpQp` on. -/

/-- `completed` are the receives that were consumed and are not handled yet. -/
structure RecvState where
  q : RecvQueue
  up : Bool
  failed : Bool
  completed : Nat

/-- `credits` is a change of `new_rq_wrs_` by somebody else. -/
inductive RecvEvent where
  | bringUpQp (env : Nat → Attempt)
  | complete
  | handleCompletion (byteLen : Nat) (env : Nat → Attempt)
  | credits (n : Int)
  | setFailed

namespace RecvState

/-- `g_rdma_zerocopy_min_size` -/
def zerocopyMinSize : Nat := 512

/-- Whether `HandleCompletion` posts a new block instead of the one it copied from. -/
def zerocopy (byteLen : Nat) : Bool := !(decide (0 < byteLen) && decide (byteLen < zerocopyMinSize))

/-- The endpoint after `PostRecv`; the callers of a call that failed set the endpoint failed. -/
def after (s : RecvState) (out : RecvQueue × Int) : RecvState :=
  { s with q := out.1, failed := s.failed || decide (out.2 < 0) }

def next (s : RecvState) : RecvEvent → Option RecvState
  | .bringUpQp env =>
    if s.up then none else some { s.after (s.q.postRecv s.q.ep.rqSize true env) with up := true }
  | .complete =>
    if s.q.posted = [] then none
    else some { s with q := { s.q with posted := s.q.posted.tail }, completed := s.completed + 1 }
  | .handleCompletion byteLen env =>
    if s.failed = true ∨ s.completed = 0 then none
    else some ({ s with completed := s.completed - 1 }.after (s.q.postRecv 1 (zerocopy byteLen) env))
  | .credits n => some { s with q := { s.q with ep := { s.q.ep with newRqWrs := n } } }
  | .setFailed => some { s with failed := true }

end RecvState

/-- Endpoints whose slots `AllocateResources` has made. -/
def recvMachine : Lib.Machine RecvState RecvEvent where
  init s := s.q.posted = [] ∧ s.q.slots.length = s.q.ep.rqSize ∧ s.up = false ∧ s.failed = false ∧ s.completed = 0
  next := RecvState.next

/-! What `PostRecv` counts. -/

/-- The first `num` results are those of the verbs interface. -/
def Verbs (env : Nat → Attempt) (num : Nat) : Prop := ∀ i < num, 0 ≤ (env i).result

namespace RecvQueue

variable {q : RecvQueue} {env : Nat → Attempt} {zerocopy : Bool}

@[simp] theorem doPostRecv_ep (q : RecvQueue) (r : Int) : (q.doPostRecv r).ep = q.ep := by
  rw [doPostRecv]
  split <;> rfl

theorem doPostRecv_length (q : RecvQueue) (r : Int) :
    (q.doPostRecv r).posted.length = q.posted.length + (decide (r = 0)).toNat := by
  rw [doPostRecv]
  by_cases h : r = 0
  · rw [if_pos h, decide_eq_true h, length_append]
    rfl
  · rw [if_neg h, decide_eq_false h]
    rfl

/-- The queue when a round has posted its receive. -/
def tried (q : RecvQueue) (zerocopy : Bool) (d : Attempt) : RecvQueue :=
  (if zerocopy then (q.clearSlot.fillSlot (d.block.getD 0)) else q).doPostRecv d.result

theorem tried_ep (q : RecvQueue) (zerocopy : Bool) (d : Attempt) : (q.tried zerocopy d).ep = q.ep := by
  rw [tried, doPostRecv_ep]
  split <;> rfl

theorem tried_length (q : RecvQueue) (zerocopy : Bool) (d : Attempt) :
    (q.tried zerocopy d).posted.length = q.posted.length + (decide (d.result = 0)).toNat := by
  rw [tried, doPostRecv_length]
  split <;> rfl

/-- A round of the loop: no block ends it, and a result of the verbs interface never does. -/
theorem postRecvLoop_succ (left posted : Nat) (henv : Verbs env (posted + (left + 1))) (q : RecvQueue) :
    postRecvLoop zerocopy env (left + 1) posted q =
      if zerocopy && (env posted).block.isNone then (q.clearSlot, -1)
      else postRecvLoop zerocopy env left (posted + 1) (q.tried zerocopy (env posted)).advance := by
  have hresult : ¬ (env posted).result < 0 := Int.not_lt.mpr (henv posted (by omega))
  rw [postRecvLoop]
  cases zerocopy with
  | false | true =>
    dsimp only
    rw [if_neg hresult]
    rfl

/-- Every round finds a block if it needs one. -/
def Supplied (zerocopy : Bool) (env : Nat → Attempt) (posted left : Nat) : Prop :=
  ∀ i < left, zerocopy = true → (env (posted + i)).block ≠ none

/-- The rounds whose receive is accepted. -/
def accepted (env : Nat → Attempt) (posted left : Nat) : Nat :=
  (List.range left).countP (fun i => decide ((env (posted + i)).result = 0))

theorem accepted_succ (env : Nat → Attempt) (posted left : Nat) :
    accepted env posted (left + 1) = (decide ((env posted).result = 0)).toNat + accepted env (posted + 1) left := by
  rw [accepted, range_succ_eq_map, countP_cons, countP_map, accepted, Nat.add_comm]
  congr 1
  · by_cases h : (env posted).result = 0 <;> simp [h]
  · apply countP_congr
    intro i _
    rw [Function.comp_apply, Nat.succ_eq_add_one, Nat.add_comm i 1, Nat.add_assoc]

theorem accepted_eq_iff (env : Nat → Attempt) (posted left : Nat) :
    accepted env posted left = left ↔ ∀ i < left, (env (posted + i)).result = 0 := by
  have hcount := countP_eq_length (p := fun i => decide ((env (posted + i)).result = 0)) (l := range left)
  rw [length_range] at hcount
  rw [accepted, hcount]
  simp only [mem_range, decide_eq_true_eq]

/-- With a block for every round `PostRecv` returns 0 and adds a credit for every round,
    whatever was accepted. -/
theorem postRecvLoop_supplied : ∀ {left posted : Nat} {q : RecvQueue}, Verbs env (posted + left) →
    Supplied zerocopy env posted left →
    (postRecvLoop zerocopy env left posted q).2 = 0 ∧
      (postRecvLoop zerocopy env left posted q).1.posted.length = q.posted.length + accepted env posted left ∧
      (postRecvLoop zerocopy env left posted q).1.ep =
        (Nat.iterate Endpoint.advanceRq left q.ep).addRqWrs (posted + left)
  | 0, posted, q, _, _ => by
    refine ⟨rfl, rfl, ?_⟩
    rw [Nat.cast_zero, Int.add_zero]
    rfl
  | left + 1, posted, q, henv, hsup => by
    have hblock : (zerocopy && (env posted).block.isNone) = false := by
      cases zerocopy with
      | false => rfl
      | true =>
        have hne := hsup 0 (Nat.succ_pos left) rfl
        rw [Nat.add_zero, ← Option.isSome_iff_ne_none] at hne
        rw [Bool.true_and, Option.isNone_eq_false_iff]
        exact hne
    rw [postRecvLoop_succ left posted henv, hblock, if_neg Bool.false_ne_true]
    have hsup' : Supplied zerocopy env (posted + 1) left := by
      intro i hi hz
      rw [Nat.add_right_comm, Nat.add_assoc]
      exact hsup (i + 1) (Nat.succ_lt_succ hi) hz
    obtain ⟨hret, hlen, hep⟩ := postRecvLoop_supplied (q := (q.tried zerocopy (env posted)).advance)
      (by rwa [Nat.add_assoc, Nat.add_comm 1 left]) hsup'
    refine ⟨hret, ?_, ?_⟩
    · rw [hlen, accepted_succ]
      show (q.tried zerocopy (env posted)).posted.length + _ = _
      rw [tried_length]
      omega
    · rw [hep]
      show (Nat.iterate Endpoint.advanceRq left (q.tried zerocopy (env posted)).ep.advanceRq).addRqWrs _ = _
      rw [tried_ep, Function.iterate_succ_apply, Nat.cast_add, Nat.cast_add, Nat.cast_one]
      congr 1
      omega

theorem postRecvLoop_starved : ∀ {left posted : Nat} {q : RecvQueue}, Verbs env (posted + left) →
    ¬ Supplied zerocopy env posted left → (postRecvLoop zerocopy env left posted q).2 = -1
  | 0, posted, q, _, hsup => absurd (fun i hi => absurd hi (Nat.not_lt_zero i)) hsup
  | left + 1, posted, q, henv, hsup => by
    rw [postRecvLoop_succ left posted henv]
    by_cases hblock : (zerocopy && (env posted).block.isNone) = true
    · rw [if_pos hblock]
    · rw [if_neg hblock]
      apply postRecvLoop_starved (by rwa [Nat.add_assoc, Nat.add_comm 1 left])
      intro hrest
      apply hsup
      intro i hi hz
      cases i with
      | zero =>
        rw [hz, Bool.true_and, Option.isNone_iff_eq_none] at hblock
        exact hblock
      | succ i =>
        rw [Nat.add_comm i 1, ← Nat.add_assoc]
        exact hrest i (Nat.lt_of_succ_lt_succ hi) hz

/-- What a caller may conclude from a return value of 0: `num` receives were accepted, and as
    many credits were added. -/
def Honest (q : RecvQueue) (num : Nat) (out : RecvQueue × Int) : Prop :=
  out.2 = 0 → out.1.posted.length = q.posted.length + num ∧
    out.1.ep.newRqWrs = int32 (q.ep.newRqWrs + (out.1.posted.length - q.posted.length))

theorem postRecv_honest_iff {num : Nat} (henv : Verbs env num) (q : RecvQueue) (zerocopy : Bool) :
    Honest q num (q.postRecv num zerocopy env) ↔
      ((zerocopy ∧ ∃ i < num, (env i).block = none) ∨ ∀ i < num, (env i).result = 0) := by
  rw [← Nat.zero_add num] at henv
  by_cases hsup : Supplied zerocopy env 0 num
  · obtain ⟨hret, hlen, hep⟩ := postRecvLoop_supplied henv (q := q) hsup
    have hall := accepted_eq_iff env 0 num
    simp only [Nat.zero_add] at hall
    have hnone : ¬ (zerocopy = true ∧ ∃ i < num, (env i).block = none) := by
      rintro ⟨hz, i, hi, hblock⟩
      have := hsup i hi hz
      rw [Nat.zero_add] at this
      exact this hblock
    rw [or_iff_right hnone, ← hall, Honest, postRecv, hret, hlen]
    constructor
    · intro h
      have := (h rfl).1
      omega
    · intro hacc _
      rw [hacc, hep]
      refine ⟨rfl, ?_⟩
      obtain ⟨received, hframe⟩ := advanceRq_frame num q.ep
      rw [hframe]
      show int32 (q.ep.newRqWrs + _) = _
      congr 2
      omega
  · have hret := postRecvLoop_starved henv (q := q) hsup
    refine ⟨fun _ => .inl ?_, fun _ h => ?_⟩
    · rw [Supplied] at hsup
      push Not at hsup
      obtain ⟨i, hi, hz, hblock⟩ := hsup
      rw [Nat.zero_add] at hblock
      exact ⟨hz, i, hi, hblock⟩
    · rw [postRecv, hret] at h
      exact absurd h (by decide)

end RecvQueue

/-! Runs in which every receive is accepted. -/

/-- The receives that were posted and not handled yet. -/
def RecvState.outstanding (s : RecvState) : Nat := s.q.posted.length + s.completed

/-- Every result the step draws is 0. -/
def allAccepted (s : RecvState) : RecvEvent → Bool
  | .bringUpQp env => (List.range s.q.ep.rqSize).all (fun i => (env i).result == 0)
  | .handleCompletion _ env => (env 0).result == 0
  | _ => true

structure Balanced (s : RecvState) : Prop where
  down : s.up = false → s.outstanding = 0
  up : s.up = true → s.failed = false → s.outstanding = s.q.ep.rqSize

theorem postRecv_rqSize (ep : Endpoint) (num : Nat) : (ep.postRecv num).rqSize = ep.rqSize := by
  obtain ⟨received, hframe⟩ := advanceRq_frame num ep
  rw [Endpoint.postRecv, hframe]
  rfl

/-- A call with all results 0 that does not lack a block does what the caller asked for. -/
theorem postRecv_accepted {q : RecvQueue} {num : Nat} {zerocopy : Bool} {env : Nat → Attempt}
    (hacc : ∀ i < num, (env i).result = 0) (hret : decide ((q.postRecv num zerocopy env).2 < 0) = false) :
    (q.postRecv num zerocopy env).1.posted.length = q.posted.length + num ∧
      (q.postRecv num zerocopy env).1.ep.rqSize = q.ep.rqSize := by
  have henv : Verbs env (0 + num) := by
    intro i hi
    rw [hacc i (by omega)]
  by_cases hsup : RecvQueue.Supplied zerocopy env 0 num
  · obtain ⟨-, hlen, hep⟩ := RecvQueue.postRecvLoop_supplied (q := q) henv hsup
    rw [(RecvQueue.accepted_eq_iff env 0 num).mpr (fun i hi => by rw [Nat.zero_add]; exact hacc i hi)] at hlen
    rw [Nat.cast_zero, Int.zero_add] at hep
    exact ⟨hlen, (congrArg Endpoint.rqSize hep).trans (postRecv_rqSize q.ep num)⟩
  · rw [RecvQueue.postRecv, RecvQueue.postRecvLoop_starved henv hsup] at hret
    cases hret

theorem balanced_next {s s' : RecvState} {a : RecvEvent} (hb : Balanced s) (hok : allAccepted s a)
    (hn : s.next a = some s') : Balanced s' := by
  cases a with
  | bringUpQp env =>
    obtain ⟨hup, heq⟩ := Option.ite_none_left_eq_some.mp hn
    cases heq
    have hacc : ∀ i < s.q.ep.rqSize, (env i).result = 0 := by
      intro i hi
      exact eq_of_beq (all_eq_true.mp hok i (mem_range.mpr hi))
    have hzero := hb.down (Bool.eq_false_iff.mpr hup)
    refine ⟨fun h => absurd h.symm Bool.false_ne_true, fun _ hf => ?_⟩
    obtain ⟨-, hret⟩ := Bool.or_eq_false_iff.mp hf
    obtain ⟨hlen, hsize⟩ := postRecv_accepted hacc hret
    rw [RecvState.outstanding] at hzero ⊢
    dsimp only [RecvState.after]
    omega
  | complete =>
    obtain ⟨hne, heq⟩ := Option.ite_none_left_eq_some.mp hn
    cases heq
    have hsame : RecvState.outstanding { s with
        q := { s.q with posted := s.q.posted.tail }, completed := s.completed + 1 } = s.outstanding := by
      have hpos := length_pos_iff.mpr hne
      show s.q.posted.tail.length + (s.completed + 1) = s.q.posted.length + s.completed
      rw [length_tail]
      omega
    exact ⟨fun h => hsame.trans (hb.down h), fun h hf => hsame.trans (hb.up h hf)⟩
  | handleCompletion byteLen env =>
    obtain ⟨hgo, heq⟩ := Option.ite_none_left_eq_some.mp hn
    cases heq
    rw [not_or] at hgo
    have hacc : ∀ i < 1, (env i).result = 0 := by
      intro i hi
      rw [Nat.lt_one_iff.mp hi]
      exact eq_of_beq hok
    refine ⟨fun h => ?_, fun hup hf => ?_⟩
    · have := hb.down h
      rw [RecvState.outstanding] at this
      omega
    · obtain ⟨hf0, hret⟩ := Bool.or_eq_false_iff.mp hf
      have hbal := hb.up hup hf0
      obtain ⟨hlen, hsize⟩ := postRecv_accepted hacc hret
      rw [RecvState.outstanding] at hbal ⊢
      dsimp only [RecvState.after]
      omega
  | credits n =>
    cases hn
    exact ⟨hb.down, hb.up⟩
  | setFailed =>
    cases hn
    exact ⟨hb.down, fun _ hf => absurd hf.symm Bool.false_ne_true⟩

/-- `PostRecv` is honest exactly when it fails for want of a block or every receive is
    accepted, and in every run in which all receives are accepted an endpoint that has not
    failed keeps `rq_size_` of them posted. -/
theorem receives_posted_when_accepted (q : RecvQueue) (num : Nat) (zerocopy : Bool) (env : Nat → Attempt)
    (tr : List RecvEvent) (s : RecvState) :
    (Verbs env num → (RecvQueue.Honest q num (q.postRecv num zerocopy env) ↔
      ((zerocopy = true ∧ ∃ i < num, (env i).block = none) ∨ ∀ i < num, (env i).result = 0))) ∧
    ((recvMachine.guard allAccepted).Run tr s →
      s.up = true → s.failed = false → s.q.posted.length + s.completed = s.q.ep.rqSize) := by
  refine ⟨fun henv => RecvQueue.postRecv_honest_iff henv q zerocopy, fun hrun => ?_⟩
  have hbal : Balanced s := by
    apply hrun.invariant (I := fun _ s => Balanced s)
    · rintro s ⟨hposted, -, hup, -, hcompleted⟩
      refine ⟨fun _ => ?_, fun h => absurd (hup.symm.trans h) Bool.false_ne_true⟩
      rw [RecvState.outstanding, hposted, hcompleted]
      rfl
    · intro tr s a s' _ hb hn
      obtain ⟨hok, hn⟩ := Lib.Machine.guard_next.mp hn
      exact balanced_next hb hok hn
  exact hbal.up

def fewReceives : Hello := smallestHello

/-- An endpoint with 16 receives, before `BringUpQp`. -/
def smallQueue : RecvQueue :=
  ⟨(Endpoint.onCreated fewReceives).negotiate fewReceives, List.replicate 16 ⟨none, 0⟩, []⟩

def eachAccepted (i : Nat) : Attempt := ⟨some (4096 * (i + 1)), 0⟩

theorem eachAccepted_posted : ∃ s,
    (recvMachine.guard allAccepted).Run [.bringUpQp eachAccepted, .complete, .handleCompletion 100 eachAccepted] s ∧
      s.q.posted.length + s.completed = s.q.ep.rqSize ∧
      RecvQueue.Honest smallQueue 16 (smallQueue.postRecv 16 true eachAccepted) := by
  have hrun : ∃ s, (recvMachine.guard allAccepted).Run
      [.bringUpQp eachAccepted, .complete, .handleCompletion 100 eachAccepted] s ∧ (s.up = true ∧ s.failed = false) :=
    Lib.Machine.exists_run (s := ⟨smallQueue, false, false, 0⟩) ⟨rfl, rfl, rfl, rfl, rfl⟩ (by decide)
  obtain ⟨s, hrun, hup, hf⟩ := hrun
  obtain ⟨hcall, hposted⟩ := receives_posted_when_accepted smallQueue 16 true eachAccepted _ s
  exact ⟨s, hrun, hposted hrun hup hf, (hcall fun _ _ => Int.le_refl 0).mpr (.inr fun _ _ => rfl)⟩

/-- The third receive is refused with ENOMEM. -/
def thirdRefused (i : Nat) : Attempt := ⟨some (4096 * (i + 1)), if i = 2 then 12 else 0⟩

/-- The endpoint comes up, is not failed, and has credits for 16 receives, 15 of which are
    posted. -/
theorem refused_receive_credited : Verbs thirdRefused 16 ∧
    ¬ RecvQueue.Honest smallQueue 16 (smallQueue.postRecv 16 true thirdRefused) ∧
    ∃ s, recvMachine.Run [.bringUpQp thirdRefused] s ∧
      (s.up = true ∧ s.failed = false ∧ s.q.posted.length = 15 ∧ s.q.ep.rqSize = 16 ∧ s.q.ep.newRqWrs = 16) := by
  refine ⟨fun i _ => ?_, fun h => ?_, ?_⟩
  · show (0 : Int) ≤ if i = 2 then 12 else 0
    split <;> decide
  · exact absurd (h (by decide)).1 (by decide)
  · exact Lib.Machine.exists_run (s := ⟨smallQueue, false, false, 0⟩) ⟨rfl, rfl, rfl, rfl, rfl⟩ (by decide)

end LightRpc.Receives

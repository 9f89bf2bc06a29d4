import LightRpc.ByteOrder
import LightRpc.Lib.Machine

/- Large transfers, from the receiver's side: the MSG_NOTIFY branch of
   `FastServer::OnProcessRequest` and of `FastChannel::OnProcessResponse` (the same code
   up to the check of `Failed()` the server makes first), `PostLargeWriteRecv`, the peer's
   MSG_AUTHORITY branch, and the `data_recv_cq_` case of `PollCq`.

   A handler allocates a region, posts a receive for it, hands an AUTHORITY frame that
   carries its `rkey` to `StartWrite` and then enters the region into
   `pending_large_map_`. The peer answers the AUTHORITY with one RDMA write with
   immediate `rkey`, which uses up a posted receive and makes a completion.

   The environment chooses which region `LargeBlockAlloc` hands out (one that is in
   nobody's hands), whether the post and `StartWrite` succeed, whether the peer still has
   the frame and its post succeeds, and the order of everything. -/
namespace LightRpc.LargeTransfer

open Lib Multiset

/-- A registered memory region. -/
structure Mr where
  rkey : Fin (2 ^ 32)
  addr : Nat
  deriving DecidableEq, Repr

/-- An AUTHORITY frame. -/
structure Authority where
  rpcId : Nat
  rkey : Fin (2 ^ 32)
  addr : Nat
  deriving DecidableEq, Repr

/-- Where a MSG_NOTIFY handler is. -/
inductive NotifyPc where
  | postLargeWriteRecv (mr : Mr) (rpcId : Nat)
  /-- `posted` is the result of the post, which the code does not look at. -/
  | startWrite (mr : Mr) (rpcId : Nat) (posted : Bool)
  | insert (mr : Mr)
  deriving DecidableEq, Repr

def NotifyPc.mr : NotifyPc → Mr
  | postLargeWriteRecv mr _ | startWrite mr _ _ | insert mr => mr

/-- An AUTHORITY that was handed to `StartWrite` and not answered yet. -/
structure Authorised where
  mr : Mr
  posted : Bool
  deriving DecidableEq, Repr

structure LargeState where
  failed : Bool
  /-- Posted receives of the data QP that no write has used. -/
  recvs : Nat
  pendingLargeMap : List Mr
  handlers : Multiset NotifyPc
  /-- AUTHORITY frames in the write queue. -/
  writeQueue : List Authority
  /-- Handlers of the peer. -/
  peerHandlers : Multiset Authority
  /-- Immediates of the RDMA writes on their way. -/
  writes : List Nat
  /-- Immediates of the completions in `data_recv_cq_`. -/
  dataRecvCq : List Nat
  /-- Regions in received frames. -/
  frames : Multiset Mr
  authorised : Multiset Authorised
  /-- The `rkey`s for which `pending_large_map_` had no entry. -/
  dropped : List Nat

/-- The regions in somebody's hands. -/
def LargeState.regions (s : LargeState) : Multiset Mr :=
  s.handlers.map NotifyPc.mr + s.pendingLargeMap + s.frames

inductive LargeAct where
  /-- A MSG_NOTIFY reaches a handler of the server or of the client. -/
  | notify (server : Bool) (rpcId : Nat) (block : Option Mr)
  | step (pc : NotifyPc) (ok : Bool)
  /-- The first AUTHORITY in the write queue is sent and received. -/
  | transmit
  /-- The peer handles an AUTHORITY: `CutSegFromIOBuf` posts a write, or nothing. -/
  | authority (au : Authority) (posted : Bool)
  /-- The first RDMA write uses up a receive. -/
  | deliver
  /-- `PollCq` handles a completion of `data_recv_cq_`. -/
  | pollDataRecv
  /-- A received frame is freed. -/
  | returnLargeBlock (mr : Mr)
  | fail
  deriving DecidableEq, Repr

def notifyStep (s : LargeState) : NotifyPc → Bool → LargeState × List NotifyPc
  | .postLargeWriteRecv mr rpcId, ok =>
    if ok ∧ ¬ s.failed then ({ s with recvs := s.recvs + 1 }, [.startWrite mr rpcId true])
    else (s, [.startWrite mr rpcId false])
  | .startWrite mr rpcId posted, ok =>
    if ok ∧ ¬ s.failed then
      ({ s with
        writeQueue := s.writeQueue ++ [⟨rpcId, mr.rkey, mr.addr⟩]
        authorised := ⟨mr, posted⟩ ::ₘ s.authorised }, [.insert mr])
    else ({ s with authorised := ⟨mr, posted⟩ ::ₘ s.authorised }, [.insert mr])
  | .insert mr, _ =>
    ({ s with pendingLargeMap := mr :: s.pendingLargeMap.filter (·.rkey ≠ mr.rkey) }, [])

/-- The `data_recv_cq_` case of `PollCq`. -/
def handleDataRecv (s : LargeState) (immData : Nat) : LargeState :=
  let rkey := ntohl immData
  let s := { s with authorised := s.authorised.filter (·.mr.rkey.val ≠ rkey) }
  match s.pendingLargeMap.find? (·.rkey.val = rkey) with
  | some mr => { s with pendingLargeMap := s.pendingLargeMap.erase mr, frames := mr ::ₘ s.frames }
  | none => { s with dropped := s.dropped ++ [rkey] }

def LargeState.next (s : LargeState) : LargeAct → Option LargeState
  | .notify server rpcId block =>
    if server ∧ s.failed then some s
    else match block with
      | none => some s
      | some mr =>
        if mr.rkey ∈ s.regions.map Mr.rkey then none
        else some { s with handlers := .postLargeWriteRecv mr rpcId ::ₘ s.handlers }
  | .step pc ok =>
    if pc ∈ s.handlers then
      some { (notifyStep s pc ok).1 with handlers := Threads.replace s.handlers pc (notifyStep s pc ok).2 }
    else none
  | .transmit =>
    match s.writeQueue with
    | au :: rest => some { s with writeQueue := rest, peerHandlers := au ::ₘ s.peerHandlers }
    | [] => none
  | .authority au posted =>
    if au ∈ s.peerHandlers then
      some { s with
        peerHandlers := s.peerHandlers.erase au
        writes := if posted then s.writes ++ [htonl au.rkey] else s.writes }
    else none
  | .deliver =>
    match s.writes, s.recvs with
    | imm :: rest, n + 1 => some { s with writes := rest, recvs := n, dataRecvCq := s.dataRecvCq ++ [imm] }
    | _, _ => none
  | .pollDataRecv =>
    match s.dataRecvCq with
    | imm :: rest => some (handleDataRecv { s with dataRecvCq := rest } imm)
    | [] => none
  | .returnLargeBlock mr => if mr ∈ s.frames then some { s with frames := s.frames.erase mr } else none
  | .fail => some { s with failed := true }

def LargeState.connected : LargeState := ⟨false, 0, [], 0, [], 0, [], [], 0, 0, []⟩

def largeMachine : Machine LargeState LargeAct where
  init := fun s => s = .connected
  next := LargeState.next

/-- The receiver is ready for everything it has authorised. -/
def LargeState.Ready (s : LargeState) : Prop :=
  ∀ au ∈ s.authorised, au.posted = true ∧ au.mr ∈ s.pendingLargeMap

/-! Where regions and authorisations are. -/

/-- The `rkey`s of the authorisations on their way to the peer and back. -/
def LargeState.transit (s : LargeState) : Multiset Nat :=
  (s.writeQueue.map (·.rkey.val) : Multiset Nat) + s.peerHandlers.map (·.rkey.val) +
    (s.writes.map ntohl : Multiset Nat) + (s.dataRecvCq.map ntohl : Multiset Nat)

def Authorised.rkey (au : Authorised) : Nat := au.mr.rkey.val

structure LargeInv (s : LargeState) : Prop where
  /-- No region is in two places. -/
  regions : (s.regions.map Mr.rkey).Nodup
  authorised : (s.authorised.map Authorised.rkey).Nodup
  /-- An authorised region is in the map or in its handler's hands. -/
  placed : ∀ au ∈ s.authorised, .insert au.mr ∈ s.handlers ∨ au.mr ∈ s.pendingLargeMap
  /-- What is on its way was authorised, once. -/
  transit : s.transit ≤ s.authorised.map Authorised.rkey

theorem largeInv_connected : LargeInv .connected := by
  refine ⟨?_, ?_, nofun, ?_⟩ <;> decide

section
variable {s s' : LargeState}
variable {mr : Mr} {rpcId imm : Nat} {rest : List Nat} {tr : List LargeAct}

section

variable (h : LargeInv s)

include h

theorem LargeInv.fail : LargeInv { s with failed := true } :=
  ⟨h.regions, h.authorised, h.placed, h.transit⟩

theorem LargeInv.notify (hnew : mr.rkey ∉ s.regions.map Mr.rkey) :
    LargeInv { s with handlers := .postLargeWriteRecv mr rpcId ::ₘ s.handlers } where
  regions := by
    have : LargeState.regions { s with handlers := .postLargeWriteRecv mr rpcId ::ₘ s.handlers } =
        mr ::ₘ s.regions := by
      simp [LargeState.regions, NotifyPc.mr]
    rw [this, map_cons, nodup_cons]
    exact ⟨hnew, h.regions⟩
  authorised := h.authorised
  placed := fun au hau => (h.placed au hau).imp_left mem_cons_of_mem
  transit := h.transit

/-- The region of a handler is nowhere else. -/
theorem LargeInv.elsewhere {pc : NotifyPc} {R : Multiset NotifyPc} (hR : s.handlers = pc ::ₘ R) :
    s.regions = pc.mr ::ₘ (R.map NotifyPc.mr + s.pendingLargeMap + s.frames) ∧ (∀ pc' ∈ R, pc'.mr.rkey ≠ pc.mr.rkey) ∧
      (∀ mr ∈ s.pendingLargeMap, mr.rkey ≠ pc.mr.rkey) := by
  have hreg : s.regions = pc.mr ::ₘ (R.map NotifyPc.mr + s.pendingLargeMap + s.frames) := by
    simp [LargeState.regions, hR]
  have hnodup := h.regions
  rw [hreg, map_cons, nodup_cons] at hnodup
  refine ⟨hreg, fun pc' hpc' heq => hnodup.1 ?_, fun mr hmr heq => hnodup.1 ?_⟩
  · rw [← heq]
    exact mem_map_of_mem _ (mem_add.mpr (.inl (mem_add.mpr
      (.inl (mem_map_of_mem _ hpc')))))
  · rw [← heq]
    exact mem_map_of_mem _ (mem_add.mpr (.inl (mem_add.mpr (.inr hmr))))

/-- A handler about to authorise its region is the first to do so. -/
theorem LargeInv.not_authorised {posted : Bool} (hpc : .startWrite mr rpcId posted ∈ s.handlers) :
    mr.rkey.val ∉ s.authorised.map Authorised.rkey := by
  obtain ⟨R, hR⟩ := exists_cons_of_mem hpc
  obtain ⟨_, hothers, hmap⟩ := h.elsewhere hR
  intro hmem
  obtain ⟨au, hau, hkey⟩ := mem_map.mp hmem
  have hkey : au.mr.rkey = mr.rkey := Fin.ext hkey
  rcases h.placed au hau with hins | hin
  · rw [hR] at hins
    exact hothers _ ((mem_cons.mp hins).resolve_left nofun) hkey
  · exact hmap au.mr hin hkey

theorem LargeInv.step {pc : NotifyPc} (hpc : pc ∈ s.handlers) (ok : Bool) :
    LargeInv { (notifyStep s pc ok).1 with handlers := Threads.replace s.handlers pc (notifyStep s pc ok).2 } := by
  obtain ⟨R, hR, hreplace⟩ := Threads.replace_spec hpc (notifyStep s pc ok).2
  obtain ⟨hreg, hothers, hmap⟩ := h.elsewhere hR
  have hnodup := h.regions
  have hplaced : ∀ au ∈ s.authorised, pc ≠ .insert au.mr →
      .insert au.mr ∈ R ∨ au.mr ∈ s.pendingLargeMap := by
    intro au hau hne
    refine (h.placed au hau).imp_left fun hins => ?_
    rw [hR] at hins
    exact (mem_cons.mp hins).resolve_left (Ne.symm hne)
  rw [hreg] at hnodup
  rw [hreplace]
  cases pc with
  | postLargeWriteRecv mr rpcId =>
    rw [notifyStep]
    split <;> exact {
      regions := by simpa [LargeState.regions, NotifyPc.mr] using hnodup
      authorised := h.authorised
      placed := fun au hau => (hplaced au hau nofun).imp_left (mem_add.mpr <| .inr ·)
      transit := h.transit }
  | startWrite mr rpcId posted =>
    have hnew := h.not_authorised hpc
    have hauth : ((⟨mr, posted⟩ ::ₘ s.authorised).map Authorised.rkey).Nodup := by
      rw [map_cons, nodup_cons]
      exact ⟨hnew, h.authorised⟩
    have hplaced' : ∀ au ∈ (⟨mr, posted⟩ ::ₘ s.authorised : Multiset Authorised),
        .insert au.mr ∈ (([.insert mr] : List NotifyPc) + R : Multiset NotifyPc) ∨ au.mr ∈ s.pendingLargeMap := by
      intro au hau
      rcases mem_cons.mp hau with rfl | hau
      · exact .inl (mem_add.mpr (.inl (List.mem_singleton.mpr rfl)))
      · exact (hplaced au hau nofun).imp_left (mem_add.mpr <| .inr ·)
    rw [notifyStep]
    split
    · exact {
        regions := by simpa [LargeState.regions, NotifyPc.mr] using hnodup
        authorised := hauth
        placed := hplaced'
        transit := by
          have := cons_le_cons mr.rkey.val h.transit
          rw [map_cons]
          refine le_trans (le_of_eq ?_) this
          simp only [LargeState.transit, List.map_append, List.map_cons, List.map_nil, ← coe_add,
            coe_singleton, ← singleton_add]
          abel }
    · exact {
        regions := by simpa [LargeState.regions, NotifyPc.mr] using hnodup
        authorised := hauth
        placed := hplaced'
        transit := le_trans h.transit (map_cons Authorised.rkey ⟨mr, posted⟩ s.authorised ▸ le_cons_self _ _) }
  | insert mr =>
    have hfilter : s.pendingLargeMap.filter (·.rkey ≠ mr.rkey) = s.pendingLargeMap :=
      List.filter_eq_self.mpr fun mr' hmr' => decide_eq_true (hmap mr' hmr')
    rw [notifyStep, hfilter]
    exact {
      regions := by
        simpa [LargeState.regions, NotifyPc.mr, ← cons_coe, add_cons, cons_add]
          using hnodup
      authorised := h.authorised
      placed := by
        intro au hau
        by_cases heq : au.mr = mr
        · rw [heq]
          exact .inr List.mem_cons_self
        · refine (hplaced au hau fun hpc => heq ?_).imp (mem_add.mpr <| .inr ·) (List.mem_cons_of_mem mr)
          cases hpc
          rfl
      transit := h.transit }

theorem LargeInv.transmit {au : Authority} {rest : List Authority} (hq : s.writeQueue = au :: rest) :
    LargeInv { s with writeQueue := rest, peerHandlers := au ::ₘ s.peerHandlers } where
  regions := h.regions
  authorised := h.authorised
  placed := h.placed
  transit := by
    refine le_trans (le_of_eq ?_) h.transit
    simp only [LargeState.transit, hq, List.map_cons, ← cons_coe, ← singleton_add,
      map_add, map_singleton]
    abel

theorem LargeInv.authority {au : Authority} (hau : au ∈ s.peerHandlers) (posted : Bool) :
    LargeInv { s with
      peerHandlers := s.peerHandlers.erase au
      writes := if posted then s.writes ++ [htonl au.rkey] else s.writes } where
  regions := h.regions
  authorised := h.authorised
  placed := h.placed
  transit := by
    obtain ⟨P, hP⟩ := exists_cons_of_mem hau
    have htransit := h.transit
    simp only [LargeState.transit, hP, erase_cons_head] at htransit ⊢
    rw [map_cons, ← singleton_add] at htransit
    cases posted with
    | true =>
      refine le_trans (le_of_eq ?_) htransit
      simp only [if_true, List.map_append, List.map_cons, List.map_nil, ntohl_htonl au.rkey.isLt,
        ← coe_add, coe_singleton]
      abel
    | false =>
      refine le_trans ?_ htransit
      simp only [Bool.false_eq_true, if_false]
      refine add_le_add (add_le_add (add_le_add le_rfl ?_) le_rfl) le_rfl
      exact le_add_left _ _

theorem LargeInv.deliver {n : Nat} (hw : s.writes = imm :: rest) :
    LargeInv { s with writes := rest, recvs := n, dataRecvCq := s.dataRecvCq ++ [imm] } where
  regions := h.regions
  authorised := h.authorised
  placed := h.placed
  transit := by
    refine le_trans (le_of_eq ?_) h.transit
    simp only [LargeState.transit, hw, List.map_cons, List.map_append, List.map_nil, ← coe_add,
      ← cons_coe, coe_nil, ← singleton_add]
    abel

theorem LargeInv.returnLargeBlock (mr : Mr) : LargeInv { s with frames := s.frames.erase mr } where
  regions := by
    refine nodup_of_le (map_le_map ?_) h.regions
    exact add_le_add le_rfl (erase_le mr s.frames)
  authorised := h.authorised
  placed := h.placed
  transit := h.transit

/-- The answer to an authorisation is the only one: it leaves the transit and the ledger. -/
theorem LargeInv.answered (hcq : s.dataRecvCq = imm :: rest) :
    (∃ au ∈ s.authorised, au.rkey = ntohl imm) ∧ LargeInv { s with
      dataRecvCq := rest
      authorised := s.authorised.filter (·.mr.rkey.val ≠ ntohl imm) } := by
  have htransit : ntohl imm ::ₘ LargeState.transit { s with dataRecvCq := rest } ≤
      s.authorised.map Authorised.rkey := by
    refine le_trans (le_of_eq ?_) h.transit
    simp only [LargeState.transit, hcq, List.map_cons, ← cons_coe, ← singleton_add]
    abel
  refine ⟨?_, h.regions, ?_, ?_, ?_⟩
  · exact mem_map.mp (mem_of_le htransit (mem_cons_self _ _))
  · exact nodup_of_le (map_le_map (filter_le _ _)) h.authorised
  · exact fun au hau => h.placed au (mem_of_mem_filter hau)
  · have herase : (s.authorised.filter (·.mr.rkey.val ≠ ntohl imm)).map Authorised.rkey =
        (s.authorised.map Authorised.rkey).erase (ntohl imm) := by
      rw [Multiset.Nodup.erase_eq_filter _ h.authorised, filter_map]
      rfl
    show LargeState.transit { s with dataRecvCq := rest } ≤ _
    rw [herase]
    exact (erase_cons_head (ntohl imm) _).symm.le.trans (erase_le_erase (ntohl imm) htransit)

theorem LargeInv.found (hmr : mr ∈ s.pendingLargeMap) (hnot : ∀ au ∈ s.authorised, au.mr ≠ mr) :
    LargeInv { s with pendingLargeMap := s.pendingLargeMap.erase mr, frames := mr ::ₘ s.frames } where
  regions := by
    have hperm : (s.pendingLargeMap : Multiset Mr) = mr ::ₘ (s.pendingLargeMap.erase mr : List Mr) := by
      rw [cons_coe]
      exact coe_eq_coe.mpr (List.perm_cons_erase hmr)
    have hregions : LargeState.regions { s with
        pendingLargeMap := s.pendingLargeMap.erase mr, frames := mr ::ₘ s.frames } = s.regions := by
      rw [LargeState.regions, LargeState.regions, hperm]
      simp only [← singleton_add]
      abel
    rw [hregions]
    exact h.regions
  authorised := h.authorised
  placed := fun au hau => (h.placed au hau).imp_right fun hin =>
    (List.mem_erase_of_ne (hnot au hau)).mpr hin
  transit := h.transit

theorem LargeInv.handleDataRecv (hcq : s.dataRecvCq = imm :: rest) :
    LargeInv (handleDataRecv { s with dataRecvCq := rest } imm) := by
  obtain ⟨_, h'⟩ := h.answered hcq
  rw [LargeTransfer.handleDataRecv]
  dsimp only
  split
  · rename_i mr hfind
    refine h'.found (List.mem_of_find?_eq_some hfind) fun au hau heq => ?_
    have hkey : mr.rkey.val = ntohl imm := by simpa using List.find?_some hfind
    have hne : au.mr.rkey.val ≠ ntohl imm := by simpa using (mem_filter.mp hau).2
    exact hne (heq ▸ hkey)
  · exact ⟨h'.regions, h'.authorised, h'.placed, h'.transit⟩

theorem largeInv_next {a : LargeAct} (hn : s.next a = some s') : LargeInv s' := by
  revert hn
  fun_cases LargeState.next s a <;> intro hn <;> cases hn
  case case1 | case2 => exact h
  case case4 hfresh => exact h.notify hfresh
  case case5 pc ok hpc => exact h.step hpc ok
  case case7 hq => exact h.transmit hq
  case case9 au posted hau => exact h.authority hau posted
  case case11 hwrites => exact h.deliver hwrites
  case case13 hcq => exact h.handleDataRecv hcq
  case case15 mr _ => exact h.returnLargeBlock mr
  case case17 => exact h.fail

end

theorem largeInv_run (h : largeMachine.Run tr s) : LargeInv s := by
  refine h.invariant (I := fun _ s => LargeInv s) ?_ fun _ _ _ _ _ hinv hn => largeInv_next hinv hn
  rintro s rfl
  exact largeInv_connected

/-! What the order of the handler's steps allows. -/

/-- The action hands an AUTHORITY frame to `StartWrite`. -/
def LargeAct.authorises : LargeAct → Bool
  | .step (.startWrite _ _ _) _ => true
  | _ => false

/-- The next completion is the answer to an AUTHORITY whose handler has not come to its last
    statement yet. -/
def LargeState.Early (s : LargeState) : Prop :=
  ∃ mr imm, s.dataRecvCq.head? = some imm ∧ .insert mr ∈ s.handlers ∧ mr.rkey.val = ntohl imm

/-- Only the hand-over authorises, and only a poll drops. -/
theorem next_frame {a : LargeAct} (hn : s.next a = some s') :
    (a.authorises = false → s'.authorised ≤ s.authorised) ∧ (a ≠ .pollDataRecv → s'.dropped = s.dropped) ∧
      s.dropped <+: s'.dropped := by
  have hsame : (a.authorises = false → s.authorised ≤ s.authorised) ∧ (a ≠ .pollDataRecv → s.dropped = s.dropped) ∧
      s.dropped <+: s.dropped := ⟨fun _ => le_rfl, fun _ => rfl, List.prefix_rfl⟩
  revert hn
  fun_cases LargeState.next s a <;> intro hn <;> cases hn
  case case5 pc ok hpc =>
    fun_cases notifyStep s pc ok
    case case3 | case4 => exact ⟨nofun, fun _ => rfl, List.prefix_rfl⟩
    all_goals exact hsame
  case case13 hcq =>
    simp only [LargeTransfer.handleDataRecv]
    split
    · exact ⟨fun _ => filter_le _ _, fun _ => rfl, List.prefix_rfl⟩
    · exact ⟨fun _ => filter_le _ _, fun hne => absurd rfl hne, List.prefix_append _ _⟩
  all_goals exact hsame

theorem authorised_eq_zero (h : largeMachine.Run tr s) (hnone : ∀ a ∈ tr, a.authorises = false) : s.authorised = 0 := by
  induction h with
  | start hi =>
    cases hi
    rfl
  | step hr hn ih =>
    have hzero := ih fun a ha => hnone a (List.mem_append_left _ ha)
    have hle := (next_frame hn).1 (hnone _ (List.mem_append_right _ (List.mem_singleton.mpr rfl)))
    exact le_zero.mp (hzero ▸ hle)

/-- Right after the hand-over the map has no entry for the region. -/
theorem LargeInv.not_ready (h : LargeInv s) {posted ok : Bool}
    (hn : s.next (.step (.startWrite mr rpcId posted) ok) = some s') : ¬ s'.Ready := by
  obtain ⟨hpc, rfl⟩ := Option.ite_some_none_eq_some.mp hn
  obtain ⟨R, hR⟩ := exists_cons_of_mem hpc
  obtain ⟨_, _, hmap⟩ := h.elsewhere hR
  intro hready
  have hlast : ⟨mr, posted⟩ ∈ (notifyStep s (.startWrite mr rpcId posted) ok).1.authorised ∧
      (notifyStep s (.startWrite mr rpcId posted) ok).1.pendingLargeMap = s.pendingLargeMap := by
    simp only [notifyStep]
    split <;> exact ⟨mem_cons_self _ _, rfl⟩
  have hin := (hready ⟨mr, posted⟩ hlast.1).2
  exact hmap mr (hlast.2 ▸ hin) rfl

/-- A completion is dropped exactly when it overtakes its handler. -/
theorem LargeInv.dropped_iff (h : LargeInv s) (hn : s.next .pollDataRecv = some s') :
    s'.dropped = s.dropped ↔ ¬ s.Early := by
  simp only [LargeState.next] at hn
  split at hn <;> cases hn
  rename_i imm rest hcq
  obtain ⟨⟨au, hau, hkey⟩, _⟩ := h.answered hcq
  simp only [LargeTransfer.handleDataRecv]
  split
  · -- an entry: no handler has the region any more
    rename_i mr hfind
    refine iff_of_true rfl ?_
    rintro ⟨mr', imm', himm, hins, hmr'⟩
    obtain rfl : imm = imm' := by simpa [hcq] using himm
    obtain ⟨R, hR⟩ := exists_cons_of_mem hins
    have hkey : mr.rkey.val = ntohl imm := by simpa using List.find?_some hfind
    exact (h.elsewhere hR).2.2 mr (List.mem_of_find?_eq_some hfind) (Fin.ext (hkey.trans hmr'.symm))
  · -- no entry: the authorisation is still with its handler
    rename_i hfind
    refine iff_of_false (by simp) ?_
    rw [not_not]
    refine ⟨au.mr, imm, by simp [hcq], (h.placed au hau).resolve_right fun hin => ?_, hkey⟩
    have := List.find?_eq_none.mp hfind au.mr hin
    exact this (decide_eq_true hkey)

theorem connected_unique : ∀ s s' : LargeState, largeMachine.init s → largeMachine.init s' → s = s' := by
  rintro s s' rfl rfl
  rfl

/-- A run drops nothing exactly when no completion is polled too early. -/
theorem dropped_eq_nil (h : largeMachine.Run tr s) : s.dropped = [] ↔
    Along (fun tr₁ a => a = .pollDataRecv → ∀ s₁, largeMachine.Run tr₁ s₁ → ¬ s₁.Early) tr := by
  induction h with
  | start hi =>
    cases hi
    exact iff_of_true rfl Along.nil
  | @step tr s s' a hr hn ih =>
    obtain ⟨_, hsame, hgrows⟩ := next_frame hn
    have hinv := largeInv_run hr
    constructor
    · intro hnil
      have hdropped : s.dropped = [] := List.prefix_nil.mp (hnil ▸ hgrows)
      refine (ih.mp hdropped).concat ?_
      rintro rfl s₁ hr₁
      rw [Machine.Run.unique connected_unique hr₁ hr]
      exact (hinv.dropped_iff hn).mp (hnil.trans hdropped.symm)
    · intro hall
      obtain ⟨hold, hlast⟩ := hall.of_concat
      by_cases ha : a = .pollDataRecv
      · subst ha
        exact ((hinv.dropped_iff hn).mpr (hlast rfl s hr)).trans (ih.mpr hold)
      · exact (hsame ha).trans (ih.mpr hold)

/-- **Authorised before ready.** The receiver is ready for all it has authorised, in every
    state of a run, only if the run hands no AUTHORITY to `StartWrite` at all: each
    hand-over comes before its entry in `pending_large_map_`. No large frame is dropped
    exactly in the runs in which no completion is polled while its handler is between
    `StartWrite` and the insertion. -/
theorem authorised_before_ready {tr : List LargeAct} (h : largeMachine.Run tr s) :
    ((∀ tr₁ tr₂ s₁, tr = tr₁ ++ tr₂ → largeMachine.Run tr₁ s₁ → s₁.Ready) ↔ ∀ a ∈ tr, a.authorises = false) ∧
    (s.dropped = [] ↔
      ∀ tr₁ tr₂ s₁, tr = tr₁ ++ .pollDataRecv :: tr₂ → largeMachine.Run tr₁ s₁ → ¬ s₁.Early) := by
  refine ⟨⟨fun hready a ha => ?_, fun hnone tr₁ tr₂ s₁ heq hr au hau => ?_⟩, ?_⟩
  · obtain ⟨tr₁, tr₂, rfl⟩ := List.append_of_mem ha
    obtain ⟨s₁, s₂, hr₁, hn, hr₂⟩ := h.at
    have hready₂ := hready (tr₁ ++ [a]) tr₂ s₂ (by simp) hr₂
    cases a with
    | step pc ok =>
      cases pc with
      | startWrite mr rpcId posted => exact absurd hready₂ ((largeInv_run hr₁).not_ready hn)
      | _ => rfl
    | _ => rfl
  · have hzero := authorised_eq_zero hr fun a ha => hnone a (heq ▸ List.mem_append_left _ ha)
    rw [hzero] at hau
    exact absurd hau (Multiset.notMem_zero au)
  · rw [dropped_eq_nil h]
    constructor
    · intro hall tr₁ tr₂ s₁ heq hr
      exact hall tr₁ _ tr₂ heq rfl s₁ hr
    · rintro hall tr₁ a tr₂ heq rfl s₁ hr
      exact hall tr₁ tr₂ s₁ heq hr

/-- The insertion is made in time, and still the receiver was not ready in between. -/
def insertedInTime : List LargeAct :=
  [.notify true 1 (some ⟨5, 4096⟩), .step (.postLargeWriteRecv ⟨5, 4096⟩ 1) true,
    .step (.startWrite ⟨5, 4096⟩ 1 true) true, .transmit, .step (.insert ⟨5, 4096⟩) true,
    .authority ⟨1, 5, 4096⟩ true, .deliver, .pollDataRecv]

theorem insertedInTime_received : ∃ s, largeMachine.Run insertedInTime s ∧ s.frames = {⟨5, 4096⟩} ∧
    (∀ tr₁ tr₂ s₁, insertedInTime = tr₁ ++ .pollDataRecv :: tr₂ → largeMachine.Run tr₁ s₁ → ¬ s₁.Early) ∧
    ¬ ∀ tr₁ tr₂ s₁, insertedInTime = tr₁ ++ tr₂ → largeMachine.Run tr₁ s₁ → s₁.Ready := by
  have hexec : ∃ s, largeMachine.Run insertedInTime s ∧ s.frames = {⟨5, 4096⟩} ∧ s.dropped = [] :=
    Machine.exists_run rfl (by decide +kernel)
  obtain ⟨s, hrun, hframes, hdropped⟩ := hexec
  obtain ⟨hready, hdrop⟩ := authorised_before_ready hrun
  refine ⟨s, hrun, hframes, hdrop.mp hdropped, fun hall => ?_⟩
  have := hready.mp hall (.step (.startWrite ⟨5, 4096⟩ 1 true) true) (by decide)
  cases this

end

/-- The answer overtakes the handler: the frame is dropped and its region stays in the map. And
    a receive that was not posted is authorised all the same. -/
theorem answer_overtakes :
    (∃ s, largeMachine.Run [.notify true 1 (some ⟨5, 4096⟩), .step (.postLargeWriteRecv ⟨5, 4096⟩ 1) true,
      .step (.startWrite ⟨5, 4096⟩ 1 true) true, .transmit, .authority ⟨1, 5, 4096⟩ true, .deliver, .pollDataRecv,
      .step (.insert ⟨5, 4096⟩) true] s ∧
      s.dropped = [5] ∧ s.frames = 0 ∧ s.pendingLargeMap = [⟨5, 4096⟩]) ∧
    (∃ s, largeMachine.Run [.notify true 1 (some ⟨5, 4096⟩), .step (.postLargeWriteRecv ⟨5, 4096⟩ 1) false,
      .step (.startWrite ⟨5, 4096⟩ 1 false) true] s ∧
      s.authorised = {⟨⟨5, 4096⟩, false⟩} ∧ s.writeQueue = [⟨1, 5, 4096⟩] ∧ s.recvs = 0 ∧ s.pendingLargeMap = []) :=
  ⟨Machine.exists_run rfl (by decide +kernel), Machine.exists_run rfl (by decide +kernel)⟩

end LightRpc.LargeTransfer

import LightRpc.SlotShares

/- The history of a slot, generation by generation.

   Some events happen once in the life of a generation. `total` says for how many
   generations they are due, `owes` which of them a thread is still going to make, and
   the ledger of `Logged` that the two and the history agree. `Allowed` is what the past
   of a slot says about an event. -/
namespace LightRpc.VersionedRef

open Lib Generations AdditionalRefStatus Multiset List Slot

variable {c : Call} {id : VRefId} {choice : Choice} {r : Outcome}

/-! Events that are still to come. -/

def Owner.owes (k : EventKind) (o : Owner) : List VRefId := if k = .setFailed 0 then [o.id] else []

def Reference.owes (k : EventKind) : Reference → List VRefId
  | .held _ => []
  | .additional o => o.owes k

def Recycler.owes (k : EventKind) : Recycler → List VRefId
  | .addressImpl _ => []
  | .dereference r => r.owes k

def Pc.owes (k : EventKind) : Pc → List VRefId
  | .onFailed o => (if k = .onFailed then [o.id] else []) ++ o.owes k
  | .releaseAdditional o => o.owes k
  | .dereference r | .fetchSub r _ | .exchangeDereferenced r _ _ => r.owes k
  | .beforeRecycled c id => (if k = .beforeRecycled ∨ k = .returned then [id] else []) ++ c.owes k
  | .returnResource c id => (if k = .returned then [id] else []) ++ c.owes k
  | _ => []

/-- The number of generations that have come to an event of the kind. -/
def Slot.total (a : Slot) : EventKind → Option Nat
  | .begun => some (a.gen + Slot.begun a)
  | .failed | .onFailed => some (a.gen + Slot.failed a)
  | .setFailed rc => if rc = 0 then some (a.gen + Slot.failed a) else none
  | .beforeRecycled | .returned => some a.gen
  | .created | .addressed _ _ => none

def Slot.current (slot : ResourceId) (a : Slot) : Option VRefId :=
  match a.phase with
  | .building | .live | .failed => some (idOf slot a.gen)
  | .cleaning => some (idOf slot (a.gen - 1))
  | .free | .taken => none

/-- What the past `h` of the slot says about an event. -/
def Allowed (h : List Event) (e : Event) : Prop :=
  match e.kind with
  | .addressed failedAsWell rc =>
    rc = 0 ∧ current h = some e.id ∧ ⟨.created, e.id⟩ ∈ h ∧ ⟨.failed, e.id⟩ ∉ h ∨
    rc = 1 ∧ failedAsWell = true ∧ current h = some e.id ∧ ⟨.created, e.id⟩ ∈ h ∧ ⟨.failed, e.id⟩ ∈ h ∧
      ⟨.beforeRecycled, e.id⟩ ∉ h ∨
    rc = -1 ∧ (failedAsWell = false → ⟨.failed, e.id⟩ ∈ h)
  | .setFailed rc => rc = 0 ∨ rc = -1 ∧ ⟨.failed, e.id⟩ ∈ h
  | _ => True

/-- What the history says about the id of a call of `AddressImpl`. -/
def Pc.CallOk (h : List Event) : Pc → Prop
  | .address c => ⟨.created, c.id⟩ ∈ h
  | .unaddress c _ | .exchangeAddressed c _ | .beforeRecycled (.addressImpl c) _
  | .returnResource (.addressImpl c) _ => c.failedAsWell = false → ⟨.failed, c.id⟩ ∈ h
  | _ => True

theorem Pc.CallOk.mono {h : List Event} {pc : Pc} (hok : pc.CallOk h) (es : List Event) : pc.CallOk (h ++ es) := by
  cases pc with
  | address c => exact mem_append_left es hok
  | unaddress c _ | exchangeAddressed c _ => exact fun hc => mem_append_left es (hok hc)
  | beforeRecycled k _ | returnResource k _ =>
    cases k with
    | addressImpl c => exact fun hc => mem_append_left es (hok hc)
    | dereference r => trivial
  | _ => trivial

structure Logged (slot : ResourceId) (h : List Event) (T : Multiset Pc) (a : Slot) : Prop where
  ledger : ∀ k n, Slot.total a k = some n →
    (idsOf k h : Multiset VRefId) + T.bind (fun pc => (pc.owes k : Multiset VRefId)) = ids slot n
  created : ∀ id, ⟨.created, id⟩ ∈ h →
    ∃ k, id = idOf slot k ∧ (k < a.gen ∨ k = a.gen ∧ (a.phase = .live ∨ a.phase = .failed))
  calls : ∀ pc ∈ T, pc.CallOk h
  current : current h = Slot.current slot a
  along : Along Allowed h

section
variable {slot : ResourceId} {m m' : SlotMem} {a a' : Slot} {pc : Pc} {pcs : List Pc} {R T : Multiset Pc}
  {h es : List Event} {k : EventKind} {n : Nat}

/-! What the history says of the generations. -/

theorem Logged.mem_ids (hl : Logged slot h T a) (ht : total a k = some n) (hid : ⟨k, id⟩ ∈ h) : id ∈ ids slot n := by
  have hmem : id ∈ (idsOf k h : Multiset VRefId) + T.bind (fun pc => (pc.owes k : Multiset VRefId)) :=
    mem_add.mpr (.inl (mem_idsOf.mpr hid))
  rw [hl.ledger k n ht] at hmem
  exact hmem

theorem owes_nothing (hk : k = .begun ∨ k = .failed) (pc : Pc) : pc.owes k = [] := by
  rcases hk with rfl | rfl <;> cases pc with
  | beforeRecycled c _ | returnResource c _ =>
    rcases c with c | ⟨_ | o⟩ <;> simp [Pc.owes, Recycler.owes, Reference.owes, Owner.owes]
  | dereference r | fetchSub r _ | exchangeDereferenced r _ _ =>
    cases r <;> simp [Pc.owes, Reference.owes, Owner.owes]
  | _ => simp [Pc.owes, Owner.owes]

/-- Events no thread owes are all there. -/
theorem Logged.perm_ids (hl : Logged slot h T a) (ht : total a k = some n) (hk : k = .begun ∨ k = .failed) :
    (idsOf k h).Perm (ids slot n) := by
  have hnone : T.bind (fun pc => (pc.owes k : Multiset VRefId)) = 0 := by
    simp [owes_nothing hk]
  have hledger := hl.ledger k n ht
  rw [hnone, add_zero] at hledger
  exact coe_eq_coe.mp hledger

theorem Logged.failed_iff (hl : Logged slot h T a) {g : Nat} : ⟨.failed, idOf slot g⟩ ∈ h ↔ g < a.gen + failed a := by
  rw [← mem_idsOf, (hl.perm_ids rfl (.inr rfl)).mem_iff, idOf_mem_ids]

theorem Logged.begun_length (hl : Logged slot h T a) : (idsOf .begun h).length = a.gen + begun a := by
  rw [(hl.perm_ids rfl (.inl rfl)).length_eq, ids, length_map, length_range]

theorem Logged.head_call (hl : Logged slot h (pc ::ₘ R) a) : pc.CallOk h :=
  hl.calls pc (mem_cons_self pc R)

/-! Histories grow. -/

theorem current_concat (h : List Event) (e : Event) : current (h ++ [e]) =
    match e.kind with
    | .begun => some e.id
    | .returned => none
    | _ => current h := by
  rw [current, foldl_append]
  rfl

theorem Logged.step (hl : Logged slot h (pc ::ₘ R) a)
    (hledger : ∀ k n', Slot.total a' k = some n' → ∃ n new, Slot.total a k = some n ∧
      ids slot n' = ids slot n ++ new ∧ (idsOf k es ++ pcs.flatMap (Pc.owes k)).Perm (pc.owes k ++ new))
    (hcreated : ∀ id, ⟨.created, id⟩ ∈ h ++ es →
      ∃ k, id = idOf slot k ∧ (k < a'.gen ∨ k = a'.gen ∧ (a'.phase = .live ∨ a'.phase = .failed)))
    (hcalls : ∀ pc' ∈ pcs, pc'.CallOk h)
    (hcurrent : VersionedRef.current (h ++ es) = Slot.current slot a') (halong : Along Allowed (h ++ es)) :
    Logged slot (h ++ es) (pcs + R) a' where
  ledger := by
    intro k n' ht
    obtain ⟨n, new, hn, hids, hperm⟩ := hledger k n' ht
    have hold := hl.ledger k n hn
    have hperm : ((idsOf k es : Multiset VRefId) + (pcs.flatMap (Pc.owes k) : List VRefId)) =
        (pc.owes k : Multiset VRefId) + (new : Multiset VRefId) := by
      rw [coe_add, coe_add]
      exact coe_eq_coe.mpr hperm
    rw [cons_bind] at hold
    rw [idsOf_append, ← coe_add, add_bind, coe_bind, hids, ← coe_add, ← hold,
      add_assoc, ← add_assoc (idsOf k es : Multiset VRefId), hperm]
    abel
  created := hcreated
  calls := by
    intro pc' hpc'
    rcases mem_add.mp hpc' with hnew | hold
    · exact (hcalls pc' hnew).mono es
    · exact (hl.calls pc' (mem_cons_of_mem hold)).mono es
  current := hcurrent
  along := halong

theorem current_quiet : ∀ {es : List Event}, (∀ e ∈ es, e.kind ≠ .begun ∧ e.kind ≠ .returned) → ∀ (h : List Event),
    VersionedRef.current (h ++ es) = VersionedRef.current h
  | [], _, h => by rw [append_nil]
  | e :: es, hq, h => by
    obtain ⟨hb, hr⟩ := hq e mem_cons_self
    rw [append_cons, current_quiet (fun e' he' => hq e' (mem_cons_of_mem e he')), current_concat]
    split
    · exact absurd ‹e.kind = .begun› hb
    · exact absurd ‹e.kind = .returned› hr
    · rfl

theorem ledger_same (htotal : total a' = total a)
    (hledger : ∀ k n, total a k = some n → (idsOf k es ++ pcs.flatMap (Pc.owes k)).Perm (pc.owes k)) :
    ∀ k n', total a' k = some n' → ∃ n new, total a k = some n ∧
      ids slot n' = ids slot n ++ new ∧ (idsOf k es ++ pcs.flatMap (Pc.owes k)).Perm (pc.owes k ++ new) := by
  intro k n ht
  rw [htotal] at ht
  exact ⟨n, [], ht, (append_nil _).symm, by simpa using hledger k n ht⟩

theorem Slot.total_congr (hgen : a'.gen = a.gen) (hbegun : begun a' = begun a)
    (hfailed : failed a' = failed a) : total a' = total a := by
  funext k
  simp only [total, hgen, hbegun, hfailed]

/-- A step that leaves the generation and its phase. -/
theorem Logged.quiet (hl : Logged slot h (pc ::ₘ R) a) (hgen : a'.gen = a.gen) (hphase : a'.phase = a.phase)
    (hledger : ∀ k n, Slot.total a k = some n → (idsOf k es ++ pcs.flatMap (Pc.owes k)).Perm (pc.owes k))
    (hq : ∀ e ∈ es, e.kind ≠ .begun ∧ e.kind ≠ .created ∧ e.kind ≠ .returned) (hcalls : ∀ pc' ∈ pcs, pc'.CallOk h)
    (halong : Along Allowed (h ++ es)) : Logged slot (h ++ es) (pcs + R) a' := by
  have htotal : Slot.total a' = Slot.total a :=
    Slot.total_congr hgen (by simp only [Slot.begun, hphase]) (by simp only [Slot.failed, hphase])
  refine hl.step (ledger_same htotal hledger) ?_ hcalls ?_ halong
  · intro id hid
    rw [hgen, hphase]
    rcases mem_append.mp hid with hid | hid
    · exact hl.created id hid
    · exact absurd rfl (hq _ hid).2.1
  · rw [current_quiet (fun e he => ⟨(hq e he).1, (hq e he).2.2⟩), hl.current, Slot.current, Slot.current, hgen, hphase]

theorem Logged.silent (hl : Logged slot h (pc ::ₘ R) a) (hgen : a'.gen = a.gen) (hphase : a'.phase = a.phase)
    (hledger : ∀ k, pcs.flatMap (Pc.owes k) = pc.owes k) (hcalls : ∀ pc' ∈ pcs, pc'.CallOk h) :
    Logged slot (h ++ []) (pcs + R) a' := by
  refine hl.quiet hgen hphase (fun k n _ => ?_) nofun hcalls ?_
  · rw [hledger k]
    rfl
  · rw [append_nil]
    exact hl.along

/-! The steps of `Create`. -/

def Kept (slot : ResourceId) (r : Outcome) (R : Multiset Pc) (h : List Event) : Prop :=
  ∃ a, Fits slot r.1 (r.2.1 + R) a ∧ Logged slot (h ++ r.2.2) (r.2.1 + R) a

/-- A step that only moves its thread on. -/
theorem moved_kept (hf : Fits slot m (pc ::ₘ R) a) (hl : Logged slot h (pc ::ₘ R) a)
    (hshares : pcs.flatMap Pc.shares = pc.shares) (hwf : ∀ pc' ∈ pcs, pc'.Wf slot m)
    (howes : ∀ k, pcs.flatMap (Pc.owes k) = pc.owes k) (hcalls : ∀ pc' ∈ pcs, pc'.CallOk h) :
    Kept slot (m, pcs, []) R h := by
  refine ⟨a, hf.step ?_ hf.mem hwf (.inl ⟨rfl, rfl⟩), hl.silent rfl rfl howes hcalls⟩
  rw [hshares]
  exact hf.front

/-- `Create` counts the generation's own reference, and begins it. -/
theorem create_kept (hf : Fits slot m (.create ::ₘ R) a) (hl : Logged slot h (.create ::ₘ R) a)
    (hsmall : a.count + 1 < 2 ^ 31) (hbound : 2 * ((idsOf .begun h).length + 1) < 2 ^ 32) :
    Kept slot (m.fetchAdd, [.storeId (m.createdId slot)], [⟨.begun, m.createdId slot⟩]) R h := by
  have hs := hf.share rfl
  have hp : a.phase = .taken := hs.head_valid
  have hver : version a = 2 * a.gen := version_unfailed (by simp [hp])
  have hlen : (idsOf .begun h).length = a.gen := by simpa [begun, hp] using hl.begun_length
  have hgen : 2 * (a.gen + 1) < 2 ^ 32 := by rwa [hlen] at hbound
  have hid : m.createdId slot = idOf slot a.gen := by
    rw [SlotMem.createdId, hf.mem.versionOf, hver, idOf]
  have hmem := hf.mem.incremented hsmall
  refine ⟨{ a with phase := .building, count := a.count + 1 },
    hf.step ?_ ?_ ?_ (.inl ⟨rfl, rfl⟩), hl.step ?_ ?_ (by simp [Pc.CallOk]) ?_ ?_⟩
  · have hg : genOf (idOf slot a.gen) = a.gen := genOf_idOf (by omega)
    simpa [Pc.shares, hid, hg] using hs.start
  · exact {
      word := by simpa [version, failed, hp] using hmem.word
      small := hmem.small
      room := by simpa [begun] using hgen
      pooled := by simpa [hp] using hmem.pooled
      named := by simp
      cleaned := by simp
      counting := by simp
      sound := hmem.sound }
  · rw [hid]
    exact forall_mem_singleton.mpr (proper_idOf (by omega))
  · intro k n' ht
    cases k with
    | begun =>
      cases ht
      exact ⟨a.gen, [idOf slot a.gen], by simp [total, begun, hp], ids_succ slot a.gen,
        by simp [idsOf, Pc.owes, hid]⟩
    | _ =>
      exact ⟨n', [], by simp_all [total, failed], by simp, by simp [idsOf, Pc.owes]⟩
  · intro id hid'
    obtain ⟨g, rfl, hg⟩ := hl.created id (by simpa using hid')
    exact ⟨g, rfl, .inl (by simpa [hp] using hg)⟩
  · rw [current_concat, hid]
    rfl
  · exact hl.along.concat trivial

/-- `Create` returns: the id is in the caller's hands. -/
theorem returnId_kept (hf : Fits slot m (.returnId id ::ₘ R) a) (hl : Logged slot h (.returnId id ::ₘ R) a) :
    Kept slot (m, [], [⟨.created, m.thisId⟩]) R h := by
  have hs := hf.share rfl
  obtain ⟨hg, hp⟩ := hs.head_valid
  obtain ⟨hproper, hid, hstatus⟩ := hf.head_wf
  have hthis : m.thisId = idOf slot a.gen := by rw [hid, hproper, hg]
  refine ⟨{ a with phase := .live }, hf.step ?_ ?_ (by simp) (.inl ⟨rfl, rfl⟩), hl.step ?_ ?_ (by simp) ?_ ?_⟩
  · simpa using hs.publish
  · exact { hf.mem with
      word := by simpa [Slot.version, Slot.failed, hp] using hf.mem.word
      room := by simpa [Slot.begun, hp] using hf.mem.room
      pooled := by simpa [hp] using hf.mem.pooled
      named := fun _ => hthis
      cleaned := by simp
      counting := fun _ => hstatus }
  · refine ledger_same (Slot.total_congr rfl ?_ ?_) fun k n ht => ?_
    · simp [Slot.begun, hp]
    · simp [Slot.failed, hp]
    · cases k <;> simp [Slot.total] at ht <;> simp [idsOf, Pc.owes]
  · intro id hid'
    rcases mem_append.mp hid' with hold | hnew
    · obtain ⟨g, rfl, hg⟩ := hl.created id hold
      exact ⟨g, rfl, .inl (by simpa [hp] using hg)⟩
    · have : id = m.thisId := by simpa using hnew
      exact ⟨a.gen, this.trans hthis, .inr ⟨rfl, .inl rfl⟩⟩
  · rw [current_concat, hl.current, Slot.current, Slot.current, hp]
  · exact hl.along.concat trivial

theorem createStep_kept (hf : Fits slot m (pc ::ₘ R) a) (hl : Logged slot h (pc ::ₘ R) a)
    (hb : withinBounds ⟨m, pc ::ₘ R, h⟩ (.step pc choice)) (hstep : createStep slot m pc choice = some r) :
    Kept slot r R h := by
  have hw := hf.head_wf
  revert hstep
  fun_cases createStep slot m pc choice <;> intro hstep <;> cases hstep
  · simp only [withinBounds, hf.mem.nrefOf, Bool.and_eq_true, decide_eq_true_eq] at hb
    exact create_kept hf hl (by omega) (by omega)
  · -- `storeId`
    have hs := hf.share rfl
    obtain ⟨_, hp⟩ := hs.head_valid
    refine ⟨a, hf.step ?_ ?_ ?_ (.inr (hs.others rfl).2), hl.silent rfl rfl (fun k => rfl) (by simp [Pc.CallOk])⟩
    · simpa [Pc.shares] using hs
    · exact { hf.mem with named := by simp [hp], cleaned := by simp [hp] }
    · exact forall_mem_singleton.mpr ⟨hw, rfl⟩
  · -- `storeStatus`
    have hs := hf.share rfl
    obtain ⟨_, hp⟩ := hs.head_valid
    refine ⟨a, hf.step ?_ ?_ ?_ (.inr (hs.others rfl).2), hl.silent rfl rfl (fun k => rfl) (by simp [Pc.CallOk])⟩
    · simpa [Pc.shares] using hs
    · exact { hf.mem with counting := by simp [hp] }
    · exact forall_mem_singleton.mpr ⟨hw.1, hw.2, rfl⟩
  · exact moved_kept hf hl rfl (forall_mem_singleton.mpr hw) (fun k => rfl) (by simp [Pc.CallOk])
  · exact moved_kept hf hl rfl (forall_mem_singleton.mpr hw) (fun k => rfl) (by simp [Pc.CallOk])
  · exact returnId_kept hf hl

/-! The steps of `AddressImpl`. -/

/-- An id that `Create` returned, against the generation in the slot. -/
theorem Logged.known (hl : Logged slot h T a) (hm : MemFits slot m a) (hid : ⟨.created, id⟩ ∈ h) :
    Proper slot id ∧ versionOfVRefId id = 2 * genOf id ∧
      (genOf id < a.gen ∨ genOf id = a.gen ∧ (a.phase = .live ∨ a.phase = .failed)) := by
  obtain ⟨g, rfl, hg⟩ := hl.created id hid
  have hlt : 2 * g < 2 ^ 32 := by
    have := hm.room
    omega
  rw [genOf_idOf hlt]
  exact ⟨proper_idOf hlt, versionOfVRefId_idOf hlt, hg⟩

theorem Call.refused_quiet (c : Call) : ∀ e ∈ c.refused, e.kind ≠ .begun ∧ e.kind ≠ .created ∧ e.kind ≠ .returned := by
  cases c <;> simp [Call.refused]

theorem Call.refused_untracked (c : Call) {k : EventKind} (ht : total a k = some n) : idsOf k c.refused = [] := by
  cases k <;> simp [total] at ht <;> cases c <;> simp [idsOf, Call.refused, ht]

theorem Call.refused_along (hold : Along Allowed h) (hc : c.failedAsWell = false → ⟨.failed, c.id⟩ ∈ h) :
    Along Allowed (h ++ c.refused) := by
  have hfirst : Along Allowed (h ++ [⟨.addressed c.failedAsWell (-1), c.id⟩]) :=
    hold.concat (.inr (.inr ⟨rfl, hc⟩))
  cases c with
  | address id | addressFailedAsWell id => exact hfirst
  | setFailedById id =>
    have hsecond : Allowed (h ++ [⟨.addressed false (-1), id⟩]) ⟨.setFailed (-1), id⟩ :=
      .inr ⟨rfl, mem_append_left _ (hc rfl)⟩
    have := hfirst.concat hsecond
    rwa [append_assoc] at this

/-- A call of `AddressImpl` ends without a reference. -/
theorem Logged.refuse (hl : Logged slot h (pc ::ₘ R) a) (hgen : a'.gen = a.gen) (hphase : a'.phase = a.phase)
    (howes : ∀ k, pc.owes k = []) (hc : c.failedAsWell = false → ⟨.failed, c.id⟩ ∈ h) :
    Logged slot (h ++ c.refused) (([] : List Pc) + R) a' := by
  refine hl.quiet hgen hphase (fun k n ht => ?_) c.refused_quiet nofun (Call.refused_along hl.along hc)
  rw [c.refused_untracked ht, howes]
  rfl

/-- The exchange that recycles the generation, by whichever call makes it. -/
theorem recycled_kept {k : Recycler} {l : List Share} (hf : Fits slot m (pc ::ₘ R) a)
    (hl : Logged slot h (pc ::ₘ R) a) (hshares : pc.shares = .attempt a.gen :: l) (hp : a.phase = .failed)
    (hzero : a.count = 0) (hid : id = idOf slot a.gen) (hheld : refs k.held = l) (hk : k.Wf slot)
    (howes : ∀ kind, pc.owes kind = k.owes kind) (hcall : (Pc.beforeRecycled k id).CallOk h) {w : Nat}
    (hword : w = pack (2 * (a.gen + 1)) 0) :
    Kept slot ({ m with versionedRef := w }, [.beforeRecycled k id], []) R h := by
  have hroom := hf.mem.room
  simp only [Slot.begun, hp] at hroom
  simp at hroom
  have hg : genOf (idOf slot a.gen) = a.gen := genOf_idOf (by omega)
  have hs := hf.front
  rw [hshares, coe_cons_add] at hs
  subst hid
  refine ⟨⟨a.gen + 1, .cleaning, 0⟩, hf.step ?_ ?_ ?_ (.inl ⟨rfl, rfl⟩), hl.step ?_ ?_ ?_ ?_ ?_⟩
  · simpa [Pc.shares, hg, hheld, coe_cons_add] using hs.recycle hp hzero
  · exact {
      word := by simpa [Slot.version, Slot.failed] using hword
      small := Nat.two_pow_pos 31
      room := by simpa [Slot.begun] using hroom
      pooled := by simpa [hp] using hf.mem.pooled
      named := by simp
      cleaned := fun _ => hf.mem.named (.inr hp)
      counting := by simp
      sound := hf.mem.sound }
  · exact forall_mem_singleton.mpr ⟨proper_idOf (by omega), hk⟩
  · intro kind n' ht
    cases kind with
    | beforeRecycled | returned =>
      cases ht
      refine ⟨a.gen, [idOf slot a.gen], rfl, ids_succ slot a.gen, ?_⟩
      rw [howes]
      simpa [idsOf, Pc.owes] using (perm_append_singleton _ _).symm
    | _ =>
      refine ⟨n', [], by simp_all [Slot.total, Slot.begun, Slot.failed], by simp, ?_⟩
      rw [howes]
      simp [idsOf, Pc.owes]
  · intro id hid
    obtain ⟨g, rfl, hg⟩ := hl.created id (by simpa using hid)
    refine ⟨g, rfl, .inl ?_⟩
    show g < a.gen + 1
    omega
  · exact forall_mem_singleton.mpr hcall
  · rw [append_nil, hl.current, Slot.current, Slot.current, hp]
    rfl
  · rw [append_nil]
    exact hl.along

theorem Call.accepted_wf (hc : Proper slot c.id) : c.accepted.Wf slot m := by
  cases c <;> exact hc

section

variable (hf : Fits slot m (.address c ::ₘ R) a) (hl : Logged slot h (.address c ::ₘ R) a) (hsmall : a.count + 1 < 2 ^ 31)

include hf hl hsmall

/-- `AddressImpl` returns with a reference to the generation in the slot. -/
theorem accepted_kept {rc : Int} (hproper : Proper slot c.id) (hg : genOf c.id = a.gen)
    (hp : a.phase = .live ∨ a.phase = .failed) (hok : Allowed h ⟨.addressed c.failedAsWell rc, c.id⟩) :
    Kept slot (m.fetchAdd, [c.accepted], [⟨.addressed c.failedAsWell rc, c.id⟩]) R h := by
  refine ⟨{ a with count := a.count + 1 }, hf.step ?_ (hf.mem.incremented hsmall) ?_ (.inl ⟨rfl, rfl⟩),
    hl.quiet rfl rfl (fun k n ht => ?_) (by simp) ?_ (hl.along.concat hok)⟩
  · have hs : Generations.Inv a (sharesOf R) := by simpa [Pc.shares] using hf.front
    simpa [Call.accepted_shares, hg] using hs.join hp
  · exact forall_mem_singleton.mpr (Call.accepted_wf hproper)
  · cases k <;> simp [total] at ht <;> cases c <;> simp [idsOf, Call.accepted, Pc.owes]
  · cases c <;> simp [Call.accepted, Pc.CallOk]

/-- The version matches: the generation is live. -/
theorem address_live_kept (heq : versionOfVRef m.versionedRef = versionOfVRefId c.id) :
    Kept slot (m.fetchAdd, [c.accepted], [⟨.addressed c.failedAsWell 0, c.id⟩]) R h := by
  have hcall := hl.head_call
  obtain ⟨hproper, hidver, hg⟩ := hl.known hf.mem hcall
  rw [hf.mem.versionOf, hidver] at heq
  have hlive : genOf c.id = a.gen ∧ a.phase = .live := by
    rcases Slot.version_cases a with ⟨_, hver⟩ | ⟨hp, hver⟩
    · omega
    · have hgen : genOf c.id = a.gen := by omega
      rcases hg with hg | ⟨_, hg⟩
      · omega
      · exact ⟨hgen, hg.resolve_right hp⟩
  obtain ⟨hg, hp⟩ := hlive
  have hid : c.id = idOf slot a.gen := by rw [← hg]; exact hproper
  refine accepted_kept hf hl hsmall hproper hg (.inl hp) (.inl ⟨rfl, ?_, hcall, ?_⟩)
  · rw [hl.current, Slot.current, hp, hid]
  · rw [hid, hl.failed_iff, Slot.failed, hp]
    simp

/-- The version after it, for `AddressFailedAsWell`: the generation has failed. -/
theorem address_failed_kept (hfa : c.failedAsWell)
    (heq : versionOfVRef m.versionedRef = (versionOfVRefId c.id + 1) % 2 ^ 32) :
    Kept slot (m.fetchAdd, [c.accepted], [⟨.addressed c.failedAsWell 1, c.id⟩]) R h := by
  have hcall := hl.head_call
  obtain ⟨hproper, hidver, _⟩ := hl.known hf.mem hcall
  rw [hf.mem.versionOf, hidver] at heq
  have hlt := genOf_lt c.id
  have hfailed : genOf c.id = a.gen ∧ a.phase = .failed := by
    rcases Slot.version_cases a with ⟨hp, hver⟩ | ⟨_, hver⟩
    · exact ⟨by omega, hp⟩
    · omega
  obtain ⟨hg, hp⟩ := hfailed
  have hid : c.id = idOf slot a.gen := by rw [← hg]; exact hproper
  refine accepted_kept hf hl hsmall hproper hg (.inr hp) (.inr (.inl ⟨rfl, hfa, ?_, hcall, ?_, ?_⟩))
  · rw [hl.current, Slot.current, hp, hid]
  · rw [hid, hl.failed_iff, Slot.failed, hp]
    simp
  · rw [hid]
    intro hmem
    have := idOf_mem_ids.mp (hl.mem_ids rfl hmem)
    omega

/-- Another generation: the count is one too high until `unaddress`. -/
theorem address_other_kept (hne : versionOfVRef m.versionedRef ≠ versionOfVRefId c.id) :
    Kept slot (m.fetchAdd, [.unaddress c (versionOfVRef m.versionedRef)], []) R h := by
  obtain ⟨hproper, hidver, hg⟩ := hl.known hf.mem hl.head_call
  have hs : Generations.Inv a (sharesOf R) := by simpa [Pc.shares] using hf.front
  refine ⟨{ a with count := a.count + 1 }, hf.step ?_ (hf.mem.incremented hsmall) ?_ (.inl ⟨rfl, rfl⟩),
    hl.silent rfl rfl (fun k => rfl) ?_⟩
  · have hshare : Pc.shares (.unaddress c (versionOfVRef m.versionedRef)) =
        [.probe a.gen (decide (a.phase = .failed))] := by
      rw [Pc.shares, hf.mem.versionOf]
      rcases version_cases a with ⟨hp, hver⟩ | ⟨hp, hver⟩
      · simp only [hver, hp, decide_true]
        rw [show (2 * a.gen + 1) / 2 = a.gen by omega, show (2 * a.gen + 1) % 2 = 1 by omega]
        rfl
      · simp [hver, hp]
    simpa [hshare] using hs.probe
  · exact forall_mem_singleton.mpr trivial
  · refine forall_mem_singleton.mpr fun hfa => ?_
    rw [hf.mem.versionOf, hidver, version] at hne
    rw [hproper, hl.failed_iff]
    rcases hg with hg | ⟨hg, _⟩ <;> omega

end

/-- `unaddress` takes back the last count of a failed generation. -/
theorem unaddress_last_kept {ver1 : Nat} (hf : Fits slot m (.unaddress c ver1 ::ₘ R) a)
    (hl : Logged slot h (.unaddress c ver1 ::ₘ R) a) (hcount : a.count = 1) (hp : a.phase = .failed) :
    Kept slot (m.fetchSub, [.exchangeAddressed c m.versionedRef], []) R h := by
  have hs := hf.share rfl
  have hver : version a = 2 * a.gen + 1 := version_failed hp
  have hcall := hl.head_call
  refine ⟨{ a with count := a.count - 1 }, hf.step ?_ (hf.mem.decremented (by omega)) ?_ (.inl ⟨rfl, rfl⟩),
    hl.silent rfl rfl (fun k => rfl) (forall_mem_singleton.mpr hcall)⟩
  · have hgen : versionOfVRef m.versionedRef / 2 = a.gen := by
      rw [hf.mem.versionOf]
      omega
    simpa [Pc.shares, hgen] using hs.drop_last rfl hp
  · refine forall_mem_singleton.mpr ⟨a.gen, ?_, ?_⟩
    · have := hf.mem.version_lt
      omega
    · rw [hf.mem.word, hver, hcount]

/-- The exchange of `AddressImpl` succeeds: the word is what `unaddress` left. -/
theorem exchangeAddressed_kept {vref2 : Nat} (hf : Fits slot m (.exchangeAddressed c vref2 ::ₘ R) a)
    (hl : Logged slot h (.exchangeAddressed c vref2 ::ₘ R) a) (heq : m.versionedRef = decremented vref2) :
    Kept slot ({ m with versionedRef := makeVRef ((versionOfVRef vref2 + 1) % 2 ^ 32) 0 },
      [.beforeRecycled (.addressImpl c) (makeVRefId (versionOfVRef vref2 - 1) slot)], []) R h := by
  obtain ⟨g, hlt, rfl⟩ := hf.head_wf
  obtain ⟨rfl, hp, hzero⟩ := hf.mem.recyclable_iff.mp heq
  have hroom : 2 * (a.gen + 1) < 2 ^ 32 := by simpa [begun, hp] using hf.mem.room
  have hvref : versionOfVRef (pack (2 * a.gen + 1) 1) = 2 * a.gen + 1 := versionOfVRef_pack hlt (by decide)
  have hcall := hl.head_call
  refine recycled_kept hf hl ?_ hp hzero ?_ (k := .addressImpl c) rfl trivial (fun k => rfl) hcall ?_
  · rw [Pc.shares, hvref, show (2 * a.gen + 1) / 2 = a.gen by omega]
    rfl
  · rw [hvref, idOf, Nat.add_sub_cancel]
  · rw [hvref, Nat.mod_eq_of_lt (by omega)]
    exact makeVRef_pack (by decide)

section

variable (hf : Fits slot m (pc ::ₘ R) a)

include hf

theorem addressStep_kept (hl : Logged slot h (pc ::ₘ R) a) (hb : withinBounds ⟨m, pc ::ₘ R, h⟩ (.step pc choice))
    (hstep : addressStep slot m pc choice = some r) : Kept slot r R h := by
  have hs := hf.front
  have hw := hf.head_wf
  have hcall := hl.head_call
  have hver := hf.mem.versionOf
  have hnref := hf.mem.nrefOf
  revert hstep
  fun_cases addressStep slot m pc choice <;> intro hstep <;> cases hstep
  · rename_i c heq
    simp only [withinBounds, hnref, decide_eq_true_eq] at hb
    exact address_live_kept hf hl (by omega) heq
  · rename_i c _ heq
    simp only [withinBounds, hnref, decide_eq_true_eq] at hb
    exact address_failed_kept hf hl (by omega) heq.1 heq.2
  · rename_i c hne _
    simp only [withinBounds, hnref, decide_eq_true_eq] at hb
    exact address_other_kept hf hl (by omega) hne
  · -- `unaddress` leaves others counted
    rename_i c ver1 hmore
    have hs := hf.share rfl
    have hpos := hs.own_lt_count rfl
    refine ⟨{ a with count := a.count - 1 }, hf.step ?_ (hf.mem.decremented (by omega)) (forall_mem_nil _) (.inl ⟨rfl, rfl⟩),
      hl.refuse rfl rfl (fun k => rfl) hcall⟩
    simpa using hs.drop rfl (fun _ => by omega)
  · rename_i c ver1 hmore hone hodd hvers
    rw [hver] at hodd
    rcases version_cases a with ⟨hp, _⟩ | ⟨_, heven⟩
    · exact unaddress_last_kept hf hl (by omega) hp
    · omega
  · -- the versions cannot differ by more: the count kept the generation in place
    exfalso
    rename_i c ver1 hmore hone hodd hvers
    have hs := hf.share rfl
    obtain ⟨hgen, _⟩ := hs.head_valid
    have hlt := hf.mem.version_lt
    rcases version_cases a with ⟨_, hv⟩ | ⟨_, hv⟩ <;> omega
  · rename_i c ver1 hmore hone heven
    have hs := hf.share rfl
    have hp : a.phase ≠ .failed := by
      intro hp
      rw [hver, version_failed hp] at heven
      omega
    refine ⟨{ a with count := a.count - 1 }, hf.step ?_ (hf.mem.decremented (by omega)) (forall_mem_nil _) (.inl ⟨rfl, rfl⟩),
      hl.refuse rfl rfl (fun k => rfl) hcall⟩
    simpa using hs.drop rfl (fun hp' => absurd hp' hp)
  · exfalso
    have hs := hf.share rfl
    have := hs.own_lt_count rfl
    omega
  · rename_i c vref2 heq
    exact exchangeAddressed_kept hf hl heq
  · -- the exchange fails: someone counted, or recycled before
    rename_i c vref2 hne
    obtain ⟨g, hlt, rfl⟩ := hw
    have hvref : versionOfVRef (pack (2 * g + 1) 1) = 2 * g + 1 := versionOfVRef_pack hlt (by decide)
    simp only [Pc.shares, coe_cons_add, coe_nil, zero_add, hvref] at hs
    refine ⟨a, hf.step ?_ hf.mem (forall_mem_nil _) (.inl ⟨rfl, rfl⟩), hl.refuse rfl rfl (fun k => rfl) hcall⟩
    have := hs.abandon fun hg hp hzero => hne (hf.mem.recyclable_iff.mpr ⟨by omega, hp, hzero⟩)
    simpa using this

/-! The steps of a holder, of `SetFailedImpl` and of `ReleaseAdditionalReference`. -/

theorem holderStep_kept (hl : Logged slot h (pc ::ₘ R) a) (hb : withinBounds ⟨m, pc ::ₘ R, h⟩ (.step pc choice))
    (hstep : holderStep m pc choice = some r) : Kept slot r R h := by
  have hw := hf.head_wf
  revert hstep
  fun_cases holderStep m pc choice <;> intro hstep <;> cases hstep
  · exact moved_kept hf hl rfl (forall_mem_singleton.mpr hw) (fun k => rfl) (forall_mem_singleton.mpr trivial)
  · rename_i id
    have hs := hf.share rfl
    obtain ⟨hg, hp⟩ := hs.head_valid
    simp only [withinBounds, hf.mem.nrefOf, decide_eq_true_eq] at hb
    refine ⟨{ a with count := a.count + 1 }, hf.step ?_ (hf.mem.incremented (by omega)) ?_ (.inl ⟨rfl, rfl⟩),
      hl.silent rfl rfl (fun k => rfl) ?_⟩
    · simpa [Pc.shares, coe_cons_add, hg] using hs.join hp
    · exact forall_mem_cons.mpr ⟨hw, forall_mem_singleton.mpr hw⟩
    · simp [Pc.CallOk]
  · exact moved_kept hf hl rfl (forall_mem_singleton.mpr hw) (fun k => rfl) (forall_mem_singleton.mpr trivial)

/-- The caller of `SetFailed` is about the generation in the slot, and keeps it there. -/
theorem Fits.owner {o : Owner} (hshares : pc.shares = o.shares) (ho : o.Wf slot m) :
    genOf o.id = a.gen ∧ m.thisId = o.id ∧
      (a.phase = .live ∨ a.phase = .failed ∧ o.held = [o.id] ∨
        a.phase = .building ∧ o.held = [] ∧ m.additionalRefStatus = ADDITIONAL_REF_USING) := by
  have hs := hf.front
  rw [hshares] at hs
  cases o with
  | holder id | byId id =>
    obtain ⟨hg, hp⟩ := hs.head_valid
    have hg : genOf id = a.gen := hg
    refine ⟨hg, ?_, hp.imp_right fun hp => .inl ⟨hp, rfl⟩⟩
    rw [hf.mem.named hp, ← hg]
    exact Eq.symm ho
  | creator id =>
    obtain ⟨hg, hp⟩ := hs.head_valid
    exact ⟨hg, ho.2.1, .inr (.inr ⟨hp, rfl, ho.2.2⟩)⟩

theorem tryFail_kept {o : Owner} {idVer : Nat} (hl : Logged slot h (pc ::ₘ R) a) (hshares : pc.shares = o.shares)
    (howes : ∀ k, pc.owes k = []) (ho : o.Wf slot m) (hver : idVer = versionOfVRefId o.id) :
    Kept slot (m, tryFail o idVer m.versionedRef) R h := by
  obtain ⟨hg, hthis, hphase⟩ := hf.owner hshares ho
  have hs := hf.front
  rw [hshares] at hs
  have hidver := ho.proper.version
  rw [tryFail]
  split
  · rename_i hne
    rw [hf.mem.versionOf, hver, hidver, hg, version] at hne
    have hp : a.phase = .failed := by
      by_contra hp
      rw [failed, if_neg hp] at hne
      exact hne rfl
    have hheld : o.shares = refs o.held := by
      cases o with
      | holder id | byId id => rfl
      | creator id => simp [hp] at hphase; simp [Owner.held] at hphase
    have hfailed : ⟨.failed, o.id⟩ ∈ h := by
      rw [ho.proper, hl.failed_iff, hg, failed, if_pos hp]
      omega
    refine ⟨a, hf.step ?_ hf.mem (Owner.resume_wf ho.proper) (.inl ⟨rfl, rfl⟩),
      hl.quiet rfl rfl (fun k n ht => ?_) (by simp) ?_ (hl.along.concat (.inr ⟨rfl, hfailed⟩))⟩
    · rw [o.resume_shares, ← hheld]
      exact hs
    · rw [howes]
      cases k <;> simp [total] at ht <;> cases o <;>
        simp [idsOf, Owner.resume, Pc.owes, Reference.owes, ht]
    · cases o <;> simp [Owner.resume, Pc.CallOk]
  · rename_i heq
    exact moved_kept hf hl ((append_nil _).trans hshares.symm)
      (forall_mem_singleton.mpr ⟨ho, hver, not_not.mp heq⟩) (fun k => (howes k).symm) (by simp [Pc.CallOk])

end

/-- The exchange of `SetFailedImpl` succeeds: this call fails the generation. -/
theorem exchangeVRef_kept {o : Owner} {idVer : Nat} (hf : Fits slot m (.exchangeVRef o idVer m.versionedRef ::ₘ R) a)
    (hl : Logged slot h (.exchangeVRef o idVer m.versionedRef ::ₘ R) a) :
    Kept slot ({ m with versionedRef := makeVRef ((idVer + 1) % 2 ^ 32) (nrefOfVRef m.versionedRef) },
      [.onFailed o], [⟨.failed, makeVRefId idVer slot⟩]) R h := by
  have hs := hf.front
  obtain ⟨ho, hidver, hvref⟩ := hf.head_wf
  obtain ⟨hg, hthis, hphase⟩ := hf.owner rfl ho
  have hver : Slot.version a = 2 * a.gen := by
    rw [← hf.mem.versionOf, hvref, hidver, ho.proper.version, hg]
  have hfailed : a.phase ≠ .failed := by
    intro hp
    rw [Slot.version, Slot.failed, if_pos hp] at hver
    omega
  have hshares : Generations.Inv { a with phase := .failed }
      (.extra a.gen ::ₘ ((refs o.held : List Share) + sharesOf R)) := by
    cases o with
    | holder id | byId id => exact hs.fail (by simpa [hfailed, Owner.held] using hphase)
    | creator id =>
      have hs : Generations.Inv a (.builder (genOf id) ::ₘ sharesOf R) := by
        simpa [Pc.shares, Owner.shares] using hs
      simpa [Owner.held, refs] using hs.fail_building
  have hbegun : Slot.begun a = 1 ∧ Slot.failed a = 0 ∧ a.phase ≠ .free ∧
      Slot.current slot a = some (idOf slot a.gen) := by
    rcases hphase with hp | ⟨hp, _⟩ | ⟨hp, _⟩
    · simp [Slot.begun, Slot.failed, Slot.current, hp]
    · exact absurd hp hfailed
    · simp [Slot.begun, Slot.failed, Slot.current, hp]
  obtain ⟨hbegun, hzero, hfree, hcurrent⟩ := hbegun
  have hstatus : m.additionalRefStatus = ADDITIONAL_REF_USING := by
    rcases hphase with hp | ⟨hp, _⟩ | ⟨_, _, hstatus⟩
    · exact hf.mem.counting hp
    · exact absurd hp hfailed
    · exact hstatus
  have hid : makeVRefId idVer slot = idOf slot a.gen := by rw [hidver, ho.proper.version, hg, idOf]
  have hoid : o.id = idOf slot a.gen := by rw [← hg]; exact ho.proper
  have hroom := hf.mem.room
  rw [hbegun] at hroom
  refine ⟨{ a with phase := .failed }, hf.step ?_ ?_ ?_ (.inl ⟨rfl, rfl⟩), hl.step ?_ ?_ ?_ ?_ ?_⟩
  · simpa [Pc.shares, coe_cons_add, hg] using hshares
  · exact { hf.mem with
      word := by
        have hsmall := hf.mem.small
        rw [hidver, ho.proper.version, hg, hf.mem.nrefOf, Nat.mod_eq_of_lt (by omega), makeVRef_pack (by omega)]
        simp [Slot.version, Slot.failed]
      room := by simpa [Slot.begun] using hroom
      pooled := by simpa [hfree] using hf.mem.pooled
      named := fun _ => hthis.trans hoid
      cleaned := by simp
      counting := by simp }
  · exact forall_mem_singleton.mpr ⟨ho.proper, hstatus⟩
  · intro k n' ht
    cases k with
    | failed | onFailed =>
      cases ht
      exact ⟨a.gen, [idOf slot a.gen], by simp [Slot.total, hzero], ids_succ slot a.gen,
        by simp [idsOf, Pc.owes, Owner.owes, hid, hoid]⟩
    | setFailed rc =>
      by_cases hrc : rc = 0
      · subst hrc
        cases ht
        exact ⟨a.gen, [idOf slot a.gen], by simp [Slot.total, hzero], ids_succ slot a.gen,
          by simp [idsOf, Pc.owes, Owner.owes, hoid]⟩
      · simp [Slot.total, hrc] at ht
    | begun =>
      refine ⟨n', [], ?_, by simp, by simp [idsOf, Pc.owes, Owner.owes]⟩
      show some (a.gen + Slot.begun a) = some n'
      rw [hbegun]
      exact ht
    | beforeRecycled | returned => exact ⟨n', [], ht, by simp, by simp [idsOf, Pc.owes, Owner.owes]⟩
    | created | addressed _ _ => cases ht
  · intro id hid'
    obtain ⟨g, rfl, hg⟩ := hl.created id (by simpa using hid')
    exact ⟨g, rfl, hg.imp_right fun hg => ⟨hg.1, .inr rfl⟩⟩
  · exact forall_mem_singleton.mpr trivial
  · rw [current_concat, hl.current, hcurrent]
    rfl
  · exact hl.along.concat trivial

theorem setFailedStep_kept (hf : Fits slot m (pc ::ₘ R) a) (hl : Logged slot h (pc ::ₘ R) a)
    (hstep : setFailedStep slot m pc choice = some r) : Kept slot r R h := by
  have hs := hf.front
  have hw := hf.head_wf
  revert hstep
  fun_cases setFailedStep slot m pc choice <;> intro hstep <;> cases hstep
  · -- `setFailed`
    rename_i o
    obtain ⟨_, hthis, _⟩ := hf.owner rfl hw
    exact moved_kept hf hl (append_nil _) (forall_mem_singleton.mpr ⟨hw, by rw [hthis]⟩) (fun k => rfl)
      (forall_mem_singleton.mpr trivial)
  · exact tryFail_kept hf hl rfl (fun k => rfl) hw.1 hw.2
  · exact exchangeVRef_kept hf hl
  · exact tryFail_kept hf hl rfl (fun k => rfl) hw.1 hw.2.1
  · -- `OnFailed`
    rename_i o
    simp only [Pc.shares, coe_cons_add] at hs
    obtain ⟨hg, hp⟩ := hs.head_valid
    have hthis : m.thisId = o.id := by
      rw [hf.mem.named (.inr hp), ← hg]
      exact Eq.symm hw.1
    refine ⟨a, hf.step ?_ hf.mem (forall_mem_singleton.mpr hw) (.inl ⟨rfl, rfl⟩),
      hl.quiet rfl rfl (fun k n ht => ?_) (by simp) (forall_mem_singleton.mpr trivial) (hl.along.concat trivial)⟩
    · simpa [Pc.shares, coe_cons_add] using hs
    · by_cases hk : k = .onFailed
      · subst hk
        simp [idsOf, Pc.owes, Owner.owes, hthis]
      · simp [idsOf, Pc.owes, hk, Ne.symm hk]
  · -- the status is exchanged: the additional reference goes
    rename_i o hstatus
    simp only [Pc.shares, coe_cons_add] at hs
    obtain ⟨hg, hp⟩ := hs.head_valid
    refine ⟨a, hf.step ?_ ?_ (forall_mem_singleton.mpr hw.1) (.inr fun t ht => ?_),
      hl.silent rfl rfl (fun k => append_nil _) (forall_mem_singleton.mpr trivial)⟩
    · simpa [Pc.shares, Reference.share, Reference.rest, coe_cons_add] using hs
    · exact { hf.mem with counting := by simp [hp] }
    · exact (hs.others rfl).2 t (mem_add.mpr (.inr ht))
  · exact absurd (hw.2.symm.trans ‹_›) (by decide)
  · exact absurd (hw.2.symm.trans ‹_›) (by decide)

/-! The steps of `Dereference`, and of the one that recycles. -/

theorem Reference.released_quiet (r : Reference) :
    ∀ e ∈ r.released.2, e.kind ≠ .begun ∧ e.kind ≠ .created ∧ e.kind ≠ .returned := by
  cases r <;> simp [Reference.released]

theorem Reference.released_owes (r : Reference) (k : EventKind) :
    idsOf k r.released.2 ++ r.released.1.flatMap (Pc.owes k) = r.owes k := by
  cases r with
  | held id => rfl
  | additional o =>
    by_cases hk : k = .setFailed 0
    · subst hk
      cases o <;> rfl
    · cases o <;> simp [Reference.released, Owner.resume, idsOf, Pc.owes, Reference.owes, Owner.owes, hk, Ne.symm hk]

theorem Reference.released_callOk (r : Reference) (h : List Event) : ∀ pc ∈ r.released.1, pc.CallOk h := by
  rcases r with id | ⟨id | id | id⟩ <;> simp [Reference.released, Owner.resume, Pc.CallOk]

theorem Reference.released_along (r : Reference) (hold : Along Allowed h) : Along Allowed (h ++ r.released.2) := by
  cases r with
  | held id => simpa [Reference.released] using hold
  | additional o => exact hold.concat (.inl rfl)

theorem Reference.share_counted (r : Reference) : r.share.counted = 1 := by
  cases r <;> rfl

/-- A counted reference is to the generation in the slot. -/
theorem share_gen {r : Reference} {B : Multiset Share} (hs : Generations.Inv a (r.share ::ₘ B)) :
    genOf r.id = a.gen ∧ (a.phase = .live ∨ a.phase = .failed) := by
  have hv := hs.head_valid
  cases r with
  | held id => exact hv
  | additional o => exact ⟨hv.1, .inr hv.2⟩

/-- `Dereference` returns. -/
theorem Logged.release {r : Reference} (hl : Logged slot h (pc ::ₘ R) a) (hgen : a'.gen = a.gen)
    (hphase : a'.phase = a.phase) (howes : ∀ k, pc.owes k = r.owes k) :
    Logged slot (h ++ r.released.2) (r.released.1 + R) a' := by
  refine hl.quiet hgen hphase (fun k n ht => ?_) r.released_quiet (r.released_callOk h) (r.released_along hl.along)
  rw [r.released_owes, howes]

/-- `Dereference` gives back the last reference: only a failed generation has given up its own. -/
theorem fetchSub_last_kept {r : Reference} (hf : Fits slot m (.fetchSub r id ::ₘ R) a)
    (hl : Logged slot h (.fetchSub r id ::ₘ R) a) (hcount : a.count = 1) :
    Kept slot (m.fetchSub, [.exchangeDereferenced r id m.versionedRef], []) R h := by
  have hs := hf.front
  obtain ⟨hproper, rfl⟩ := hf.head_wf
  simp only [Pc.shares, coe_cons_add] at hs
  obtain ⟨hg, hp⟩ := share_gen hs
  have hown := hs.own_lt_count r.share_counted
  have hp : a.phase = .failed := by
    refine hp.resolve_left fun hp => ?_
    rw [own, if_pos (.inr hp)] at hown
    omega
  refine ⟨{ a with count := a.count - 1 }, hf.step ?_ (hf.mem.decremented (by omega)) ?_ (.inl ⟨rfl, rfl⟩),
    hl.silent rfl rfl (fun k => append_nil _) (forall_mem_singleton.mpr trivial)⟩
  · simpa [Pc.shares, coe_cons_add, hg] using hs.drop_last r.share_counted hp
  · refine forall_mem_singleton.mpr ⟨hproper, rfl, ?_⟩
    rw [hf.mem.word, hcount, hg, version_failed hp]

/-- The exchange of `Dereference` succeeds. -/
theorem exchangeDereferenced_kept {r : Reference} {vref : Nat}
    (hf : Fits slot m (.exchangeDereferenced r id vref ::ₘ R) a)
    (hl : Logged slot h (.exchangeDereferenced r id vref ::ₘ R) a) (heq : m.versionedRef = decremented vref) :
    Kept slot ({ m with versionedRef := makeVRef ((versionOfVRefId id + 2) % 2 ^ 32) 0 },
      [.beforeRecycled (.dereference r) id], []) R h := by
  obtain ⟨hproper, rfl, rfl⟩ := hf.head_wf
  obtain ⟨hg, hp, hzero⟩ := hf.mem.recyclable_iff.mp heq
  have hroom : 2 * (a.gen + 1) < 2 ^ 32 := by simpa [begun, hp] using hf.mem.room
  refine recycled_kept hf hl ?_ hp hzero ?_ (k := .dereference r) rfl hproper (fun k => rfl) trivial ?_
  · rw [Pc.shares, hg]
    rfl
  · rw [hg]
    exact hproper
  · rw [hproper.version, ← hg, Nat.mod_eq_of_lt (by omega)]
    exact makeVRef_pack (by decide)

theorem dereferenceStep_kept (hf : Fits slot m (pc ::ₘ R) a) (hl : Logged slot h (pc ::ₘ R) a)
    (hstep : dereferenceStep m pc choice = some r) : Kept slot r R h := by
  have hs := hf.front
  have hw := hf.head_wf
  have hver := hf.mem.versionOf
  have hnref := hf.mem.nrefOf
  have hlt := hf.mem.version_lt
  revert hstep
  fun_cases dereferenceStep m pc choice <;> intro hstep <;> cases hstep
  · rename_i r
    simp only [Pc.shares, coe_cons_add] at hs
    refine ⟨a, hf.step ?_ hf.mem ?_ (.inl ⟨rfl, rfl⟩),
      hl.silent rfl rfl (fun k => append_nil _) (forall_mem_singleton.mpr trivial)⟩
    · simpa [Pc.shares, coe_cons_add] using hs
    · obtain ⟨hg, hp⟩ := share_gen hs
      refine forall_mem_singleton.mpr ⟨hw, ?_⟩
      rw [hf.mem.named hp, ← hg]
      exact Eq.symm hw
  · rename_i r id hmore
    simp only [Pc.shares, coe_cons_add] at hs
    refine ⟨{ a with count := a.count - 1 }, hf.step ?_ (hf.mem.decremented (by omega))
      (Reference.released_wf hw.1) (.inl ⟨rfl, rfl⟩), hl.release rfl rfl (fun k => rfl)⟩
    rw [r.released_shares]
    exact hs.drop r.share_counted (fun _ => by omega)
  · rename_i r id hmore hone hvers
    exact fetchSub_last_kept hf hl (by omega)
  · -- a reference keeps its generation, so the version is one of the two
    exfalso
    rename_i r id hmore hone hvers
    obtain ⟨hproper, rfl⟩ := hw
    simp only [Pc.shares, coe_cons_add] at hs
    obtain ⟨hg, _⟩ := share_gen hs
    rw [hver, hproper.version, hg] at hvers
    rcases version_cases a with ⟨_, hv⟩ | ⟨_, hv⟩ <;> omega
  · exfalso
    rename_i r id hmore hone
    simp only [Pc.shares, coe_cons_add] at hs
    have := hs.own_lt_count r.share_counted
    omega
  · rename_i r id vref heq
    exact exchangeDereferenced_kept hf hl heq
  · rename_i r id vref hne
    obtain ⟨hproper, rfl, rfl⟩ := hw
    simp only [Pc.shares, coe_cons_add] at hs
    refine ⟨a, hf.step ?_ hf.mem (Reference.released_wf hproper) (.inl ⟨rfl, rfl⟩), hl.release rfl rfl (fun k => rfl)⟩
    rw [r.released_shares]
    exact hs.abandon fun hg hp hzero => hne (hf.mem.recyclable_iff.mpr ⟨hg.symm, hp, hzero⟩)

theorem Recycler.finished_quiet (k : Recycler) :
    ∀ e ∈ k.finished.2, e.kind ≠ .begun ∧ e.kind ≠ .created ∧ e.kind ≠ .returned := by
  cases k with
  | addressImpl c => exact c.refused_quiet
  | dereference r => exact r.released_quiet

theorem Recycler.finished_owes (k : Recycler) {kind : EventKind} (ht : total a kind = some n) :
    idsOf kind k.finished.2 ++ k.finished.1.flatMap (Pc.owes kind) = k.owes kind := by
  cases k with
  | addressImpl c => exact (append_nil _).trans (c.refused_untracked ht)
  | dereference r => exact r.released_owes kind

theorem Recycler.finished_callOk (k : Recycler) (h : List Event) : ∀ pc ∈ k.finished.1, pc.CallOk h := by
  cases k with
  | addressImpl c => exact nofun
  | dereference r => exact r.released_callOk h

theorem Recycler.finished_along (k : Recycler) (hold : Along Allowed h) (hcall : (Pc.returnResource k id).CallOk h) :
    Along Allowed (h ++ k.finished.2) := by
  cases k with
  | addressImpl c => exact Call.refused_along hold hcall
  | dereference r => exact r.released_along hold

/-- The slot goes back to the pool, and the call that recycled it returns. -/
theorem returnResource_kept {k : Recycler} (hf : Fits slot m (.returnResource k id ::ₘ R) a)
    (hl : Logged slot h (.returnResource k id ::ₘ R) a) :
    Kept slot ({ m with pooled := m.pooled + 1 }, k.finished.1, ⟨.returned, m.thisId⟩ :: k.finished.2) R h := by
  have hs := hf.front
  have hw := hf.head_wf
  have hcall := hl.head_call
  simp only [Pc.shares, coe_cons_add] at hs
  obtain ⟨hg, hp⟩ := hs.head_valid
  have hthis : m.thisId = id := by
    rw [hf.mem.cleaned hp, ← hg, Nat.add_sub_cancel]
    exact Eq.symm hw.1
  refine ⟨{ a with phase := .free }, hf.step ?_ ?_ (Recycler.finished_wf hw.2) (.inl ⟨rfl, rfl⟩),
    hl.step (ledger_same (total_congr rfl ?_ ?_) fun kind n ht => ?_) ?_ ?_ ?_ ?_⟩
  · rw [k.finished_shares]
    exact hs.giveBack
  · exact { hf.mem with
      word := by simpa [version, failed, hp] using hf.mem.word
      room := by simpa [begun, hp] using hf.mem.room
      pooled := by simpa [hp] using hf.mem.pooled
      named := by simp
      cleaned := by simp
      counting := by simp }
  · simp [begun, hp]
  · simp [failed, hp]
  · have howes := k.finished_owes ht
    rw [idsOf_cons, append_assoc, howes, hthis, Pc.owes]
    simp only [eq_comm]
    rfl
  · intro id' hid'
    have hold : ⟨.created, id'⟩ ∈ h := by
      rcases mem_append.mp hid' with hold | hnew
      · exact hold
      · rcases mem_cons.mp hnew with heq | hnew
        · cases heq
        · exact absurd rfl (k.finished_quiet _ hnew).2.1
    obtain ⟨g, rfl, hg'⟩ := hl.created id' hold
    exact ⟨g, rfl, .inl (by simpa [hp] using hg')⟩
  · exact k.finished_callOk h
  · rw [append_cons, current_quiet, current_concat]
    · rfl
    · exact fun e he => ⟨(k.finished_quiet e he).1, (k.finished_quiet e he).2.2⟩
  · rw [append_cons]
    exact k.finished_along (hl.along.concat trivial) (hcall.mono _)

theorem recycleStep_kept (hf : Fits slot m (pc ::ₘ R) a) (hl : Logged slot h (pc ::ₘ R) a)
    (hstep : recycleStep m pc choice = some r) : Kept slot r R h := by
  have hs := hf.front
  have hw := hf.head_wf
  have hcall := hl.head_call
  revert hstep
  fun_cases recycleStep m pc choice <;> intro hstep <;> cases hstep
  · rename_i k id
    simp only [Pc.shares, coe_cons_add] at hs
    obtain ⟨hg, hp⟩ := hs.head_valid
    have hthis : m.thisId = id := by
      rw [hf.mem.cleaned hp, ← hg, Nat.add_sub_cancel]
      exact Eq.symm hw.1
    refine ⟨a, hf.step ?_ hf.mem (forall_mem_singleton.mpr hw) (.inl ⟨rfl, rfl⟩),
      hl.quiet rfl rfl (fun kind n ht => ?_) (by simp) (forall_mem_singleton.mpr ?_) (hl.along.concat trivial)⟩
    · simpa [Pc.shares, coe_cons_add] using hs
    · by_cases hk : kind = .beforeRecycled
      · subst hk
        simp [idsOf, Pc.owes, hthis]
      · simp [idsOf, Pc.owes, hk, Ne.symm hk]
    · cases k with
      | addressImpl c => exact hcall
      | dereference r => trivial
  · exact returnResource_kept hf hl

theorem step_kept (hf : Fits slot m (pc ::ₘ R) a) (hl : Logged slot h (pc ::ₘ R) a)
    (hb : withinBounds ⟨m, pc ::ₘ R, h⟩ (.step pc choice)) (hstep : pc.step slot m choice = some r) :
    Kept slot r R h := by
  cases pc with
  | create | storeId _ | storeStatus _ | onCreated _ | returnId _ => exact createStep_kept hf hl hb hstep
  | address _ | unaddress _ _ | exchangeAddressed _ _ => exact addressStep_kept hf hl hb hstep
  | holder _ => exact holderStep_kept hf hl hb hstep
  | setFailed _ | loadVRef _ _ | exchangeVRef _ _ _ | onFailed _ | releaseAdditional _ =>
    exact setFailedStep_kept hf hl hstep
  | dereference _ | fetchSub _ _ | exchangeDereferenced _ _ _ => exact dereferenceStep_kept hf hl hstep
  | beforeRecycled _ _ | returnResource _ _ => exact recycleStep_kept hf hl hstep

end

end LightRpc.VersionedRef

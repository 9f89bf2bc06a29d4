import LightRpc.SlotHistory

/- Versioned references, over whole runs: every interleaving of the calls on one slot
   over any number of generations, as long as the count stays below 2^31 and the
   generations stay fewer than 2^31.

   One result is about memory: a generation is recycled once, and not while somebody
   holds a reference to it. The other is about identity: which calls an id gets
   answers from. -/
namespace LightRpc.VersionedRef

open Lib Generations AdditionalRefStatus Multiset Slot

/-- Some generation, phase and count explain the state. -/
def SlotInv (slot : ResourceId) (s : SlotState) : Prop :=
  ∃ a, Fits slot s.mem s.threads a ∧ Logged slot s.history s.threads a

section
variable {slot : ResourceId} {s s' : SlotState} {act : SlotAct}

theorem slotInv_fresh (slot : ResourceId) : SlotInv slot .fresh := by
  have hmem : MemFits slot SlotState.fresh.mem ⟨0, .free, 0⟩ := {
    word := rfl
    small := Nat.two_pow_pos 31
    room := Nat.two_pow_pos 32
    pooled := rfl
    named := by simp
    cleaned := by simp
    counting := by simp
    sound := rfl }
  refine ⟨⟨0, .free, 0⟩, ⟨⟨rfl, nofun, Nat.zero_le 1, nofun, nofun⟩, hmem, nofun⟩,
    ⟨fun k n ht => ?_, nofun, nofun, rfl, Along.nil⟩⟩
  have hn : n = 0 := by
    cases k <;> simp_all [total, begun, failed]
  rw [hn]
  rfl

/-- A call begins: its thread has no share of the past yet. -/
theorem Logged.spawn {h : List Event} {T : Multiset Pc} {a a' : Slot} {pc : Pc} (hl : Logged slot h T a)
    (htotal : Slot.total a' = Slot.total a) (hgen : a'.gen = a.gen)
    (hphase : a.phase = .live ∨ a.phase = .failed → a'.phase = a.phase)
    (hcurrent : Slot.current slot a' = Slot.current slot a) (howes : ∀ k, pc.owes k = []) (hcall : pc.CallOk h) :
    Logged slot h (pc ::ₘ T) a' where
  ledger := by
    intro k n ht
    rw [htotal] at ht
    rw [cons_bind, howes, ← hl.ledger k n ht, coe_nil, zero_add]
  created := by
    intro id hid
    obtain ⟨k, rfl, hk⟩ := hl.created id hid
    refine ⟨k, rfl, ?_⟩
    rw [hgen]
    exact hk.imp_right fun ⟨hk, hp⟩ => ⟨hk, by rwa [hphase hp]⟩
  calls := by
    intro pc' hpc'
    rcases mem_cons.mp hpc' with rfl | hold
    · exact hcall
    · exact hl.calls pc' hold
  current := hl.current.trans hcurrent.symm
  along := hl.along

theorem slotInv_next (hinv : SlotInv slot s) (hb : withinBounds s act) (hn : s.next slot act = some s') :
    SlotInv slot s' := by
  obtain ⟨a, hf, hl⟩ := hinv
  cases act with
  | create =>
    obtain ⟨⟨hpos, _⟩, rfl⟩ := Option.ite_some_none_eq_some.mp hn
    have hp : a.phase = .free := by
      by_contra hp
      have := hf.mem.pooled
      rw [if_neg hp] at this
      omega
    have hpooled := hf.mem.pooled
    rw [if_pos hp] at hpooled
    refine ⟨{ a with phase := .taken }, ⟨?_, ?_, ?_⟩, hl.spawn (Slot.total_congr rfl ?_ ?_) rfl ?_ ?_ (fun _ => rfl) trivial⟩
    · simpa [Pc.shares] using hf.shares.take hp
    · exact { hf.mem with
        word := by simpa [Slot.version, Slot.failed, hp] using hf.mem.word
        room := by simpa [Slot.begun, hp] using hf.mem.room
        pooled := by simp [hpooled]
        named := by simp
        cleaned := by simp
        counting := by simp }
    · intro pc hpc
      rcases mem_cons.mp hpc with rfl | hold
      · trivial
      · exact (hf.wf pc hold).change (.inl ⟨rfl, rfl⟩)
    · simp [Slot.begun, hp]
    · simp [Slot.failed, hp]
    · simp [hp]
    · simp [Slot.current, hp]
  | call c =>
    obtain ⟨⟨hcreated, _⟩, rfl⟩ := Option.ite_some_none_eq_some.mp hn
    refine ⟨a, ⟨?_, hf.mem, ?_⟩, hl.spawn rfl rfl (fun _ => rfl) rfl (fun _ => rfl) hcreated⟩
    · simpa [Pc.shares] using hf.shares
    · intro pc hpc
      rcases mem_cons.mp hpc with rfl | hold
      · trivial
      · exact hf.wf pc hold
  | step pc choice =>
    simp only [SlotState.next, Option.ite_none_right_eq_some] at hn
    obtain ⟨⟨hmem, _⟩, hn⟩ := hn
    obtain ⟨r, hstep, rfl⟩ := Option.map_eq_some_iff.mp hn
    obtain ⟨R, hR, hreplace⟩ := Threads.replace_spec hmem r.2.1
    rw [hR] at hf hl
    obtain ⟨a', hf', hl'⟩ := step_kept hf hl (by cases s; subst hR; exact hb) hstep
    refine ⟨a', ?_, ?_⟩
    · show Fits slot r.1 (Threads.replace s.threads pc r.2.1) a'
      rw [hreplace]
      exact hf'
    · show Logged slot (s.history ++ r.2.2) (Threads.replace s.threads pc r.2.1) a'
      rw [hreplace]
      exact hl'

theorem slotInv_reachable (h : ((slotMachine slot).guard withinBounds).Reachable s) : SlotInv slot s := by
  refine h.invariant (I := SlotInv slot) ?_ ?_
  · rintro s rfl
    exact slotInv_fresh slot
  · intro s act s' hinv hn
    obtain ⟨hb, hn⟩ := Machine.guard_next.mp hn
    exact slotInv_next hinv hb hn

/-! Counting events. -/

theorem count_idsOf (k : EventKind) (id : VRefId) (h : List Event) : (idsOf k h).count id = h.count ⟨k, id⟩ := by
  induction h with
  | nil => rfl
  | cons e h ih =>
    rw [idsOf_cons, List.count_append, ih, List.count_cons]
    obtain ⟨k', id'⟩ := e
    by_cases hk : k' = k <;> by_cases hid : id' = id <;> simp [hk, hid, Nat.add_comm]

/-- How often an event happened, and how many threads are still going to make it. -/
theorem Logged.count {h : List Event} {T : Multiset Pc} {a : Slot} (hl : Logged slot h T a) {k : EventKind} {n : Nat}
    (ht : total a k = some n) (id : VRefId) :
    h.count ⟨k, id⟩ + (T.bind fun pc => (pc.owes k : Multiset VRefId)).count id = if id ∈ ids slot n then 1 else 0 := by
  have hledger := congrArg (Multiset.count id) (hl.ledger k n ht)
  rw [Multiset.count_add, Multiset.coe_count, Multiset.coe_count, count_idsOf] at hledger
  rw [hledger]
  split
  · exact List.count_eq_one_of_mem (ids_nodup slot n) ‹_›
  · exact List.count_eq_zero_of_not_mem ‹_›

theorem cleaner_of_owes {pc : Pc} {k : EventKind} {id : VRefId} (hk : k = .beforeRecycled ∨ k = .returned)
    (h : id ∈ pc.owes k) : Share.cleaner (genOf id) ∈ pc.shares := by
  have howner : ∀ o : Owner, o.owes k = [] := by
    intro o
    rcases hk with rfl | rfl <;> rfl
  have href : ∀ r : Reference, r.owes k = [] := by
    intro r
    cases r with
    | held _ => rfl
    | additional o => exact howner o
  have hrec : ∀ c : Recycler, c.owes k = [] := by
    intro c
    cases c with
    | addressImpl _ => rfl
    | dereference r => exact href r
  cases pc with
  | beforeRecycled c id' | returnResource c id' =>
    rcases hk with rfl | rfl <;> simp_all [Pc.owes, Pc.shares]
  | _ => rcases hk with rfl | rfl <;> simp_all [Pc.owes]

/-- A generation is recycled at most once, and once when it has failed and no thread has
    anything to do with it any more. -/
theorem SlotInv.recycled (hinv : SlotInv slot s) {k : EventKind} (hk : k = .beforeRecycled ∨ k = .returned)
    (id : VRefId) : s.history.count ⟨k, id⟩ ≤ 1 ∧ (⟨.failed, id⟩ ∈ s.history →
      (∀ pc ∈ s.threads, ∀ t ∈ pc.shares, t.about (genOf id) = false) → s.history.count ⟨k, id⟩ = 1) := by
  obtain ⟨a, hf, hl⟩ := hinv
  have htotal : total a k = some a.gen := by
    rcases hk with rfl | rfl <;> rfl
  have hcount := hl.count htotal id
  refine ⟨by split at hcount <;> omega, fun hfailed hnone => ?_⟩
  obtain ⟨g, hg, rfl⟩ := List.mem_map.mp ((hl.perm_ids rfl (.inr rfl)).mem_iff.mp (mem_idsOf.mpr hfailed))
  have hg : g < a.gen ∨ g = a.gen ∧ a.phase = .failed := by
    have := List.mem_range.mp hg
    by_cases hp : a.phase = .failed
    · rw [failed, if_pos hp] at this
      exact (Nat.lt_succ_iff_lt_or_eq.mp this).imp_right fun hg => ⟨hg, hp⟩
    · rw [failed, if_neg hp] at this
      exact .inl this
  have hgen : genOf (idOf slot g) = g := by
    have := hf.mem.room
    exact genOf_idOf (by omega)
  rw [hgen] at hnone
  have hlt : g < a.gen := by
    refine hf.shares.lt_of_untouched hg fun t ht => ?_
    obtain ⟨pc, hpc, ht⟩ := mem_bind.mp ht
    exact hnone pc hpc t ht
  have hzero : (s.threads.bind fun pc => (pc.owes k : Multiset VRefId)).count (idOf slot g) = 0 := by
    refine count_eq_zero.mpr fun hmem => ?_
    obtain ⟨pc, hpc, howes⟩ := mem_bind.mp hmem
    have := hnone pc hpc _ (cleaner_of_owes hk howes)
    simp [Share.about, hgen] at this
  rw [if_pos (idOf_mem_ids.mpr hlt)] at hcount
  omega

theorem SlotInv.held_not_recycled (hinv : SlotInv slot s) {pc : Pc} (hpc : pc ∈ s.threads) {id : VRefId}
    (hid : id ∈ pc.held) : ⟨.beforeRecycled, id⟩ ∉ s.history := by
  obtain ⟨a, hf, hl⟩ := hinv
  intro hmem
  obtain ⟨g, hg, rfl⟩ := List.mem_map.mp (hl.mem_ids rfl hmem)
  have hlt := List.mem_range.mp hg
  obtain ⟨hgen, _⟩ := hf.shares.valid _ (mem_bind.mpr ⟨pc, hpc, held_share hid⟩)
  rw [genOf_idOf (by have := hf.mem.room; omega)] at hgen
  omega

/-- **No use after recycle, and one recycling for each generation.** In every reachable
    state no `CHECK` has failed; whoever holds a reference can rely on `BeforeRecycled`
    not having run for its generation; `BeforeRecycled` and `return_resource` run at most
    once for a generation, and have run when the generation has failed and no reference to
    it, no transient count and no call in the middle of recycling is left. -/
theorem recycled_once (h : ((slotMachine slot).guard withinBounds).Reachable s) :
    s.mem.crashed = false ∧
    (∀ pc ∈ s.threads, ∀ id ∈ pc.held, ⟨.beforeRecycled, id⟩ ∉ s.history) ∧
    (∀ id, s.history.count ⟨.beforeRecycled, id⟩ ≤ 1 ∧ s.history.count ⟨.returned, id⟩ ≤ 1) ∧
    (∀ id, ⟨.failed, id⟩ ∈ s.history → (∀ pc ∈ s.threads, ∀ t ∈ pc.shares, t.about (genOf id) = false) →
      s.history.count ⟨.beforeRecycled, id⟩ = 1 ∧ s.history.count ⟨.returned, id⟩ = 1) := by
  have hinv := slotInv_reachable h
  refine ⟨?_, fun pc hpc id hid => hinv.held_not_recycled hpc hid, fun id => ?_, fun id hfailed hnone => ?_⟩
  · obtain ⟨a, hf, _⟩ := hinv
    exact hf.mem.sound
  · exact ⟨(hinv.recycled (.inl rfl) id).1, (hinv.recycled (.inr rfl) id).1⟩
  · exact ⟨(hinv.recycled (.inl rfl) id).2 hfailed hnone, (hinv.recycled (.inr rfl) id).2 hfailed hnone⟩

/-- A thread that got a reference, one that fails the generation, and a late `Address`
    that ends up recycling it. -/
def lateAddress : List SlotAct :=
  [.create, .step .create .go, .step (.storeId 7) .go, .step (.storeStatus 7) .go,
    .step (.onCreated 7) (.created 0), .step (.returnId 7) .go,
    .call (.address 7), .step (.address (.address 7)) .go,
    .call (.setFailedById 7), .step (.address (.setFailedById 7)) .go, .step (.setFailed (.byId 7)) .go,
    .step (.loadVRef (.byId 7) 0) .go, .step (.exchangeVRef (.byId 7) 0 3) .go, .step (.onFailed (.byId 7)) .go,
    .step (.releaseAdditional (.byId 7)) .go, .step (.dereference (.additional (.byId 7))) .go,
    .step (.fetchSub (.additional (.byId 7)) 7) .go, .step (.dereference (.held 7)) .go,
    .step (.fetchSub (.held 7) 7) .go,
    .call (.address 7), .step (.address (.address 7)) .go,
    .step (.holder 7) .dereference, .step (.dereference (.held 7)) .go, .step (.fetchSub (.held 7) 7) .go,
    .step (.unaddress (.address 7) 1) .go, .step (.exchangeAddressed (.address 7) 0x100000001) .go,
    .step (.beforeRecycled (.addressImpl (.address 7)) 7) .go,
    .step (.returnResource (.addressImpl (.address 7)) 7) .go]

theorem lateAddress_recycles : ∃ s, ((slotMachine 7).guard withinBounds).Run lateAddress s ∧
    ⟨.failed, 7⟩ ∈ s.history ∧ s.history.count ⟨.beforeRecycled, 7⟩ = 1 ∧ s.history.count ⟨.returned, 7⟩ = 1 := by
  have hexec : ∃ s, ((slotMachine 7).guard withinBounds).Run lateAddress s ∧ ⟨.failed, 7⟩ ∈ s.history ∧
      s.threads = 0 := Machine.exists_run rfl (by decide +kernel)
  obtain ⟨s, hrun, hfailed, hzero⟩ := hexec
  obtain ⟨_, _, _, honce⟩ := recycled_once ⟨_, hrun⟩
  exact ⟨s, hrun, hfailed, honce 7 hfailed (by simp [hzero])⟩

/-- **Ids name generations.** `Address` succeeds with an id only while the generation that
    `Create` returned it for is in the slot and has not failed, and `AddressFailedAsWell`
    returns 1 only between that generation's failure and its recycling. A failed
    generation's id is refused ever after. For each failed generation one `SetFailed` call
    returns 0 and `OnFailed` runs once, if not now then in a thread that is about to; and
    one that returns -1 finds the generation failed. -/
theorem ids_name_generations (h : ((slotMachine slot).guard withinBounds).Reachable s) :
    (idsOf .begun s.history).Nodup ∧
    (∀ h₁ h₂ id failedAsWell, s.history = h₁ ++ ⟨.addressed failedAsWell 0, id⟩ :: h₂ →
      current h₁ = some id ∧ ⟨.created, id⟩ ∈ h₁ ∧ ⟨.failed, id⟩ ∉ h₁) ∧
    (∀ h₁ h₂ id failedAsWell, s.history = h₁ ++ ⟨.addressed failedAsWell 1, id⟩ :: h₂ →
      failedAsWell = true ∧ current h₁ = some id ∧ ⟨.created, id⟩ ∈ h₁ ∧ ⟨.failed, id⟩ ∈ h₁ ∧
        ⟨.beforeRecycled, id⟩ ∉ h₁) ∧
    (∀ h₁ h₂ id rc, s.history = h₁ ++ ⟨.addressed false rc, id⟩ :: h₂ → ⟨.failed, id⟩ ∈ h₁ → rc = -1) ∧
    (∀ id, s.history.count ⟨.setFailed 0, id⟩ +
        (s.threads.bind fun pc => (pc.owes (.setFailed 0) : Multiset VRefId)).count id =
      if ⟨.failed, id⟩ ∈ s.history then 1 else 0) ∧
    (∀ id, s.history.count ⟨.onFailed, id⟩ +
        (s.threads.bind fun pc => (pc.owes .onFailed : Multiset VRefId)).count id =
      if ⟨.failed, id⟩ ∈ s.history then 1 else 0) ∧
    (∀ id, ⟨.setFailed (-1), id⟩ ∈ s.history → ⟨.failed, id⟩ ∈ s.history) := by
  obtain ⟨a, hf, hl⟩ := slotInv_reachable h
  have hfailed : ∀ id, id ∈ ids slot (a.gen + Slot.failed a) ↔ ⟨.failed, id⟩ ∈ s.history := by
    intro id
    rw [← mem_idsOf, (hl.perm_ids rfl (.inr rfl)).mem_iff]
  refine ⟨?_, ?_, ?_, ?_, fun id => ?_, fun id => ?_, fun id hid => ?_⟩
  · exact (hl.perm_ids rfl (.inl rfl)).nodup_iff.mpr (ids_nodup slot _)
  · intro h₁ h₂ id failedAsWell heq
    rcases hl.along _ _ _ heq with ⟨_, hok⟩ | ⟨hrc, _⟩ | ⟨hrc, _⟩
    · exact hok
    · cases hrc
    · cases hrc
  · intro h₁ h₂ id failedAsWell heq
    rcases hl.along _ _ _ heq with ⟨hrc, _⟩ | ⟨_, hok⟩ | ⟨hrc, _⟩
    · cases hrc
    · exact hok
    · cases hrc
  · intro h₁ h₂ id rc heq hmem
    rcases hl.along _ _ _ heq with ⟨_, _, _, hnot⟩ | ⟨_, hfa, _⟩ | ⟨hrc, _⟩
    · exact absurd hmem hnot
    · cases hfa
    · exact hrc
  · rw [hl.count rfl id]
    simp only [hfailed]
  · rw [hl.count rfl id]
    simp only [hfailed]
  · obtain ⟨h₁, h₂, heq⟩ := List.append_of_mem hid
    rcases hl.along _ _ _ heq with hrc | ⟨_, hmem⟩
    · cases hrc
    · rw [heq]
      exact List.mem_append_left _ hmem

/-- The slot in use again: the old id is refused. -/
def secondGeneration : List SlotAct :=
  lateAddress ++
  [.create, .step .create .go, .step (.storeId 0x200000007) .go, .step (.storeStatus 0x200000007) .go,
    .step (.onCreated 0x200000007) (.created 0), .step (.returnId 0x200000007) .go,
    .call (.address 7), .step (.address (.address 7)) .go, .step (.unaddress (.address 7) 2) .go,
    .call (.address 0x200000007), .step (.address (.address 0x200000007)) .go]

theorem secondGeneration_refuses : ∃ s, ((slotMachine 7).guard withinBounds).Run secondGeneration s ∧
    current s.history = some 0x200000007 ∧ ⟨.failed, 0x200000007⟩ ∉ s.history ∧
    s.history.count ⟨.setFailed 0, 7⟩ = 1 ∧ s.history.count ⟨.onFailed, 7⟩ = 1 := by
  have hexec : ∃ s, ((slotMachine 7).guard withinBounds).Run secondGeneration s ∧
      s.history = s.history.dropLast ++ [⟨.addressed false 0, 0x200000007⟩] ∧ ⟨.failed, 7⟩ ∈ s.history ∧
      s.threads = {.holder 0x200000007} := Machine.exists_run rfl (by decide +kernel)
  obtain ⟨s, hrun, hlast, hfailed, hone⟩ := hexec
  obtain ⟨_, haddressed, _, _, hset, hon, _⟩ := ids_name_generations ⟨_, hrun⟩
  obtain ⟨hcurrent, _, hnot⟩ := haddressed _ _ _ _ hlast
  have hset := hset 7
  have hon := hon 7
  rw [if_pos hfailed, hone] at hset hon
  refine ⟨s, hrun, ?_, ?_, hset, hon⟩
  · rw [hlast, current_concat]
    exact hcurrent
  · rw [hlast]
    simpa using hnot

end

end LightRpc.VersionedRef

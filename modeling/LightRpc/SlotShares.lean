import LightRpc.VersionedRef
import LightRpc.Lib.Generations

/- What each thread of a slot has in hand, as shares of the slot's generations, and
   what ties the slot's memory to them. `version` is the version half of
   `_versioned_ref`, and the count is the other half.

   The relation `Fits` is kept by every step of `VersionedRef`; that is shown together
   with the history in `SlotHistory`. -/
namespace LightRpc.VersionedRef

open Lib Generations AdditionalRefStatus Slot

variable {slot : ResourceId} {m : SlotMem}

/-! References and shares. -/

def Owner.held : Owner → List VRefId
  | .holder id | .byId id => [id]
  | .creator _ => []

/-- What is still held when the reference is gone. -/
def Reference.rest : Reference → List VRefId
  | .held _ => []
  | .additional o => o.held

def Recycler.held : Recycler → List VRefId
  | .addressImpl _ => []
  | .dereference r => r.rest

/-- The references of a thread, each under the id it was addressed by, from the return
    of the call that gave it to the `fetch_sub` of its `Dereference`. -/
def Pc.held : Pc → List VRefId
  | .holder id => [id]
  | .setFailed o | .loadVRef o _ | .exchangeVRef o _ _ | .onFailed o | .releaseAdditional o => o.held
  | .dereference (.held id) | .fetchSub (.held id) _ => [id]
  | .dereference (.additional o) | .fetchSub (.additional o) _ => o.held
  | .exchangeDereferenced r _ _ => r.rest
  | .beforeRecycled k _ | .returnResource k _ => k.held
  | _ => []

def refs (l : List VRefId) : List Share := l.map fun id => .ref (genOf id)

def Owner.shares : Owner → List Share
  | .holder id | .byId id => [.ref (genOf id)]
  | .creator id => [.builder (genOf id)]

def Reference.share : Reference → Share
  | .held id => .ref (genOf id)
  | .additional o => .extra (genOf o.id)

def Pc.shares : Pc → List Share
  | .create => [.creator]
  | .storeId id | .storeStatus id | .onCreated id | .returnId id => [.builder (genOf id)]
  | .address _ => []
  | .unaddress _ ver1 => [.probe (ver1 / 2) (ver1 % 2 == 1)]
  | .exchangeAddressed _ vref2 => [.attempt (versionOfVRef vref2 / 2)]
  | .holder id => [.ref (genOf id)]
  | .setFailed o | .loadVRef o _ | .exchangeVRef o _ _ => o.shares
  | .onFailed o | .releaseAdditional o => .extra (genOf o.id) :: refs o.held
  | .dereference r | .fetchSub r _ => r.share :: refs r.rest
  | .exchangeDereferenced r id _ => .attempt (genOf id) :: refs r.rest
  | .beforeRecycled k id | .returnResource k id => .cleaner (genOf id) :: refs k.held

def sharesOf (T : Multiset Pc) : Multiset Share := T.bind fun pc => (pc.shares : Multiset Share)

@[simp] theorem sharesOf_cons (pc : Pc) (T : Multiset Pc) :
    sharesOf (pc ::ₘ T) = (pc.shares : Multiset Share) + sharesOf T := by
  simp [sharesOf]

@[simp] theorem sharesOf_coe_add (pcs : List Pc) (T : Multiset Pc) :
    sharesOf (pcs + T) = (pcs.flatMap Pc.shares : Multiset Share) + sharesOf T := by
  simp [sharesOf, Multiset.add_bind, Multiset.coe_bind]

theorem coe_cons_add (t : Share) (l : List Share) (M : Multiset Share) :
    ((t :: l : List Share) : Multiset Share) + M = t ::ₘ ((l : Multiset Share) + M) := by
  rw [← Multiset.cons_coe, Multiset.cons_add]

theorem held_share {pc : Pc} {id : VRefId} (h : id ∈ pc.held) : Share.ref (genOf id) ∈ pc.shares := by
  cases pc with
  | holder id' =>
    obtain rfl := List.mem_singleton.mp h
    exact List.mem_cons_self
  | setFailed o | loadVRef o _ | exchangeVRef o _ _ =>
    cases o <;> simp_all [Pc.held, Pc.shares, Owner.held, Owner.shares]
  | onFailed o | releaseAdditional o | exchangeDereferenced r _ _ | beforeRecycled k _ | returnResource k _ =>
    exact List.mem_cons_of_mem _ (List.mem_map_of_mem h)
  | dereference r | fetchSub r _ =>
    cases r with
    | held id' =>
      obtain rfl := List.mem_singleton.mp h
      exact List.mem_cons_self
    | additional o => exact List.mem_cons_of_mem _ (List.mem_map_of_mem h)
  | _ => cases h

theorem Owner.resume_shares (o : Owner) : o.resume.flatMap Pc.shares = refs o.held := by
  cases o <;> rfl

theorem Reference.released_shares (r : Reference) : r.released.1.flatMap Pc.shares = refs r.rest := by
  cases r with
  | held id => rfl
  | additional o => exact o.resume_shares

theorem Recycler.finished_shares (k : Recycler) : k.finished.1.flatMap Pc.shares = refs k.held := by
  cases k with
  | addressImpl c => rfl
  | dereference r => exact r.released_shares

theorem Call.accepted_shares (c : Call) : c.accepted.shares = [.ref (genOf c.id)] := by
  cases c <;> rfl

/-! Versions. -/

def Slot.begun (a : Slot) : Nat := if a.phase = .building ∨ a.phase = .live ∨ a.phase = .failed then 1 else 0

def Slot.failed (a : Slot) : Nat := if a.phase = .failed then 1 else 0

def Slot.version (a : Slot) : Nat := 2 * a.gen + Slot.failed a

theorem Slot.version_failed {a : Slot} (hp : a.phase = .failed) : version a = 2 * a.gen + 1 := by
  rw [version, failed, if_pos hp]

theorem Slot.version_unfailed {a : Slot} (hp : a.phase ≠ .failed) : version a = 2 * a.gen := by
  rw [version, failed, if_neg hp, Nat.add_zero]

/-- The version is odd exactly when the generation has failed. -/
theorem Slot.version_cases (a : Slot) :
    a.phase = .failed ∧ version a = 2 * a.gen + 1 ∨ a.phase ≠ .failed ∧ version a = 2 * a.gen := by
  by_cases hp : a.phase = .failed
  · exact .inl ⟨hp, version_failed hp⟩
  · exact .inr ⟨hp, version_unfailed hp⟩

/-- An id that `Create` could have made. -/
def Proper (slot : ResourceId) (id : VRefId) : Prop := id = idOf slot (genOf id)

theorem genOf_lt (id : VRefId) : 2 * genOf id < 2 ^ 32 := by
  rw [genOf, versionOfVRefId]
  omega

theorem Proper.version {id : VRefId} (h : Proper slot id) : versionOfVRefId id = 2 * genOf id := by
  conv_lhs => rw [h]
  exact versionOfVRefId_idOf (genOf_lt id)

theorem proper_idOf {k : Nat} (hk : 2 * k < 2 ^ 32) : Proper slot (idOf slot k) := by
  rw [Proper, genOf_idOf hk]

/-! The memory of a slot and the local variables of its threads. -/

structure MemFits (slot : ResourceId) (m : SlotMem) (a : Slot) : Prop where
  word : m.versionedRef = pack (Slot.version a) a.count
  small : a.count < 2 ^ 31
  room : 2 * (a.gen + Slot.begun a) < 2 ^ 32
  pooled : m.pooled = if a.phase = .free then 1 else 0
  named : a.phase = .live ∨ a.phase = .failed → m.thisId = idOf slot a.gen
  cleaned : a.phase = .cleaning → m.thisId = idOf slot (a.gen - 1)
  counting : a.phase = .live → m.additionalRefStatus = ADDITIONAL_REF_USING
  sound : m.crashed = false

def Owner.Wf (slot : ResourceId) (m : SlotMem) : Owner → Prop
  | .holder id | .byId id => Proper slot id
  | .creator id => Proper slot id ∧ m.thisId = id ∧ m.additionalRefStatus = ADDITIONAL_REF_USING

def Recycler.Wf (slot : ResourceId) : Recycler → Prop
  | .addressImpl _ => True
  | .dereference r => Proper slot r.id

def Pc.Wf (slot : ResourceId) (m : SlotMem) : Pc → Prop
  | .create | .address _ | .unaddress _ _ => True
  | .storeId id => Proper slot id
  | .storeStatus id => Proper slot id ∧ m.thisId = id
  | .onCreated id | .returnId id =>
    Proper slot id ∧ m.thisId = id ∧ m.additionalRefStatus = ADDITIONAL_REF_USING
  | .exchangeAddressed _ vref2 => ∃ k, 2 * k + 1 < 2 ^ 32 ∧ vref2 = pack (2 * k + 1) 1
  | .holder id => Proper slot id
  | .setFailed o => o.Wf slot m
  | .loadVRef o idVer => o.Wf slot m ∧ idVer = versionOfVRefId o.id
  | .exchangeVRef o idVer vref => o.Wf slot m ∧ idVer = versionOfVRefId o.id ∧ versionOfVRef vref = idVer
  | .onFailed o | .releaseAdditional o =>
    Proper slot o.id ∧ m.additionalRefStatus = ADDITIONAL_REF_USING
  | .dereference r => Proper slot r.id
  | .fetchSub r id => Proper slot r.id ∧ id = r.id
  | .exchangeDereferenced r id vref => Proper slot r.id ∧ id = r.id ∧ vref = pack (2 * genOf id + 1) 1
  | .beforeRecycled k id | .returnResource k id => Proper slot id ∧ k.Wf slot

/-- Only a thread with an exclusive share relies on `_this_id` or the status. -/
theorem Pc.Wf.change {m' : SlotMem} {pc : Pc} (h : pc.Wf slot m)
    (hkeep : (m'.thisId = m.thisId ∧ m'.additionalRefStatus = m.additionalRefStatus) ∨
      ∀ t ∈ pc.shares, t.exclusive = 0) : pc.Wf slot m' := by
  rcases hkeep with ⟨hid, hstatus⟩ | hnone
  · cases pc with
    | setFailed o | loadVRef o _ | exchangeVRef o _ _ =>
      cases o <;> simpa [Pc.Wf, Owner.Wf, hid, hstatus] using h
    | _ => simp_all [Pc.Wf]
  · cases pc with
    | setFailed o | loadVRef o _ | exchangeVRef o _ _ =>
      cases o <;> simp_all [Pc.Wf, Owner.Wf, Pc.shares, Owner.shares, Share.exclusive]
    | _ => simp_all [Pc.Wf, Pc.shares, Share.exclusive]

theorem Owner.Wf.proper {o : Owner} (h : o.Wf slot m) : Proper slot o.id := by
  cases o with
  | holder id | byId id => exact h
  | creator id => exact h.1

theorem Owner.resume_wf {o : Owner} (h : Proper slot o.id) : ∀ pc ∈ o.resume, pc.Wf slot m := by
  cases o with
  | holder id | byId id => exact List.forall_mem_singleton.mpr h
  | creator id => exact nofun

theorem Reference.released_wf {r : Reference} (h : Proper slot r.id) : ∀ pc ∈ r.released.1, pc.Wf slot m := by
  cases r with
  | held id => simp [Reference.released]
  | additional o => exact Owner.resume_wf h

theorem Recycler.finished_wf {k : Recycler} (h : k.Wf slot) : ∀ pc ∈ k.finished.1, pc.Wf slot m := by
  cases k with
  | addressImpl c => simp [Recycler.finished]
  | dereference r => exact Reference.released_wf h

structure Fits (slot : ResourceId) (m : SlotMem) (T : Multiset Pc) (a : Slot) : Prop where
  shares : Generations.Inv a (sharesOf T)
  mem : MemFits slot m a
  wf : ∀ pc ∈ T, pc.Wf slot m

section
variable {m' : SlotMem} {a a' : Slot} {pc : Pc} {pcs : List Pc} {R : Multiset Pc}

section

variable (h : MemFits slot m a)

include h

theorem MemFits.version_lt : Slot.version a < 2 ^ 32 := by
  have := h.room
  simp only [Slot.version, Slot.failed, Slot.begun] at this ⊢
  split <;> simp_all <;> omega

theorem MemFits.versionOf : versionOfVRef m.versionedRef = Slot.version a := by
  have := h.small
  rw [h.word]
  exact versionOfVRef_pack h.version_lt (by omega)

theorem MemFits.nrefOf : nrefOfVRef m.versionedRef = a.count := by
  rw [h.word]
  exact nrefOfVRef_pack h.small

theorem MemFits.incremented (hsmall : a.count + 1 < 2 ^ 31) :
    MemFits slot m.fetchAdd { a with count := a.count + 1 } where
  word := by
    show VersionedRef.incremented m.versionedRef = _
    rw [h.word]
    exact incremented_pack h.version_lt (by omega)
  small := hsmall
  room := h.room
  pooled := h.pooled
  named := h.named
  cleaned := h.cleaned
  counting := h.counting
  sound := h.sound

theorem MemFits.decremented (hpos : 0 < a.count) :
    MemFits slot m.fetchSub { a with count := a.count - 1 } where
  word := by
    show VersionedRef.decremented m.versionedRef = _
    rw [h.word]
    exact decremented_pack hpos
  small := Nat.lt_of_le_of_lt (Nat.sub_le a.count 1) h.small
  room := h.room
  pooled := h.pooled
  named := h.named
  cleaned := h.cleaned
  counting := h.counting
  sound := h.sound

/-- The word that lets a recycling exchange succeed: the generation has failed and nobody
    is counted. -/
theorem MemFits.recyclable_iff {g : Nat} :
    m.versionedRef = VersionedRef.decremented (pack (2 * g + 1) 1) ↔ a.gen = g ∧ a.phase = .failed ∧ a.count = 0 := by
  rw [decremented_pack Nat.one_pos, h.word]
  constructor
  · intro heq
    obtain ⟨hv, hzero⟩ := pack_inj (Nat.lt_trans h.small (by decide)) (by decide) heq
    rcases Slot.version_cases a with ⟨hp, hver⟩ | ⟨_, hver⟩
    · exact ⟨by omega, hp, hzero⟩
    · omega
  · rintro ⟨rfl, hp, hzero⟩
    rw [Slot.version_failed hp, hzero]

end

/-- The thread that moves, its shares in front of the others'. -/
theorem Fits.front (h : Fits slot m (pc ::ₘ R) a) : Generations.Inv a ((pc.shares : Multiset Share) + sharesOf R) := by
  simpa using h.shares

/-- Its only share. -/
theorem Fits.share {x : Share} (h : Fits slot m (pc ::ₘ R) a) (hpc : pc.shares = [x]) :
    Generations.Inv a (x ::ₘ sharesOf R) := by
  simpa [hpc] using h.front

theorem Fits.head_wf (h : Fits slot m (pc ::ₘ R) a) : pc.Wf slot m := h.wf pc (Multiset.mem_cons_self pc R)

/-- A step puts `pcs` in place of `pc`. -/
theorem Fits.step (h : Fits slot m (pc ::ₘ R) a)
    (hshares : Generations.Inv a' ((pcs.flatMap Pc.shares : Multiset Share) + sharesOf R))
    (hmem : MemFits slot m' a') (hwf : ∀ pc' ∈ pcs, pc'.Wf slot m')
    (hkeep : (m'.thisId = m.thisId ∧ m'.additionalRefStatus = m.additionalRefStatus) ∨
      ∀ t ∈ sharesOf R, t.exclusive = 0) : Fits slot m' (pcs + R) a' where
  shares := by simpa using hshares
  mem := hmem
  wf := by
    intro pc' hpc'
    rcases Multiset.mem_add.mp hpc' with hnew | hold
    · exact hwf pc' hnew
    · refine (h.wf pc' (Multiset.mem_cons_of_mem hold)).change (hkeep.imp_right fun hnone t ht => ?_)
      exact hnone t (Multiset.mem_bind.mpr ⟨pc', hold, ht⟩)

end

end LightRpc.VersionedRef

import LightRpc.ByteOrder
import LightRpc.Lib.Machine

/- Versioned references (`versioned_ref_with_id.h`): one slot of the resource pool and
   the threads that use it through `Create`, `Address`, `AddressFailedAsWell`,
   `ReAddress`, `SetFailed`, `SetFailedById` and `Dereference`.

   `_versioned_ref` is the 64-bit word of the source, version above and count below.
   Every access to it, to `_this_id` and to `_additional_ref_status` is a step of its
   own, and so are the callbacks `OnCreated`, `OnFailed`, `BeforeRecycled` and the call
   of `return_resource`. Threads are anonymous; a thread between two calls that holds a
   reference is `holder`. `Revive` is left out: no derived class calls it.

   An id is only in somebody's hands after the `Create` that made it has returned, so
   `Address` is called with those ids, of this generation or of older ones; neither
   derived class shows its id to others in `OnCreated`.

   `history` records what happened to the slot. A failed `CHECK` or a `LOG(FATAL)`
   sets `crashed`. -/
namespace LightRpc.VersionedRef

open Lib

variable {n v k : Nat} {slot : ResourceId}

abbrev VRefId := Nat
abbrev ResourceId := Fin (2 ^ 32)

def makeVRefId (version : Nat) (slot : ResourceId) : VRefId := version <<< 32 ||| slot.val

def versionOfVRefId (id : VRefId) : Nat := id >>> 32 % 2 ^ 32

def versionOfVRef (vref : Nat) : Nat := vref >>> 32 % 2 ^ 32

def nrefOfVRef (vref : Nat) : Int := int32 (vref &&& 0xFFFFFFFF : Nat)

def makeVRef (version : Nat) (nref : Int) : Nat := version <<< 32 ||| uint32 nref

/-- The word after `fetch_add(1)`. -/
def incremented (vref : Nat) : Nat := (vref + 1) % 2 ^ 64

/-- The word after `fetch_sub(1)`. -/
def decremented (vref : Nat) : Nat := if vref = 0 then 2 ^ 64 - 1 else vref - 1

inductive AdditionalRefStatus where
  | ADDITIONAL_REF_USING
  | ADDITIONAL_REF_REVIVING
  | ADDITIONAL_REF_RECYCLED
  deriving DecidableEq, Repr

open AdditionalRefStatus

structure SlotMem where
  versionedRef : Nat
  thisId : VRefId
  additionalRefStatus : AdditionalRefStatus
  /-- How often the slot lies in the free list of the pool. -/
  pooled : Nat
  crashed : Bool
  deriving DecidableEq, Repr

def SlotMem.fetchAdd (m : SlotMem) : SlotMem := { m with versionedRef := incremented m.versionedRef }

def SlotMem.fetchSub (m : SlotMem) : SlotMem := { m with versionedRef := decremented m.versionedRef }

/-- The id `Create` makes from the word its `fetch_add` finds. -/
def SlotMem.createdId (slot : ResourceId) (m : SlotMem) : VRefId := makeVRefId (versionOfVRef m.versionedRef) slot

/-! What happens to a slot. -/

inductive EventKind where
  /-- `Create` counts its reference: a generation begins. -/
  | begun
  /-- `Create` returns the id. -/
  | created
  /-- `AddressImpl` returns `rc`. -/
  | addressed (failedAsWell : Bool) (rc : Int)
  /-- The exchange of `SetFailedImpl` succeeds. -/
  | failed
  | onFailed
  /-- `SetFailed` or `SetFailedById` returns `rc`. -/
  | setFailed (rc : Int)
  | beforeRecycled
  /-- `return_resource` is called. -/
  | returned
  deriving DecidableEq, Repr

structure Event where
  kind : EventKind
  id : VRefId
  deriving DecidableEq, Repr

/-- The ids that events of one kind were about, in order. -/
def idsOf (k : EventKind) (h : List Event) : List VRefId := (h.filter (·.kind = k)).map Event.id

/-- The generation that occupies the slot. -/
def current (h : List Event) : Option VRefId :=
  h.foldl (fun c e => match e.kind with
    | .begun => some e.id
    | .returned => none
    | _ => c) none

/-! Program counters. An id that the source does not keep at that point is there to say
    which generation the thread is about; no step depends on it. -/

/-- A call of `AddressImpl`. -/
inductive Call where
  | address (id : VRefId)
  | addressFailedAsWell (id : VRefId)
  | setFailedById (id : VRefId)
  deriving DecidableEq, Repr

def Call.id : Call → VRefId
  | address id | addressFailedAsWell id | setFailedById id => id

def Call.failedAsWell : Call → Bool
  | addressFailedAsWell _ => true
  | _ => false

/-- The caller of `SetFailed`. -/
inductive Owner where
  | holder (id : VRefId)
  /-- `SetFailedById`, which dereferences afterwards. -/
  | byId (id : VRefId)
  /-- `Create`, after `OnCreated` failed. -/
  | creator (id : VRefId)
  deriving DecidableEq, Repr

def Owner.id : Owner → VRefId
  | holder id | byId id | creator id => id

/-- The reference that is being dereferenced. -/
inductive Reference where
  | held (id : VRefId)
  /-- The one `Create` added, by the caller of `SetFailed`. -/
  | additional (o : Owner)
  deriving DecidableEq, Repr

def Reference.id : Reference → VRefId
  | held id => id
  | additional o => o.id

/-- The call that recycles. -/
inductive Recycler where
  | addressImpl (c : Call)
  | dereference (r : Reference)
  deriving DecidableEq, Repr

inductive Pc where
  -- `Create`
  | create
  | storeId (id : VRefId)
  | storeStatus (id : VRefId)
  | onCreated (id : VRefId)
  | returnId (id : VRefId)
  -- `AddressImpl`
  | address (c : Call)
  | unaddress (c : Call) (ver1 : Nat)
  | exchangeAddressed (c : Call) (vref2 : Nat)
  -- between calls
  | holder (id : VRefId)
  -- `SetFailedImpl` and `ReleaseAdditionalReference`
  | setFailed (o : Owner)
  | loadVRef (o : Owner) (idVer : Nat)
  | exchangeVRef (o : Owner) (idVer vref : Nat)
  | onFailed (o : Owner)
  | releaseAdditional (o : Owner)
  -- `Dereference`
  | dereference (r : Reference)
  | fetchSub (r : Reference) (id : VRefId)
  | exchangeDereferenced (r : Reference) (id : VRefId) (vref : Nat)
  -- `AddressImpl` and `Dereference`, after the exchange
  | beforeRecycled (k : Recycler) (id : VRefId)
  | returnResource (k : Recycler) (id : VRefId)
  deriving DecidableEq, Repr

/-- What the code does not decide. -/
inductive Choice where
  | go
  /-- `OnCreated` returns `rc`. -/
  | created (rc : Int)
  -- what a holder does next
  | dereference
  | reAddress
  | setFailed
  deriving DecidableEq, Repr

/-- A step leaves the slot's memory, the threads in place of the one that moved, and events. -/
abbrev Outcome := SlotMem × List Pc × List Event

/-- The caller goes on after `SetFailed`. -/
def Owner.resume : Owner → List Pc
  | .holder id => [.holder id]
  | .byId id => [.dereference (.held id)]
  | .creator _ => []

/-- `AddressImpl` returns -1, and `SetFailedById` with it. -/
def Call.refused (c : Call) : List Event :=
  ⟨.addressed c.failedAsWell (-1), c.id⟩ ::
    match c with
    | .setFailedById id => [⟨.setFailed (-1), id⟩]
    | _ => []

/-- `AddressImpl` returns with a reference. -/
def Call.accepted : Call → Pc
  | .address id | .addressFailedAsWell id => .holder id
  | .setFailedById id => .setFailed (.byId id)

/-- `Dereference` returns. -/
def Reference.released : Reference → List Pc × List Event
  | .held _ => ([], [])
  | .additional o => (o.resume, [⟨.setFailed 0, o.id⟩])

def Recycler.finished : Recycler → List Pc × List Event
  | .addressImpl c => ([], c.refused)
  | .dereference r => r.released

def crash (m : SlotMem) : Outcome := ({ m with crashed := true }, [], [])

def createStep (slot : ResourceId) (m : SlotMem) : Pc → Choice → Option Outcome
  | .create, .go => some (m.fetchAdd, [.storeId (m.createdId slot)], [⟨.begun, m.createdId slot⟩])
  | .storeId id, .go => some ({ m with thisId := id }, [.storeStatus id], [])
  | .storeStatus id, .go =>
    some ({ m with additionalRefStatus := ADDITIONAL_REF_USING }, [.onCreated id], [])
  | .onCreated id, .created rc =>
    if rc ≠ 0 then some (m, [.setFailed (.creator id)], []) else some (m, [.returnId id], [])
  | .returnId _, .go => some (m, [], [⟨.created, m.thisId⟩])
  | _, _ => none

def addressStep (slot : ResourceId) (m : SlotMem) : Pc → Choice → Option Outcome
  | .address c, .go =>
    if versionOfVRef m.versionedRef = versionOfVRefId c.id then
      some (m.fetchAdd, [c.accepted], [⟨.addressed c.failedAsWell 0, c.id⟩])
    else if c.failedAsWell ∧ versionOfVRef m.versionedRef = (versionOfVRefId c.id + 1) % 2 ^ 32 then
      some (m.fetchAdd, [c.accepted], [⟨.addressed c.failedAsWell 1, c.id⟩])
    else some (m.fetchAdd, [.unaddress c (versionOfVRef m.versionedRef)], [])
  | .unaddress c ver1, .go =>
    if nrefOfVRef m.versionedRef > 1 then some (m.fetchSub, [], c.refused)
    else if nrefOfVRef m.versionedRef = 1 then
      if versionOfVRef m.versionedRef % 2 = 1 then
        if ver1 = versionOfVRef m.versionedRef ∨ (ver1 + 1) % 2 ^ 32 = versionOfVRef m.versionedRef then
          some (m.fetchSub, [.exchangeAddressed c m.versionedRef], [])
        else some (crash m.fetchSub)
      else some (m.fetchSub, [], c.refused)
    else some (crash m.fetchSub)
  | .exchangeAddressed c vref2, .go =>
    if m.versionedRef = decremented vref2 then
      some ({ m with versionedRef := makeVRef ((versionOfVRef vref2 + 1) % 2 ^ 32) 0 },
        [.beforeRecycled (.addressImpl c) (makeVRefId (versionOfVRef vref2 - 1) slot)], [])
    else some (m, [], c.refused)
  | _, _ => none

def holderStep (m : SlotMem) : Pc → Choice → Option Outcome
  | .holder id, .dereference => some (m, [.dereference (.held id)], [])
  | .holder id, .reAddress => some (m.fetchAdd, [.holder id, .holder id], [])
  | .holder id, .setFailed => some (m, [.setFailed (.holder id)], [])
  | _, _ => none

/-- The head of the loop of `SetFailedImpl`. -/
def tryFail (o : Owner) (idVer vref : Nat) : List Pc × List Event :=
  if versionOfVRef vref ≠ idVer then (o.resume, [⟨.setFailed (-1), o.id⟩])
  else ([.exchangeVRef o idVer vref], [])

def setFailedStep (slot : ResourceId) (m : SlotMem) : Pc → Choice → Option Outcome
  | .setFailed o, .go => some (m, [.loadVRef o (versionOfVRefId m.thisId)], [])
  | .loadVRef o idVer, .go => some (m, tryFail o idVer m.versionedRef)
  | .exchangeVRef o idVer vref, .go =>
    if m.versionedRef = vref then
      some ({ m with versionedRef := makeVRef ((idVer + 1) % 2 ^ 32) (nrefOfVRef vref) },
        [.onFailed o], [⟨.failed, makeVRefId idVer slot⟩])
    else some (m, tryFail o idVer m.versionedRef)
  | .onFailed o, .go => some (m, [.releaseAdditional o], [⟨.onFailed, m.thisId⟩])
  | .releaseAdditional o, .go =>
    match m.additionalRefStatus with
    | ADDITIONAL_REF_USING =>
      some ({ m with additionalRefStatus := ADDITIONAL_REF_RECYCLED }, [.dereference (.additional o)], [])
    | ADDITIONAL_REF_REVIVING => some (m, [.releaseAdditional o], [])
    | ADDITIONAL_REF_RECYCLED => some (m, o.resume, [⟨.setFailed 0, o.id⟩])
  | _, _ => none

def dereferenceStep (m : SlotMem) : Pc → Choice → Option Outcome
  | .dereference r, .go => some (m, [.fetchSub r m.thisId], [])
  | .fetchSub r id, .go =>
    if nrefOfVRef m.versionedRef > 1 then some (m.fetchSub, r.released)
    else if nrefOfVRef m.versionedRef = 1 then
      if versionOfVRef m.versionedRef = versionOfVRefId id ∨
          versionOfVRef m.versionedRef = (versionOfVRefId id + 1) % 2 ^ 32 then
        some (m.fetchSub, [.exchangeDereferenced r id m.versionedRef], [])
      else some (crash m.fetchSub)
    else some (crash m.fetchSub)
  | .exchangeDereferenced r id vref, .go =>
    if m.versionedRef = decremented vref then
      some ({ m with versionedRef := makeVRef ((versionOfVRefId id + 2) % 2 ^ 32) 0 },
        [.beforeRecycled (.dereference r) id], [])
    else some (m, r.released)
  | _, _ => none

def recycleStep (m : SlotMem) : Pc → Choice → Option Outcome
  | .beforeRecycled k id, .go => some (m, [.returnResource k id], [⟨.beforeRecycled, m.thisId⟩])
  | .returnResource k _, .go =>
    some ({ m with pooled := m.pooled + 1 }, k.finished.1, ⟨.returned, m.thisId⟩ :: k.finished.2)
  | _, _ => none

def Pc.step (slot : ResourceId) (m : SlotMem) (pc : Pc) (choice : Choice) : Option Outcome :=
  match pc with
  | .create | .storeId _ | .storeStatus _ | .onCreated _ | .returnId _ => createStep slot m pc choice
  | .address _ | .unaddress _ _ | .exchangeAddressed _ _ => addressStep slot m pc choice
  | .holder _ => holderStep m pc choice
  | .setFailed _ | .loadVRef _ _ | .exchangeVRef _ _ _ | .onFailed _ | .releaseAdditional _ =>
    setFailedStep slot m pc choice
  | .dereference _ | .fetchSub _ _ | .exchangeDereferenced _ _ _ => dereferenceStep m pc choice
  | .beforeRecycled _ _ | .returnResource _ _ => recycleStep m pc choice

structure SlotState where
  mem : SlotMem
  threads : Multiset Pc
  history : List Event

inductive SlotAct where
  /-- `Create` is called and `get_resource` hands this slot out. -/
  | create
  | call (c : Call)
  | step (pc : Pc) (choice : Choice)

def SlotState.next (slot : ResourceId) (s : SlotState) : SlotAct → Option SlotState
  | .create =>
    if 0 < s.mem.pooled ∧ ¬ s.mem.crashed then
      some { s with mem := { s.mem with pooled := s.mem.pooled - 1 }, threads := .create ::ₘ s.threads }
    else none
  | .call c =>
    if ⟨.created, c.id⟩ ∈ s.history ∧ ¬ s.mem.crashed then some { s with threads := .address c ::ₘ s.threads }
    else none
  | .step pc choice =>
    if pc ∈ s.threads ∧ ¬ s.mem.crashed then
      (pc.step slot s.mem choice).map fun r =>
        ⟨r.1, Threads.replace s.threads pc r.2.1, s.history ++ r.2.2⟩
    else none

/-- A slot no `Create` has used. -/
def SlotState.fresh : SlotState := ⟨⟨0, 0, ADDITIONAL_REF_USING, 1, false⟩, 0, []⟩

def slotMachine (slot : ResourceId) : Machine SlotState SlotAct where
  init := fun s => s = .fresh
  next := SlotState.next slot

/-- Steps that keep the reference count below 2^31 and the generations fewer than 2^31. -/
def withinBounds (s : SlotState) : SlotAct → Bool
  | .step .create _ =>
    nrefOfVRef s.mem.versionedRef + 1 < 2 ^ 31 && (idsOf .begun s.history).length + 1 < 2 ^ 31
  | .step (.address _) _ => nrefOfVRef s.mem.versionedRef + 1 < 2 ^ 31
  | .step (.holder _) .reAddress => nrefOfVRef s.mem.versionedRef + 1 < 2 ^ 31
  | _ => true

/-! The word and its two halves. -/

def pack (version count : Nat) : Nat := version * 2 ^ 32 + count

theorem shift_or_eq (hn : n < 2 ^ 32) : v <<< 32 ||| n = pack v n := by
  rw [← Nat.shiftLeft_add_eq_or_of_lt hn, Nat.shiftLeft_eq, pack]

theorem versionOfVRef_pack (hv : v < 2 ^ 32) (hn : n < 2 ^ 32) : versionOfVRef (pack v n) = v := by
  rw [versionOfVRef, Nat.shiftRight_eq_div_pow, pack]
  omega

theorem nrefOfVRef_pack (hn : n < 2 ^ 31) : nrefOfVRef (pack v n) = n := by
  rw [nrefOfVRef, show (0xFFFFFFFF : Nat) = 2 ^ 32 - 1 from rfl, Nat.and_two_pow_sub_one_eq_mod, pack,
    show (v * 2 ^ 32 + n) % 2 ^ 32 = n by omega]
  apply Int.bmod_eq_of_le <;> omega

theorem makeVRef_pack (hn : n < 2 ^ 32) : makeVRef v n = pack v n := by
  have hcast : uint32 n = n := by
    have := uint32_cast n
    omega
  rw [makeVRef, hcast, shift_or_eq hn]

theorem incremented_pack (hv : v < 2 ^ 32) (hn : n + 1 < 2 ^ 32) : incremented (pack v n) = pack v (n + 1) := by
  rw [incremented, pack, pack]
  omega

theorem decremented_pack (hpos : 0 < n) : decremented (pack v n) = pack v (n - 1) := by
  rw [decremented, pack, pack, if_neg (by omega)]
  omega

theorem pack_inj {v' n' : Nat} (hn : n < 2 ^ 32) (hn' : n' < 2 ^ 32) (h : pack v n = pack v' n') : v = v' ∧ n = n' := by
  rw [pack, pack] at h
  omega

/-- The id of the slot's `k`-th generation. -/
def idOf (slot : ResourceId) (k : Nat) : VRefId := makeVRefId (2 * k) slot

/-- The number of a generation, from its id. -/
def genOf (id : VRefId) : Nat := versionOfVRefId id / 2

theorem makeVRefId_eq (slot : ResourceId) (v : Nat) : makeVRefId v slot = pack v slot.val :=
  shift_or_eq slot.isLt

theorem versionOfVRefId_idOf (hk : 2 * k < 2 ^ 32) : versionOfVRefId (idOf slot k) = 2 * k := by
  rw [idOf, makeVRefId_eq]
  exact versionOfVRef_pack hk slot.isLt

theorem genOf_idOf (hk : 2 * k < 2 ^ 32) : genOf (idOf slot k) = k := by
  rw [genOf, versionOfVRefId_idOf hk]
  omega

theorem idOf_injective (slot : ResourceId) : Function.Injective (idOf slot) := by
  intro k k' h
  rw [idOf, idOf, makeVRefId_eq, makeVRefId_eq] at h
  have := (pack_inj slot.isLt slot.isLt h).1
  omega

/-- The ids of the first `n` generations. -/
def ids (slot : ResourceId) (n : Nat) : List VRefId := (List.range n).map (idOf slot)

theorem ids_succ (slot : ResourceId) (n : Nat) : ids slot (n + 1) = ids slot n ++ [idOf slot n] := by
  rw [ids, List.range_succ, List.map_append]
  rfl

theorem idOf_mem_ids : idOf slot k ∈ ids slot n ↔ k < n := by
  rw [ids, List.mem_map_of_injective (idOf_injective slot), List.mem_range]

theorem ids_nodup (slot : ResourceId) (n : Nat) : (ids slot n).Nodup :=
  List.nodup_range.map (idOf_injective slot)

@[simp] theorem idsOf_append (k : EventKind) (h h' : List Event) : idsOf k (h ++ h') = idsOf k h ++ idsOf k h' := by
  simp [idsOf]

theorem idsOf_cons (k : EventKind) (e : Event) (h : List Event) :
    idsOf k (e :: h) = (if e.kind = k then [e.id] else []) ++ idsOf k h := by
  by_cases hk : e.kind = k <;> simp [idsOf, hk]

theorem mem_idsOf {k : EventKind} {id : VRefId} {h : List Event} : id ∈ idsOf k h ↔ ⟨k, id⟩ ∈ h := by
  simp only [idsOf, List.mem_map, List.mem_filter, decide_eq_true_eq]
  constructor
  · rintro ⟨⟨k', id'⟩, ⟨hmem, rfl⟩, rfl⟩
    exact hmem
  · intro hmem
    exact ⟨_, ⟨hmem, rfl⟩, rfl⟩

end LightRpc.VersionedRef

import LightRpc.Lib.Machine
import LightRpc.Lib.Locks

/- Thread-specific keys: ids that are used again, told apart by a sequence number.

   A key is an entry of a global table. Its sequence number is odd while the key is in use and
   grows with every creation and every deletion, so a `ThreadKey` object, which remembers the
   number, stands for one creation. A thread keeps, for each id, the value it set and the number
   it set it under. `thread_getspecific` compares the two numbers. The exit handler copies the
   table under the mutex and then calls, for each entry of the thread's vector whose id has a
   key in the copy, that key's destructor; it compares nothing.

   What is proved:
     1. a lookup returns the value the thread last set under the same creation, in every run;
     2. the handler can call a key's destructor on the value of another creation of its id;
     3. destructors are called rightly in every run in which the comparison that the handler
        leaves out would have succeeded, and no key is deleted, and no thread's vector grows,
        between the copy and the call.

   A call is one step, except for the exit handler: it is a step that takes the copy and one step
   for each index, for the destructors it calls may take their time. Next to the program's state
   the model numbers the creations and remembers what each thread set under each. -/
namespace LightRpc.ThreadKeys

open Lib Function List Option

structure ThreadKey where
  id : Nat
  seq : Nat
  deriving DecidableEq, Repr

def InvalidID : Nat := 2 ^ 64 - 1

def InitSeq : Nat := 0

def EINVAL : Int := 22

def EAGAIN : Int := 11

/-- `KEY_UNUSED` -/
def keyUnused (p : Nat) : Bool := p &&& 1 == 0

/-- `KEY_USABLE`, on a `size_t` -/
def keyUsable (p : Nat) : Bool := p < (p + 2) % 2 ^ 64

namespace ThreadKey

/-- `ThreadKey()`, and what `Reset` leaves -/
def reset : ThreadKey := ⟨InvalidID, InitSeq⟩

def valid (k : ThreadKey) : Bool := k.id != InvalidID && !keyUnused k.seq

end ThreadKey

variable {δ ν : Type} {n : Nat}

/-- `dtor` is `none` for a null function. -/
structure ThreadKeyInfo (δ : Type) where
  seq : Nat
  dtor : Option δ
  deriving DecidableEq

/-- `data` is `none` for a null pointer. -/
structure ThreadKeyTLS (ν : Type) where
  seq : Nat
  data : Option ν
  deriving DecidableEq

/-- Where a thread is in `DestroyTlsData`. -/
structure Exiting (δ : Type) where
  dummyKeys : List (ThreadKeyInfo δ)
  i : Nat

structure Thread (δ ν : Type) where
  tlsData : Option (List (ThreadKeyTLS ν))
  exiting : Option (Exiting δ)

/-- The ids to be used again are listed from the back of the deque. `keys` are the `ThreadKey`
    objects of the program. -/
structure Keys (δ ν : Type) (n : Nat) where
  gId : Nat
  gFreeIds : List Nat
  gThreadKeys : List (ThreadKeyInfo δ)
  keys : Nat → ThreadKey
  threads : Fin n → Thread δ ν

def Keys.setThread (s : Keys δ ν n) (t : Fin n) (thread : Thread δ ν) : Keys δ ν n :=
  { s with threads := Function.update s.threads t thread }

/-- `std::vector::resize` to a size that is not smaller. -/
def grow {α : Type} (l : List α) (size : Nat) (x : α) : List α := l ++ List.replicate (size - l.length) x

/-- The end of `thread_key_create`: the entry gets its number, and the object the entry. -/
def assignKey (s : Keys δ ν n) (k id : Nat) (dtor : Option δ) : Keys δ ν n :=
  let seq := ((s.gThreadKeys.getD id ⟨0, none⟩).seq + 1) % 2 ^ 64
  { s with
    gThreadKeys := s.gThreadKeys.set id ⟨seq, dtor⟩
    keys := Function.update s.keys k ⟨id, seq⟩ }

/-- `thread_key_create`, into object `k` -/
def threadKeyCreate (s : Keys δ ν n) (k : Nat) (dtor : Option δ) : Keys δ ν n × Int :=
  match s.gFreeIds with
  | id :: rest => (assignKey { s with gFreeIds := rest } k id dtor, 0)
  | [] =>
    if InvalidID ≤ s.gId then (s, EAGAIN)
    else
      let s' := { s with gId := s.gId + 1, gThreadKeys := grow s.gThreadKeys (s.gId + 1) ⟨0, none⟩ }
      (assignKey s' k s.gId dtor, 0)

/-- `thread_key_delete` of object `k` -/
def threadKeyDelete (s : Keys δ ν n) (k : Nat) : Keys δ ν n × Int :=
  let key := s.keys k
  if !key.valid then (s, EINVAL)
  else
    let dropped := Function.update s.keys k ThreadKey.reset
    match s.gThreadKeys[key.id]? with
    | none => ({ s with keys := dropped }, EINVAL)
    | some info =>
      if key.seq != info.seq || keyUnused info.seq then ({ s with keys := dropped }, EINVAL)
      else
        let seq := (info.seq + 1) % 2 ^ 64
        ({ s with
          gThreadKeys := s.gThreadKeys.set key.id { info with seq := seq }
          gFreeIds := if keyUsable seq then key.id :: s.gFreeIds else s.gFreeIds
          keys := dropped }, 0)

/-- `ThreadKey::operator=(ThreadKey&&)` from object `k` to object `j` -/
def moveKey (s : Keys δ ν n) (j k : Nat) : Keys δ ν n :=
  if j = k then s
  else { s with keys := Function.update (Function.update s.keys j (s.keys k)) k ThreadKey.reset }

/-- The end of `thread_setspecific`: the vector grows to the id, and the entry is written. -/
def setEntry (tlsData : List (ThreadKeyTLS ν)) (id : Nat) (entry : ThreadKeyTLS ν) : List (ThreadKeyTLS ν) :=
  (if tlsData.length ≤ id then grow tlsData (id + 1) ⟨0, none⟩ else tlsData).set id entry

/-- `thread_setspecific` in thread `t` -/
def threadSetspecific (s : Keys δ ν n) (t : Fin n) (k : Nat) (data : Option ν) : Keys δ ν n × Int :=
  let key := s.keys k
  if !key.valid then (s, EINVAL)
  else
    let thread := s.threads t
    let thread := { thread with tlsData := some (setEntry (thread.tlsData.getD []) key.id ⟨key.seq, data⟩) }
    (s.setThread t thread, 0)

/-- `thread_getspecific` in thread `t` -/
def threadGetspecific (s : Keys δ ν n) (t : Fin n) (k : Nat) : Option ν :=
  let key := s.keys k
  if !key.valid then none
  else
    match (s.threads t).tlsData.bind (·[key.id]?) with
    | none => none
    | some entry => if entry.seq != key.seq then none else entry.data

/-- `DestroyTlsData` up to the loop; a thread that set nothing has no handler. -/
def exitThread (s : Keys δ ν n) (t : Fin n) : Option (Keys δ ν n) :=
  let thread := s.threads t
  if thread.exiting.isSome then none
  else if thread.tlsData.isNone then some s
  else
    let thread := { thread with exiting := some ⟨s.gThreadKeys, 0⟩ }
    some (s.setThread t thread)

/-- The destructor call of the loop's next round: index, destructor and argument. -/
def invoked (s : Keys δ ν n) (t : Fin n) : Option (Nat × δ × Option ν) := do
  let exiting ← (s.threads t).exiting
  let entry ← (← (s.threads t).tlsData)[exiting.i]?
  let info ← exiting.dummyKeys[exiting.i]?
  if keyUnused info.seq then none else return (exiting.i, ← info.dtor, entry.data)

/-- A round of the loop, or its end. The handler reads the copy at every index of the vector;
    past the end of the copy what it does is undefined. -/
def destroyNext (s : Keys δ ν n) (t : Fin n) : Option (Keys δ ν n) := do
  let exiting ← (s.threads t).exiting
  let tlsData ← (s.threads t).tlsData
  if exiting.i < tlsData.length then
    if exiting.i < exiting.dummyKeys.length then
      let thread := ⟨some tlsData, some { exiting with i := exiting.i + 1 }⟩
      some (s.setThread t thread)
    else none
  else some (s.setThread t ⟨none, none⟩)

/-! Creations. -/

structure Creation (δ : Type) where
  id : Nat
  seq : Nat
  dtor : Option δ
  alive : Bool
  deriving DecidableEq

/-- The program's state with its history: the creations in order, the one that each object
    stands for, and the value that each thread last set under each. -/
structure World (δ ν : Type) (n : Nat) where
  now : Keys δ ν n
  creations : List (Creation δ)
  owner : Nat → Option Nat
  lastSet : Fin n → Nat → Option (Option ν)

inductive Act (δ ν : Type) (n : Nat) where
  | create (k : Nat) (dtor : Option δ)
  | delete (k : Nat)
  | move (j k : Nat)
  | set (t : Fin n) (k : Nat) (data : Option ν)
  | exit (t : Fin n)
  | destroy (t : Fin n)

namespace World

def create (w : World δ ν n) (k : Nat) (dtor : Option δ) : World δ ν n :=
  let s := threadKeyCreate w.now k dtor
  if s.2 = 0 then
    { w with
      now := s.1
      creations := w.creations ++ [⟨(s.1.keys k).id, (s.1.keys k).seq, dtor, true⟩]
      owner := Function.update w.owner k (some w.creations.length) }
  else { w with now := s.1 }

def delete (w : World δ ν n) (k : Nat) : World δ ν n :=
  let s := threadKeyDelete w.now k
  { w with
    now := s.1
    creations :=
      if s.2 = 0 then (w.owner k).elim w.creations (fun c => w.creations.modify c ({ · with alive := false }))
      else w.creations
    owner := Function.update w.owner k none }

def move (w : World δ ν n) (j k : Nat) : World δ ν n :=
  if j = k then w
  else { w with now := moveKey w.now j k, owner := Function.update (Function.update w.owner j (w.owner k)) k none }

def set (w : World δ ν n) (t : Fin n) (k : Nat) (data : Option ν) : World δ ν n :=
  let s := threadSetspecific w.now t k data
  { w with
    now := s.1
    lastSet :=
      if s.2 = 0 then
        (w.owner k).elim w.lastSet fun c => Function.update w.lastSet t (Function.update (w.lastSet t) c (some data))
      else w.lastSet }

def exit (w : World δ ν n) (t : Fin n) : Option (World δ ν n) :=
  (exitThread w.now t).map fun s => { w with now := s }

/-- With its vector a thread's history ends; a later thread may have its number. -/
def destroy (w : World δ ν n) (t : Fin n) : Option (World δ ν n) :=
  (destroyNext w.now t).map fun s =>
    { w with
      now := s
      lastSet := if (s.threads t).tlsData.isNone then Function.update w.lastSet t (fun _ => none) else w.lastSet }

def next (w : World δ ν n) : Act δ ν n → Option (World δ ν n)
  | .create k dtor => some (w.create k dtor)
  | .delete k => some (w.delete k)
  | .move j k => some (w.move j k)
  | .set t k data => some (w.set t k data)
  | .exit t => w.exit t
  | .destroy t => w.destroy t

def start : World δ ν n where
  now := ⟨0, [], [], fun _ => ThreadKey.reset, fun _ => ⟨none, none⟩⟩
  creations := []
  owner := fun _ => none
  lastSet := fun _ _ => none

/-- What thread `t` last set under the creation that object `k` stands for, null if nothing. -/
def lastUnder (w : World δ ν n) (t : Fin n) (k : Nat) : Option ν := (w.owner k).bind fun c => (w.lastSet t c).join

/-- The creation is alive and is the one whose destructor is `dtor`, and `data` is what the
    thread set under it. -/
def Rightful (w : World δ ν n) (t : Fin n) (id : Nat) (dtor : δ) (data : Option ν) : Prop :=
  ∃ c seq, w.creations[c]? = some ⟨id, seq, some dtor, true⟩ ∧ w.lastSet t c = some data

end World

def keysMachine (δ ν : Type) (n : Nat) : Machine (World δ ν n) (Act δ ν n) where
  init := (· = World.start)
  next := World.next

@[simp] theorem setThread_self (s : Keys δ ν n) (t : Fin n) (thread : Thread δ ν) :
    (s.setThread t thread).threads t = thread := by
  simp [Keys.setThread]

theorem setThread_other {t t' : Fin n} (h : t' ≠ t) (s : Keys δ ν n) (thread : Thread δ ν) :
    (s.setThread t thread).threads t' = s.threads t' := by
  simp [Keys.setThread, h]

/-! The table and the creations. -/

@[simp] theorem keyUnused_iff {p : Nat} : keyUnused p = true ↔ p % 2 = 0 := by
  rw [keyUnused, Nat.and_one_is_mod, beq_iff_eq]

@[simp] theorem keyUnused_eq_false {p : Nat} : keyUnused p = false ↔ p % 2 = 1 := by
  rw [← Bool.not_eq_true, keyUnused_iff]
  omega

theorem keyUsable_iff {p : Nat} (hp : p < 2 ^ 64) (he : p % 2 = 0) : keyUsable p = true ↔ p + 2 < 2 ^ 64 := by
  rw [keyUsable, decide_eq_true_eq]
  by_cases h : p + 2 < 2 ^ 64
  · rw [Nat.mod_eq_of_lt h]
    omega
  · have : p + 2 = 2 ^ 64 := by omega
    rw [this]
    omega

/-- Every number of the table leaves room for the deletion of its key, and those of the ids to be
    used again for one more creation. -/
structure Numbered (s : Keys δ ν n) : Prop where
  size : s.gId = s.gThreadKeys.length
  ids : s.gId ≤ InvalidID
  room : ∀ (id : Nat) info, s.gThreadKeys[id]? = some info → info.seq % 2 = 1 → info.seq + 1 < 2 ^ 64
  free : ∀ id ∈ s.gFreeIds, ∃ info, s.gThreadKeys[id]? = some info ∧ info.seq % 2 = 0 ∧ info.seq + 2 < 2 ^ 64
  nodup : s.gFreeIds.Nodup

/-- An entry of the table got another number. -/
structure Renumbered (s s' : Keys δ ν n) (id seq : Nat) (dtor : Option δ) : Prop where
  entry : s'.gThreadKeys[id]? = some ⟨seq, dtor⟩
  others : ∀ j, j ≠ id → s'.gThreadKeys[j]? = s.gThreadKeys[j]?
  counted : ∀ info, s.gThreadKeys[id]? = some info → info.seq + 1 = seq
  longer : s.gThreadKeys.length ≤ s'.gThreadKeys.length
  threads : s'.threads = s.threads

variable {s s' : Keys δ ν n} {w w' : World δ ν n} {k id seq : Nat} {dtor : Option δ}
variable {t : Fin n} {c p : Nat} {r : Creation δ}

/-- An unused entry that is not among those to be used again gets its next number. -/
theorem assignKey_spec {info : ThreadKeyInfo δ} (h : Numbered s) (k : Nat) (dtor : Option δ)
    (hinfo : s.gThreadKeys[id]? = some info) (heven : info.seq % 2 = 0) (hroom : info.seq + 2 < 2 ^ 64)
    (hid : id ∉ s.gFreeIds) :
    Renumbered s (assignKey s k id dtor) id (info.seq + 1) dtor ∧ Numbered (assignKey s k id dtor) ∧
      (assignKey s k id dtor).keys = update s.keys k ⟨id, info.seq + 1⟩ := by
  have hlt := (List.getElem?_eq_some_iff.mp hinfo).1
  have hassign : assignKey s k id dtor = { s with
      gThreadKeys := s.gThreadKeys.set id ⟨info.seq + 1, dtor⟩
      keys := update s.keys k ⟨id, info.seq + 1⟩ } := by
    rw [assignKey, List.getD_eq_getElem?_getD, hinfo, getD_some, Nat.mod_eq_of_lt (by omega)]
  have hnum : Renumbered s (assignKey s k id dtor) id (info.seq + 1) dtor := by
    rw [hassign]
    refine ⟨List.getElem?_set_self hlt, fun j hj => List.getElem?_set_ne (Ne.symm hj), ?_, by simp, rfl⟩
    intro info' hinfo'
    rw [some.inj (hinfo'.symm.trans hinfo)]
  refine ⟨hnum, ⟨?_, ?_, ?_, ?_, ?_⟩, by rw [hassign]⟩
  · rw [hassign]
    simpa using h.size
  · rw [hassign]
    exact h.ids
  · intro j info' hj hodd
    by_cases hj' : j = id
    · rw [hj', hnum.entry, some.injEq] at hj
      rw [← hj]
      show info.seq + 1 + 1 < 2 ^ 64
      omega
    · rw [hnum.others j hj'] at hj
      exact h.room j info' hj hodd
  · intro j hj
    rw [hassign] at hj
    obtain ⟨info', hinfo', hrest⟩ := h.free j hj
    have hj' : j ≠ id := fun heq => hid (heq ▸ hj)
    exact ⟨info', (hnum.others j hj').trans hinfo', hrest⟩
  · rw [hassign]
    exact h.nodup

theorem threadKeyCreate_spec (h : Numbered s) (k : Nat) (dtor : Option δ) : threadKeyCreate s k dtor = (s, EAGAIN) ∨
    ∃ s' id seq, threadKeyCreate s k dtor = (s', 0) ∧ seq % 2 = 1 ∧ Renumbered s s' id seq dtor ∧ Numbered s' ∧
      s'.keys = update s.keys k ⟨id, seq⟩ := by
  unfold threadKeyCreate
  cases hfree : s.gFreeIds with
  | cons id rest =>
    right
    obtain ⟨info, hinfo, heven, hroom⟩ := h.free id (by simp [hfree])
    have hnodup := h.nodup
    rw [hfree, List.nodup_cons] at hnodup
    have hpopped : Numbered { s with gFreeIds := rest } :=
      ⟨h.size, h.ids, h.room, fun j hj => h.free j (by simp [hfree, show j ∈ rest from hj]), hnodup.2⟩
    obtain ⟨hnum, hnumbered, hkeys⟩ := assignKey_spec hpopped k dtor hinfo heven hroom hnodup.1
    exact ⟨_, id, info.seq + 1, rfl, by omega, ⟨hnum.entry, hnum.others, hnum.counted, hnum.longer, hnum.threads⟩, hnumbered, hkeys⟩
  | nil =>
    by_cases hids : InvalidID ≤ s.gId
    · exact .inl (by simp [hids])
    · right
      rw [if_neg hids]
      have hgrow : grow s.gThreadKeys (s.gId + 1) ⟨0, none⟩ = s.gThreadKeys ++ [⟨0, none⟩] := by
        simp [grow, h.size]
      rw [hgrow]
      have hgrown : Numbered { s with
          gId := s.gId + 1, gFreeIds := [], gThreadKeys := s.gThreadKeys ++ [⟨0, none⟩] } := by
        refine ⟨by simp [h.size], by show s.gId + 1 ≤ InvalidID; omega, ?_, by simp, List.nodup_nil⟩
        intro j info hj hodd
        rcases Locks.get_concat hj with hj | hj
        · exact h.room j info hj hodd
        · rw [hj] at hodd
          exact absurd hodd (by simp)
      have hlast : (s.gThreadKeys ++ [(⟨0, none⟩ : ThreadKeyInfo δ)])[s.gId]? = some ⟨0, none⟩ := by simp [h.size]
      obtain ⟨hnum, hnumbered, hkeys⟩ := assignKey_spec hgrown k dtor hlast rfl (by simp) (by simp)
      have hlonger : s.gThreadKeys.length ≤ (s.gThreadKeys ++ [(⟨0, none⟩ : ThreadKeyInfo δ)]).length := by simp
      refine ⟨_, s.gId, 1, rfl, rfl, ⟨hnum.entry, ?_, ?_, hlonger.trans hnum.longer, hnum.threads⟩, hnumbered, hkeys⟩
      · intro j hj
        rw [hnum.others j hj]
        rcases Nat.lt_or_gt_of_ne hj with hlt | hlt
        · exact List.getElem?_append_left (h.size ▸ hlt)
        · have hlen : s.gThreadKeys.length < j := h.size ▸ hlt
          show (s.gThreadKeys ++ [⟨0, none⟩])[j]? = s.gThreadKeys[j]?
          rw [List.getElem?_eq_none (Nat.le_of_lt hlen), List.getElem?_eq_none (by simpa using hlen)]
      · intro info hinfo
        have := (List.getElem?_eq_some_iff.mp hinfo).1
        have := h.size
        omega

theorem valid_of_entry (h : Numbered s) {info : ThreadKeyInfo δ} (hinfo : s.gThreadKeys[id]? = some info)
    (hodd : seq % 2 = 1) : (⟨id, seq⟩ : ThreadKey).valid := by
  have hlt := (List.getElem?_eq_some_iff.mp hinfo).1
  have hids := h.size ▸ h.ids
  simp only [ThreadKey.valid, Bool.and_eq_true, bne_iff_ne, Bool.not_eq_true', keyUnused_eq_false]
  exact ⟨by omega, hodd⟩

/-- The deletion of a key by an object that stands for it. -/
theorem threadKeyDelete_spec (h : Numbered s) (hkey : s.keys k = ⟨id, seq⟩) (hodd : seq % 2 = 1)
    (hinfo : s.gThreadKeys[id]? = some ⟨seq, dtor⟩) :
    ∃ s', threadKeyDelete s k = (s', 0) ∧ Renumbered s s' id (seq + 1) dtor ∧ Numbered s' ∧
      s'.keys = update s.keys k ThreadKey.reset := by
  have hlt := (List.getElem?_eq_some_iff.mp hinfo).1
  have hroom : seq + 1 < 2 ^ 64 := h.room id _ hinfo hodd
  have hvalid : (s.keys k).valid = true := hkey ▸ valid_of_entry h hinfo hodd
  have hcond : (seq != seq || keyUnused seq) = false := by simp [hodd]
  let s' : Keys δ ν n := { s with
    gThreadKeys := s.gThreadKeys.set id ⟨seq + 1, dtor⟩
    gFreeIds := if keyUsable (seq + 1) then id :: s.gFreeIds else s.gFreeIds
    keys := update s.keys k ThreadKey.reset }
  have hnum : Renumbered s s' id (seq + 1) dtor := by
    refine ⟨List.getElem?_set_self hlt, fun j hj => List.getElem?_set_ne (Ne.symm hj), ?_, by simp [s'], rfl⟩
    intro info hinfo'
    rw [some.inj (hinfo'.symm.trans hinfo)]
  have hnot : id ∉ s.gFreeIds := by
    intro hmem
    obtain ⟨info, hinfo', heven, -⟩ := h.free id hmem
    rw [some.inj (hinfo'.symm.trans hinfo)] at heven
    exact absurd (hodd.symm.trans heven) (by decide)
  have hold : ∀ j ∈ s.gFreeIds, ∃ info, s'.gThreadKeys[j]? = some info ∧ info.seq % 2 = 0 ∧ info.seq + 2 < 2 ^ 64 := by
    intro j hj
    obtain ⟨info, hinfo', hrest⟩ := h.free j hj
    exact ⟨info, (hnum.others j (fun heq => hnot (heq ▸ hj))).trans hinfo', hrest⟩
  refine ⟨s', ?_, hnum, ⟨?_, h.ids, ?_, ?_, ?_⟩, rfl⟩
  · rw [threadKeyDelete, if_neg (by simp [hvalid])]
    simp only [hkey, hinfo, hcond]
    simp only [Bool.false_eq_true, if_false, Nat.mod_eq_of_lt hroom, s']
  · simpa [s'] using h.size
  · intro j info hj hodd'
    by_cases hj' : j = id
    · rw [hj', hnum.entry, some.injEq] at hj
      rw [← hj] at hodd'
      exact absurd (show (seq + 1) % 2 = 1 from hodd') (by omega)
    · rw [hnum.others j hj'] at hj
      exact h.room j info hj hodd'
  · -- the id is to be used again only if one more creation fits
    intro j hj
    by_cases husable : keyUsable (seq + 1) = true
    · simp only [s', husable, if_true, List.mem_cons] at hj
      rcases hj with rfl | hj
      · exact ⟨_, hnum.entry, by show (seq + 1) % 2 = 0; omega, (keyUsable_iff hroom (by omega)).mp husable⟩
      · exact hold j hj
    · simp only [s', husable] at hj
      exact hold j hj
  · by_cases husable : keyUsable (seq + 1) = true
    · simpa [s', husable] using ⟨hnot, h.nodup⟩
    · simpa [s', husable] using h.nodup

/-- What the creations have to do with the table and the objects: the entry of an id has the
    number of its last creation, and a greater one when that is deleted. -/
structure Tracked (w : World δ ν n) : Prop where
  numbered : Numbered w.now
  known : ∀ (c : Nat) r, w.creations[c]? = some r → r.seq % 2 = 1 ∧
    ∃ info, w.now.gThreadKeys[r.id]? = some info ∧ r.seq ≤ info.seq ∧
      (r.alive = true ↔ info.seq = r.seq) ∧ (r.alive = true → info.dtor = r.dtor)
  distinct : (w.creations.map fun r => (r.id, r.seq)).Nodup
  owned : ∀ k c, w.owner k = some c → ∃ r, w.creations[c]? = some r ∧ r.alive = true ∧ w.now.keys k = ⟨r.id, r.seq⟩
  unowned : ∀ k, w.owner k = none → w.now.keys k = ThreadKey.reset
  single : ∀ j k c, w.owner j = some c → w.owner k = some c → j = k

namespace Tracked

theorem start : Tracked (World.start : World δ ν n) where
  numbered := ⟨rfl, Nat.zero_le _, by simp [World.start], by simp [World.start], nodup_nil⟩
  known := by simp [World.start]
  distinct := nodup_nil
  owned := by simp [World.start]
  unowned := fun _ _ => rfl
  single := by simp [World.start]

section

variable (h : Tracked w)

include h

/-- Only a thread differs. -/
theorem of_thread (t : Fin n) (thread : Thread δ ν) (lastSet : Fin n → Nat → Option (Option ν)) :
    Tracked { w with now := w.now.setThread t thread, lastSet := lastSet } where
  numbered := ⟨h.numbered.size, h.numbered.ids, h.numbered.room, h.numbered.free, h.numbered.nodup⟩
  known := h.known
  distinct := h.distinct
  owned := h.owned
  unowned := h.unowned
  single := h.single

theorem same_creation {c' : Nat} {r' : Creation δ} (hr : w.creations[c]? = some r) (hr' : w.creations[c']? = some r')
    (hid : r.id = r'.id) (hseq : r.seq = r'.seq) : c = c' := by
  apply (List.getElem?_inj _ h.distinct).mp
  · rw [List.getElem?_map, List.getElem?_map, hr, hr', map_some, map_some, hid, hseq]
  · rw [List.length_map]
    exact (List.getElem?_eq_some_iff.mp hr).1

theorem owned_lt (hk : w.owner k = some c) : c < w.creations.length := by
  obtain ⟨r, hr, -⟩ := h.owned k c hk
  exact (List.getElem?_eq_some_iff.mp hr).1

/-- An entry that gets another number has no other creation left. -/
theorem renumber (hnum : Renumbered w.now s' id seq dtor) (hr : w.creations[c]? = some r)
    (hdead : r.id = id → r.alive = false) :
    r.seq % 2 = 1 ∧ ∃ info, s'.gThreadKeys[r.id]? = some info ∧ r.seq ≤ info.seq ∧ (r.alive = true ↔ info.seq = r.seq) ∧
      (r.alive → info.dtor = r.dtor) := by
  obtain ⟨hodd, info, hinfo, hle, halive, hdtor⟩ := h.known c r hr
  refine ⟨hodd, ?_⟩
  by_cases hid : r.id = id
  · have hcount := hnum.counted info (hid ▸ hinfo)
    rw [hid, hdead hid]
    refine ⟨_, hnum.entry, by show r.seq ≤ seq; omega, ?_, nofun⟩
    constructor
    · exact nofun
    · intro heq
      have : seq = r.seq := heq
      omega
  · exact ⟨info, (hnum.others r.id hid).trans hinfo, hle, halive, hdtor⟩

theorem create_cases (k : Nat) (dtor : Option δ) : w.create k dtor = w ∨
    ∃ s' id seq, seq % 2 = 1 ∧ Renumbered w.now s' id seq dtor ∧ Numbered s' ∧
      s'.keys = update w.now.keys k ⟨id, seq⟩ ∧
      w.create k dtor = { w with
        now := s'
        creations := w.creations ++ [⟨id, seq, dtor, true⟩]
        owner := update w.owner k (some w.creations.length) } := by
  rcases threadKeyCreate_spec h.numbered k dtor with heq | ⟨s', id, seq, heq, hodd, hnum, hnumbered, hkeys⟩
  · left
    rw [World.create, heq]
    rfl
  · right
    have hkey : s'.keys k = ⟨id, seq⟩ := by rw [hkeys, update_self]
    refine ⟨s', id, seq, hodd, hnum, hnumbered, hkeys, ?_⟩
    rw [World.create, heq]
    simp only [if_true, hkey]

theorem create (k : Nat) (dtor : Option δ) : Tracked (w.create k dtor) := by
  rcases h.create_cases k dtor with heq | ⟨s', id, seq, hodd, hnum, hnumbered, hkeys, heq⟩
  · rwa [heq]
  · rw [heq]
    -- the entry was unused, so the creations of its id were deleted
    have hdead : ∀ (c : Nat) r, w.creations[c]? = some r → r.id = id → r.alive = false := by
      intro c r hr hid
      obtain ⟨hrodd, info, hinfo, -, halive, -⟩ := h.known c r hr
      have hcount := hnum.counted info (hid ▸ hinfo)
      by_contra hne
      have := halive.mp (by simpa using hne)
      omega
    have hold : ∀ {c : Nat} {r : Creation δ}, w.creations[c]? = some r →
        (w.creations ++ [(⟨id, seq, dtor, true⟩ : Creation δ)])[c]? = some r := Locks.get_old
    refine ⟨hnumbered, ?_, ?_, ?_, ?_, ?_⟩
    · intro c r hr
      rcases Locks.get_concat hr with hr | rfl
      · exact h.renumber hnum hr (hdead c r hr)
      · exact ⟨hodd, _, hnum.entry, Nat.le_refl _, by simp, by simp⟩
    · rw [map_append, map_singleton, nodup_append]
      refine ⟨h.distinct, nodup_singleton _, ?_⟩
      intro x hx y hy heq'
      obtain ⟨r, hr, rfl⟩ := mem_map.mp hx
      obtain ⟨c, hc⟩ := getElem?_of_mem hr
      obtain ⟨-, info, hinfo, hle, -⟩ := h.known c r hc
      obtain ⟨hid, hseq⟩ : r.id = id ∧ r.seq = seq := by
        rwa [mem_singleton.mp hy, Prod.mk.injEq] at heq'
      have hcount := hnum.counted info (hid ▸ hinfo)
      omega
    · intro j c hj
      show ∃ r, _ ∧ _ ∧ s'.keys j = _
      rw [hkeys]
      by_cases hjk : j = k
      · subst hjk
        have hc : w.creations.length = c := by simpa using hj
        refine ⟨⟨id, seq, dtor, true⟩, ?_, rfl, by simp⟩
        rw [← hc]
        exact getElem?_concat_length
      · have hj : w.owner j = some c := by simpa [update_of_ne hjk] using hj
        obtain ⟨r, hr, halive, hkey⟩ := h.owned j c hj
        exact ⟨r, hold hr, halive, by rw [update_of_ne hjk, hkey]⟩
    · intro j hj
      show s'.keys j = _
      have hjk : j ≠ k := by
        rintro rfl
        simp at hj
      rw [hkeys, update_of_ne hjk]
      exact h.unowned j (by simpa [update_of_ne hjk] using hj)
    · intro i j c hi hj
      have hnew : ∀ {i}, i ≠ k → update w.owner k (some w.creations.length) i = some c →
          w.owner i = some c ∧ c < w.creations.length := by
        intro i hik hi
        rw [update_of_ne hik] at hi
        exact ⟨hi, h.owned_lt hi⟩
      by_cases hik : i = k <;> by_cases hjk : j = k
      · rw [hik, hjk]
      · have hc : w.creations.length = c := by simpa [hik] using hi
        have := (hnew hjk hj).2
        omega
      · have hc : w.creations.length = c := by simpa [hjk] using hj
        have := (hnew hik hi).2
        omega
      · exact h.single i j c (hnew hik hi).1 (hnew hjk hj).1

/-- The entry of a creation that is alive. -/
theorem entry_of_alive (hr : w.creations[c]? = some r) (halive : r.alive) :
    w.now.gThreadKeys[r.id]? = some ⟨r.seq, r.dtor⟩ := by
  obtain ⟨-, info, hinfo, -, hseq, hdtor⟩ := h.known c r hr
  rw [hinfo, ← hseq.mp halive, ← hdtor halive]

theorem delete_cases (k : Nat) : w.delete k = w ∨
    ∃ s' c r, w.owner k = some c ∧ w.creations[c]? = some r ∧ r.alive ∧ w.now.keys k = ⟨r.id, r.seq⟩ ∧
      Renumbered w.now s' r.id (r.seq + 1) r.dtor ∧ Numbered s' ∧
      s'.keys = update w.now.keys k ThreadKey.reset ∧
      w.delete k = { w with
        now := s'
        creations := w.creations.modify c ({ · with alive := false })
        owner := update w.owner k none } := by
  cases hk : w.owner k with
  | none =>
    left
    have hfail : threadKeyDelete w.now k = (w.now, EINVAL) := by
      rw [threadKeyDelete, h.unowned k hk]
      rfl
    have howner : update w.owner k none = w.owner := by rw [← hk, update_eq_self]
    rw [World.delete, hfail, howner]
    rfl
  | some c =>
    right
    obtain ⟨r, hr, halive, hkey⟩ := h.owned k c hk
    obtain ⟨s', heq, hnum, hnumbered, hkeys⟩ :=
      threadKeyDelete_spec h.numbered hkey (h.known c r hr).1 (h.entry_of_alive hr halive)
    refine ⟨s', c, r, rfl, hr, halive, hkey, hnum, hnumbered, hkeys, ?_⟩
    rw [World.delete, heq, hk]
    rfl

theorem delete (k : Nat) : Tracked (w.delete k) := by
  rcases h.delete_cases k with heq | ⟨s', c, r, hk, hr, halive, hkey, hnum, hnumbered, hkeys, heq⟩
  · rwa [heq]
  · rw [heq]
    have hodd := (h.known c r hr).1
    have hentry := h.entry_of_alive hr halive
    have hget : ∀ {c' r'}, (w.creations.modify c ({ · with alive := false }))[c']? = some r' →
        ∃ r, w.creations[c']? = some r ∧ r' = if c = c' then { r with alive := false } else r := by
      intro c' r' hr'
      rw [getElem?_modify] at hr'
      obtain ⟨r, hr, heq⟩ := Option.map_eq_some_iff.mp hr'
      exact ⟨r, hr, by split at heq <;> simp_all⟩
    have howner : ∀ {j c'}, update w.owner k none j = some c' → j ≠ k ∧ w.owner j = some c' := by
      intro j c' hj
      have hjk : j ≠ k := by
        rintro rfl
        simp at hj
      exact ⟨hjk, by rwa [update_of_ne hjk] at hj⟩
    refine ⟨hnumbered, ?_, ?_, ?_, ?_, ?_⟩
    · intro c' r'' hr'
      obtain ⟨r', hold, rfl⟩ := hget hr'
      by_cases hc : c = c'
      · subst hc
        rw [Option.some.inj (hold.symm.trans hr), if_pos rfl]
        exact ⟨hodd, _, hnum.entry, Nat.le_succ _, by simp, nofun⟩
      · -- the other creations of the id were deleted before
        rw [if_neg hc]
        apply h.renumber hnum hold
        intro hid
        obtain ⟨-, info', hinfo', -, hseq', -⟩ := h.known c' r' hold
        by_contra hne
        rw [hid, hentry, Option.some.injEq] at hinfo'
        have heq' := hseq'.mp (by simpa using hne)
        rw [← hinfo'] at heq'
        exact hc (h.same_creation hr hold hid.symm heq')
    · have hmap : (w.creations.modify c ({ · with alive := false })).map (fun r => (r.id, r.seq)) =
          w.creations.map (fun r => (r.id, r.seq)) := by
        apply ext_getElem?
        intro j
        rw [getElem?_map, getElem?_map, getElem?_modify]
        cases w.creations[j]? <;> simp [apply_ite]
      rw [hmap]
      exact h.distinct
    · intro j c' hj
      obtain ⟨hjk, hj⟩ := howner hj
      obtain ⟨r', hr', halive', hkey'⟩ := h.owned j c' hj
      have hc : c ≠ c' := fun heq => hjk (h.single j k c' hj (heq ▸ hk))
      refine ⟨r', ?_, halive', ?_⟩
      · show (w.creations.modify c _)[c']? = some r'
        rw [getElem?_modify, hr', Option.map_eq_map, Option.map_some, if_neg hc]
      · show s'.keys j = _
        rw [hkeys, update_of_ne hjk, hkey']
    · intro j hj
      show s'.keys j = _
      rw [hkeys]
      by_cases hjk : j = k
      · rw [hjk, update_self]
      · rw [update_of_ne hjk]
        exact h.unowned j (by simpa [update_of_ne hjk] using hj)
    · intro i j c' hi hj
      exact h.single i j c' (howner hi).2 (howner hj).2

theorem move (j k : Nat) : Tracked (w.move j k) := by
  by_cases hjk : j = k
  · rwa [World.move, if_pos hjk]
  · have hkeys : (moveKey w.now j k).keys =
        update (update w.now.keys j (w.now.keys k)) k ThreadKey.reset := by
      rw [moveKey, if_neg hjk]
    have hrest : (moveKey w.now j k) = { w.now with keys := (moveKey w.now j k).keys } := by
      rw [moveKey, if_neg hjk]
    have howner : ∀ {i c}, update (update w.owner j (w.owner k)) k none i = some c →
        i = j ∧ w.owner k = some c ∨ i ≠ j ∧ i ≠ k ∧ w.owner i = some c := by
      intro i c hi
      have hik : i ≠ k := by
        rintro rfl
        simp at hi
      rw [update_of_ne hik] at hi
      by_cases hij : i = j
      · exact .inl ⟨hij, by simpa [hij] using hi⟩
      · exact .inr ⟨hij, hik, by rwa [update_of_ne hij] at hi⟩
    rw [World.move, if_neg hjk, hrest, hkeys]
    refine ⟨⟨h.numbered.size, h.numbered.ids, h.numbered.room, h.numbered.free, h.numbered.nodup⟩, h.known, h.distinct,
      ?_, ?_, ?_⟩
    · intro i c hi
      rcases howner hi with ⟨rfl, hk⟩ | ⟨hij, hik, hi⟩
      · obtain ⟨r, hr, halive, hkey⟩ := h.owned k c hk
        exact ⟨r, hr, halive, by simp [update_of_ne hjk, hkey]⟩
      · obtain ⟨r, hr, halive, hkey⟩ := h.owned i c hi
        exact ⟨r, hr, halive, by simp [update_of_ne hij, update_of_ne hik, hkey]⟩
    · intro i hi
      by_cases hik : i = k
      · simp [hik]
      · by_cases hij : i = j
        · subst hij
          simpa [update_of_ne hik] using h.unowned k (by simpa [update_of_ne hik] using hi)
        · simpa [update_of_ne hik, update_of_ne hij] using
            h.unowned i (by simpa [update_of_ne hik, update_of_ne hij] using hi)
    · intro i i' c hi hi'
      rcases howner hi with ⟨hij, hk⟩ | ⟨-, hik, hown⟩ <;> rcases howner hi' with ⟨hij', hk'⟩ | ⟨-, hik', hown'⟩
      · rw [hij, hij']
      · exact absurd (h.single i' k c hown' hk) hik'
      · exact absurd (h.single i k c hown hk') hik
      · exact h.single i i' c hown hown'

end

end Tracked

/-! What the threads' vectors hold. -/

section

variable {l : List (ThreadKeyTLS ν)} {x e : ThreadKeyTLS ν} {i : Nat}

theorem setEntry_self (l : List (ThreadKeyTLS ν)) (id : Nat) (x : ThreadKeyTLS ν) : (setEntry l id x)[id]? = some x := by
  apply getElem?_set_self
  split
  · simp [grow]
    omega
  · omega

theorem setEntry_kept (hi : i ≠ id) (he : l[i]? = some e) : (setEntry l id x)[i]? = some e := by
  rw [setEntry, List.getElem?_set_ne (Ne.symm hi)]
  split
  · rw [grow, List.getElem?_append_left (List.getElem?_eq_some_iff.mp he).1]
    exact he
  · exact he

theorem setEntry_other (hi : i ≠ id) (he : (setEntry l id x)[i]? = some e) : l[i]? = some e ∨ e = ⟨0, none⟩ := by
  rw [setEntry, getElem?_set_ne (Ne.symm hi)] at he
  split at he
  · rw [grow, getElem?_append] at he
    split at he
    · exact .inl he
    · exact .inr (eq_of_mem_replicate (mem_of_getElem? he))
  · exact .inl he

theorem setEntry_length : (setEntry l id x).length = max l.length (id + 1) := by
  rw [setEntry, length_set]
  split
  · simp [grow]
    omega
  · omega

end

/-- A thread's entry has what the thread last set under the creation whose number the entry has,
    and what was set under a creation gives way only to a later creation's value. -/
structure Values (w : World δ ν n) : Prop where
  short : ∀ t data, (w.now.threads t).tlsData = some data → data.length ≤ w.now.gThreadKeys.length
  entries : ∀ t data, (w.now.threads t).tlsData = some data → ∀ (i : Nat) e, data[i]? = some e →
    e.seq = 0 ∨ ∃ (c : Nat) (r : Creation δ), w.creations[c]? = some r ∧ r.id = i ∧ r.seq = e.seq ∧
      w.lastSet t c = some e.data
  kept : ∀ t c p, w.lastSet t c = some p → ∃ r data e, w.creations[c]? = some r ∧
    (w.now.threads t).tlsData = some data ∧ data[r.id]? = some e ∧ r.seq ≤ e.seq

namespace Values

theorem start : Values (World.start : World δ ν n) where
  short := by simp [World.start]
  entries := by simp [World.start]
  kept := by simp [World.start]

/-- The threads are as before, and so are the old creations' ids and numbers. -/
theorem of_creations (h : Values w) (hthreads : w'.now.threads = w.now.threads) (hlast : w'.lastSet = w.lastSet)
    (hlonger : w.now.gThreadKeys.length ≤ w'.now.gThreadKeys.length)
    (hold : ∀ (c : Nat) r, w.creations[c]? = some r → ∃ r', w'.creations[c]? = some r' ∧ r'.id = r.id ∧ r'.seq = r.seq) :
    Values w' := by
  constructor
  · intro t data hdata
    rw [hthreads] at hdata
    exact (h.short t data hdata).trans hlonger
  · intro t data hdata i e he
    rw [hthreads] at hdata
    rcases h.entries t data hdata i e he with h0 | ⟨c, r, hr, hid, hseq, hset⟩
    · exact .inl h0
    · obtain ⟨r', hr', hid', hseq'⟩ := hold c r hr
      exact .inr ⟨c, r', hr', hid'.trans hid, hseq'.trans hseq, hlast ▸ hset⟩
  · intro t c p hp
    rw [hlast] at hp
    obtain ⟨r, data, e, hr, hdata, he, hle⟩ := h.kept t c p hp
    obtain ⟨r', hr', hid', hseq'⟩ := hold c r hr
    exact ⟨r', data, e, hr', hthreads ▸ hdata, hid' ▸ he, hseq' ▸ hle⟩

theorem create (h : Values w) (hw : Tracked w) (k : Nat) (dtor : Option δ) : Values (w.create k dtor) := by
  rcases hw.create_cases k dtor with heq | ⟨s', id, seq, -, hnum, -, -, heq⟩
  · rwa [heq]
  · apply h.of_creations
    · rw [heq, hnum.threads]
    · rw [heq]
    · rw [heq]
      exact hnum.longer
    · intro c r hr
      rw [heq]
      exact ⟨r, Locks.get_old hr, rfl, rfl⟩

theorem delete (h : Values w) (hw : Tracked w) (k : Nat) : Values (w.delete k) := by
  rcases hw.delete_cases k with heq | ⟨s', c, r, -, -, -, -, hnum, -, -, heq⟩
  · rwa [heq]
  · apply h.of_creations
    · rw [heq, hnum.threads]
    · rw [heq]
    · rw [heq]
      exact hnum.longer
    · intro c' r' hr'
      rw [heq]
      show ∃ r'', (w.creations.modify c _)[c']? = some r'' ∧ _
      rw [getElem?_modify, hr']
      exact ⟨_, rfl, by split <;> rfl, by split <;> rfl⟩

theorem move (h : Values w) (j k : Nat) : Values (w.move j k) := by
  by_cases hjk : j = k
  · rwa [World.move, if_pos hjk]
  · rw [World.move, if_neg hjk, moveKey, if_neg hjk]
    exact ⟨h.short, h.entries, h.kept⟩

end Values

/-- A value is set under the creation that the object stands for. -/
theorem Tracked.set_cases (h : Tracked w) (t : Fin n) (k : Nat) (data : Option ν) : w.set t k data = w ∨
    ∃ c r, w.owner k = some c ∧ w.creations[c]? = some r ∧ r.alive ∧ w.now.keys k = ⟨r.id, r.seq⟩ ∧
      w.set t k data = { w with
        now := w.now.setThread t { w.now.threads t with
          tlsData := some (setEntry ((w.now.threads t).tlsData.getD []) r.id ⟨r.seq, data⟩) }
        lastSet := update w.lastSet t (update (w.lastSet t) c (some data)) } := by
  cases hk : w.owner k with
  | none =>
    left
    have hfail : threadSetspecific w.now t k data = (w.now, EINVAL) := by
      rw [threadSetspecific, h.unowned k hk]
      rfl
    rw [World.set, hfail]
    rfl
  | some c =>
    right
    obtain ⟨r, hr, halive, hkey⟩ := h.owned k c hk
    have hvalid : (w.now.keys k).valid = true :=
      hkey ▸ valid_of_entry h.numbered (h.entry_of_alive hr halive) (h.known c r hr).1
    refine ⟨c, r, rfl, hr, halive, hkey, ?_⟩
    rw [World.set, threadSetspecific, if_neg (by simp [hvalid]), hkey, hk]
    rfl

theorem Values.set (h : Values w) (hw : Tracked w) (t : Fin n) (k : Nat) (data : Option ν) :
    Values (w.set t k data) := by
  rcases hw.set_cases t k data with heq | ⟨c, r, -, hr, halive, -, heq⟩
  · rwa [heq]
  · rw [heq]
    have hentry := hw.entry_of_alive hr halive
    have hlt := (List.getElem?_eq_some_iff.mp hentry).1
    constructor
    · intro t' data' hdata'
      by_cases ht : t' = t
      · subst ht
        simp only [setThread_self, some.injEq] at hdata'
        rw [← hdata', setEntry_length]
        apply Nat.max_le.mpr
        refine ⟨?_, hlt⟩
        cases hd : (w.now.threads t').tlsData with
        | none => exact Nat.zero_le _
        | some old => exact h.short t' old hd
      · simp only [setThread_other ht] at hdata'
        exact h.short t' data' hdata'
    · intro t' data' hdata' i e he
      by_cases ht : t' = t
      · subst ht
        simp only [setThread_self, update_self, some.injEq] at hdata' ⊢
        rw [← hdata'] at he
        by_cases hi : i = r.id
        · subst hi
          rw [setEntry_self, some.injEq] at he
          exact .inr ⟨c, r, hr, rfl, by rw [← he], by rw [update_self, ← he]⟩
        · -- the other entries are of other ids, hence of other creations
          rcases setEntry_other hi he with he | he
          · cases hd : (w.now.threads t').tlsData with
            | none => simp [hd] at he
            | some old =>
              rw [hd] at he
              rcases h.entries t' old hd i e he with h0 | ⟨c', r', hr', hid, hseq, hset⟩
              · exact .inl h0
              · have hc : c' ≠ c := by
                  rintro rfl
                  rw [some.inj (hr'.symm.trans hr)] at hid
                  exact hi hid.symm
                exact .inr ⟨c', r', hr', hid, hseq, by rwa [update_of_ne hc]⟩
          · exact .inl (by rw [he])
      · simp only [setThread_other ht, update_of_ne ht] at hdata' ⊢
        exact h.entries t' data' hdata' i e he
    · intro t' c' p hp
      by_cases ht : t' = t
      · subst ht
        simp only [setThread_self, update_self] at hp ⊢
        by_cases hc : c' = c
        · subst hc
          exact ⟨r, _, _, hr, rfl, setEntry_self _ _ _, Nat.le_refl _⟩
        · rw [update_of_ne hc] at hp
          obtain ⟨r', old, e, hr', hd, he, hle⟩ := h.kept t' c' p hp
          by_cases hid : r'.id = r.id
          · -- the creation that is alive is the last one of the id
            obtain ⟨-, info, hinfo, hle', -⟩ := hw.known c' r' hr'
            rw [hid, hentry, some.injEq] at hinfo
            rw [← hinfo] at hle'
            refine ⟨r', _, ⟨r.seq, data⟩, hr', rfl, ?_, hle'⟩
            rw [hid, setEntry_self]
          · exact ⟨r', _, e, hr', rfl, setEntry_kept hid (by rwa [hd]), hle⟩
      · simp only [setThread_other ht, update_of_ne ht] at hp ⊢
        exact h.kept t' c' p hp

/-- `thread_getspecific` returns what the thread last set under the creation. -/
theorem Values.get (h : Values w) (hw : Tracked w) (t : Fin n) (k : Nat) :
    threadGetspecific w.now t k = w.lastUnder t k := by
  cases hk : w.owner k with
  | none =>
    rw [threadGetspecific, hw.unowned k hk, World.lastUnder, hk]
    rfl
  | some c =>
    obtain ⟨r, hr, halive, hkey⟩ := hw.owned k c hk
    have hentry := hw.entry_of_alive hr halive
    have hodd := (hw.known c r hr).1
    have hvalid : (w.now.keys k).valid = true := hkey ▸ valid_of_entry hw.numbered hentry hodd
    rw [threadGetspecific, if_neg (by simp [hvalid]), World.lastUnder, hk, bind_some, hkey]
    -- no creation of the id has a greater number than the one that is alive
    have hmatch : ∀ p, w.lastSet t c = some p →
        ∃ data e, (w.now.threads t).tlsData = some data ∧ data[r.id]? = some e ∧ e.seq = r.seq := by
      intro p hp
      obtain ⟨r', data, e, hr', hdata, he, hle⟩ := h.kept t c p hp
      rw [some.inj (hr'.symm.trans hr)] at he hle
      refine ⟨data, e, hdata, he, ?_⟩
      rcases h.entries t data hdata r.id e he with h0 | ⟨c', r'', hr'', hid, hseq, -⟩
      · omega
      · obtain ⟨-, info, hinfo, hle', -⟩ := hw.known c' r'' hr''
        rw [hid, hentry, some.injEq] at hinfo
        rw [← hinfo] at hle'
        have : r''.seq ≤ r.seq := hle'
        omega
    cases he : (w.now.threads t).tlsData.bind (·[r.id]?) with
    | none =>
      cases hp : w.lastSet t c with
      | none => rfl
      | some p =>
        obtain ⟨data, e, hdata, he', -⟩ := hmatch p hp
        rw [hdata, bind_some, he'] at he
        cases he
    | some e =>
      obtain ⟨data, hdata, he⟩ := bind_eq_some_iff.mp he
      by_cases hseq : e.seq = r.seq
      · rcases h.entries t data hdata r.id e he with h0 | ⟨c', r', hr', hid, hseq', hset⟩
        · omega
        · rw [hw.same_creation hr' hr hid (hseq'.trans hseq)] at hset
          simp [hseq, hset]
      · cases hp : w.lastSet t c with
        | none => simp [hseq]
        | some p =>
          obtain ⟨data', e', hdata', he', hseq'⟩ := hmatch p hp
          rw [hdata, some.injEq] at hdata'
          rw [← hdata', he, some.injEq] at he'
          exact absurd (he' ▸ hseq') hseq

/-! The exit handler. -/

theorem exit_cases (h : w.exit t = some w') : w' = w ∨ ∃ data, (w.now.threads t).tlsData = some data ∧
      w' = { w with now := w.now.setThread t { w.now.threads t with exiting := some ⟨w.now.gThreadKeys, 0⟩ } } := by
  simp only [World.exit, exitThread, map_eq_some_iff] at h
  obtain ⟨s', hs, rfl⟩ := h
  split at hs
  · cases hs
  · cases hdata : (w.now.threads t).tlsData with
    | none =>
      left
      simp only [hdata, isNone_none, if_true, some.injEq] at hs
      rw [← hs]
    | some data =>
      right
      simp only [hdata, isNone_some, Bool.false_eq_true, if_false, some.injEq] at hs
      refine ⟨data, rfl, ?_⟩
      rw [← hs, ← hdata]

theorem destroy_cases (h : w.destroy t = some w') :
    ∃ e data, (w.now.threads t).exiting = some e ∧ (w.now.threads t).tlsData = some data ∧
      (w' = { w with now := w.now.setThread t ⟨some data, some { e with i := e.i + 1 }⟩ } ∨
        w' = { w with
          now := w.now.setThread t ⟨none, none⟩
          lastSet := update w.lastSet t (fun _ => none) }) := by
  simp only [World.destroy, destroyNext, map_eq_some_iff] at h
  obtain ⟨s', hs, rfl⟩ := h
  obtain ⟨e, he, hs⟩ := bind_eq_some_iff.mp hs
  obtain ⟨data, hdata, hs⟩ := bind_eq_some_iff.mp hs
  refine ⟨e, data, he, hdata, ?_⟩
  split at hs
  · split at hs
    · left
      rw [← some.inj hs]
      simp
    · cases hs
  · right
    rw [← some.inj hs]
    simp

/-- A thread that keeps its vector. -/
theorem Values.of_exiting (h : Values w) (t : Fin n) {thread : Thread δ ν}
    (htls : thread.tlsData = (w.now.threads t).tlsData) : Values { w with now := w.now.setThread t thread } := by
  have hall : ∀ t', ((w.now.setThread t thread).threads t').tlsData = (w.now.threads t').tlsData := by
    intro t'
    by_cases ht : t' = t
    · rw [ht, setThread_self, htls]
    · rw [setThread_other ht]
  constructor
  · intro t' data hdata
    exact h.short t' data (hall t' ▸ hdata)
  · intro t' data hdata
    exact h.entries t' data (hall t' ▸ hdata)
  · intro t' c p hp
    obtain ⟨r, data, e, hr, hdata, hrest⟩ := h.kept t' c p hp
    exact ⟨r, data, e, hr, (hall t').trans hdata, hrest⟩

theorem Values.exit (h : Values w) (hn : w.exit t = some w') : Values w' := by
  rcases exit_cases hn with rfl | ⟨data, -, rfl⟩
  · exact h
  · exact h.of_exiting t rfl

theorem Values.destroy (h : Values w) (hn : w.destroy t = some w') : Values w' := by
  obtain ⟨e, data, -, hdata, rfl | rfl⟩ := destroy_cases hn
  · exact h.of_exiting t hdata.symm
  · refine ⟨fun t' => ?_, fun t' => ?_, fun t' => ?_⟩ <;> by_cases ht : t' = t
    · simp [ht]
    · rw [setThread_other ht]
      exact h.short t'
    · simp [ht]
    · simpa only [setThread_other ht, update_of_ne ht] using h.entries t'
    · simp [ht]
    · simpa only [setThread_other ht, update_of_ne ht] using h.kept t'

/-- The exit handler of `t` has still to call a destructor at `id`. -/
def pending (s : Keys δ ν n) (t : Fin n) (id : Nat) : Bool :=
  (s.threads t).exiting.any fun e =>
    e.i ≤ id && id < ((s.threads t).tlsData.getD []).length &&
      e.dummyKeys[id]?.any fun info => !keyUnused info.seq && info.dtor.isSome

/-- A handler that starts finds, at every id with a key that has a destructor, the key's number
    in the thread's entry; a key is deleted only when no handler is still to call its
    destructor; and a thread's vector does not grow during its handler. -/
def undisturbed (w : World δ ν n) : Act δ ν n → Bool
  | .exit t =>
    (((w.now.threads t).tlsData.getD []).zip w.now.gThreadKeys).all fun (entry, info) =>
      keyUnused info.seq || info.dtor.isNone || entry.seq == info.seq
  | .delete k => decide (∀ t, pending w.now t (w.now.keys k).id = false)
  | .set t k _ =>
    (w.now.threads t).exiting.isNone || (w.now.keys k).id < ((w.now.threads t).tlsData.getD []).length
  | _ => true

/-- At the indices to come the copy still is the table, and has the thread's number. -/
structure Ready (s : Keys δ ν n) (data : List (ThreadKeyTLS ν)) (e : Exiting δ) : Prop where
  long : data.length ≤ e.dummyKeys.length
  fresh : ∀ i info entry, e.i ≤ i → e.dummyKeys[i]? = some info → data[i]? = some entry → info.seq % 2 = 1 →
    info.dtor.isSome = true → s.gThreadKeys[i]? = some info ∧ entry.seq = info.seq

def Exits (s : Keys δ ν n) : Prop :=
  ∀ t e, (s.threads t).exiting = some e → ∃ data, (s.threads t).tlsData = some data ∧ Ready s data e

namespace Exits

/-- The table changed at an id where no destructor call is to come. -/
theorem renumber (h : Exits s) (hnum : Renumbered s s' id seq dtor) (hidle : ∀ t, pending s t id = false) :
    Exits s' := by
  intro t e he
  rw [hnum.threads] at he
  obtain ⟨data, hdata, hready⟩ := h t e he
  refine ⟨data, hnum.threads ▸ hdata, hready.long, ?_⟩
  intro i info entry hi hinfo hentry hodd hdtor
  obtain ⟨hget, hseq⟩ := hready.fresh i info entry hi hinfo hentry hodd hdtor
  have hne : i ≠ id := by
    rintro rfl
    have hlt := (List.getElem?_eq_some_iff.mp hentry).1
    have := hidle t
    simp [pending, he, hdata, hi, hlt, hinfo, hodd, hdtor] at this
  exact ⟨(hnum.others i hne).trans hget, hseq⟩

/-- An id whose entry is unused, or that is new, has no call to come. -/
theorem idle_of_unused (h : Exits s) (hnum : Renumbered s s' id seq dtor) (hodd : seq % 2 = 1) (t : Fin n) :
    pending s t id = false := by
  rw [← Bool.not_eq_true]
  intro hp
  obtain ⟨e, he, hp⟩ := (any_eq_true _ _).mp hp
  simp only [Bool.and_eq_true, decide_eq_true_eq] at hp
  obtain ⟨⟨hi, hlt⟩, hinfo⟩ := hp
  obtain ⟨info, hinfo, hkey⟩ := (any_eq_true _ _).mp hinfo
  simp only [Bool.and_eq_true, Bool.not_eq_true', keyUnused_eq_false] at hkey
  obtain ⟨data, hdata, hready⟩ := h t e he
  rw [hdata, getD_some] at hlt
  obtain ⟨hget, -⟩ := hready.fresh id info _ hi hinfo (getElem?_eq_getElem hlt) hkey.1 hkey.2
  have := hnum.counted info hget
  omega

theorem create (h : Exits w.now) (hw : Tracked w) (k : Nat) (dtor : Option δ) : Exits (w.create k dtor).now := by
  rcases hw.create_cases k dtor with heq | ⟨s', id, seq, hodd, hnum, -, -, heq⟩
  · rwa [heq]
  · rw [heq]
    exact h.renumber hnum (h.idle_of_unused hnum hodd)

theorem delete (h : Exits w.now) (hw : Tracked w) {k : Nat} (hok : undisturbed w (.delete k)) :
    Exits (w.delete k).now := by
  rcases hw.delete_cases k with heq | ⟨s', c, r, -, -, -, hkey, hnum, -, -, heq⟩
  · rwa [heq]
  · rw [heq]
    apply h.renumber hnum
    simpa [undisturbed, hkey] using hok

theorem move (h : Exits w.now) (j k : Nat) : Exits (w.move j k).now := by
  by_cases hjk : j = k
  · rwa [World.move, if_pos hjk]
  · rw [World.move, if_neg hjk, moveKey, if_neg hjk]
    intro t e he
    obtain ⟨data, hdata, hready⟩ := h t e he
    exact ⟨data, hdata, hready.long, hready.fresh⟩

/-- A thread's part changed. -/
theorem of_thread (h : Exits s) {thread : Thread δ ν}
    (ht : ∀ e, thread.exiting = some e → ∃ data, thread.tlsData = some data ∧ Ready s data e) :
    Exits (s.setThread t thread) := by
  intro t' e he
  by_cases htt : t' = t
  · subst htt
    rw [setThread_self] at he ⊢
    obtain ⟨data, hdata, hready⟩ := ht e he
    exact ⟨data, hdata, hready.long, hready.fresh⟩
  · rw [setThread_other htt] at he ⊢
    obtain ⟨data, hdata, hready⟩ := h t' e he
    exact ⟨data, hdata, hready.long, hready.fresh⟩

theorem set (h : Exits w.now) (hw : Tracked w) {k : Nat} {data : Option ν}
    (hok : undisturbed w (.set t k data)) : Exits (w.set t k data).now := by
  rcases hw.set_cases t k data with heq | ⟨c, r, -, hr, halive, hkey, heq⟩
  · rwa [heq]
  · rw [heq]
    apply h.of_thread
    intro e he
    obtain ⟨old, hold, hready⟩ := h t e he
    have hexit : (w.now.threads t).exiting = some e := he
    have hlt : r.id < old.length := by simpa [undisturbed, hexit, hkey, hold] using hok
    rw [hold, getD_some]
    refine ⟨_, rfl, ?_, ?_⟩
    · rw [setEntry_length]
      have := hready.long
      omega
    · intro i info entry hi hinfo hentry hodd hdtor
      by_cases hid : i = r.id
      · subst hid
        rw [setEntry_self, some.injEq] at hentry
        obtain ⟨hget, -⟩ := hready.fresh r.id info _ hi hinfo (List.getElem?_eq_getElem hlt) hodd hdtor
        rw [← hentry]
        refine ⟨hget, ?_⟩
        rw [hw.entry_of_alive hr halive, some.injEq] at hget
        rw [← hget]
      · have hkept : old[i]? = some entry := by
          have hlen := (List.getElem?_eq_some_iff.mp hentry).1
          rw [setEntry_length] at hlen
          have hold' := List.getElem?_eq_getElem (show i < old.length by omega)
          rw [← hentry, setEntry_kept hid hold', hold']
        exact hready.fresh i info entry hi hinfo hkept hodd hdtor

theorem exit (h : Exits w.now) (hv : Values w) (hok : undisturbed w (.exit t)) (hn : w.exit t = some w') :
    Exits w'.now := by
  rcases exit_cases hn with rfl | ⟨data, hdata, rfl⟩
  · exact h
  · apply h.of_thread
    intro e he
    rw [← Option.some.inj he]
    refine ⟨data, hdata, hv.short t data hdata, ?_⟩
    intro i info entry _ hinfo hentry hodd hdtor
    refine ⟨hinfo, ?_⟩
    simp only [undisturbed, hdata, Option.getD_some, List.all_eq_true] at hok
    have hzip : (data.zip w.now.gThreadKeys)[i]? = some (entry, info) :=
      getElem?_zip_eq_some.mpr ⟨hentry, hinfo⟩
    have := hok _ (mem_of_getElem? hzip)
    simpa [hodd, Option.isSome_iff_ne_none.mp hdtor] using this

theorem destroy (h : Exits w.now) (hn : w.destroy t = some w') : Exits w'.now := by
  obtain ⟨e, data, he, hdata, rfl | rfl⟩ := destroy_cases hn
  · apply h.of_thread
    intro e' he'
    obtain ⟨data', hdata', hready⟩ := h t e he
    rw [hdata, some.injEq] at hdata'
    subst hdata'
    rw [← some.inj he']
    refine ⟨data, rfl, hready.long, ?_⟩
    intro i info entry hi
    exact hready.fresh i info entry (Nat.le_of_succ_le hi)
  · exact h.of_thread nofun

end Exits

/-! Runs. -/

theorem step_kept {a : Act δ ν n} (h : Tracked w ∧ Values w) (hn : w.next a = some w') : Tracked w' ∧ Values w' := by
  obtain ⟨hw, hv⟩ := h
  cases a with
  | create k dtor =>
    rw [← some.inj hn]
    exact ⟨hw.create k dtor, hv.create hw k dtor⟩
  | delete k =>
    rw [← some.inj hn]
    exact ⟨hw.delete k, hv.delete hw k⟩
  | move j k =>
    rw [← some.inj hn]
    exact ⟨hw.move j k, hv.move j k⟩
  | set t k data =>
    rw [← some.inj hn]
    refine ⟨?_, hv.set hw t k data⟩
    rcases hw.set_cases t k data with heq | ⟨c, r, -, -, -, -, heq⟩
    · rwa [heq]
    · rw [heq]
      exact hw.of_thread _ _ _
  | exit t =>
    refine ⟨?_, hv.exit hn⟩
    rcases exit_cases hn with rfl | ⟨data, -, rfl⟩
    · exact hw
    · exact hw.of_thread _ _ _
  | destroy t =>
    refine ⟨?_, hv.destroy hn⟩
    obtain ⟨e, data, -, -, rfl | rfl⟩ := destroy_cases hn
    · exact hw.of_thread _ _ _
    · exact hw.of_thread _ _ _

theorem kept_reachable (h : (keysMachine δ ν n).Reachable w) : Tracked w ∧ Values w := by
  refine Machine.Reachable.invariant (I := fun w => Tracked w ∧ Values w) ?_ ?_ h
  · rintro w rfl
    exact ⟨Tracked.start, Values.start⟩
  · intro w a w' hw hn
    exact step_kept hw hn

theorem exits_step {a : Act δ ν n} (hw : Tracked w) (hv : Values w) (h : Exits w.now) (hok : undisturbed w a)
    (hn : w.next a = some w') : Exits w'.now := by
  cases a with
  | create k dtor =>
    rw [← some.inj hn]
    exact h.create hw k dtor
  | delete k =>
    rw [← some.inj hn]
    exact h.delete hw hok
  | move j k =>
    rw [← some.inj hn]
    exact h.move j k
  | set t k data =>
    rw [← some.inj hn]
    exact h.set hw hok
  | exit t => exact h.exit hv hok hn
  | destroy t => exact h.destroy hn

theorem exits_reachable (h : ((keysMachine δ ν n).guard undisturbed).Reachable w) :
    (Tracked w ∧ Values w) ∧ Exits w.now := by
  refine Machine.Reachable.invariant (I := fun w => (Tracked w ∧ Values w) ∧ Exits w.now) ?_ ?_ h
  · rintro w rfl
    exact ⟨⟨Tracked.start, Values.start⟩, nofun⟩
  · rintro w a w' ⟨hw, he⟩ hn
    obtain ⟨hok, hn⟩ := Machine.guard_next.mp hn
    exact ⟨step_kept hw hn, exits_step hw.1 hw.2 he hok hn⟩

/-- A destructor call at an index that is ready is the right one. -/
theorem Exits.rightful (h : Exits w.now) (hw : Tracked w) (hv : Values w) {d : δ} {p : Option ν}
    (hcall : invoked w.now t = some (id, d, p)) : w.Rightful t id d p := by
  obtain ⟨e, he, hcall⟩ := bind_eq_some_iff.mp hcall
  obtain ⟨data, hdata, hcall⟩ := bind_eq_some_iff.mp hcall
  obtain ⟨entry, hentry, hcall⟩ := bind_eq_some_iff.mp hcall
  obtain ⟨info, hinfo, hcall⟩ := bind_eq_some_iff.mp hcall
  obtain ⟨data', hdata', hready⟩ := h t e he
  rw [hdata, some.injEq] at hdata'
  subst hdata'
  split at hcall
  · cases hcall
  · next hused =>
    have hodd : info.seq % 2 = 1 := by simpa using hused
    obtain ⟨d', hd, hcall⟩ := bind_eq_some_iff.mp hcall
    obtain ⟨rfl, rfl, rfl⟩ : e.i = id ∧ d' = d ∧ entry.data = p := by simpa using hcall
    obtain ⟨hget, hseq⟩ := hready.fresh e.i info entry (Nat.le_refl _) hinfo hentry hodd (by rw [hd]; rfl)
    -- the entry's number is a creation's, and the table has the same number
    rcases hv.entries t data hdata e.i entry hentry with h0 | ⟨c, r, hr, hid, hseq', hset⟩
    · omega
    · obtain ⟨-, info', hinfo', -, halive, hdtor⟩ := hw.known c r hr
      rw [hid, hget, some.injEq] at hinfo'
      subst hinfo'
      have hlive : r.alive = true := halive.mpr (by omega)
      refine ⟨c, r.seq, ?_, hset⟩
      rw [hr, ← hid, ← hd, hdtor hlive, ← hlive]

/-- In every run a lookup returns what the thread last set under the same creation of the key, and
    nothing if it set nothing; and in every undisturbed run a destructor is called only for a
    creation that is alive, and on what the thread set under it. -/
theorem keys_never_mix :
    (∀ w, (keysMachine δ ν n).Reachable w → ∀ t k, threadGetspecific w.now t k = w.lastUnder t k) ∧
    (∀ w, ((keysMachine δ ν n).guard undisturbed).Reachable w →
      ∀ t id d p, invoked w.now t = some (id, d, p) → w.Rightful t id d p) := by
  constructor
  · intro w h t k
    obtain ⟨hw, hv⟩ := kept_reachable h
    exact hv.get hw t k
  · intro w h t id d p hcall
    obtain ⟨⟨hw, hv⟩, he⟩ := exits_reachable h
    exact he.rightful hw hv hcall

/-- A thread sets a value, and exits. -/
theorem set_value_destroyed :
    ∃ w, ((keysMachine Nat Nat 1).guard undisturbed).Reachable w ∧ invoked w.now 0 = some (0, 5, some 7) ∧
      w.Rightful 0 0 5 (some 7) := by
  obtain ⟨w, hrun, hcall⟩ : ∃ w, ((keysMachine Nat Nat 1).guard undisturbed).Run
      [.create 0 (some 5), .set 0 0 (some 7), .exit 0] w ∧ invoked w.now 0 = some (0, 5, some 7) :=
    Machine.exists_run rfl (by decide)
  exact ⟨w, ⟨_, hrun⟩, hcall, keys_never_mix.2 w ⟨_, hrun⟩ 0 0 5 (some 7) hcall⟩

/-- A thread sets a value under a key, the key is deleted, and its id goes to another key, under
    which the thread sets nothing. When the thread exits, the new key's destructor is called on
    the value of the old one. -/
theorem reused_id_destroys_old_value :
    ∃ w, (keysMachine Nat Nat 1).Reachable w ∧ invoked w.now 0 = some (0, 6, some 7) ∧
      w.creations = [⟨0, 1, some 5, false⟩, ⟨0, 3, some 6, true⟩] ∧ w.lastSet 0 1 = none ∧
      ¬ w.Rightful 0 0 6 (some 7) := by
  obtain ⟨w, hrun, hcall, hcreations, hnone⟩ : ∃ w, (keysMachine Nat Nat 1).Run
      [.create 0 (some 5), .set 0 0 (some 7), .delete 0, .create 1 (some 6), .exit 0] w ∧
      invoked w.now 0 = some (0, 6, some 7) ∧
      w.creations = [⟨0, 1, some 5, false⟩, ⟨0, 3, some 6, true⟩] ∧ w.lastSet 0 1 = none :=
    Machine.exists_run rfl (by decide)
  refine ⟨w, ⟨_, hrun⟩, hcall, hcreations, hnone, ?_⟩
  rintro ⟨c, seq, hc, hset⟩
  rw [hcreations] at hc
  match c with
  | 0 => simp at hc
  | 1 =>
    rw [hnone] at hset
    cases hset
  | c + 2 => simp at hc

end LightRpc.ThreadKeys

import LightRpc.IOBufCalls
import LightRpc.IOBufStreams

/- Threads, buffers and streams working on one heap of blocks.

   A step is one call of one thread, with the number of blocks the pool has for it: an
   operation on one or two buffers, a call of the TLS functions, a call on a stream, a write
   of a stream's user into the range it was given, or the exit of the thread. The counts of
   the blocks are atomic and nothing else is shared without the callers' own locking, so calls
   of several threads are interleaved as wholes. Cuts into an endpoint are sequences of `cutn`
   and `clear`.

   `World.Inv` is what every history keeps: the counts are exact, the views are well formed,
   nobody has a block of its own that another has too, and a stream that may still back up
   ends its buffer with its current block. `Frame` says that a buffer is as it was.

   1. `step_inv`: every step that has room and takes no block back that has an owner keeps `Inv`.
   2. `step_frame`: every step leaves the buffers it is not called for as they are, if no user
      writes to, and no `BackUp` gives up, bytes that another buffer refers to. -/
namespace LightRpc.IOBuffer

open Lib Lib.RefCount Multiset

variable {g : Stream → Stream} {α : Type} {l : List α} {x : α} {o R : List BlockId} {bufs : List IOBuf} {h' : Heap}

structure World where
  heap : Heap
  threads : List Tls
  bufs : List IOBuf
  streams : List Stream
  /-- Blocks from `acquire_tls_block` that are to be given to `release_tls_block`. -/
  held : List BlockId
  /-- The bytes copied to memory by cuts. -/
  out : List UInt8
  /-- The threads whose `tls_inited` is set. -/
  tlsInited : List Nat

inductive Op where
  | newBuf
  | one (i : Nat) (o : Unop)
  | two (i j : Nat) (o : Binop)
  | copy (j : Nat)
  | share
  | acquire
  | release (b : BlockId)
  | fill (b : BlockId) (data : List UInt8)
  | threadExit
  | openStream (i blockSize : Nat)
  | next (k : Nat)
  | backUp (k count : Nat)
  | write (k pos : Nat) (data : List UInt8)
  | closeStream (k : Nat)

structure Act where
  thread : Nat
  avail : Nat
  op : Op

namespace World

def ctx (w : World) (a : Act) : Option Ctx := w.threads[a.thread]?.map fun t => ⟨w.heap, t, a.avail⟩

def put (w : World) (t : Nat) (c : Ctx) : World := { w with heap := c.heap, threads := w.threads.set t c.tls }

/-- A stream on a buffer that was changed otherwise cannot back up what it was given. -/
def disturb (i : Nat) (s : Stream) : Stream := if s.buf = i then { s with latest := none } else s

def setBuf (w : World) (i : Nat) (v : IOBuf) : World :=
  if w.bufs[i]? = some v then w else { w with bufs := w.bufs.set i v, streams := w.streams.map (disturb i) }

def setStream (w : World) (k : Nat) (s : Stream) : World := { w with streams := w.streams.set k s }

/-- A stream whose range was taken away from its user. -/
def closed (s : Stream) : Stream := { s with curBlock := none, lent := none, latest := none }

/-- A call, with whether it succeeded. A fatal error or a null pointer ends the run. -/
def step (w : World) (a : Act) : Option (World × Bool) :=
  match a.op with
  | .newBuf => some ({ w with bufs := w.bufs ++ [.new] }, true)
  | .one i o => do
    let c ← w.ctx a
    let v ← w.bufs[i]?
    let r ← o.run c v
    some ({ (w.put a.thread r.1).setBuf i r.2.1 with out := w.out ++ r.2.2.2 }, r.2.2.1)
  | .two i j o =>
    if i = j then none
    else do
      let v ← w.bufs[i]?
      let u ← w.bufs[j]?
      let r ← o.run w.heap v u
      some ((({ w with heap := r.1 }).setBuf i r.2.1).setBuf j r.2.2, true)
  | .copy j => do
    let u ← w.bufs[j]?
    some ({ w with heap := (copy w.heap u).1, bufs := w.bufs ++ [(copy w.heap u).2] }, true)
  | .share => do
    let c ← w.ctx a
    some (w.put a.thread (shareTlsBlock c).1, (shareTlsBlock c).2.isSome)
  | .acquire => do
    let c ← w.ctx a
    let r ← acquireTlsBlock c
    some ({ w.put a.thread r.1 with held := r.2.toList ++ w.held }, r.2.isSome)
  | .release b =>
    if b ∈ w.held then do
      let c ← w.ctx a
      some ({ w.put a.thread (releaseTlsBlock c b) with held := w.held.erase b }, true)
    else none
  | .fill b data =>
    if b ∈ w.held ∧ (w.heap.payload b).any (fun k => k.size + data.length ≤ k.cap) then
      some ({ w with heap := w.heap.modify b (fun k => k.append data) }, true)
    else none
  | .threadExit => do
    let c ← w.ctx a
    some (w.put a.thread (threadExit c (w.tlsInited.contains a.thread)), true)
  | .openStream i blockSize => do
    let _ ← w.bufs[i]?
    if 0 < blockSize ∧ blockSize ≤ offsetofData then some (w, false)
    else some ({ w with streams := w.streams ++ [⟨i, blockSize, none, 0, none, none⟩] }, true)
  | .next k => do
    let s ← w.streams[k]?
    let c ← w.ctx a
    let v ← w.bufs[s.buf]?
    let r ← next c v s
    some (((w.put a.thread r.1).setBuf s.buf r.2.1).setStream k r.2.2.1, r.2.2.2)
  | .backUp k count => do
    let s ← w.streams[k]?
    let c ← w.ctx a
    let v ← w.bufs[s.buf]?
    let r ← backUp (v.refNum + 1) c v s count
    some (((w.put a.thread r.1).setBuf s.buf r.2.1).setStream k r.2.2, true)
  | .write k pos data => do
    let s ← w.streams[k]?
    let l ← s.lent
    if l.lo ≤ pos ∧ pos + data.length ≤ l.hi then
      some ({ w with heap := w.heap.modify l.block (fun b => b.write pos data) }, true)
    else none
  | .closeStream k => do
    let s ← w.streams[k]?
    let c ← w.ctx a
    some ((w.put a.thread (releaseBlock c s).1).setStream k (closed s), true)

/-- The call of the thread that led to `w'` has set `tls_inited` if it deallocated a block of the
    pool's first type. -/
def noteInited (w w' : World) (t : Nat) : World :=
  { w' with tlsInited :=
      if (w'.heap.released.drop w.heap.released.length).any fun b => (w.heap.payload b).any Block.pooled then
        t :: w'.tlsInited
      else w'.tlsInited }

/-- Nothing is there yet. -/
def start (n : Nat) : World := ⟨.empty, List.replicate n .new, [], [], [], [], []⟩

/-- Any number of threads start. -/
def machine : Machine World Act where
  init w := ∃ n, w = start n
  next w a := (w.step a).map fun r => w.noteInited r.1 a.thread

end World

/-! Who holds a block. -/

def refBlocks (v : IOBuf) : List BlockId := v.refs.map BlockRef.block

def curOf (s : Stream) : List BlockId := s.curBlock.toList

/-- The blocks of streams, chains and callers. -/
def owners (streams : List Stream) (threads : List Tls) (held : List BlockId) : List BlockId :=
  streams.flatMap curOf ++ (threads.flatMap Tls.chain ++ held)

/-- A stream that has no block. -/
def idle : Stream := ⟨0, 0, none, 0, none, none⟩

section Owners

variable {S : List Stream} {T : List Tls} {H : List BlockId} {k t : Nat} {s : Stream} {tls : Tls} {b : BlockId}

theorem coe_owners (S : List Stream) (T : List Tls) (H : List BlockId) :
    (↑(owners S T H) : Multiset BlockId) = pool curOf S + (pool Tls.chain T + ↑H) := rfl

theorem owners_thread (ht : T[t]? = some tls) :
    (↑(owners S T H) : Multiset BlockId) = ↑tls.chain + ↑(owners S (T.set t .new) H) := by
  rw [coe_owners, coe_owners, pool_get (f := Tls.chain) (z := .new) rfl ht]
  abel

theorem owners_set_thread (ht : t < T.length) (tls : Tls) :
    (↑(owners S (T.set t tls) H) : Multiset BlockId) = ↑tls.chain + ↑(owners S (T.set t .new) H) := by
  rw [coe_owners, coe_owners, pool_set (f := Tls.chain) (z := .new) rfl ht]
  abel

theorem owners_stream (hk : S[k]? = some s) :
    (↑(owners S T H) : Multiset BlockId) = ↑(curOf s) + ↑(owners (S.set k idle) T H) := by
  rw [coe_owners, coe_owners, pool_get (f := curOf) (z := idle) rfl hk]
  abel

theorem owners_set_stream (hk : k < S.length) (s : Stream) :
    (↑(owners (S.set k s) T H) : Multiset BlockId) = ↑(curOf s) + ↑(owners (S.set k idle) T H) := by
  rw [coe_owners, coe_owners, pool_set (f := curOf) (z := idle) rfl hk]
  abel

theorem mem_owners (hs : s ∈ S) (hb : s.curBlock = some b) : b ∈ owners S T H := by
  refine List.mem_append_left _ (List.mem_flatMap.mpr ⟨s, hs, ?_⟩)
  rw [curOf, hb]
  exact List.mem_singleton.mpr rfl

end Owners

theorem lt_length_of_getElem? {i : Nat} (h : l[i]? = some x) : i < l.length :=
  (List.getElem?_eq_some_iff.mp h).1

/-- Blocks of others are not those of the party at work. -/
theorem apart {b : BlockId} (hn : ((↑o : Multiset BlockId) + ↑R).Nodup) (hb : b ∈ R) : b ∉ o :=
  fun ho => disjoint_left.mp (nodup_add.mp hn).2.2 (mem_coe.mpr ho) (mem_coe.mpr hb)

/-- What a stream may back up lies at the end of its buffer and of its current block. -/
def Settled (h : Heap) (bufs : List IOBuf) (s : Stream) : Prop :=
  ∀ n, s.latest = some n → ∃ v k rs r, bufs[s.buf]? = some v ∧ AtEnd h v s n k rs r

theorem Settled.of_none {h : Heap} {s : Stream} (hs : s.latest = none) : Settled h bufs s :=
  fun n hn => absurd (hs.symm.trans hn) (Option.some_ne_none n).symm

theorem Settled.keep {h : Heap} {bufs' : List IOBuf} {s : Stream} (hs : Settled h bufs s)
    (hk : ∀ b, s.curBlock = some b → h'.payload b = h.payload b)
    (hb : ∀ v, bufs[s.buf]? = some v → bufs'[s.buf]? = some v) : Settled h' bufs' s := by
  intro n hn
  obtain ⟨v, k, rs, r, hv, he⟩ := hs n hn
  exact ⟨v, k, rs, r, hb v hv, he.cur, (hk r.block he.cur).trans he.payload, he.refs, he.ends, he.size⟩

namespace World

variable {w w' : World} {a : Act} {i j k t n : Nat} {v v' u : IOBuf} {s s' : Stream} {tls : Tls} {c c' : Ctx}
  {b : BlockId}

def own (w : World) : List BlockId := owners w.streams w.threads w.held

def holders (w : World) : Multiset BlockId := pool refBlocks w.bufs + ↑w.own

structure Inv (w : World) : Prop where
  exact : Exact w.heap w.holders
  sound : Sound w.heap
  bufs : ∀ v ∈ w.bufs, v.Ok
  owned : w.own.Nodup
  chains : ∀ t ∈ w.threads, t.Wf
  sizes : ∀ s ∈ w.streams, s.blockSize = 0 ∨ sizeofBlock < s.blockSize
  settled : ∀ s ∈ w.streams, Settled w.heap w.bufs s

/-- The holders of all but one buffer. -/
def restBufs (w : World) (i : Nat) : Multiset BlockId := pool refBlocks (w.bufs.set i .new)

theorem bufs_get (hb : w.bufs[i]? = some v) : pool refBlocks w.bufs = blocks v.refs + w.restBufs i :=
  pool_get (f := refBlocks) (z := .new) rfl hb

theorem bufs_set (hb : i < w.bufs.length) (v : IOBuf) :
    pool refBlocks (w.bufs.set i v) = blocks v.refs + w.restBufs i :=
  pool_set (f := refBlocks) (z := .new) rfl hb v

theorem mem_restBufs (hj : w.bufs[j]? = some u) (hne : j ≠ i) {r : BlockRef} (hr : r ∈ u.refs) :
    r.block ∈ w.restBufs i := by
  refine mem_pool (List.mem_of_getElem? (i := j) ?_) (List.mem_map_of_mem hr)
  rw [List.getElem?_set_ne (Ne.symm hne)]
  exact hj

/-! Changing a buffer. -/

section

variable (w i v)

@[simp] theorem setBuf_heap : (w.setBuf i v).heap = w.heap := by
  unfold setBuf
  split <;> rfl

@[simp] theorem setBuf_threads : (w.setBuf i v).threads = w.threads := by
  unfold setBuf
  split <;> rfl

@[simp] theorem setBuf_held : (w.setBuf i v).held = w.held := by
  unfold setBuf
  split <;> rfl

@[simp] theorem setBuf_bufs : (w.setBuf i v).bufs = w.bufs.set i v := by
  unfold setBuf
  split
  · rename_i h
    obtain ⟨hlt, rfl⟩ := List.getElem?_eq_some_iff.mp h
    exact (List.set_getElem_self hlt).symm
  · rfl

/-- The streams after a buffer was changed: those that may still back up are as they were, and
    so is their buffer. -/
theorem setBuf_streams : ∃ g : Stream → Stream, (w.setBuf i v).streams = w.streams.map g ∧ ∀ s,
      (g s).curBlock = s.curBlock ∧ (g s).blockSize = s.blockSize ∧ (g s).buf = s.buf ∧
      (g s).byteCount = s.byteCount ∧ (g s).lent = s.lent ∧
      ((g s).latest = none ∨ g s = s ∧ (w.bufs.set i v)[s.buf]? = w.bufs[s.buf]?) := by
  unfold setBuf
  split
  · rename_i h
    obtain ⟨hlt, rfl⟩ := List.getElem?_eq_some_iff.mp h
    refine ⟨id, (List.map_id _).symm, fun s => ⟨rfl, rfl, rfl, rfl, rfl, .inr ⟨rfl, ?_⟩⟩⟩
    rw [List.set_getElem_self]
  · refine ⟨disturb i, rfl, fun s => ?_⟩
    unfold disturb
    split
    · exact ⟨rfl, rfl, rfl, rfl, rfl, .inl rfl⟩
    · rename_i hne
      exact ⟨rfl, rfl, rfl, rfl, rfl, .inr ⟨rfl, List.getElem?_set_ne (Ne.symm hne)⟩⟩

@[simp] theorem setBuf_own : (w.setBuf i v).own = w.own := by
  obtain ⟨g, hg, hsame⟩ := w.setBuf_streams i v
  have hcur : (fun s => curOf (g s)) = curOf := funext fun s => congrArg Option.toList (hsame s).1
  rw [own, own, owners, owners, setBuf_threads, setBuf_held, hg, List.flatMap_map, hcur]

end

/-- The buffer `j` is as it was. -/
def Frame (w w' : World) (j : Nat) : Prop :=
  ∀ v, w.bufs[j]? = some v → w'.bufs[j]? = some v ∧
    (Fits w.heap v.refs → Fits w'.heap v.refs ∧ bytes w'.heap v.refs = bytes w.heap v.refs)

/-! What a step has to show. `o` are the blocks of the party at work, `R` those of the others. -/

section Party

variable {o o' R : List BlockId} {F : Multiset BlockId}

structure Turn (w w' : World) (o o' R : List BlockId) : Prop where
  before : (↑w.own : Multiset BlockId) = ↑o + ↑R
  after : (↑w'.own : Multiset BlockId) = ↑o' + ↑R
  chains : ∀ t ∈ w'.threads, t.Wf
  sizes : ∀ s ∈ w'.streams, s.blockSize = 0 ∨ sizeofBlock < s.blockSize

theorem Inv.moved (hi : w.Inv) (hex : Exact w'.heap w'.holders) (hs : Sound w'.heap) (hbufs : ∀ v ∈ w'.bufs, v.Ok)
    (ht : Turn w w' o o' R) (hl : Later w.heap o F w'.heap o') (hR : ∀ b ∈ R, b ∈ F)
    (hstreams : ∀ s ∈ w'.streams, Settled w'.heap w'.bufs s ∨
      (s ∈ w.streams ∧ (∀ v, w.bufs[s.buf]? = some v → w'.bufs[s.buf]? = some v) ∧
        ∀ b, s.curBlock = some b → b ∈ R)) : w'.Inv := by
  have hn : ((↑o : Multiset BlockId) + ↑R).Nodup := by
    rw [← ht.before]
    exact coe_nodup.mpr hi.owned
  refine ⟨hex, hs, hbufs, ?_, ht.chains, ht.sizes, fun s hmem => ?_⟩
  · rw [← coe_nodup, ht.after]
    exact hl.nodup_add (fun b hb => hl.bound b (hR b (mem_coe.mp hb))) hn
  · rcases hstreams s hmem with hset | ⟨hold, hbuf, hcur⟩
    · exact hset
    · exact (hi.settled s hold).keep
        (fun b hb => hl.still b (hR b (hcur b hb)) (apart hn (hcur b hb))) hbuf

theorem Frame.of_later (hl : Later w.heap o F w'.heap o') (hbufs : ∀ v, w.bufs[j]? = some v → w'.bufs[j]? = some v)
    (hF : ∀ v, w.bufs[j]? = some v → ∀ r ∈ v.refs, r.block ∈ F) : Frame w w' j :=
  fun v hv => ⟨hbufs v hv, fun hf => hl.grows.fits hf (hF v hv)⟩

/-- The blocks of `F` that are in nobody's hands stay so, and stay as they are. -/
def Rests (w w' : World) (F : Multiset BlockId) : Prop :=
  ∀ b ∈ F, b ∉ w.own → b ∉ w'.own ∧ w'.heap.payload b = w.heap.payload b

theorem Rests.of_later (hl : Later w.heap o F w'.heap o') (hown : (↑w.own : Multiset BlockId) = ↑o + ↑R)
    (hown' : (↑w'.own : Multiset BlockId) = ↑o' + ↑R) : Rests w w' F := by
  intro b hb hn
  rw [← mem_coe, hown, mem_add, not_or] at hn
  refine ⟨fun hmem => ?_, hl.still b hb hn.1⟩
  rw [← mem_coe, hown', mem_add] at hmem
  rcases hmem with hmem | hmem
  · rcases hl.owned b hmem with hold | hnew
    · exact hn.1 hold
    · exact absurd (hl.bound b hb) (Nat.not_lt.mpr hnew)
  · exact hn.2 hmem

theorem forall_mem_set {P : α → Prop} (hl : ∀ y ∈ l, P y) (hx : P x) (i : Nat) : ∀ y ∈ l.set i x, P y := by
  intro y hy
  rcases List.mem_or_eq_of_mem_set hy with hy | rfl
  · exact hl y hy
  · exact hx

/-- The holders around a buffer and the party that works on it. -/
theorem holders_split (hb : w.bufs[i]? = some v) (hown : (↑w.own : Multiset BlockId) = ↑o + ↑R) :
    w.holders = blocks v.refs + (↑o + (w.restBufs i + ↑R)) := by
  rw [holders, bufs_get hb, hown]
  abel

theorem holders_set (hbufs : w'.bufs = w.bufs.set i v') (hlt : i < w.bufs.length)
    (hown : (↑w'.own : Multiset BlockId) = ↑o + ↑R) : w'.holders = blocks v'.refs + (↑o + (w.restBufs i + ↑R)) := by
  rw [holders, hbufs, bufs_set hlt, hown]
  abel

/-- A step that changes one buffer. -/
theorem Inv.edited (hi : w.Inv) (hb : w.bufs[i]? = some v) (hbufs : w'.bufs = w.bufs.set i v') (hv : v'.Ok)
    (hex : Exact w'.heap (blocks v'.refs + (↑o' + (w.restBufs i + ↑R)))) (hs : Sound w'.heap)
    (ht : Turn w w' o o' R) (hl : Later w.heap o (w.restBufs i + ↑R) w'.heap o')
    (hstreams : ∀ s ∈ w'.streams, Settled w'.heap w'.bufs s ∨
      (s ∈ w.streams ∧ (∀ v, w.bufs[s.buf]? = some v → w'.bufs[s.buf]? = some v) ∧
        ∀ b, s.curBlock = some b → b ∈ R)) :
    w'.Inv ∧ (∀ j, j ≠ i → Frame w w' j) ∧ Rests w w' (w.restBufs i) := by
  have hR : ∀ b ∈ R, b ∈ w.restBufs i + ↑R := fun b hb => mem_add.mpr (.inr (mem_coe.mpr hb))
  refine ⟨hi.moved ?_ hs ?_ ht hl hR hstreams, fun j hne => .of_later hl (fun u hu => ?_) ?_,
    .of_later (hl.mono fun b hb => mem_add.mpr (.inl hb)) ht.before ht.after⟩
  · rw [holders_set hbufs (lt_length_of_getElem? hb) ht.after]
    exact hex
  · rw [hbufs]
    exact forall_mem_set hi.bufs hv i
  · rw [hbufs, List.getElem?_set_ne (Ne.symm hne)]
    exact hu
  · exact fun u hu r hr => mem_add.mpr (.inl (mem_restBufs hu hne hr))

/-- A step that leaves the buffers alone. -/
structure Quiet (w w' : World) : Prop where
  inv : w'.Inv
  bufs : w'.bufs = w.bufs
  frame : ∀ j, Frame w w' j
  out : w'.out = w.out

theorem Inv.handed (hi : w.Inv) (hbufs : w'.bufs = w.bufs) (hout : w'.out = w.out)
    (hd : Handed w.heap o (pool refBlocks w.bufs + ↑R) w'.heap o') (ht : Turn w w' o o' R)
    (hstreams : ∀ s ∈ w'.streams, s.latest = none ∨ (s ∈ w.streams ∧ ∀ b, s.curBlock = some b → b ∈ R)) :
    Quiet w w' := by
  have hR : ∀ b ∈ R, b ∈ pool refBlocks w.bufs + ↑R := fun b hb => mem_add.mpr (.inr (mem_coe.mpr hb))
  refine ⟨hi.moved ?_ hd.sound ?_ ht hd.later hR fun s hs => ?_, hbufs,
    fun j => .of_later hd.later (fun u hu => ?_) fun u hu r hr => ?_, hout⟩
  · rw [holders, hbufs, ht.after, add_left_comm]
    exact hd.exact
  · rw [hbufs]
    exact hi.bufs
  · rcases hstreams s hs with hnone | ⟨hold, hcur⟩
    · exact .inl (.of_none hnone)
    · refine .inr ⟨hold, fun v hv => ?_, hcur⟩
      rw [hbufs]
      exact hv
  · rw [hbufs]
    exact hu
  · exact mem_add.mpr (.inl (mem_pool (List.mem_of_getElem? hu) (List.mem_map_of_mem hr)))

end Party

theorem Inv.buf (hi : w.Inv) (hb : w.bufs[i]? = some v) : v.Ok := hi.bufs v (List.mem_of_getElem? hb)

theorem Inv.chain (hi : w.Inv) (ht : w.threads[t]? = some tls) : tls.Wf := hi.chains tls (List.mem_of_getElem? ht)

theorem Inv.around (hi : w.Inv) (hb : w.bufs[i]? = some v) (hown : (↑w.own : Multiset BlockId) = ↑o + ↑R) :
    Exact w.heap (blocks v.refs + (↑o + (w.restBufs i + ↑R))) := by
  rw [← holders_split hb hown]
  exact hi.exact

/-- The blocks of all but one thread. -/
def ownersBut (w : World) (t : Nat) : List BlockId := owners w.streams (w.threads.set t .new) w.held

theorem own_thread (ht : w.threads[t]? = some tls) : (↑w.own : Multiset BlockId) = ↑tls.chain + ↑(w.ownersBut t) :=
  owners_thread ht

/-! Operations on one buffer. -/

theorem one_moved (hi : w.Inv) (ht : w.threads[t]? = some tls) (hb : w.bufs[i]? = some v) {avail : Nat}
    {f : List UInt8 → List UInt8} (hu : Unary ⟨w.heap, tls, avail⟩ v (w.restBufs i + ↑(w.ownersBut t)) c' v' f) :
    ((w.put t c').setBuf i v').Inv ∧ (∀ j, j ≠ i → Frame w ((w.put t c').setBuf i v') j) ∧
      Rests w ((w.put t c').setBuf i v') (w.restBufs i) := by
  obtain ⟨g, hg, hsame⟩ := (w.put t c').setBuf_streams i v'
  have hheap : ((w.put t c').setBuf i v').heap = c'.heap := setBuf_heap _ i v'
  have hown' : (↑((w.put t c').setBuf i v').own : Multiset BlockId) = ↑c'.tls.chain + ↑(w.ownersBut t) := by
    rw [setBuf_own]
    exact owners_set_thread (lt_length_of_getElem? ht) _
  have hex := hu.step.exact
  have hs := hu.step.sound
  have hl := hu.step.later
  rw [← hheap] at hex hs hl
  refine hi.edited hb (setBuf_bufs _ i v') hu.ok hex hs ⟨own_thread ht, hown', ?_, ?_⟩ hl ?_
  · rw [setBuf_threads]
    exact forall_mem_set hi.chains (hu.step.wf (hi.chain ht)) t
  · rw [hg]
    intro s' hs'
    obtain ⟨s, hs, rfl⟩ := List.mem_map.mp hs'
    rw [(hsame s).2.1]
    exact hi.sizes s hs
  · rw [hg, setBuf_bufs]
    intro s' hs'
    obtain ⟨s, hs, rfl⟩ := List.mem_map.mp hs'
    rcases (hsame s).2.2.2.2.2 with hnone | ⟨heq, hbuf⟩
    · exact .inl (.of_none hnone)
    · rw [heq]
      exact .inr ⟨hs, fun v hv => hbuf.trans hv, fun b hb => mem_owners hs hb⟩

/-! Operations that move references only. -/

theorem Inv.recounted {m m' : Multiset BlockId} (hi : w.Inv) (hm : w.holders = m) (hm' : w'.holders = m')
    (hc : Recount w.heap m w'.heap m') (hown : (↑w'.own : Multiset BlockId) = ↑w.own)
    (hbufs : ∀ v ∈ w'.bufs, v.Ok) (hthreads : w'.threads = w.threads)
    (hsizes : ∀ s ∈ w'.streams, s.blockSize = 0 ∨ sizeofBlock < s.blockSize)
    (hstreams : ∀ s ∈ w'.streams, s.latest = none ∨
      (s ∈ w.streams ∧ ∀ v, w.bufs[s.buf]? = some v → w'.bufs[s.buf]? = some v)) : w'.Inv := by
  have hex := hi.exact
  rw [hm] at hex
  have hmem : ∀ b ∈ w.own, b ∈ m' := by
    intro b hb
    rw [← hm', holders, hown]
    exact mem_add.mpr (.inr (mem_coe.mpr hb))
  have hl : Later w.heap [] ↑w.own w'.heap [] :=
    .of_recount hex hc (fun b hb => hmem b (mem_coe.mp hb)) (fun b hb => absurd hb List.not_mem_nil)
      (List.Subperm.refl _)
  refine hi.moved (R := w.own) ?_ (hi.sound.recount hc) hbufs ⟨(zero_add _).symm, ?_, ?_, hsizes⟩ hl
    (fun b hb => mem_coe.mpr hb) fun s hs => ?_
  · rw [hm']
    exact hc.exact
  · rw [hown]
    exact (zero_add _).symm
  · rw [hthreads]
    exact hi.chains
  · rcases hstreams s hs with hnone | ⟨hold, hbuf⟩
    · exact .inl (.of_none hnone)
    · exact .inr ⟨hold, hbuf, fun b hb => mem_owners hold hb⟩

theorem Frame.of_recount {m m' : Multiset BlockId} (hc : Recount w.heap m w'.heap m')
    (hbufs : ∀ v, w.bufs[j]? = some v → w'.bufs[j]? = some v)
    (hmem : ∀ v, w.bufs[j]? = some v → ∀ r ∈ v.refs, r.block ∈ m') : Frame w w' j := by
  intro v hv
  have hk := Recount.payload hc (hmem v hv)
  exact ⟨hbufs v hv, fun hf => ⟨hf.congr hk, bytes_congr hk⟩⟩

/-- The holders of all but two buffers. -/
def restTwo (w : World) (i j : Nat) : Multiset BlockId := pool refBlocks ((w.bufs.set i .new).set j .new)

theorem holders_two (hb : w.bufs[i]? = some v) (hu : w.bufs[j]? = some u) (hne : i ≠ j) :
    w.holders = blocks v.refs + (blocks u.refs + (w.restTwo i j + ↑w.own)) := by
  have hj : (w.bufs.set i .new)[j]? = some u := (List.getElem?_set_ne hne).trans hu
  rw [holders, bufs_get hb, restBufs, pool_get (f := refBlocks) (z := .new) rfl hj]
  show blocks v.refs + (blocks u.refs + _) + _ = _
  rw [restTwo]
  abel

theorem pool_two {u' : IOBuf} (hb : i < w.bufs.length) (hu : j < w.bufs.length) (hne : i ≠ j) :
    pool refBlocks ((w.bufs.set i v').set j u') = blocks v'.refs + (blocks u'.refs + w.restTwo i j) := by
  rw [pool_set (f := refBlocks) (z := .new) rfl (by rw [List.length_set]; exact hu), List.set_comm _ _ hne,
    pool_set (f := refBlocks) (z := .new) rfl (by rw [List.length_set]; exact hb), ← List.set_comm _ _ hne]
  show blocks u'.refs + (blocks v'.refs + _) = _
  rw [add_left_comm]
  rfl

theorem two_moved {u' : IOBuf} {f : List UInt8 → List UInt8 → List UInt8 × List UInt8} (hi : w.Inv)
    (hb : w.bufs[i]? = some v) (hu : w.bufs[j]? = some u) (hne : i ≠ j)
    (hbin : Binary w.heap v u (w.restTwo i j + ↑w.own) h' v' u' f)
    (hw : w' = (({ w with heap := h' }).setBuf i v').setBuf j u') : w'.Inv ∧ (∀ l, l ≠ i → l ≠ j → Frame w w' l) ∧
      w'.own = w.own ∧ ∀ b ∈ w'.holders, w'.heap.payload b = w.heap.payload b := by
  obtain ⟨g, hg, hsame⟩ := ({ w with heap := h' }).setBuf_streams i v'
  obtain ⟨g', hg', hsame'⟩ := (({ w with heap := h' }).setBuf i v').setBuf_streams j u'
  rw [← hw] at hg'
  have hheap : w'.heap = h' := by
    rw [hw, setBuf_heap, setBuf_heap]
  have hbufs : w'.bufs = (w.bufs.set i v').set j u' := by
    rw [hw, setBuf_bufs, setBuf_bufs]
  have hthreads : w'.threads = w.threads := by
    rw [hw, setBuf_threads, setBuf_threads]
  have hown : w'.own = w.own := by
    rw [hw, setBuf_own, setBuf_own]
    rfl
  have hholders : w'.holders = blocks v'.refs + (blocks u'.refs + (w.restTwo i j + ↑w.own)) := by
    rw [holders, hbufs, pool_two (lt_length_of_getElem? hb) (lt_length_of_getElem? hu) hne, hown]
    abel
  have hc := hbin.count
  rw [← hheap] at hc
  have hother : ∀ l, l ≠ i → l ≠ j → ∀ x, w.bufs[l]? = some x → w'.bufs[l]? = some x := by
    intro l hli hlj x hx
    rw [hbufs, List.getElem?_set_ne (Ne.symm hlj), List.getElem?_set_ne (Ne.symm hli)]
    exact hx
  refine ⟨hi.recounted (holders_two hb hu hne) hholders hc (congrArg _ hown) ?_ hthreads ?_ ?_, fun l hli hlj => ?_, hown,
    fun b hb => hc.keeps b (hholders ▸ hb)⟩
  · rw [hbufs]
    exact forall_mem_set (forall_mem_set hi.bufs hbin.ok i) hbin.ok' j
  · rw [hg', hg]
    intro s' hs'
    obtain ⟨s1, hs1, rfl⟩ := List.mem_map.mp hs'
    obtain ⟨s, hs, rfl⟩ := List.mem_map.mp hs1
    rw [(hsame' _).2.1, (hsame s).2.1]
    exact hi.sizes s hs
  · rw [hg', hg]
    intro s' hs'
    obtain ⟨s1, hs1, rfl⟩ := List.mem_map.mp hs'
    obtain ⟨s, hs, rfl⟩ := List.mem_map.mp hs1
    rcases (hsame' (g s)).2.2.2.2.2 with hnone | ⟨heq', hbuf'⟩
    · exact .inl hnone
    · rw [heq']
      rcases (hsame s).2.2.2.2.2 with hnone | ⟨heq, hbuf⟩
      · exact .inl hnone
      · rw [heq, setBuf_bufs] at hbuf'
        rw [heq]
        refine .inr ⟨hs, fun x hx => ?_⟩
        rw [hbufs, hbuf', hbuf]
        exact hx
  · refine .of_recount hc (hother l hli hlj) fun x hx r hr => ?_
    refine mem_add.mpr (.inr (mem_add.mpr (.inr (mem_add.mpr (.inl ?_)))))
    refine mem_pool (List.mem_of_getElem? (i := l) ?_) (List.mem_map_of_mem hr)
    rw [List.getElem?_set_ne (Ne.symm hlj), List.getElem?_set_ne (Ne.symm hli)]
    exact hx

theorem getElem?_concat {i : Nat} (h : l[i]? = some x) (y : α) : (l ++ [y])[i]? = some x := by
  rw [List.getElem?_append_left (lt_length_of_getElem? h)]
  exact h

/-- A new buffer with references of its own. -/
theorem newBuf_moved (hi : w.Inv) (hv : v'.Ok) (hc : Recount w.heap w.holders h' (blocks v'.refs + w.holders)) :
    ({ w with heap := h', bufs := w.bufs ++ [v'] } : World).Inv ∧
      ∀ j, Frame w { w with heap := h', bufs := w.bufs ++ [v'] } j := by
  have hholders : ({ w with heap := h', bufs := w.bufs ++ [v'] } : World).holders = blocks v'.refs + w.holders := by
    have hone : pool refBlocks [v'] = blocks v'.refs := by
      rw [pool, List.flatMap_singleton]
      rfl
    have hown : ({ w with heap := h', bufs := w.bufs ++ [v'] } : World).own = w.own := rfl
    rw [holders, pool_append, hone, holders, hown]
    abel
  refine ⟨hi.recounted rfl hholders hc rfl ?_ rfl hi.sizes fun s hs => .inr ⟨hs, fun v hv => getElem?_concat hv v'⟩,
    fun j => .of_recount hc (fun u hu => getElem?_concat hu v') fun u hu r hr => ?_⟩
  · intro v hmem
    rcases List.mem_append.mp hmem with hmem | hmem
    · exact hi.bufs v hmem
    · rw [List.mem_singleton.mp hmem]
      exact hv
  · exact mem_add.mpr (.inr (mem_add.mpr (.inl
      (mem_pool (List.mem_of_getElem? hu) (List.mem_map_of_mem hr)))))

/-! The TLS functions. -/

/-- The holders around the chain of a thread. -/
def aroundChain (w : World) (t : Nat) : Multiset BlockId := pool refBlocks w.bufs + ↑(w.ownersBut t)

theorem Inv.aroundChain (hi : w.Inv) (ht : w.threads[t]? = some tls) : Exact w.heap (↑tls.chain + w.aroundChain t) := by
  have hex := hi.exact
  rw [holders, own_thread ht, add_left_comm] at hex
  exact hex

theorem tls_moved {o' H : List BlockId} (hi : w.Inv)
    (hown : (↑w.own : Multiset BlockId) = ↑o + ↑R)
    (hown' : (↑(owners w.streams (w.threads.set t c'.tls) H) : Multiset BlockId) = ↑o' + ↑R)
    (hd : Handed w.heap o (pool refBlocks w.bufs + ↑R) c'.heap o')
    (hcur : ∀ s ∈ w.streams, ∀ b, s.curBlock = some b → b ∈ R) (hwf : c'.tls.Wf) :
    Quiet w { w.put t c' with held := H } :=
  hi.handed rfl rfl hd ⟨hown, hown', forall_mem_set hi.chains hwf t, hi.sizes⟩ fun s hs => .inr ⟨hs, hcur s hs⟩

theorem share_moved (hi : w.Inv) (ht : w.threads[t]? = some tls) (n : Nat) :
    Quiet w (w.put t (shareTlsBlock ⟨w.heap, tls, n⟩).1) := by
  obtain ⟨hstep, hkeeps, -⟩ := shareTlsBlock_spec (c := ⟨w.heap, tls, n⟩) (hi.aroundChain ht) hi.sound
  exact tls_moved hi (own_thread ht) (owners_set_thread (lt_length_of_getElem? ht) _)
    ⟨hstep.exact, hstep.sound, hstep.later, hkeeps⟩ (fun s hs b hb => mem_owners hs hb) (hstep.wf (hi.chain ht))

theorem exit_moved {inited : Bool} (hi : w.Inv) (ht : w.threads[t]? = some tls) (n : Nat)
    (hexit : inited ∨ ∀ b ∈ tls.chain, deallocates w.heap b = false) :
    Quiet w (w.put t (threadExit ⟨w.heap, tls, n⟩ inited)) :=
  tls_moved hi (own_thread ht) (owners_set_thread (lt_length_of_getElem? ht) _)
    (threadExit_spec (c := ⟨w.heap, tls, n⟩) (hi.aroundChain ht) hi.sound (hi.chain ht) hexit)
    (fun _ hs _ hb => mem_owners hs hb) (threadExit_wf (c := ⟨w.heap, tls, n⟩) (hi.chain ht) inited)

/-- A block goes from the chain to the caller. -/
theorem acquire_moved {r : Ctx × Option BlockId} (hi : w.Inv) (ht : w.threads[t]? = some tls)
    (heq : acquireTlsBlock ⟨w.heap, tls, n⟩ = some r) :
    Quiet w { w.put t r.1 with held := r.2.toList ++ w.held } := by
  have hd := (acquireTlsBlock_spec (c := ⟨w.heap, tls, n⟩) (hi.aroundChain ht) hi.sound heq).1
  have hown' : (↑(owners w.streams (w.threads.set t r.1.tls) (r.2.toList ++ w.held)) : Multiset BlockId) =
      ↑(r.2.toList ++ r.1.tls.chain) + ↑(w.ownersBut t) := by
    rw [owners_set_thread (lt_length_of_getElem? ht), ownersBut, coe_owners, coe_owners, ← coe_add,
      ← coe_add]
    abel
  exact tls_moved hi (own_thread ht) hown' hd (fun s hs b hb => mem_owners hs hb)
    (acquireTlsBlock_wf (c := ⟨w.heap, tls, n⟩) (hi.chain ht) heq)

theorem coe_erase {l : List BlockId} (hb : b ∈ l) : (↑l : Multiset BlockId) = b ::ₘ ↑(l.erase b) := by
  rw [cons_coe, coe_eq_coe]
  exact List.perm_cons_erase hb

/-- The caller gives a block back. -/
theorem release_moved (hi : w.Inv) (ht : w.threads[t]? = some tls) (hb : b ∈ w.held) (n : Nat) :
    Quiet w { w.put t (releaseTlsBlock ⟨w.heap, tls, n⟩ b) with held := w.held.erase b } := by
  have hown : (↑w.own : Multiset BlockId) =
      ↑(b :: tls.chain) + ↑(owners w.streams (w.threads.set t .new) (w.held.erase b)) := by
    rw [own_thread ht, ownersBut, coe_owners, coe_owners, coe_erase hb, ← cons_coe, cons_add,
      add_cons, add_cons, add_cons]
  have hex : Exact w.heap (↑(b :: tls.chain) +
      (pool refBlocks w.bufs + ↑(owners w.streams (w.threads.set t .new) (w.held.erase b)))) := by
    have hex := hi.exact
    rw [holders, hown, add_left_comm] at hex
    exact hex
  have hnodup : (b :: tls.chain).Nodup := by
    have hn := coe_nodup.mpr hi.owned
    rw [hown] at hn
    exact nodup_left hn
  exact tls_moved hi hown (owners_set_thread (lt_length_of_getElem? ht) _)
    (releaseTlsBlock_spec (c := ⟨w.heap, tls, n⟩) hex hi.sound) (fun s hs b hb => mem_owners hs hb)
    (releaseTlsBlock_wf (c := ⟨w.heap, tls, n⟩) (hi.chain ht) (List.nodup_cons.mp hnodup).1)

/-! Streams. -/

/-- The blocks of all but a stream and the thread that uses it. -/
def ownersButStream (w : World) (k t : Nat) : List BlockId := owners (w.streams.set k idle) (w.threads.set t .new) w.held

theorem own_stream (ht : w.threads[t]? = some tls) (hk : w.streams[k]? = some s) (n : Nat) :
    (↑w.own : Multiset BlockId) = ↑(IOBuffer.own ⟨w.heap, tls, n⟩ s) + ↑(w.ownersButStream k t) := by
  rw [own, owners_stream hk, owners_thread ht, ← add_assoc, coe_add]
  rfl

theorem pool_map_set {S : List Stream} (hg : ∀ s, curOf (g s) = curOf s) (hk : k < S.length) :
    pool curOf ((S.map g).set k idle) = pool curOf (S.set k idle) := by
  have hlen : k < (S.map g).length := by
    rw [List.length_map]
    exact hk
  have hidle : pool curOf ((S.map g).set k (g idle)) = pool curOf ((S.map g).set k idle) := by
    rw [pool_set (f := curOf) (z := idle) rfl hlen, hg]
    exact zero_add _
  rw [← hidle, ← List.map_set, pool_map g hg]

theorem own_set_stream (hg : ∀ s, curOf (g s) = curOf s) (ht : t < w.threads.length) (hk : k < w.streams.length)
    (hstreams : w'.streams = (w.streams.map g).set k s') (hthreads : w'.threads = w.threads.set t c'.tls)
    (hheld : w'.held = w.held) : (↑w'.own : Multiset BlockId) = ↑(IOBuffer.own c' s') + ↑(w.ownersButStream k t) := by
  have hlen : k < (w.streams.map g).length := by
    rw [List.length_map]
    exact hk
  rw [own, hstreams, hthreads, hheld, owners_set_stream hlen, owners_set_thread ht, coe_owners,
    pool_map_set hg hk, ← coe_owners, ← add_assoc, coe_add]
  rfl

/-- The streams after a call on the stream `k`: another one that may still back up is as it was. -/
theorem others_settled
    (hg : ∀ s, (g s).curBlock = s.curBlock ∧ ((g s).latest = none ∨ g s = s ∧ bufs[s.buf]? = w.bufs[s.buf]?))
    (hs' : s ∈ (w.streams.map g).set k s') :
    s = s' ∨ s.latest = none ∨ (s ∈ w.streams ∧ (∀ v, w.bufs[s.buf]? = some v → bufs[s.buf]? = some v) ∧
      ∀ b, s.curBlock = some b → b ∈ w.ownersButStream k t) := by
  have hset : (w.streams.map g).set k s' = ((w.streams.set k idle).map g).set k s' := by
    rw [List.map_set, List.set_set]
  rw [hset] at hs'
  rcases List.mem_or_eq_of_mem_set hs' with hmem | rfl
  · obtain ⟨s0, hs0, rfl⟩ := List.mem_map.mp hmem
    rcases (hg s0).2 with hnone | ⟨heq, hbuf⟩
    · exact .inr (.inl hnone)
    · rw [heq]
      rcases List.mem_or_eq_of_mem_set hs0 with hold | rfl
      · exact .inr (.inr ⟨hold, fun v hv => hbuf.trans hv, fun b hb => mem_owners hs0 hb⟩)
      · exact .inr (.inl rfl)
  · exact .inl rfl

theorem sizes_set (hi : w.Inv) (hg : ∀ s, (g s).blockSize = s.blockSize)
    (hs' : s'.blockSize = 0 ∨ sizeofBlock < s'.blockSize) :
    ∀ s ∈ (w.streams.map g).set k s', s.blockSize = 0 ∨ sizeofBlock < s.blockSize := by
  refine forall_mem_set (P := fun s : Stream => s.blockSize = 0 ∨ sizeofBlock < s.blockSize) (fun s hs => ?_) hs' k
  obtain ⟨s0, hs0, rfl⟩ := List.mem_map.mp hs
  rw [hg]
  exact hi.sizes s0 hs0

theorem Inv.stream (hi : w.Inv) (hk : w.streams[k]? = some s) :
    (s.blockSize = 0 ∨ sizeofBlock < s.blockSize) ∧ Settled w.heap w.bufs s :=
  ⟨hi.sizes s (List.mem_of_getElem? hk), hi.settled s (List.mem_of_getElem? hk)⟩

/-- The destructor: the stream's block goes back. -/
theorem close_moved (hi : w.Inv) (ht : w.threads[t]? = some tls) (hk : w.streams[k]? = some s) (n : Nat) :
    Quiet w ((w.put t (releaseBlock ⟨w.heap, tls, n⟩ s).1).setStream k (closed s)) := by
  have hown := own_stream ht hk n
  have hex := hi.exact
  rw [holders, hown, add_left_comm] at hex
  have hn := coe_nodup.mpr hi.owned
  rw [hown] at hn
  have hwf := releaseBlock_wf (c := ⟨w.heap, tls, n⟩) (hi.chain ht) (nodup_left hn)
  have hd := (releaseBlock_spec (c := ⟨w.heap, tls, n⟩) hex hi.sound).1
  generalize (releaseBlock ⟨w.heap, tls, n⟩ s).1 = c' at hd hwf ⊢
  have hstreams : ((w.put t c').setStream k (closed s)).streams = (w.streams.map id).set k (closed s) := by
    rw [List.map_id]
    rfl
  have hown' : (↑((w.put t c').setStream k (closed s)).own : Multiset BlockId) =
      ↑c'.tls.chain + ↑(w.ownersButStream k t) :=
    own_set_stream (fun _ => rfl) (lt_length_of_getElem? ht) (lt_length_of_getElem? hk) hstreams rfl rfl
  refine hi.handed rfl rfl hd ⟨hown, hown', forall_mem_set hi.chains hwf t, ?_⟩ ?_
  · rw [hstreams]
    exact sizes_set hi (fun _ => rfl) (hi.stream hk).1
  · rw [hstreams]
    intro s0 hs0
    rcases others_settled (w := w) (t := t) (fun s => ⟨rfl, .inr ⟨rfl, rfl⟩⟩) hs0 with rfl | hnone | ⟨hold, -, hcur⟩
    · exact .inl rfl
    · exact .inl hnone
    · exact .inr ⟨hold, hcur⟩

section Called

variable (hi : w.Inv) (ht : w.threads[t]? = some tls) (hk : w.streams[k]? = some s) (hb : w.bufs[s.buf]? = some v)
  (hw : w' = ((w.put t c').setBuf s.buf v').setStream k s') (hv : v'.Ok)
  (hex : Exact c'.heap (blocks v'.refs + (↑(IOBuffer.own c' s') + (w.restBufs s.buf + ↑(w.ownersButStream k t)))))
  (hs : Sound c'.heap) (hwf : c'.tls.Wf) (hsize : s'.blockSize = s.blockSize)
  (hset : Settled c'.heap (w.bufs.set s.buf v') s')

include hw

theorem called_heap : w'.heap = c'.heap := by
  rw [hw]
  exact setBuf_heap _ _ _

theorem called_bufs : w'.bufs = w.bufs.set s.buf v' := by
  rw [hw]
  exact setBuf_bufs _ _ _

include ht hk

theorem called_own : (↑w'.own : Multiset BlockId) = ↑(IOBuffer.own c' s') + ↑(w.ownersButStream k t) := by
  obtain ⟨g, hg, hsame⟩ := (w.put t c').setBuf_streams s.buf v'
  rw [hw]
  exact own_set_stream (fun s => congrArg Option.toList (hsame s).1) (lt_length_of_getElem? ht)
    (lt_length_of_getElem? hk) (congrArg (List.set · k s') hg) (setBuf_threads _ _ _) (setBuf_held _ _ _)

include hi hb hv hex hs hwf hsize hset

/-- A call on a stream that works on its buffer: the blocks of the others are as they were. -/
theorem stream_inv (hn : ((↑(IOBuffer.own c' s') : Multiset BlockId) + ↑(w.ownersButStream k t)).Nodup)
    (hkeep : ∀ b ∈ w.ownersButStream k t, c'.heap.payload b = w.heap.payload b) : w'.Inv := by
  obtain ⟨g, hg, hsame⟩ := (w.put t c').setBuf_streams s.buf v'
  have hheap := called_heap hw
  have hbufs := called_bufs hw
  have hown' := called_own ht hk hw
  have hstreams : w'.streams = (w.streams.map g).set k s' := by
    rw [hw]
    exact congrArg (List.set · k s') hg
  have hthreads : w'.threads = w.threads.set t c'.tls := by
    rw [hw]
    exact setBuf_threads _ _ _
  rw [← hheap] at hex hs hset hkeep
  refine ⟨?_, hs, ?_, ?_, ?_, ?_, ?_⟩
  · rw [holders_set hbufs (lt_length_of_getElem? hb) hown']
    exact hex
  · rw [hbufs]
    exact forall_mem_set hi.bufs hv s.buf
  · rw [← coe_nodup, hown']
    exact hn
  · rw [hthreads]
    exact forall_mem_set hi.chains hwf t
  · rw [hstreams]
    exact sizes_set hi (fun s => (hsame s).2.1) (hsize ▸ (hi.stream hk).1)
  · rw [hstreams]
    intro s0 hs0
    rcases others_settled (w := w) (t := t) (fun s => ⟨(hsame s).1, (hsame s).2.2.2.2.2⟩) hs0
      with rfl | hnone | ⟨hold, hbuf, hcur⟩
    · rw [hbufs]
      exact hset
    · exact .of_none hnone
    · rw [hbufs]
      exact (hi.settled s0 hold).keep (fun b hb => hkeep b (hcur b hb)) hbuf

/-- If the blocks of other buffers only grow, these are as they were, too. -/
theorem stream_moved (hl : Later w.heap (IOBuffer.own ⟨w.heap, tls, n⟩ s)
      (w.restBufs s.buf + ↑(w.ownersButStream k t)) c'.heap (IOBuffer.own c' s')) :
    w'.Inv ∧ ∀ j, j ≠ s.buf → Frame w w' j := by
  have hR : ∀ b ∈ w.ownersButStream k t, b ∈ w.restBufs s.buf + ↑(w.ownersButStream k t) :=
    fun b hb => mem_add.mpr (.inr (mem_coe.mpr hb))
  have hn := coe_nodup.mpr hi.owned
  rw [own_stream ht hk n] at hn
  refine ⟨stream_inv hi ht hk hb hw hv hex hs hwf hsize hset
    (hl.nodup_add (fun b hb => hl.bound b (hR b (mem_coe.mp hb))) hn)
    (fun b hb => hl.still b (hR b hb) (apart hn hb)), fun j hne => ?_⟩
  rw [← called_heap hw] at hl
  refine .of_later hl (fun u hu => ?_) fun u hu r hr => mem_add.mpr (.inl (mem_restBufs hu hne hr))
  rw [called_bufs hw, List.getElem?_set_ne (Ne.symm hne)]
  exact hu

end Called

end World

end LightRpc.IOBuffer

import LightRpc.BlockPool
import LightRpc.IOBufStreams
import LightRpc.IOBufThins

/- Streams with blocks of a size of their own (`IOBufAsZeroCopyOutputStream(buf, block_size)`).

   Three calculations have to agree. The constructor refuses sizes up to the offset of `data`
   in a block; `create_block` puts the header of a block, `sizeof(Block)` bytes, at the start of
   the memory, the data behind it, and computes the capacity by an unsigned subtraction; and
   `BlockAllocate` looks for the first of its sizes that is large enough.

   A `Writer` is such a stream at work on any buffer there may be. It writes down every range
   `Next` has returned. Of the operations of the buffer only this is used: they drop blocks and
   change none (`Thins`).

   For sizes from `sizeof(Block)` on, every range lies behind the header and inside the memory the
   pool was asked for, in every run in which `BackUp` takes back no block that was there before the
   stream. Between the two bounds the capacity wraps around; and a stream that takes back a block
   of another size hands that one out. -/
namespace LightRpc.IOBuffer

open Lib Lib.RefCount Option

variable {h h' : Heap} {c : Ctx} {v : IOBuf} {s : Stream} {n count : Nat} {b : BlockId}

/-! The blocks of a stream: those with numbers from `first` on. -/

/-- They use no more than they have, and have no more than was asked for. -/
structure Within (blockSize : Nat) (first : BlockId) (h : Heap) : Prop where
  next : first ≤ h.next
  blocks : ∀ b k, first ≤ b → h.payload b = some k → k.size ≤ k.cap ∧ sizeofBlock + k.cap ≤ blockSize

namespace Within

variable {blockSize : Nat} {first : BlockId}

theorem thins (hw : Within blockSize first h) (ht : Thins h h') : Within blockSize first h' :=
  ⟨ht.next ▸ hw.next, fun b k hb hk => hw.blocks b k hb (ht.payload b k hk)⟩

theorem resize (hw : Within blockSize first h) (b : BlockId) {size : Block → Nat} (hsize : ∀ k, k.size ≤ k.cap → size k ≤ k.cap) :
    Within blockSize first (h.modify b (fun k => k.resize (size k))) := by
  refine ⟨(Store.next_modify h b _).symm ▸ hw.next, fun b' k' hb' hk' => ?_⟩
  rw [Store.payload_modify] at hk'
  split at hk'
  · rename_i heq
    obtain ⟨k, hk, rfl⟩ := map_eq_some_iff.mp hk'
    obtain ⟨hle, hcap⟩ := hw.blocks b k (heq ▸ hb') hk
    exact ⟨hsize k hle, hcap⟩
  · exact hw.blocks b' k' hb' hk'

theorem alloc (hw : Within blockSize first h) {k : Block} (hk : k.size ≤ k.cap ∧ sizeofBlock + k.cap ≤ blockSize) :
    Within blockSize first (h.alloc k) := by
  refine ⟨Nat.le_succ_of_le hw.next, fun b' k' hb' hk' => ?_⟩
  rw [Store.payload_alloc] at hk'
  split at hk'
  · obtain rfl := some.inj hk'
    exact hk
  · exact hw.blocks b' k' hb' hk'

/-- From `sizeof(Block)` on the subtraction in `create_block` does not wrap around. -/
theorem createBlock (hw : Within blockSize first c.heap) (hsize : sizeofBlock ≤ blockSize) :
    Within blockSize first (c.createBlock blockSize).1.heap ∧
      ∀ b, (c.createBlock blockSize).2 = some b → first ≤ b := by
  rcases createBlock_spec (c := c) hsize with heq | ⟨k, heq, hzero, hcap, -⟩
  · rw [heq]
    exact ⟨hw, fun b hb => absurd hb.symm (some_ne_none b)⟩
  · rw [heq]
    have hk : k.size ≤ k.cap ∧ sizeofBlock + k.cap ≤ blockSize := by omega
    refine ⟨hw.alloc hk, fun b hb => ?_⟩
    rw [← some.inj hb]
    exact hw.next

end Within

/-- A stream of that size, whose current block is one of its own. -/
structure OwnBlocks (blockSize : Nat) (first : BlockId) (c : Ctx) (s : Stream) : Prop where
  within : Within blockSize first c.heap
  size : s.blockSize = blockSize
  cur : ∀ b, s.curBlock = some b → first ≤ b

namespace OwnBlocks

variable {blockSize : Nat} {first : BlockId}

section

variable (o : OwnBlocks blockSize first c s)

include o

theorem setHeap (hw : Within blockSize first h') : OwnBlocks blockSize first (c.setHeap h') s :=
  ⟨hw, o.size, o.cur⟩

theorem backedUp (n : Nat) : OwnBlocks blockSize first c (s.backedUp n) :=
  ⟨o.within, o.size, o.cur⟩

theorem releaseBlock (hpos : 0 < blockSize) : OwnBlocks blockSize first (releaseBlock c s).1 (releaseBlock c s).2 := by
  unfold IOBuffer.releaseBlock
  split
  · exact o
  · rename_i b hb
    rw [if_pos (o.size.symm ▸ hpos)]
    exact ⟨o.within.thins (.dec _ b), o.size, fun b' hb' => absurd hb'.symm (some_ne_none b')⟩

theorem acquire {t : Ctx × Stream × Option BlockId} (hsize : sizeofBlock ≤ blockSize)
    (heq : nextBlock.acquire (c, s) = some t) :
    OwnBlocks blockSize first t.1 t.2.1 ∧ ∀ b, t.2.2 = some b → first ≤ b := by
  have hpos : 0 < s.blockSize := by
    rw [o.size]
    exact Nat.lt_of_lt_of_le (by decide) hsize
  rw [nextBlock.acquire, if_pos hpos, o.size] at heq
  cases heq
  obtain ⟨hw, hfirst⟩ := o.within.createBlock hsize
  exact ⟨⟨hw, o.size, hfirst⟩, hfirst⟩

theorem nextBlock {t : Ctx × Stream × Option BlockId} (hsize : sizeofBlock ≤ blockSize) (heq : nextBlock c s = some t) :
    OwnBlocks blockSize first t.1 t.2.1 ∧ ∀ b, t.2.2 = some b → first ≤ b := by
  unfold IOBuffer.nextBlock at heq
  split at heq
  · rename_i b hcur
    split at heq
    · exact (o.releaseBlock (Nat.lt_of_lt_of_le (by decide) hsize)).acquire hsize heq
    · cases heq
      exact ⟨o, fun b' hb' => o.cur b' (hcur.trans hb')⟩
  · exact o.acquire hsize heq

/-- `Next` returns a range of a block of the stream. -/
theorem next {t : Ctx × IOBuf × Stream × Bool} (hsize : sizeofBlock ≤ blockSize) (heq : next c v s = some t) :
    OwnBlocks blockSize first t.1 t.2.2.1 ∧
      (t.2.2.2 → ∃ l, t.2.2.1.lent = some l ∧ first ≤ l.block ∧ l.lo ≤ l.hi ∧ sizeofBlock + l.hi ≤ blockSize) := by
  obtain ⟨⟨c', s', block⟩, hblock, rfl⟩ := map_eq_some_iff.mp heq
  obtain ⟨o', hfirst⟩ := o.nextBlock hsize hblock
  cases block with
  | none => exact ⟨⟨o'.within, o'.size, o'.cur⟩, fun h => absurd h Bool.false_ne_true⟩
  | some b =>
    have hresized := o'.within.resize b (fun k _ => Nat.le_refl k.cap)
    refine ⟨⟨hresized.thins (pushRef_thins false _ _ _), o'.size, o'.cur⟩,
      fun _ => ⟨_, rfl, hfirst b rfl, Nat.le_add_right _ _, ?_⟩⟩
    dsimp only
    -- a block that is gone has no bytes to give
    cases hk : c'.heap.payload b with
    | none => exact hsize
    | some k =>
      obtain ⟨hle, hcap⟩ := o'.within.blocks b k (hfirst b rfl) hk
      show sizeofBlock + (k.size + (k.cap - k.size)) ≤ blockSize
      omega

theorem backUpRef {t : Ctx × IOBuf × Stream × Option Nat} {r : BlockRef} (hpos : 0 < blockSize)
    (heq : backUpRef c v s count r b = t) : OwnBlocks blockSize first t.1 t.2.2.1 := by
  have hshrunk : ∀ m, Within blockSize first (c.heap.modify b (fun k => k.resize (k.size - m))) :=
    fun m => o.within.resize b (fun k hk => Nat.le_trans (Nat.sub_le _ _) hk)
  unfold IOBuffer.backUpRef at heq
  split at heq
  · have hne : ¬ (s.backedUp count).blockSize = 0 := by
      show ¬ s.blockSize = 0
      rw [o.size]
      exact Nat.ne_of_gt hpos
    rw [if_neg hne] at heq
    subst heq
    exact (o.setHeap (hshrunk count)).backedUp count
  · subst heq
    have hpopped := (hshrunk r.length).thins (popBackRef_thins _ v)
    exact ((o.setHeap hpopped).backedUp r.length).releaseBlock hpos

theorem backUpOnce {t : Ctx × IOBuf × Stream × Option Nat} (hpos : 0 < blockSize)
    (hfree : retakesOnce (List.range first) c v s = false) (heq : backUpOnce c v s count = some t) :
    OwnBlocks blockSize first t.1 t.2.2.1 := by
  unfold IOBuffer.backUpOnce at heq
  cases hcur : s.curBlock with
  | some b =>
    rw [hcur] at heq
    dsimp only at heq
    split at heq
    · cases heq
    · exact o.backUpRef hpos (some.inj heq)
  | none =>
    rw [hcur] at heq
    dsimp only at heq
    split at heq
    · split at heq
      · cases heq
      · obtain ⟨p, hp, rfl⟩ := map_eq_some_iff.mp heq
        exact (o.setHeap (o.within.thins (popBack_thins hp))).backedUp p.2.2
    · -- the stream takes the block of the last reference: it is none of those before it
      rename_i hend
      rw [retakesOnce, hcur, not_not.mp hend] at hfree
      simp only [isNone_none, Bool.true_and, beq_self_eq_true, List.contains_eq_mem, List.mem_append,
        decide_eq_false_iff_not, not_or, List.mem_range, Nat.not_lt] at hfree
      have o' : OwnBlocks blockSize first (c.setHeap (c.heap.inc v.backRef.block))
          { s with curBlock := some v.backRef.block } := by
        refine ⟨o.within.thins (.inc _ _), o.size, fun b hb => ?_⟩
        rw [← some.inj hb]
        exact hfree.2
      exact o'.backUpRef hpos (some.inj heq)

end

theorem backUp : ∀ {fuel : Nat} {c : Ctx} {v : IOBuf} {s : Stream} {count : Nat} {t : Ctx × IOBuf × Stream},
    OwnBlocks blockSize first c s → 0 < blockSize → retakes (List.range first) fuel c v s count = false →
    backUp fuel c v s count = some t → OwnBlocks blockSize first t.1 t.2.2
  | 0, c, v, s, count, t, _, _, _, heq => by
    rw [IOBuffer.backUp] at heq
    cases heq
  | fuel + 1, c, v, s, count, t, o, hpos, hfree, heq => by
    rw [IOBuffer.backUp] at heq
    rw [retakes] at hfree
    by_cases hempty : v.isEmpty
    · rw [if_pos hempty] at heq
      split at heq <;> cases heq
      · exact o
    · have hempty : v.isEmpty = false := Bool.eq_false_iff.mpr hempty
      rw [hempty, if_neg Bool.false_ne_true] at heq
      rw [hempty, Bool.not_false, Bool.true_and, Bool.or_eq_false_iff] at hfree
      cases honce : IOBuffer.backUpOnce c v s count with
      | none =>
        rw [honce] at heq
        cases heq
      | some d =>
        have o' := o.backUpOnce hpos hfree.1 honce
        obtain ⟨c', v', s', left⟩ := d
        rw [honce] at heq hfree
        cases left with
        | none =>
          cases heq
          exact o'
        | some rest => exact OwnBlocks.backUp o' hpos hfree.2 heq

end OwnBlocks

/-! Runs of a stream. -/

/-- `IOBufAsZeroCopyOutputStream(buf, block_size)`; too small a size is an exception. -/
def newStream (blockSize : Nat) : Option Stream :=
  if blockSize ≤ offsetofData then none else some ⟨0, blockSize, none, 0, none, none⟩

/-- Where a range begins in the memory of its block: `data` points behind the header. -/
def Span.start (l : Span) : Nat := sizeofBlock + l.lo

def Span.stop (l : Span) : Nat := sizeofBlock + l.hi

structure Writer where
  ctx : Ctx
  buf : IOBuf
  stream : Stream
  /-- The number of the first block allocated after the stream was there. -/
  first : BlockId
  /-- What `Next` has returned, the latest first. -/
  ranges : List Span

inductive Writer.Call where
  | next (avail : Nat)
  | backUp (count : Nat)

def Writer.step (w : Writer) : Writer.Call → Option Writer
  | .next avail =>
    (IOBuffer.next { w.ctx with avail := avail } w.buf w.stream).map fun t =>
      ⟨t.1, t.2.1, t.2.2.1, w.first, if t.2.2.2 then t.2.2.1.lent.toList ++ w.ranges else w.ranges⟩
  | .backUp count =>
    (IOBuffer.backUp (w.buf.refNum + 1) w.ctx w.buf w.stream count).map fun t => ⟨t.1, t.2.1, t.2.2, w.first, w.ranges⟩

/-- A stream that is constructed on any buffer, in any thread. -/
def writerMachine (blockSize : Nat) : Machine Writer Writer.Call where
  init w := newStream blockSize = some w.stream ∧ (∃ m, Exact w.ctx.heap m) ∧ w.first = w.ctx.heap.next ∧ w.ranges = []
  next := Writer.step

/-- A call that takes back no block that is in the thread's chain or was there before the stream. -/
def Writer.keepsToOwn (w : Writer) : Writer.Call → Bool
  | .next _ => true
  | .backUp count => !retakes (List.range w.first) (w.buf.refNum + 1) w.ctx w.buf w.stream count

/-- The range is one of a block of the stream, behind the header and in the first `blockSize` bytes. -/
structure Inside (blockSize : Nat) (first : BlockId) (l : Span) : Prop where
  own : first ≤ l.block
  header : sizeofBlock ≤ l.start
  order : l.start ≤ l.stop
  memory : l.stop ≤ blockSize

structure Writer.Inv (blockSize : Nat) (w : Writer) : Prop where
  blocks : OwnBlocks blockSize w.first w.ctx w.stream
  ranges : ∀ l ∈ w.ranges, Inside blockSize w.first l

theorem Writer.Inv.init {blockSize : Nat} {w : Writer} (hi : (writerMachine blockSize).init w) : w.Inv blockSize := by
  obtain ⟨hnew, ⟨m, hex⟩, hfirst, hranges⟩ := hi
  have hs := (ite_none_left_eq_some.mp hnew).2
  refine ⟨⟨⟨Nat.le_of_eq hfirst, fun b k hb hk => ?_⟩, ?_, fun b hb => ?_⟩, fun l hl => ?_⟩
  · have hlt := hex.lt_next (hex.mem_of_payload hk)
    exact absurd (Nat.lt_of_lt_of_le hlt (hfirst ▸ hb)) (Nat.lt_irrefl b)
  · rw [← some.inj hs]
  · rw [← some.inj hs] at hb
    cases hb
  · rw [hranges] at hl
    cases hl

theorem Writer.Inv.step {blockSize : Nat} {w w' : Writer} {call : Writer.Call} (hi : w.Inv blockSize)
    (hsize : sizeofBlock ≤ blockSize) (hkeeps : w.keepsToOwn call) (hn : w.step call = some w') :
    w'.Inv blockSize := by
  cases call with
  | next avail =>
    obtain ⟨t, ht, rfl⟩ := map_eq_some_iff.mp hn
    have o : OwnBlocks blockSize w.first { w.ctx with avail := avail } w.stream :=
      ⟨hi.blocks.within, hi.blocks.size, hi.blocks.cur⟩
    obtain ⟨o', hgiven⟩ := o.next hsize ht
    refine ⟨o', fun l hl => ?_⟩
    dsimp only at hl
    split at hl
    · rename_i hok
      obtain ⟨given, hlent, hfirst, horder, hmemory⟩ := hgiven hok
      rw [hlent] at hl
      rcases List.mem_cons.mp hl with rfl | hold
      · exact ⟨hfirst, Nat.le_add_right _ _, Nat.add_le_add_left horder _, hmemory⟩
      · exact hi.ranges l hold
    · exact hi.ranges l hl
  | backUp count =>
    obtain ⟨t, ht, rfl⟩ := map_eq_some_iff.mp hn
    have hpos : 0 < blockSize := Nat.lt_of_lt_of_le (by decide) hsize
    have hfree : retakes (List.range w.first) (w.buf.refNum + 1) w.ctx w.buf w.stream count = false := by
      simpa [Writer.keepsToOwn] using hkeeps
    exact ⟨hi.blocks.backUp hpos hfree ht, hi.ranges⟩

theorem blockSize_of_typeFor {len : Nat} {t : BlockPool.BlockType} (h : BlockPool.typeFor len = some t) :
    len ≤ BlockPool.blockSize t := by
  have hfound := (ite_none_left_eq_some.mp h).2
  exact of_decide_eq_true (List.find?_some (p := fun t => decide (len ≤ BlockPool.blockSize t)) hfound)

/-- Every range `Next` returns lies behind the header of a block of the stream, in the memory the
    pool was asked for and so in the block it returned. -/
theorem ranges_inside {blockSize : Nat} {t : BlockPool.BlockType} {calls : List Writer.Call} {w : Writer}
    (hpool : BlockPool.typeFor blockSize = some t) (hsize : sizeofBlock ≤ blockSize)
    (hrun : ((writerMachine blockSize).guard Writer.keepsToOwn).Run calls w) :
    ∀ l ∈ w.ranges, Inside blockSize w.first l ∧ l.stop ≤ BlockPool.blockSize t := by
  have hinv : w.Inv blockSize := by
    refine hrun.invariant (I := fun _ w => w.Inv blockSize) (fun w hi => .init hi) fun _ w call w' _ hi hn => ?_
    obtain ⟨hkeeps, hn⟩ := Machine.guard_next.mp hn
    exact hi.step hsize hkeeps hn
  intro l hl
  have hin := hinv.ranges l hl
  exact ⟨hin, Nat.le_trans hin.memory (blockSize_of_typeFor hpool)⟩

/-- A stream on an empty buffer in a thread without blocks. -/
def freshWriter (blockSize : Nat) : Writer :=
  ⟨⟨.empty, .new, 0⟩, .new, ⟨0, blockSize, none, 0, none, none⟩, 0, []⟩

def sixCalls : List Writer.Call := [.next 1, .backUp 64, .next 0, .next 1, .backUp 4100, .next 0]

theorem sixCalls_inside : ∃ w, ((writerMachine 4096).guard Writer.keepsToOwn).Run sixCalls w ∧
    w.ranges = [⟨0, 4028, 4064⟩, ⟨1, 0, 4064⟩, ⟨0, 4000, 4064⟩, ⟨0, 0, 4064⟩] ∧
    ∀ l ∈ w.ranges, Inside 4096 w.first l ∧ l.stop ≤ BlockPool.blockSize 0 := by
  obtain ⟨w, hrun, hranges⟩ : ∃ w, ((writerMachine 4096).guard Writer.keepsToOwn).Run sixCalls w ∧
      w.ranges = [⟨0, 4028, 4064⟩, ⟨1, 0, 4064⟩, ⟨0, 4000, 4064⟩, ⟨0, 0, 4064⟩] :=
    Machine.exists_run (s := freshWriter 4096) ⟨rfl, ⟨0, .empty⟩, rfl, rfl⟩ (by decide +kernel)
  exact ⟨w, hrun, hranges, ranges_inside (by decide) (by decide) hrun⟩

/-- A stream of 4096 bytes on a buffer that ends in a block of the thread's chain. -/
def sharedWriter : Writer :=
  let p := pushBack ⟨.empty, .new, 1⟩ .new 7
  ⟨p.1, p.2.1, ⟨0, 4096, none, 0, none, none⟩, 1, []⟩

theorem sharedWriter_init : (writerMachine 4096).init sharedWriter := by
  refine ⟨rfl, ?_, rfl, rfl⟩
  obtain ⟨c, v, ok, done, heq, happ, -⟩ := pushBack_spec (c := ⟨.empty, .new, 1⟩) (v := .new) (x := 7) (F := 0) .new
    Exact.empty (fun _ _ h => absurd h.symm (some_ne_none _)) ⟨fun _ => by decide, by decide, by decide⟩
  have hctx : sharedWriter.ctx = c := congrArg Prod.fst heq
  rw [hctx]
  exact ⟨_, happ.step.exact⟩

/-- 31 bytes are accepted and served, and the first range has all but one of 2^32 bytes. With 4096
    bytes, `BackUp(0)` takes a block of 8192 bytes from the thread's chain, and `Next` returns the
    rest of that. -/
theorem ranges_outside :
    (BlockPool.typeFor 31 = some 0 ∧ ∃ w, (writerMachine 31).Run [.next 1] w ∧ w.ranges = [⟨0, 0, 2 ^ 32 - 1⟩] ∧
      ∀ l ∈ w.ranges, ¬ l.stop ≤ BlockPool.blockSize 0) ∧
    BlockPool.typeFor 4096 = some 0 ∧ ∃ w, (writerMachine 4096).Run [.backUp 0, .next 0] w ∧
      w.ranges = [⟨0, 1, 8160⟩] ∧ ∀ l ∈ w.ranges, ¬ w.first ≤ l.block ∧ ¬ l.stop ≤ 4096 := by
  refine ⟨⟨by decide, ?_⟩, by decide, ?_⟩
  · exact Machine.exists_run (s := freshWriter 31) ⟨rfl, ⟨0, .empty⟩, rfl, rfl⟩ (by decide +kernel)
  · exact Machine.exists_run (s := sharedWriter) sharedWriter_init (by decide +kernel)

end LightRpc.IOBuffer

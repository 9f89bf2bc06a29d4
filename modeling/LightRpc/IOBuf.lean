import LightRpc.Lib.Machine
import LightRpc.Lib.RefCount
import LightRpc.Lib.Window

/- IOBufs, the blocks they share, and zero-copy output streams (`fast_iobuf.{h,cc}`,
   `fast_iobuf_inl.h`).

   An IOBuf is a sequence of references to pieces of blocks. Up to two references are kept
   in the object itself (`SmallView`), more in a ring on the heap (`BigView`). Both views
   lie in one union, and `_small()` decides by the sign of `magic`, which is the same memory
   as the offset of the small view's first reference. `IOBuf` here has a constructor for each
   view as `_small()` sees it: writing an offset of 2^31 or more into the first reference
   yields a big view (`misread`) whose array is not one.

   A block lives while its `nshared` is positive (`Lib.RefCount`). Whatever the source does
   with a block that is gone, with a reference it has overwritten, or with the array of a
   misread view, makes the heap `broken`; a LOG(FATAL) or a null pointer ends the run.

   Blocks come from the pool, or hold memory of the user. `BlockAllocate` may fail: every
   operation is given the number of blocks the pool has for it.

   Left out: `u.data_meta` and `abi_check` of a block, which nothing here reads, and the
   overloads that only forward. -/
namespace LightRpc.IOBuffer

open Lib Lib.RefCount

abbrev BlockId := Nat

/-- What a block holds besides its `nshared`. -/
structure Block where
  userData : Bool
  size : Nat
  cap : Nat
  data : Nat → UInt8

namespace Block

def full (b : Block) : Bool := decide (b.cap ≤ b.size)

def leftSpace (b : Block) : Nat := b.cap - b.size

/-- `memcpy` of the bytes to `data + pos` -/
def write (b : Block) (pos : Nat) (bytes : List UInt8) : Block :=
  { b with data := fun i => if pos ≤ i ∧ i < pos + bytes.length then bytes.getD (i - pos) 0 else b.data i }

def resize (b : Block) (size : Nat) : Block := { b with size := size }

end Block

abbrev Heap := Store Block

/-- A `BlockRef` with a block; the one without is `none`. -/
structure BlockRef where
  offset : Nat
  length : Nat
  block : BlockId
  deriving DecidableEq, Inhabited

def u32 (n : Nat) : Nat := n % 2 ^ 32

/-- Subtraction of `size_t` values. -/
def sub64 (a b : Nat) : Nat := (a + 2 ^ 64 - b) % 2 ^ 64

namespace BlockRef

def advance (n : Nat) (r : BlockRef) : BlockRef := { r with offset := u32 (r.offset + n), length := r.length - n }

def shorten (n : Nat) (r : BlockRef) : BlockRef := { r with length := r.length - n }

def extend (n : Nat) (r : BlockRef) : BlockRef := { r with length := u32 (r.length + n) }

/-- Whether `r` continues `back` in the same block. -/
def follows (r back : BlockRef) : Bool := back.block == r.block && u32 (back.offset + back.length) == r.offset

end BlockRef

structure BigView where
  start : Nat
  refs : List BlockRef
  nref : Nat
  capMask : Nat
  nbytes : Nat
  /-- The block whose memory `refs` points to, if it does not point to an array. -/
  alien : Option BlockId
  deriving DecidableEq

namespace BigView

def index (bv : BigView) (i : Nat) : Nat := (bv.start + i) &&& bv.capMask

def refAt (bv : BigView) (i : Nat) : BlockRef := bv.refs.getD (bv.index i) default

def capacity (bv : BigView) : Nat := u32 (bv.capMask + 1)

/-- The references from the first to the last. -/
def all (bv : BigView) : List BlockRef := (List.range bv.nref).map bv.refAt

/-- An access to an entry of `refs`. -/
def touch (bv : BigView) (h : Heap) : Heap := if bv.alien.isSome then h.fail else h

end BigView

inductive IOBuf where
  | small (r0 r1 : Option BlockRef)
  | big (bv : BigView)
  deriving DecidableEq

def INITIAL_CAP : Nat := 32

def offsetOf (r : Option BlockRef) : Nat := r.elim 0 BlockRef.offset

def lengthOf (r : Option BlockRef) : Nat := r.elim 0 BlockRef.length

/-- A pointer as a number: the null pointer is the only one that is zero. -/
def pointer (r : Option BlockRef) : Nat := r.elim 0 (fun r => r.block + 1)

/-- A small view read as a big one. -/
def misread (r0 : BlockRef) (r1 : Option BlockRef) : BigView :=
  ⟨r0.length, [], offsetOf r1, lengthOf r1, pointer r1, some r0.block⟩

namespace IOBuf

/-- `IOBuf()` -/
def new : IOBuf := .small none none

/-- A small view as `_small()` sees it. -/
def ofSmall (r0 r1 : Option BlockRef) : IOBuf :=
  match r0 with
  | some r => if r.offset < 2 ^ 31 then .small r0 r1 else .big (misread r r1)
  | none => .small none r1

/-- `_small()` -/
def isSmall : IOBuf → Bool
  | .small _ _ => true
  | .big _ => false

def isEmpty : IOBuf → Bool
  | .small r0 _ => r0.isNone
  | .big bv => bv.nbytes == 0

def length : IOBuf → Nat
  | .small r0 r1 => u32 (lengthOf r0 + lengthOf r1)
  | .big bv => bv.nbytes

def refNum : IOBuf → Nat
  | .small r0 r1 => r0.isSome.toNat + r1.isSome.toNat
  | .big bv => bv.nref

def refAt (v : IOBuf) (i : Nat) : BlockRef :=
  match v with
  | .small r0 r1 => (if i = 0 then r0 else r1).getD default
  | .big bv => bv.refAt i

def frontRef : IOBuf → BlockRef
  | .small r0 _ => r0.getD default
  | .big bv => bv.refs.getD bv.start default

def backRef : IOBuf → BlockRef
  | .small r0 r1 => r1.getD (r0.getD default)
  | .big bv => bv.refAt (bv.nref - 1)

/-- `if (!_small()) _bv.nbytes -= n`, after a reference was changed -/
def lessBytes (v : IOBuf) (n : Nat) : IOBuf :=
  match v with
  | .small r0 r1 => .small r0 r1
  | .big bv => .big { bv with nbytes := sub64 bv.nbytes n }

/-- The front reference loses its first `n` bytes. -/
def advanceFront (v : IOBuf) (n : Nat) : IOBuf :=
  match v with
  | .small r0 r1 => (ofSmall (r0.map (BlockRef.advance n)) r1).lessBytes n
  | .big bv => (IOBuf.big { bv with refs := bv.refs.modify bv.start (BlockRef.advance n) }).lessBytes n

/-- The back reference loses its last `n` bytes. -/
def shortenBack (v : IOBuf) (n : Nat) : IOBuf :=
  match v with
  | .small r0 (some r) => .small r0 (some (r.shorten n))
  | .small r0 none => .small (r0.map (BlockRef.shorten n)) none
  | .big bv =>
    (IOBuf.big { bv with refs := bv.refs.modify (bv.index (bv.nref - 1)) (BlockRef.shorten n) }).lessBytes n

end IOBuf

/-- A reference that was not moved here is counted. -/
def takeRef (move : Bool) (h : Heap) (r : BlockRef) : Heap := if move then h else h.inc r.block

/-- A reference that was moved here and merged is dropped. -/
def mergeRef (move : Bool) (h : Heap) (r : BlockRef) : Heap := if move then h.dec r.block else h

/-- `_push_or_move_back_ref_to_smallview` -/
def pushSmall (move : Bool) (h : Heap) (r0 r1 : Option BlockRef) (r : BlockRef) : Heap × IOBuf :=
  match r0, r1 with
  | none, r1 => (takeRef move h r, .ofSmall (some r) r1)
  | some a, none =>
    if r.follows a then (mergeRef move h r, .small (some (a.extend r.length)) none)
    else (takeRef move h r, .small (some a) (some r))
  | some a, some b =>
    if r.follows b then (mergeRef move h r, .small (some a) (some (b.extend r.length)))
    else (takeRef move h r, .big ⟨0, [a, b, r] ++ List.replicate (INITIAL_CAP - 3) default, 3, INITIAL_CAP - 1,
      u32 (a.length + b.length + r.length), none⟩)

/-- `_push_or_move_back_ref_to_bigview` -/
def pushBig (move : Bool) (h : Heap) (bv : BigView) (r : BlockRef) : Heap × IOBuf :=
  if r.follows (bv.refAt (bv.nref - 1)) then
    (mergeRef move (bv.touch h) r, .big { bv with
      refs := bv.refs.modify (bv.index (bv.nref - 1)) (BlockRef.extend r.length)
      nbytes := bv.nbytes + r.length })
  else if bv.nref ≠ bv.capacity then
    (takeRef move (bv.touch h) r, .big { bv with
      refs := bv.refs.set (bv.index bv.nref) r
      nref := bv.nref + 1
      nbytes := bv.nbytes + r.length })
  else
    let newCap := u32 (bv.capacity * 2)
    (takeRef move (bv.touch h) r, .big ⟨0, bv.all ++ [r] ++ List.replicate (newCap - (bv.nref + 1)) default,
      bv.nref + 1, newCap - 1, bv.nbytes + r.length, none⟩)

/-- `_push_back_ref` (`move = false`) and `_move_back_ref` (`move = true`) -/
def pushRef (move : Bool) (h : Heap) (v : IOBuf) (r : BlockRef) : Heap × IOBuf :=
  match v with
  | .small r0 r1 => pushSmall move h r0 r1 r
  | .big bv => pushBig move h bv r

/-- `_pop_front_ref` (`moveout = false`) and `_moveout_front_ref` (`moveout = true`) -/
def popFrontRef (moveout : Bool) (h : Heap) (v : IOBuf) : Heap × IOBuf :=
  match v with
  | .small none r1 => (h, .small none r1)
  | .small (some a) r1 => (if moveout then h else h.dec a.block, .ofSmall r1 none)
  | .big bv =>
    let front := bv.refs.getD bv.start default
    let h := if moveout then bv.touch h else (bv.touch h).dec front.block
    if bv.nref - 1 > 2 then
      (h, .big { bv with start := bv.index 1, nref := bv.nref - 1, nbytes := sub64 bv.nbytes front.length })
    else (h, .ofSmall (some (bv.refAt 1)) (some (bv.refAt 2)))

/-- `_pop_back_ref` -/
def popBackRef (h : Heap) (v : IOBuf) : Heap × IOBuf :=
  match v with
  | .small r0 (some b) => (h.dec b.block, .small r0 none)
  | .small (some a) none => (h.dec a.block, .new)
  | .small none none => (h, .new)
  | .big bv =>
    let back := bv.refAt (bv.nref - 1)
    let h := (bv.touch h).dec back.block
    if bv.nref - 1 > 2 then
      (h, .big { bv with nref := bv.nref - 1, nbytes := sub64 bv.nbytes back.length })
    else (h, .ofSmall (some (bv.refAt 0)) (some (bv.refAt 1)))

def incRefs (h : Heap) (refs : List BlockRef) : Heap := (refs.map BlockRef.block).foldl Store.inc h

def decRefs (h : Heap) (refs : List BlockRef) : Heap := (refs.map BlockRef.block).foldl Store.dec h

/-- A loop over all references of a big view. -/
def BigView.touchAll (bv : BigView) (h : Heap) : Heap := if bv.nref = 0 then h else bv.touch h

/-- `release_blockref_array`: `delete[] refs` frees whatever `refs` points to. -/
def BigView.releaseArray (bv : BigView) (h : Heap) : Heap := bv.alien.elim h h.free

/-- `IOBuf::clear` -/
def clear (h : Heap) (v : IOBuf) : Heap × IOBuf :=
  match v with
  | .small none r1 => (h, .small none r1)
  | .small (some a) none => (h.dec a.block, .new)
  | .small (some a) (some b) => ((h.dec a.block).dec b.block, .new)
  | .big bv => (bv.releaseArray (decRefs (bv.touchAll h) bv.all), .new)

/-- `IOBuf(const IOBuf &)` -/
def copy (h : Heap) (rhs : IOBuf) : Heap × IOBuf :=
  match rhs with
  | .small r0 r1 => (incRefs h (r0.toList ++ r1.toList), .small r0 r1)
  | .big bv => (incRefs (bv.touchAll h) bv.all,
      .big { bv with start := 0, refs := bv.all ++ List.replicate (bv.capacity - bv.nref) default, alien := none })

/-- `operator=(const IOBuf &)` for another object -/
def assign (h : Heap) (lhs rhs : IOBuf) : Heap × IOBuf :=
  match lhs, rhs with
  | .big a, .big b =>
    if a.capMask = b.capMask then
      (incRefs (b.touchAll (decRefs (a.touchAll h) a.all)) b.all,
        .big { a with start := 0, nref := b.nref, nbytes := b.nbytes, refs := b.all ++ a.refs.drop b.nref })
    else copy (clear h lhs).1 rhs
  | lhs, rhs => copy (clear h lhs).1 rhs

def popFrontLoop : Nat → Heap → IOBuf → Nat → Option (Heap × IOBuf)
  | _, h, v, 0 => some (h, v)
  | 0, _, _, _ + 1 => none
  | fuel + 1, h, v, n + 1 =>
    let r := v.frontRef
    if n + 1 < r.length then some (h, v.advanceFront (n + 1))
    else
      let s := popFrontRef false h v
      popFrontLoop fuel s.1 s.2 (n + 1 - r.length)

/-- `IOBuf::pop_front`, with the number it returns -/
def popFront (h : Heap) (v : IOBuf) (n : Nat) : Option (Heap × IOBuf × Nat) :=
  if v.length ≤ n then some ((clear h v).1, (clear h v).2, v.length)
  else (popFrontLoop v.refNum h v n).map (fun s => (s.1, s.2, n))

def popBackLoop : Nat → Heap → IOBuf → Nat → Option (Heap × IOBuf)
  | _, h, v, 0 => some (h, v)
  | 0, _, _, _ + 1 => none
  | fuel + 1, h, v, n + 1 =>
    let r := v.backRef
    if n + 1 < r.length then some (h, v.shortenBack (n + 1))
    else
      let s := popBackRef h v
      popBackLoop fuel s.1 s.2 (n + 1 - r.length)

/-- `IOBuf::pop_back`, with the number it returns -/
def popBack (h : Heap) (v : IOBuf) (n : Nat) : Option (Heap × IOBuf × Nat) :=
  if v.length ≤ n then some ((clear h v).1, (clear h v).2, v.length)
  else (popBackLoop v.refNum h v n).map (fun s => (s.1, s.2, n))

def cutnLoop : Nat → Heap → IOBuf → IOBuf → Nat → Option (Heap × IOBuf × IOBuf)
  | _, h, v, out, 0 => some (h, v, out)
  | 0, _, _, _, _ + 1 => none
  | fuel + 1, h, v, out, n + 1 =>
    let r := v.frontRef
    if r.length ≤ n + 1 then
      let s := pushRef true h out r
      let t := popFrontRef true s.1 v
      cutnLoop fuel t.1 t.2 s.2 (n + 1 - r.length)
    else
      let s := pushRef false h out { r with length := u32 (n + 1) }
      some (s.1, v.advanceFront (n + 1), s.2)

/-- `IOBuf::cutn(IOBuf *, size_t)` -/
def cutn (h : Heap) (v out : IOBuf) (n : Nat) : Option (Heap × IOBuf × IOBuf × Nat) :=
  let n := min n v.length
  (cutnLoop v.refNum h v out n).map (fun s => (s.1, s.2.1, s.2.2, n))

/-- The first `n` bytes a reference refers to; a block that is gone has none. -/
def readRef (h : Heap) (r : BlockRef) (n : Nat) : List UInt8 :=
  (h.payload r.block).elim [] (fun b => (List.range n).map (fun i => b.data (r.offset + i)))

def cutnMemLoop : Nat → Heap → IOBuf → List UInt8 → Nat → Option (Heap × IOBuf × List UInt8)
  | _, h, v, out, 0 => some (h, v, out)
  | 0, _, _, _, _ + 1 => none
  | fuel + 1, h, v, out, n + 1 =>
    let r := v.frontRef
    if r.length ≤ n + 1 then
      let s := popFrontRef false h v
      cutnMemLoop fuel s.1 s.2 (out ++ readRef h r r.length) (n + 1 - r.length)
    else some (h, v.advanceFront (n + 1), out ++ readRef h r (n + 1))

/-- `IOBuf::cutn(void *, size_t)`, with the bytes copied out -/
def cutnMem (h : Heap) (v : IOBuf) (n : Nat) : Option (Heap × IOBuf × List UInt8) :=
  cutnMemLoop v.refNum h v [] (min n v.length)

/-- `IOBuf::cut1` -/
def cut1 (h : Heap) (v : IOBuf) : Heap × IOBuf × List UInt8 :=
  if v.isEmpty then (h, v, [])
  else
    let r := v.frontRef
    if 1 < r.length then (h, v.advanceFront 1, readRef h r 1)
    else ((popFrontRef false h v).1, (popFrontRef false h v).2, readRef h r 1)

/-- `IOBuf::append(const IOBuf &)` for another object -/
def appendBuf (h : Heap) (v other : IOBuf) : Heap × IOBuf :=
  ((List.range other.refNum).map other.refAt).foldl (fun s r => pushRef false s.1 s.2 r) (h, v)

/-- `IOBuf::append(const Movable &)` for another object -/
def appendMovable (h : Heap) (v other : IOBuf) : Heap × IOBuf × IOBuf :=
  if v.isEmpty then (h, other, v)
  else
    let s := ((List.range other.refNum).map other.refAt).foldl (fun s r => pushRef true s.1 s.2 r) (h, v)
    (s.1, s.2, .new)

/-- What skipping `pos` bytes leaves of the references, and the offset in the first of them. -/
def skipRefs : List BlockRef → Nat → List BlockRef × Nat
  | refs, 0 => (refs, 0)
  | [], pos => ([], pos)
  | r :: refs, pos + 1 => if pos + 1 < r.length then (r :: refs, pos + 1) else skipRefs refs (pos + 1 - r.length)

def copyRefs (h : Heap) : List BlockRef → Nat → Nat → List UInt8
  | [], _, _ => []
  | _, _, 0 => []
  | r :: refs, offset, m + 1 =>
    let nc := min (m + 1) (r.length - offset)
    readRef h { r with offset := r.offset + offset } nc ++ copyRefs h refs 0 (m + 1 - nc)

/-- `IOBuf::copy_to`, with the bytes copied -/
def copyTo (h : Heap) (v : IOBuf) (n pos : Nat) : List UInt8 :=
  let s := skipRefs ((List.range v.refNum).map v.refAt) pos
  copyRefs h s.1 s.2 n

/-- `IOBuf::fetch1`, with the byte it points to -/
def fetch1 (h : Heap) (v : IOBuf) : Option UInt8 :=
  if v.isEmpty then none else (readRef h v.frontRef 1).head?

/-! Blocks for appending: the chain of a thread and the pool behind it. -/

def DEFAULT_BLOCK_SIZE : Nat := 8192

/-- `sizeof(IOBuf::Block)` -/
def sizeofBlock : Nat := 32

/-- `offsetof(IOBuf::Block, data)` -/
def offsetofData : Nat := 24

/-- The largest entry of `g_block_size`. -/
def maxBlockSize : Nat := 2097152

def MAX_BLOCKS_PER_THREAD : Nat := 8

/-- `TLSData`. `chain` are the blocks found from `block_head` on, as long as the pointers
    between them make a chain; `portal` are the pointers (`u.portal_next` of a block) as this
    thread has written them. -/
structure Tls where
  chain : List BlockId
  numBlocks : Nat
  registered : Bool
  portal : BlockId → Option BlockId

def Tls.new : Tls := ⟨[], 0, false, fun _ => none⟩

/-- `b->u.portal_next = next` -/
def Tls.link (t : Tls) (b : BlockId) (next : Option BlockId) : Tls :=
  { t with portal := fun b' => if b' = b then next else t.portal b' }

/-- What a thread works on: the heap, its own TLS data, and the number of blocks the pool
    has left for it. -/
structure Ctx where
  heap : Heap
  tls : Tls
  avail : Nat

namespace Ctx

def setHeap (c : Ctx) (h : Heap) : Ctx := { c with heap := h }

/-- `create_block`; the size of the block wraps around below `sizeof(Block)`. -/
def createBlock (c : Ctx) (blockSize : Nat) : Ctx × Option BlockId :=
  if c.avail = 0 ∨ maxBlockSize < blockSize then (c, none)
  else ({ c with
      heap := c.heap.alloc ⟨false, 0, u32 (sub64 blockSize sizeofBlock), fun _ => 0⟩
      avail := c.avail - 1 }, some c.heap.next)

end Ctx

def isFull (h : Heap) (b : BlockId) : Bool := (h.payload b).elim false Block.full

/-- Full blocks at the head of the chain are dropped. -/
def dropFull : Heap → List BlockId → Nat → Heap × List BlockId × Nat
  | h, [], num => (h, [], num)
  | h, b :: chain, num => if isFull h b then dropFull (h.dec b) chain (num - 1) else (h, b :: chain, num)

/-- `share_tls_block`; a head that is not full is returned as it is. The constructor of a block
    sets its `portal_next` to null. -/
def shareTlsBlock (c : Ctx) : Ctx × Option BlockId :=
  let d := dropFull c.heap c.tls.chain c.tls.numBlocks
  let c := { c with
    heap := d.1
    tls := { c.tls with chain := d.2.1, numBlocks := d.2.2, registered := c.tls.registered || c.tls.chain.isEmpty } }
  match d.2.1 with
  | b :: _ => (c, some b)
  | [] =>
    match c.createBlock DEFAULT_BLOCK_SIZE with
    | (c, some b) => ({ c with tls := { c.tls.link b none with chain := [b], numBlocks := c.tls.numBlocks + 1 } }, some b)
    | (c, none) => (c, none)

/-- `release_tls_block` -/
def releaseTlsBlock (c : Ctx) (b : BlockId) : Ctx :=
  if isFull c.heap b then c.setHeap (c.heap.dec b)
  else if MAX_BLOCKS_PER_THREAD ≤ c.tls.numBlocks then c.setHeap (c.heap.dec b)
  else { c with tls := { c.tls.link b c.tls.chain.head? with
      chain := b :: c.tls.chain
      numBlocks := c.tls.numBlocks + 1
      registered := true } }

/-- `acquire_tls_block`; if all blocks of the chain are full, it reads through a null pointer. -/
def acquireTlsBlock (c : Ctx) : Option (Ctx × Option BlockId) :=
  match c.tls.chain with
  | [] => some (c.createBlock DEFAULT_BLOCK_SIZE)
  | chain =>
    let d := dropFull c.heap chain c.tls.numBlocks
    match d.2.1 with
    | [] => none
    | b :: rest => some ({ c with heap := d.1, tls := { c.tls.link b none with chain := rest, numBlocks := d.2.2 - 1 } }, some b)

/-- A block of the pool's first type. -/
def Block.pooled (k : Block) : Bool := !k.userData && u32 (k.cap + sizeofBlock) ≤ DEFAULT_BLOCK_SIZE

/-- `dec_ref` of the block gives it to `BlockDeallocate`, which keeps it for the thread. -/
def deallocates (h : Heap) (b : BlockId) : Bool := h.count b = 1 && (h.payload b).any Block.pooled

/-- The loop of `clear_tls_block_chain`, in the destructor that runs the callbacks of the thread.
    With the first block that it deallocates a thread registers `RecycleAll` (`tls_inited`): here
    this adds to the vector of callbacks that the destructor iterates over. -/
def clearTlsBlockChain : Bool → Heap → List BlockId → Heap
  | _, h, [] => h
  | inited, h, b :: chain =>
    if !inited && deallocates h b then clearTlsBlockChain true (h.dec b).fail chain
    else clearTlsBlockChain inited (h.dec b) chain

/-- `clear_tls_block_chain`, if it was registered to run when the thread exits -/
def threadExit (c : Ctx) (inited : Bool) : Ctx :=
  if c.tls.registered then
    { c with heap := clearTlsBlockChain inited c.heap c.tls.chain, tls := { c.tls with chain := [], numBlocks := 0 } }
  else c

/-- `IOBuf::push_back`; the result is false if no block was there. -/
def pushBack (c : Ctx) (v : IOBuf) (x : UInt8) : Ctx × IOBuf × Bool :=
  match shareTlsBlock c with
  | (c, none) => (c, v, false)
  | (c, some b) =>
    let size := (c.heap.payload b).elim 0 Block.size
    let s := pushRef false (c.heap.modify b (fun k => (k.write size [x]).resize (size + 1))) v ⟨size, 1, b⟩
    (c.setHeap s.1, s.2, true)

/-- The loop of `append(const void *, size_t)` and, for equal bytes, of `resize`. -/
def appendLoop : Nat → Ctx → IOBuf → List UInt8 → Option (Ctx × IOBuf × Bool)
  | _, c, v, [] => some (c, v, true)
  | 0, _, _, _ :: _ => none
  | fuel + 1, c, v, x :: rest =>
    let data := x :: rest
    match shareTlsBlock c with
    | (c, none) => some (c, v, false)
    | (c, some b) =>
      let size := (c.heap.payload b).elim 0 Block.size
      let nc := min data.length ((c.heap.payload b).elim 0 Block.leftSpace)
      let s := pushRef false (c.heap.modify b (fun k => k.write size (data.take nc))) v ⟨size, nc, b⟩
      appendLoop fuel (c.setHeap (s.1.modify b (fun k => k.resize (size + nc)))) s.2 (data.drop nc)

/-- `IOBuf::append(const void *, size_t)` -/
def append (c : Ctx) (v : IOBuf) (data : List UInt8) : Option (Ctx × IOBuf × Bool) :=
  match data with
  | [x] => some (pushBack c v x)
  | data => appendLoop data.length c v data

/-- `IOBuf::resize` -/
def resize (c : Ctx) (v : IOBuf) (n : Nat) (x : UInt8) : Option (Ctx × IOBuf × Bool) :=
  if n < v.length then (popBack c.heap v (v.length - n)).map (fun s => (c.setHeap s.1, s.2.1, true))
  else appendLoop (n - v.length) c v (List.replicate (n - v.length) x)

/-- `IOBuf::append_user_data_with_meta`; too large a size is fatal. For size 0 there is no
    block, and the deleter runs at once. -/
def appendUserData (c : Ctx) (v : IOBuf) (data : Nat → UInt8) (size : Nat) : Option (Ctx × IOBuf × Bool) :=
  if 0xFFFFFFFF - 100 < size then none
  else if size = 0 then some (c, v, true)
  else if c.avail = 0 then some (c, v, false)
  else
    let s := pushRef true (c.heap.alloc ⟨true, size, size, data⟩) v ⟨0, size, c.heap.next⟩
    some ({ c with heap := s.1, avail := c.avail - 1 }, s.2, true)

/-! Zero-copy output streams. -/

/-- The bytes of a block between `lo` and `hi`. -/
structure Span where
  block : BlockId
  lo : Nat
  hi : Nat
  deriving DecidableEq

/-- `IOBufAsZeroCopyOutputStream`; the stream's user is given `lent` by the latest `Next`,
    less what was backed up. `latest` is its size, until the stream or its buffer is used again. -/
structure Stream where
  buf : Nat
  blockSize : Nat
  curBlock : Option BlockId
  byteCount : Int
  lent : Option Span
  latest : Option Nat

/-- `_release_block` -/
def releaseBlock (c : Ctx) (s : Stream) : Ctx × Stream :=
  match s.curBlock with
  | none => (c, s)
  | some b =>
    (if 0 < s.blockSize then c.setHeap (c.heap.dec b) else releaseTlsBlock c b, { s with curBlock := none })

/-- The block `Next` works on: the current one, unless there is none or it is full. -/
def nextBlock (c : Ctx) (s : Stream) : Option (Ctx × Stream × Option BlockId) :=
  match s.curBlock with
  | some b =>
    if isFull c.heap b then acquire (releaseBlock c s) else some (c, s, some b)
  | none => acquire (c, s)
where
  acquire (t : Ctx × Stream) : Option (Ctx × Stream × Option BlockId) :=
    if 0 < t.2.blockSize then
      let d := t.1.createBlock t.2.blockSize
      some (d.1, { t.2 with curBlock := d.2 }, d.2)
    else (acquireTlsBlock t.1).map (fun d => (d.1, { t.2 with curBlock := d.2 }, d.2))

/-- `Next`; the result is false if there is no block. -/
def next (c : Ctx) (v : IOBuf) (s : Stream) : Option (Ctx × IOBuf × Stream × Bool) :=
  (nextBlock c s).map fun t =>
    match t with
    | (c, s, none) => (c, v, { s with latest := none }, false)
    | (c, s, some b) =>
      let size := (c.heap.payload b).elim 0 Block.size
      let left := (c.heap.payload b).elim 0 Block.leftSpace
      let p := pushRef false (c.heap.modify b (fun k => k.resize k.cap)) v ⟨size, left, b⟩
      (c.setHeap p.1, p.2, { s with
        byteCount := s.byteCount + left
        lent := some ⟨b, size, size + left⟩
        latest := some left }, true)

def Stream.backedUp (s : Stream) (n : Nat) : Stream :=
  { s with
    byteCount := s.byteCount - n
    lent := s.lent.map (fun l => { l with hi := l.hi - n })
    latest := none }

def endOf (h : Heap) (b : BlockId) : Nat := (h.payload b).elim 0 Block.size

/-- The bytes of the last reference `r` given back to the current block `b`, and how many
    are still to be backed up, if the loop goes on. -/
def backUpRef (c : Ctx) (v : IOBuf) (s : Stream) (count : Nat) (r : BlockRef) (b : BlockId) :
    Ctx × IOBuf × Stream × Option Nat :=
  if count < r.length then
    let c := c.setHeap (c.heap.modify b (fun k => k.resize (k.size - count)))
    let s := s.backedUp count
    if s.blockSize = 0 then (releaseTlsBlock c b, v.shortenBack count, { s with curBlock := none }, none)
    else (c, v.shortenBack count, s, none)
  else
    let c := c.setHeap (c.heap.modify b (fun k => k.resize (k.size - r.length)))
    let p := popBackRef c.heap v
    let t := releaseBlock (c.setHeap p.1) (s.backedUp r.length)
    (t.1, p.2, t.2, if count - r.length = 0 then none else some (count - r.length))

/-- One round of `BackUp` for a buffer that is not empty. A stream without a current block takes
    the block of the last reference back; the checks that are fatal end the run. -/
def backUpOnce (c : Ctx) (v : IOBuf) (s : Stream) (count : Nat) : Option (Ctx × IOBuf × Stream × Option Nat) :=
  let r := v.backRef
  match s.curBlock with
  | some b =>
    if r.block ≠ b ∨ u32 (r.offset + r.length) ≠ endOf c.heap b then none
    else some (backUpRef c v s count r b)
  | none =>
    if u32 (r.offset + r.length) ≠ endOf c.heap r.block then
      if c.heap.count r.block = 1 then none
      else (popBack c.heap v count).map (fun p => (c.setHeap p.1, p.2.1, s.backedUp p.2.2, none))
    else some (backUpRef (c.setHeap (c.heap.inc r.block)) v { s with curBlock := some r.block } count r r.block)

/-- `BackUp` -/
def backUp : Nat → Ctx → IOBuf → Stream → Nat → Option (Ctx × IOBuf × Stream)
  | 0, _, _, _, _ => none
  | fuel + 1, c, v, s, count =>
    if v.isEmpty then (if count = 0 then some (c, v, s) else none)
    else
      match backUpOnce c v s count with
      | none => none
      | some (c, v, s, none) => some (c, v, s)
      | some (c, v, s, some count) => backUp fuel c v s count

end LightRpc.IOBuffer

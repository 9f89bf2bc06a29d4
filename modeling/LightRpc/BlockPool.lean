import LightRpc.Lib.Machine

/- The block pool (`fast_block_pool.cc`).

   The pool hands out blocks of three sizes, cut from registered regions. Every size has four
   buckets with a lock each; a bucket has an idle list, and an expansion list that collects
   the nodes of regions added since. A node stands for a range of blocks or for one block.
   Blocks of the smallest size are cached by every thread in `tls_idle_list`.

   A step is one critical section, or thread-local work up to the next one. The part of
   `AllocBlockFrom` under `extend_lock` is a step of its own: it runs inside the bucket's
   critical section, but other threads use other buckets meanwhile. `RecycleAll` takes a
   lock for every node, so each node is a step.

   A thread that exits runs its callbacks, `RecycleAll` among them if `tls_inited` was set;
   callbacks that run after it (`exiting`) may still deallocate.

   `idle_size` and `expansion_size` are written and never read; they are left out. -/
namespace LightRpc.BlockPool

open Lib

def RDMA_INITIAL_REGION_SIZE : Nat := 1024
def RDMA_MEMPOOL_BUCKETS : Nat := 4
def RDMA_MEMPOOL_MAX_REGIONS : Nat := 16
def RDMA_MEMPOOL_TLS_CACHE_NUM : Nat := 128
def BYTES_IN_MB : Nat := 1048576

abbrev BlockType := Fin 3

def BLOCK_DEFAULT : BlockType := 0

/-- `g_block_size` -/
def blockSize : BlockType → Nat := ![8192, 65536, 2 * BYTES_IN_MB]

/-- A block type and the index of one of its buckets. -/
abbrev Bucket := BlockType × Fin 4

structure IdleNode where
  start : Nat
  len : Nat
  deriving DecidableEq, Repr

structure Region where
  start : Nat
  size : Nat
  blockType : BlockType
  deriving DecidableEq

inductive Pc where
  | idle
  /-- In `AllocBlockFrom`, holding the bucket's lock, for a request of `len` bytes. -/
  | locked (b : Bucket) (len : Nat)
  /-- The same after the section under `extend_lock`. -/
  | extended (b : Bucket) (len : Nat)
  | recycling
  deriving DecidableEq

inductive Life where
  | running
  /-- In the callbacks of its `ThreadExitHelper`, with `RecycleAll` started or done if it is one. -/
  | exiting
  | terminated
  deriving DecidableEq

structure Thread where
  tlsIdleList : List IdleNode
  tlsIdleNum : Nat
  tlsInited : Bool
  pc : Pc
  life : Life

namespace Thread

def goto (th : Thread) (pc : Pc) : Thread := { th with pc := pc }

def cache (th : Thread) (list : List IdleNode) (num : Nat) : Thread := { th with tlsIdleList := list, tlsIdleNum := num }

def init (th : Thread) : Thread := { th with tlsInited := true }

def setLife (th : Thread) (life : Life) : Thread := { th with life := life }

end Thread

/-- A block in a caller's hands, and the length it was asked for. -/
structure Block where
  start : Nat
  len : Nat
  deriving DecidableEq

structure Pool where
  /-- `g_regions`, up to `g_region_num` -/
  regions : List Region
  idleList : Bucket → List IdleNode
  expansionList : Bucket → List IdleNode
  lock : Bucket → Bool
  threads : List Thread
  handedOut : List Block
  crashed : Bool

/-! Writes to one part of the pool. -/

namespace Pool

def setThread (s : Pool) (i : Nat) (th : Thread) : Pool := { s with threads := s.threads.set i th }

def setIdle (s : Pool) (b : Bucket) (l : List IdleNode) : Pool :=
  { s with idleList := Function.update s.idleList b l }

def setExpansion (s : Pool) (b : Bucket) (l : List IdleNode) : Pool :=
  { s with expansionList := Function.update s.expansionList b l }

def setLock (s : Pool) (b : Bucket) (held : Bool) : Pool := { s with lock := Function.update s.lock b held }

def lend (s : Pool) (block : Block) : Pool := { s with handedOut := block :: s.handedOut }

def giveBack (s : Pool) (block : Block) : Pool := { s with handedOut := s.handedOut.erase block }

def crash (s : Pool) : Pool := { s with crashed := true }

end Pool

def Region.holds (r : Region) (buf : Nat) : Bool := r.start ≤ buf ∧ buf < r.start + r.size

def Pool.getRegion (s : Pool) (buf : Nat) : Option Region := s.regions.find? (·.holds buf)

/-- The bucket a block of the region belongs to. The quotient is below 4. -/
def Region.index (r : Region) (buf : Nat) : Fin 4 :=
  Fin.ofNat 4 ((buf - r.start) * RDMA_MEMPOOL_BUCKETS / r.size)

/-- The first bucket of a block type. -/
def firstBucket : Fin 4 := 0

/-! `ExtendBlockPool` -/

def regionSize (t : BlockType) : Nat :=
  RDMA_INITIAL_REGION_SIZE * BYTES_IN_MB / blockSize t / RDMA_MEMPOOL_BUCKETS * (blockSize t * RDMA_MEMPOOL_BUCKETS)

/-- The memory of a new region overlaps none that is registered. -/
def fresh (regions : List Region) (t : BlockType) (base : Nat) : Bool :=
  regions.all fun r => r.start + r.size ≤ base ∨ base + regionSize t ≤ r.start

/-- The node of bucket `i` of a new region. -/
def expansionNode (t : BlockType) (base : Nat) (i : Fin 4) : IdleNode :=
  ⟨base + i * (regionSize t / RDMA_MEMPOOL_BUCKETS), regionSize t / RDMA_MEMPOOL_BUCKETS⟩

def Pool.extendBlockPool (s : Pool) (t : BlockType) (base : Nat) : Pool :=
  { s with
    regions := s.regions ++ [⟨base, regionSize t, t⟩]
    expansionList := fun b =>
      if b.1 = t then expansionNode t base b.2 :: s.expansionList b else s.expansionList b }

def Pool.moveExpansionList2EmptyIdleList (s : Pool) (b : Bucket) : Pool :=
  (s.setIdle b (s.expansionList b)).setExpansion b []

/-! `AllocBlockFrom` -/

/-- The loop that moves blocks to the thread: it stops at 64 blocks or at a range. -/
def moveSingles (num : Nat) : List IdleNode → Nat × List IdleNode × List IdleNode
  | [] => (num, [], [])
  | node :: rest =>
    if RDMA_MEMPOOL_TLS_CACHE_NUM / 2 ≤ num ∨ blockSize BLOCK_DEFAULT < node.len then (num, [], node :: rest)
    else
      let moved := moveSingles (num + 1) rest
      (moved.1, node :: moved.2.1, moved.2.2)

/-- The list with its first block taken off. -/
def takeBlock (t : BlockType) (node : IdleNode) (rest : List IdleNode) : List IdleNode :=
  if blockSize t < node.len then ⟨node.start + blockSize t, node.len - blockSize t⟩ :: rest else rest

/-- What the bucket and the thread have after the refill: `last_node->next = nullptr` cuts the
    list behind the last node moved, or behind its head when none was. -/
def refill (num : Nat) (list : List IdleNode) : List IdleNode × List IdleNode × Nat :=
  let moved := moveSingles num list
  let upToLast := if moved.2.1 = [] then list.take 1 else moved.2.1
  if moved.1 = 0 then (upToLast, [], 0)
  else (if moved.2.1 = [] then upToLast else moved.2.2, upToLast, moved.1)

/-- The block type `BlockAllocate` looks for. -/
def typeFor (len : Nat) : Option BlockType :=
  if len = 0 then none else (List.finRange 3).find? fun t => len ≤ blockSize t

section
variable (s : Pool) (i : Nat) (th : Thread)

/-- `BlockAllocate` up to the bucket's lock; `index` is what `std::rand` gives. -/
def Pool.alloc (len : Nat) (index : Fin 4) : Option Pool :=
  match typeFor len with
  | none => some s
  | some t =>
    match t, th.tlsIdleList with
    | 0, node :: rest =>
      some ((s.setThread i (th.cache rest (th.tlsIdleNum - 1))).lend ⟨node.start, len⟩)
    | t, _ =>
      if s.lock (t, index) then none
      else some ((s.setThread i (th.goto (.locked (t, index) len))).setLock (t, index) true)

/-- The section under `extend_lock`; `base` is the memory a new region gets. -/
def Pool.extend (b : Bucket) (len base : Nat) : Option Pool :=
  if s.idleList b ≠ [] then none
  else if s.expansionList b ≠ [] then
    some ((s.moveExpansionList2EmptyIdleList b).setThread i (th.goto (.extended b len)))
  else if RDMA_MEMPOOL_MAX_REGIONS ≤ s.regions.length then
    some ((s.setThread i (th.goto .idle)).setLock b false)
  else if fresh s.regions b.1 base then
    some (((s.extendBlockPool b.1 base).moveExpansionList2EmptyIdleList b).setThread i (th.goto (.extended b len)))
  else none

/-- The rest of `AllocBlockFrom`, to the release of the lock. -/
def Pool.take (b : Bucket) (len : Nat) : Pool :=
  match s.idleList b with
  | [] => s.crash
  | node :: rest =>
    let list := takeBlock b.1 node rest
    let s := (s.lend ⟨node.start, len⟩).setLock b false
    if b.1 = BLOCK_DEFAULT then
      let filled := refill th.tlsIdleNum list
      (s.setIdle b filled.1).setThread i ((th.cache filled.2.1 filled.2.2).goto .idle)
    else (s.setIdle b list).setThread i (th.goto .idle)

/-- `BlockDeallocate` of a block in the caller's hands. -/
def Pool.dealloc (block : Block) : Option Pool :=
  match s.getRegion block.start with
  | none => some s
  | some r =>
    let node : IdleNode := ⟨block.start, blockSize r.blockType⟩
    let b : Bucket := (r.blockType, r.index block.start)
    if r.blockType = BLOCK_DEFAULT ∧ th.tlsIdleNum < RDMA_MEMPOOL_TLS_CACHE_NUM then
      some ((s.giveBack block).setThread i (th.cache (node :: th.tlsIdleList) (th.tlsIdleNum + 1)).init)
    else if s.lock b then none
    else if r.blockType = BLOCK_DEFAULT then
      let cnt := RDMA_MEMPOOL_TLS_CACHE_NUM / 2
      if th.tlsIdleList.length < cnt then some s.crash
      else
        some (((s.giveBack block).setIdle b (th.tlsIdleList.take cnt ++ node :: s.idleList b)).setThread i
          (th.cache (th.tlsIdleList.drop cnt) (th.tlsIdleNum - cnt)))
    else some ((s.giveBack block).setIdle b (node :: s.idleList b))

/-- One node of `RecycleAll`, or its end. -/
def Pool.recycle : Option Pool :=
  match th.tlsIdleList with
  | [] => some (s.setThread i ((th.cache [] 0).goto .idle))
  | node :: rest =>
    match s.getRegion node.start with
    | none => some (s.setThread i (th.cache rest th.tlsIdleNum))
    | some r =>
      let b : Bucket := (BLOCK_DEFAULT, r.index node.start)
      if s.lock b then none
      else some ((s.setIdle b (node :: s.idleList b)).setThread i (th.cache rest th.tlsIdleNum))

end

inductive Act where
  | spawn
  | alloc (i len : Nat) (index : Fin 4)
  | extend (i base : Nat)
  | take (i : Nat)
  | dealloc (i : Nat) (block : Block)
  | exit (i : Nat)
  | recycle (i : Nat)
  | terminate (i : Nat)
  deriving DecidableEq

/-- It would register `RecycleAll` in the vector of callbacks that the thread is running. -/
def Pool.registersLate (s : Pool) (th : Thread) (block : Block) : Bool :=
  th.life = .exiting ∧ !th.tlsInited ∧ th.tlsIdleNum < RDMA_MEMPOOL_TLS_CACHE_NUM ∧
    (s.getRegion block.start).any (·.blockType = BLOCK_DEFAULT)

/-- One step of thread `i`. The run ends with a step that is undefined (`registersLate`). -/
def Pool.step (s : Pool) (th : Thread) : Act → Option Pool
  | .spawn => none
  | .alloc i len index => if th.pc = .idle ∧ th.life ≠ .terminated then s.alloc i th len index else none
  | .extend i base =>
    match th.pc with
    | .locked b len => s.extend i th b len base
    | _ => none
  | .take i =>
    match th.pc with
    | .locked b len => if s.idleList b = [] then none else some (s.take i th b len)
    | .extended b len => some (s.take i th b len)
    | _ => none
  | .dealloc i block =>
    if th.pc = .idle ∧ th.life ≠ .terminated ∧ block ∈ s.handedOut ∧ !s.registersLate th block then
      s.dealloc i th block
    else none
  | .exit i =>
    if th.pc = .idle ∧ th.life = .running then
      some (s.setThread i ((th.setLife .exiting).goto (if th.tlsInited then .recycling else .idle)))
    else none
  | .recycle i => if th.pc = .recycling then s.recycle i th else none
  | .terminate i =>
    if th.pc = .idle ∧ th.life = .exiting then some (s.setThread i (th.setLife .terminated)) else none

def Act.thread : Act → Nat
  | .spawn => 0
  | .alloc i _ _ | .extend i _ | .take i | .dealloc i _ | .exit i | .recycle i | .terminate i => i

def Pool.next (s : Pool) (a : Act) : Option Pool :=
  match a with
  | .spawn => some { s with threads := s.threads ++ [⟨[], 0, false, .idle, .running⟩] }
  | a => (s.threads[a.thread]?).bind fun th => s.step th a

/-- `InitBlockPool` -/
def initBlockPool (base : Nat) : Pool :=
  Pool.extendBlockPool ⟨[], fun _ => [], fun _ => [], fun _ => false, [], [], false⟩ BLOCK_DEFAULT base

def poolMachine : Machine Pool Act where
  init := fun s => ∃ base, s = initBlockPool base
  next := Pool.next

/-! Where a block is. -/

/-- The block of type `t` at `u` lies in the node's range. -/
def IdleNode.covers (t : BlockType) (u : Nat) (n : IdleNode) : Bool :=
  n.start ≤ u ∧ u + blockSize t ≤ n.start + n.len

def covering (t : BlockType) (u : Nat) (l : List IdleNode) : Nat := l.countP (·.covers t u)

def Thread.caches (u : Nat) (th : Thread) : Nat :=
  if th.life = .terminated then 0 else covering BLOCK_DEFAULT u th.tlsIdleList

/-- The number of places the block at `u` is in: callers' hands, lists of live threads, nodes
    of idle lists and nodes of expansion lists. -/
def Pool.holders (s : Pool) (u : Nat) : Nat :=
  s.handedOut.countP (fun b => b.start = u) + (s.threads.map (·.caches u)).sum +
    ∑ b, covering b.1 u (s.idleList b) + ∑ b, covering b.1 u (s.expansionList b)

/-- The address of a block of a registered region. -/
def IsBlock (regions : List Region) (u : Nat) : Prop :=
  ∃ r ∈ regions, ∃ k, u = r.start + k * blockSize r.blockType ∧ (k + 1) * blockSize r.blockType ≤ r.size

/-- Every block of every region is in exactly one place. -/
def Pool.Conserved (s : Pool) : Prop := ∀ u, IsBlock s.regions u → s.holders u = 1

end LightRpc.BlockPool

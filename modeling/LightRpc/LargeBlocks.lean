import LightRpc.Lib.Machine
import LightRpc.Lib.Linked

/- The cache of large blocks of a thread (`fast_large_block.cc`).

   A thread keeps up to eight registered regions that were returned to it, in a linked list
   sorted by size. `LargeBlockAlloc` unlinks the first that is large enough, or allocates and
   registers a region; `ReturnLargeBlock` links the region in behind those of its size and,
   beyond the limit, takes the last one off, deregisters and frees it.

   The list is the one of the source: nodes on a heap with a link each (`Lib.Linked`). A loop
   has the number of nodes ever allocated as fuel; a null or dangling pointer that is followed
   gives `none`. A region is known by its number in the order of registration, which stands for
   the pointer to its `ibv_mr`.

   The environment decides whether `posix_memalign` (`mem`) and `ibv_reg_mr` (`reg`) succeed. A
   failing `ibv_dereg_mr` is a failed CHECK, which ends the process, so there is nothing to
   say about what follows it. -/
namespace LightRpc.LargeBlocks

open Lib Lib.Linked

/-- What the code reads of an `ibv_mr`. -/
structure Mr where
  addr : Nat
  length : Nat
  deriving DecidableEq

/-- `LargeBlockNode` without its link. -/
structure LargeBlock where
  buf : Nat
  size : Nat
  mr : Nat
  deriving DecidableEq

/-- The thread's variables, the regions ever registered, and where those are that the cache
    does not hold. -/
structure Cache where
  nodes : Store LargeBlock
  tlsLargeBlockList : Option Nat
  tlsLargeBlockNum : Nat
  tlsLargeInited : Bool
  mrs : List Mr
  live : List Nat
  released : List Nat

def kMaxCachedLargeBlocks : Nat := 8

/-- `RecycleTLSLargeBlocks` up to the reset of the count -/
def recycleLoop : Nat → Cache → Option Cache
  | 0, s => if s.tlsLargeBlockList.isNone then some s else none
  | fuel + 1, s =>
    match s.tlsLargeBlockList with
    | none => some s
    | some a => do
      let node ← s.nodes.cells a
      recycleLoop fuel { s with
        tlsLargeBlockList := node.next
        released := s.released ++ [node.payload.mr]
        nodes := s.nodes.free a }

/-- `RecycleTLSLargeBlocks` -/
def recycleTLSLargeBlocks (s : Cache) : Option Cache := do
  let s ← recycleLoop s.nodes.fresh s
  some { s with tlsLargeBlockNum := 0 }

/-- `prev` and `cur` after the search of `LargeBlockAlloc` -/
def searchLoop (nodes : Store LargeBlock) (size : Nat) : Nat → Option Nat → Option Nat → Option (Option Nat × Option Nat)
  | _, prev, none => some (prev, none)
  | 0, _, some _ => none
  | fuel + 1, prev, some a => do
    let cur ← nodes.cells a
    if cur.payload.size < size then searchLoop nodes size fuel (some a) cur.next else some (prev, some a)

/-- `cur` after the loop of `ReturnLargeBlock` that looks for the place of a region -/
def placeLoop (nodes : Store LargeBlock) (size : Nat) : Nat → Nat → Option Nat
  | 0, _ => none
  | fuel + 1, a => do
    let cur ← nodes.cells a
    match cur.next with
    | none => some a
    | some b => do
      let next ← nodes.cells b
      if next.payload.size ≤ size then placeLoop nodes size fuel b else some a

/-- `last` after the loop of `ReturnLargeBlock` that looks for the end -/
def lastLoop (nodes : Store LargeBlock) : Nat → Nat → Option Nat
  | 0, _ => none
  | fuel + 1, a => do
    let last ← nodes.cells a
    match last.next with
    | none => some a
    | some b => do
      let next ← nodes.cells b
      if next.next.isSome then lastLoop nodes fuel b else some a

/-- The callback for the exit of the thread is registered once. -/
def Cache.init (s : Cache) : Cache := { s with tlsLargeInited := true }

/-- `LargeBlockAlloc`, with the region it returns; `mem` is the memory of `posix_memalign`. -/
def largeBlockAlloc (s : Cache) (size : Nat) (mem : Option Nat) (reg : Bool) : Option (Cache × Option Nat) := do
  let s := s.init
  let found ← searchLoop s.nodes size s.nodes.fresh none s.tlsLargeBlockList
  match found with
  | (prev, some a) => do
    let cur ← s.nodes.cells a
    let (nodes, list) ← s.nodes.relink s.tlsLargeBlockList prev cur.next
    some ({ s with
      nodes := nodes.free a
      tlsLargeBlockList := list
      tlsLargeBlockNum := s.tlsLargeBlockNum - 1
      live := cur.payload.mr :: s.live }, some cur.payload.mr)
  | (_, none) =>
    match mem, reg with
    | some buf, true =>
      some ({ s with mrs := s.mrs ++ [⟨buf, size⟩], live := s.mrs.length :: s.live }, some s.mrs.length)
    | _, _ => some (s, none)

/-- The node `a` of a returned region is linked into the list. -/
def linkIn (s : Cache) (a size : Nat) : Option Cache := do
  match s.tlsLargeBlockList with
  | none => do
    let nodes ← s.nodes.setNext a none
    some { s with nodes := nodes, tlsLargeBlockList := some a }
  | some h => do
    let head ← s.nodes.cells h
    if size < head.payload.size then do
      let nodes ← s.nodes.setNext a (some h)
      some { s with nodes := nodes, tlsLargeBlockList := some a }
    else do
      let c ← placeLoop s.nodes size s.nodes.fresh h
      let cur ← s.nodes.cells c
      let nodes ← s.nodes.setNext a cur.next
      let nodes ← nodes.setNext c (some a)
      some { s with nodes := nodes }

/-- The last node is taken off, its region deregistered and freed. -/
def evict (s : Cache) : Option Cache := do
  let h ← s.tlsLargeBlockList
  let l ← lastLoop s.nodes s.nodes.fresh h
  let last ← s.nodes.cells l
  let f ← last.next
  let nodes ← s.nodes.setNext l none
  let toFree ← nodes.cells f
  some { s with
    nodes := nodes.free f
    released := s.released ++ [toFree.payload.mr]
    tlsLargeBlockNum := s.tlsLargeBlockNum - 1 }

/-- `ReturnLargeBlock` of the region `mr`; the caller has it no longer. -/
def returnLargeBlock (s : Cache) (mr : Option Nat) : Option Cache := do
  match mr with
  | none => some s
  | some mr => do
    let s := s.init
    let m ← s.mrs[mr]?
    let a := s.nodes.fresh
    let s ← linkIn { s with
      nodes := s.nodes.alloc ⟨m.addr, m.length, mr⟩
      live := s.live.erase mr } a m.length
    let s := { s with tlsLargeBlockNum := s.tlsLargeBlockNum + 1 }
    if kMaxCachedLargeBlocks < s.tlsLargeBlockNum then evict s else some s

/-- The exit of the thread runs the callback, if it was registered. -/
def threadExit (s : Cache) : Option Cache := if s.tlsLargeInited then recycleTLSLargeBlocks s else some s

inductive Act where
  | alloc (size : Nat) (mem : Option Nat) (reg : Bool)
  | giveBack (mr : Option Nat)
  | exit

/-- Callers return regions they have. -/
def Cache.next (s : Cache) : Act → Option Cache
  | .alloc size mem reg => (largeBlockAlloc s size mem reg).map Prod.fst
  | .giveBack mr => if mr.all (s.live.contains ·) then returnLargeBlock s mr else none
  | .exit => threadExit s

end LightRpc.LargeBlocks

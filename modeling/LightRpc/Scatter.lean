import LightRpc.ByteOrder
import LightRpc.IOBufOps

/- Scatter lists, and the one RDMA write of a large frame (`CutSegFromIOBuf` of
   `fast_rdma_endpoint.cc`).

   An entry of a scatter list names a piece of registered memory; here it is a piece of a
   block, as a reference is, with the key of its region. `GetRegionId` finds the key of the
   region that an address lies in, and returns 0 for memory that is not registered.

   A large frame is written with a single work request. The loop that fills its scatter list
   stops at the last reference of the frame or after MAX_SGE entries, whichever comes first,
   and the request is posted either way. -/
namespace LightRpc.IOBuffer

def MAX_SGE : Nat := 32

/-- `ibv_sge` -/
structure Sge where
  block : BlockId
  offset : Nat
  length : Nat
  lkey : Nat
  deriving DecidableEq

namespace Sge

/-- The entry for the first `n` bytes of a reference. -/
def ofRef (r : BlockRef) (n lkey : Nat) : Sge := ⟨r.block, r.offset, n, lkey⟩

/-- The memory an entry names. -/
def ref (e : Sge) : BlockRef := ⟨e.offset, e.length, e.block⟩

end Sge

/-- The bytes the device collects from a scatter list. -/
def gather (h : Heap) (sgList : List Sge) : List UInt8 := bytes h (sgList.map Sge.ref)

/-- `GetRegionId` of the address at an offset in a block. -/
abbrev Regions := BlockId → Nat → Nat

/-- An `IBV_WR_RDMA_WRITE_WITH_IMM` request. -/
structure WriteWr where
  sgList : List Sge
  immData : Nat
  wrId : Nat
  remoteAddr : Nat
  rkey : Nat
  solicited : Bool
  signaled : Bool
  deriving DecidableEq

/-- The loop over the references of the frame: the scatter list and the total, or nothing if
    a piece is not from the block pool. -/
def cutSegLoop (region : Regions) : List BlockRef → List Sge → Nat → Option (List Sge × Nat)
  | [], sglist, total => some (sglist, total)
  | r :: rs, sglist, total =>
    if sglist.length < MAX_SGE then
      let lkey := region r.block r.offset
      if lkey = 0 then none else cutSegLoop region rs (sglist ++ [.ofRef r r.length lkey]) (total + r.length)
    else some (sglist, total)

/-- What `CutSegFromIOBuf` returns, the request it hands to `ibv_post_send`, and the value it
    gives to `errno`. -/
structure CutSeg where
  ret : Int
  posted : Option WriteWr
  errno : Option Int
  deriving DecidableEq

/-- `CutSegFromIOBuf`; `failed` is the error of an endpoint that has failed, and `post` the
    result of `ibv_post_send`. -/
def cutSegFromIOBuf (region : Regions) (failed : Option Int) (post : Int) (buf : IOBuf)
    (remoteRkey remoteAddr immRkey rpcId : Nat) : CutSeg :=
  match failed with
  | some error => ⟨-1, none, some error⟩
  | none =>
    match cutSegLoop region ((List.range buf.refNum).map buf.refAt) [] 0 with
    | none => ⟨-1, none, none⟩
    | some (sglist, total) =>
      ⟨if post = 0 then total else -1, some ⟨sglist, htonl immRkey, rpcId, remoteAddr, remoteRkey, true, true⟩, none⟩

/-! What the scatter list covers. -/

/-- The scatter list is made of the references in order, as far as they fit. -/
theorem cutSegLoop_spec {region : Regions} : ∀ {rs : List BlockRef} {sglist sglist' : List Sge} {n n' : Nat},
    cutSegLoop region rs sglist n = some (sglist', n') →
    sglist'.map Sge.ref = sglist.map Sge.ref ++ rs.take (MAX_SGE - sglist.length) ∧
      n' = n + total (rs.take (MAX_SGE - sglist.length))
  | [], sglist, sglist', n, n', heq => by
    cases heq
    rw [List.take_nil, List.append_nil, total_nil]
    exact ⟨rfl, rfl⟩
  | r :: rs, sglist, sglist', n, n', heq => by
    rw [cutSegLoop] at heq
    by_cases hlt : sglist.length < MAX_SGE
    · rw [if_pos hlt] at heq
      dsimp only at heq
      split at heq
      · exact absurd heq.symm (Option.some_ne_none _)
      · obtain ⟨hlist, htotal⟩ := cutSegLoop_spec heq
        obtain ⟨k, hk⟩ : ∃ k, MAX_SGE - sglist.length = k + 1 := ⟨MAX_SGE - sglist.length - 1, by omega⟩
        have hleft : MAX_SGE - (sglist ++ [Sge.ofRef r r.length (region r.block r.offset)]).length = k := by
          rw [List.length_append, List.length_singleton]
          omega
        rw [hleft] at hlist htotal
        rw [hk, List.take_succ_cons, hlist, htotal, total_cons, Nat.add_assoc, List.map_append, List.append_assoc]
        exact ⟨rfl, rfl⟩
    · rw [if_neg hlt] at heq
      cases heq
      rw [Nat.sub_eq_zero_of_le (Nat.not_lt.mp hlt), List.take_zero, List.append_nil]
      exact ⟨rfl, rfl⟩

/-- No reference is empty, so those that are left out are missed. -/
theorem total_take_lt {rs : List BlockRef} {k : Nat} (hrs : ∀ r ∈ rs, r.Ok) (hlt : k < rs.length) :
    total (rs.take k) < total rs := by
  have hsplit : total rs = total (rs.take k) + total (rs.drop k) := by
    conv_lhs => rw [← List.take_append_drop k rs, total_append]
  have hrest : (rs.drop k).length ≤ total (rs.drop k) := length_le_total fun r hr => hrs r (List.mem_of_mem_drop hr)
  rw [List.length_drop] at hrest
  omega

/-- A posted write covers its frame exactly when the frame has at most MAX_SGE references. -/
theorem cutSegFromIOBuf_covers_iff {h : Heap} {region : Regions} {failed : Option Int} {post : Int} {buf : IOBuf}
    {remoteRkey remoteAddr immRkey rpcId : Nat} (hv : buf.Ok)
    (hret : 0 ≤ (cutSegFromIOBuf region failed post buf remoteRkey remoteAddr immRkey rpcId).ret) :
    ∃ wr, (cutSegFromIOBuf region failed post buf remoteRkey remoteAddr immRkey rpcId).posted = some wr ∧
      ((gather h wr.sgList = bytes h buf.refs ∧
          (cutSegFromIOBuf region failed post buf remoteRkey remoteAddr immRkey rpcId).ret = buf.length) ↔
        buf.refNum ≤ MAX_SGE) := by
  cases failed with
  | some error => exact absurd hret (by decide : ¬ (0 : Int) ≤ -1)
  | none =>
    rw [cutSegFromIOBuf, hv.map_refAt] at hret ⊢
    cases hloop : cutSegLoop region buf.refs [] 0 with
    | none =>
      rw [hloop] at hret
      exact absurd hret (by decide : ¬ (0 : Int) ≤ -1)
    | some out =>
      obtain ⟨sglist, n⟩ := out
      obtain ⟨hlist, htotal⟩ := cutSegLoop_spec hloop
      rw [List.map_nil, List.nil_append, List.length_nil, Nat.sub_zero] at hlist
      rw [List.length_nil, Nat.sub_zero, Nat.zero_add] at htotal
      rw [hloop] at hret
      dsimp only at hret ⊢
      have hpost : post = 0 := by
        by_contra hne
        rw [if_neg hne] at hret
        exact absurd hret (by decide)
      refine ⟨_, rfl, ?_⟩
      rw [if_pos hpost, gather, hlist, hv.length, hv.refNum, htotal]
      constructor
      · rintro ⟨-, hlen⟩
        by_contra hgt
        have hlt := total_take_lt hv.refs (Nat.not_le.mp hgt)
        omega
      · intro hle
        rw [List.take_of_length_le hle]
        exact ⟨rfl, rfl⟩

/-! Frames filled by a zero-copy output stream. -/

/-- `n` calls of `Next`, each of which fills a block. -/
def nexts : Nat → Ctx → IOBuf → Stream → Option (Ctx × IOBuf)
  | 0, c, v, _ => some (c, v)
  | n + 1, c, v, s => (next c v s).bind fun t => nexts n t.1 t.2.1 t.2.2.1

/-- The frame of a thread that has not used a block yet. -/
def freshFrame (n : Nat) : Option (Ctx × IOBuf) := nexts n ⟨.empty, .new, n⟩ .new ⟨0, 0, none, 0, none, none⟩

/-- Every block is registered under key 5. -/
def allRegistered : Regions := fun _ _ => 5

/-- A frame in two blocks. -/
def twoBlocks : IOBuf := .small (some ⟨0, 8160, 0⟩) (some ⟨0, 100, 1⟩)

def twoBlocksHeap : Heap := (Lib.RefCount.Store.empty.alloc ⟨false, 8160, 8160, fun _ => 1⟩).alloc ⟨false, 100, 8160, fun _ => 2⟩

theorem twoBlocks_ok : twoBlocks.Ok := by
  refine ⟨nofun, fun r hr => ?_, by decide⟩
  rcases List.mem_cons.mp hr with rfl | hr
  · exact ⟨by decide, by decide⟩
  · rw [List.mem_singleton.mp hr]
    exact ⟨by decide, by decide⟩

theorem twoBlocks_covered : ∃ wr, (cutSegFromIOBuf allRegistered none 0 twoBlocks 1 4096 7 9).posted = some wr ∧
    gather twoBlocksHeap wr.sgList = bytes twoBlocksHeap twoBlocks.refs ∧
    (cutSegFromIOBuf allRegistered none 0 twoBlocks 1 4096 7 9).ret = twoBlocks.length := by
  have hcovers : ∃ wr, (cutSegFromIOBuf allRegistered none 0 twoBlocks 1 4096 7 9).posted = some wr ∧
      ((gather twoBlocksHeap wr.sgList = bytes twoBlocksHeap twoBlocks.refs ∧
        (cutSegFromIOBuf allRegistered none 0 twoBlocks 1 4096 7 9).ret = twoBlocks.length) ↔
          twoBlocks.refNum ≤ MAX_SGE) :=
    cutSegFromIOBuf_covers_iff twoBlocks_ok (by decide)
  obtain ⟨wr, hwr, hiff⟩ := hcovers
  exact ⟨wr, hwr, hiff.mpr (by decide)⟩

/-- A frame of 33 blocks: the write carries the first 32 of them, and its return value says
    that it succeeded. -/
theorem largeFrame_cut_off : ∃ c buf wr, freshFrame 33 = some (c, buf) ∧ buf.length = 33 * 8160 ∧
    (cutSegFromIOBuf allRegistered none 0 buf 1 4096 7 9).ret = 32 * 8160 ∧
    (cutSegFromIOBuf allRegistered none 0 buf 1 4096 7 9).posted = some wr ∧
    total (wr.sgList.map Sge.ref) = 32 * 8160 := by
  have hrun : (freshFrame 33).any (fun t =>
      let out := cutSegFromIOBuf allRegistered none 0 t.2 1 4096 7 9
      decide (t.2.length = 33 * 8160 ∧ out.ret = 32 * 8160) &&
        out.posted.any (fun wr => decide (total (wr.sgList.map Sge.ref) = 32 * 8160))) = true := by
    decide
  obtain ⟨⟨c, buf⟩, hframe, hout⟩ := (Option.any_eq_true _ _).mp hrun
  obtain ⟨hlen, hposted⟩ := Bool.and_eq_true_iff.mp hout
  obtain ⟨wr, hwr, htotal⟩ := (Option.any_eq_true _ _).mp hposted
  obtain ⟨hlen, hret⟩ := of_decide_eq_true hlen
  exact ⟨c, buf, wr, hframe, hlen, hret, hwr, of_decide_eq_true htotal⟩

end LightRpc.IOBuffer

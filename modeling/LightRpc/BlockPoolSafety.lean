import LightRpc.BlockPool
import LightRpc.Lib.Ledger

/- Blocks are neither handed out twice nor, under a condition, lost.

   `PoolInv` holds of every reachable pool: a node lies in a region of its list's block type,
   at a multiple of the block size, and a thread caches single blocks only. `holders_step`
   is the account of one step: no block is in more places than before, and the blocks in
   fewer places are those the step loses. -/
namespace LightRpc.BlockPool

open Lib List

variable {regions : List Region} {t : BlockType} {b : Bucket} {n : IdleNode} {u len base : Nat} {s' : Pool}
  {l : List IdleNode} {r : Region}

theorem blockSize_pos (t : BlockType) : 0 < blockSize t := by
  fin_cases t <;> decide

/-- A region is four parts of whole blocks. -/
theorem regionSize_parts (t : BlockType) : ∃ m, 0 < m ∧ regionSize t / RDMA_MEMPOOL_BUCKETS = m * blockSize t ∧
    regionSize t = 4 * (m * blockSize t) := by
  fin_cases t
  · exact ⟨32768, by decide, by decide, by decide⟩
  · exact ⟨4096, by decide, by decide, by decide⟩
  · exact ⟨128, by decide, by decide, by decide⟩

/-! Regions and what lies in them. -/

def Apart (a b : Region) : Prop := a.start + a.size ≤ b.start ∨ b.start + b.size ≤ a.start

instance : Std.Symm Apart := ⟨fun _ _ h => h.symm⟩

/-- The node is made of blocks of a region of type `t`. -/
def Lies (regions : List Region) (t : BlockType) (n : IdleNode) : Prop :=
  ∃ r ∈ regions, r.blockType = t ∧ ∃ k m, 0 < m ∧ n.start = r.start + k * blockSize t ∧ n.len = m * blockSize t ∧
    (k + m) * blockSize t ≤ r.size

/-- The block handed out is one of a region with blocks that large. -/
def Lent (regions : List Region) (b : Block) : Prop :=
  ∃ r ∈ regions, b.len ≤ blockSize r.blockType ∧
    ∃ k, b.start = r.start + k * blockSize r.blockType ∧ (k + 1) * blockSize r.blockType ≤ r.size

section
variable {more : List Region}

theorem Lies.mono (h : Lies regions t n) (hsub : regions ⊆ more) : Lies more t n := by
  obtain ⟨r, hr, hrest⟩ := h
  exact ⟨r, hsub hr, hrest⟩

theorem Lent.mono {b : Block} (h : Lent regions b) (hsub : regions ⊆ more) : Lent more b := by
  obtain ⟨r, hr, hrest⟩ := h
  exact ⟨r, hsub hr, hrest⟩

/-- A byte is in one region at most. -/
theorem region_unique (h : regions.Pairwise Apart) {a b : Region} (ha : a ∈ regions) (hb : b ∈ regions) {x : Nat}
    (hax : a.start ≤ x ∧ x < a.start + a.size) (hbx : b.start ≤ x ∧ x < b.start + b.size) : a = b := by
  by_contra hne
  have hapart : Apart a b := h.forall ha hb hne
  unfold Apart at hapart
  omega

/-- A block in the range of a node is one of the node's blocks. -/
theorem Lies.aligned (h : regions.Pairwise Apart) (hn : Lies regions t n) (hu : IsBlock regions u)
    (hrange : n.start ≤ u ∧ u < n.start + n.len) : ∃ j, u = n.start + j * blockSize t := by
  obtain ⟨r, hr, rfl, k, m, _, hstart, hlen, hsize⟩ := hn
  obtain ⟨r', hr', j, hj, hjsize⟩ := hu
  have hpos' := blockSize_pos r'.blockType
  rw [Nat.add_mul] at hsize hjsize
  have hsame : r' = r := by
    apply region_unique h hr' hr (x := u)
    · omega
    · omega
  subst hsame
  have hkj : k ≤ j := by
    have : k * blockSize r'.blockType ≤ j * blockSize r'.blockType := by omega
    exact Nat.le_of_mul_le_mul_right this hpos'
  refine ⟨j - k, ?_⟩
  rw [Nat.sub_mul]
  have := Nat.mul_le_mul_right (blockSize r'.blockType) hkj
  omega

/-- A single block. -/
theorem covers_single (hlen : n.len = blockSize t) : n.covers t u = decide (n.start = u) := by
  rw [IdleNode.covers, hlen]
  congr 1
  apply propext
  omega

/-- A range is its first block and the rest. -/
theorem covers_split (h : regions.Pairwise Apart) (hn : Lies regions t n) (hu : IsBlock regions u)
    (hlong : blockSize t < n.len) : (n.covers t u).toNat = (decide (n.start = u)).toNat +
      (IdleNode.covers t u ⟨n.start + blockSize t, n.len - blockSize t⟩).toNat := by
  have hpos := blockSize_pos t
  by_cases hrange : n.start ≤ u ∧ u < n.start + n.len
  · obtain ⟨j, rfl⟩ := hn.aligned h hu hrange
    cases j with
    | zero =>
      rw [Nat.zero_mul, Nat.add_zero] at hrange ⊢
      have hin : n.start ≤ n.start ∧ n.start + blockSize t ≤ n.start + n.len := by omega
      have hout : ¬(n.start + blockSize t ≤ n.start ∧
          n.start + blockSize t ≤ n.start + blockSize t + (n.len - blockSize t)) := by omega
      rw [IdleNode.covers, IdleNode.covers, decide_eq_true hin, decide_eq_true rfl, decide_eq_false hout]
      rfl
    | succ j =>
      have hne : ¬n.start = n.start + (j + 1) * blockSize t := by
        rw [Nat.add_mul]
        omega
      have hmul : (j + 1) * blockSize t = j * blockSize t + blockSize t := by rw [Nat.add_mul, Nat.one_mul]
      rw [decide_eq_false hne, IdleNode.covers, IdleNode.covers]
      simp only [Bool.toNat_false, Nat.zero_add]
      congr 2
      apply propext
      omega
  · have hne : ¬n.start = u := by omega
    have hout : ¬(n.start ≤ u ∧ u + blockSize t ≤ n.start + n.len) := by omega
    have hout' : ¬(n.start + blockSize t ≤ u ∧ u + blockSize t ≤ n.start + blockSize t + (n.len - blockSize t)) := by
      omega
    rw [decide_eq_false hne, IdleNode.covers, IdleNode.covers, decide_eq_false hout, decide_eq_false hout']
    rfl

end

/-! Lists of nodes. -/

theorem covering_cons (t : BlockType) (u : Nat) (n : IdleNode) (l : List IdleNode) :
    covering t u (n :: l) = (n.covers t u).toNat + covering t u l := by
  rw [covering, countP_cons, Nat.add_comm]
  cases n.covers t u <;> rfl

theorem covering_nil (t : BlockType) (u : Nat) : covering t u [] = 0 := rfl

theorem covering_append (t : BlockType) (u : Nat) (l l' : List IdleNode) :
    covering t u (l ++ l') = covering t u l + covering t u l' := countP_append

theorem covering_takeBlock (h : regions.Pairwise Apart) (hn : Lies regions t n) (hu : IsBlock regions u)
    (rest : List IdleNode) :
    covering t u (n :: rest) = (decide (n.start = u)).toNat + covering t u (takeBlock t n rest) := by
  rw [covering_cons, takeBlock]
  split
  next hlong => rw [covering_cons, covers_split h hn hu hlong, Nat.add_assoc]
  next hshort =>
    obtain ⟨_, _, _, _, m, hm, _, hlen, _⟩ := hn
    have hle : blockSize t ≤ m * blockSize t := Nat.le_mul_of_pos_left _ hm
    have hsingle : n.len = blockSize t := by omega
    rw [covers_single hsingle]

/-! The refill. -/

theorem moveSingles_spec (num : Nat) (list : List IdleNode) :
    list = (moveSingles num list).2.1 ++ (moveSingles num list).2.2 ∧
    (moveSingles num list).1 = num + (moveSingles num list).2.1.length ∧
    ∀ n ∈ (moveSingles num list).2.1, n.len ≤ blockSize BLOCK_DEFAULT := by
  induction list generalizing num with
  | nil => exact ⟨rfl, rfl, forall_mem_nil _⟩
  | cons n rest ih =>
    rw [moveSingles]
    split
    next => exact ⟨rfl, rfl, forall_mem_nil _⟩
    next hgo =>
      obtain ⟨happend, hnum, hlen⟩ := ih (num + 1)
      refine ⟨congrArg (n :: ·) happend, ?_, ?_⟩
      · show (moveSingles (num + 1) rest).1 = num + ((moveSingles (num + 1) rest).2.1.length + 1)
        omega
      · exact forall_mem_cons.mpr ⟨by omega, hlen⟩

/-- What `last_node->next = nullptr` cuts off: with no block moved, everything behind the head. -/
def cutOff : List IdleNode → List IdleNode
  | [] => []
  | node :: rest => if blockSize BLOCK_DEFAULT < node.len then rest else []

/-- The refill moves nodes of the bucket to the thread and cuts some off. -/
theorem refill_spec (list : List IdleNode) : list.Perm ((refill 0 list).1 ++ (refill 0 list).2.1 ++ cutOff list) ∧
    (refill 0 list).2.2 = (refill 0 list).2.1.length ∧ ∀ n ∈ (refill 0 list).2.1, n.len ≤ blockSize BLOCK_DEFAULT := by
  obtain ⟨happend, hnum, hlen⟩ := moveSingles_spec 0 list
  rw [Nat.zero_add] at hnum
  cases list with
  | nil => exact ⟨.refl _, rfl, forall_mem_nil _⟩
  | cons n rest =>
    by_cases hrange : blockSize BLOCK_DEFAULT < n.len
    · have hnone : moveSingles 0 (n :: rest) = (0, [], n :: rest) := by rw [moveSingles, if_pos (.inr hrange)]
      have hfill : refill 0 (n :: rest) = ([n], [], 0) := by rw [refill, hnone]; rfl
      rw [hfill, cutOff, if_pos hrange]
      exact ⟨.refl _, rfl, forall_mem_nil _⟩
    · have hsome : (moveSingles 0 (n :: rest)).2.1 ≠ [] := by
        rw [moveSingles, if_neg (by simp [RDMA_MEMPOOL_TLS_CACHE_NUM]; omega)]
        exact cons_ne_nil _ _
      have hpos : (moveSingles 0 (n :: rest)).1 ≠ 0 := by
        rw [hnum]
        exact length_eq_zero_iff.not.mpr hsome
      have hfill : refill 0 (n :: rest) = ((moveSingles 0 (n :: rest)).2.2, (moveSingles 0 (n :: rest)).2.1,
          (moveSingles 0 (n :: rest)).1) := by
        rw [refill, if_neg hpos, if_neg hsome, if_neg hsome]
      rw [hfill, cutOff, if_neg hrange, append_nil]
      refine ⟨?_, hnum, hlen⟩
      exact (List.Perm.of_eq happend).trans perm_append_comm

/-! What holds of every reachable pool. -/

structure ThreadOk (regions : List Region) (th : Thread) : Prop where
  single : ∀ n ∈ th.tlsIdleList, Lies regions BLOCK_DEFAULT n ∧ n.len = blockSize BLOCK_DEFAULT
  counted : th.pc ≠ .recycling → th.tlsIdleNum = th.tlsIdleList.length
  request : ∀ b len, th.pc = .locked b len ∨ th.pc = .extended b len →
    len ≤ blockSize b.1 ∧ (b.1 = BLOCK_DEFAULT → th.tlsIdleList = [])
  gone : th.life = .terminated → th.pc = .idle

structure PoolInv (s : Pool) : Prop where
  apart : s.regions.Pairwise Apart
  sized : ∀ r ∈ s.regions, r.size = regionSize r.blockType
  idle : ∀ b, ∀ n ∈ s.idleList b, Lies s.regions b.1 n
  expansion : ∀ b, ∀ n ∈ s.expansionList b, Lies s.regions b.1 n
  threads : ∀ th ∈ s.threads, ThreadOk s.regions th
  lent : ∀ b ∈ s.handedOut, Lent s.regions b

/-- What `last_node->next = nullptr` cuts off the bucket's list when a block is taken. -/
def Pool.leftBehind (s : Pool) (b : Bucket) : List IdleNode :=
  match s.idleList b with
  | node :: rest => if b.1 = BLOCK_DEFAULT then cutOff (takeBlock b.1 node rest) else []
  | [] => []

/-- The nodes nothing refers to after the step: those that are cut off, and the list of a
    thread that terminates. -/
def Pool.atRisk (s : Pool) (th : Thread) : Act → List IdleNode
  | .take _ =>
    match th.pc with
    | .locked b _ | .extended b _ => s.leftBehind b
    | _ => []
  | .terminate _ => th.tlsIdleList
  | _ => []

theorem ThreadOk.mono {more : List Region} {th : Thread} (h : ThreadOk regions th) (hsub : regions ⊆ more) :
    ThreadOk more th where
  single := fun n hn => ⟨(h.single n hn).1.mono hsub, (h.single n hn).2⟩
  counted := h.counted
  request := h.request
  gone := h.gone

theorem ThreadOk.no_request {th : Thread} (_ : ThreadOk regions th) (hpc : th.pc = .idle) (b : Bucket) (len : Nat)
    (hreq : th.pc = .locked b len ∨ th.pc = .extended b len) :
    len ≤ blockSize b.1 ∧ (b.1 = BLOCK_DEFAULT → l = []) := by
  rw [hpc] at hreq
  rcases hreq with hreq | hreq <;> cases hreq

theorem ThreadOk.counted_idle {th : Thread} (h : ThreadOk regions th) (hpc : th.pc = .idle) :
    th.tlsIdleNum = th.tlsIdleList.length := by
  apply h.counted
  rw [hpc]
  intro hx
  cases hx

/-- The account of a step: the new places and those at risk are the old places, and the
    blocks of a new region are in one place. -/
structure Accounts (s s' : Pool) (risk : List IdleNode) : Prop where
  inv : PoolInv s'
  grows : s.regions ⊆ s'.regions
  old : ∀ u, IsBlock s.regions u → s'.holders u + covering BLOCK_DEFAULT u risk = s.holders u
  new : ∀ u, IsBlock s'.regions u → ¬IsBlock s.regions u → s'.holders u = 1

theorem Accounts.of_same {s : Pool} {risk : List IdleNode} (hinv : PoolInv s') (hregions : s'.regions = s.regions)
    (hold : ∀ u, IsBlock s.regions u → s'.holders u + covering BLOCK_DEFAULT u risk = s.holders u) :
    Accounts s s' risk where
  inv := hinv
  grows := by
    rw [hregions]
    exact List.Subset.refl _
  old := hold
  new := by
    intro u hu hnot
    rw [hregions] at hu
    exact absurd hu hnot

theorem Accounts.refl {s : Pool} (h : PoolInv s) : Accounts s s [] := by
  refine .of_same h rfl fun u _ => ?_
  rw [covering_nil, Nat.add_zero]

section
variable {s : Pool} {i : Nat} {th th' : Thread}

/-- Only the thread changes. -/
theorem PoolInv.setThread (h : PoolInv s) (hth : ThreadOk s.regions th') : PoolInv (s.setThread i th') where
  apart := h.apart
  sized := h.sized
  idle := h.idle
  expansion := h.expansion
  threads := by
    intro x hx
    rcases mem_or_eq_of_mem_set hx with hx | rfl
    · exact h.threads x hx
    · exact hth
  lent := h.lent

theorem holders_setThread (hi : s.threads[i]? = some th) (th' : Thread) (u : Nat) :
    (s.setThread i th').holders u + th.caches u = s.holders u + th'.caches u := by
  have hsum := Ledger.sum_set (fun x : Thread => x.caches u) hi th'
  simp only [Pool.holders, Pool.setThread]
  omega

theorem caches_live (h : th.life ≠ .terminated) (u : Nat) : th.caches u = covering BLOCK_DEFAULT u th.tlsIdleList :=
  if_neg h

theorem caches_cache (h : th.life ≠ .terminated) (l : List IdleNode) (num u : Nat) :
    (th.cache l num).caches u = covering BLOCK_DEFAULT u l := if_neg h

theorem caches_goto (pc : Pc) (u : Nat) : (th.goto pc).caches u = th.caches u := rfl

theorem caches_init (u : Nat) : th.init.caches u = th.caches u := rfl

/-- The thread's list changes. -/
theorem holders_cache (hi : s.threads[i]? = some th) (hlife : th.life ≠ .terminated) (l : List IdleNode) (num u : Nat) :
    (s.setThread i (th.cache l num)).holders u + covering BLOCK_DEFAULT u th.tlsIdleList =
      s.holders u + covering BLOCK_DEFAULT u l := by
  have hsum := holders_setThread hi (th.cache l num) u
  rwa [caches_live hlife, caches_cache hlife] at hsum

theorem holders_goto (hi : s.threads[i]? = some th) (pc : Pc) (u : Nat) :
    (s.setThread i (th.goto pc)).holders u = s.holders u := by
  have hsum := holders_setThread hi (th.goto pc) u
  rw [caches_goto] at hsum
  exact Nat.add_right_cancel hsum

theorem lies_update {f : Bucket → List IdleNode} (h : ∀ b, ∀ n ∈ f b, Lies regions b.1 n)
    (hl : ∀ n ∈ l, Lies regions b.1 n) : ∀ b', ∀ n ∈ Function.update f b l b', Lies regions b'.1 n := by
  intro b' n hn
  by_cases heq : b' = b
  · subst heq
    rw [Function.update_self] at hn
    exact hl n hn
  · rw [Function.update_of_ne heq] at hn
    exact h b' n hn

/-- One idle list changes. -/
theorem PoolInv.setIdle (h : PoolInv s) (hl : ∀ n ∈ l, Lies s.regions b.1 n) : PoolInv (s.setIdle b l) where
  apart := h.apart
  sized := h.sized
  idle := lies_update h.idle hl
  expansion := h.expansion
  threads := h.threads
  lent := h.lent

theorem holders_setIdle (b : Bucket) (l : List IdleNode) (u : Nat) :
    (s.setIdle b l).holders u + covering b.1 u (s.idleList b) =
      s.holders u + covering b.1 u l := by
  have hsum := Ledger.sum_update (fun (b : Bucket) l => covering b.1 u l) s.idleList b l
  simp only [Pool.holders, Pool.setIdle]
  omega

theorem PoolInv.setExpansion (h : PoolInv s) (hl : ∀ n ∈ l, Lies s.regions b.1 n) : PoolInv (s.setExpansion b l) where
  apart := h.apart
  sized := h.sized
  idle := h.idle
  expansion := lies_update h.expansion hl
  threads := h.threads
  lent := h.lent

theorem holders_setExpansion (b : Bucket) (l : List IdleNode) (u : Nat) : (s.setExpansion b l).holders u +
      covering b.1 u (s.expansionList b) = s.holders u + covering b.1 u l := by
  have hsum := Ledger.sum_update (fun (b : Bucket) l => covering b.1 u l) s.expansionList b l
  simp only [Pool.holders, Pool.setExpansion]
  omega

/-- A block is given to a caller. -/
theorem PoolInv.lend (h : PoolInv s) {b : Block} (hb : Lent s.regions b) : PoolInv (s.lend b) where
  apart := h.apart
  sized := h.sized
  idle := h.idle
  expansion := h.expansion
  threads := h.threads
  lent := forall_mem_cons.mpr ⟨hb, h.lent⟩

theorem holders_lend (b : Block) (u : Nat) : (s.lend b).holders u = s.holders u + (decide (b.start = u)).toNat := by
  simp only [Pool.holders, Pool.lend, countP_cons]
  by_cases hu : b.start = u
  · simp only [hu, decide_true, if_true, Bool.toNat_true]
    omega
  · simp only [hu, decide_false, Bool.false_eq_true, if_false, Bool.toNat_false]
    omega

/-- A caller gives a block back. -/
theorem PoolInv.giveBack (h : PoolInv s) (b : Block) : PoolInv (s.giveBack b) where
  apart := h.apart
  sized := h.sized
  idle := h.idle
  expansion := h.expansion
  threads := h.threads
  lent := fun x hx => h.lent x (mem_of_mem_erase hx)

theorem holders_giveBack {b : Block} (hb : b ∈ s.handedOut) (u : Nat) :
    (s.giveBack b).holders u + (decide (b.start = u)).toNat = s.holders u := by
  have hperm : s.handedOut.countP (fun x => x.start = u) =
      (b :: s.handedOut.erase b).countP (fun x => x.start = u) := (perm_cons_erase hb).countP_eq _
  rw [countP_cons] at hperm
  simp only [Pool.holders, Pool.giveBack, hperm]
  by_cases hu : b.start = u
  · simp only [hu, decide_true, if_true, Bool.toNat_true]
    omega
  · simp only [hu, decide_false, Bool.false_eq_true, if_false, Bool.toNat_false]
    omega

theorem PoolInv.crash (h : PoolInv s) : PoolInv s.crash := ⟨h.apart, h.sized, h.idle, h.expansion, h.threads, h.lent⟩

theorem holders_crash (u : Nat) : s.crash.holders u = s.holders u := rfl

theorem holders_setLock (b : Bucket) (held : Bool) (u : Nat) : (s.setLock b held).holders u = s.holders u := rfl

theorem PoolInv.setLock (h : PoolInv s) (b : Bucket) (held : Bool) : PoolInv (s.setLock b held) :=
  ⟨h.apart, h.sized, h.idle, h.expansion, h.threads, h.lent⟩

/-- The block of a region a caller holds, as a node of its own. -/
theorem Lent.lies (h : regions.Pairwise Apart) {b : Block} (hb : Lent regions b) (hr : r ∈ regions)
    (hholds : r.holds b.start) : Lies regions r.blockType ⟨b.start, blockSize r.blockType⟩ := by
  obtain ⟨r', hr', _, k, hstart, hsize⟩ := hb
  have hpos := blockSize_pos r'.blockType
  have hsame : r' = r := by
    rw [Nat.add_mul] at hsize
    apply region_unique h hr' hr (x := b.start)
    · omega
    · exact of_decide_eq_true hholds
  subst hsame
  exact ⟨r', hr, rfl, k, 1, Nat.one_pos, hstart, (Nat.one_mul _).symm, hsize⟩

theorem getRegion_mem {buf : Nat} (h : s.getRegion buf = some r) : r ∈ s.regions ∧ r.holds buf := by
  refine ⟨mem_of_find?_eq_some h, ?_⟩
  have hholds := find?_some h
  exact hholds

/-- `GetRegion` finds the region of a node. -/
theorem Lies.getRegion (hn : Lies s.regions t n) : ∃ r, s.getRegion n.start = some r := by
  obtain ⟨r, hr, rfl, k, m, hm, hstart, _, hsize⟩ := hn
  have hpos : 0 < m * blockSize r.blockType := Nat.mul_pos hm (blockSize_pos _)
  rw [Nat.add_mul] at hsize
  apply Option.isSome_iff_exists.mp
  apply find?_isSome.mpr
  exact ⟨r, hr, decide_eq_true ⟨by omega, by omega⟩⟩

theorem Lies.lent (hn : Lies regions t n) (hlen : len ≤ blockSize t) : Lent regions ⟨n.start, len⟩ := by
  obtain ⟨r, hr, rfl, k, m, hm, hstart, _, hsize⟩ := hn
  refine ⟨r, hr, hlen, k, hstart, ?_⟩
  calc (k + 1) * blockSize r.blockType ≤ (k + m) * blockSize r.blockType :=
        Nat.mul_le_mul_right _ (Nat.add_le_add_left hm k)
    _ ≤ r.size := hsize

theorem takeBlock_lies {rest : List IdleNode} (hn : ∀ x ∈ n :: rest, Lies regions t x) :
    ∀ x ∈ takeBlock t n rest, Lies regions t x := by
  obtain ⟨hhead, hrest⟩ := forall_mem_cons.mp hn
  rw [takeBlock]
  split
  next hlong =>
    refine forall_mem_cons.mpr ⟨?_, hrest⟩
    obtain ⟨r, hr, ht, k, m, hm, hstart, hlen, hsize⟩ := hhead
    have hmore : 1 < m := by
      rw [hlen] at hlong
      exact Nat.lt_of_mul_lt_mul_right (by rwa [Nat.one_mul])
    refine ⟨r, hr, ht, k + 1, m - 1, by omega, ?_, ?_, ?_⟩
    · show n.start + blockSize t = _
      rw [hstart, Nat.add_mul, Nat.one_mul, Nat.add_assoc]
    · show n.len - blockSize t = _
      rw [hlen, Nat.sub_mul, Nat.one_mul]
    · rwa [show k + 1 + (m - 1) = k + m by omega]
  next => exact hrest

theorem Lies.single (hn : Lies regions t n) (hlen : n.len ≤ blockSize t) : n.len = blockSize t := by
  obtain ⟨_, _, _, _, m, hm, _, hm', _⟩ := hn
  have hle : blockSize t ≤ m * blockSize t := Nat.le_mul_of_pos_left _ hm
  omega

theorem typeFor_le (h : typeFor len = some t) : len ≤ blockSize t := by
  unfold typeFor at h
  split at h
  next => cases h
  next =>
    have hle := find?_some h
    exact of_decide_eq_true hle

/-! One lemma for each step. -/

theorem alloc_accounts (h : PoolInv s) (hi : s.threads[i]? = some th) (hpc : th.pc = .idle)
    (hlife : th.life ≠ .terminated) {index : Fin 4} (hn : s.alloc i th len index = some s') : Accounts s s' [] := by
  have hth := h.threads th (mem_of_getElem? hi)
  revert hn
  fun_cases Pool.alloc s i th len index <;> intro hn <;> cases hn
  case case1 => exact .refl h
  case case2 node rest hlist htype =>
    have hsingle := hth.single
    rw [hlist] at hsingle
    obtain ⟨⟨hlies, hlen⟩, hrest⟩ := forall_mem_cons.mp hsingle
    have hok : ThreadOk s.regions (th.cache rest (th.tlsIdleNum - 1)) := by
      refine ⟨hrest, fun hne => ?_, hth.no_request hpc, hth.gone⟩
      have hcount := hth.counted hne
      rw [hlist, length_cons] at hcount
      show th.tlsIdleNum - 1 = rest.length
      omega
    refine .of_same ((h.setThread hok).lend (hlies.lent (typeFor_le htype))) rfl fun u _ => ?_
    have hthread := holders_cache hi hlife rest (th.tlsIdleNum - 1) u
    rw [hlist, covering_cons, covers_single hlen] at hthread
    rw [holders_lend, covering_nil]
    dsimp only
    omega
  case case4 t _ hmatch htype =>
    have hok : ThreadOk s.regions (th.goto (.locked (t, index) len)) := by
      refine ⟨hth.single, fun _ => hth.counted_idle hpc, ?_, fun hgone => absurd hgone hlife⟩
      intro b len' hreq
      rcases hreq with hreq | hreq <;> cases hreq
      refine ⟨typeFor_le htype, fun hzero => ?_⟩
      show th.tlsIdleList = []
      cases hlist : th.tlsIdleList with
      | nil => rfl
      | cons node rest => exact absurd hlist (hmatch node rest hzero)
    refine .of_same ((h.setThread hok).setLock _ _) rfl fun u _ => ?_
    rw [holders_setLock, covering_nil, Nat.add_zero, holders_goto hi]

theorem move_inv (h : PoolInv s) (b : Bucket) : PoolInv (s.moveExpansionList2EmptyIdleList b) :=
  (h.setIdle (h.expansion b)).setExpansion (forall_mem_nil _)

theorem move_holders (hempty : s.idleList b = []) (u : Nat) :
    (s.moveExpansionList2EmptyIdleList b).holders u = s.holders u := by
  have hidle := holders_setIdle (s := s) b (s.expansionList b) u
  have hexpansion := holders_setExpansion (s := s.setIdle b (s.expansionList b)) b [] u
  have hsame : (s.setIdle b (s.expansionList b)).expansionList b = s.expansionList b := rfl
  rw [hempty, covering_nil] at hidle
  rw [hsame, covering_nil] at hexpansion
  rw [Pool.moveExpansionList2EmptyIdleList]
  omega

/-! A new region. -/

theorem covers_outside (hn : Lies regions t n) (hout : ∀ r ∈ regions, ¬(r.start ≤ u ∧ u < r.start + r.size)) :
    n.covers t u = false := by
  obtain ⟨r, hr, rfl, k, m, _, hstart, hlen, hsize⟩ := hn
  have hnot := hout r hr
  have hpos := blockSize_pos r.blockType
  rw [Nat.add_mul] at hsize
  apply decide_eq_false
  omega

theorem covering_outside (hl : ∀ n ∈ l, Lies regions t n)
    (hout : ∀ r ∈ regions, ¬(r.start ≤ u ∧ u < r.start + r.size)) : covering t u l = 0 := by
  apply countP_eq_zero.mpr
  intro n hn
  rw [covers_outside (hl n hn) hout]
  exact Bool.false_ne_true

/-- An address outside the regions is in no place. -/
theorem holders_outside (h : PoolInv s) (hout : ∀ r ∈ s.regions, ¬(r.start ≤ u ∧ u < r.start + r.size)) :
    s.holders u = 0 := by
  have hlent : s.handedOut.countP (fun b => b.start = u) = 0 := by
    apply countP_eq_zero.mpr
    intro b hb heq
    obtain ⟨r, hr, _, k, hstart, hsize⟩ := h.lent b hb
    have hpos := blockSize_pos r.blockType
    have hnot := hout r hr
    have hu : b.start = u := of_decide_eq_true heq
    rw [Nat.add_mul] at hsize
    omega
  have hcached : (s.threads.map (·.caches u)).sum = 0 := by
    apply sum_eq_zero
    intro c hc
    obtain ⟨th, hth, rfl⟩ := mem_map.mp hc
    rw [Thread.caches]
    split
    next => rfl
    next => exact covering_outside (fun n hn => ((h.threads th hth).single n hn).1) hout
  have hidle : ∑ b, covering b.1 u (s.idleList b) = 0 :=
    Finset.sum_eq_zero fun b _ => covering_outside (h.idle b) hout
  have hexpansion : ∑ b, covering b.1 u (s.expansionList b) = 0 :=
    Finset.sum_eq_zero fun b _ => covering_outside (h.expansion b) hout
  rw [Pool.holders, hlent, hcached, hidle, hexpansion]

/-- The nodes of a new region add one place for each of its blocks. -/
theorem extend_holders (t : BlockType) (base u : Nat) :
    (s.extendBlockPool t base).holders u = s.holders u + ∑ i, ((expansionNode t base i).covers t u).toNat := by
  have hsum : ∑ b, covering b.1 u ((s.extendBlockPool t base).expansionList b) =
      ∑ b, covering b.1 u (s.expansionList b) + ∑ i, ((expansionNode t base i).covers t u).toNat := by
    have hadd : ∀ b : Bucket, covering b.1 u ((s.extendBlockPool t base).expansionList b) =
        covering b.1 u (s.expansionList b) +
          if b.1 = t then ((expansionNode t base b.2).covers t u).toNat else 0 := by
      intro b
      rw [Pool.extendBlockPool]
      dsimp only
      split
      next ht => rw [covering_cons, Nat.add_comm, ht]
      next => rfl
    have hnew : ∑ b : Bucket, (if b.1 = t then ((expansionNode t base b.2).covers t u).toNat else 0) =
        ∑ i, ((expansionNode t base i).covers t u).toNat := by
      rw [Fintype.sum_prod_type]
      calc ∑ t', ∑ i, (if t' = t then ((expansionNode t base i).covers t u).toNat else 0)
          = ∑ t', if t' = t then ∑ i, ((expansionNode t base i).covers t u).toNat else 0 := by
            apply Finset.sum_congr rfl
            intro t' _
            split <;> simp
        _ = ∑ i, ((expansionNode t base i).covers t u).toNat := by
            rw [Finset.sum_ite_eq' Finset.univ t, if_pos (Finset.mem_univ t)]
    calc ∑ b, covering b.1 u ((s.extendBlockPool t base).expansionList b)
        = ∑ b : Bucket, (covering b.1 u (s.expansionList b) +
            if b.1 = t then ((expansionNode t base b.2).covers t u).toNat else 0) := Finset.sum_congr rfl fun b _ => hadd b
      _ = _ := by rw [Finset.sum_add_distrib, hnew]
  have hlent : (s.extendBlockPool t base).handedOut = s.handedOut := rfl
  have hthreads : (s.extendBlockPool t base).threads = s.threads := rfl
  have hidle : (s.extendBlockPool t base).idleList = s.idleList := rfl
  rw [Pool.holders, hsum, hlent, hthreads, hidle, Pool.holders]
  omega

/-- The four parts of a region. -/
theorem expansionNode_covers {k : Nat} (hu : u = base + k * blockSize t) (hk : (k + 1) * blockSize t ≤ regionSize t) :
    ∑ i, ((expansionNode t base i).covers t u).toNat = 1 := by
  obtain ⟨m, hm, hpart, hwhole⟩ := regionSize_parts t
  have hpos := blockSize_pos t
  have hk4 : k < 4 * m := by
    have : (k + 1) * blockSize t ≤ 4 * m * blockSize t := by
      rw [Nat.mul_assoc, ← hwhole]
      exact hk
    have := Nat.le_of_mul_le_mul_right this hpos
    omega
  -- the part is the quotient of the block's number
  have hcovers : ∀ i : Fin 4, (expansionNode t base i).covers t u = decide (k / m = i) := by
    intro i
    rw [IdleNode.covers, expansionNode, hpart, hu]
    congr 1
    apply propext
    rw [Nat.div_eq_iff hm]
    have hmul : ∀ a b : Nat, a * blockSize t ≤ b * blockSize t ↔ a ≤ b :=
      fun a b => ⟨fun h => Nat.le_of_mul_le_mul_right h hpos, fun h => Nat.mul_le_mul_right _ h⟩
    have hleft := hmul (i * m) k
    have hright := hmul (k + 1) (i * m + m)
    rw [Nat.add_mul, Nat.one_mul, Nat.add_mul] at hright
    rw [← Nat.mul_assoc]
    dsimp only
    omega
  have hlt : k / m < 4 := (Nat.div_lt_iff_lt_mul hm).mpr hk4
  simp only [hcovers, Fin.sum_univ_four]
  generalize k / m = q at hlt
  interval_cases q <;> rfl

theorem expansionNode_lies (hr : ⟨base, regionSize t, t⟩ ∈ regions) (i : Fin 4) :
    Lies regions t (expansionNode t base i) := by
  obtain ⟨m, hm, hpart, hwhole⟩ := regionSize_parts t
  refine ⟨_, hr, rfl, i * m, m, hm, ?_, ?_, ?_⟩
  · rw [expansionNode, hpart, Nat.mul_assoc]
  · rw [expansionNode, hpart]
  · show (i * m + m) * blockSize t ≤ regionSize t
    rw [hwhole, ← Nat.mul_assoc]
    apply Nat.mul_le_mul_right
    calc (i : Nat) * m + m = (i + 1) * m := (Nat.succ_mul _ _).symm
      _ ≤ 4 * m := Nat.mul_le_mul_right m i.isLt

theorem fresh_apart (h : fresh regions t base) (hr : r ∈ regions) :
    r.start + r.size ≤ base ∨ base + regionSize t ≤ r.start :=
  of_decide_eq_true (all_eq_true.mp h r hr)

theorem extend_inv (h : PoolInv s) (hfresh : fresh s.regions t base) : PoolInv (s.extendBlockPool t base) := by
  have hsub : s.regions ⊆ s.regions ++ [⟨base, regionSize t, t⟩] := subset_append_left _ _
  have hmem : (⟨base, regionSize t, t⟩ : Region) ∈ s.regions ++ [⟨base, regionSize t, t⟩] :=
    mem_append_right _ mem_cons_self
  refine ⟨?_, ?_, ?_, ?_, ?_, ?_⟩
  · apply pairwise_append.mpr
    refine ⟨h.apart, pairwise_singleton _ _, ?_⟩
    intro r hr r' hr'
    cases mem_singleton.mp hr'
    exact fresh_apart hfresh hr
  · intro r hr
    rcases mem_append.mp hr with hr | hr
    · exact h.sized r hr
    · cases mem_singleton.mp hr
      rfl
  · exact fun b n hn => (h.idle b n hn).mono hsub
  · intro b n hn
    rw [Pool.extendBlockPool] at hn
    dsimp only at hn
    split at hn
    next ht =>
      rcases mem_cons.mp hn with rfl | hn
      · rw [ht]
        exact expansionNode_lies hmem b.2
      · exact (h.expansion b n hn).mono hsub
    next => exact (h.expansion b n hn).mono hsub
  · exact fun th hth => (h.threads th hth).mono hsub
  · exact fun b hb => (h.lent b hb).mono hsub

theorem isBlock_append (hu : IsBlock (regions ++ [r]) u) (hnot : ¬IsBlock regions u) :
    ∃ k, u = r.start + k * blockSize r.blockType ∧ (k + 1) * blockSize r.blockType ≤ r.size := by
  obtain ⟨r', hr', hk⟩ := hu
  rcases mem_append.mp hr' with hr' | hr'
  · exact absurd ⟨r', hr', hk⟩ hnot
  · cases mem_singleton.mp hr'
    exact hk

theorem extendBlockPool_accounts (h : PoolInv s) (hfresh : fresh s.regions t base) :
    Accounts s (s.extendBlockPool t base) [] where
  inv := extend_inv h hfresh
  grows := subset_append_left _ _
  old := by
    intro u hu
    -- a block of an old region is outside the new one
    obtain ⟨r, hr, k, hk, hsize⟩ := hu
    have hpos := blockSize_pos r.blockType
    have hapart := fresh_apart hfresh hr
    rw [Nat.add_mul] at hsize
    have hnone : ∑ i, ((expansionNode t base i).covers t u).toNat = 0 := by
      apply Finset.sum_eq_zero
      intro i _
      have hlies : Lies [⟨base, regionSize t, t⟩] t (expansionNode t base i) := expansionNode_lies mem_cons_self i
      rw [covers_outside hlies, Bool.toNat_false]
      intro r' hr'
      cases mem_singleton.mp hr'
      show ¬(base ≤ u ∧ u < base + regionSize t)
      omega
    rw [extend_holders, hnone, covering_nil]
    omega
  new := by
    intro u hu hnot
    obtain ⟨k, hk, hsize⟩ := isBlock_append hu hnot
    have hpos := blockSize_pos t
    have hout : ∀ r ∈ s.regions, ¬(r.start ≤ u ∧ u < r.start + r.size) := by
      intro r hr
      have hapart := fresh_apart hfresh hr
      have hu : u = base + k * blockSize t := hk
      have hbound : (k + 1) * blockSize t ≤ regionSize t := hsize
      rw [Nat.add_mul] at hbound
      omega
    rw [extend_holders, expansionNode_covers hk hsize, holders_outside h hout]

/-- A thread inside `AllocBlockFrom` goes on there. -/
theorem ThreadOk.extended (h : ThreadOk regions th) (hpc : th.pc = .locked b len) :
    ThreadOk regions (th.goto (.extended b len)) := by
  have hreq := h.request b len (.inl hpc)
  refine ⟨h.single, fun _ => h.counted (by rw [hpc]; intro hx; cases hx), ?_, ?_⟩
  · intro b' len' hreq'
    rcases hreq' with hreq' | hreq' <;> cases hreq'
    exact hreq
  · intro hgone
    have hidle := h.gone hgone
    rw [hpc] at hidle
    cases hidle

/-- A thread leaves `AllocBlockFrom`. -/
theorem ThreadOk.leave (h : ThreadOk regions th) (hpc : th.pc ≠ .recycling) : ThreadOk regions (th.goto .idle) := by
  refine ⟨h.single, fun _ => h.counted hpc, ?_, fun _ => rfl⟩
  intro b len hreq
  rcases hreq with hreq | hreq <;> cases hreq

section

variable (h : PoolInv s) (hi : s.threads[i]? = some th)

include h hi

theorem extend_accounts (hpc : th.pc = .locked b len) (hn : s.extend i th b len base = some s') : Accounts s s' [] := by
  have hth := h.threads th (mem_of_getElem? hi)
  revert hn
  fun_cases Pool.extend s i th b len base <;> intro hn <;> cases hn
  case case2 hempty _ =>
    have hempty : s.idleList b = [] := not_not.mp hempty
    refine .of_same ((move_inv h b).setThread (hth.extended hpc)) rfl fun u _ => ?_
    rw [holders_goto (s := s.moveExpansionList2EmptyIdleList b) hi, move_holders hempty, covering_nil, Nat.add_zero]
  case case3 =>
    have hok := hth.leave (by rw [hpc]; intro hx; cases hx)
    refine .of_same ((h.setThread hok).setLock _ _) rfl fun u _ => ?_
    rw [holders_setLock, holders_goto hi, covering_nil, Nat.add_zero]
  case case4 hempty _ _ hfresh =>
    have hempty : s.idleList b = [] := not_not.mp hempty
    have hext := extendBlockPool_accounts h hfresh
    have hholders : ∀ u, (((s.extendBlockPool b.1 base).moveExpansionList2EmptyIdleList b).setThread i
        (th.goto (.extended b len))).holders u = (s.extendBlockPool b.1 base).holders u := by
      intro u
      rw [holders_goto (s := (s.extendBlockPool b.1 base).moveExpansionList2EmptyIdleList b) hi,
        move_holders (s := s.extendBlockPool b.1 base) hempty]
    refine ⟨(move_inv hext.inv b).setThread ((hth.extended hpc).mono hext.grows), hext.grows, ?_, ?_⟩
    · intro u hu
      rw [hholders]
      exact hext.old u hu
    · intro u hu hnot
      rw [hholders]
      exact hext.new u hu hnot

theorem take_accounts (hpc : th.pc = .locked b len ∨ th.pc = .extended b len) :
    Accounts s (s.take i th b len) (s.leftBehind b) := by
  have hth := h.threads th (mem_of_getElem? hi)
  obtain ⟨hreq, hlist⟩ := hth.request b len hpc
  have hbusy : th.pc ≠ .recycling ∧ th.pc ≠ .idle := by
    rcases hpc with hpc | hpc <;> rw [hpc] <;> exact ⟨fun hx => (by cases hx), fun hx => (by cases hx)⟩
  have hlife : th.life ≠ .terminated := fun hgone => hbusy.2 (hth.gone hgone)
  unfold Pool.take Pool.leftBehind
  cases hidle : s.idleList b with
  | nil =>
    refine .of_same h.crash rfl fun u _ => ?_
    rw [holders_crash, covering_nil, Nat.add_zero]
  | cons node rest =>
    have hnodes := h.idle b
    rw [hidle] at hnodes
    have hlies := hnodes node mem_cons_self
    have hafter := takeBlock_lies hnodes
    have hlent := (h.lend (hlies.lent hreq)).setLock b false
    dsimp only
    split
    next hdefault =>
      have hnum : th.tlsIdleNum = 0 := by
        rw [hth.counted hbusy.1, hlist hdefault]
        rfl
      rw [hnum]
      obtain ⟨hperm, hcount, hshort⟩ := refill_spec (takeBlock b.1 node rest)
      generalize hfilled : refill 0 (takeBlock b.1 node rest) = filled at hperm hcount hshort
      have hbucket : ∀ n ∈ filled.1, Lies s.regions b.1 n := fun n hn =>
        hafter n (hperm.mem_iff.mpr (mem_append_left _ (mem_append_left _ hn)))
      have hcached : ∀ n ∈ filled.2.1, Lies s.regions BLOCK_DEFAULT n := by
        intro n hn
        rw [← hdefault]
        exact hafter n (hperm.mem_iff.mpr (mem_append_left _ (mem_append_right _ hn)))
      have hok : ThreadOk s.regions ((th.cache filled.2.1 filled.2.2).goto .idle) := by
        refine ⟨fun n hn => ⟨hcached n hn, (hcached n hn).single (hshort n hn)⟩, fun _ => hcount, ?_, fun _ => rfl⟩
        intro b' len' hreq'
        rcases hreq' with hreq' | hreq' <;> cases hreq'
      refine .of_same ((hlent.setIdle hbucket).setThread hok) rfl fun u hu => ?_
      have hset := holders_setIdle (s := (s.lend ⟨node.start, len⟩).setLock b false) b filled.1 u
      have hsame : ((s.lend ⟨node.start, len⟩).setLock b false).idleList b = node :: rest := hidle
      have hcover : covering b.1 u (takeBlock b.1 node rest) =
          covering b.1 u filled.1 + covering b.1 u filled.2.1 + covering b.1 u (cutOff (takeBlock b.1 node rest)) := by
        rw [← covering_append, ← covering_append]
        exact hperm.countP_eq _
      rw [hsame, covering_takeBlock h.apart hlies hu, holders_setLock, holders_lend] at hset
      have hthread := holders_setThread (s := ((s.lend ⟨node.start, len⟩).setLock b false).setIdle b filled.1) hi
        ((th.cache filled.2.1 filled.2.2).goto .idle) u
      rw [caches_goto, caches_cache hlife, caches_live hlife, hlist hdefault, covering_nil] at hthread
      rw [hdefault] at hset hcover ⊢
      dsimp only at hset
      omega
    next hlarge =>
      refine .of_same ((hlent.setIdle hafter).setThread (hth.leave hbusy.1)) rfl fun u hu => ?_
      have hset := holders_setIdle (s := (s.lend ⟨node.start, len⟩).setLock b false) b (takeBlock b.1 node rest) u
      have hsame : ((s.lend ⟨node.start, len⟩).setLock b false).idleList b = node :: rest := hidle
      rw [hsame, covering_takeBlock h.apart hlies hu, holders_setLock, holders_lend] at hset
      rw [holders_goto (s := ((s.lend ⟨node.start, len⟩).setLock b false).setIdle b (takeBlock b.1 node rest)) hi,
        covering_nil]
      dsimp only at hset
      omega

theorem dealloc_accounts (hpc : th.pc = .idle) (hlife : th.life ≠ .terminated) {block : Block}
    (hblock : block ∈ s.handedOut) (hn : s.dealloc i th block = some s') : Accounts s s' [] := by
  have hth := h.threads th (mem_of_getElem? hi)
  have hback := holders_giveBack hblock
  have hlies {r : Region} (hr : s.getRegion block.start = some r) :=
    (h.lent block hblock).lies h.apart (getRegion_mem hr).1 (getRegion_mem hr).2
  revert hn
  fun_cases Pool.dealloc s i th block <;> intro hn <;> cases hn
  case case1 => exact .refl h
  case case2 r hregion node hcache =>
    have hlies := hlies hregion
    have hlen : node.len = blockSize BLOCK_DEFAULT := congrArg blockSize hcache.1
    rw [hcache.1] at hlies
    have hok : ThreadOk s.regions (th.cache (node :: th.tlsIdleList) (th.tlsIdleNum + 1)).init := by
      refine ⟨forall_mem_cons.mpr ⟨⟨?_, hlen⟩, hth.single⟩, fun _ => ?_, hth.no_request hpc, hth.gone⟩
      · rw [show node = ⟨block.start, blockSize BLOCK_DEFAULT⟩ from congrArg (IdleNode.mk block.start) hlen]
        exact hlies
      · exact congrArg (· + 1) (hth.counted_idle hpc)
    refine .of_same ((h.giveBack block).setThread hok) rfl fun u _ => ?_
    have hthread := holders_setThread (s := s.giveBack block) hi
      (th.cache (node :: th.tlsIdleList) (th.tlsIdleNum + 1)).init u
    rw [caches_init, caches_cache hlife, caches_live hlife, covering_cons, covers_single hlen] at hthread
    have hback := hback u
    have hstart : node.start = block.start := rfl
    rw [hstart] at hthread
    rw [covering_nil]
    omega
  case case4 r _ _ hfull _ hdefault cnt hfew =>
    -- the thread caches 128 blocks at least
    exfalso
    have hcount := hth.counted_idle hpc
    have hmany : ¬th.tlsIdleNum < RDMA_MEMPOOL_TLS_CACHE_NUM := fun hlt => hfull ⟨hdefault, hlt⟩
    have hcnt : cnt = 64 := rfl
    have hmax : RDMA_MEMPOOL_TLS_CACHE_NUM = 128 := rfl
    omega
  case case5 r hregion node b hfull _ hdefault cnt hmany =>
    have hlies := hlies hregion
    have hlen : node.len = blockSize BLOCK_DEFAULT := congrArg blockSize hdefault
    have hb : b.1 = BLOCK_DEFAULT := hdefault
    have hidle : ∀ n ∈ th.tlsIdleList.take cnt ++ node :: s.idleList b, Lies s.regions b.1 n := by
      intro n hn
      rcases mem_append.mp hn with hn | hn
      · rw [hb]
        exact (hth.single n (mem_of_mem_take hn)).1
      · rcases mem_cons.mp hn with rfl | hn
        · exact hlies
        · exact h.idle b n hn
    have hok : ThreadOk s.regions (th.cache (th.tlsIdleList.drop cnt) (th.tlsIdleNum - cnt)) := by
      refine ⟨fun n hn => hth.single n (mem_of_mem_drop hn), fun _ => ?_, hth.no_request hpc, hth.gone⟩
      show th.tlsIdleNum - cnt = (th.tlsIdleList.drop cnt).length
      rw [length_drop, hth.counted_idle hpc]
    refine .of_same (((h.giveBack block).setIdle hidle).setThread hok) rfl fun u _ => ?_
    have hback := hback u
    have hset := holders_setIdle (s := s.giveBack block) b (th.tlsIdleList.take cnt ++ node :: s.idleList b) u
    have hsame : (s.giveBack block).idleList b = s.idleList b := rfl
    have hthread := holders_cache
      (s := (s.giveBack block).setIdle b (th.tlsIdleList.take cnt ++ node :: s.idleList b)) hi hlife
      (th.tlsIdleList.drop cnt) (th.tlsIdleNum - cnt) u
    have hparts : covering BLOCK_DEFAULT u th.tlsIdleList =
        covering BLOCK_DEFAULT u (th.tlsIdleList.take cnt) + covering BLOCK_DEFAULT u (th.tlsIdleList.drop cnt) := by
      rw [← covering_append, take_append_drop]
    have hstart : node.start = block.start := rfl
    rw [hsame, hb, covering_append, covering_cons, covers_single hlen, hstart] at hset
    rw [covering_nil]
    omega
  case case6 r hregion node b _ _ _ =>
    have hlies := hlies hregion
    have hidle : ∀ n ∈ node :: s.idleList b, Lies s.regions b.1 n := forall_mem_cons.mpr ⟨hlies, h.idle b⟩
    refine .of_same ((h.giveBack block).setIdle hidle) rfl fun u _ => ?_
    have hback := hback u
    have hset := holders_setIdle (s := s.giveBack block) b (node :: s.idleList b) u
    have hsame : (s.giveBack block).idleList b = s.idleList b := rfl
    have hlen : node.len = blockSize b.1 := rfl
    have hstart : node.start = block.start := rfl
    rw [hsame, covering_cons, covers_single hlen, hstart] at hset
    rw [covering_nil]
    omega

theorem recycle_accounts (hpc : th.pc = .recycling) (hn : s.recycle i th = some s') : Accounts s s' [] := by
  have hth := h.threads th (mem_of_getElem? hi)
  have hlife : th.life ≠ .terminated := by
    intro hgone
    have hidle := hth.gone hgone
    rw [hpc] at hidle
    cases hidle
  have hno : ∀ l : List IdleNode, ∀ b len, th.pc = .locked b len ∨ th.pc = .extended b len →
      len ≤ blockSize b.1 ∧ (b.1 = BLOCK_DEFAULT → l = []) := by
    intro l b len hreq
    rw [hpc] at hreq
    rcases hreq with hreq | hreq <;> cases hreq
  revert hn
  fun_cases Pool.recycle s i th <;> intro hn <;> cases hn
  case case1 hlist =>
    have hok : ThreadOk s.regions ((th.cache [] 0).goto .idle) := by
      refine ⟨forall_mem_nil _, fun _ => rfl, ?_, fun _ => rfl⟩
      intro b len hreq
      rcases hreq with hreq | hreq <;> cases hreq
    refine .of_same (h.setThread hok) rfl fun u _ => ?_
    have hthread := holders_setThread hi ((th.cache [] 0).goto .idle) u
    rw [caches_goto, caches_cache hlife, caches_live hlife, hlist, covering_nil] at hthread
    rw [covering_nil]
    omega
  case case2 node rest hlist hnone =>
    -- every node a thread caches lies in a region
    have hlies := (hth.single node (by rw [hlist]; exact mem_cons_self)).1
    obtain ⟨r, hr⟩ := hlies.getRegion
    rw [hr] at hnone
    cases hnone
  case case4 node rest hlist r _ b _ =>
    have hsingle := hth.single
    rw [hlist] at hsingle
    obtain ⟨⟨hlies, _⟩, hrest⟩ := forall_mem_cons.mp hsingle
    have hidle : ∀ n ∈ node :: s.idleList b, Lies s.regions b.1 n := forall_mem_cons.mpr ⟨hlies, h.idle b⟩
    have hok : ThreadOk s.regions (th.cache rest th.tlsIdleNum) :=
      ⟨hrest, fun hne => absurd hpc hne, hno rest, hth.gone⟩
    refine .of_same ((h.setIdle hidle).setThread hok) rfl fun u _ => ?_
    have hset := holders_setIdle (s := s) b (node :: s.idleList b) u
    have hthread := holders_cache (s := s.setIdle b (node :: s.idleList b)) hi hlife rest th.tlsIdleNum u
    rw [hlist, covering_cons] at hthread
    have hb : b.1 = BLOCK_DEFAULT := rfl
    rw [covering_cons, hb] at hset
    rw [covering_nil]
    omega

theorem exit_accounts (hpc : th.pc = .idle) (hlife : th.life = .running) :
    Accounts s (s.setThread i ((th.setLife .exiting).goto (if th.tlsInited then .recycling else .idle))) [] := by
  have hth := h.threads th (mem_of_getElem? hi)
  have hok : ThreadOk s.regions ((th.setLife .exiting).goto (if th.tlsInited then .recycling else .idle)) := by
    refine ⟨hth.single, fun _ => hth.counted_idle hpc, ?_, fun hgone => by cases hgone⟩
    intro b len hreq
    rw [Thread.goto] at hreq
    dsimp only at hreq
    split at hreq <;> rcases hreq with hreq | hreq <;> cases hreq
  refine .of_same (h.setThread hok) rfl fun u _ => ?_
  have hthread := holders_setThread hi ((th.setLife .exiting).goto (if th.tlsInited then .recycling else .idle)) u
  have hlive : th.life ≠ .terminated := by
    rw [hlife]
    intro hx
    cases hx
  have hsame : (th.setLife .exiting).caches u = th.caches u := (caches_live hlive u).symm
  rw [caches_goto, hsame] at hthread
  rw [covering_nil]
  omega

theorem terminate_accounts (hpc : th.pc = .idle) (hlife : th.life = .exiting) :
    Accounts s (s.setThread i (th.setLife .terminated)) th.tlsIdleList := by
  have hth := h.threads th (mem_of_getElem? hi)
  have hok : ThreadOk s.regions (th.setLife .terminated) := ⟨hth.single, hth.counted, hth.request, fun _ => hpc⟩
  refine .of_same (h.setThread hok) rfl fun u _ => ?_
  have hthread := holders_setThread hi (th.setLife .terminated) u
  have hlive : th.life ≠ .terminated := by
    rw [hlife]
    intro hx
    cases hx
  have hgone : (th.setLife .terminated).caches u = 0 := if_pos rfl
  rw [caches_live hlive, hgone] at hthread
  omega

end

theorem spawn_accounts (h : PoolInv s) :
    Accounts s { s with threads := s.threads ++ [⟨[], 0, false, .idle, .running⟩] } [] := by
  refine .of_same ⟨h.apart, h.sized, h.idle, h.expansion, ?_, h.lent⟩ rfl fun u _ => ?_
  · intro th hth
    rcases mem_append.mp hth with hth | hth
    · exact h.threads th hth
    · cases mem_singleton.mp hth
      refine ⟨forall_mem_nil _, fun _ => rfl, ?_, fun _ => rfl⟩
      intro b len hreq
      rcases hreq with hreq | hreq <;> cases hreq
  · have hnone : ([⟨[], 0, false, .idle, .running⟩] : List Thread).map (·.caches u) = [0] := rfl
    simp only [Pool.holders, map_append, sum_append, hnone, covering_nil, sum_singleton, Nat.add_zero]

theorem atRisk_take {i : Nat} (hpc : th.pc = .locked b len ∨ th.pc = .extended b len) :
    s.atRisk th (.take i) = s.leftBehind b := by
  rcases hpc with hpc | hpc <;> rw [Pool.atRisk, hpc]

theorem step_accounts (h : PoolInv s) {a : Act} (hi : s.threads[a.thread]? = some th) (hn : s.step th a = some s') :
    Accounts s s' (s.atRisk th a) := by
  revert hi hn
  fun_cases Pool.step s th a <;> intro hi hn
  case case2 hidle => exact alloc_accounts h hi hidle.1 hidle.2 hn
  case case4 hpc => exact extend_accounts h hi hpc hn
  case case7 hpc _ =>
    cases hn
    rw [atRisk_take (.inl hpc)]
    exact take_accounts h hi (.inl hpc)
  case case8 hpc =>
    cases hn
    rw [atRisk_take (.inr hpc)]
    exact take_accounts h hi (.inr hpc)
  case case10 hcall => exact dealloc_accounts h hi hcall.1 hcall.2.1 hcall.2.2.1 hn
  case case12 hidle =>
    cases hn
    exact exit_accounts h hi hidle.1 hidle.2
  case case14 hpc => exact recycle_accounts h hi hpc hn
  case case16 hidle =>
    cases hn
    exact terminate_accounts h hi hidle.1 hidle.2
  all_goals cases hn

/-- The nodes a step of the pool would lose. -/
def Pool.risk (s : Pool) (a : Act) : List IdleNode := (s.threads[a.thread]?).elim [] fun th => s.atRisk th a

theorem next_accounts (h : PoolInv s) {a : Act} (hn : s.next a = some s') : Accounts s s' (s.risk a) := by
  have hstep : ∀ a, (s.threads[a.thread]?).bind (fun th => s.step th a) = some s' → Accounts s s' (s.risk a) := by
    intro a hn
    obtain ⟨th, hi, hn⟩ := Option.bind_eq_some_iff.mp hn
    have haccounts := step_accounts h hi hn
    rwa [Pool.risk, hi]
  cases a with
  | spawn =>
    cases hn
    have hnone : s.risk .spawn = [] := by
      rw [Pool.risk]
      cases s.threads[Act.spawn.thread]? <;> rfl
    rw [hnone]
    exact spawn_accounts h
  | _ => exact hstep _ hn

theorem cutOff_subset (l : List IdleNode) : cutOff l ⊆ l := by
  cases l with
  | nil => exact List.Subset.refl _
  | cons n rest =>
    rw [cutOff]
    split
    next => exact subset_cons_self _ _
    next => exact nil_subset _

theorem leftBehind_lies (h : PoolInv s) (b : Bucket) : ∀ n ∈ s.leftBehind b, Lies s.regions BLOCK_DEFAULT n := by
  intro n hn
  unfold Pool.leftBehind at hn
  have hnodes := h.idle b
  split at hn
  next node rest hidle =>
    rw [hidle] at hnodes
    split at hn
    next hdefault =>
      rw [← hdefault]
      exact takeBlock_lies hnodes n (cutOff_subset _ hn)
    next => cases hn
  next => cases hn

/-- What a step would lose are blocks of the smallest type. -/
theorem risk_lies (h : PoolInv s) (a : Act) : ∀ n ∈ s.risk a, Lies s.regions BLOCK_DEFAULT n := by
  intro n hn
  unfold Pool.risk at hn
  cases hi : s.threads[a.thread]? with
  | none =>
    rw [hi] at hn
    cases hn
  | some th =>
    rw [hi] at hn
    have hn : n ∈ s.atRisk th a := hn
    cases a with
    | take i =>
      simp only [Pool.atRisk] at hn
      split at hn
      next b _ _ => exact leftBehind_lies h b n hn
      next b _ _ => exact leftBehind_lies h b n hn
      next => cases hn
    | terminate i => exact ((h.threads th (mem_of_getElem? hi)).single n hn).1
    | _ => cases hn

end

/-- The step leaves no block behind: an allocation from a bucket does not find a range in
    front of other nodes once its block is taken, and a thread that terminates caches none. -/
def losesNothing (s : Pool) (a : Act) : Bool := s.risk a = []

section
variable {s : Pool}

theorem init_accounts (base : Nat) : PoolInv (initBlockPool base) ∧ (initBlockPool base).Conserved := by
  have hempty : PoolInv ⟨[], fun _ => [], fun _ => [], fun _ => false, [], [], false⟩ :=
    ⟨List.Pairwise.nil, forall_mem_nil _, fun _ => forall_mem_nil _, fun _ => forall_mem_nil _,
      forall_mem_nil _, forall_mem_nil _⟩
  have haccounts : Accounts _ (initBlockPool base) [] := extendBlockPool_accounts hempty rfl
  refine ⟨haccounts.inv, fun u hu => haccounts.new u hu ?_⟩
  intro ⟨r, hr, _⟩
  cases hr

/-- No block is ever in two places. -/
theorem pool_reachable (h : poolMachine.Reachable s) : PoolInv s ∧ ∀ u, IsBlock s.regions u → s.holders u ≤ 1 := by
  refine h.invariant (I := fun s => PoolInv s ∧ ∀ u, IsBlock s.regions u → s.holders u ≤ 1) ?_ ?_
  · intro s hinit
    obtain ⟨base, rfl⟩ := hinit
    obtain ⟨hinv, hconserved⟩ := init_accounts base
    exact ⟨hinv, fun u hu => (hconserved u hu).le⟩
  · intro s a s' hs hn
    obtain ⟨hinv, hle⟩ := hs
    have haccounts := next_accounts hinv hn
    refine ⟨haccounts.inv, fun u hu => ?_⟩
    by_cases hold : IsBlock s.regions u
    · have := haccounts.old u hold
      have := hle u hold
      omega
    · exact (haccounts.new u hu hold).le

theorem conserved_reachable (h : (poolMachine.guard losesNothing).Reachable s) : s.Conserved := by
  obtain ⟨acts, hrun⟩ := h
  refine hrun.invariant (I := fun _ s => s.Conserved) ?_ ?_
  · intro s hinit
    obtain ⟨base, rfl⟩ := hinit
    exact (init_accounts base).2
  · intro acts s a s' hrun hconserved hn u hu
    obtain ⟨hkeeps, hn⟩ := Machine.guard_next.mp hn
    have haccounts := next_accounts (pool_reachable ⟨acts, hrun.of_guard⟩).1 hn
    by_cases hold : IsBlock s.regions u
    · have hsame := haccounts.old u hold
      rw [of_decide_eq_true hkeeps, covering_nil, Nat.add_zero] at hsame
      rw [hsame, hconserved u hold]
    · exact haccounts.new u hu hold

theorem IsBlock.mono {more : List Region} (h : IsBlock regions u) (hsub : regions ⊆ more) : IsBlock more u := by
  obtain ⟨r, hr, hrest⟩ := h
  exact ⟨r, hsub hr, hrest⟩

theorem Lies.isBlock (h : Lies regions t n) : IsBlock regions n.start ∧ n.covers t n.start := by
  obtain ⟨r, hr, rfl, k, m, hm, hstart, hlen, hsize⟩ := h
  have hle : blockSize r.blockType ≤ m * blockSize r.blockType := Nat.le_mul_of_pos_left _ hm
  rw [Nat.add_mul] at hsize
  refine ⟨⟨r, hr, k, hstart, ?_⟩, decide_eq_true ⟨le_rfl, by omega⟩⟩
  rw [Nat.add_mul]
  omega

/-- The blocks in callers' hands are different ones. -/
theorem handedOut_nodup (hinv : PoolInv s) (hle : ∀ u, IsBlock s.regions u → s.holders u ≤ 1) :
    (s.handedOut.map (·.start)).Nodup := by
  apply nodup_iff_count_le_one.mpr
  intro u
  by_cases hmem : u ∈ s.handedOut.map (·.start)
  · obtain ⟨b, hb, rfl⟩ := mem_map.mp hmem
    obtain ⟨r, hr, _, k, hstart, hsize⟩ := hinv.lent b hb
    have hone := hle b.start ⟨r, hr, k, hstart, hsize⟩
    have hcount : (s.handedOut.map (·.start)).count b.start = s.handedOut.countP (fun x => x.start = b.start) := by
      rw [count, countP_map]
      rfl
    rw [Pool.holders] at hone
    omega
  · rw [count_eq_zero_of_not_mem hmem]
    omega

end

/-- **Block pool conservation.** No block is handed out twice and a block is as large as the
    request, in every run. No block is lost in every run whose steps leave none behind, and
    any other step loses one. -/
theorem blocks_conserved (s : Pool) :
    ((poolMachine.guard losesNothing).Reachable s → s.Conserved) ∧
    (poolMachine.Reachable s → (s.handedOut.map (·.start)).Nodup ∧
      ∀ b ∈ s.handedOut, ∃ r ∈ s.regions, r.start ≤ b.start ∧ b.start + blockSize r.blockType ≤ r.start + r.size ∧
        b.len ≤ blockSize r.blockType) ∧
    ∀ a s', (poolMachine.guard losesNothing).Reachable s → losesNothing s a = false →
      poolMachine.next s a = some s' → ¬s'.Conserved := by
  refine ⟨conserved_reachable, ?_, ?_⟩
  · intro hreach
    obtain ⟨hinv, hle⟩ := pool_reachable hreach
    refine ⟨handedOut_nodup hinv hle, fun b hb => ?_⟩
    obtain ⟨r, hr, hlen, k, hstart, hsize⟩ := hinv.lent b hb
    rw [Nat.add_mul] at hsize
    exact ⟨r, hr, by omega, by omega, hlen⟩
  · intro a s' hreach hloses hn hconserved
    have hinv := (pool_reachable hreach.of_guard).1
    have haccounts := next_accounts hinv hn
    obtain ⟨n, hn⟩ := List.exists_mem_of_ne_nil _ (of_decide_eq_false hloses)
    obtain ⟨hblock, hcovers⟩ := (risk_lies hinv a n hn).isBlock
    have hpos : 0 < covering BLOCK_DEFAULT n.start (s.risk a) := List.countP_pos_iff.mpr ⟨n, hn, hcovers⟩
    have hold := haccounts.old n.start hblock
    have hbefore := conserved_reachable hreach n.start hblock
    have hafter := hconserved n.start (hblock.mono haccounts.grows)
    omega

/-- A thread allocates two blocks from one bucket, frees both and exits. -/
def twoBlocks : List Act :=
  [.spawn, .alloc 0 100 firstBucket, .extend 0 0, .take 0, .alloc 0 100 firstBucket, .take 0, .dealloc 0 ⟨4096, 100⟩,
   .dealloc 0 ⟨12288, 100⟩, .exit 0, .recycle 0, .recycle 0, .recycle 0, .terminate 0]

/-- Another thread allocates one of them, gets the other one into its list, and exits without
    ever having freed a block. -/
def lostCache : List Act := twoBlocks ++ [.spawn, .alloc 1 100 firstBucket, .take 1, .exit 1, .terminate 1]

theorem cached_block_lost : ∃ s, poolMachine.Run lostCache s ∧ ¬s.Conserved := by
  have hexec : ∃ s, poolMachine.Run lostCache s ∧ s.regions = [⟨4096, regionSize 0, 0⟩] ∧ s.holders 12288 = 0 :=
    Machine.exists_run ⟨4096, rfl⟩ (by decide +kernel)
  obtain ⟨s, hrun, hregions, hnone⟩ := hexec
  refine ⟨s, hrun, fun hconserved => ?_⟩
  have hblock : IsBlock s.regions 12288 := by
    rw [hregions]
    exact ⟨_, List.mem_cons_self, 1, rfl, by decide⟩
  have hone := hconserved 12288 hblock
  omega

theorem twoBlocks_conserved : ∃ s, (poolMachine.guard losesNothing).Run (twoBlocks.take 7) s ∧
    s.handedOut = [⟨12288, 100⟩] ∧ s.Conserved ∧ (s.handedOut.map (·.start)).Nodup := by
  have hexec : ∃ s, (poolMachine.guard losesNothing).Run (twoBlocks.take 7) s ∧ s.handedOut = [⟨12288, 100⟩] :=
    Machine.exists_run ⟨4096, rfl⟩ (by decide +kernel)
  obtain ⟨s, hrun, hlent⟩ := hexec
  have hreach : (poolMachine.guard losesNothing).Reachable s := ⟨_, hrun⟩
  exact ⟨s, hrun, hlent, (blocks_conserved s).1 hreach, ((blocks_conserved s).2.1 hreach.of_guard).1⟩

end LightRpc.BlockPool

import LightRpc.BlockPoolSafety
import LightRpc.Lib.Locks

/- The block pool from the start of the process on.

   Around the pool of `BlockPool` this has the global pointers (`g_pd`, `g_mrs`, `g_info`), the
   calls `SetGlobalPD` and `InitBlockPool` a run starts with, and an outcome for every extension:
   `posix_memalign` may fail, `ibv_reg_mr` may fail, and the key of a registered region may be 0,
   which the caller takes for a failure. A null pointer that is dereferenced or a CHECK that fails
   crashes the process.

   `g_mrs` starts as what `processMachine` is given. In the source that is NULL, no code ever
   assigns it, and `RdmaRegisterMemory` pushes into it: the first registration that succeeds
   crashes. Everything else is safe, with `g_mrs` allocated or as long as no registration succeeds.
   The invariant `Held` says that a thread in `AllocBlockFrom` has its bucket's lock for itself,
   so that the list it found or filled is still there when it takes a block. -/
namespace LightRpc.BlockPool

open Lib Function Option

variable {b : Bucket} {len : Nat} {s : Pool}

/-- How far the process has come with `SetGlobalPD` and `InitBlockPool`. -/
inductive Stage where
  | boot
  | pdSet
  | started
  deriving DecidableEq

structure Process where
  stage : Stage
  gPd : Option Nat
  /-- The keys of the registered regions; `none` for a null pointer. -/
  gMrs : Option (List Nat)
  /-- `g_info` is not null. What it points to is part of `pool`. -/
  gInfo : Bool
  pool : Pool
  /-- The threads whose `BlockAllocate` returned null, the last one first. -/
  nulls : List Nat

/-- What `posix_memalign` and `ibv_reg_mr` do in an extension. `mr` is the key, `none` for a
    registration that fails. -/
inductive Extension where
  | noMemory
  | memory (base : Nat) (mr : Option Nat)
  deriving DecidableEq

/-- Memory that is allocated is not at null and overlaps no region. -/
def Extension.allowed (regions : List Region) (t : BlockType) : Extension → Bool
  | .noMemory => true
  | .memory base _ => 0 < base ∧ fresh regions t base

/-- The extension fails: there is no memory, there are 16 regions already, the registration fails
    or its key is 0. -/
def Extension.fails (regions : List Region) : Extension → Bool
  | .noMemory => true
  | .memory _ mr => RDMA_MEMPOOL_MAX_REGIONS = regions.length ∨ mr = none ∨ mr = some 0

namespace Process

def boot (gMrs : Option (List Nat)) : Process :=
  ⟨.boot, none, gMrs, false, ⟨[], fun _ => [], fun _ => [], fun _ => false, [], [], false⟩, []⟩

def crash (p : Process) : Process := { p with pool := p.pool.crash }

def setGlobalPD (p : Process) (pd : Nat) : Process := { p with gPd := some pd }

/-- The key that is returned, or nothing for a null pointer dereferenced. -/
def rdmaRegisterMemory (p : Process) : Option Nat → Option (Process × Nat)
  | none => some (p, 0)
  | some lkey =>
    match p.gMrs with
    | none => none
    | some mrs => some ({ p with gMrs := some (mrs ++ [lkey]) }, lkey)

/-- The address that is returned, 0 for null. -/
def extendBlockPoolImpl (p : Process) (base : Nat) (mr : Option Nat) (t : BlockType) : Option (Process × Nat) :=
  if p.pool.regions.length = RDMA_MEMPOOL_MAX_REGIONS then some (p, 0)
  else
    match p.rdmaRegisterMemory mr with
    | none => none
    | some (p, id) =>
      if id = 0 then some (p, 0)
      else if p.gInfo then some ({ p with pool := p.pool.extendBlockPool t base }, base)
      else none

def extendBlockPool (p : Process) (t : BlockType) : Extension → Option (Process × Nat)
  | .noMemory => some (p, 0)
  | .memory base mr => p.extendBlockPoolImpl base mr t

/-- `g_info = new GlobalInfo()`, with its vectors resized. -/
def newInfo (p : Process) : Process :=
  { p with
    gInfo := true
    pool := { p.pool with idleList := fun _ => [], expansionList := fun _ => [], lock := fun _ => false } }

/-- What is returned is left out: nothing depends on it. -/
def initBlockPool (p : Process) (e : Extension) : Process :=
  if p.gPd = none then p
  else if 0 < p.pool.regions.length then p
  else
    match p.newInfo.extendBlockPool BLOCK_DEFAULT e with
    | none => p.newInfo.crash
    | some (p, _) => p

/-- `MoveExpansionList2EmptyIdleList`, with its CHECK. -/
def moveExpansionList (p : Process) (b : Bucket) : Process :=
  if p.pool.idleList b = [] then { p with pool := p.pool.moveExpansionList2EmptyIdleList b } else p.crash

def setThread (p : Process) (i : Nat) (th : Thread) : Process := { p with pool := p.pool.setThread i th }

/-- `AllocBlockFrom` returns null, and with it `BlockAllocate`. -/
def returnNull (p : Process) (i : Nat) (th : Thread) (b : Bucket) : Process :=
  { p with pool := (p.pool.setThread i (th.goto .idle)).setLock b false, nulls := i :: p.nulls }

/-- The section under `extend_lock`. -/
def extend (p : Process) (i : Nat) (th : Thread) (b : Bucket) (len : Nat) (e : Extension) : Option Process :=
  if p.gInfo = false then some p.crash
  else if p.pool.idleList b ≠ [] then none
  else if p.pool.expansionList b ≠ [] then some ((p.moveExpansionList b).setThread i (th.goto (.extended b len)))
  else if e.allowed p.pool.regions b.1 then
    match p.extendBlockPool b.1 e with
    | none => some p.crash
    | some (p, 0) => some (p.returnNull i th b)
    | some (p, _ + 1) => some ((p.moveExpansionList b).setThread i (th.goto (.extended b len)))
  else none

end Process

/-- The step dereferences `g_info`. -/
def Pool.usesInfo (s : Pool) (th : Thread) : Act → Bool
  | .alloc _ len _ =>
    match typeFor len with
    | none => false
    | some t => t ≠ BLOCK_DEFAULT ∨ th.tlsIdleList = []
  | .take _ => true
  | .dealloc _ block =>
    match s.getRegion block.start with
    | none => false
    | some r => r.blockType ≠ BLOCK_DEFAULT ∨ RDMA_MEMPOOL_TLS_CACHE_NUM ≤ th.tlsIdleNum
  | .recycle _ =>
    match th.tlsIdleList with
    | [] => false
    | node :: _ => (s.getRegion node.start).isSome
  | _ => false

inductive Call where
  | setGlobalPD (pd : Nat)
  | initBlockPool (e : Extension)
  | extend (i : Nat) (e : Extension)
  /-- A step of the pool other than an extension. -/
  | pool (a : Act)
  deriving DecidableEq

namespace Process

/-- A step of `BlockPool`, with the pointer it needs and with what `BlockAllocate` returns. -/
def poolStep (p : Process) (a : Act) : Option Process :=
  match p.pool.next a with
  | none => none
  | some s =>
    if p.gInfo = false ∧ (p.pool.threads[a.thread]?).any (p.pool.usesInfo · a) then some p.crash
    else
      match a with
      | .alloc i len _ => some { p with pool := s, nulls := if typeFor len = none then i :: p.nulls else p.nulls }
      | .extend _ _ => none
      | _ => some { p with pool := s }

def next (p : Process) (c : Call) : Option Process :=
  if p.pool.crashed then none
  else
    match c with
    | .setGlobalPD pd => if p.stage = .boot then some { p.setGlobalPD pd with stage := .pdSet } else none
    | .initBlockPool e =>
      if p.stage = .pdSet ∧ e.allowed p.pool.regions BLOCK_DEFAULT then
        some { p.initBlockPool e with stage := .started }
      else none
    | .extend i e =>
      if p.stage = .started then
        (p.pool.threads[i]?).bind fun th =>
          match th.pc with
          | .locked b len => p.extend i th b len e
          | _ => none
      else none
    | .pool a => if p.stage = .started then p.poolStep a else none

end Process

/-- Runs start with `SetGlobalPD` and `InitBlockPool`; `gMrs` is what `g_mrs` is at first. -/
def processMachine (gMrs : Option (List Nat)) : Machine Process Call where
  init := (· = Process.boot gMrs)
  next := Process.next

/-- A registration succeeds only while `g_mrs` is not null. -/
def mrsAllocated (p : Process) : Call → Bool
  | .initBlockPool (.memory _ (some _)) | .extend _ (.memory _ (some _)) => p.gMrs.isSome
  | _ => true

/-- The bucket whose lock the thread has. -/
@[simp] def Pc.bucket : Pc → Option Bucket
  | .locked b _ | .extended b _ => some b
  | _ => none

/-- A thread has its bucket's lock for itself, and the list it filled is not empty. -/
structure Held (s : Pool) : Prop where
  owned : ∀ (i : Nat) th b, s.threads[i]? = some th → th.pc.bucket = some b → s.lock b = true
  alone : ∀ (i j : Nat) th th' b, s.threads[i]? = some th → s.threads[j]? = some th' → th.pc.bucket = some b →
    th'.pc.bucket = some b → i = j
  filled : ∀ (i : Nat) th b len, s.threads[i]? = some th → th.pc = .extended b len → s.idleList b ≠ []
  few : ∀ (i : Nat) th, s.threads[i]? = some th → th.tlsIdleNum ≤ RDMA_MEMPOOL_TLS_CACHE_NUM
  fine : s.crashed = false

section
variable {s s' : Pool} {i : Nat} {th th' : Thread}

/-- The thread `i` moves. It takes only a lock that is free, and leaves a bucket alone that
    another thread has locked. -/
theorem Held.move (h : Held s) (hi : s.threads[i]? = some th) (hthreads : s'.threads = s.threads.set i th')
    (hmine : ∀ b, th'.pc.bucket = some b → s'.lock b ∧ (th.pc.bucket = some b ∨ s.lock b = false))
    (hothers : ∀ b, th.pc.bucket ≠ some b → s.lock b → s'.lock b ∧ s'.idleList b = s.idleList b)
    (hfilled : ∀ b len, th'.pc = .extended b len → s'.idleList b ≠ [])
    (hfew : th'.tlsIdleNum ≤ RDMA_MEMPOOL_TLS_CACHE_NUM) (hfine : s'.crashed = false) : Held s' := by
  -- what another thread has stays
  have hkeeps : ∀ (j : Nat) x b, j ≠ i → s.threads[j]? = some x → x.pc.bucket = some b →
      s'.lock b = true ∧ s'.idleList b = s.idleList b := by
    intro j x b hne hx hb
    apply hothers b
    · intro hth
      exact hne (h.alone j i x th b hx hi hb hth)
    · exact h.owned j x b hx hb
  have hnotMine : ∀ (j : Nat) x b, j ≠ i → s.threads[j]? = some x → x.pc.bucket = some b →
      th'.pc.bucket ≠ some b := by
    intro j x b hne hx hb hth'
    rcases (hmine b hth').2 with hth | hfree
    · exact hne (h.alone j i x th b hx hi hb hth)
    · have := h.owned j x b hx hb
      rw [hfree] at this
      cases this
  have hget : ∀ (j : Nat) x, s'.threads[j]? = some x → j = i ∧ x = th' ∨ j ≠ i ∧ s.threads[j]? = some x := by
    intro j x hx
    rw [hthreads] at hx
    by_cases hj : j = i
    · subst hj
      exact .inl ⟨rfl, Locks.self_set hx⟩
    · exact .inr ⟨hj, Locks.other_set hj hx⟩
  refine ⟨?_, ?_, ?_, ?_, hfine⟩
  · intro j x b hx hb
    rcases hget j x hx with ⟨rfl, rfl⟩ | ⟨hj, hx⟩
    · exact (hmine b hb).1
    · exact (hkeeps j x b hj hx hb).1
  · intro j k x y b hx hy hbx hby
    rcases hget j x hx with ⟨rfl, rfl⟩ | ⟨hj, hx⟩
    · rcases hget k y hy with ⟨rfl, rfl⟩ | ⟨hk, hy⟩
      · rfl
      · exact absurd hbx (hnotMine k y b hk hy hby)
    · rcases hget k y hy with ⟨rfl, rfl⟩ | ⟨hk, hy⟩
      · exact absurd hby (hnotMine j x b hj hx hbx)
      · exact h.alone j k x y b hx hy hbx hby
  · intro j x b len hx hpc
    rcases hget j x hx with ⟨rfl, rfl⟩ | ⟨hj, hx⟩
    · exact hfilled b len hpc
    · rw [(hkeeps j x b hj hx (by rw [hpc]; rfl)).2]
      exact h.filled j x b len hx hpc
  · intro j x hx
    rcases hget j x hx with ⟨rfl, rfl⟩ | ⟨hj, hx⟩
    · exact hfew
    · exact h.few j x hx

/-- The thread is in no bucket and enters none. -/
theorem Held.stay (h : Held s) (hi : s.threads[i]? = some th) (hthreads : s'.threads = s.threads.set i th')
    (hpc : th'.pc.bucket = none) (hlock : s'.lock = s.lock) (hidle : ∀ b, s.lock b → s'.idleList b = s.idleList b)
    (hfew : th'.tlsIdleNum ≤ RDMA_MEMPOOL_TLS_CACHE_NUM) (hfine : s'.crashed = false) : Held s' := by
  refine h.move hi hthreads ?_ ?_ ?_ hfew hfine
  · intro b hb
    rw [hpc] at hb
    cases hb
  · intro b _ hb
    rw [hlock]
    exact ⟨hb, hidle b hb⟩
  · intro b len hx
    rw [hx] at hpc
    cases hpc

theorem update_free {c : Bucket} {l : List IdleNode} (hfree : ¬ s.lock c) (hb : s.lock b) :
    (s.setIdle c l).idleList b = s.idleList b := by
  apply update_of_ne
  rintro rfl
  exact hfree hb

/-! One lemma for each step. -/

theorem alloc_held (h : Held s) (hi : s.threads[i]? = some th) (hpc : th.pc = .idle) {index : Fin 4}
    (hn : s.alloc i th len index = some s') : Held s' := by
  have hfew := h.few i th hi
  revert hn
  fun_cases Pool.alloc s i th len index <;> intro hn <;> cases hn
  case case1 => exact h
  case case2 node rest hlist htype =>
    refine h.stay hi rfl (by rw [Thread.cache, hpc]; rfl) rfl (fun _ _ => rfl) ?_ h.fine
    exact Nat.le_trans (Nat.sub_le _ _) hfew
  case case4 t hfree hmatch htype =>
    refine h.move hi rfl ?_ ?_ ?_ hfew h.fine
    · intro b hb
      cases hb
      exact ⟨update_self .., .inr (Bool.eq_false_iff.mpr hfree)⟩
    · intro b _ hb
      refine ⟨?_, rfl⟩
      show update s.lock (t, index) true b = true
      rw [update_apply, hb, ite_self]
    · intro b len hx
      cases hx

theorem refill_few (list : List IdleNode) : (refill 0 list).2.2 ≤ RDMA_MEMPOOL_TLS_CACHE_NUM := by
  have hmoved : ∀ num, num ≤ 64 → (moveSingles num list).1 ≤ 64 := by
    induction list with
    | nil => exact fun num hnum => hnum
    | cons n rest ih =>
      intro num hnum
      have hhalf : RDMA_MEMPOOL_TLS_CACHE_NUM / 2 = 64 := rfl
      rw [moveSingles]
      split
      · exact hnum
      · next hgo => exact ih (num + 1) (by omega)
  have hle := hmoved 0 (by omega)
  have hmax : RDMA_MEMPOOL_TLS_CACHE_NUM = 128 := rfl
  rw [refill]
  split
  · exact Nat.zero_le _
  · dsimp only
    omega

theorem take_held (h : Held s) (hinv : PoolInv s) (hi : s.threads[i]? = some th)
    (hpc : th.pc = .locked b len ∨ th.pc = .extended b len) (hne : s.idleList b ≠ []) : Held (s.take i th b len) := by
  have hfew := h.few i th hi
  have hin : th.pc.bucket = some b := by
    rcases hpc with hpc | hpc <;> rw [hpc] <;> rfl
  have hth := hinv.threads th (List.mem_of_getElem? hi)
  have hothers : ∀ (s' : Pool) l, s'.lock = update s.lock b false → s'.idleList = update s.idleList b l →
      ∀ c, th.pc.bucket ≠ some c → s.lock c = true → s'.lock c = true ∧ s'.idleList c = s.idleList c := by
    intro s' l hlock hidle c hc hheld
    have hcb : c ≠ b := by
      rintro rfl
      exact hc hin
    rw [hlock, hidle, update_of_ne hcb, update_of_ne hcb]
    exact ⟨hheld, rfl⟩
  unfold Pool.take
  cases hidle : s.idleList b with
  | nil => exact absurd hidle hne
  | cons node rest =>
    dsimp only
    split
    · next hdefault =>
      have hbusy : th.pc ≠ .recycling := by
        intro hx
        rw [hx] at hin
        cases hin
      have hnum : th.tlsIdleNum = 0 := by
        rw [hth.counted hbusy, (hth.request b len hpc).2 hdefault]
        rfl
      rw [hnum]
      refine h.move hi rfl ?_ (hothers _ _ rfl rfl) ?_ (refill_few _) h.fine
      · intro c hc
        cases hc
      · intro c len hx
        cases hx
    · refine h.move hi rfl ?_ (hothers _ _ rfl rfl) ?_ hfew h.fine
      · intro c hc
        cases hc
      · intro c len hx
        cases hx

theorem dealloc_held (h : Held s) (hinv : PoolInv s) (hi : s.threads[i]? = some th) (hpc : th.pc = .idle) {block : Block}
    (hn : s.dealloc i th block = some s') : Held s' := by
  have hfew := h.few i th hi
  have hcount := (hinv.threads th (List.mem_of_getElem? hi)).counted_idle hpc
  have hmax : RDMA_MEMPOOL_TLS_CACHE_NUM = 128 := rfl
  have hout : th.pc.bucket = none := by rw [hpc]; rfl
  revert hn
  fun_cases Pool.dealloc s i th block <;> intro hn <;> cases hn
  case case1 => exact h
  case case2 r _ node hcache =>
    exact h.stay hi rfl hout rfl (fun _ _ => rfl) hcache.2 h.fine
  case case4 r _ _ hfull _ hdefault cnt hshort =>
    -- the walk over 64 nodes finds them: the list has 128
    exfalso
    have hmany : ¬th.tlsIdleNum < RDMA_MEMPOOL_TLS_CACHE_NUM := fun hlt => hfull ⟨hdefault, hlt⟩
    have hcnt : cnt = 64 := rfl
    omega
  case case5 r _ node b _ hfree hdefault cnt hmany =>
    refine h.stay hi rfl hout rfl (fun c hc => ?_) (Nat.le_trans (Nat.sub_le _ _) hfew) h.fine
    exact update_free (s := s.giveBack block) hfree hc
  case case6 r _ node b _ hfree _ =>
    refine h.stay hi (Locks.set_same hi).symm hout rfl (fun c hc => ?_) hfew h.fine
    exact update_free (s := s.giveBack block) hfree hc

theorem recycle_held (h : Held s) (hi : s.threads[i]? = some th) (hpc : th.pc = .recycling)
    (hn : s.recycle i th = some s') : Held s' := by
  have hfew := h.few i th hi
  have hout : th.pc.bucket = none := by rw [hpc]; rfl
  revert hn
  fun_cases Pool.recycle s i th <;> intro hn <;> cases hn
  case case1 => exact h.stay hi rfl rfl rfl (fun _ _ => rfl) (Nat.zero_le _) h.fine
  case case2 => exact h.stay hi rfl hout rfl (fun _ _ => rfl) hfew h.fine
  case case4 node rest hlist r _ b hfree =>
    exact h.stay hi rfl hout rfl (fun c hc => update_free hfree hc) hfew h.fine

theorem spawn_held (h : Held s) : Held { s with threads := s.threads ++ [⟨[], 0, false, .idle, .running⟩] } := by
  refine ⟨?_, ?_, ?_, ?_, h.fine⟩
  · intro j x b hx hb
    rcases Locks.get_concat hx with hx | rfl
    · exact h.owned j x b hx hb
    · cases hb
  · intro j k x y b hx hy hbx hby
    rcases Locks.get_concat hx with hx | rfl
    · rcases Locks.get_concat hy with hy | rfl
      · exact h.alone j k x y b hx hy hbx hby
      · cases hby
    · cases hbx
  · intro j x b len hx hpc
    rcases Locks.get_concat hx with hx | rfl
    · exact h.filled j x b len hx hpc
    · cases hpc
  · intro j x hx
    rcases Locks.get_concat hx with hx | rfl
    · exact h.few j x hx
    · exact Nat.zero_le _

/-- Any step but an extension. -/
theorem next_held (h : Held s) (hinv : PoolInv s) {a : Act} (hext : ∀ i base, a ≠ .extend i base)
    (hn : s.next a = some s') : Held s' := by
  by_cases hspawn : a = .spawn
  · subst hspawn
    cases hn
    exact spawn_held h
  replace hn : ∃ th, s.threads[a.thread]? = some th ∧ s.step th a = some s' := by
    cases a <;> first | exact absurd rfl hspawn | exact bind_eq_some_iff.mp hn
  obtain ⟨th, hi, hn⟩ := hn
  clear hspawn
  revert hext hi hn
  fun_cases Pool.step s th a <;> intro hext hi hn
  case case2 hidle => exact alloc_held h hi hidle.1 hn
  case case4 i base _ _ _ => exact absurd rfl (hext i base)
  case case7 hpc hne =>
    cases hn
    exact take_held h hinv hi (.inl hpc) hne
  case case8 i b len hpc =>
    cases hn
    exact take_held h hinv hi (.inr hpc) (h.filled i th b len hi hpc)
  case case10 hcall => exact dealloc_held h hinv hi hcall.1 hn
  case case12 i _ =>
    cases hn
    refine h.stay hi rfl ?_ rfl (fun _ _ => rfl) (h.few i th hi) h.fine
    rw [Thread.goto]
    dsimp only
    split <;> rfl
  case case14 hpc => exact recycle_held h hi hpc hn
  case case16 i hidle =>
    cases hn
    exact h.stay hi rfl (by rw [Thread.setLife, hidle.1]; rfl) rfl (fun _ _ => rfl) (h.few i th hi) h.fine
  all_goals cases hn

end

/-! The process. -/

/-- What holds in every state of a run. -/
structure Sound (p : Process) : Prop where
  inv : PoolInv p.pool
  held : Held p.pool
  pd : p.stage ≠ .boot → p.gPd ≠ none
  info : p.stage = .started → p.gInfo = true
  new : p.stage ≠ .started → p.pool.regions = [] ∧ p.pool.threads = [] ∧ p.pool.handedOut = [] ∧
    p.pool.idleList = (fun _ => []) ∧ p.pool.expansionList = fun _ => []

section
variable {p p' : Process} {e : Extension} {t : BlockType} {i : Nat} {th : Thread}

/-- The registration goes through if `g_mrs` is there for it. -/
theorem register_some (p : Process) (mr : Option Nat) (hmrs : mr ≠ none → p.gMrs.isSome) :
    ∃ mrs, p.rdmaRegisterMemory mr = some ({ p with gMrs := mrs }, mr.getD 0) := by
  cases mr with
  | none => exact ⟨p.gMrs, rfl⟩
  | some lkey =>
    obtain ⟨mrs, hsome⟩ := isSome_iff_exists.mp (hmrs (some_ne_none lkey))
    refine ⟨some (mrs ++ [lkey]), ?_⟩
    rw [Process.rdmaRegisterMemory, hsome]
    rfl

/-- `g_mrs` is there if the extension registers memory. -/
def Process.Registers (p : Process) (e : Extension) : Prop := ∀ base lkey, e = .memory base (some lkey) → p.gMrs.isSome = true

/-- What an extension does: it fails and changes no list, or adds a region. -/
theorem extendBlockPool_cases (hinfo : p.gInfo) (hmrs : p.Registers e) (hallowed : e.allowed p.pool.regions t) :
    ∃ mrs, (e.fails p.pool.regions ∧ p.extendBlockPool t e = some ({ p with gMrs := mrs }, 0)) ∨
      e.fails p.pool.regions = false ∧ ∃ base, fresh p.pool.regions t base = true ∧ 0 < base ∧
        p.extendBlockPool t e = some ({ p with gMrs := mrs, pool := p.pool.extendBlockPool t base }, base) := by
  cases e with
  | noMemory => exact ⟨p.gMrs, .inl ⟨rfl, rfl⟩⟩
  | memory base mr =>
    rw [Process.extendBlockPool, Process.extendBlockPoolImpl]
    by_cases hfull : p.pool.regions.length = RDMA_MEMPOOL_MAX_REGIONS
    · rw [if_pos hfull]
      exact ⟨p.gMrs, .inl ⟨decide_eq_true (.inl hfull.symm), rfl⟩⟩
    · obtain ⟨mrs, hreg⟩ := register_some p mr fun hne => by
        obtain ⟨lkey, rfl⟩ := ne_none_iff_exists'.mp hne
        exact hmrs base lkey rfl
      rw [if_neg hfull, hreg]
      refine ⟨mrs, ?_⟩
      by_cases hid : mr.getD 0 = 0
      · refine .inl ⟨decide_eq_true (.inr ?_), if_pos hid⟩
        cases mr with
        | none => exact .inl rfl
        | some lkey => exact .inr (congrArg some hid)
      · obtain ⟨hpos, hfresh⟩ := of_decide_eq_true hallowed
        refine .inr ⟨decide_eq_false ?_, base, hfresh, hpos, ?_⟩
        · rintro (hmax | rfl | rfl)
          · exact hfull hmax.symm
          · exact hid rfl
          · exact hid rfl
        · dsimp only
          rw [if_neg hid, if_pos hinfo]

/-- The lists of a pool are the same. -/
def SameLists (s s' : Pool) : Prop :=
  s'.idleList = s.idleList ∧ s'.expansionList = s.expansionList ∧
    s'.threads.map (·.tlsIdleList) = s.threads.map (·.tlsIdleList)

theorem move_filled (hne : s.expansionList b ≠ []) : (s.moveExpansionList2EmptyIdleList b).idleList b ≠ [] := by
  show update s.idleList b (s.expansionList b) b ≠ []
  rwa [update_self]

/-- The section under `extend_lock` that fills the bucket. -/
theorem fill_held {s' : Pool} (h : Held s) (hi : s.threads[i]? = some th) (hpc : th.pc = .locked b len)
    (hthreads : s'.threads = s.threads) (hlock : s'.lock = s.lock) (hidle : s'.idleList = s.idleList)
    (hfine : s'.crashed = s.crashed) (hne : s'.expansionList b ≠ []) :
    Held ((s'.moveExpansionList2EmptyIdleList b).setThread i (th.goto (.extended b len))) := by
  have hin : th.pc.bucket = some b := by rw [hpc]; rfl
  refine h.move hi (congrArg (List.set · i _) hthreads) ?_ ?_ ?_ (h.few i th hi) (hfine.trans h.fine)
  · intro c hc
    cases hc
    refine ⟨?_, .inl hin⟩
    show s'.lock b = true
    rw [hlock]
    exact h.owned i th b hi hin
  · intro c hc hheld
    have hcb : c ≠ b := by
      rintro rfl
      exact hc hin
    refine ⟨?_, ?_⟩
    · show s'.lock c = true
      rw [hlock, hheld]
    · show update s'.idleList b (s'.expansionList b) c = s.idleList c
      rw [update_of_ne hcb, hidle]
  · intro c len' hx
    cases hx
    exact move_filled hne

/-- A thread whose extension failed gives the lock back. -/
theorem fail_held (h : Held s) (hi : s.threads[i]? = some th) (hpc : th.pc = .locked b len) :
    Held ((s.setThread i (th.goto .idle)).setLock b false) := by
  have hin : th.pc.bucket = some b := by rw [hpc]; rfl
  refine h.move hi rfl ?_ ?_ ?_ (h.few i th hi) h.fine
  · intro c hc
    cases hc
  · intro c hc hheld
    have hcb : c ≠ b := by
      rintro rfl
      exact hc hin
    refine ⟨?_, rfl⟩
    show update s.lock b false c = true
    rw [update_of_ne hcb, hheld]
  · intro c len' hx
    cases hx

theorem extend_expansion (s : Pool) (b : Bucket) (base : Nat) : (s.extendBlockPool b.1 base).expansionList b ≠ [] := by
  show (if b.1 = b.1 then _ else _) ≠ []
  rw [if_pos rfl]
  exact List.cons_ne_nil _ _

/-- What the section under `extend_lock` does to a process that is sound. -/
theorem extend_cases (h : Sound p) (hstage : p.stage = .started) (hmrs : p.Registers e)
    (hn : p.extend i th b len e = some p') :
    p.pool.idleList b = [] ∧
    ((p.pool.expansionList b ≠ [] ∧
        p' = { p with pool := (p.pool.moveExpansionList2EmptyIdleList b).setThread i (th.goto (.extended b len)) }) ∨
      (p.pool.expansionList b = [] ∧ e.fails p.pool.regions = true ∧
        ∃ mrs, p' = { p with
          gMrs := mrs
          pool := (p.pool.setThread i (th.goto .idle)).setLock b false
          nulls := i :: p.nulls }) ∨
      p.pool.expansionList b = [] ∧ e.fails p.pool.regions = false ∧ ∃ mrs base, fresh p.pool.regions b.1 base = true ∧
        p' = { p with
          gMrs := mrs
          pool := ((p.pool.extendBlockPool b.1 base).moveExpansionList2EmptyIdleList b).setThread i
            (th.goto (.extended b len)) }) := by
  have hinfo := h.info hstage
  rw [Process.extend, if_neg (by simp [hinfo])] at hn
  obtain ⟨hidle, hn⟩ := ite_none_left_eq_some.mp hn
  have hidle : p.pool.idleList b = [] := not_not.mp hidle
  refine ⟨hidle, ?_⟩
  by_cases hexp : p.pool.expansionList b ≠ []
  · rw [if_pos hexp, Process.moveExpansionList, if_pos hidle] at hn
    exact .inl ⟨hexp, (some.inj hn).symm⟩
  · rw [if_neg hexp] at hn
    obtain ⟨hallowed, hn⟩ := ite_none_right_eq_some.mp hn
    have hexp : p.pool.expansionList b = [] := not_not.mp hexp
    obtain ⟨mrs, ⟨hfails, heq⟩ | ⟨hfails, base, hfresh, hpos, heq⟩⟩ := extendBlockPool_cases hinfo hmrs hallowed
    · rw [heq] at hn
      exact .inr (.inl ⟨hexp, hfails, mrs, (some.inj hn).symm⟩)
    · obtain ⟨k, rfl⟩ := Nat.exists_eq_succ_of_ne_zero (Nat.pos_iff_ne_zero.mp hpos)
      rw [heq] at hn
      refine .inr (.inr ⟨hexp, hfails, mrs, k + 1, hfresh, ?_⟩)
      have hempty : (p.pool.extendBlockPool b.1 (k + 1)).idleList b = [] := hidle
      rw [← some.inj hn, Process.moveExpansionList, if_pos hempty]
      rfl

theorem held_empty (hthreads : s.threads = []) (hfine : s.crashed = false) : Held s := by
  have hnone : ∀ (i : Nat) th, s.threads[i]? ≠ some th := by
    intro i th hx
    rw [hthreads] at hx
    cases hx
  refine ⟨?_, ?_, ?_, ?_, hfine⟩
  · intro i th b hi
    exact absurd hi (hnone i th)
  · intro i j th th' b hi
    exact absurd hi (hnone i th)
  · intro i th b len hi
    exact absurd hi (hnone i th)
  · intro i th hi
    exact absurd hi (hnone i th)

theorem inv_empty (hregions : s.regions = []) (hthreads : s.threads = []) (hlent : s.handedOut = [])
    (hidle : ∀ b, s.idleList b = []) (hexpansion : ∀ b, s.expansionList b = []) : PoolInv s := by
  refine ⟨?_, ?_, ?_, ?_, ?_, ?_⟩
  · rw [hregions]
    exact List.Pairwise.nil
  · rw [hregions]
    exact List.forall_mem_nil _
  · intro b
    rw [hidle]
    exact List.forall_mem_nil _
  · intro b
    rw [hexpansion]
    exact List.forall_mem_nil _
  · rw [hthreads]
    exact List.forall_mem_nil _
  · rw [hlent]
    exact List.forall_mem_nil _

/-- `InitBlockPool` after `SetGlobalPD`. -/
theorem initBlockPool_cases (h : Sound p) (hstage : p.stage = .pdSet) (hmrs : p.Registers e)
    (hallowed : e.allowed p.pool.regions BLOCK_DEFAULT) :
    ∃ mrs, (e.fails p.pool.regions ∧ p.initBlockPool e = { p.newInfo with gMrs := mrs }) ∨
      e.fails p.pool.regions = false ∧ ∃ base, fresh p.pool.regions BLOCK_DEFAULT base = true ∧
        p.initBlockPool e = { p.newInfo with gMrs := mrs, pool := p.newInfo.pool.extendBlockPool BLOCK_DEFAULT base } := by
  have hpd : p.gPd ≠ none := h.pd (by rw [hstage]; decide)
  have hnew := h.new (by rw [hstage]; decide)
  have hregions : ¬ 0 < p.pool.regions.length := by
    rw [hnew.1]
    exact Nat.lt_irrefl 0
  rw [Process.initBlockPool, if_neg hpd, if_neg hregions]
  obtain ⟨mrs, ⟨hfails, heq⟩ | ⟨hfails, base, hfresh, _, heq⟩⟩ :=
    extendBlockPool_cases (p := p.newInfo) (t := BLOCK_DEFAULT) rfl hmrs hallowed
  · rw [heq]
    exact ⟨mrs, .inl ⟨hfails, rfl⟩⟩
  · rw [heq]
    exact ⟨mrs, .inr ⟨hfails, base, hfresh, rfl⟩⟩

theorem init_sound (h : Sound p) (hstage : p.stage = .pdSet) (hmrs : p.Registers e)
    (hallowed : e.allowed p.pool.regions BLOCK_DEFAULT) : Sound { p.initBlockPool e with stage := .started } := by
  obtain ⟨hregions, hthreads, hlent, _⟩ := h.new (by rw [hstage]; decide)
  have hpd : p.gPd ≠ none := h.pd (by rw [hstage]; decide)
  have hinv : PoolInv p.newInfo.pool := inv_empty hregions hthreads hlent (fun _ => rfl) fun _ => rfl
  obtain ⟨mrs, ⟨_, heq⟩ | ⟨_, base, hfresh, heq⟩⟩ := initBlockPool_cases h hstage hmrs hallowed
  · rw [heq]
    exact ⟨hinv, held_empty hthreads h.held.fine, fun _ => hpd, fun _ => rfl, fun hne => absurd rfl hne⟩
  · rw [heq]
    exact ⟨extend_inv hinv hfresh, held_empty hthreads h.held.fine, fun _ => hpd, fun _ => rfl, fun hne => absurd rfl hne⟩

/-- In a started process only the pool, `g_mrs` and the list of nulls change. -/
theorem Sound.change (h : Sound p) (hstage : p.stage = .started) (hs : p'.stage = p.stage) (hpd : p'.gPd = p.gPd)
    (hinfo : p'.gInfo = p.gInfo) (hinv : PoolInv p'.pool) (hheld : Held p'.pool) : Sound p' where
  inv := hinv
  held := hheld
  pd := by
    rw [hs, hpd]
    exact h.pd
  info := by
    rw [hs, hinfo]
    exact h.info
  new := by
    intro hne
    rw [hs] at hne
    exact absurd hstage hne

theorem extend_sound (h : Sound p) (hstage : p.stage = .started) (hmrs : p.Registers e)
    (hi : p.pool.threads[i]? = some th) (hpc : th.pc = .locked b len) (hn : p.extend i th b len e = some p') : Sound p' := by
  have hth := h.inv.threads th (List.mem_of_getElem? hi)
  obtain ⟨_, ⟨hexp, rfl⟩ | ⟨_, _, mrs, rfl⟩ | ⟨_, _, mrs, base, hfresh, rfl⟩⟩ := extend_cases h hstage hmrs hn
  · refine h.change hstage rfl rfl rfl ((move_inv h.inv b).setThread (hth.extended hpc)) ?_
    exact fill_held h.held hi hpc rfl rfl rfl rfl hexp
  · refine h.change hstage rfl rfl rfl ?_ (fail_held h.held hi hpc)
    exact (h.inv.setThread (hth.leave (by rw [hpc]; intro hx; cases hx))).setLock _ _
  · have hext := extend_inv h.inv hfresh
    refine h.change hstage rfl rfl rfl ((move_inv hext b).setThread ((hth.extended hpc).mono ?_)) ?_
    · exact List.subset_append_left _ _
    · exact fill_held h.held hi hpc rfl rfl rfl rfl (extend_expansion _ _ _)

theorem poolStep_sound {a : Act} (h : Sound p) (hstage : p.stage = .started) (hn : p.poolStep a = some p') : Sound p' := by
  have hinfo := h.info hstage
  rw [Process.poolStep] at hn
  split at hn
  · cases hn
  · next s hs =>
    rw [if_neg (by simp [hinfo])] at hn
    have hinv := (next_accounts h.inv hs).inv
    cases a with
    | extend i base => cases hn
    | _ =>
      cases hn
      refine h.change hstage rfl rfl rfl hinv (next_held h.held h.inv ?_ hs)
      intro i base hx
      cases hx

theorem sound_reachable {gMrs : Option (List Nat)} (h : ((processMachine gMrs).guard mrsAllocated).Reachable p) :
    Sound p := by
  refine h.invariant (I := Sound) ?_ ?_
  · rintro p rfl
    exact ⟨inv_empty rfl rfl rfl (fun _ => rfl) fun _ => rfl, held_empty rfl rfl, fun hne => absurd rfl hne,
      fun hx => (by cases hx), fun _ => ⟨rfl, rfl, rfl, rfl, rfl⟩⟩
  · intro p c p' hp hn
    obtain ⟨hok, hn⟩ := Machine.guard_next.mp hn
    obtain ⟨_, hn⟩ := ite_none_left_eq_some.mp hn
    cases c with
    | setGlobalPD pd =>
      obtain ⟨hstage, hn⟩ := ite_none_right_eq_some.mp hn
      cases hn
      have hnew := hp.new (by rw [hstage]; decide)
      exact ⟨hp.inv, hp.held, fun _ => some_ne_none pd, fun hx => (by cases hx), fun _ => hnew⟩
    | initBlockPool e =>
      obtain ⟨⟨hstage, hallowed⟩, hn⟩ := ite_none_right_eq_some.mp hn
      cases hn
      refine init_sound hp hstage ?_ hallowed
      rintro base lkey rfl
      exact hok
    | extend i e =>
      obtain ⟨hstage, hn⟩ := ite_none_right_eq_some.mp hn
      obtain ⟨th, hi, hn⟩ := bind_eq_some_iff.mp hn
      split at hn
      · next b len hpc =>
        refine extend_sound hp hstage ?_ hi hpc hn
        rintro base lkey rfl
        exact hok
      · cases hn
    | pool a =>
      obtain ⟨hstage, hn⟩ := ite_none_right_eq_some.mp hn
      exact poolStep_sound hp hstage hn

/-- An allocation whose extension fails. -/
theorem extend_fails (i : Nat) (th : Thread) (len : Nat) (h : Sound p) (hstage : p.stage = .started)
    (hmrs : p.Registers e) (hallowed : e.allowed p.pool.regions b.1) (hfails : e.fails p.pool.regions)
    (hidle : p.pool.idleList b = []) (hexp : p.pool.expansionList b = []) : ∃ mrs, p.extend i th b len e = some { p with
      gMrs := mrs
      pool := (p.pool.setThread i (th.goto .idle)).setLock b false
      nulls := i :: p.nulls } := by
  have hinfo := h.info hstage
  have hidle' : ¬ p.pool.idleList b ≠ [] := not_not.mpr hidle
  have hexp' : ¬ p.pool.expansionList b ≠ [] := not_not.mpr hexp
  rw [Process.extend, if_neg (by simp [hinfo]), if_neg hidle', if_neg hexp', if_pos hallowed]
  obtain ⟨mrs, ⟨_, heq⟩ | ⟨hnot, _⟩⟩ := extendBlockPool_cases hinfo hmrs hallowed
  · rw [heq]
    exact ⟨mrs, rfl⟩
  · rw [hfails] at hnot
    cases hnot

theorem sameLists_leave (s : Pool) (hi : s.threads[i]? = some th) (b : Bucket) :
    SameLists s ((s.setThread i (th.goto .idle)).setLock b false) := by
  refine ⟨rfl, rfl, ?_⟩
  show (s.threads.set i (th.goto .idle)).map (·.tlsIdleList) = s.threads.map (·.tlsIdleList)
  rw [List.map_set]
  apply Locks.set_same
  rw [List.getElem?_map, hi]
  rfl

theorem extends_guarded {gMrs : Option (List Nat)} (h : Sound p) (hstage : p.stage = .started)
    (hi : p.pool.threads[i]? = some th) (hpc : th.pc = .locked b len) (hok : mrsAllocated p (.extend i e)) :
    ((processMachine gMrs).guard mrsAllocated).next p (.extend i e) = p.extend i th b len e := by
  have hfine : ¬ p.pool.crashed = true := by
    rw [h.held.fine]
    exact Bool.false_ne_true
  show (if mrsAllocated p (.extend i e) then p.next (.extend i e) else none) = _
  rw [if_pos hok, Process.next, if_neg hfine, if_pos hstage, hi, bind_some, hpc]

end

/-- **Block pool safety.** While registrations that succeed find `g_mrs` allocated, the process
    does not crash, `g_info` is there once `InitBlockPool` was called, and every thread counts its
    list right and up to 128 (`RecycleAll` apart, which sets the count at its end). An extension
    that fails leaves the lists as they are and lets `BlockAllocate` return null. -/
theorem pool_safe_from_start {gMrs : Option (List Nat)} {p : Process}
    (h : ((processMachine gMrs).guard mrsAllocated).Reachable p) :
    p.pool.crashed = false ∧
    (p.stage = .started → p.gInfo = true) ∧
    (∀ th ∈ p.pool.threads, th.tlsIdleNum ≤ RDMA_MEMPOOL_TLS_CACHE_NUM ∧
      (th.pc ≠ .recycling → th.tlsIdleNum = th.tlsIdleList.length)) ∧
    (∀ i th b len e, p.pool.threads[i]? = some th → th.pc = .locked b len → p.stage = .started →
      p.pool.idleList b = [] → p.pool.expansionList b = [] → e.allowed p.pool.regions b.1 = true →
      e.fails p.pool.regions = true → mrsAllocated p (.extend i e) = true →
      ∃ p', ((processMachine gMrs).guard mrsAllocated).next p (.extend i e) = some p' ∧ SameLists p.pool p'.pool ∧
        p'.pool.handedOut = p.pool.handedOut ∧ p'.nulls = i :: p.nulls) ∧
    ∀ e p', ((processMachine gMrs).guard mrsAllocated).next p (.initBlockPool e) = some p' →
      e.fails p.pool.regions = true → SameLists p.pool p'.pool := by
  have hsound := sound_reachable h
  refine ⟨hsound.held.fine, hsound.info, ?_, ?_, ?_⟩
  · intro th hth
    obtain ⟨i, hi⟩ := List.mem_iff_getElem?.mp hth
    exact ⟨hsound.held.few i th hi, (hsound.inv.threads th hth).counted⟩
  · intro i th b len e hi hpc hstage hidle hexp hallowed hfails hok
    have hmrs : p.Registers e := by
      rintro base lkey rfl
      exact hok
    obtain ⟨mrs, heq⟩ := extend_fails i th len hsound hstage hmrs hallowed hfails hidle hexp
    rw [extends_guarded hsound hstage hi hpc hok]
    exact ⟨_, heq, sameLists_leave p.pool hi b, rfl, rfl⟩
  · intro e p' hn hfails
    obtain ⟨hok, hn⟩ := Machine.guard_next.mp hn
    obtain ⟨_, hn⟩ := Option.ite_none_left_eq_some.mp hn
    obtain ⟨⟨hstage, hallowed⟩, hn⟩ := Option.ite_none_right_eq_some.mp hn
    cases hn
    obtain ⟨_, hthreads, _, hidle, hexp⟩ := hsound.new (by rw [hstage]; decide)
    obtain ⟨mrs, ⟨_, heq⟩ | ⟨hnot, _⟩⟩ := initBlockPool_cases hsound hstage (by rintro base lkey rfl; exact hok) hallowed
    · rw [heq]
      exact ⟨hidle.symm, hexp.symm, rfl⟩
    · rw [hfails] at hnot
      cases hnot

/-- With `g_mrs` null the registration fails, and so does an allocation. -/
def unregistered : List Call :=
  [.setGlobalPD 1, .initBlockPool (.memory 4096 none), .pool .spawn, .pool (.alloc 0 100 firstBucket), .extend 0 .noMemory]

/-- With `g_mrs` allocated a block is handed out and freed. -/
def registered : List Call :=
  [.setGlobalPD 1, .initBlockPool (.memory 4096 (some 7)), .pool .spawn, .pool (.alloc 0 100 firstBucket), .extend 0 .noMemory,
    .pool (.take 0), .pool (.dealloc 0 ⟨4096, 100⟩)]

theorem starts_safe :
    (∃ p, ((processMachine none).guard mrsAllocated).Run unregistered p ∧ p.nulls = [0] ∧ p.pool.crashed = false) ∧
    ∃ p, ((processMachine (some [])).guard mrsAllocated).Run registered p ∧ p.pool.handedOut = [] ∧
      p.pool.crashed = false := by
  have hexec : ∃ p, ((processMachine none).guard mrsAllocated).Run unregistered p ∧ p.nulls = [0] :=
    Machine.exists_run rfl (by decide +kernel)
  have hexec' : ∃ p, ((processMachine (some [])).guard mrsAllocated).Run registered p ∧ p.pool.handedOut = [] :=
    Machine.exists_run rfl (by decide +kernel)
  obtain ⟨p, hrun, hnull⟩ := hexec
  obtain ⟨p', hrun', hback⟩ := hexec'
  exact ⟨⟨p, hrun, hnull, (pool_safe_from_start ⟨_, hrun⟩).1⟩, p', hrun', hback, (pool_safe_from_start ⟨_, hrun'⟩).1⟩

/-- The first registration that succeeds pushes into a null pointer. -/
theorem first_registration_crashes :
    ∃ p, (processMachine none).Run [.setGlobalPD 1, .initBlockPool (.memory 4096 (some 7))] p ∧ p.pool.crashed = true :=
  Machine.exists_run rfl (by decide +kernel)

end LightRpc.BlockPool

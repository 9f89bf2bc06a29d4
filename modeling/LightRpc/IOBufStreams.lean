import LightRpc.IOBufTls

/- Zero-copy output streams.

   `Next` takes a block out of the chain or makes one, declares all of it used and gives
   the part that was free to the stream's user; `BackUp` gives the end of that part back.
   In between the block belongs to the stream, and no chain has it. -/
namespace LightRpc.IOBuffer

open Lib.RefCount Multiset

variable {h h' : Heap} {c c' : Ctx} {v v' : IOBuf} {s s' : Stream} {r : BlockRef} {rs : List BlockRef}
  {F R : Multiset BlockId} {n m : Nat} {b : BlockId} {k : Block}

/-- The blocks a stream and the chain of its thread own. -/
def own (c : Ctx) (s : Stream) : List BlockId := s.curBlock.toList ++ c.tls.chain

/-- The blocks changed hands between a stream, a chain and the pool; none was written. -/
structure Handed (h : Heap) (o : List BlockId) (F : Multiset BlockId) (h' : Heap) (o' : List BlockId) : Prop where
  exact : Exact h' (↑o' + F)
  sound : Sound h'
  later : Later h o F h' o'
  keeps : ∀ b ∈ F, h'.payload b = h.payload b

namespace Handed

variable {o o' o'' : List BlockId} {h'' : Heap}

theorem of_recount (hex : Exact h R) (hs : Sound h) (hc : Recount h R h' (↑o' + F))
    (ho : o'.Subperm o) : Handed h o F h' o' := by
  have hF : ∀ b ∈ F, b ∈ ↑o' + F := fun b hb => mem_add.mpr (.inr hb)
  exact ⟨hc.exact, hs.recount hc, .of_recount hex hc hF (fun b hb => mem_list hb) ho, fun b hb => hc.keeps b (hF b hb)⟩

theorem trans (d : Handed h o F h' o') (d' : Handed h' o' F h'' o'') : Handed h o F h'' o'' :=
  ⟨d'.exact, d'.sound, d.later.trans d'.later, fun b hb => (d'.keeps b hb).trans (d.keeps b hb)⟩

theorem alloc (hex : Exact h (↑o + F)) (hs : Sound h) (hsize : k.size = 0) (hcap : k.cap ≤ maxBlockSize) :
    Handed h o F (h.alloc k) (h.next :: o) := by
  have hlt : ∀ b ∈ F, b < h.next := fun b hb => hex.lt_next (mem_add.mpr (.inr hb))
  have ho : ∀ b ∈ o, b < h.next := fun b hb => hex.lt_next (mem_list hb)
  refine ⟨?_, hs.alloc ⟨by omega, Nat.lt_of_le_of_lt hcap (by decide)⟩, .alloc hlt ho (.inl ⟨rfl, hcap⟩),
    fun b hb => ?_⟩
  · rw [← cons_coe, cons_add]
    exact hex.alloc k
  · rw [Store.payload_alloc, if_neg (Nat.ne_of_lt (hlt b hb))]

end Handed

theorem releaseTlsBlock_spec (hex : Exact c.heap (↑(b :: c.tls.chain) + F)) (hs : Sound c.heap) :
    Handed c.heap (b :: c.tls.chain) F (releaseTlsBlock c b).heap (releaseTlsBlock c b).tls.chain := by
  have hdec : Recount c.heap (↑(b :: c.tls.chain) + F) (c.heap.dec b) (↑c.tls.chain + F) := by
    rw [← cons_coe, cons_add] at hex ⊢
    exact .dec hex
  have hdrop : Handed c.heap (b :: c.tls.chain) F (c.heap.dec b) c.tls.chain :=
    .of_recount hex hs hdec (List.sublist_cons_self b _).subperm
  rw [releaseTlsBlock]
  split
  · exact hdrop
  · split
    · exact hdrop
    · exact .of_recount hex hs (.refl hex) (List.Subperm.refl _)

theorem releaseTlsBlock_wf (hw : c.tls.Wf) (hb : b ∉ c.tls.chain) : (releaseTlsBlock c b).tls.Wf := by
  unfold releaseTlsBlock
  split
  · exact hw
  · split
    · exact hw
    · exact ⟨List.nodup_cons.mpr ⟨hb, hw.nodup⟩, ⟨Tls.link_self _ _ _, hw.linked.link hb⟩,
        congrArg (· + 1) hw.count, fun _ => rfl⟩

theorem with_curBlock {o : Option BlockId} (h : s.curBlock = o) : { s with curBlock := o } = s := by
  subst h
  rfl

theorem releaseBlock_spec (hex : Exact c.heap (↑(own c s) + F)) (hs : Sound c.heap) :
    Handed c.heap (own c s) F (releaseBlock c s).1.heap (releaseBlock c s).1.tls.chain ∧
      (releaseBlock c s).2 = { s with curBlock := none } := by
  unfold releaseBlock
  cases hcur : s.curBlock with
  | none =>
    have hown : own c s = c.tls.chain := by
      rw [own, hcur]
      rfl
    rw [hown] at hex ⊢
    exact ⟨.of_recount hex hs (.refl hex) (List.Subperm.refl _), (with_curBlock hcur).symm⟩
  | some b =>
    have hown : own c s = b :: c.tls.chain := by
      rw [own, hcur]
      rfl
    rw [hown] at hex ⊢
    refine ⟨?_, rfl⟩
    dsimp only
    split
    · have hdec : Recount c.heap (↑(b :: c.tls.chain) + F) (c.heap.dec b) (↑c.tls.chain + F) := by
        rw [← cons_coe, cons_add] at hex ⊢
        exact .dec hex
      exact .of_recount hex hs hdec (List.sublist_cons_self b _).subperm
    · exact releaseTlsBlock_spec hex hs

theorem releaseBlock_wf (hw : c.tls.Wf) (hn : (own c s).Nodup) : (releaseBlock c s).1.tls.Wf := by
  unfold releaseBlock
  cases hcur : s.curBlock with
  | none => exact hw
  | some b =>
    have hb : b ∉ c.tls.chain := by
      rw [own, hcur] at hn
      exact (List.nodup_cons.mp hn).1
    dsimp only
    split
    · exact hw
    · exact releaseTlsBlock_wf hw hb

/-- A block with room in it. -/
def HasRoom (h : Heap) (b : BlockId) : Prop := ∃ k, h.payload b = some k ∧ k.size < k.cap

theorem createBlock_handed (hex : Exact c.heap (↑c.tls.chain + F)) (hs : Sound c.heap) (hn : sizeofBlock < n) :
    Handed c.heap c.tls.chain F (c.createBlock n).1.heap ((c.createBlock n).2.toList ++ (c.createBlock n).1.tls.chain) ∧
      ∀ b, (c.createBlock n).2 = some b → HasRoom (c.createBlock n).1.heap b := by
  rcases createBlock_spec (c := c) (Nat.le_of_lt hn) with heq | ⟨k, heq, hsize, hcap, hlt⟩
  · rw [heq]
    exact ⟨.of_recount hex hs (.refl hex) (List.Subperm.refl _), fun b hb => absurd hb.symm (Option.some_ne_none b)⟩
  · rw [heq]
    refine ⟨.alloc hex hs hsize hlt, fun b hb => ?_⟩
    cases hb
    refine ⟨k, ?_, by omega⟩
    show (c.heap.alloc k).payload c.heap.next = some k
    rw [Store.payload_alloc, if_pos rfl]

theorem acquireTlsBlock_spec {t : Ctx × Option BlockId} (hex : Exact c.heap (↑c.tls.chain + F)) (hs : Sound c.heap)
    (heq : acquireTlsBlock c = some t) : Handed c.heap c.tls.chain F t.1.heap (t.2.toList ++ t.1.tls.chain) ∧
      ∀ b, t.2 = some b → HasRoom t.1.heap b := by
  unfold acquireTlsBlock at heq
  cases hchain : c.tls.chain with
  | nil =>
    rw [hchain] at heq
    cases heq
    rw [← hchain]
    exact createBlock_handed hex hs (by decide)
  | cons b0 rest0 =>
    rw [hchain] at heq hex
    have hsuf := (dropFull_suffix c.heap (b0 :: rest0) c.tls.numBlocks).1
    obtain ⟨hcount, hhead⟩ := dropFull_spec c.tls.numBlocks hex
    dsimp only at heq
    generalize dropFull c.heap (b0 :: rest0) c.tls.numBlocks = d at heq hsuf hcount hhead
    obtain ⟨h1, chain, num⟩ := d
    dsimp only at heq hsuf hcount hhead
    cases chain with
    | nil => exact absurd heq (by simp)
    | cons b rest =>
      cases heq
      refine ⟨.of_recount hex hs hcount hsuf.sublist.subperm, fun b' hb' => ?_⟩
      obtain rfl := Option.some.inj hb'
      have hmem : b ∈ (↑(b :: rest) : Multiset BlockId) + F :=
        mem_list List.mem_cons_self
      obtain ⟨k, hk⟩ := hcount.exact.payload hmem
      exact ⟨k, hk, room_of_not_full hk (hhead b rest rfl)⟩

theorem createBlock_tls (c : Ctx) (n : Nat) : (c.createBlock n).1.tls = c.tls := by
  unfold Ctx.createBlock
  split <;> rfl

theorem acquireTlsBlock_wf {t : Ctx × Option BlockId} (hw : c.tls.Wf) (heq : acquireTlsBlock c = some t) :
    t.1.tls.Wf := by
  unfold acquireTlsBlock at heq
  cases hchain : c.tls.chain with
  | nil =>
    rw [hchain] at heq
    cases heq
    rw [createBlock_tls]
    exact hw
  | cons b0 rest0 =>
    rw [hchain] at heq
    obtain ⟨hsuf, hnum⟩ := dropFull_suffix c.heap (b0 :: rest0) c.tls.numBlocks
    dsimp only at heq
    generalize dropFull c.heap (b0 :: rest0) c.tls.numBlocks = d at heq hsuf hnum
    obtain ⟨h1, chain, num⟩ := d
    dsimp only at heq hsuf hnum
    cases chain with
    | nil => exact absurd heq (by simp)
    | cons b rest =>
      cases heq
      have hnodup : (b :: rest).Nodup := (hchain ▸ hw.nodup).sublist hsuf.sublist
      have hlinked : Linked c.tls.portal (b :: rest) := (hchain ▸ hw.linked).suffix hsuf
      have hcount : num = (b :: rest).length := hnum (hchain ▸ hw.count)
      obtain ⟨hb, hrest⟩ := List.nodup_cons.mp hnodup
      refine ⟨hrest, hlinked.2.link hb, ?_, fun _ => hw.exits ?_⟩
      · show num - 1 = rest.length
        rw [hcount, List.length_cons, Nat.add_sub_cancel]
      · rw [hchain]
        exact List.cons_ne_nil b0 rest0

variable {t : Ctx × Stream × Option BlockId}

theorem nextBlock_acquire (hex : Exact c.heap (↑c.tls.chain + F))
    (hs : Sound c.heap) (hsize : s.blockSize = 0 ∨ sizeofBlock < s.blockSize)
    (heq : nextBlock.acquire (c, s) = some t) :
    Handed c.heap c.tls.chain F t.1.heap (own t.1 t.2.1) ∧ t.2.1 = { s with curBlock := t.2.2 } ∧
      ∀ b, t.2.2 = some b → HasRoom t.1.heap b := by
  unfold nextBlock.acquire at heq
  split at heq
  · rename_i hpos
    have hpos : 0 < s.blockSize := hpos
    cases heq
    have hnew := createBlock_handed hex hs (by omega : sizeofBlock < s.blockSize)
    exact ⟨hnew.1, rfl, hnew.2⟩
  · obtain ⟨d, hd, rfl⟩ := Option.map_eq_some_iff.mp heq
    have hnew := acquireTlsBlock_spec hex hs hd
    exact ⟨hnew.1, rfl, hnew.2⟩

theorem nextBlock_acquire_wf (hw : c.tls.Wf)
    (heq : nextBlock.acquire (c, s) = some t) : t.1.tls.Wf := by
  unfold nextBlock.acquire at heq
  split at heq
  · cases heq
    dsimp only
    rw [createBlock_tls]
    exact hw
  · obtain ⟨d, hd, rfl⟩ := Option.map_eq_some_iff.mp heq
    exact acquireTlsBlock_wf hw hd

theorem nextBlock_wf (hw : c.tls.Wf) (hn : (own c s).Nodup)
    (heq : nextBlock c s = some t) : t.1.tls.Wf := by
  unfold nextBlock at heq
  cases hcur : s.curBlock with
  | none =>
    rw [hcur] at heq
    exact nextBlock_acquire_wf hw heq
  | some b =>
    rw [hcur] at heq
    dsimp only at heq
    split at heq
    · exact nextBlock_acquire_wf (releaseBlock_wf hw hn) heq
    · cases heq
      exact hw

theorem nextBlock_spec (hex : Exact c.heap (↑(own c s) + F)) (hs : Sound c.heap)
    (hsize : s.blockSize = 0 ∨ sizeofBlock < s.blockSize) (heq : nextBlock c s = some t) :
    Handed c.heap (own c s) F t.1.heap (own t.1 t.2.1) ∧ t.2.1 = { s with curBlock := t.2.2 } ∧
      ∀ b, t.2.2 = some b → HasRoom t.1.heap b := by
  unfold nextBlock at heq
  cases hcur : s.curBlock with
  | none =>
    have hown : own c s = c.tls.chain := by
      rw [own, hcur]
      rfl
    rw [hcur] at heq
    rw [hown] at hex ⊢
    exact nextBlock_acquire hex hs hsize heq
  | some b =>
    rw [hcur] at heq
    dsimp only at heq
    split at heq
    · -- a full block is released first
      obtain ⟨hrel, hs'⟩ := releaseBlock_spec hex hs
      generalize releaseBlock c s = d at heq hrel hs'
      obtain ⟨c1, s1⟩ := d
      dsimp only at hrel hs'
      subst hs'
      obtain ⟨hacq, heq', hroom⟩ := nextBlock_acquire hrel.exact hrel.sound hsize heq
      exact ⟨hrel.trans hacq, heq', hroom⟩
    · rename_i hfull
      cases heq
      refine ⟨.of_recount hex hs (.refl hex) (List.Subperm.refl _), ?_, fun b' hb' => ?_⟩
      · exact (with_curBlock hcur).symm
      · obtain rfl := Option.some.inj hb'
        have hmem : b ∈ (↑(own c s) : Multiset BlockId) + F := by
          rw [own, hcur]
          exact mem_list List.mem_cons_self
        obtain ⟨k, hk⟩ := hex.payload hmem
        exact ⟨k, hk, room_of_not_full hk (Bool.eq_false_iff.mpr hfull)⟩

/-- With `tls_inited` set, or no block to deallocate, the blocks of the chain are dropped. -/
theorem clearTlsBlockChain_eq {inited : Bool} {chain : List BlockId} (hn : chain.Nodup) : ∀ {h : Heap},
    (inited ∨ ∀ b ∈ chain, deallocates h b = false) → clearTlsBlockChain inited h chain = chain.foldl Store.dec h := by
  induction chain with
  | nil => exact fun _ => rfl
  | cons b chain ih =>
    intro h hexit
    obtain ⟨hb, hn⟩ := List.nodup_cons.mp hn
    have hcond : (!inited && deallocates h b) = false := by
      rcases hexit with rfl | hnone
      · rfl
      · rw [hnone b List.mem_cons_self, Bool.and_false]
    rw [clearTlsBlockChain, hcond, if_neg Bool.false_ne_true, ih hn, List.foldl_cons]
    refine hexit.imp_right fun hnone b' hb' => ?_
    have hne : b' ≠ b := fun heq => hb (heq ▸ hb')
    rw [← hnone b' (List.mem_cons_of_mem b hb'), deallocates, deallocates, Store.count, Store.count, Store.payload,
      Store.payload, Store.cells_dec hne]

theorem threadExit_spec {inited : Bool} (hex : Exact c.heap (↑c.tls.chain + F)) (hs : Sound c.heap) (hw : c.tls.Wf)
    (hexit : inited ∨ ∀ b ∈ c.tls.chain, deallocates c.heap b = false) :
    Handed c.heap c.tls.chain F (threadExit c inited).heap (threadExit c inited).tls.chain := by
  rw [threadExit, clearTlsBlockChain_eq hw.nodup hexit]
  split
  · have hdec := Recount.decAll c.tls.chain hex
    refine .of_recount hex hs ?_ List.nil_subperm
    rw [coe_nil, zero_add]
    exact hdec
  · exact .of_recount hex hs (.refl hex) (List.Subperm.refl _)

theorem threadExit_wf (hw : c.tls.Wf) (inited : Bool) : (threadExit c inited).tls.Wf := by
  unfold threadExit
  split
  · exact ⟨List.nodup_nil, trivial, rfl, fun h => absurd rfl h⟩
  · exact hw

/-! `Next` and `BackUp`. -/

/-- The buffer ends with at least the last `n` bytes of what the stream's current block uses. -/
structure AtEnd (h : Heap) (v : IOBuf) (s : Stream) (n : Nat) (k : Block) (rs : List BlockRef) (r : BlockRef) :
    Prop where
  cur : s.curBlock = some r.block
  payload : h.payload r.block = some k
  refs : v.refs = rs ++ [r]
  ends : r.offset + r.length = k.size
  size : n ≤ r.length

theorem pushList_concat (hrs : ∀ r' ∈ rs, r'.Ok) (hr : r.Ok) :
    ∃ rs' r', pushList rs r = rs' ++ [r'] ∧ r'.block = r.block ∧ r'.offset + r'.length = r.offset + r.length ∧
      r.length ≤ r'.length ∧ ∀ x ∈ rs', x ∈ rs := by
  rcases List.eq_nil_or_concat' rs with rfl | ⟨rs, back, rfl⟩
  · exact ⟨[], r, rfl, rfl, rfl, Nat.le_refl _, fun x hx => hx⟩
  · have hback : back.Ok := hrs back (by simp)
    by_cases hf : r.follows back
    · obtain ⟨hblock, hend⟩ := (follows_iff hback).mp hf
      have hr1 := hr.bound
      have hlen : u32 (back.length + r.length) = back.length + r.length := Nat.mod_eq_of_lt (by omega)
      refine ⟨rs, back.extend r.length, pushList_follows hf, hblock, ?_, ?_, fun x hx => List.mem_append_left _ hx⟩
      · show back.offset + u32 (back.length + r.length) = r.offset + r.length
        omega
      · show r.length ≤ u32 (back.length + r.length)
        omega
    · exact ⟨rs ++ [back], r, pushList_apart hf, rfl, rfl, Nat.le_refl _, fun x hx => hx⟩

/-- `n` bytes of the block `k` are given to the stream's user, and are in the buffer. -/
structure Given (c : Ctx) (v : IOBuf) (s : Stream) (F : Multiset BlockId) (c' : Ctx) (v' : IOBuf) (s' : Stream)
    (n : Nat) (k : Block) (rs : List BlockRef) (r : BlockRef) : Prop where
  pos : 0 < n
  atEnd : AtEnd c'.heap v' s' n k rs r
  old : ∀ x ∈ rs, x ∈ v.refs
  /-- What refers to the block otherwise ends before these bytes. -/
  before : ∀ x : BlockRef, x.block ∈ blocks v.refs + F → Fits c.heap [x] → x.block = r.block →
    x.offset + x.length + n ≤ k.size
  latest : s'.latest = some n
  lent : s'.lent = some ⟨r.block, k.size - n, k.size⟩
  byteCount : s'.byteCount = s.byteCount + n
  bytes : Fits c.heap v.refs → Fits c'.heap v'.refs ∧
    bytes c'.heap v'.refs = bytes c.heap v.refs ++ (List.range n).map (fun i => k.data (k.size - n + i))

/-- What `Next` did, next to the holders `F`. -/
structure Nexted (c : Ctx) (v : IOBuf) (s : Stream) (F : Multiset BlockId) (c' : Ctx) (v' : IOBuf) (s' : Stream)
    (ok : Bool) : Prop where
  buf : v'.Ok
  exact : Exact c'.heap (blocks v'.refs + (↑(own c' s') + F))
  sound : Sound c'.heap
  later : Later c.heap (own c s) (blocks v.refs + F) c'.heap (own c' s')
  wf : c.tls.Wf → (own c s).Nodup → c'.tls.Wf
  tls : 0 < s.blockSize → c'.tls = c.tls
  same : s'.buf = s.buf ∧ s'.blockSize = s.blockSize
  refused : ok = false → v' = v ∧ s' = { s with curBlock := none, latest := none } ∧
    ∀ r ∈ v.refs, c'.heap.payload r.block = c.heap.payload r.block
  given : ok = true → ∃ n k rs r, Given c v s F c' v' s' n k rs r

/-- The free part of the block that `Next` will work on. -/
def nextLeft (c : Ctx) (s : Stream) : Nat :=
  (nextBlock c s).elim 0 fun t => t.2.2.elim 0 fun b => (t.1.heap.payload b).elim 0 Block.leftSpace

/-- A stream with blocks of its own leaves the chain alone. -/
theorem releaseBlock_tls (hpos : 0 < s.blockSize) : (releaseBlock c s).1.tls = c.tls := by
  unfold releaseBlock
  split
  · rfl
  · rw [if_pos hpos]
    rfl

theorem next_tls {t : Ctx × IOBuf × Stream × Bool} (hpos : 0 < s.blockSize) (heq : next c v s = some t) :
    t.1.tls = c.tls := by
  obtain ⟨⟨c1, s1, ob⟩, hd, rfl⟩ := Option.map_eq_some_iff.mp heq
  have hnew : ∀ {d : Ctx × Stream}, 0 < d.2.blockSize → nextBlock.acquire d = some (c1, s1, ob) → c1.tls = d.1.tls := by
    intro d hd heq
    rw [nextBlock.acquire, if_pos hd] at heq
    cases heq
    exact createBlock_tls _ _
  have htls : c1.tls = c.tls := by
    clear heq
    revert hd
    fun_cases nextBlock c s <;> intro hd
    case case1 b hcur _ =>
      simp only [releaseBlock, hcur, if_pos hpos] at hd
      exact hnew hpos hd
    case case2 => cases hd; rfl
    case case3 => exact hnew hpos hd
  cases ob <;> exact htls

theorem next_spec {t : Ctx × IOBuf × Stream × Bool} (hv : v.Ok)
    (hex : Exact c.heap (blocks v.refs + (↑(own c s) + F))) (hs : Sound c.heap)
    (hsize : s.blockSize = 0 ∨ sizeofBlock < s.blockSize) (hspare : Spare v.refs (nextLeft c s) 1)
    (heq : next c v s = some t) : Nexted c v s F t.1 t.2.1 t.2.2.1 t.2.2.2 := by
  have htls := fun hpos => next_tls (c := c) (v := v) (s := s) hpos heq
  rw [next] at heq
  obtain ⟨d, hd, rfl⟩ := Option.map_eq_some_iff.mp heq
  rw [add_left_comm] at hex
  obtain ⟨hhand, hs', hroom⟩ := nextBlock_spec hex hs hsize hd
  rw [nextLeft, hd] at hspare
  have hwf := fun hw hn => nextBlock_wf (c := c) (s := s) hw hn hd
  obtain ⟨c1, s1, ob⟩ := d
  dsimp only [Option.elim] at hhand hs' hroom hspare
  have hlater := hhand.later
  have hown : ∀ r ∈ v.refs, c1.heap.payload r.block = c.heap.payload r.block :=
    fun r hr => hhand.keeps r.block (mem_add.mpr (.inl (mem_blocks hr)))
  have hex1 := hhand.exact
  rw [add_left_comm] at hex1
  subst hs'
  cases ob with
  | none =>
    exact ⟨hv, hex1, hhand.sound, hlater, hwf, htls, ⟨rfl, rfl⟩, fun _ => ⟨rfl, rfl, hown⟩, fun h => absurd h Bool.false_ne_true⟩
  | some b =>
    obtain ⟨k, hk, hfree⟩ := hroom b rfl
    have hspare : Spare v.refs ((c1.heap.payload b).elim 0 Block.leftSpace) 1 := hspare
    rw [hk] at hspare
    have hmem : b ∈ own c1 { s with curBlock := some b } := List.mem_cons_self
    have hcap := (hhand.sound b k hk).2
    have hr : BlockRef.Ok ⟨k.size, k.cap - k.size, b⟩ :=
      ⟨(by omega : 0 < k.cap - k.size), (by omega : k.size + (k.cap - k.size) < 2 ^ 31)⟩
    have hg : Grown k (k.resize k.cap) := ⟨(by omega : k.size ≤ k.cap), rfl, fun _ _ => rfl⟩
    have hend : k.size + (k.cap - k.size) = k.cap := by omega
    have hback : k.cap - (k.cap - k.size) = k.size := by omega
    have hp := Piece.of_push (r := ⟨k.size, k.cap - k.size, b⟩) hv hex1 hmem hr hspare hk (fun k' => k'.resize k'.cap)
    have hbound : ∀ b ∈ blocks v.refs + F, b < c1.heap.next :=
      fun b hb => Nat.lt_of_lt_of_le (hlater.bound b hb) hlater.next
    obtain ⟨rs, r, hrefs, hblock, hends, hlen, hrs⟩ := pushList_concat hv.refs hr
    have hblock : r.block = b := hblock
    dsimp only
    rw [hk]
    dsimp only [Option.elim, Block.leftSpace]
    refine ⟨hp.ok, hp.exact, hp.sound hhand.sound ⟨Nat.le_refl _, hcap⟩, ?_,
      hwf, ?_, ⟨rfl, rfl⟩, fun h => absurd h.symm Bool.false_ne_true, fun _ => ?_⟩
    · refine hlater.trans (hp.later hk hg hmem (fun x hx => ?_) hbound)
      exact (mem_add.mp hx).elim (fun hx => mem_add.mpr (.inl hx)) mem_rest
    · exact htls
    refine ⟨k.cap - k.size, k.resize k.cap, rs, r, by omega, ⟨?_, ?_, hp.refs.trans hrefs, ?_, hlen⟩, hrs, ?_, rfl, ?_, rfl,
      fun hf => ?_⟩
    · exact congrArg some hblock.symm
    · rw [hblock]
      exact (hp.kept (mem_mid hmem)).trans (if_pos rfl)
    · rw [hends]
      exact hend
    · -- what refers to the block before ends where its used part ended
      intro x hx hf hxb
      obtain ⟨k0, hk0, hend0⟩ := hf x List.mem_cons_self
      rw [← hhand.keeps x.block hx, hxb, hblock, hk] at hk0
      cases hk0
      show x.offset + x.length + (k.cap - k.size) ≤ k.cap
      omega
    · show some (Span.mk b k.size (k.size + (k.cap - k.size))) = some ⟨r.block, k.cap - (k.cap - k.size), k.cap⟩
      rw [hblock, hback, hend]
    · obtain ⟨hfits, hbytes⟩ := hp.bytes hv hk hg hmem hr (Nat.le_of_eq hend) (hf.congr hown)
      refine ⟨hfits, ?_⟩
      rw [bytes_congr hown] at hbytes
      show _ = _ ++ (List.range (k.cap - k.size)).map (fun i => k.data (k.cap - (k.cap - k.size) + i))
      rw [hback]
      exact hbytes

/-- The heap after the end of the used part of the block was moved back by `n`. -/
def shrunk (h : Heap) (b : BlockId) (n : Nat) : Heap := h.modify b (fun k => k.resize (k.size - n))

theorem Sound.shrunk (hs : Sound h) : Sound (shrunk h b n) := by
  apply hs.modify
  intro k hk
  have := hs b k hk
  exact ⟨(by omega : k.size - n ≤ k.cap), this.2⟩

/-- What `BackUp` did: after the end of the used part was moved back by `n`, blocks only
    changed hands. -/
structure Backed (c : Ctx) (s : Stream) (F : Multiset BlockId) (n : Nat) (rs : List BlockRef) (r : BlockRef)
    (c' : Ctx) (v' : IOBuf) (s' : Stream) : Prop where
  ok : v'.Ok
  refs : v'.refs = if n < r.length then rs ++ [r.shorten n] else rs
  handed : Handed (shrunk c.heap r.block n) (own c s) (blocks v'.refs + F) c'.heap (own c' s')
  wf : c.tls.Wf → (own c s).Nodup → c'.tls.Wf
  stream : s' = { s.backedUp n with curBlock := s'.curBlock }

theorem AtEnd.own {rs : List BlockRef} (he : AtEnd c.heap v s n k rs r) : own c s = r.block :: c.tls.chain := by
  rw [IOBuffer.own, he.cur]
  rfl

section

variable (hv : v.Ok) (hex : Exact c.heap (blocks v.refs + (↑(own c s) + F))) (hs : Sound c.heap) (he : AtEnd c.heap v s m k rs r)

include hv hex hs he

theorem backUpRef_part (hlt : n < r.length) :
    ∃ c' v' s', backUpRef c v s n r r.block = (c', v', s', none) ∧ Backed c s F n rs r c' v' s' := by
  have hmem : r.block ∈ own c s := by
    rw [he.own]
    exact List.mem_cons_self
  have hex1 : Exact (shrunk c.heap r.block n) (blocks v.refs + (↑(own c s) + F)) := hex.modify (mem_mid hmem) _
  have hedit := Edit.shortenBack hv hex1 he.refs hlt
  have hex2 := hedit.exact
  rw [add_left_comm] at hex2
  rw [backUpRef, if_pos hlt]
  dsimp only
  by_cases hsize : s.blockSize = 0
  · rw [if_pos (show (s.backedUp n).blockSize = 0 from hsize)]
    rw [he.own] at hex2
    have hrel := releaseTlsBlock_spec (c := c.setHeap (shrunk c.heap r.block n)) hex2 hs.shrunk
    refine ⟨_, _, _, rfl, hedit.ok, hedit.refs.trans (if_pos hlt).symm, ?_, fun hw hn => ?_, rfl⟩
    · rw [he.own]
      exact hrel
    · rw [he.own] at hn
      exact releaseTlsBlock_wf (c := c.setHeap (shrunk c.heap r.block n)) hw (List.nodup_cons.mp hn).1
  · rw [if_neg (show ¬ (s.backedUp n).blockSize = 0 from hsize)]
    exact ⟨_, _, _, rfl, hedit.ok, hedit.refs.trans (if_pos hlt).symm,
      .of_recount hex2 hs.shrunk (.refl hex2) (List.Subperm.refl _), fun hw _ => hw, rfl⟩

theorem backUpRef_whole (hge : r.length ≤ n) :
    ∃ c' v' s', backUpRef c v s n r r.block = (c', v', s', if n - r.length = 0 then none else some (n - r.length)) ∧
      Backed c s F r.length rs r c' v' s' := by
  have hmem : r.block ∈ own c s := by
    rw [he.own]
    exact List.mem_cons_self
  have hex1 : Exact (shrunk c.heap r.block r.length) (blocks v.refs + (↑(own c s) + F)) :=
    hex.modify (mem_mid hmem) _
  have hpop := Edit.popBackRef hv hex1 he.refs
  rw [backUpRef, if_neg (Nat.not_lt.mpr hge)]
  have hfold : c.heap.modify r.block (fun k => k.resize (k.size - r.length)) = shrunk c.heap r.block r.length := rfl
  dsimp only [Ctx.setHeap]
  rw [hfold]
  generalize popBackRef (shrunk c.heap r.block r.length) v = p at hpop ⊢
  have hcount : Recount (shrunk c.heap r.block r.length) (blocks v.refs + (↑(own c s) + F)) p.1
      (↑(own c s) + (blocks p.2.refs + F)) := by
    rw [add_left_comm (↑(own c s) : Multiset BlockId), hpop.refs]
    exact hpop.count
  have hfirst := Handed.of_recount hex1 hs.shrunk hcount (List.Subperm.refl _)
  obtain ⟨hrel, hs'⟩ := releaseBlock_spec (c := ⟨p.1, c.tls, c.avail⟩) (s := s.backedUp r.length) hcount.exact
    hfirst.sound
  have hwf := fun hw hn => releaseBlock_wf (c := ⟨p.1, c.tls, c.avail⟩) (s := s.backedUp r.length) hw hn
  refine ⟨_, _, _, rfl, ?_⟩
  generalize releaseBlock ⟨p.1, c.tls, c.avail⟩ (s.backedUp r.length) = t at hrel hs' hwf ⊢
  obtain ⟨c3, s3⟩ := t
  dsimp only at hrel hs' hwf ⊢
  subst hs'
  exact ⟨hpop.ok, hpop.refs.trans (if_neg (Nat.lt_irrefl _)).symm, hfirst.trans hrel, hwf, rfl⟩

theorem backUpRef_spec (n : Nat) :
    ∃ c' v' s', backUpRef c v s n r r.block = (c', v', s', if n - r.length = 0 then none else some (n - r.length)) ∧
      Backed c s F (min n r.length) rs r c' v' s' := by
  rcases Nat.lt_or_ge n r.length with hlt | hge
  · obtain ⟨c', v', s', heq, hb⟩ := backUpRef_part hv hex hs he hlt
    rw [Nat.min_eq_left (Nat.le_of_lt hlt), if_pos (Nat.sub_eq_zero_of_le (Nat.le_of_lt hlt))]
    exact ⟨c', v', s', heq, hb⟩
  · rw [Nat.min_eq_right hge]
    exact backUpRef_whole hv hex hs he hge

end

theorem AtEnd.endOf (he : AtEnd h v s m k rs r) (hv : v.Ok) :
    u32 (r.offset + r.length) = IOBuffer.endOf h r.block := by
  have hbound := (hv.refs r (by rw [he.refs]; simp)).bound
  rw [IOBuffer.endOf, he.payload, u32, Nat.mod_eq_of_lt (by omega)]
  exact he.ends

theorem AtEnd.isEmpty (he : AtEnd h v s m k rs r) (hv : v.Ok) : v.isEmpty = false := by
  rw [hv.isEmpty, he.refs, List.isEmpty_eq_false_iff]
  exact List.append_ne_nil_of_right_ne_nil rs (List.cons_ne_nil r [])

/-- With the current block at the end of the buffer, the checks of `BackUp` pass. -/
theorem AtEnd.backUpOnce (he : AtEnd c.heap v s m k rs r) (hv : v.Ok) (n : Nat) :
    backUpOnce c v s n = some (backUpRef c v s n r r.block) := by
  rw [IOBuffer.backUpOnce, hv.backRef he.refs, he.cur]
  dsimp only
  rw [if_neg (by rw [he.endOf hv]; simp)]

theorem backUp_spec (hv : v.Ok) (hex : Exact c.heap (blocks v.refs + (↑(own c s) + F)))
    (hs : Sound c.heap) (he : AtEnd c.heap v s m k rs r) (hn : n ≤ m) (fuel : Nat) :
    ∃ c' v' s', backUp (fuel + 1) c v s n = some (c', v', s') ∧ Backed c s F n rs r c' v' s' := by
  have hle := Nat.le_trans hn he.size
  obtain ⟨c', v', s', heq, hb⟩ := backUpRef_spec hv hex hs he n
  rw [Nat.min_eq_left hle] at hb
  rw [if_pos (Nat.sub_eq_zero_of_le hle)] at heq
  refine ⟨c', v', s', ?_, hb⟩
  rw [backUp, he.isEmpty hv, if_neg Bool.false_ne_true, he.backUpOnce hv, heq]

/-! `BackUp` beyond the latest `Next`. -/

/-- A stream, its buffer and the chain of its thread at work, next to the holders `F`; nobody
    has a block of its own twice, and none of `R`. -/
structure Working (c : Ctx) (v : IOBuf) (s : Stream) (F R : Multiset BlockId) : Prop where
  ok : v.Ok
  exact : Exact c.heap (blocks v.refs + (↑(own c s) + F))
  sound : Sound c.heap
  wf : c.tls.Wf
  nodup : ((↑(own c s) : Multiset BlockId) + R).Nodup
  others : ∀ b ∈ R, b ∈ F

theorem nodup_left {o : List BlockId} (hn : ((↑o : Multiset BlockId) + R).Nodup) : o.Nodup :=
  coe_nodup.mp (nodup_add.mp hn).1

/-- The blocks of a party stay apart from those of the others: the new ones are new to all. -/
theorem Later.nodup_add {o o' : List BlockId} (l : Later h o F h' o') (hR : ∀ b ∈ R, b < h.next)
    (hn : ((↑o : Multiset BlockId) + R).Nodup) : ((↑o' : Multiset BlockId) + R).Nodup := by
  obtain ⟨ho, hr, hdisj⟩ := Multiset.nodup_add.mp hn
  refine Multiset.nodup_add.mpr ⟨Multiset.coe_nodup.mpr (l.nodup (Multiset.coe_nodup.mp ho)), hr, ?_⟩
  rw [Multiset.disjoint_left] at hdisj ⊢
  intro b hb hmem
  rcases l.owned b (Multiset.mem_coe.mp hb) with hold | hnew
  · exact hdisj (Multiset.mem_coe.mpr hold) hmem
  · exact absurd (hR b hmem) (Nat.not_lt.mpr hnew)

theorem Working.backed (w : Working c v s F R)
    (hb : Backed c s F m rs r c' v' s') (hmem : r.block ∈ own c s) :
    Working c' v' s' F R ∧ ∀ b ∈ R, c'.heap.payload b = c.heap.payload b := by
  have hlt : ∀ b ∈ R, b < (shrunk c.heap r.block m).next := by
    intro b hR
    rw [shrunk, Store.next_modify]
    exact w.exact.lt_next (mem_rest (w.others b hR))
  refine ⟨⟨hb.ok, ?_, hb.handed.sound, hb.wf w.wf (nodup_left w.nodup), hb.handed.later.nodup_add hlt w.nodup, w.others⟩,
    fun b hR => ?_⟩
  · rw [add_left_comm]
    exact hb.handed.exact
  · have hne : b ≠ r.block := by
      rintro rfl
      exact disjoint_left.mp (nodup_add.mp w.nodup).2.2 (mem_coe.mpr hmem) hR
    rw [hb.handed.keeps b (mem_add.mpr (.inr (w.others b hR))), shrunk, Store.payload_modify, if_neg hne]

/-- A stream that has no block takes back one that nobody else has. -/
theorem Working.retake (w : Working c v s F R) (hrefs : v.refs = rs ++ [r])
    (hcur : s.curBlock = none) (hown : r.block ∉ c.tls.chain) (hR : r.block ∉ R) :
    Working (c.setHeap (c.heap.inc r.block)) v { s with curBlock := some r.block } F R := by
  have hchain : own c s = c.tls.chain := by
    rw [own, hcur]
    rfl
  have hnew : own (c.setHeap (c.heap.inc r.block)) { s with curBlock := some r.block } = r.block :: c.tls.chain := rfl
  have hmem : r.block ∈ blocks v.refs + (↑(own c s) + F) := by
    refine mem_add.mpr (.inl (mem_blocks ?_))
    rw [hrefs]
    exact List.mem_append_right rs List.mem_cons_self
  have hinc := Recount.inc w.exact hmem
  have hnodup := w.nodup
  rw [hchain] at hnodup
  refine ⟨w.ok, ?_, w.sound.recount hinc, w.wf, ?_, w.others⟩
  · have hsplit : blocks v.refs + (↑(own (c.setHeap (c.heap.inc r.block)) { s with curBlock := some r.block }) + F) =
        r.block ::ₘ (blocks v.refs + (↑(own c s) + F)) := by
      rw [hnew, hchain, ← cons_coe, cons_add, add_cons]
    rw [hsplit]
    exact hinc.exact
  · rw [hnew, ← cons_coe, cons_add, nodup_cons]
    refine ⟨fun hb => ?_, hnodup⟩
    rcases mem_add.mp hb with hb | hb
    · exact hown (mem_coe.mp hb)
    · exact hR hb

/-- Whether a round of `BackUp` takes a block back that is in the chain of the thread, or
    is one of the blocks `R` of others. -/
def retakesOnce (R : List BlockId) (c : Ctx) (v : IOBuf) (s : Stream) : Bool :=
  s.curBlock.isNone && u32 (v.backRef.offset + v.backRef.length) == endOf c.heap v.backRef.block &&
    (c.tls.chain ++ R).contains v.backRef.block

/-- The same for all rounds. -/
def retakes (R : List BlockId) : Nat → Ctx → IOBuf → Stream → Nat → Bool
  | 0, _, _, _, _ => false
  | fuel + 1, c, v, s, count =>
    !v.isEmpty && (retakesOnce R c v s ||
      match backUpOnce c v s count with
      | some (c, v, s, some count) => retakes R fuel c v s count
      | _ => false)

theorem Working.backUpRef {t : Ctx × IOBuf × Stream × Option Nat}
    (w : Working c v s F R) (he : AtEnd c.heap v s m k rs r) (heq : backUpRef c v s n r r.block = t) :
    Working t.1 t.2.1 t.2.2.1 F R ∧ (∀ b ∈ R, t.1.heap.payload b = c.heap.payload b) ∧
      t.2.2.1.buf = s.buf ∧ t.2.2.1.blockSize = s.blockSize ∧ t.2.2.1.latest = none := by
  obtain ⟨c', v', s', hback, hb⟩ := backUpRef_spec w.ok w.exact w.sound he n
  have hmem : r.block ∈ own c s := by
    rw [he.own]
    exact List.mem_cons_self
  obtain ⟨hw, hkeep⟩ := w.backed hb hmem
  rw [hback] at heq
  subst heq
  refine ⟨hw, hkeep, ?_⟩
  dsimp only
  rw [hb.stream]
  exact ⟨rfl, rfl, rfl⟩

theorem backUpOnce_working {R : List BlockId} {t : Ctx × IOBuf × Stream × Option Nat}
    (w : Working c v s F ↑R) (hne : v.isEmpty = false) (hfree : retakesOnce R c v s = false)
    (heq : backUpOnce c v s n = some t) :
    Working t.1 t.2.1 t.2.2.1 F ↑R ∧ (∀ b ∈ R, t.1.heap.payload b = c.heap.payload b) ∧
      t.2.2.1.buf = s.buf ∧ t.2.2.1.blockSize = s.blockSize ∧ t.2.2.1.latest = none := by
  have hnil : v.refs ≠ [] := by
    rw [w.ok.isEmpty, List.isEmpty_eq_false_iff] at hne
    exact hne
  obtain ⟨rs, r, hrefs⟩ := List.eq_nil_or_concat' v.refs |>.resolve_left hnil
  have hr : r ∈ v.refs := by
    rw [hrefs]
    exact List.mem_append_right rs List.mem_cons_self
  have hbound := (w.ok.refs r hr).bound
  have hu : u32 (r.offset + r.length) = r.offset + r.length := Nat.mod_eq_of_lt (by omega)
  obtain ⟨k, hk⟩ := w.exact.payload (mem_add.mpr (.inl (mem_blocks hr)))
  have hend : endOf c.heap r.block = k.size := by
    rw [endOf, hk]
    rfl
  rw [retakesOnce, w.ok.backRef hrefs, hu, hend] at hfree
  rw [backUpOnce, w.ok.backRef hrefs, hu] at heq
  cases hcur : s.curBlock with
  | some b =>
    rw [hcur] at heq
    dsimp only at heq
    split at heq
    · exact absurd heq.symm (Option.some_ne_none t)
    · rename_i hcheck
      have hblock : r.block = b := not_not.mp fun h => hcheck (.inl h)
      subst hblock
      have hsize : r.offset + r.length = k.size := (not_not.mp fun h => hcheck (.inr h)).trans hend
      exact w.backUpRef ⟨hcur, hk, hrefs, hsize, Nat.zero_le _⟩ (Option.some.inj heq)
  | none =>
    rw [hcur] at heq hfree
    dsimp only at heq
    rw [hend] at heq
    split at heq
    · -- the bytes behind the reference belong to others: they are only popped
      split at heq
      · exact absurd heq.symm (Option.some_ne_none t)
      · obtain ⟨p, hp, rfl⟩ := Option.map_eq_some_iff.mp heq
        obtain ⟨h', v', ws, hpop, hedit, -⟩ := popBack_spec w.ok w.exact n
        rw [hpop] at hp
        cases hp
        refine ⟨⟨hedit.ok, hedit.exact, w.sound.recount hedit.count, w.wf, w.nodup, w.others⟩, fun b hb => ?_, rfl, rfl, rfl⟩
        exact hedit.count.keeps b (mem_rest (w.others b (mem_coe.mpr hb)))
    · rename_i hcheck
      have hsize : r.offset + r.length = k.size := not_not.mp hcheck
      rw [hsize] at hfree
      simp only [Option.isNone_none, Bool.true_and, beq_self_eq_true, List.contains_eq_mem, List.mem_append,
        decide_eq_false_iff_not, not_or] at hfree
      have hw := w.retake hrefs hcur hfree.1 (fun h => hfree.2 (mem_coe.mp h))
      have hk' : (c.setHeap (c.heap.inc r.block)).heap.payload r.block = some k := by
        show (c.heap.inc r.block).payload r.block = some k
        rw [Store.payload_inc]
        exact hk
      obtain ⟨hw', hkeep, hsame⟩ := hw.backUpRef ⟨rfl, hk', hrefs, hsize, Nat.zero_le _⟩ (Option.some.inj heq)
      refine ⟨hw', fun b hb => (hkeep b hb).trans (Store.payload_inc _ _ _), hsame⟩

theorem backUp_working {R : List BlockId} : ∀ {fuel : Nat} {c : Ctx} {v : IOBuf} {s : Stream} {n : Nat}
    {t : Ctx × IOBuf × Stream}, Working c v s F ↑R → retakes R fuel c v s n = false →
    backUp fuel c v s n = some t →
    Working t.1 t.2.1 t.2.2 F ↑R ∧ (∀ b ∈ R, t.1.heap.payload b = c.heap.payload b) ∧
      t.2.2.buf = s.buf ∧ t.2.2.blockSize = s.blockSize ∧ (t.2.2.latest = none ∨ t = (c, v, s))
  | 0, c, v, s, n, t, _, _, heq => absurd heq.symm (Option.some_ne_none t)
  | fuel + 1, c, v, s, n, t, w, hfree, heq => by
    rw [backUp] at heq
    rw [retakes] at hfree
    by_cases hne : v.isEmpty
    · rw [if_pos hne] at heq
      split at heq
      · cases heq
        exact ⟨w, fun b _ => rfl, rfl, rfl, .inr rfl⟩
      · exact absurd heq.symm (Option.some_ne_none t)
    · have hne : v.isEmpty = false := Bool.eq_false_iff.mpr hne
      rw [hne, if_neg Bool.false_ne_true] at heq
      rw [hne, Bool.not_false, Bool.true_and, Bool.or_eq_false_iff] at hfree
      cases honce : backUpOnce c v s n with
      | none =>
        rw [honce] at heq
        exact absurd heq.symm (Option.some_ne_none t)
      | some d =>
        obtain ⟨hw, hkeep, hbuf, hsize, hlatest⟩ := backUpOnce_working w hne hfree.1 honce
        obtain ⟨c1, v1, s1, left⟩ := d
        rw [honce] at heq hfree
        cases left with
        | none =>
          cases heq
          exact ⟨hw, hkeep, hbuf, hsize, .inl hlatest⟩
        | some count =>
          obtain ⟨hw', hkeep', hbuf', hsize', hlatest'⟩ := backUp_working hw hfree.2 heq
          refine ⟨hw', fun b hb => (hkeep' b hb).trans (hkeep b hb), hbuf'.trans hbuf, hsize'.trans hsize, .inl ?_⟩
          rcases hlatest' with hnone | rfl
          · exact hnone
          · exact hlatest

end LightRpc.IOBuffer

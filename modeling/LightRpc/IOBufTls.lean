import LightRpc.IOBufOps

/- Appending bytes: the blocks in the chain of a thread.

   A thread writes behind the used part of the first block of its chain that is not full.
   For everybody else such a block grows: its used part gets longer and what was in it
   stays (`Grown`). `Later` collects what the other holders `F` see of the operations of
   one thread. -/
namespace LightRpc.IOBuffer

open Lib.RefCount Multiset List

variable {data : List UInt8} {o : List BlockId} {x : UInt8}

variable {h h' h'' : Heap} {c c' c'' : Ctx} {v v' : IOBuf} {r : BlockRef} {rs : List BlockRef}
  {F m m' : Multiset BlockId} {n : Nat} {b : BlockId} {k k' k'' : Block}

/-- Every block uses no more than it has, and has less than 2^31 bytes. -/
def Sound (h : Heap) : Prop := ∀ b k, h.payload b = some k → k.size ≤ k.cap ∧ k.cap < 2 ^ 31

structure Grown (k k' : Block) : Prop where
  size : k.size ≤ k'.size
  cap : k'.cap = k.cap
  data : ∀ i < k.size, k'.data i = k.data i

theorem Grown.refl (k : Block) : Grown k k := ⟨Nat.le_refl _, rfl, fun _ _ => rfl⟩

theorem Grown.trans (g : Grown k k') (g' : Grown k' k'') : Grown k k'' where
  size := Nat.le_trans g.size g'.size
  cap := g'.cap.trans g.cap
  data i hi := (g'.data i (Nat.lt_of_lt_of_le hi g.size)).trans (g.data i hi)

def Grows (h h' : Heap) (S : Multiset BlockId) : Prop :=
  ∀ b ∈ S, ∀ k, h.payload b = some k → ∃ k', h'.payload b = some k' ∧ Grown k k'

namespace Grows

theorem of_eq (hk : ∀ b ∈ F, h'.payload b = h.payload b) : Grows h h' F :=
  fun b hb k hp => ⟨k, (hk b hb).trans hp, .refl k⟩

theorem trans (g : Grows h h' F) (g' : Grows h' h'' F) : Grows h h'' F := by
  intro b hb k hk
  obtain ⟨k', hk', hg⟩ := g b hb k hk
  obtain ⟨k'', hk'', hg'⟩ := g' b hb k' hk'
  exact ⟨k'', hk'', hg.trans hg'⟩

/-- References in the used part of blocks that grow are not affected. -/
theorem fits (g : Grows h h' F) (hf : Fits h rs) (hmem : ∀ r ∈ rs, r.block ∈ F) :
    Fits h' rs ∧ bytes h' rs = bytes h rs := by
  refine ⟨fun r hr => ?_, ?_⟩
  · obtain ⟨k, hk, hsize⟩ := hf r hr
    obtain ⟨k', hk', hg⟩ := g r.block (hmem r hr) k hk
    exact ⟨k', hk', Nat.le_trans hsize hg.size⟩
  · apply List.flatMap_congr
    intro r hr
    obtain ⟨k, hk, hsize⟩ := hf r hr
    obtain ⟨k', hk', hg⟩ := g r.block (hmem r hr) k hk
    rw [readRef_of_payload hk, readRef_of_payload hk']
    apply List.map_congr_left
    intro i hi
    have := List.mem_range.mp hi
    exact hg.data _ (by omega)

end Grows

theorem Sound.recount (hs : Sound h) (hc : Recount h m h' m') : Sound h' := by
  intro b k hk
  rw [hc.keeps b (hc.exact.mem_of_payload hk)] at hk
  exact hs b k hk

theorem Sound.alloc (hs : Sound h) (hk : k.size ≤ k.cap ∧ k.cap < 2 ^ 31) : Sound (h.alloc k) := by
  intro b k' hk'
  rw [Store.payload_alloc] at hk'
  split at hk'
  · rw [← Option.some.inj hk']
    exact hk
  · exact hs b k' hk'

theorem Sound.modify (hs : Sound h) {f : Block → Block}
    (hf : ∀ k, h.payload b = some k → (f k).size ≤ (f k).cap ∧ (f k).cap < 2 ^ 31) : Sound (h.modify b f) := by
  intro b' k' hk'
  rw [Store.payload_modify] at hk'
  split at hk'
  · obtain ⟨k, hk, rfl⟩ := Option.map_eq_some_iff.mp hk'
    exact hf k hk
  · exact hs b' k' hk'

/-- A block from the pool is no larger than the pool's largest. -/
def Small (h : Heap) (b : BlockId) : Prop := ∀ k, h.payload b = some k → k.cap ≤ maxBlockSize

/-- What the holders `F` see while the blocks `o`, to be written behind their used part,
    become `o'`. -/
structure Later (h : Heap) (o : List BlockId) (F : Multiset BlockId) (h' : Heap) (o' : List BlockId) : Prop where
  bound : ∀ b ∈ F, b < h.next
  grows : Grows h h' F
  still : ∀ b ∈ F, b ∉ o → h'.payload b = h.payload b
  owned : ∀ b ∈ o', b ∈ o ∨ h.next ≤ b
  nodup : o.Nodup → o'.Nodup
  small : (∀ b ∈ o, Small h b) → ∀ b ∈ o', Small h' b
  next : h.next ≤ h'.next

namespace Later

variable {o' o'' : List BlockId}

theorem refl (hb : ∀ b ∈ F, b < h.next) : Later h o F h o :=
  ⟨hb, .of_eq (fun _ _ => rfl), fun _ _ _ => rfl, fun _ h => .inl h, id, id, Nat.le_refl _⟩

theorem trans (l : Later h o F h' o') (l' : Later h' o' F h'' o'') : Later h o F h'' o'' where
  bound := l.bound
  grows := l.grows.trans l'.grows
  still b hb hn := by
    refine (l'.still b hb fun hmem => ?_).trans (l.still b hb hn)
    rcases l.owned b hmem with hold | hnew
    · exact hn hold
    · exact absurd (l.bound b hb) (Nat.not_lt.mpr hnew)
  owned b hb := by
    rcases l'.owned b hb with hmem | hnew
    · exact l.owned b hmem
    · exact .inr (Nat.le_trans l.next hnew)
  nodup hn := l'.nodup (l.nodup hn)
  small hs := l'.small (l.small hs)
  next := Nat.le_trans l.next l'.next

theorem mono {G : Multiset BlockId} (l : Later h o F h' o') (hsub : ∀ b ∈ G, b ∈ F) : Later h o G h' o' :=
  ⟨fun b hb => l.bound b (hsub b hb), fun b hb => l.grows b (hsub b hb), fun b hb => l.still b (hsub b hb),
    l.owned, l.nodup, l.small, l.next⟩

/-- The holders' blocks are left alone, and no block is new. -/
theorem of_keeps (hb : ∀ b ∈ F, b < h.next) (hk : ∀ b, b ∈ F ∨ b ∈ o' → h'.payload b = h.payload b)
    (ho : o'.Subperm o) (hnext : h'.next = h.next) : Later h o F h' o' := by
  refine ⟨hb, .of_eq (fun b hb => hk b (.inl hb)), fun b hb _ => hk b (.inl hb), fun b hmem => .inl (ho.subset hmem),
    fun hn => ?_, fun hs b hmem k hp => ?_, Nat.le_of_eq hnext.symm⟩
  · obtain ⟨l, hperm, hsub⟩ := ho
    exact hperm.nodup_iff.mp (hn.sublist hsub)
  · rw [hk b (.inr hmem)] at hp
    exact hs b (ho.subset hmem) k hp

theorem of_recount {m : Multiset BlockId} (hex : Exact h m) (hc : Recount h m h' m') (hF : ∀ b ∈ F, b ∈ m')
    (hm : ∀ b ∈ o', b ∈ m') (ho : o'.Subperm o) : Later h o F h' o' := by
  refine .of_keeps (fun b hb => hex.lt_next (hc.sub b (hF b hb))) (fun b hb => hc.keeps b ?_) ho hc.next
  rcases hb with hb | hb
  · exact hF b hb
  · exact hm b hb

/-- A block is new, and may be one to be written. -/
theorem alloc (hb : ∀ b ∈ F, b < h.next) (ho : ∀ b ∈ o, b < h.next)
    (ho' : o' = h.next :: o ∧ k.cap ≤ maxBlockSize ∨ o' = o) : Later h o F (h.alloc k) o' := by
  have hold : ∀ b ∈ o, Small h b → Small (h.alloc k) b := by
    intro b hmem hs k' hk'
    rw [Store.payload_alloc, if_neg (Nat.ne_of_lt (ho b hmem))] at hk'
    exact hs k' hk'
  have hkeeps : ∀ b ∈ F, (h.alloc k).payload b = h.payload b := by
    intro b hmem
    rw [Store.payload_alloc, if_neg (Nat.ne_of_lt (hb b hmem))]
  refine ⟨hb, .of_eq hkeeps, fun b hmem _ => hkeeps b hmem, fun b hmem => ?_, fun hn => ?_, fun hs b hmem => ?_,
    Nat.le_succ _⟩
  · rcases ho' with ⟨rfl, -⟩ | rfl
    · rcases mem_cons.mp hmem with rfl | hmem
      · exact .inr (Nat.le_refl _)
      · exact .inl hmem
    · exact .inl hmem
  · rcases ho' with ⟨rfl, -⟩ | rfl
    · exact nodup_cons.mpr ⟨fun hmem => absurd (ho _ hmem) (Nat.lt_irrefl _), hn⟩
    · exact hn
  · rcases ho' with ⟨rfl, hcap⟩ | rfl
    · rcases mem_cons.mp hmem with rfl | hmem
      · intro k' hk'
        rw [Store.payload_alloc, if_pos rfl] at hk'
        rw [← Option.some.inj hk']
        exact hcap
      · exact hold b hmem (hs b hmem)
    · exact hold b hmem (hs b hmem)

end Later

theorem mem_list (hb : b ∈ o) : b ∈ (↑o : Multiset BlockId) + F :=
  mem_add.mpr (.inl (mem_coe.mpr hb))

theorem mem_mid (hb : b ∈ o) : b ∈ m + (↑o + F) :=
  mem_add.mpr (.inr (mem_list hb))

theorem mem_rest (hb : b ∈ F) : b ∈ m + (↑o + F) :=
  mem_add.mpr (.inr (mem_add.mpr (.inr hb)))

/-! The blocks of the chain. -/

theorem isFull_of_payload (hk : h.payload b = some k) : isFull h b = k.full := by
  rw [isFull, hk]
  rfl

theorem dropFull_suffix : ∀ (h : Heap) (chain : List BlockId) (num : Nat), (dropFull h chain num).2.1 <:+ chain ∧
    (num = chain.length → (dropFull h chain num).2.2 = (dropFull h chain num).2.1.length)
  | h, [], num => ⟨suffix_rfl, id⟩
  | h, b :: chain, num => by
    rw [dropFull]
    split
    · obtain ⟨hsuf, hnum⟩ := dropFull_suffix (h.dec b) chain (num - 1)
      refine ⟨hsuf.trans (suffix_cons b chain), fun heq => hnum ?_⟩
      rw [heq, length_cons, Nat.add_sub_cancel]
    · exact ⟨suffix_rfl, id⟩

theorem dropFull_spec : ∀ {chain : List BlockId} {h : Heap} (num : Nat), Exact h (↑chain + F) →
    Recount h (↑chain + F) (dropFull h chain num).1 (↑(dropFull h chain num).2.1 + F) ∧
      ∀ b rest, (dropFull h chain num).2.1 = b :: rest → isFull (dropFull h chain num).1 b = false
  | [], h, num, hex => ⟨.refl hex, fun b rest heq => absurd heq.symm (cons_ne_nil b rest)⟩
  | b :: chain, h, num, hex => by
    rw [dropFull]
    by_cases hfull : isFull h b
    · rw [if_pos hfull]
      rw [← cons_coe, cons_add] at hex ⊢
      have hdec := Recount.dec hex
      obtain ⟨hcount, hhead⟩ := dropFull_spec (num - 1) hdec.exact
      exact ⟨hdec.trans hcount, hhead⟩
    · rw [if_neg hfull]
      refine ⟨.refl hex, fun b' rest heq => ?_⟩
      obtain ⟨rfl, -⟩ := cons.inj heq
      exact Bool.eq_false_iff.mpr hfull

/-- The chain follows the pointers, and the last one is null. -/
def Linked (portal : BlockId → Option BlockId) : List BlockId → Prop
  | [] => True
  | b :: rest => portal b = rest.head? ∧ Linked portal rest

theorem Linked.suffix {portal : BlockId → Option BlockId} : ∀ {chain chain' : List BlockId}, chain' <:+ chain →
    Linked portal chain → Linked portal chain'
  | [], chain', hsuf, _ => by
    rw [suffix_nil.mp hsuf]
    trivial
  | b :: chain, chain', hsuf, hl => by
    rcases suffix_cons_iff.mp hsuf with rfl | hsuf
    · exact hl
    · exact Linked.suffix hsuf hl.2

/-- Writing the pointer of a block that is not in the chain leaves it as it is. -/
theorem Linked.link {t : Tls} {next : Option BlockId} : ∀ {chain : List BlockId}, b ∉ chain →
    Linked t.portal chain → Linked (t.link b next).portal chain
  | [], _, _ => trivial
  | b' :: chain, hb, hl => by
    refine ⟨?_, Linked.link (fun hmem => hb (mem_cons_of_mem b' hmem)) hl.2⟩
    have hne : b' ≠ b := fun heq => hb (heq ▸ mem_cons_self)
    exact (if_neg hne).trans hl.1

theorem Tls.link_self (t : Tls) (b : BlockId) (next : Option BlockId) : (t.link b next).portal b = next := if_pos rfl

/-- The TLS data of a thread: the chain has no block twice and no cycle, and is counted. -/
structure Tls.Wf (t : Tls) : Prop where
  nodup : t.chain.Nodup
  linked : Linked t.portal t.chain
  count : t.numBlocks = t.chain.length
  exits : t.chain ≠ [] → t.registered = true

theorem Tls.Wf.new : Tls.new.Wf := ⟨nodup_nil, trivial, rfl, fun h => absurd rfl h⟩

theorem shareTlsBlock_wf (hw : c.tls.Wf) : (shareTlsBlock c).1.tls.Wf := by
  obtain ⟨hsuf, hnum⟩ := dropFull_suffix c.heap c.tls.chain c.tls.numBlocks
  unfold shareTlsBlock
  generalize dropFull c.heap c.tls.chain c.tls.numBlocks = d at hsuf hnum ⊢
  obtain ⟨h1, chain, num⟩ := d
  dsimp only at hsuf hnum ⊢
  have hreg : (c.tls.registered || c.tls.chain.isEmpty) = true := by
    by_cases hnil : c.tls.chain = []
    · rw [hnil, List.isEmpty_nil, Bool.or_true]
    · rw [hw.exits hnil, Bool.true_or]
  have hdrop : Tls.Wf ⟨chain, num, c.tls.registered || c.tls.chain.isEmpty, c.tls.portal⟩ :=
    ⟨hw.nodup.sublist hsuf.sublist, hw.linked.suffix hsuf, hnum hw.count, fun _ => hreg⟩
  cases chain with
  | cons b rest => exact hdrop
  | nil =>
    dsimp only
    rw [Ctx.createBlock]
    by_cases hno : c.avail = 0 ∨ maxBlockSize < DEFAULT_BLOCK_SIZE
    · rw [if_pos hno]
      exact hdrop
    · rw [if_neg hno]
      have hone : num + 1 = [h1.next].length := congrArg (· + 1) (hnum hw.count)
      exact ⟨List.nodup_singleton _, ⟨Tls.link_self _ _ _, trivial⟩, hone, fun _ => hreg⟩

/-- A block to append to: a member of the chain with room behind its used part. -/
structure Room (c : Ctx) (b : BlockId) (k : Block) : Prop where
  mem : b ∈ c.tls.chain
  payload : c.heap.payload b = some k
  room : k.size < k.cap

theorem room_of_not_full (hk : h.payload b = some k) (hfull : isFull h b = false) : k.size < k.cap := by
  rw [isFull_of_payload hk, Block.full, decide_eq_false_iff_not] at hfull
  omega

theorem createBlock_spec (hsize : sizeofBlock ≤ n) : c.createBlock n = (c, none) ∨
      ∃ k, c.createBlock n = ({ c with heap := c.heap.alloc k, avail := c.avail - 1 }, some c.heap.next) ∧
        k.size = 0 ∧ k.cap = n - sizeofBlock ∧ k.cap ≤ maxBlockSize := by
  rw [Ctx.createBlock]
  by_cases hno : c.avail = 0 ∨ maxBlockSize < n
  · rw [if_pos hno]
    exact .inl rfl
  · rw [if_neg hno]
    have hmax : ¬ maxBlockSize < n := fun h => hno (.inr h)
    have hcap : u32 (sub64 n sizeofBlock) = n - sizeofBlock := by
      rw [sub64_of_le hsize (by unfold maxBlockSize at hmax; omega), u32, Nat.mod_eq_of_lt]
      unfold maxBlockSize at hmax
      omega
    refine .inr ⟨_, rfl, rfl, hcap, ?_⟩
    show u32 (sub64 n sizeofBlock) ≤ maxBlockSize
    omega

/-- What a step of the thread leaves: counts, blocks and what the others see. -/
structure Stepped (c : Ctx) (F : Multiset BlockId) (c' : Ctx) (m : Multiset BlockId) : Prop where
  exact : Exact c'.heap m
  sound : Sound c'.heap
  later : Later c.heap c.tls.chain F c'.heap c'.tls.chain
  wf : c.tls.Wf → c'.tls.Wf

theorem shareTlsBlock_spec (hex : Exact c.heap (↑c.tls.chain + F)) (hs : Sound c.heap) :
    Stepped c F (shareTlsBlock c).1 (↑(shareTlsBlock c).1.tls.chain + F) ∧
      (∀ b ∈ F, (shareTlsBlock c).1.heap.payload b = c.heap.payload b) ∧
      ∀ b, (shareTlsBlock c).2 = some b → ∃ k, Room (shareTlsBlock c).1 b k := by
  have hwf := shareTlsBlock_wf (c := c)
  have hsuf := (dropFull_suffix c.heap c.tls.chain c.tls.numBlocks).1
  obtain ⟨hcount, hhead⟩ := dropFull_spec c.tls.numBlocks hex
  unfold shareTlsBlock at hwf ⊢
  generalize dropFull c.heap c.tls.chain c.tls.numBlocks = d at hwf hsuf hcount hhead ⊢
  obtain ⟨h1, chain, num⟩ := d
  dsimp only at hwf hsuf hcount hhead ⊢
  have hkeeps : ∀ b ∈ F, h1.payload b = c.heap.payload b :=
    fun b hb => hcount.keeps b (mem_add.mpr (.inr hb))
  have hlater : Later c.heap c.tls.chain F h1 chain :=
    .of_recount hex hcount (fun b hb => mem_add.mpr (.inr hb))
      (fun b hb => mem_list hb) hsuf.sublist.subperm
  have hs1 : Sound h1 := hs.recount hcount
  cases chain with
  | cons b rest =>
    refine ⟨⟨hcount.exact, hs1, hlater, hwf⟩, hkeeps, fun b' hb' => ?_⟩
    obtain rfl := Option.some.inj hb'
    have hmem : b ∈ (↑(b :: rest) : Multiset BlockId) + F := mem_list mem_cons_self
    obtain ⟨k, hk⟩ := hcount.exact.payload hmem
    exact ⟨k, mem_cons_self, hk, room_of_not_full hk (hhead b rest rfl)⟩
  | nil =>
    rcases createBlock_spec (c := ⟨h1, ⟨[], num, c.tls.registered || c.tls.chain.isEmpty, c.tls.portal⟩, c.avail⟩)
      (n := DEFAULT_BLOCK_SIZE) (by decide) with heq | ⟨k, heq, hsize, hcap, hlt⟩
    · rw [heq] at hwf ⊢
      exact ⟨⟨hcount.exact, hs1, hlater, hwf⟩, hkeeps, fun b hb => absurd hb.symm (Option.some_ne_none b)⟩
    · rw [heq] at hwf ⊢
      dsimp only at hwf ⊢
      have hex1 := hcount.exact
      rw [coe_nil, zero_add] at hex1
      have hbound1 : ∀ b ∈ F, b < h1.next := fun b hb => hex1.lt_next hb
      refine ⟨⟨?_, ?_, ?_, hwf⟩, fun b hb => ?_, fun b hb => ?_⟩
      · rw [coe_singleton, singleton_add]
        exact hex1.alloc k
      · exact hs1.alloc ⟨by omega, Nat.lt_of_le_of_lt hlt (by decide)⟩
      · exact hlater.trans (.alloc hbound1 (fun b hb => absurd hb not_mem_nil) (.inl ⟨rfl, hlt⟩))
      · show (h1.alloc k).payload b = _
        rw [Store.payload_alloc, if_neg (Nat.ne_of_lt (hbound1 b hb)), hkeeps b hb]
      · cases hb
        refine ⟨k, mem_cons_self, ?_, ?_⟩
        · show (h1.alloc k).payload h1.next = _
          rw [Store.payload_alloc, if_pos rfl]
        · rw [hsize, hcap]
          decide

/-! Writing behind the used part of a block. -/

/-- The block after `bytes` were written behind its used part. -/
def Block.append (k : Block) (bytes : List UInt8) : Block := (k.write k.size bytes).resize (k.size + bytes.length)

theorem Grown.append (k : Block) (bytes : List UInt8) : Grown k (k.append bytes) := by
  refine ⟨Nat.le_add_right _ _, rfl, fun i hi => ?_⟩
  show (if k.size ≤ i ∧ i < k.size + bytes.length then bytes.getD (i - k.size) 0 else k.data i) = k.data i
  rw [if_neg (by omega)]

theorem append_data {bytes : List UInt8} : (List.range bytes.length).map (fun i => (k.append bytes).data (k.size + i)) = bytes := by
  apply List.ext_getElem
  · rw [List.length_map, List.length_range]
  · intro i hi hi'
    rw [List.getElem_map, List.getElem_range]
    show (if k.size ≤ k.size + i ∧ k.size + i < k.size + bytes.length then bytes.getD (k.size + i - k.size) 0
      else k.data (k.size + i)) = _
    rw [if_pos (by omega), Nat.add_sub_cancel_left, List.getD_eq_getElem _ _ hi']

/-- The block of the reference `r`, one of `o`, became `k'`, and the reference went into the
    buffer. -/
structure Piece (h : Heap) (o : List BlockId) (v : IOBuf) (F : Multiset BlockId) (k' : Block) (r : BlockRef)
    (h' : Heap) (v' : IOBuf) : Prop where
  refs : v'.refs = pushList v.refs r
  ok : v'.Ok
  exact : Exact h' (blocks v'.refs + (↑o + F))
  payload : ∀ b ∈ blocks v'.refs + (↑o + F), h'.payload b = if b = r.block then some k' else h.payload b
  next : h'.next = h.next

namespace Piece

theorem of_push (hv : v.Ok) (hex : Exact h (blocks v.refs + (↑o + F))) (hmem : r.block ∈ o) (hr : r.Ok)
    (hspare : Spare v.refs r.length 1) (hk : h.payload r.block = some k) (f : Block → Block) :
    Piece h o v F (f k) r (pushRef false (h.modify r.block f) v r).1 (pushRef false (h.modify r.block f) v r).2 := by
  have hex1 := hex.modify (mem_mid hmem) f
  obtain ⟨hrefs, hok, hcount⟩ := pushRef_copy hv hr hspare hex1 (mem_mid hmem)
  refine ⟨hrefs, hok, ?_, fun b hb => ?_, ?_⟩
  · rw [hrefs]
    exact hcount.exact
  · rw [hrefs] at hb
    rw [hcount.keeps b hb, Store.payload_modify, hk]
    rfl
  · rw [hcount.next, Store.next_modify]

section

variable (p : Piece h o v F k' r h' v')

include p

theorem modify (hmem : r.block ∈ o) (f : Block → Block) : Piece h o v F (f k') r (h'.modify r.block f) v' := by
  refine ⟨p.refs, p.ok, p.exact.modify (mem_mid hmem) f, fun b hb => ?_, ?_⟩
  · rw [Store.payload_modify, p.payload b hb, p.payload r.block (mem_mid hmem), if_pos rfl]
    by_cases heq : b = r.block
    · rw [if_pos heq, if_pos heq]
      rfl
    · rw [if_neg heq, if_neg heq, if_neg heq]
  · rw [Store.next_modify, p.next]

theorem kept (hb : b ∈ blocks v.refs + (↑o + F)) : h'.payload b = if b = r.block then some k' else h.payload b := by
  apply p.payload
  rw [p.refs, blocks_pushList]
  split
  · exact hb
  · rw [cons_add]
    exact mem_cons_of_mem hb

theorem grows (hk : h.payload r.block = some k) (hg : Grown k k') : Grows h h' (blocks v.refs + (↑o + F)) := by
  intro b hb k1 hk1
  rw [p.kept hb]
  by_cases heq : b = r.block
  · rw [if_pos heq]
    rw [heq, hk] at hk1
    cases hk1
    exact ⟨_, rfl, hg⟩
  · rw [if_neg heq]
    exact ⟨k1, hk1, .refl k1⟩

theorem sound (hs : Sound h) (hk' : k'.size ≤ k'.cap ∧ k'.cap < 2 ^ 31) : Sound h' := by
  intro b k1 hk1
  rw [p.payload b (p.exact.mem_of_payload hk1)] at hk1
  split at hk1
  · cases hk1
    exact hk'
  · exact hs b k1 hk1

/-- The buffer's bytes are the old ones and those of the reference behind them. -/
theorem bytes (hv : v.Ok) (hk : h.payload r.block = some k) (hg : Grown k k') (hmem : r.block ∈ o) (hr : r.Ok)
    (hend : r.offset + r.length ≤ k'.size) (hf : Fits h v.refs) :
    Fits h' v'.refs ∧ bytes h' v'.refs = bytes h v.refs ++ (List.range r.length).map
      (fun i => k'.data (r.offset + i)) := by
  obtain ⟨hfits, hbytes⟩ := (p.grows hk hg).fits hf (fun r hr => mem_add.mpr (.inl (mem_blocks hr)))
  have hb : h'.payload r.block = some k' := by
    rw [p.kept (mem_mid hmem), if_pos rfl]
  have hnew : Fits h' [r] := by
    intro r' hr'
    rw [List.mem_singleton.mp hr']
    exact ⟨k', hb, hend⟩
  obtain ⟨hpf, hpb⟩ := bytes_pushList hv.refs hr hfits hnew
  rw [p.refs]
  refine ⟨hpf, ?_⟩
  rw [hpb, hbytes, readRef_of_payload hb]

theorem later {G : Multiset BlockId} (hk : h.payload r.block = some k) (hg : Grown k k') (hmem : r.block ∈ o)
    (hG : ∀ b ∈ G, b ∈ blocks v.refs + (↑o + F)) (hbound : ∀ b ∈ G, b < h.next) : Later h o G h' o := by
  refine ⟨hbound, fun b hb => p.grows hk hg b (hG b hb), fun b hb hnot => ?_, fun _ h => .inl h, id,
    fun hs b hb k1 hk1 => ?_, Nat.le_of_eq p.next.symm⟩
  · have hne : b ≠ r.block := fun heq => hnot (heq ▸ hmem)
    exact (p.kept (hG b hb)).trans (if_neg hne)
  · rw [p.kept (mem_mid hb)] at hk1
    split at hk1
    · cases hk1
      rw [hg.cap]
      exact hs r.block hmem k hk
    · exact hs b hb k1 hk1

end

end Piece

/-- `append` writes the bytes, then takes the reference, then moves the end of the used part. -/
theorem append_piece (hv : v.Ok) (hex : Exact h (blocks v.refs + (↑o + F))) (hmem : b ∈ o) (hk : h.payload b = some k)
    (hr : BlockRef.Ok ⟨k.size, data.length, b⟩) (hspare : Spare v.refs data.length 1) :
    Piece h o v F (k.append data) ⟨k.size, data.length, b⟩
      ((pushRef false (h.modify b (fun k' => k'.write k.size data)) v ⟨k.size, data.length, b⟩).1.modify b
        (fun k' => k'.resize (k.size + data.length)))
      (pushRef false (h.modify b (fun k' => k'.write k.size data)) v ⟨k.size, data.length, b⟩).2 :=
  (Piece.of_push hv hex hmem hr hspare hk (fun k' => k'.write k.size data)).modify hmem
    (fun k' => k'.resize (k.size + data.length))

/-- `push_back` moves the end of the used part first. -/
theorem pushBack_piece (hv : v.Ok) (hex : Exact h (blocks v.refs + (↑o + F))) (hmem : b ∈ o)
    (hk : h.payload b = some k) (hr : BlockRef.Ok ⟨k.size, 1, b⟩) (hspare : Spare v.refs 1 1) :
    Piece h o v F (k.append [x]) ⟨k.size, 1, b⟩
      (pushRef false (h.modify b (fun k' => (k'.write k.size [x]).resize (k.size + 1))) v ⟨k.size, 1, b⟩).1
      (pushRef false (h.modify b (fun k' => (k'.write k.size [x]).resize (k.size + 1))) v ⟨k.size, 1, b⟩).2 :=
  .of_push hv hex hmem hr hspare hk (fun k' => (k'.write k.size [x]).resize (k.size + 1))

/-- What appending `data` did, next to the holders `F`. -/
structure Appended (c : Ctx) (v : IOBuf) (F : Multiset BlockId) (c' : Ctx) (v' : IOBuf) (data : List UInt8) :
    Prop where
  ok : v'.Ok
  total : total v'.refs = total v.refs + data.length
  step : Stepped c F c' (blocks v'.refs + (↑c'.tls.chain + F))
  bytes : Fits c.heap v.refs → Fits c'.heap v'.refs ∧ bytes c'.heap v'.refs = bytes c.heap v.refs ++ data

theorem Appended.trans {v'' : IOBuf} {data' : List UInt8} (a : Appended c v F c' v' data)
    (a' : Appended c' v' F c'' v'' data') : Appended c v F c'' v'' (data ++ data') := by
  refine ⟨a'.ok, ?_, ⟨a'.step.exact, a'.step.sound, a.step.later.trans a'.step.later, fun hw => a'.step.wf (a.step.wf hw)⟩,
    fun hf => ?_⟩
  · rw [a'.total, a.total, length_append]
    omega
  · obtain ⟨hf1, hb1⟩ := a.bytes hf
    obtain ⟨hf2, hb2⟩ := a'.bytes hf1
    refine ⟨hf2, ?_⟩
    rw [hb2, hb1, append_assoc]

/-- Getting the block is a step that appends nothing. -/
theorem shareTlsBlock_appended (hv : v.Ok) (hex : Exact c.heap (blocks v.refs + (↑c.tls.chain + F)))
    (hs : Sound c.heap) : Appended c v F (shareTlsBlock c).1 v [] ∧
      ∀ b, (shareTlsBlock c).2 = some b → ∃ k, Room (shareTlsBlock c).1 b k := by
  rw [add_left_comm] at hex
  obtain ⟨hstep, hkeeps, hroom⟩ := shareTlsBlock_spec hex hs
  have hown : ∀ r ∈ v.refs, (shareTlsBlock c).1.heap.payload r.block = c.heap.payload r.block :=
    fun r hr => hkeeps r.block (mem_add.mpr (.inl (mem_blocks hr)))
  refine ⟨⟨hv, rfl, ⟨?_, hstep.sound, ?_, hstep.wf⟩, fun hf => ⟨hf.congr hown, ?_⟩⟩, hroom⟩
  · rw [add_left_comm]
    exact hstep.exact
  · exact hstep.later.mono (fun b hb => mem_add.mpr (.inr hb))
  · rw [append_nil]
    exact bytes_congr hown

theorem Room.ref_ok (hk : Room c b k) (hs : Sound c.heap) (h0 : 0 < data.length) (hfit : k.size + data.length ≤ k.cap) :
    BlockRef.Ok ⟨k.size, data.length, b⟩ := by
  have hcap := (hs b k hk.payload).2
  exact ⟨h0, (by omega : k.size + data.length < 2 ^ 31)⟩

theorem Piece.appended (p : Piece c.heap c.tls.chain v F (k.append data) ⟨k.size, data.length, b⟩ h' v') (hv : v.Ok)
    (hs : Sound c.heap) (hroom : Room c b k) (h0 : 0 < data.length) (hfit : k.size + data.length ≤ k.cap)
    (hbound : ∀ b ∈ F, b < c.heap.next) : Appended c v F (c.setHeap h') v' data := by
  have hr := hroom.ref_ok hs h0 hfit
  have hg : Grown k (k.append data) := .append k data
  refine ⟨p.ok, ?_, ⟨p.exact, p.sound hs ⟨hfit, (hs b k hroom.payload).2⟩,
    p.later hroom.payload hg hroom.mem (fun _ => mem_rest) hbound, id⟩, fun hf => ?_⟩
  · rw [p.refs]
    exact (pushList_ok hv.refs hr).2
  · obtain ⟨hpf, hpb⟩ := p.bytes hv hroom.payload hg hroom.mem hr (Nat.le_refl _) hf
    refine ⟨hpf, ?_⟩
    rw [append_data] at hpb
    exact hpb

theorem Appended.bound (a : Appended c v F c' v' data) : ∀ b ∈ F, b < c'.heap.next :=
  fun b hb => Nat.lt_of_lt_of_le (a.step.later.bound b hb) a.step.later.next

theorem pushBack_spec (hv : v.Ok) (hex : Exact c.heap (blocks v.refs + (↑c.tls.chain + F))) (hs : Sound c.heap)
    (hspare : Spare v.refs 1 1) : ∃ c' v' ok done, pushBack c v x = (c', v', ok) ∧ Appended c v F c' v' done ∧
      (if ok then done = [x] else done = []) := by
  obtain ⟨happ, hroom⟩ := shareTlsBlock_appended hv hex hs
  rw [pushBack]
  generalize shareTlsBlock c = s at happ hroom
  obtain ⟨c1, ob⟩ := s
  cases ob with
  | none => exact ⟨c1, v, false, [], rfl, happ, rfl⟩
  | some b =>
    obtain ⟨k, hk⟩ := hroom b rfl
    dsimp only at happ hk ⊢
    have hr : BlockRef.Ok ⟨k.size, [x].length, b⟩ := hk.ref_ok happ.step.sound Nat.one_pos hk.room
    have hp := pushBack_piece (x := x) hv happ.step.exact hk.mem hk.payload hr hspare
    rw [hk.payload]
    exact ⟨_, _, true, [] ++ [x], rfl,
      happ.trans (hp.appended hv happ.step.sound hk Nat.one_pos hk.room happ.bound), rfl⟩

theorem appendLoop_spec : ∀ {n : Nat} {c : Ctx} {v : IOBuf} {data : List UInt8}, data.length ≤ n → v.Ok →
    Exact c.heap (blocks v.refs + (↑c.tls.chain + F)) → Sound c.heap →
    Spare v.refs data.length data.length →
    ∃ c' v' ok done, appendLoop n c v data = some (c', v', ok) ∧ Appended c v F c' v' done ∧ done <+: data ∧
      (ok → done = data)
  | n, c, v, [], _, hv, hex, hs, _ => by
    have hbound : ∀ b ∈ F, b < c.heap.next :=
      fun b hb => hex.lt_next (mem_rest hb)
    refine ⟨c, v, true, [], ?_, ⟨hv, rfl, ⟨hex, hs, .refl hbound, id⟩, fun hf => ⟨hf, (append_nil _).symm⟩⟩,
      prefix_rfl, fun _ => rfl⟩
    cases n <;> rfl
  | 0, c, v, x :: data, hlen, _, _, _, _ => absurd hlen (Nat.not_succ_le_zero _)
  | n + 1, c, v, x :: data, hlen, hv, hex, hs, hspare => by
    obtain ⟨happ, hroom⟩ := shareTlsBlock_appended hv hex hs
    rw [appendLoop]
    generalize shareTlsBlock c = s at happ hroom
    obtain ⟨c1, ob⟩ := s
    cases ob with
    | none => exact ⟨c1, v, false, [], rfl, happ, nil_prefix, fun h => absurd h Bool.false_ne_true⟩
    | some b =>
      obtain ⟨k, hk⟩ := hroom b rfl
      have hfree := hk.room
      dsimp only at happ hk ⊢
      rw [hk.payload]
      dsimp only [Option.elim, Block.leftSpace]
      -- the part of the data that fits into the block
      obtain ⟨nc, hnc⟩ : ∃ nc, nc = min (x :: data).length (k.cap - k.size) := ⟨_, rfl⟩
      have hpos : 0 < nc := by
        rw [length_cons] at hnc
        omega
      have htake : ((x :: data).take nc).length = nc := by
        rw [length_take]
        omega
      have hfit : k.size + ((x :: data).take nc).length ≤ k.cap := by omega
      have hr := hk.ref_ok happ.step.sound (by omega) hfit
      have hp := append_piece hv happ.step.exact hk.mem hk.payload hr (hspare.mono (by omega) (by omega))
      have hone := hp.appended hv happ.step.sound hk (by omega) hfit happ.bound
      have hrefs := hp.refs
      have hlen' : ((x :: data).drop nc).length = (x :: data).length - nc := length_drop
      have hspare' := Spare.push (n := ((x :: data).drop nc).length) (k := ((x :: data).drop nc).length)
        (hspare.mono (by dsimp only; omega) (by omega)) hv.refs hr
      rw [← hrefs, htake] at hspare'
      rw [htake] at hone
      rw [← hnc]
      obtain ⟨c', v', ok, done, heq, hrest, hpre, hdone⟩ := appendLoop_spec (n := n) (by omega) hone.ok
        hone.step.exact hone.step.sound hspare'
      refine ⟨c', v', ok, _, heq, (happ.trans hone).trans hrest, ?_, fun hok => ?_⟩
      · rw [nil_append]
        conv_rhs => rw [← take_append_drop nc (x :: data)]
        exact prefix_append_right_inj _ |>.mpr hpre
      · rw [hdone hok, nil_append, take_append_drop]

/-! Operations on one buffer, as the others see them. -/

/-- An operation of a thread on one buffer that maps its bytes by `f`. -/
structure Unary (c : Ctx) (v : IOBuf) (F : Multiset BlockId) (c' : Ctx) (v' : IOBuf)
    (f : List UInt8 → List UInt8) : Prop where
  ok : v'.Ok
  step : Stepped c F c' (blocks v'.refs + (↑c'.tls.chain + F))
  bytes : Fits c.heap v.refs → Fits c'.heap v'.refs ∧ bytes c'.heap v'.refs = f (bytes c.heap v.refs)

theorem Appended.unary (a : Appended c v F c' v' data) : Unary c v F c' v' (· ++ data) :=
  ⟨a.ok, a.step, a.bytes⟩

/-- References that only move leave the blocks of the others alone. -/
theorem Edit.unary {f : List UInt8 → List UInt8} (e : Edit c.heap v (↑c.tls.chain + F) h' v' rs) (hs : Sound c.heap)
    (hex : Exact c.heap (blocks v.refs + (↑c.tls.chain + F)))
    (hb : Fits c.heap v.refs → Fits c.heap rs ∧ IOBuffer.bytes c.heap rs = f (IOBuffer.bytes c.heap v.refs)) :
    Unary c v F (c.setHeap h') v' f := by
  have hin : ∀ b ∈ F, ∀ m : Multiset BlockId, b ∈ m + (↑c.tls.chain + F) :=
    fun b hb m => mem_rest hb
  refine ⟨e.ok, ⟨e.exact, hs.recount e.count, ?_, id⟩, fun hf => ⟨e.fits (hb hf).1, ?_⟩⟩
  · exact .of_recount hex e.count (fun b hb => hin b hb _)
      (fun b hb => mem_mid hb)
      (List.Subperm.refl _)
  · exact e.bytes_eq.trans (hb hf).2

section

variable (hv : v.Ok) (hex : Exact c.heap (blocks v.refs + (↑c.tls.chain + F))) (hs : Sound c.heap)

include hv hex hs

theorem append_spec (hspare : Spare v.refs data.length data.length) :
    ∃ c' v' ok done, append c v data = some (c', v', ok) ∧ Unary c v F c' v' (· ++ done) ∧ done <+: data ∧
      (ok → done = data) := by
  have hloop : append c v data = appendLoop data.length c v data →
      ∃ c' v' ok done, append c v data = some (c', v', ok) ∧ Unary c v F c' v' (· ++ done) ∧ done <+: data ∧
        (ok = true → done = data) := by
    intro heq
    obtain ⟨c', v', ok, done, hrun, happ, hpre, hdone⟩ := appendLoop_spec (Nat.le_refl _) hv hex hs hspare
    exact ⟨c', v', ok, done, heq.trans hrun, happ.unary, hpre, hdone⟩
  match data with
  | [] => exact hloop rfl
  | _ :: _ :: _ => exact hloop rfl
  | [x] =>
    obtain ⟨c', v', ok, done, heq, happ, hdone⟩ := pushBack_spec (x := x) hv hex hs hspare
    refine ⟨c', v', ok, done, congrArg some heq, happ.unary, ?_, fun hok => ?_⟩
    · split at hdone
      · rw [hdone]
      · rw [hdone]
        exact nil_prefix
    · rwa [if_pos hok] at hdone

theorem resize_spec (hspare : Spare v.refs (n - total v.refs) (n - total v.refs)) :
    ∃ c' v' ok f, resize c v n x = some (c', v', ok) ∧ Unary c v F c' v' f ∧
      (ok → f = if n < total v.refs then (List.take n ·) else (· ++ List.replicate (n - total v.refs) x)) := by
  rw [resize, hv.length]
  by_cases hlt : n < total v.refs
  · obtain ⟨h', v', rs, heq, hedit, hbytes⟩ := popBack_spec hv hex (total v.refs - n)
    rw [if_pos hlt, heq, if_pos hlt]
    refine ⟨_, _, true, _, rfl, hedit.unary hs hex (f := (List.take n ·)) fun hf => ⟨(hbytes hf).1, ?_⟩, fun _ => rfl⟩
    have hback : total v.refs - (total v.refs - n) = n := by omega
    rw [(hbytes hf).2, hback]
  · rw [if_neg hlt, if_neg hlt]
    have hlen : (List.replicate (n - total v.refs) x).length = n - total v.refs := List.length_replicate
    obtain ⟨c', v', ok, done, heq, happ, -, hdone⟩ := appendLoop_spec (Nat.le_of_eq hlen) hv hex hs
      (hspare.mono (Nat.le_of_eq hlen) (Nat.le_of_eq hlen))
    refine ⟨c', v', ok, _, heq, happ.unary, fun hok => ?_⟩
    rw [hdone hok]

/-- The user's memory becomes a block of its own. -/
theorem appendUserData_spec (data : Nat → UInt8) (hn : n < 2 ^ 31) (hspare : Spare v.refs n 1) :
    ∃ c' v' ok, appendUserData c v data n = some (c', v', ok) ∧ Unary c v F c' v'
      (· ++ if ok then (List.range n).map data else []) := by
  have hin : ∀ b ∈ F, b < c.heap.next :=
    fun b hb => hex.lt_next (mem_rest hb)
  have hnone : Unary c v F c v (· ++ []) :=
    ⟨hv, ⟨hex, hs, .refl hin, id⟩, fun hf => ⟨hf, (List.append_nil _).symm⟩⟩
  rw [appendUserData, if_neg (by omega)]
  rcases Nat.eq_zero_or_pos n with rfl | h0
  · exact ⟨c, v, true, rfl, hnone⟩
  rw [if_neg (by omega)]
  by_cases havail : c.avail = 0
  · rw [if_pos havail]
    exact ⟨c, v, false, rfl, hnone⟩
  rw [if_neg havail]
  have hr : BlockRef.Ok ⟨0, n, c.heap.next⟩ := ⟨h0, (by omega : 0 + n < 2 ^ 31)⟩
  have hex1 := hex.alloc ⟨true, n, n, data⟩
  have hs1 : Sound (c.heap.alloc ⟨true, n, n, data⟩) := hs.alloc ⟨Nat.le_refl n, (by omega : n < 2 ^ 31)⟩
  obtain ⟨hrefs, hok, hcount⟩ := pushRef_move hv hr hspare hex1
  refine ⟨_, _, true, rfl, hok, ⟨?_, hs1.recount hcount, ?_, id⟩, fun hf => ?_⟩
  · rw [hrefs]
    exact hcount.exact
  · have hnew : Later c.heap c.tls.chain F (c.heap.alloc ⟨true, n, n, data⟩) c.tls.chain :=
      .alloc hin (fun b hb => hex.lt_next (mem_mid hb)) (.inr rfl)
    refine hnew.trans (.of_recount hex1 hcount
      (fun b hb => mem_rest hb)
      (fun b hb => mem_mid hb)
      (List.Subperm.refl _))
  · have hown : ∀ r ∈ v.refs, (c.heap.alloc ⟨true, n, n, data⟩).payload r.block = c.heap.payload r.block := by
      intro r hmem
      have hlt := hex.lt_next (mem_add.mpr (.inl (mem_blocks hmem)))
      rw [Store.payload_alloc, if_neg (Nat.ne_of_lt hlt)]
    have hnew : (c.heap.alloc ⟨true, n, n, data⟩).payload c.heap.next = some ⟨true, n, n, data⟩ := by
      rw [Store.payload_alloc, if_pos rfl]
    have hfit : Fits (c.heap.alloc ⟨true, n, n, data⟩) [⟨0, n, c.heap.next⟩] := by
      intro r hmem
      rw [List.mem_singleton.mp hmem]
      exact ⟨_, hnew, Nat.le_of_eq (Nat.zero_add n)⟩
    obtain ⟨hpf, hpb⟩ := bytes_pushList hv.refs hr (hf.congr hown) hfit
    have hmoved := Recount.payload hcount (fun r hmem => mem_add.mpr (.inl (mem_blocks hmem)))
    have hread : readRef (c.heap.alloc ⟨true, n, n, data⟩) ⟨0, n, c.heap.next⟩ n = (List.range n).map data := by
      rw [readRef_of_payload (r := ⟨0, n, c.heap.next⟩) hnew]
      simp only [Nat.zero_add]
    rw [hrefs]
    refine ⟨hpf.congr hmoved, (bytes_congr hmoved).trans ?_⟩
    rw [hpb, bytes_congr hown, hread]
    rfl

end

end LightRpc.IOBuffer

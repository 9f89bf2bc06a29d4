import LightRpc.IOBuf

/- What the operations do to the store of blocks, whatever state the views of a buffer are in.

   An operation that only moves references drops blocks and changes none (`Thins`). Those that
   also allocate blocks or write to them still only add to the log of released blocks. -/
namespace LightRpc.IOBuffer

open Lib.RefCount Option

variable {t : Ctx × IOBuf × Bool}

variable {h h' : Heap} {c c' : Ctx} {v v' : IOBuf} {s : Stream} {n : Nat}

theorem takeRef_thins (move : Bool) (h : Heap) (r : BlockRef) : Thins h (takeRef move h r) := by
  cases move with
  | true => exact .refl h
  | false => exact .inc h r.block

theorem mergeRef_thins (move : Bool) (h : Heap) (r : BlockRef) : Thins h (mergeRef move h r) := by
  cases move with
  | true => exact .dec h r.block
  | false => exact .refl h

theorem touch_thins (bv : BigView) (h : Heap) : Thins h (bv.touch h) := by
  unfold BigView.touch
  split
  · exact .fail h
  · exact .refl h

theorem touchAll_thins (bv : BigView) (h : Heap) : Thins h (bv.touchAll h) := by
  unfold BigView.touchAll
  split
  · exact .refl h
  · exact touch_thins bv h

theorem pushSmall_thins (move : Bool) (h : Heap) (r0 r1 : Option BlockRef) (r : BlockRef) :
    Thins h (pushSmall move h r0 r1 r).1 := by
  unfold pushSmall
  split
  · exact takeRef_thins move h r
  all_goals
    split
    · exact mergeRef_thins move h r
    · exact takeRef_thins move h r

theorem pushBig_thins (move : Bool) (h : Heap) (bv : BigView) (r : BlockRef) : Thins h (pushBig move h bv r).1 := by
  unfold pushBig
  split
  · exact (touch_thins bv h).trans (mergeRef_thins move _ r)
  · split <;> exact (touch_thins bv h).trans (takeRef_thins move _ r)

theorem pushRef_thins (move : Bool) (h : Heap) (v : IOBuf) (r : BlockRef) : Thins h (pushRef move h v r).1 := by
  cases v with
  | small r0 r1 => exact pushSmall_thins move h r0 r1 r
  | big bv => exact pushBig_thins move h bv r

theorem popBackRef_thins (h : Heap) (v : IOBuf) : Thins h (popBackRef h v).1 := by
  unfold popBackRef
  split
  · exact .dec h _
  · exact .dec h _
  · exact .refl h
  · rename_i bv
    dsimp only
    split <;> exact (touch_thins bv h).trans (.dec _ _)

theorem clear_thins (h : Heap) (v : IOBuf) : Thins h (clear h v).1 := by
  unfold clear
  split
  · exact .refl h
  · exact .dec h _
  · exact (Thins.dec h _).trans (.dec _ _)
  · rename_i bv
    refine ((touchAll_thins bv h).trans (.foldl_dec (bv.all.map BlockRef.block) _)).trans ?_
    show Thins _ (bv.alien.elim _ _)
    cases bv.alien with
    | none => exact .refl _
    | some b => exact .free _ b

theorem popBackLoop_thins {fuel : Nat} {t : Heap × IOBuf} (heq : popBackLoop fuel h v n = some t) : Thins h t.1 := by
  fun_induction popBackLoop fuel h v n with
  | case1 | case3 =>
    cases heq
    exact .refl _
  | case2 => cases heq
  | case4 fuel h v n r hlt s ih => exact (popBackRef_thins h v).trans (ih heq)

theorem popBack_thins {t : Heap × IOBuf × Nat} (heq : popBack h v n = some t) : Thins h t.1 := by
  unfold popBack at heq
  split at heq
  · cases heq
    exact clear_thins h v
  · obtain ⟨d, hd, rfl⟩ := map_eq_some_iff.mp heq
    exact popBackLoop_thins hd

theorem dropFull_thins : ∀ (h : Heap) (chain : List BlockId) (num : Nat), Thins h (dropFull h chain num).1
  | h, [], num => .refl h
  | h, b :: chain, num => by
    rw [dropFull]
    split
    · exact (Thins.dec h b).trans (dropFull_thins (h.dec b) chain (num - 1))
    · exact .refl h

theorem releaseTlsBlock_thins (c : Ctx) (b : BlockId) : Thins c.heap (releaseTlsBlock c b).heap := by
  unfold releaseTlsBlock
  split
  · exact .dec c.heap b
  · split
    · exact .dec c.heap b
    · exact .refl c.heap

theorem releaseBlock_thins (c : Ctx) (s : Stream) : Thins c.heap (releaseBlock c s).1.heap := by
  unfold releaseBlock
  split
  · exact .refl c.heap
  · rename_i b _
    dsimp only
    split
    · exact .dec c.heap b
    · exact releaseTlsBlock_thins c b

/-- What was released stays so. -/
def Logs (h h' : Heap) : Prop := h.released <+: h'.released

namespace Logs

theorem refl (h : Heap) : Logs h h := List.prefix_refl _

theorem trans {h h' h'' : Heap} (l : Logs h h') (l' : Logs h' h'') : Logs h h'' := List.IsPrefix.trans l l'

theorem of_thins (t : Thins h h') : Logs h h' := t.released

theorem alloc (h : Heap) (k : Block) : Logs h (h.alloc k) := List.prefix_refl h.released

theorem modify (h : Heap) (b : BlockId) (f : Block → Block) : Logs h (h.modify b f) := by
  rw [Logs, Store.released_modify]

/-- A block is changed and a reference is appended. -/
theorem pushed (h : Heap) (b : BlockId) (f : Block → Block) (v : IOBuf) (r : BlockRef) :
    Logs h (pushRef false (h.modify b f) v r).1 :=
  (modify h b f).trans (of_thins (pushRef_thins false _ v r))

theorem createBlock {t : Ctx × Option BlockId} (heq : c.createBlock n = t) : Logs c.heap t.1.heap := by
  subst heq
  unfold Ctx.createBlock
  split
  · exact refl c.heap
  · exact alloc c.heap _

theorem shareTlsBlock {t : Ctx × Option BlockId} (heq : shareTlsBlock c = t) : Logs c.heap t.1.heap := by
  subst heq
  have hdrop := of_thins (dropFull_thins c.heap c.tls.chain c.tls.numBlocks)
  unfold IOBuffer.shareTlsBlock
  dsimp only
  split
  · exact hdrop
  · split
    · rename_i hnew
      exact hdrop.trans (createBlock hnew)
    · rename_i hnew
      exact hdrop.trans (createBlock hnew)

theorem acquireTlsBlock {t : Ctx × Option BlockId} (heq : acquireTlsBlock c = some t) : Logs c.heap t.1.heap := by
  unfold IOBuffer.acquireTlsBlock at heq
  split at heq
  · exact createBlock (some.inj heq)
  · have hdrop := of_thins (dropFull_thins c.heap c.tls.chain c.tls.numBlocks)
    dsimp only at heq
    split at heq <;> cases heq
    · exact hdrop

theorem pushBack {x : UInt8} (heq : pushBack c v x = t) : Logs c.heap t.1.heap := by
  subst heq
  unfold IOBuffer.pushBack
  split
  · rename_i hshare
    exact shareTlsBlock hshare
  · rename_i hshare
    exact (shareTlsBlock hshare).trans (pushed _ _ _ _ _)

theorem appendLoop : ∀ {fuel : Nat} {c : Ctx} {v : IOBuf} {data : List UInt8} {t : Ctx × IOBuf × Bool},
    appendLoop fuel c v data = some t → Logs c.heap t.1.heap
  | _, c, v, [], t, heq => by
    rw [IOBuffer.appendLoop] at heq
    cases heq
    exact refl c.heap
  | 0, c, v, x :: rest, t, heq => by
    rw [IOBuffer.appendLoop] at heq
    cases heq
  | fuel + 1, c, v, x :: rest, t, heq => by
    rw [IOBuffer.appendLoop] at heq
    dsimp only at heq
    split at heq
    · rename_i hshare
      cases heq
      exact shareTlsBlock hshare
    · rename_i hshare
      refine trans ?_ (appendLoop heq)
      exact (shareTlsBlock hshare).trans ((pushed _ _ _ _ _).trans (modify _ _ _))

theorem append {data : List UInt8} (heq : append c v data = some t) : Logs c.heap t.1.heap := by
  unfold IOBuffer.append at heq
  split at heq
  · exact pushBack (some.inj heq)
  · exact appendLoop heq

theorem resize {x : UInt8} (heq : resize c v n x = some t) : Logs c.heap t.1.heap := by
  unfold IOBuffer.resize at heq
  split at heq
  · obtain ⟨d, hd, rfl⟩ := map_eq_some_iff.mp heq
    exact of_thins (popBack_thins hd)
  · exact appendLoop heq

theorem appendUserData {data : Nat → UInt8} (heq : appendUserData c v data n = some t) : Logs c.heap t.1.heap := by
  unfold IOBuffer.appendUserData at heq
  split at heq
  · cases heq
  · split at heq
    · cases heq
      exact refl c.heap
    · split at heq <;> cases heq
      · exact refl c.heap
      · exact (alloc c.heap ⟨true, n, n, data⟩).trans (of_thins (pushRef_thins true _ v ⟨0, n, c.heap.next⟩))

theorem acquire {d : Ctx × Stream} {t : Ctx × Stream × Option BlockId} (heq : nextBlock.acquire d = some t) :
    Logs d.1.heap t.1.heap := by
  unfold nextBlock.acquire at heq
  split at heq
  · cases heq
    exact createBlock rfl
  · obtain ⟨e, he, rfl⟩ := map_eq_some_iff.mp heq
    exact acquireTlsBlock he

theorem next {t : Ctx × IOBuf × Stream × Bool} (heq : next c v s = some t) : Logs c.heap t.1.heap := by
  obtain ⟨⟨c', s', block⟩, hblock, rfl⟩ := map_eq_some_iff.mp heq
  have hlog : Logs c.heap c'.heap := by
    unfold nextBlock at hblock
    split at hblock
    · split at hblock
      · exact (of_thins (releaseBlock_thins c s)).trans (acquire hblock)
      · obtain rfl := congrArg Prod.fst (some.inj hblock)
        exact refl c.heap
    · exact acquire hblock
  cases block with
  | none => exact hlog
  | some b => exact hlog.trans (pushed _ _ _ _ _)

theorem backUpRef {count : Nat} {r : BlockRef} {b : BlockId} {t : Ctx × IOBuf × Stream × Option Nat}
    (heq : backUpRef c v s count r b = t) : Logs c.heap t.1.heap := by
  unfold IOBuffer.backUpRef at heq
  split at heq
  · dsimp only at heq
    split at heq
    · subst heq
      exact (modify c.heap b _).trans (of_thins (releaseTlsBlock_thins (c.setHeap (c.heap.modify b _)) b))
    · subst heq
      exact modify c.heap _ _
  · subst heq
    have hpopped := (modify c.heap b (fun k => k.resize (k.size - r.length))).trans (of_thins (popBackRef_thins _ v))
    exact hpopped.trans (of_thins (releaseBlock_thins (c.setHeap (popBackRef _ v).1) (s.backedUp r.length)))

theorem backUpOnce {count : Nat} {t : Ctx × IOBuf × Stream × Option Nat} (heq : backUpOnce c v s count = some t) :
    Logs c.heap t.1.heap := by
  unfold IOBuffer.backUpOnce at heq
  dsimp only at heq
  split at heq
  · split at heq
    · cases heq
    · exact backUpRef (some.inj heq)
  · split at heq
    · split at heq
      · cases heq
      · obtain ⟨p, hp, rfl⟩ := map_eq_some_iff.mp heq
        exact of_thins (popBack_thins hp)
    · exact (of_thins (.inc c.heap _)).trans (backUpRef (some.inj heq))

theorem backUp : ∀ {fuel : Nat} {c : Ctx} {v : IOBuf} {s : Stream} {count : Nat} {t : Ctx × IOBuf × Stream},
    backUp fuel c v s count = some t → Logs c.heap t.1.heap
  | 0, c, v, s, count, t, heq => by
    rw [IOBuffer.backUp] at heq
    cases heq
  | fuel + 1, c, v, s, count, t, heq => by
    rw [IOBuffer.backUp] at heq
    split at heq
    · split at heq <;> cases heq
      · exact refl c.heap
    · split at heq
      · cases heq
      · rename_i honce
        cases heq
        exact backUpOnce honce
      · rename_i honce
        exact (backUpOnce honce).trans (backUp heq)

end Logs

end LightRpc.IOBuffer

import LightRpc.IOBufHistory

/- The chain of blocks a thread keeps.

   In every history of admitted calls the chain is a list without repetition whose pointers lead
   from each block to the next and from the last to null, and `num_blocks` is its length.
   `share_tls_block` then returns a block that is not full unless the pool has none, and so does
   `acquire_tls_block` when the chain is empty or has a block that is not full. When all blocks of
   the chain are full it follows the null pointer behind them. -/
namespace LightRpc.IOBuffer

open Lib Lib.RefCount

variable {c : Ctx} {h : Heap} {w : World} {F : Multiset BlockId}

/-- The pool refuses a block of the default size only if it has none. -/
theorem createBlock_refused (hnone : (c.createBlock DEFAULT_BLOCK_SIZE).2 = none) : c.avail = 0 := by
  unfold Ctx.createBlock at hnone
  split at hnone
  · rename_i hno
    rcases hno with hzero | hlarge
    · exact hzero
    · exact absurd hlarge (by decide)
  · cases hnone

theorem shareTlsBlock_refused (hnone : (shareTlsBlock c).2 = none) : c.avail = 0 := by
  unfold shareTlsBlock at hnone
  dsimp only at hnone
  split at hnone
  · cases hnone
  · split at hnone
    · cases hnone
    · rename_i hnew
      have hzero := createBlock_refused (congrArg Prod.snd hnew)
      exact hzero

/-- A block that is not full is left over. -/
theorem dropFull_ne_nil : ∀ {h : Heap} {chain : List BlockId} (num : Nat), Exact h (↑chain + F) →
    (∃ b ∈ chain, isFull h b = false) → (dropFull h chain num).2.1 ≠ []
  | h, [], num, _, ⟨b, hb, _⟩ => absurd hb List.not_mem_nil
  | h, b :: chain, num, hex, hsome => by
    rw [dropFull]
    split
    · rename_i hfull
      rw [← Multiset.cons_coe, Multiset.cons_add] at hex
      have hdec := Recount.dec hex
      refine dropFull_ne_nil (num - 1) hdec.exact ?_
      obtain ⟨b', hb', hfree⟩ := hsome
      rcases List.mem_cons.mp hb' with rfl | hb'
      · rw [hfull] at hfree
        cases hfree
      · refine ⟨b', hb', ?_⟩
        rw [isFull, hdec.keeps b' (Multiset.mem_add.mpr (.inl (Multiset.mem_coe.mpr hb')))]
        exact hfree
    · exact List.cons_ne_nil b chain

/-- The chain is empty, or has a block that is not full. -/
def usable (h : Heap) (chain : List BlockId) : Bool := chain.isEmpty || chain.any fun b => !isFull h b

theorem acquireTlsBlock_returns (hex : Exact c.heap (↑c.tls.chain + F)) (hs : Sound c.heap)
    (husable : usable c.heap c.tls.chain) :
    ∃ t, acquireTlsBlock c = some t ∧ (∀ b, t.2 = some b → HasRoom t.1.heap b) ∧ (t.2 = none → c.avail = 0) := by
  have hreturns : ∃ t, acquireTlsBlock c = some t ∧ (t.2 = none → c.avail = 0) := by
    unfold acquireTlsBlock
    split
    · exact ⟨_, rfl, createBlock_refused⟩
    · rename_i hne
      have hsome : ∃ b ∈ c.tls.chain, isFull c.heap b = false := by
        have hnil : c.tls.chain.isEmpty = false := List.isEmpty_eq_false_iff.mpr hne
        rw [usable, hnil, Bool.false_or] at husable
        simpa using husable
      have hleft := dropFull_ne_nil c.tls.numBlocks hex hsome
      dsimp only
      split
      · rename_i hnil
        exact absurd hnil hleft
      · exact ⟨_, rfl, fun hnone => absurd hnone.symm (Option.some_ne_none _).symm⟩
  obtain ⟨t, heq, hnone⟩ := hreturns
  exact ⟨t, heq, (acquireTlsBlock_spec hex hs heq).2, hnone⟩

/-- A block that is not full, or none because the pool has none. -/
structure Served (c : Ctx) (t : Ctx × Option BlockId) : Prop where
  room : ∀ b, t.2 = some b → HasRoom t.1.heap b
  refused : t.2 = none → c.avail = 0

/-- In every history of admitted calls every chain is well formed, `share_tls_block` serves, and so
    does `acquire_tls_block` when the chain is usable. -/
theorem chains_well_formed (hreach : (World.machine.guard World.admits).Reachable w) {t : Nat} {tls : Tls}
    (ht : w.threads[t]? = some tls) (n : Nat) :
    tls.chain.Nodup ∧ Linked tls.portal tls.chain ∧ tls.numBlocks = tls.chain.length ∧
      Served ⟨w.heap, tls, n⟩ (shareTlsBlock ⟨w.heap, tls, n⟩) ∧
      (usable w.heap tls.chain = true →
        ∃ r, acquireTlsBlock ⟨w.heap, tls, n⟩ = some r ∧ Served ⟨w.heap, tls, n⟩ r) := by
  have hi := World.reachable_inv hreach
  have hwf := hi.chain ht
  have hex := hi.aroundChain ht
  refine ⟨hwf.nodup, hwf.linked, hwf.count, ⟨fun b hb => ?_, shareTlsBlock_refused⟩, fun husable => ?_⟩
  · obtain ⟨k, hroom⟩ := (shareTlsBlock_spec (c := ⟨w.heap, tls, n⟩) hex hi.sound).2.2 b hb
    exact ⟨k, hroom.payload, hroom.room⟩
  · obtain ⟨r, heq, hroom, hnone⟩ := acquireTlsBlock_returns (c := ⟨w.heap, tls, n⟩) hex hi.sound husable
    exact ⟨r, heq, hroom, hnone⟩

/-- Two streams work on one buffer, the second one in what the first gave back. -/
def twoStreams : List Act :=
  ([.newBuf, .openStream 0 0, .openStream 0 0, .next 0, .backUp 0 8000, .next 1, .backUp 1 4000, .one 0 (.pushBack 7),
    .acquire, .release 0] : List Op).map (⟨0, 1, ·⟩)

theorem twoStreams_served : ∃ w, (World.machine.guard World.admits).Run twoStreams w ∧
    w.threads.map Tls.chain = [[0]] ∧ ∃ tls, w.threads[0]? = some tls ∧ tls.numBlocks = tls.chain.length ∧
      Served ⟨w.heap, tls, 0⟩ (shareTlsBlock ⟨w.heap, tls, 0⟩) := by
  obtain ⟨w, hrun, hchain⟩ : ∃ w, (World.machine.guard World.admits).Run twoStreams w ∧
      w.threads.map Tls.chain = [[0]] :=
    Machine.exists_run (s := .start 1) ⟨1, rfl⟩ (by decide +kernel)
  obtain ⟨tls, hthreads, -⟩ := List.map_eq_singleton_iff.mp hchain
  have ht : w.threads[0]? = some tls := by
    rw [hthreads]
    rfl
  obtain ⟨-, -, hcount, hshare, -⟩ := chains_well_formed ⟨_, hrun⟩ ht 0
  exact ⟨w, hrun, hchain, tls, ht, hcount, hshare⟩

/-- The stream gives one byte back, and another buffer fills the block. -/
def fillUp : List Act :=
  ([.newBuf, .newBuf, .openStream 0 0, .next 0, .backUp 0 1, .one 1 (.pushBack 7)] : List Op).map (⟨0, 1, ·⟩)

/-- The stream backs up twice what one `Next` gave it. -/
def backUpTwice : List Act :=
  ([.newBuf, .openStream 0 0, .next 0, .backUp 0 100, .backUp 0 50] : List Op).map (⟨0, 1, ·⟩)

/-- With only full blocks in the chain `acquire_tls_block` reads through a null pointer. The second
    `BackUp` puts a block into the chain that is in it already, and its pointer leads to itself. -/
theorem chain_broken :
    (∃ w, World.machine.Run fillUp w ∧ w.threads.map Tls.chain = [[0]] ∧
      w.threads.all (fun tls => (acquireTlsBlock ⟨w.heap, tls, 1⟩).isNone) = true) ∧
    ∃ w, World.machine.Run backUpTwice w ∧ w.threads.map Tls.chain = [[0, 0]] ∧
      w.threads.map (fun tls => tls.portal 0) = [some 0] := by
  refine ⟨?_, ?_⟩
  · exact Machine.exists_run (s := .start 1) ⟨1, rfl⟩ (by decide +kernel)
  · exact Machine.exists_run (s := .start 1) ⟨1, rfl⟩ (by decide +kernel)

end LightRpc.IOBuffer

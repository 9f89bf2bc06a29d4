import LightRpc.IOBufWorld

/- Histories of buffers, chains and streams.

   `admits` is what a call asks of the world before it: the sizes of the buffers it appends to have
   room in 32 bits, a stream has blocks larger than their header, `BackUp` takes back no block
   that somebody has, a user writes to no block that is gone, and a thread that has never given a
   block back to the pool does not begin with that when it exits.

   For every call one lemma says what a step of it does to the buffers (`step_one`, `step_two`,
   `step_copy`, `step_newBuf`, `step_next`, `step_backUp`, `step_write`, and `step_quiet` for the
   calls that leave all buffers alone); each keeps `World.Inv`. -/
namespace LightRpc.IOBuffer

open Lib Lib.RefCount Multiset Option

/-- The calls that are made for no buffer. -/
def Op.quiet : Op → Bool
  | .share | .acquire | .release _ | .fill _ _ | .threadExit | .openStream _ _ | .closeStream _ => true
  | _ => false

namespace World

variable {w w' : World} {a : Act} {i j k t n : Nat} {v v' u : IOBuf} {s s' : Stream} {tls : Tls} {c c' : Ctx}
  {b : BlockId} {ok : Bool}

def admits (w : World) (a : Act) : Bool :=
  match a.op with
  | .one i o => (w.bufs[i]?).all fun v => o.Room v
  | .two i j o => (w.bufs[i]?).all fun v => (w.bufs[j]?).all fun u => o.Room v u
  | .openStream _ size => size = 0 ∨ sizeofBlock < size
  | .next k => (w.streams[k]?).all fun s => (w.ctx a).all fun c => (w.bufs[s.buf]?).all fun v =>
      Spare v.refs (nextLeft c s) 1
  | .backUp k count => (w.streams[k]?).all fun s => (w.ctx a).all fun c => (w.bufs[s.buf]?).all fun v =>
      !retakes (w.ownersButStream k a.thread) (v.refNum + 1) c v s count
  | .write k _ _ => (w.streams[k]?).all fun s => s.lent.all fun l => (w.heap.payload l.block).isSome
  | .threadExit => w.tlsInited.contains a.thread || (w.ctx a).all fun c => !c.tls.chain.any (deallocates w.heap)
  | _ => true

theorem ctx_eq (hc : w.ctx a = some c) : ∃ tls, w.threads[a.thread]? = some tls ∧ c = ⟨w.heap, tls, a.avail⟩ := by
  obtain ⟨tls, ht, heq⟩ := map_eq_some_iff.mp hc
  exact ⟨tls, ht, heq.symm⟩

theorem ctx_bind {f : Ctx → Option (World × Bool)} (hn : (w.ctx a).bind f = some (w', ok)) :
    ∃ tls, w.threads[a.thread]? = some tls ∧ f ⟨w.heap, tls, a.avail⟩ = some (w', ok) := by
  obtain ⟨c, hc, hn⟩ := bind_eq_some_iff.mp hn
  obtain ⟨tls, ht, rfl⟩ := ctx_eq hc
  exact ⟨tls, ht, hn⟩

/-- What is copied to memory is no part of the invariant, nor is `tls_inited`. -/
theorem Inv.setOut (hi : w.Inv) (out : List UInt8) (tlsInited : List Nat) :
    ({ w with out := out, tlsInited := tlsInited } : World).Inv :=
  ⟨hi.exact, hi.sound, hi.bufs, hi.owned, hi.chains, hi.sizes, hi.settled⟩

/-! Calls on buffers. -/

/-- What a call on the buffer `i` leaves: the others are as they were. -/
structure OneMoved (w : World) (i : Nat) (v : IOBuf) (w' : World) (v' : IOBuf) : Prop where
  inv : w'.Inv
  bufs : w'.bufs = w.bufs.set i v'
  before : w.bufs[i]? = some v
  frame : ∀ j, j ≠ i → Frame w w' j

theorem step_one {o : Unop} (hi : w.Inv) (hadm : w.admits ⟨t, n, .one i o⟩)
    (hn : w.step ⟨t, n, .one i o⟩ = some (w', ok)) :
    ∃ v v', OneMoved w i v w' v' ∧ Rests w w' (w.restBufs i) ∧ (Fits w.heap v.refs → Fits w'.heap v'.refs ∧ (ok →
      bytes w'.heap v'.refs = o.bytes (bytes w.heap v.refs) ∧ w'.out = w.out ++ o.out (bytes w.heap v.refs))) := by
  obtain ⟨c, hc, hn⟩ := bind_eq_some_iff.mp hn
  obtain ⟨v, hb, hn⟩ := bind_eq_some_iff.mp hn
  obtain ⟨r, hr, hn⟩ := bind_eq_some_iff.mp hn
  obtain ⟨tls, ht, rfl⟩ := ctx_eq hc
  have hroom : (w.bufs[i]?).all (fun v => decide (o.Room v)) = true := hadm
  rw [hb] at hroom
  have hex := hi.around hb (own_thread ht)
  obtain ⟨c', v', ok', out, f, heq, hu, hmeets⟩ := o.run_spec (c := ⟨w.heap, tls, n⟩) (hi.buf hb) hex hi.sound
    (of_decide_eq_true hroom)
  rw [heq] at hr
  cases hr
  cases hn
  obtain ⟨hinv, hframe, hrests⟩ := one_moved hi ht hb hu
  have hheap : ((w.put t c').setBuf i v').heap = c'.heap := setBuf_heap _ _ _
  refine ⟨v, v', ⟨hinv.setOut _ _, setBuf_bufs _ _ _, hb, fun j hne => hframe j hne⟩, hrests, fun hf => ?_⟩
  show Fits ((w.put t c').setBuf i v').heap _ ∧ (ok' = true → bytes ((w.put t c').setBuf i v').heap _ = _ ∧ _)
  rw [hheap]
  refine ⟨(hu.bytes hf).1, fun hok => ?_⟩
  obtain ⟨hbytes, hout⟩ := hmeets hok hf
  exact ⟨hbytes, congrArg (w.out ++ ·) hout⟩

/-- What a call on the buffers `i` and `j` leaves. -/
structure TwoMoved (w : World) (i j : Nat) (v u : IOBuf) (w' : World) (v' u' : IOBuf) : Prop where
  inv : w'.Inv
  apart : i ≠ j
  bufs : w'.bufs = (w.bufs.set i v').set j u'
  before : w.bufs[i]? = some v ∧ w.bufs[j]? = some u
  frame : ∀ l, l ≠ i → l ≠ j → Frame w w' l
  own : w'.own = w.own
  keeps : ∀ b ∈ w'.holders, w'.heap.payload b = w.heap.payload b
  out : w'.out = w.out

@[simp] theorem setBuf_out (w : World) (i : Nat) (v : IOBuf) : (w.setBuf i v).out = w.out := by
  unfold setBuf
  split <;> rfl

theorem step_two {o : Binop} (hi : w.Inv) (hadm : w.admits ⟨t, n, .two i j o⟩)
    (hn : w.step ⟨t, n, .two i j o⟩ = some (w', ok)) :
    ∃ v u v' u', TwoMoved w i j v u w' v' u' ∧ (Fits w.heap v.refs → Fits w.heap u.refs →
      Fits w'.heap v'.refs ∧ Fits w'.heap u'.refs ∧
        (bytes w'.heap v'.refs, bytes w'.heap u'.refs) = o.bytes (bytes w.heap v.refs) (bytes w.heap u.refs)) := by
  obtain ⟨hne, hn⟩ := ite_none_left_eq_some.mp hn
  obtain ⟨v, hb, hn⟩ := bind_eq_some_iff.mp hn
  obtain ⟨u, hu, hn⟩ := bind_eq_some_iff.mp hn
  obtain ⟨r, hr, hn⟩ := bind_eq_some_iff.mp hn
  have hroom : (w.bufs[i]?).all (fun v => (w.bufs[j]?).all fun u => decide (o.Room v u)) = true := hadm
  rw [hb, all_some, hu] at hroom
  have hex := hi.exact
  rw [holders_two hb hu hne] at hex
  obtain ⟨h', v', u', heq, hbin⟩ := o.run_spec (hi.buf hb) (hi.buf hu) (of_decide_eq_true hroom) hex
  rw [heq] at hr
  cases hr
  have hw' : w' = (({ w with heap := h' }).setBuf i v').setBuf j u' :=
    (Prod.mk.inj (some.inj hn)).1.symm
  obtain ⟨hinv, hframe, hown, hkeeps⟩ := two_moved hi hb hu hne hbin hw'
  have hheap : w'.heap = h' := by
    rw [hw', setBuf_heap, setBuf_heap]
  refine ⟨v, u, v', u', ⟨hinv, hne, ?_, ⟨hb, hu⟩, hframe, hown, hkeeps, ?_⟩, fun hf hf' => ?_⟩
  · rw [hw', setBuf_bufs, setBuf_bufs]
  · rw [hw', setBuf_out, setBuf_out]
  · rw [hheap]
    exact hbin.bytes hf hf'

/-- What a call that makes a new buffer leaves. -/
structure NewMoved (w w' : World) (v' : IOBuf) : Prop where
  inv : w'.Inv
  bufs : w'.bufs = w.bufs ++ [v']
  frame : ∀ j, Frame w w' j
  out : w'.out = w.out

theorem step_newBuf (hi : w.Inv) (hn : w.step ⟨t, n, .newBuf⟩ = some (w', ok)) : NewMoved w w' .new := by
  cases hn
  have hzero : blocks IOBuf.new.refs + w.holders = w.holders := zero_add _
  obtain ⟨hinv, hframe⟩ := newBuf_moved hi IOBuf.Ok.new (by rw [hzero]; exact .refl hi.exact)
  exact ⟨hinv, rfl, hframe, rfl⟩

theorem step_copy (hi : w.Inv) (hn : w.step ⟨t, n, .copy j⟩ = some (w', ok)) :
    ∃ u v', w.bufs[j]? = some u ∧ NewMoved w w' v' ∧ (Fits w.heap u.refs → Fits w'.heap v'.refs ∧
      bytes w'.heap v'.refs = bytes w.heap u.refs) := by
  obtain ⟨u, hu, hn⟩ := bind_eq_some_iff.mp hn
  cases hn
  obtain ⟨hheap, hrefs, hok⟩ := copy_spec (h := w.heap) (hi.buf hu)
  have hmem : ∀ b ∈ u.refs.map BlockRef.block, b ∈ w.holders := fun b hb =>
    mem_add.mpr (.inl (mem_pool (List.mem_of_getElem? hu) hb))
  have hc : Recount w.heap w.holders (copy w.heap u).1 (blocks (copy w.heap u).2.refs + w.holders) := by
    rw [hheap, hrefs]
    exact .incAll _ hi.exact hmem
  obtain ⟨hinv, hframe⟩ := newBuf_moved hi hok hc
  have hkeep : ∀ r ∈ u.refs, (copy w.heap u).1.payload r.block = w.heap.payload r.block :=
    Recount.payload hc fun r hr => mem_add.mpr (.inr (hmem r.block (List.mem_map_of_mem hr)))
  refine ⟨u, _, hu, ⟨hinv, rfl, hframe, rfl⟩, fun hf => ?_⟩
  show Fits (copy w.heap u).1 _ ∧ bytes (copy w.heap u).1 _ = _
  rw [hrefs]
  exact ⟨hf.congr hkeep, bytes_congr hkeep⟩

/-! Calls that leave the buffers alone. -/

/-- The caller of `acquire_tls_block` writes behind the used part of its block. -/
theorem fill_moved {k : Block} {data : List UInt8} (hi : w.Inv) (hb : b ∈ w.held) (hk : w.heap.payload b = some k)
    (hfit : k.size + data.length ≤ k.cap) : Quiet w { w with heap := w.heap.modify b (fun k => k.append data) } := by
  have hpay := fun b' => Store.payload_modify w.heap b b' (fun k => k.append data)
  have hown : (↑w.own : Multiset BlockId) = ↑[b] + ↑(owners w.streams w.threads (w.held.erase b)) := by
    rw [own, coe_owners, coe_owners, coe_erase hb, add_cons, add_cons]
    rfl
  have hmem : b ∈ w.holders := by
    rw [holders, hown]
    exact mem_add.mpr (.inr (mem_add.mpr (.inl (mem_coe.mpr List.mem_cons_self))))
  have hrest : ∀ b' ∈ pool refBlocks w.bufs + ↑(owners w.streams w.threads (w.held.erase b)), b' ∈ w.holders := by
    intro b' hb'
    rw [holders, hown]
    rcases mem_add.mp hb' with hb' | hb'
    · exact mem_add.mpr (.inl hb')
    · exact mem_add.mpr (.inr (mem_add.mpr (.inr hb')))
  have hl : Later w.heap [b] (pool refBlocks w.bufs + ↑(owners w.streams w.threads (w.held.erase b)))
      (w.heap.modify b (fun k => k.append data)) [b] := by
    refine ⟨fun b' hb' => hi.exact.lt_next (hrest b' hb'), fun b' _ k' hk' => ?_, fun b' _ hne => ?_,
      fun b' hb' => .inl hb', id, fun hsmall b' hb' k' hk' => ?_, Nat.le_of_eq (Store.next_modify _ _ _).symm⟩
    · rw [hpay]
      by_cases heq : b' = b
      · subst heq
        obtain rfl := some.inj (hk.symm.trans hk')
        rw [if_pos rfl, hk]
        exact ⟨_, rfl, .append k data⟩
      · rw [if_neg heq]
        exact ⟨k', hk', .refl k'⟩
    · rw [hpay, if_neg (fun h => hne (List.mem_singleton.mpr h))]
    · obtain rfl := List.mem_singleton.mp hb'
      rw [hpay, if_pos rfl, hk] at hk'
      obtain rfl := some.inj hk'
      exact hsmall b' List.mem_cons_self k hk
  have hs : Sound (w.heap.modify b (fun k => k.append data)) := by
    apply hi.sound.modify
    intro k' hk'
    obtain rfl := some.inj (hk.symm.trans hk')
    exact ⟨hfit, (hi.sound b k hk).2⟩
  have hex : Exact (w.heap.modify b (fun k => k.append data)) w.holders := hi.exact.modify hmem _
  refine ⟨hi.moved hex hs hi.bufs ⟨hown, hown, hi.chains, hi.sizes⟩ hl ?_ ?_, rfl, fun j => ?_, rfl⟩
  · exact fun b' hb' => mem_add.mpr (.inr (mem_coe.mpr hb'))
  · exact fun s hs => .inr ⟨hs, fun v hv => hv, fun b' hb' => mem_owners hs hb'⟩
  · refine .of_later hl (fun v hv => hv) fun v hv r hr => ?_
    exact mem_add.mpr (.inl (mem_pool (List.mem_of_getElem? hv) (List.mem_map_of_mem hr)))

/-- A new stream has no block. -/
theorem openStream_moved (hi : w.Inv) (hcur : s.curBlock = none) (hlatest : s.latest = none)
    (hsize : s.blockSize = 0 ∨ sizeofBlock < s.blockSize) : Quiet w { w with streams := w.streams ++ [s] } := by
  have hown : ({ w with streams := w.streams ++ [s] } : World).own = w.own := by
    show owners (w.streams ++ [s]) w.threads w.held = _
    rw [owners, List.flatMap_append, List.flatMap_singleton, curOf, hcur, toList_none, List.append_nil]
    rfl
  refine ⟨⟨?_, hi.sound, hi.bufs, ?_, hi.chains, fun s' hs' => ?_, fun s' hs' => ?_⟩, rfl, fun j v hv => ⟨hv, fun hf => ⟨hf, rfl⟩⟩, rfl⟩
  · rw [holders, hown]
    exact hi.exact
  · rw [hown]
    exact hi.owned
  · rcases List.mem_append.mp hs' with hold | hnew
    · exact hi.sizes s' hold
    · rw [List.mem_singleton.mp hnew]
      exact hsize
  · rcases List.mem_append.mp hs' with hold | hnew
    · exact hi.settled s' hold
    · rw [List.mem_singleton.mp hnew]
      exact .of_none hlatest

theorem step_quiet (hi : w.Inv) (hadm : w.admits a) (hq : a.op.quiet)
    (hn : w.step a = some (w', ok)) : Quiet w w' := by
  obtain ⟨t, n, op⟩ := a
  cases op with
  | newBuf | one _ _ | two _ _ _ | copy _ | next _ | backUp _ _ | write _ _ _ => exact absurd hq Bool.false_ne_true
  | share =>
    obtain ⟨tls, ht, hn⟩ := ctx_bind hn
    cases hn
    exact share_moved hi ht n
  | acquire =>
    obtain ⟨tls, ht, hn⟩ := ctx_bind hn
    obtain ⟨r, hr, hn⟩ := bind_eq_some_iff.mp hn
    cases hn
    exact acquire_moved hi ht hr
  | release b =>
    obtain ⟨hb, hn⟩ := ite_none_right_eq_some.mp hn
    obtain ⟨tls, ht, hn⟩ := ctx_bind hn
    cases hn
    exact release_moved hi ht hb n
  | fill b data =>
    obtain ⟨⟨hb, hfit⟩, hn⟩ := ite_none_right_eq_some.mp hn
    cases hn
    cases hk : w.heap.payload b with
    | none =>
      rw [hk] at hfit
      exact absurd hfit Bool.false_ne_true
    | some k =>
      rw [hk] at hfit
      exact fill_moved hi hb hk (of_decide_eq_true hfit)
  | threadExit =>
    obtain ⟨c, hc, hn⟩ := bind_eq_some_iff.mp hn
    obtain ⟨tls, ht, rfl⟩ := ctx_eq hc
    cases hn
    have hexit : w.tlsInited.contains t = true ∨ ∀ b ∈ tls.chain, deallocates w.heap b = false := by
      simpa [admits, hc] using hadm
    exact exit_moved hi ht n hexit
  | openStream i size =>
    obtain ⟨v, hv, hn⟩ := bind_eq_some_iff.mp hn
    split at hn <;> cases hn
    · exact ⟨hi, rfl, fun j v hv => ⟨hv, fun hf => ⟨hf, rfl⟩⟩, rfl⟩
    · exact openStream_moved hi rfl rfl (of_decide_eq_true hadm)
  | closeStream k =>
    obtain ⟨s, hk, hn⟩ := bind_eq_some_iff.mp hn
    obtain ⟨tls, ht, hn⟩ := ctx_bind hn
    cases hn
    exact close_moved hi ht hk n

/-! Calls on streams. -/

/-- What `Next` of the stream `k` did, seen from the thread. -/
structure NextMoved (w : World) (t n k : Nat) (w' : World) (ok : Bool) (tls : Tls) (s : Stream) (v : IOBuf) (c' : Ctx)
    (v' : IOBuf) (s' : Stream) : Prop where
  thread : w.threads[t]? = some tls
  stream : w.streams[k]? = some s
  moved : OneMoved w s.buf v w' v'
  world : w' = ((w.put t c').setBuf s.buf v').setStream k s'
  nexted : Nexted ⟨w.heap, tls, n⟩ v s (w.restBufs s.buf + ↑(w.ownersButStream k t)) c' v' s' ok

theorem NextMoved.heap {ok : Bool} (m : NextMoved w t n k w' ok tls s v c' v' s') : w'.heap = c'.heap :=
  called_heap m.world

theorem step_next (hi : w.Inv) (hadm : w.admits ⟨t, n, .next k⟩) (hn : w.step ⟨t, n, .next k⟩ = some (w', ok)) :
    ∃ tls s v c' v' s', NextMoved w t n k w' ok tls s v c' v' s' := by
  obtain ⟨s, hk, hn⟩ := bind_eq_some_iff.mp hn
  obtain ⟨c, hc, hn⟩ := bind_eq_some_iff.mp hn
  obtain ⟨tls, ht, rfl⟩ := ctx_eq hc
  obtain ⟨v, hb, hn⟩ := bind_eq_some_iff.mp hn
  obtain ⟨⟨c', v', s', given⟩, hr, hn⟩ := bind_eq_some_iff.mp hn
  obtain ⟨hw', rfl⟩ := Prod.mk.inj (some.inj hn)
  have hroom : (w.streams[k]?).all (fun s => (w.ctx ⟨t, n, .next k⟩).all fun c => (w.bufs[s.buf]?).all fun v =>
      decide (Spare v.refs (nextLeft c s) 1)) = true := hadm
  rw [hk, all_some, hc, all_some, hb] at hroom
  have hown := own_stream ht hk n
  have hnodup := coe_nodup.mpr hi.owned
  rw [hown] at hnodup
  have hnext : Nexted ⟨w.heap, tls, n⟩ v s (w.restBufs s.buf + ↑(w.ownersButStream k t)) c' v' s' given :=
    next_spec (hi.buf hb) (hi.around hb hown) hi.sound (hi.stream hk).1 (of_decide_eq_true hroom) hr
  have hlt := lt_length_of_getElem? hb
  have hset : Settled c'.heap (w.bufs.set s.buf v') s' := by
    cases given with
    | false =>
      rw [(hnext.refused rfl).2.1]
      exact .of_none rfl
    | true =>
      obtain ⟨m, kb, rs, r, hgiven⟩ := hnext.given rfl
      intro m' hm'
      obtain rfl := some.inj (hgiven.latest.symm.trans hm')
      refine ⟨v', kb, rs, r, ?_, hgiven.atEnd⟩
      rw [hnext.same.1]
      exact List.getElem?_set_self hlt
  obtain ⟨hinv, hframe⟩ := stream_moved hi ht hk hb hw'.symm hnext.buf hnext.exact hnext.sound
    (hnext.wf (hi.chain ht) (nodup_left hnodup)) hnext.same.2 hset (hnext.later.mono fun b hb => mem_add.mpr (.inr hb))
  exact ⟨tls, s, v, c', v', s', ht, hk, ⟨hinv, called_bufs hw'.symm, hb, hframe⟩, hw'.symm, hnext⟩

theorem Inv.working (hi : w.Inv) (ht : w.threads[t]? = some tls) (hk : w.streams[k]? = some s)
    (hb : w.bufs[s.buf]? = some v) (n : Nat) :
    Working ⟨w.heap, tls, n⟩ v s (w.restBufs s.buf + ↑(w.ownersButStream k t)) ↑(w.ownersButStream k t) := by
  have hown := own_stream ht hk n
  have hnodup := coe_nodup.mpr hi.owned
  rw [hown] at hnodup
  exact ⟨hi.buf hb, hi.around hb hown, hi.sound, hi.chain ht, hnodup, fun b hb => mem_add.mpr (.inr hb)⟩

theorem step_backUp {count : Nat} (hi : w.Inv) (hadm : w.admits ⟨t, n, .backUp k count⟩)
    (hn : w.step ⟨t, n, .backUp k count⟩ = some (w', ok)) :
    ∃ tls s v c' v' s', w.threads[t]? = some tls ∧ w.streams[k]? = some s ∧ w.bufs[s.buf]? = some v ∧
      w' = ((w.put t c').setBuf s.buf v').setStream k s' ∧ w'.Inv ∧
      backUp (v.refNum + 1) ⟨w.heap, tls, n⟩ v s count = some (c', v', s') := by
  obtain ⟨s, hk, hn⟩ := bind_eq_some_iff.mp hn
  obtain ⟨c, hc, hn⟩ := bind_eq_some_iff.mp hn
  obtain ⟨tls, ht, rfl⟩ := ctx_eq hc
  obtain ⟨v, hb, hn⟩ := bind_eq_some_iff.mp hn
  obtain ⟨⟨c', v', s'⟩, hr, hn⟩ := bind_eq_some_iff.mp hn
  obtain ⟨hw', -⟩ := Prod.mk.inj (some.inj hn)
  have hfree : (w.streams[k]?).all (fun s => (w.ctx ⟨t, n, .backUp k count⟩).all fun c => (w.bufs[s.buf]?).all fun v =>
      !retakes (w.ownersButStream k t) (v.refNum + 1) c v s count) = true := hadm
  rw [hk, all_some, hc, all_some, hb, all_some, Bool.not_eq_true'] at hfree
  obtain ⟨hwork, hkeep, hbuf, hsize, hlatest⟩ := backUp_working (hi.working ht hk hb n) hfree hr
  have hset : Settled c'.heap (w.bufs.set s.buf v') s' := by
    rcases hlatest with hnone | hsame
    · exact .of_none hnone
    · obtain ⟨rfl, rfl, rfl⟩ : c' = ⟨w.heap, tls, n⟩ ∧ v' = v ∧ s' = s := by
        simpa using hsame
      obtain ⟨hlt, rfl⟩ := List.getElem?_eq_some_iff.mp hb
      rw [List.set_getElem_self]
      exact (hi.stream hk).2
  have hinv := stream_inv hi ht hk hb hw'.symm hwork.ok hwork.exact hwork.sound hwork.wf hsize hset hwork.nodup hkeep
  exact ⟨tls, s, v, c', v', s', ht, hk, hb, hw'.symm, hinv, hr⟩

/-- A write of bytes into a block changes nobody's place in it. -/
theorem write_inv {kb : Block} {pos : Nat} {data : List UInt8} (hi : w.Inv) (hk : w.heap.payload b = some kb) :
    ({ w with heap := w.heap.modify b (fun k => k.write pos data) } : World).Inv := by
  have hex : Exact (w.heap.modify b (fun k => k.write pos data)) w.holders :=
    hi.exact.modify (hi.exact.mem_of_payload hk) _
  refine ⟨hex, hi.sound.modify fun k hk => hi.sound b k hk, hi.bufs, hi.owned, hi.chains, hi.sizes, fun s hs m hm => ?_⟩
  obtain ⟨v, kb', rs, r, hb, he⟩ := hi.settled s hs m hm
  refine ⟨v, if r.block = b then kb'.write pos data else kb', rs, r, hb, he.cur, ?_, he.refs, ?_, he.size⟩
  · show (w.heap.modify b _).payload r.block = _
    rw [Store.payload_modify]
    split
    · rename_i heq
      rw [← heq, he.payload]
      rfl
    · exact he.payload
  · split <;> exact he.ends

theorem step_write {pos : Nat} {data : List UInt8} (hi : w.Inv) (hadm : w.admits ⟨t, n, .write k pos data⟩)
    (hn : w.step ⟨t, n, .write k pos data⟩ = some (w', ok)) :
    ∃ s l, w.streams[k]? = some s ∧ s.lent = some l ∧ l.lo ≤ pos ∧ pos + data.length ≤ l.hi ∧
      w' = { w with heap := w.heap.modify l.block (fun b => b.write pos data) } ∧ w'.Inv := by
  obtain ⟨s, hk, hn⟩ := bind_eq_some_iff.mp hn
  obtain ⟨l, hl, hn⟩ := bind_eq_some_iff.mp hn
  obtain ⟨hrange, hn⟩ := ite_none_right_eq_some.mp hn
  cases hn
  have halive : (w.streams[k]?).all (fun s => s.lent.all fun l => (w.heap.payload l.block).isSome) = true := hadm
  rw [hk, all_some, hl] at halive
  obtain ⟨kb, hkb⟩ := isSome_iff_exists.mp halive
  exact ⟨s, l, hk, hl, hrange.1, hrange.2, rfl, write_inv hi hkb⟩

theorem step_inv (hi : w.Inv) (hadm : w.admits a) (hn : w.step a = some (w', ok)) : w'.Inv := by
  obtain ⟨t, n, op⟩ := a
  cases op with
  | newBuf => exact (step_newBuf hi hn).inv
  | one i o =>
    obtain ⟨v, v', hmoved, -⟩ := step_one hi hadm hn
    exact hmoved.inv
  | two i j o =>
    obtain ⟨v, u, v', u', hmoved, -⟩ := step_two hi hadm hn
    exact hmoved.inv
  | copy j =>
    obtain ⟨u, v', -, hmoved, -⟩ := step_copy hi hn
    exact hmoved.inv
  | next k =>
    obtain ⟨tls, s, v, c', v', s', hmoved⟩ := step_next hi hadm hn
    exact hmoved.moved.inv
  | backUp k count =>
    obtain ⟨tls, s, v, c', v', s', -, -, -, -, hinv, -⟩ := step_backUp hi hadm hn
    exact hinv
  | write k pos data =>
    obtain ⟨s, l, -, -, -, -, -, hinv⟩ := step_write hi hadm hn
    exact hinv
  | share | acquire | release _ | fill _ _ | threadExit | openStream _ _ | closeStream _ =>
    exact (step_quiet hi hadm rfl hn).inv

theorem Inv.init (n : Nat) : (start n).Inv := by
  have hown : (start n).own = [] := by
    rw [own, owners, start, List.flatMap_nil, List.append_nil, List.nil_append, List.flatMap_replicate]
    exact List.flatten_replicate_nil
  refine ⟨?_, fun b k h => absurd h.symm (some_ne_none k), fun v hv => absurd hv List.not_mem_nil, ?_,
    fun t ht => ?_, fun s hs => absurd hs List.not_mem_nil, fun s hs => absurd hs List.not_mem_nil⟩
  · rw [holders, hown]
    exact Exact.empty
  · rw [hown]
    exact List.nodup_nil
  · rw [List.eq_of_mem_replicate ht]
    exact .new

/-- In every history of calls that are admitted the world is in order. -/
theorem reachable_inv (h : (machine.guard admits).Reachable w) : w.Inv := by
  refine h.invariant (I := World.Inv) ?_ fun w a w' hi hn => ?_
  · rintro w ⟨n, rfl⟩
    exact .init n
  · obtain ⟨hadm, hn⟩ := Machine.guard_next.mp hn
    obtain ⟨⟨w', ok⟩, hstep, rfl⟩ := map_eq_some_iff.mp hn
    exact (step_inv hi hadm hstep).setOut _ _

end World

end LightRpc.IOBuffer

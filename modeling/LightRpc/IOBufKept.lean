import LightRpc.IOBufFrames
import LightRpc.IOBufThins

/- What a stream appends to its buffer.

   The bytes a stream has kept are a list of its own (`kept`): `Next` adds the bytes of the range it
   returns, `BackUp` takes bytes off the end, and the user's writes go to places counted from the
   end. In every run of the stream's calls, between which other buffers may be appended to, the
   buffer holds what it held before and these bytes. The range the user was given is the end of
   the buffer's last reference, and no other reference reaches into it (`Lending`). -/
namespace LightRpc.IOBuffer

open Lib Lib.RefCount List Option

variable {h : Heap} {c c' : Ctx} {v v' : IOBuf} {s s' : Stream} {r : BlockRef} {rs : List BlockRef} {k : Block}
  {t n m pos back : Nat} {data : List UInt8} {F : Multiset BlockId}

/-- The bytes of a range. -/
def Span.read (h : Heap) (l : Span) : List UInt8 := readRef h ⟨l.lo, l.hi - l.lo, l.block⟩ (l.hi - l.lo)

/-- Data written over the bytes that begin `back` bytes before the end. -/
def overwrite (xs : List UInt8) (back : Nat) (data : List UInt8) : List UInt8 :=
  xs.take (xs.length - back) ++ data ++ xs.drop (xs.length - back + data.length)

theorem overwrite_append {xs ys : List UInt8} (hback : back ≤ ys.length) :
    overwrite (xs ++ ys) back data = xs ++ overwrite ys back data := by
  have hat : (xs ++ ys).length - back = xs.length + (ys.length - back) := by
    rw [length_append]
    omega
  rw [overwrite, overwrite, hat, take_length_add_append, Nat.add_assoc, drop_length_add_append,
    append_assoc, append_assoc, append_assoc]

theorem length_overwrite {xs : List UInt8} (hback : back ≤ xs.length) (hdata : data.length ≤ back) :
    (overwrite xs back data).length = xs.length := by
  rw [overwrite, length_append, length_append, length_take, length_drop]
  omega

/-- A write into the bytes of a reference. -/
theorem readRef_write (hk : h.payload r.block = some k) (hlo : r.offset ≤ pos)
    (hhi : pos + data.length ≤ r.offset + r.length) :
    readRef (h.modify r.block (fun k => k.write pos data)) r r.length =
      overwrite (readRef h r r.length) (r.offset + r.length - pos) data := by
  have hk' : (h.modify r.block (fun k => k.write pos data)).payload r.block = some (k.write pos data) := by
    rw [Store.payload_modify, if_pos rfl, hk]
    rfl
  have hat : r.length - (r.offset + r.length - pos) = pos - r.offset := by omega
  rw [readRef_of_payload hk', readRef_of_payload hk, overwrite, length_map, length_range, hat]
  apply ext_getElem
  · simp only [length_map, length_range, length_append, length_take, length_drop]
    omega
  · intro i hi _
    rw [length_map, length_range] at hi
    simp only [getElem_append, getElem_map, getElem_range, getElem_take, getElem_drop,
      length_append, length_take, length_map, length_range, Block.write]
    -- before, in and behind the data
    split_ifs with hin hfront hleft hfront hleft
    all_goals first | omega | skip
    · rw [getD_eq_getElem _ _ (by omega)]
      congr 1
      omega
    · rfl
    · congr 1
      omega

/-! The range a stream's user was given. -/

/-- It is the end of the last reference, and the others do not reach into it. -/
structure Lending (v : IOBuf) (s : Stream) : Prop where
  span : ∀ l, s.lent = some l → l.lo < l.hi → ∃ rs r, v.refs = rs ++ [r] ∧ r.block = l.block ∧
    r.offset + r.length = l.hi ∧ r.offset ≤ l.lo ∧ ∀ x ∈ rs, x.block = l.block → x.offset + x.length ≤ l.lo
  latest : ∀ m, s.latest = some m → 0 < m ∧ ∃ l, s.lent = some l ∧ l.lo + m = l.hi

theorem Given.lending (g : Given c v s F c' v' s' n k rs r) (hf : Fits c.heap v.refs) : Lending v' s' := by
  have hends := g.atEnd.ends
  have hsize := g.atEnd.size
  have hpos := g.pos
  refine ⟨fun l hl hlt => ?_, fun m hm => ?_⟩
  · obtain rfl := some.inj (g.lent.symm.trans hl)
    refine ⟨rs, r, g.atEnd.refs, rfl, hends, by dsimp only; omega, fun x hx heq => ?_⟩
    have hold := g.old x hx
    have hbefore := g.before x (Multiset.mem_add.mpr (.inl (mem_blocks hold)))
      (fun y hy => hf y (mem_singleton.mp hy ▸ hold)) heq
    dsimp only
    omega
  · obtain rfl := some.inj (g.latest.symm.trans hm)
    exact ⟨hpos, _, g.lent, by dsimp only; omega⟩

/-- The bytes of the range `Next` returned. -/
theorem Given.read (g : Given c v s F c' v' s' n k rs r) :
    Span.read c'.heap ⟨r.block, k.size - n, k.size⟩ = (List.range n).map fun i => k.data (k.size - n + i) := by
  have hends := g.atEnd.ends
  have hsize := g.atEnd.size
  rw [Span.read, readRef_of_payload (b := k) (by exact g.atEnd.payload)]
  dsimp only
  rw [Nat.sub_sub_self (by omega)]

theorem Lending.last {l : Span} (hl : Lending v s) (he : AtEnd h v s m k rs r) (hlent : s.lent = some l)
    (hlt : l.lo < l.hi) : r.block = l.block ∧ k.size = l.hi ∧ r.offset ≤ l.lo ∧
      ∀ x ∈ rs, x.block = l.block → x.offset + x.length ≤ l.lo := by
  obtain ⟨rs', r', hrefs, hblock, hhi, hlo, hothers⟩ := hl.span l hlent hlt
  obtain ⟨rfl, hr⟩ := append_inj' (he.refs.symm.trans hrefs) rfl
  obtain rfl := singleton_injective hr
  exact ⟨hblock, he.ends.symm.trans hhi, hlo, hothers⟩

/-- Bytes behind which nothing is referred to are given up. -/
theorem Lending.before (hl : Lending v s) (he : AtEnd h v s m k rs r) (hm : s.latest = some m) (hle : n ≤ m) :
    ∀ x ∈ rs, x.block = r.block → x.offset + x.length + n ≤ k.size := by
  obtain ⟨hpos, l, hlent, hsize⟩ := hl.latest m hm
  obtain ⟨hblock, hhi, -, hothers⟩ := hl.last he hlent (by omega)
  intro x hx heq
  have hbefore := hothers x hx (heq.trans hblock)
  omega

theorem Lending.backUp (hl : Lending v s) (he : AtEnd c.heap v s m k rs r) (back : Backed c s F n rs r c' v' s') :
    Lending v' s' := by
  rw [back.stream]
  refine ⟨fun l hlent hlt => ?_, fun m hm => absurd hm.symm (some_ne_none m)⟩
  obtain ⟨l', hl', rfl⟩ := map_eq_some_iff.mp hlent
  dsimp only at hlt
  obtain ⟨hblock, hhi, hlo, hothers⟩ := hl.last he hl' (by omega)
  have hends := he.ends
  have hlt : n < r.length := by omega
  refine ⟨rs, r.shorten n, by rw [back.refs, if_pos hlt], hblock, ?_, hlo, hothers⟩
  show r.offset + (r.length - n) = l'.hi - n
  omega

theorem Backed.mem_blocks_iff {b : BlockId} (back : Backed c s F n rs r c' v' s') (he : AtEnd c.heap v s m k rs r)
    (hne : b ≠ r.block) : b ∈ blocks v'.refs ↔ b ∈ blocks v.refs := by
  rw [back.refs, he.refs]
  split <;> simp [blocks_append, blocks_cons, hne, BlockRef.shorten]

/-- `BackUp` within what the latest `Next` gave takes no block back. -/
theorem AtEnd.not_retakes {fuel : Nat} {R : List BlockId} (hv : v.Ok)
    (hex : Exact c.heap (blocks v.refs + (↑(IOBuffer.own c s) + F))) (hs : Sound c.heap)
    (he : AtEnd c.heap v s m k rs r) (hle : n ≤ m) : retakes R (fuel + 1) c v s n = false := by
  obtain ⟨c', v', s', hback, -⟩ := backUpRef_spec hv hex hs he n
  have hdone : n - r.length = 0 := by
    have := he.size
    omega
  rw [if_pos hdone] at hback
  rw [retakes, he.isEmpty hv, he.backUpOnce hv, hback, retakesOnce, he.cur]
  rfl

/-- The block ends where the range does, if it is still there; a stream with blocks of its own
    leaves the chain alone. -/
theorem AtEnd.backUp_thins {fuel : Nat} (hv : v.Ok) (he : AtEnd c.heap v s m k rs r) (hle : n ≤ m)
    (heq : backUp (fuel + 1) c v s n = some (c', v', s')) :
    Thins (shrunk c.heap r.block n) c'.heap ∧ (0 < s.blockSize → c'.tls = c.tls) := by
  have hlen := he.size
  have hdone : n - r.length = 0 := by omega
  rw [backUp, he.isEmpty hv, he.backUpOnce hv] at heq
  unfold backUpRef at heq
  by_cases hlt : n < r.length
  · rw [if_pos hlt] at heq
    dsimp only at heq
    by_cases hsize : (s.backedUp n).blockSize = 0
    · rw [if_pos hsize] at heq
      obtain rfl := congrArg Prod.fst (some.inj heq)
      exact ⟨releaseTlsBlock_thins (c.setHeap (shrunk c.heap r.block n)) r.block, fun hpos => absurd hsize (Nat.ne_of_gt hpos)⟩
    · rw [if_neg hsize] at heq
      obtain rfl := congrArg Prod.fst (some.inj heq)
      exact ⟨.refl _, fun _ => rfl⟩
  · obtain rfl : r.length = n := by omega
    rw [if_neg hlt, if_pos hdone] at heq
    obtain rfl := congrArg Prod.fst (some.inj heq)
    exact ⟨(popBackRef_thins _ v).trans
      (releaseBlock_thins (c.setHeap (popBackRef (shrunk c.heap r.block r.length) v).1) (s.backedUp r.length)),
      fun hpos => releaseBlock_tls (s := s.backedUp r.length) hpos⟩

/-! The stream's calls. -/

namespace World

variable {w w' w₀ : World} {i j m : Nat} {a : Act} {ok : Bool} {u v₀ : IOBuf} {xs : List UInt8} {b : BlockId}

/-- Calls of the stream, `BackUp` after `Next` only, and calls on other buffers. -/
def streamCall (i m : Nat) (w : World) (a : Act) : Bool :=
  match a.op with
  | .next l | .write l _ _ => l = m && w.admits a
  | .backUp l count => l = m && (w.streams[m]?).all fun s => s.latest.any (count ≤ ·)
  | .one j _ | .two j _ .appendBuf => j ≠ i && w.admits a
  | .two j l _ => j ≠ i && l ≠ i && w.admits a
  | _ => false

/-- The bytes a stream has kept, after a call that led to the world. -/
def kept (m : Nat) (w : World) (ok : Bool) (xs : List UInt8) : Op → List UInt8
  | .next _ => if ok then xs ++ ((w.streams[m]?).bind Stream.lent).elim [] (Span.read w.heap) else xs
  | .backUp _ count => xs.take (xs.length - count)
  | .write _ pos data => overwrite xs (((w.streams[m]?).bind Stream.lent).elim 0 Span.hi - pos) data
  | _ => xs

/-- What holds of the stream `s` on the buffer `v`, which began as `v₀`. -/
structure Keeping (i m : Nat) (w₀ : World) (v₀ : IOBuf) (xs : List UInt8) (w : World) (v : IOBuf) (s : Stream) :
    Prop where
  inv : w.Inv
  buf : w.bufs[i]? = some v
  stream : w.streams[m]? = some s
  same : s.buf = i
  fits : Fits w.heap v.refs
  bytes : bytes w.heap v.refs = IOBuffer.bytes w₀.heap v₀.refs ++ xs
  count : s.byteCount = xs.length
  lending : Lending v s
  range : ∀ l, s.lent = some l → l.lo ≤ l.hi ∧ l.hi - l.lo ≤ xs.length
  /-- Nobody has a block of its own that the stream has left. -/
  left : 0 < s.blockSize → ∀ b ∈ blocks v.refs, w₀.heap.next ≤ b → s.curBlock = some b ∨ b ∉ w.own

/-- The stream keeps the block, leaves it to nobody, or has left it before. -/
theorem Keeping.leaves {tls : Tls} (q : Keeping i m w₀ v₀ xs w v s) (ht : w.threads[t]? = some tls)
    (hown' : (↑w'.own : Multiset BlockId) = ↑(IOBuffer.own c' s') + ↑(w.ownersButStream m t))
    (htls : 0 < s.blockSize → c'.tls = tls) (hrest : b ∉ w.own → b ∉ w'.own) (hpos : 0 < s.blockSize)
    (hb : b ∈ blocks v.refs) (hnew : w₀.heap.next ≤ b) : s'.curBlock = some b ∨ b ∉ w'.own := by
  rcases q.left hpos b hb hnew with hcur | hn
  · have hnodup := Multiset.coe_nodup.mpr q.inv.owned
    rw [own_stream ht q.stream 0, IOBuffer.own, hcur, toList_some, singleton_append, ← Multiset.cons_coe, Multiset.cons_add,
      Multiset.nodup_cons, Multiset.mem_add, not_or] at hnodup
    refine or_iff_not_imp_left.mpr fun hne hmem => ?_
    rw [← Multiset.mem_coe, hown', Multiset.mem_add, Multiset.mem_coe, IOBuffer.own, htls hpos, mem_append] at hmem
    rcases hmem with (hmem | hmem) | hmem
    · exact hne (mem_toList.mp hmem)
    · exact hnodup.1.1 hmem
    · exact hnodup.1.2 hmem
  · exact .inr (hrest hn)

theorem getElem?_setStream (w : World) (hm : w.streams[m]? = some s) (v : IOBuf) (s' : Stream) :
    ((w.setBuf i v).setStream m s').streams[m]? = some s' := by
  obtain ⟨g, hg, -⟩ := setBuf_streams w i v
  show ((w.setBuf i v).streams.set m s')[m]? = some s'
  rw [hg, getElem?_set_self]
  rw [length_map]
  exact lt_length_of_getElem? hm

section

variable (q : Keeping i m w₀ v₀ xs w v s)

include q

theorem Keeping.next (hadm : w.admits ⟨t, n, .next m⟩) (hn : w.step ⟨t, n, .next m⟩ = some (w', ok)) :
    ∃ v' s', Keeping i m w₀ v₀ (kept m w' ok xs (.next m)) w' v' s' ∧
      (ok → ∀ l, s'.lent = some l → endOf w'.heap l.block = l.hi) ∧ Rests w w' (blocks v.refs) := by
  obtain ⟨tls, s₁, v₁, c', v', s', moved⟩ := step_next q.inv hadm hn
  obtain rfl := some.inj (q.stream.symm.trans moved.stream)
  have hbuf := q.buf
  rw [← q.same] at hbuf
  obtain rfl := some.inj (hbuf.symm.trans moved.moved.before)
  have hstream : w'.streams[m]? = some s' := by
    rw [moved.world]
    exact getElem?_setStream (w.put t c') q.stream v' s'
  have hbuf' : w'.bufs[i]? = some v' := by
    rw [moved.moved.bufs, ← q.same]
    exact List.getElem?_set_self (lt_length_of_getElem? hbuf)
  have hheap := moved.heap
  have hown' := called_own moved.thread q.stream moved.world
  have hlater := moved.nexted.later
  rw [← hheap] at hlater
  have hrests : Rests w w' (blocks v.refs) :=
    .of_later (hlater.mono fun b hb => Multiset.mem_add.mpr (.inl hb)) (own_stream moved.thread q.stream n) hown'
  have hleft := fun b hpos hb => q.leaves (b := b) moved.thread hown' moved.nexted.tls (fun hn => (hrests b hb hn).1) hpos hb
  cases ok with
  | true =>
    obtain ⟨n, k, rs, r, g⟩ := moved.nexted.given rfl
    obtain ⟨hfits, hbytes⟩ := g.bytes q.fits
    have hkept : kept m w' true xs (.next m) = xs ++ (List.range n).map fun i => k.data (k.size - n + i) := by
      show xs ++ ((w'.streams[m]?).bind Stream.lent).elim [] (Span.read w'.heap) = _
      rw [hstream, bind_some, g.lent, elim_some, hheap, g.read]
    refine ⟨v', s', ⟨moved.moved.inv, hbuf', hstream, moved.nexted.same.1.trans q.same, ?_, ?_, ?_, g.lending q.fits, ?_, ?_⟩, ?_, hrests⟩
    · rw [hheap]
      exact hfits
    · rw [hkept, hheap, hbytes, q.bytes, List.append_assoc]
    · rw [hkept, g.byteCount, q.count, List.length_append, List.length_map, List.length_range]
      push_cast
      rfl
    · intro l hl
      obtain rfl := some.inj (g.lent.symm.trans hl)
      rw [hkept, List.length_append, List.length_map, List.length_range]
      dsimp only
      omega
    · intro hpos b hb hnew
      rw [g.atEnd.refs, blocks_append, Multiset.mem_add] at hb
      rcases hb with hb | hb
      · obtain ⟨x, hx, rfl⟩ := mem_map.mp (Multiset.mem_coe.mp hb)
        exact hleft x.block (moved.nexted.same.2 ▸ hpos) (mem_blocks (g.old x hx)) hnew
      · exact .inl (Multiset.mem_singleton.mp hb ▸ g.atEnd.cur)
    · intro _ l hl
      obtain rfl := some.inj (g.lent.symm.trans hl)
      rw [hheap, endOf, g.atEnd.payload]
      rfl
  | false =>
    obtain ⟨rfl, rfl, hkeep⟩ := moved.nexted.refused rfl
    rw [← hheap] at hkeep
    refine ⟨v', _, ⟨moved.moved.inv, hbuf', hstream, q.same, q.fits.congr hkeep, (bytes_congr hkeep).trans q.bytes, q.count,
      ⟨q.lending.span, fun m hm => absurd hm.symm (some_ne_none m)⟩, q.range,
      fun hpos b hb => hleft b hpos hb⟩, fun h => absurd h Bool.false_ne_true, hrests⟩

/-- Such a `BackUp` is admitted, and never ends in an error. -/
theorem Keeping.backUp_admitted {count p : Nat} (hp : s.latest = some p) (hle : count ≤ p) :
    w.admits ⟨t, n, .backUp m count⟩ ∧
      (t < w.threads.length → (w.step ⟨t, n, .backUp m count⟩).isSome) := by
  have hb := q.buf
  rw [← q.same] at hb
  obtain ⟨v₁, k, rs, r, hb₁, he⟩ := (q.inv.stream q.stream).2 p hp
  obtain rfl := some.inj (hb.symm.trans hb₁)
  have hok := q.inv.buf hb
  constructor
  · show (w.streams[m]?).all (fun s => (w.ctx ⟨t, n, .backUp m count⟩).all fun c => (w.bufs[s.buf]?).all fun v =>
      !retakes (w.ownersButStream m t) (v.refNum + 1) c v s count) = true
    rw [q.stream, all_some, hb]
    cases hc : w.ctx ⟨t, n, .backUp m count⟩ with
    | none => rfl
    | some c =>
      obtain ⟨tls, ht, rfl⟩ := ctx_eq hc
      rw [all_some, all_some,
        AtEnd.not_retakes (c := ⟨w.heap, tls, n⟩) hok (q.inv.around hb (own_stream ht q.stream n)) q.inv.sound he hle]
      rfl
  · intro ht
    have ht := getElem?_eq_getElem ht
    obtain ⟨c', v', s', hr, -⟩ := backUp_spec (c := ⟨w.heap, w.threads[t], n⟩) hok
      (q.inv.around hb (own_stream ht q.stream n)) q.inv.sound he hle v.refNum
    have hstep : w.step ⟨t, n, .backUp m count⟩ = some (((w.put t c').setBuf s.buf v').setStream m s', true) := by
      simp [step, ctx, q.stream, ht, hb, hr]
    rw [hstep]
    rfl

/-- What the buffer, the stream and the block are after `BackUp`. -/
theorem Keeping.backUp {count : Nat} (hlatest : s.latest.any (count ≤ ·))
    (hn : w.step ⟨t, n, .backUp m count⟩ = some (w', ok)) :
    ∃ v' s', Keeping i m w₀ v₀ (kept m w' ok xs (.backUp m count)) w' v' s' ∧
      (∀ l, s'.lent = some l → ∀ b, w'.heap.payload l.block = some b → b.size = l.hi) ∧
      ∀ b ∈ blocks v.refs, b ∉ w.own → w'.heap.payload b = w.heap.payload b := by
  obtain ⟨p, hp, hle⟩ := (any_eq_true _ _).mp hlatest
  have hle := of_decide_eq_true hle
  obtain ⟨tls, s₁, v₁, c', v', s', ht, hm, hb, hw', hinv, hr⟩ := step_backUp q.inv (q.backUp_admitted hp hle).1 hn
  obtain rfl := some.inj (q.stream.symm.trans hm)
  obtain rfl := some.inj (q.buf.symm.trans (q.same ▸ hb))
  obtain ⟨v₁, k, rs, r, hb₁, he⟩ := (q.inv.stream hm).2 p hp
  obtain rfl := some.inj (hb.symm.trans hb₁)
  have hok := q.inv.buf hb
  obtain ⟨c₁, v₁, s₁, hr₁, back⟩ := backUp_spec (c := ⟨w.heap, tls, n⟩) hok (q.inv.around hb (own_stream ht hm n))
    q.inv.sound he hle v.refNum
  obtain ⟨rfl, hr₂⟩ := Prod.mk.inj (some.inj (hr₁.symm.trans hr))
  obtain ⟨rfl, rfl⟩ := Prod.mk.inj hr₂
  have hheap := called_heap hw'
  obtain ⟨hpos, l, hlent, hsize⟩ := q.lending.latest p hp
  have hrange := (q.range l hlent).2
  obtain ⟨hfits, hbytes⟩ := back.bytes hok he hle q.fits (q.lending.before he hp hle)
  have hstream : s₁.lent = some { l with hi := l.hi - count } ∧ s₁.byteCount = s.byteCount - count ∧ s₁.buf = s.buf := by
    rw [back.stream]
    exact ⟨by rw [Stream.backedUp, hlent]; rfl, rfl, rfl⟩
  have hthins := he.backUp_thins hok hle hr
  have hown' := called_own ht hm hw'
  have hlater := back.handed.later
  rw [← hheap] at hlater
  -- from the moment the end of the used part was moved
  have hrests := Rests.of_later (w := { w with heap := shrunk w.heap r.block count }) hlater (own_stream ht hm n) hown'
  have hcur : r.block ∈ w.own := mem_owners (mem_of_getElem? hm) he.cur
  refine ⟨v₁, s₁, ⟨hinv, ?_, ?_, hstream.2.2.trans q.same, hheap ▸ hfits, ?_, ?_, q.lending.backUp he back, ?_, ?_⟩, ?_, ?_⟩
  · rw [called_bufs hw', ← q.same]
    exact getElem?_set_self (lt_length_of_getElem? hb)
  · rw [hw']
    exact getElem?_setStream (w.put t c₁) hm v₁ s₁
  · rw [hheap, hbytes, ← q.fits.length_bytes]
    show (IOBuffer.bytes w.heap v.refs).take _ = _ ++ xs.take (xs.length - count)
    rw [q.bytes, length_append, Nat.add_sub_assoc (by omega), take_length_add_append]
  · show _ = ((xs.take (xs.length - count)).length : Int)
    rw [hstream.2.1, q.count, length_take]
    omega
  · intro l' hl'
    obtain rfl := some.inj (hstream.1.symm.trans hl')
    show l.lo ≤ l.hi - count ∧ l.hi - count - l.lo ≤ (xs.take (xs.length - count)).length
    rw [length_take]
    omega
  · intro hpos b hb hnew
    have hmem : b ∈ blocks v.refs := by
      by_cases hne : b = r.block
      · rw [hne, he.refs]
        exact mem_blocks (by simp)
      · exact (back.mem_blocks_iff he hne).mp hb
    refine q.leaves ht hown' hthins.2 (fun hn => (hrests b (Multiset.mem_add.mpr (.inl hb)) hn).1) ?_ hmem hnew
    rwa [back.stream] at hpos
  · intro l' hl' b hb'
    obtain rfl := some.inj (hstream.1.symm.trans hl')
    obtain ⟨hblock, hhi, -⟩ := q.lending.last he hlent (by omega)
    have hpayload := hthins.1.payload l.block b (hheap ▸ hb')
    rw [← hblock, shrunk, Store.payload_modify, if_pos rfl, he.payload] at hpayload
    rw [← some.inj hpayload, ← hhi]
    rfl
  · intro b hb hn
    have hne : b ≠ r.block := fun h => hn (h ▸ hcur)
    rw [(hrests b (Multiset.mem_add.mpr (.inl ((back.mem_blocks_iff he hne).mpr hb))) hn).2]
    show (shrunk w.heap r.block count).payload b = _
    rw [shrunk, Store.payload_modify, if_neg hne]

theorem Keeping.write {pos : Nat} {data : List UInt8} (hadm : w.admits ⟨t, n, .write m pos data⟩)
    (hn : w.step ⟨t, n, .write m pos data⟩ = some (w', ok)) :
    Keeping i m w₀ v₀ (kept m w' ok xs (.write m pos data)) w' v s := by
  obtain ⟨s₁, l, hm, hlent, hlo, hhi, rfl, hinv⟩ := step_write q.inv hadm hn
  obtain rfl := some.inj (q.stream.symm.trans hm)
  have hrange := q.range l hlent
  have hkept : kept m { w with heap := w.heap.modify l.block fun b => b.write pos data } ok xs (.write m pos data) =
      overwrite xs (l.hi - pos) data := by
    show overwrite xs (((w.streams[m]?).bind Stream.lent).elim 0 Span.hi - pos) data = _
    rw [q.stream, bind_some, hlent, elim_some]
  have hlen : (overwrite xs (l.hi - pos) data).length = xs.length := length_overwrite (by omega) (by omega)
  rw [hkept]
  refine ⟨hinv, q.buf, q.stream, q.same, q.fits.modify fun _ _ _ _ _ hend => hend, ?_, hlen ▸ q.count, q.lending,
    hlen ▸ q.range, q.left⟩
  show IOBuffer.bytes (w.heap.modify l.block fun b => b.write pos data) v.refs = _
  by_cases hlt : l.lo < l.hi
  · obtain ⟨rs, r, hrefs, hblock, hend, hfirst, hothers⟩ := q.lending.span l hlent hlt
    have hf := q.fits
    rw [hrefs] at hf
    obtain ⟨k, hk, -⟩ := hf r (by simp)
    have hleft : IOBuffer.bytes (w.heap.modify l.block fun b => b.write pos data) rs = IOBuffer.bytes w.heap rs :=
      (hf.left.write fun x hx heq => .inl (Nat.le_trans (hothers x hx heq) hlo)).2
    have hlast : readRef (w.heap.modify r.block fun b => b.write pos data) r r.length =
        overwrite (readRef w.heap r r.length) (r.offset + r.length - pos) data :=
      readRef_write hk (by omega) (by omega)
    rw [hblock, hend] at hlast
    have hbytes := q.bytes
    rw [hrefs, bytes_append, bytes_cons, bytes_nil, append_nil] at hbytes
    rw [hrefs, bytes_append, bytes_cons, bytes_nil, append_nil, hleft, hlast,
      ← overwrite_append (by rw [length_readRef hk]; omega), hbytes, overwrite_append (by omega)]
  · -- nothing is left of the range, so nothing is written
    obtain rfl : data = [] := length_eq_zero_iff.mp (by omega)
    have hsame : overwrite xs (l.hi - pos) [] = xs := by
      rw [overwrite, append_nil, length_nil, Nat.add_zero, take_append_drop]
    rw [hsame, ← q.bytes]
    exact bytes_modify fun r hr k hk heq i hi => if_neg (by simp only [length_nil]; omega)

end

/-- A call on another buffer leaves the stream as it is. -/
theorem stream_setBuf (hm : w.streams[m]? = some s) (hj : s.buf ≠ j ∨ w.bufs[j]? = some u) :
    (w.setBuf j u).streams[m]? = some s := by
  unfold setBuf
  split
  · exact hm
  · rename_i hne
    show (w.streams.map (disturb j))[m]? = some s
    rw [getElem?_map, hm, map_some, disturb, if_neg (hj.resolve_right hne)]

theorem Keeping.moved (q : Keeping i m w₀ v₀ xs w v s) (hinv : w'.Inv) (hbuf : w'.bufs[i]? = some v)
    (hstream : w'.streams[m]? = some s) (hfits : Fits w'.heap v.refs)
    (hbytes : IOBuffer.bytes w'.heap v.refs = IOBuffer.bytes w.heap v.refs)
    (hrests : ∀ b ∈ blocks v.refs, b ∉ w.own → b ∉ w'.own) : Keeping i m w₀ v₀ xs w' v s :=
  ⟨hinv, hbuf, hstream, q.same, hfits, hbytes.trans q.bytes, q.count, q.lending, q.range,
    fun hpos b hb hnew => (q.left hpos b hb hnew).imp_right (hrests b hb)⟩

theorem Keeping.one {o : Unop} (q : Keeping i m w₀ v₀ xs w v s) (hadm : w.admits ⟨t, n, .one j o⟩)
    (hne : j ≠ i) (hn : w.step ⟨t, n, .one j o⟩ = some (w', ok)) :
    Keeping i m w₀ v₀ xs w' v s ∧ Rests w w' (blocks v.refs) := by
  obtain ⟨u, u', moved, hrests, -⟩ := step_one q.inv hadm hn
  obtain ⟨hbuf, hframe⟩ := moved.frame i (Ne.symm hne) v q.buf
  have hrests : Rests w w' (blocks v.refs) := by
    intro b hb
    obtain ⟨x, hx, rfl⟩ := mem_map.mp (Multiset.mem_coe.mp hb)
    exact hrests _ (mem_restBufs q.buf (Ne.symm hne) hx)
  refine ⟨q.moved moved.inv hbuf ?_ (hframe q.fits).1 (hframe q.fits).2 fun b hb hn => (hrests b hb hn).1, hrests⟩
  obtain ⟨c, -, hn⟩ := bind_eq_some_iff.mp hn
  obtain ⟨x, -, hn⟩ := bind_eq_some_iff.mp hn
  obtain ⟨r, -, hn⟩ := bind_eq_some_iff.mp hn
  cases hn
  exact stream_setBuf q.stream (.inl (q.same ▸ Ne.symm hne))

/-- Another buffer may also be given the references of this one. -/
theorem Keeping.two {l : Nat} {o : Binop} (q : Keeping i m w₀ v₀ xs w v s) (hadm : w.admits ⟨t, n, .two j l o⟩)
    (hne : j ≠ i) (hl : l ≠ i ∨ o = .appendBuf) (hn : w.step ⟨t, n, .two j l o⟩ = some (w', ok)) :
    Keeping i m w₀ v₀ xs w' v s ∧ ∀ b ∈ blocks v.refs, w'.heap.payload b = w.heap.payload b := by
  obtain ⟨x, u, x', u', moved, -⟩ := step_two q.inv hadm hn
  obtain ⟨-, hn⟩ := ite_none_left_eq_some.mp hn
  obtain ⟨x₁, hx, hn⟩ := bind_eq_some_iff.mp hn
  obtain ⟨u₁, hu, hn⟩ := bind_eq_some_iff.mp hn
  obtain ⟨r, hr, hn⟩ := bind_eq_some_iff.mp hn
  obtain ⟨hw', -⟩ := Prod.mk.inj (some.inj hn)
  have hfirst : (({ w with heap := r.1 } : World).setBuf j r.2.1).streams[m]? = some s :=
    stream_setBuf (w := { w with heap := r.1 }) q.stream (.inl (q.same ▸ Ne.symm hne))
  have hafter : w'.bufs[i]? = some v ∧ w'.streams[m]? = some s := by
    by_cases hli : l = i
    · subst hli
      obtain rfl := hl.resolve_left fun h => h rfl
      obtain rfl := some.inj (q.buf.symm.trans hu)
      cases hr
      have hbefore : (({ w with heap := (appendBuf w.heap x₁ v).1 } : World).setBuf j (appendBuf w.heap x₁ v).2).bufs[l]? =
          some v := by
        rw [setBuf_bufs, getElem?_set_ne hne]
        exact q.buf
      refine ⟨?_, hw' ▸ stream_setBuf hfirst (.inr hbefore)⟩
      rw [← hw', setBuf_bufs]
      exact getElem?_set_self (lt_length_of_getElem? hbefore)
    · exact ⟨(moved.frame i (Ne.symm hne) (Ne.symm hli) v q.buf).1,
        hw' ▸ stream_setBuf hfirst (.inl (q.same ▸ Ne.symm hli))⟩
  have hkeep : ∀ b ∈ blocks v.refs, w'.heap.payload b = w.heap.payload b := fun b hb =>
    moved.keeps b (Multiset.mem_add.mpr (.inl (mem_pool (mem_of_getElem? hafter.1) hb)))
  refine ⟨q.moved moved.inv hafter.1 hafter.2 ?_ ?_ fun b _ => by rw [moved.own]; exact id, hkeep⟩
  · exact q.fits.congr fun y hy => hkeep y.block (mem_blocks hy)
  · exact bytes_congr fun y hy => hkeep y.block (mem_blocks hy)

/-! Whole runs. -/

/-- The world and what the stream has kept. -/
def keptMachine (i m : Nat) (w₀ : World) : Machine (World × List UInt8) Act where
  init p := p = (w₀, [])
  next p a := if streamCall i m p.1 a then (p.1.step a).map fun r => (r.1, kept m r.1 r.2 p.2 a.op) else none

/-- The block ends with the range of the stream. -/
def EndsAt (m : Nat) (w : World) : Prop :=
  ∀ s l b, w.streams[m]? = some s → s.lent = some l → w.heap.payload l.block = some b → b.size = l.hi

/-- A block that a stream with blocks of its own has left with bytes of the buffer in it. -/
def LeftBy (i m : Nat) (w₀ w : World) (b : BlockId) : Prop :=
  ∃ v s, w.bufs[i]? = some v ∧ w.streams[m]? = some s ∧ 0 < s.blockSize ∧ s.curBlock ≠ some b ∧
    b ∈ blocks v.refs ∧ w₀.heap.next ≤ b

theorem endOf_write {h : Heap} : endOf (h.modify b fun k => k.write pos data) = endOf h := by
  funext b'
  rw [endOf, endOf, Store.payload_modify]
  split
  next heq =>
    rw [heq]
    cases h.payload b <;> rfl
  · rfl

theorem Keeping.step (q : Keeping i m w₀ v₀ xs w v s) (hcall : streamCall i m w a)
    (hn : w.step a = some (w', ok)) : (∃ v' s', Keeping i m w₀ v₀ (kept m w' ok xs a.op) w' v' s') ∧
      (a.op = .next m ∧ ok ∨ (∃ count, a.op = .backUp m count) → EndsAt m w') ∧
      ∀ b ∈ blocks v.refs, b ∉ w.own → endOf w'.heap b = endOf w.heap b := by
  obtain ⟨t, n, op⟩ := a
  cases op with
  | next l =>
    obtain ⟨hl, hadm⟩ := Bool.and_eq_true_iff.mp hcall
    obtain rfl := of_decide_eq_true hl
    obtain ⟨v', s', q', hends, hrests⟩ := q.next hadm hn
    refine ⟨⟨v', s', q'⟩, fun h s₁ l b hs hl hb => ?_, fun b hb hn => congrArg (Option.elim · 0 _) (hrests b hb hn).2⟩
    obtain ⟨-, hok⟩ | ⟨count, hop⟩ := h
    · obtain rfl := some.inj (q'.stream.symm.trans hs)
      have hend := hends hok l hl
      rwa [endOf, hb] at hend
    · cases hop
  | backUp l count =>
    obtain ⟨hl, hlatest⟩ := Bool.and_eq_true_iff.mp hcall
    obtain rfl := of_decide_eq_true hl
    rw [q.stream, all_some] at hlatest
    obtain ⟨v', s', q', hends, hrests⟩ := q.backUp hlatest hn
    refine ⟨⟨v', s', q'⟩, fun _ s₁ l b hs => ?_, fun b hb hn => congrArg (Option.elim · 0 _) (hrests b hb hn)⟩
    obtain rfl := some.inj (q'.stream.symm.trans hs)
    exact fun hl hb => hends l hl b hb
  | write l pos data =>
    obtain ⟨hl, hadm⟩ := Bool.and_eq_true_iff.mp hcall
    obtain rfl := of_decide_eq_true hl
    refine ⟨⟨v, s, q.write hadm hn⟩, by simp, fun b _ _ => ?_⟩
    obtain ⟨_, _, _, _, _, _, rfl, _⟩ := step_write q.inv hadm hn
    exact congrFun endOf_write b
  | one j o =>
    obtain ⟨hj, hadm⟩ := Bool.and_eq_true_iff.mp hcall
    obtain ⟨q', hrests⟩ := q.one hadm (of_decide_eq_true hj) hn
    exact ⟨⟨v, s, q'⟩, by simp, fun b hb hn => congrArg (Option.elim · 0 _) (hrests b hb hn).2⟩
  | two j l o =>
    have hcases : w.admits ⟨t, n, .two j l o⟩ = true ∧ j ≠ i ∧ (l ≠ i ∨ o = .appendBuf) := by
      cases o <;> simp_all [streamCall]
    obtain ⟨q', hkeep⟩ := q.two hcases.1 hcases.2.1 hcases.2.2 hn
    exact ⟨⟨v, s, q'⟩, by simp, fun b hb _ => congrArg (Option.elim · 0 _) (hkeep b hb)⟩
  | newBuf | copy _ | share | acquire | release _ | fill _ _ | threadExit | openStream _ _ | closeStream _ =>
    exact absurd hcall Bool.false_ne_true

/-- A stream on any buffer: after every run of its calls the buffer holds what it held before and
    the kept bytes, `ByteCount` is their number, `BackUp` after `Next` returns, and the block ends
    with the range that `Next` returned or `BackUp` left. A block that a stream with blocks of its
    own has left keeps its size, whatever is called next. -/
theorem stream_appends_kept {v₀ : IOBuf} {size : Nat} {p : World × List UInt8} (hi : w₀.Inv)
    (hb : w₀.bufs[i]? = some v₀) (hf : Fits w₀.heap v₀.refs)
    (hs : w₀.streams[m]? = some ⟨i, size, none, 0, none, none⟩) (h : (keptMachine i m w₀).Reachable p) :
    (∃ v s, p.1.bufs[i]? = some v ∧ p.1.streams[m]? = some s ∧ v.Ok ∧
      bytes p.1.heap v.refs = bytes w₀.heap v₀.refs ++ p.2 ∧ s.byteCount = p.2.length ∧
      ∀ q, s.latest = some q → ∀ count ≤ q, ∀ t < p.1.threads.length, ∀ n,
        (p.1.step ⟨t, n, .backUp m count⟩).isSome = true) ∧
    ∀ a w' ok, streamCall i m p.1 a = true → p.1.step a = some (w', ok) →
      ((a.op = .next m ∧ ok = true ∨ ∃ count, a.op = .backUp m count) → EndsAt m w') ∧
      ∀ b, LeftBy i m w₀ p.1 b → endOf w'.heap b = endOf p.1.heap b := by
  have hkeeping : ∃ v s, Keeping i m w₀ v₀ p.2 p.1 v s := by
    refine h.invariant (I := fun p => ∃ v s, Keeping i m w₀ v₀ p.2 p.1 v s) ?_ ?_
    · rintro p rfl
      refine ⟨v₀, _, hi, hb, hs, rfl, hf, (List.append_nil _).symm, rfl, ⟨?_, ?_⟩, ?_, fun _ b hmem hnew => ?_⟩
      · nofun
      · nofun
      · nofun
      · have hheld : b ∈ w₀.holders := Multiset.mem_add.mpr (.inl (mem_pool (mem_of_getElem? hb) hmem))
        exact absurd (hi.exact.lt_next hheld) (Nat.not_lt.mpr hnew)
    · rintro p a p' ⟨v, s, q⟩ hn
      obtain ⟨hcall, hn⟩ := Option.ite_none_right_eq_some.mp hn
      obtain ⟨⟨w', ok⟩, hstep, rfl⟩ := Option.map_eq_some_iff.mp hn
      exact (q.step hcall hstep).1
  obtain ⟨v, s, q⟩ := hkeeping
  refine ⟨⟨v, s, q.buf, q.stream, q.inv.buf q.buf, q.bytes, q.count, fun p hp count hle t ht n => ?_⟩, ?_⟩
  · exact (q.backUp_admitted hp hle).2 ht
  · intro a w' ok hcall hn
    obtain ⟨-, hends, hsteady⟩ := q.step hcall hn
    refine ⟨hends, ?_⟩
    rintro b ⟨v', s', hv', hs', hpos, hcur, hmem, hnew⟩
    obtain rfl := some.inj (q.buf.symm.trans hv')
    obtain rfl := some.inj (q.stream.symm.trans hs')
    exact hsteady b hmem ((q.left hpos b hmem hnew).resolve_left hcur)

/-- A buffer with two bytes, and a stream on it. -/
def twoBytes : List Act :=
  ([.newBuf, .newBuf, .one 0 (.append [1, 2]), .openStream 0 0] : List Op).map (⟨0, 1, ·⟩)

/-- The user of the stream writes two bytes and gives the rest back; then another buffer is appended to. -/
def twoKept : List Act :=
  ([.next 0, .write 0 2 [5, 6], .backUp 0 8156, .one 1 (.append [9, 9])] : List Op).map (⟨0, 1, ·⟩)

theorem twoKept_appended : ∃ w₀ p, carefulMachine.Run twoBytes w₀ ∧ (keptMachine 0 0 w₀).Run twoKept p ∧ p.2 = [5, 6] ∧
    ∃ v s, p.1.bufs[0]? = some v ∧ p.1.streams[0]? = some s ∧ bytes p.1.heap v.refs = [1, 2] ++ [5, 6] ∧
      s.byteCount = 2 := by
  obtain ⟨w₀, hrun, hbuf, hbytes, hstream, hkept⟩ : ∃ w₀, carefulMachine.Run twoBytes w₀ ∧
      w₀.bufs[0]? = some (.small (some ⟨0, 2, 0⟩) none) ∧ bytes w₀.heap [⟨0, 2, 0⟩] = [1, 2] ∧
      (w₀.streams[0]?.any fun s => s.buf = 0 ∧ s.blockSize = 0 ∧ s.curBlock = none ∧ s.byteCount = 0 ∧ s.lent = none ∧
        s.latest = none) = true ∧
      (((keptMachine 0 0 w₀).exec (w₀, []) twoKept).map Prod.snd) = some [5, 6] :=
    Machine.exists_run (s := .start 1) ⟨1, rfl⟩ (by decide +kernel)
  obtain ⟨hinv, hfits⟩ := careful_inv ⟨_, hrun⟩
  obtain ⟨p, hexec, hp⟩ := Option.map_eq_some_iff.mp hkept
  have hrun' : (keptMachine 0 0 w₀).Run twoKept p := Machine.run_of_exec rfl hexec
  have hs : w₀.streams[0]? = some ⟨0, 0, none, 0, none, none⟩ := by
    obtain ⟨s, hs, heq⟩ := (Option.any_eq_true _ _).mp hstream
    rw [hs]
    cases s
    simpa using heq
  obtain ⟨⟨v, s, hv, hs', -, hcontent, hcount, -⟩, -⟩ := stream_appends_kept hinv hbuf (hfits 0 _ hbuf) hs ⟨_, hrun'⟩
  refine ⟨w₀, p, hrun, hrun', hp, v, s, hv, hs', ?_, ?_⟩
  · rw [hcontent, hp]
    exact congrArg (· ++ [5, 6]) hbytes
  · rw [hcount, hp]
    rfl

/-- A stream on a buffer with two references to 2^31 - 1 bytes each. -/
def longStart : List Act :=
  ([.newBuf, .one 0 (.appendUserData (fun _ => 0) (2 ^ 31 - 1)), .one 0 (.appendUserData (fun _ => 0) (2 ^ 31 - 1)),
    .openStream 0 0, .next 0] : List Op).map (⟨0, 1, ·⟩)

/-- The buffer gets its big view with the third reference, and `nbytes` is the sum modulo 2^32. -/
theorem longStart_wraps : ∃ w, machine.Run longStart w ∧ (w.bufs[0]?).map IOBuf.length = some 8158 ∧
    (w.bufs[0]?).map (fun v => total v.refs) = some (2 ^ 32 + 8158) :=
  Machine.exists_run (s := .start 1) ⟨1, rfl⟩ (by decide +kernel)

end World

end LightRpc.IOBuffer

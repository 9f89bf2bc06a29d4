import LightRpc.IOBufHistory

/- Buffers do not interfere.

   What may still be written is the end of a block behind its used part, and the range a stream's
   user was given. Every reference of every buffer ends in the used part of its block (`Fits`), and
   a block in a chain, of a stream or of a caller has one owner. So a call changes no byte of a
   buffer it is not made for, as long as users write to, and `BackUp` gives up, no bytes that
   other buffers refer to (`keepsApart`). -/
namespace LightRpc.IOBuffer

open Lib Lib.RefCount List Option

variable {h : Heap} {c c' : Ctx} {v v' : IOBuf} {s s' : Stream} {r : BlockRef} {rs : List BlockRef} {b : BlockId}
  {k : Block} {f : Block → Block} {n l m : Nat} {F : Multiset BlockId}

/-! Reading from a block that is changed. -/

theorem readRef_modify (hdata : ∀ k, h.payload b = some k → r.block = b → ∀ i < r.length,
    (f k).data (r.offset + i) = k.data (r.offset + i)) : readRef (h.modify b f) r r.length = readRef h r r.length := by
  unfold readRef
  rw [Store.payload_modify]
  split
  · rename_i heq
    rw [← heq]
    cases hk : h.payload r.block with
    | none => rfl
    | some k =>
      apply map_congr_left
      intro i hi
      exact hdata k (heq ▸ hk) heq i (mem_range.mp hi)
  · rfl

theorem bytes_modify (hdata : ∀ r ∈ rs, ∀ k, h.payload b = some k → r.block = b → ∀ i < r.length,
    (f k).data (r.offset + i) = k.data (r.offset + i)) : bytes (h.modify b f) rs = bytes h rs :=
  flatMap_congr fun r hr => readRef_modify (hdata r hr)

theorem Fits.modify (hf : Fits h rs) (hsize : ∀ r ∈ rs, ∀ k, h.payload b = some k → r.block = b →
    r.offset + r.length ≤ k.size → r.offset + r.length ≤ (f k).size) : Fits (h.modify b f) rs := by
  intro r hr
  obtain ⟨k, hk, hend⟩ := hf r hr
  rw [Store.payload_modify]
  by_cases heq : r.block = b
  · rw [if_pos heq, ← heq, hk]
    exact ⟨f k, rfl, hsize r hr k (heq ▸ hk) heq hend⟩
  · rw [if_neg heq]
    exact ⟨k, hk, hend⟩

/-- The end of the used part moves back to where no reference reaches. -/
theorem Fits.shrunk (hf : Fits h rs) (hk : h.payload b = some k)
    (hend : ∀ r ∈ rs, r.block = b → r.offset + r.length + n ≤ k.size) :
    Fits (shrunk h b n) rs ∧ bytes (shrunk h b n) rs = bytes h rs := by
  refine ⟨hf.modify fun r hr k' hk' heq _ => ?_, bytes_modify fun _ _ _ _ _ _ _ => rfl⟩
  obtain rfl := some.inj (hk.symm.trans hk')
  have hle := hend r hr heq
  show r.offset + r.length ≤ k.size - n
  omega

/-- Bytes are written outside of the references. -/
theorem Fits.write {pos : Nat} {data : List UInt8} (hf : Fits h rs)
    (hapart : ∀ r ∈ rs, r.block = b → r.offset + r.length ≤ pos ∨ pos + data.length ≤ r.offset) :
    Fits (h.modify b (fun k => k.write pos data)) rs ∧
      bytes (h.modify b (fun k => k.write pos data)) rs = bytes h rs := by
  refine ⟨hf.modify fun _ _ _ _ _ hend => hend, bytes_modify fun r hr k _ heq i hi => ?_⟩
  apply if_neg
  have hcases := hapart r hr heq
  omega

/-! `BackUp` within what the latest `Next` gave. -/

theorem Backed.dropBack (back : Backed c s F n rs r c' v' s') (hv : v.Ok) (he : AtEnd c.heap v s m k rs r)
    (hle : n ≤ m) : v'.refs = dropBack v.refs n := by
  have hpos : 0 < r.length := (hv.refs r (he.refs ▸ mem_append_right rs mem_cons_self)).nonempty
  have hlen := he.size
  rw [back.refs, he.refs]
  rcases Nat.eq_zero_or_pos n with rfl | h0
  · rw [if_pos hpos, dropBack_zero]
    rfl
  · split
    · rename_i hlt
      exact (dropBack_within h0 hlt).symm
    · rename_i hge
      rw [dropBack_beyond h0 hge, show n - r.length = 0 by omega, dropBack_zero]

/-- References that end before what is given up keep their bytes. -/
theorem Backed.stay {xs : List BlockRef} (back : Backed c s F n rs r c' v' s') (he : AtEnd c.heap v s m k rs r)
    (hf : Fits c.heap xs) (hheld : ∀ x ∈ xs, x.block ∈ blocks v'.refs + F)
    (hend : ∀ x ∈ xs, x.block = r.block → x.offset + x.length + n ≤ k.size) :
    Fits c'.heap xs ∧ bytes c'.heap xs = bytes c.heap xs := by
  obtain ⟨hfits, hbytes⟩ := hf.shrunk he.payload hend
  have hkeep : ∀ x ∈ xs, c'.heap.payload x.block = (shrunk c.heap r.block n).payload x.block :=
    fun x hx => back.handed.keeps x.block (hheld x hx)
  exact ⟨hfits.congr hkeep, (bytes_congr hkeep).trans hbytes⟩

/-- The buffer loses its last bytes. -/
theorem Backed.bytes (back : Backed c s F n rs r c' v' s') (hv : v.Ok) (he : AtEnd c.heap v s m k rs r) (hle : n ≤ m)
    (hf : Fits c.heap v.refs) (hend : ∀ x ∈ rs, x.block = r.block → x.offset + x.length + n ≤ k.size) :
    Fits c'.heap v'.refs ∧ bytes c'.heap v'.refs = (bytes c.heap v.refs).take (total v.refs - n) := by
  have hlen := he.size
  have htotal : n ≤ total v.refs := by
    rw [he.refs, total_append, total_cons]
    omega
  obtain ⟨hfits, hbytes⟩ := bytes_dropBack v.refs hf htotal
  rw [← back.dropBack hv he hle] at hfits hbytes
  have hbefore : ∀ x ∈ v'.refs, x.block = r.block → x.offset + x.length + n ≤ k.size := by
    intro x hx heq
    have hends := he.ends
    rw [back.refs] at hx
    split at hx
    · rcases mem_append.mp hx with hx | hx
      · exact hend x hx heq
      · rw [mem_singleton.mp hx]
        show r.offset + (r.length - n) + n ≤ k.size
        omega
    · exact hend x hx heq
  obtain ⟨hfits', hbytes'⟩ := back.stay he hfits (fun x hx => Multiset.mem_add.mpr (.inl (mem_blocks hx))) hbefore
  exact ⟨hfits', hbytes'.trans hbytes⟩

namespace World

variable {w w' : World} {a : Act} {ok : Bool} {i j t : Nat} {u : IOBuf}

/-- The references of all buffers but one. -/
def otherRefs (w : World) (i : Nat) : List BlockRef := (w.bufs.eraseIdx i).flatMap IOBuf.refs

theorem mem_otherRefs (hu : w.bufs[j]? = some u) (hne : j ≠ i) (hr : r ∈ u.refs) : r ∈ w.otherRefs i :=
  mem_flatMap.mpr ⟨u, mem_eraseIdx_iff_getElem?.mpr ⟨j, hne, hu⟩, hr⟩

/-- `BackUp` follows a `Next`, and what it gives up is referred to by nothing but the last reference
    of the stream's buffer. A user writes to bytes no other buffer refers to. -/
def keepsApart (w : World) (a : Act) : Bool :=
  match a.op with
  | .backUp k count => (w.streams[k]?).all fun s =>
      s.latest.any (fun m => count ≤ m) && s.curBlock.all fun b =>
        (w.otherRefs s.buf ++ (w.bufs[s.buf]?).elim [] fun v => v.refs.dropLast).all fun r =>
          r.block != b || r.offset + r.length + count ≤ endOf w.heap b
  | .write k pos data => (w.streams[k]?).all fun s => s.lent.all fun l =>
      (w.otherRefs s.buf).all fun r => r.block != l.block || r.offset + r.length ≤ pos || pos + data.length ≤ r.offset
  | _ => true

/-- The buffers a call is made for. The argument of `append` and `operator=` is const. -/
def subjects (w : World) (a : Act) : List Nat :=
  match a.op with
  | .one i _ | .two i _ .appendBuf | .two i _ .assign => [i]
  | .two i j _ => [i, j]
  | .next k | .backUp k _ | .write k _ _ => (w.streams[k]?).toList.map Stream.buf
  | _ => []

theorem subjects_stream {op : Op} (hk : w.streams[l]? = some s)
    (hop : op = .next l ∨ (∃ count, op = .backUp l count) ∨ ∃ pos data, op = .write l pos data) :
    w.subjects ⟨t, n, op⟩ = [s.buf] := by
  have heq : w.subjects ⟨t, n, op⟩ = (w.streams[l]?).toList.map Stream.buf := by
    rcases hop with rfl | ⟨count, rfl⟩ | ⟨pos, data, rfl⟩ <;> rfl
  rw [heq, hk]
  rfl

/-- Every reference lies in the used part of its block. -/
def Fitting (w : World) : Prop := ∀ (i : Nat) (v : IOBuf), w.bufs[i]? = some v → Fits w.heap v.refs

/-- What a call leaves of the buffers. -/
structure Apart (w : World) (a : Act) (w' : World) : Prop where
  frame : w.Fitting → ∀ j, j ∉ w.subjects a → Frame w w' j
  fitting : w.Fitting → w'.Fitting

theorem Fitting.set {x : IOBuf} (hf : w.Fitting) (hbufs : w'.bufs = w.bufs.set i x) (hx : Fits w'.heap x.refs)
    (hframe : ∀ j, j ≠ i → Frame w w' j) : w'.Fitting := by
  intro j u hu
  by_cases hji : j = i
  · subst hji
    rw [hbufs, getElem?_set_self' (i := j)] at hu
    obtain ⟨_, -, rfl⟩ := map_eq_some_iff.mp hu
    exact hx
  · rw [hbufs, getElem?_set_ne (Ne.symm hji)] at hu
    exact ((hframe j hji u hu).2 (hf j u hu)).1

theorem Fitting.concat {x : IOBuf} (hf : w.Fitting) (hbufs : w'.bufs = w.bufs ++ [x]) (hx : Fits w'.heap x.refs)
    (hframe : ∀ j, Frame w w' j) : w'.Fitting := by
  intro j u hu
  rw [hbufs] at hu
  by_cases hlt : j < w.bufs.length
  · rw [getElem?_append_left hlt] at hu
    exact ((hframe j u hu).2 (hf j u hu)).1
  · rw [getElem?_append_right (Nat.le_of_not_lt hlt)] at hu
    obtain rfl := mem_singleton.mp (mem_of_getElem? hu)
    exact hx

/-! One call. -/

theorem one_apart {o : Unop} (hi : w.Inv) (hadm : w.admits ⟨t, n, .one i o⟩)
    (hn : w.step ⟨t, n, .one i o⟩ = some (w', ok)) : Apart w ⟨t, n, .one i o⟩ w' := by
  obtain ⟨v, v', m, -, hbytes⟩ := step_one hi hadm hn
  exact ⟨fun _ j hj => m.frame j (ne_of_not_mem_cons hj),
    fun hf => hf.set m.bufs (hbytes (hf i v m.before)).1 m.frame⟩

theorem two_source {o : Binop} (ho : o = .appendBuf ∨ o = .assign) (hn : w.step ⟨t, n, .two i j o⟩ = some (w', ok)) :
    w'.bufs[j]? = w.bufs[j]? := by
  obtain ⟨-, hn⟩ := ite_none_left_eq_some.mp hn
  obtain ⟨v, -, hn⟩ := bind_eq_some_iff.mp hn
  obtain ⟨u, hu, hn⟩ := bind_eq_some_iff.mp hn
  have hlt := lt_length_of_getElem? hu
  rcases ho with rfl | rfl
  all_goals
    cases hn
    rw [setBuf_bufs, setBuf_bufs, getElem?_set_self (by rwa [length_set]), hu]

theorem two_apart {o : Binop} (hi : w.Inv) (hadm : w.admits ⟨t, n, .two i j o⟩)
    (hn : w.step ⟨t, n, .two i j o⟩ = some (w', ok)) : Apart w ⟨t, n, .two i j o⟩ w' := by
  obtain ⟨v, u, v', u', m, hbytes⟩ := step_two hi hadm hn
  refine ⟨fun hf l hl => ?_, fun hf l x hx => ?_⟩
  · have hli : l ≠ i := by
      rintro rfl
      exact hl (by cases o <;> exact mem_cons_self)
    by_cases hlj : l = j
    · -- the source of a copy
      subst hlj
      have ho : o = .appendBuf ∨ o = .assign := by cases o <;> simp_all [subjects]
      obtain ⟨-, hu', hsame⟩ := hbytes (hf i v m.before.1) (hf l u m.before.2)
      have hafter : w'.bufs[l]? = some u' := by
        rw [m.bufs, getElem?_set_self (by rw [length_set]; exact lt_length_of_getElem? m.before.2)]
      intro x hx
      rw [← two_source ho hn, hafter] at hx
      obtain rfl := some.inj hx
      obtain rfl := some.inj ((two_source ho hn).symm.trans hafter |>.symm.trans m.before.2)
      refine ⟨hafter, fun _ => ⟨hu', ?_⟩⟩
      have hsecond := congrArg Prod.snd hsame
      rcases ho with rfl | rfl <;> exact hsecond
    · exact m.frame l hli hlj
  · obtain ⟨hv', hu', -⟩ := hbytes (hf i v m.before.1) (hf j u m.before.2)
    rw [m.bufs] at hx
    by_cases hlj : l = j
    · subst hlj
      rw [getElem?_set_self' (i := l)] at hx
      obtain ⟨_, -, rfl⟩ := map_eq_some_iff.mp hx
      exact hu'
    · rw [getElem?_set_ne (Ne.symm hlj)] at hx
      by_cases hli : l = i
      · subst hli
        rw [getElem?_set_self' (i := l)] at hx
        obtain ⟨_, -, rfl⟩ := map_eq_some_iff.mp hx
        exact hv'
      · rw [getElem?_set_ne (Ne.symm hli)] at hx
        exact ((m.frame l hli hlj x hx).2 (hf l x hx)).1

theorem next_apart (hi : w.Inv) (hadm : w.admits ⟨t, n, .next l⟩) (hn : w.step ⟨t, n, .next l⟩ = some (w', ok)) :
    Apart w ⟨t, n, .next l⟩ w' := by
  obtain ⟨tls, s, v, c', v', s', m⟩ := step_next hi hadm hn
  refine ⟨fun _ j hj => m.moved.frame j ?_, fun hf => hf.set m.moved.bufs ?_ m.moved.frame⟩
  · rw [subjects_stream m.stream (.inl rfl)] at hj
    exact ne_of_not_mem_cons hj
  · have hfv := hf s.buf v m.moved.before
    rw [m.heap]
    cases ok with
    | true =>
      obtain ⟨_, _, _, _, g⟩ := m.nexted.given rfl
      exact (g.bytes hfv).1
    | false =>
      obtain ⟨rfl, -, hkeep⟩ := m.nexted.refused rfl
      exact hfv.congr hkeep

/-- Only references to what is given up would be left without bytes. -/
theorem backUp_apart {count : Nat} (hi : w.Inv) (hadm : w.admits ⟨t, n, .backUp l count⟩)
    (hap : w.keepsApart ⟨t, n, .backUp l count⟩) (hn : w.step ⟨t, n, .backUp l count⟩ = some (w', ok)) :
    Apart w ⟨t, n, .backUp l count⟩ w' := by
  obtain ⟨tls, s, v, c', v', s', ht, hk, hb, hw', -, hr⟩ := step_backUp hi hadm hn
  have hguard : (w.streams[l]?).all (fun s => s.latest.any (fun m => decide (count ≤ m)) && s.curBlock.all fun b =>
      (w.otherRefs s.buf ++ (w.bufs[s.buf]?).elim [] fun v => v.refs.dropLast).all fun r =>
        r.block != b || decide (r.offset + r.length + count ≤ endOf w.heap b)) = true := hap
  rw [hk, all_some, hb, Bool.and_eq_true] at hguard
  obtain ⟨hlatest, hrefs⟩ := hguard
  obtain ⟨m, hm, hle⟩ := (any_eq_true _ _).mp hlatest
  obtain ⟨v₁, k, rs, r, hb₁, he⟩ := (hi.stream hk).2 m hm
  obtain rfl := some.inj (hb.symm.trans hb₁)
  obtain ⟨c₁, v₁, s₁, hr₁, back⟩ := backUp_spec (c := ⟨w.heap, tls, n⟩) (hi.buf hb) (hi.around hb (own_stream ht hk n))
    hi.sound he (of_decide_eq_true hle) v.refNum
  cases hr₁.symm.trans hr
  have hheap : w'.heap = c'.heap := by
    rw [hw']
    exact setBuf_heap _ _ _
  have hbufs : w'.bufs = w.bufs.set s.buf v' := by
    rw [hw']
    exact setBuf_bufs _ _ _
  rw [he.cur, all_some] at hrefs
  have hend : ∀ x ∈ w.otherRefs s.buf ++ v.refs.dropLast, x.block = r.block → x.offset + x.length + count ≤ k.size := by
    intro x hx heq
    have hend := all_eq_true.mp hrefs x hx
    rw [heq, bne_self_eq_false, Bool.false_or, endOf, he.payload] at hend
    exact of_decide_eq_true hend
  have hframe : ∀ j, j ≠ s.buf → Frame w w' j := by
    intro j hne u hu
    refine ⟨?_, fun hf => ?_⟩
    · rw [hbufs, getElem?_set_ne (Ne.symm hne)]
      exact hu
    · rw [hheap]
      exact back.stay he hf
        (fun x hx => Multiset.mem_add.mpr (.inr (Multiset.mem_add.mpr (.inl (mem_restBufs hu hne hx)))))
        fun x hx => hend x (mem_append_left _ (mem_otherRefs hu hne hx))
  refine ⟨fun _ j hj => hframe j ?_, fun hf => hf.set hbufs ?_ hframe⟩
  · rw [subjects_stream hk (.inr (.inl ⟨count, rfl⟩))] at hj
    exact ne_of_not_mem_cons hj
  · rw [hheap]
    refine (back.bytes (hi.buf hb) he (of_decide_eq_true hle) (hf s.buf v hb) fun x hx => hend x (mem_append_right _ ?_)).1
    rw [he.refs, dropLast_concat]
    exact hx

theorem write_apart {pos : Nat} {data : List UInt8} (hi : w.Inv) (hadm : w.admits ⟨t, n, .write l pos data⟩)
    (hap : w.keepsApart ⟨t, n, .write l pos data⟩) (hn : w.step ⟨t, n, .write l pos data⟩ = some (w', ok)) :
    Apart w ⟨t, n, .write l pos data⟩ w' := by
  obtain ⟨s, sp, hk, hl, -, -, rfl, -⟩ := step_write hi hadm hn
  have hguard : (w.streams[l]?).all (fun s => s.lent.all fun sp => (w.otherRefs s.buf).all fun r =>
      r.block != sp.block || decide (r.offset + r.length ≤ pos) || decide (pos + data.length ≤ r.offset)) = true := hap
  rw [hk, all_some, hl, all_some] at hguard
  refine ⟨fun _ j hj u hu => ⟨hu, fun hf => hf.write fun x hx heq => ?_⟩, fun hf j u hu => ?_⟩
  · rw [subjects_stream hk (.inr (.inr ⟨pos, data, rfl⟩))] at hj
    have hx := all_eq_true.mp hguard x (mem_otherRefs hu (ne_of_not_mem_cons hj) hx)
    rw [heq, bne_self_eq_false, Bool.false_or, Bool.or_eq_true, decide_eq_true_iff, decide_eq_true_iff] at hx
    exact hx
  · exact (hf j u hu).modify fun _ _ _ _ _ hend => hend

theorem step_apart (hi : w.Inv) (hadm : w.admits a) (hap : w.keepsApart a)
    (hn : w.step a = some (w', ok)) : Apart w a w' := by
  obtain ⟨t, n, op⟩ := a
  cases op with
  | newBuf =>
    have m := step_newBuf hi hn
    exact ⟨fun _ j _ => m.frame j, fun hf => hf.concat m.bufs (fun r hr => absurd hr not_mem_nil) m.frame⟩
  | one i o => exact one_apart hi hadm hn
  | two i j o => exact two_apart hi hadm hn
  | copy j =>
    obtain ⟨u, v', hu, m, hbytes⟩ := step_copy hi hn
    exact ⟨fun _ j _ => m.frame j, fun hf => hf.concat m.bufs (hbytes (hf j u hu)).1 m.frame⟩
  | next k => exact next_apart hi hadm hn
  | backUp k count => exact backUp_apart hi hadm hap hn
  | write k pos data => exact write_apart hi hadm hap hn
  | share | acquire | release _ | fill _ _ | threadExit | openStream _ _ | closeStream _ =>
    have q := step_quiet hi hadm rfl hn
    refine ⟨fun _ j _ => q.frame j, fun hf j u hu => ?_⟩
    rw [q.bufs] at hu
    exact ((q.frame j u hu).2 (hf j u hu)).1

/-! Whole histories. -/

/-- The calls, made with care for the bytes others refer to. -/
def carefulMachine : Machine World Act := machine.guard fun w a => w.admits a && w.keepsApart a

theorem careful_next (hn : carefulMachine.next w a = some w') :
    w.admits a ∧ w.keepsApart a ∧ ∃ w₁ ok, w.step a = some (w₁, ok) ∧ w' = w.noteInited w₁ a.thread := by
  obtain ⟨hguard, hn⟩ := Machine.guard_next.mp hn
  obtain ⟨hadm, hap⟩ := Bool.and_eq_true_iff.mp hguard
  obtain ⟨⟨w₁, ok⟩, hstep, rfl⟩ := map_eq_some_iff.mp hn
  exact ⟨hadm, hap, w₁, ok, hstep, rfl⟩

theorem careful_inv (h : carefulMachine.Reachable w) : w.Inv ∧ w.Fitting := by
  refine h.invariant (I := fun w => w.Inv ∧ w.Fitting) ?_ ?_
  · rintro w ⟨n, rfl⟩
    exact ⟨.init n, fun i v hv => absurd hv (by simp [start])⟩
  · rintro w a w' ⟨hi, hf⟩ hn
    obtain ⟨hadm, hap, w₁, ok, hstep, rfl⟩ := careful_next hn
    exact ⟨(step_inv hi hadm hstep).setOut _ _, (step_apart hi hadm hap hstep).fitting hf⟩

/-- No block is in a chain, with a stream or with a caller twice, no reference reaches behind the used
    part of its block, and a call changes no buffer it is not made for. -/
theorem buffers_apart (h : carefulMachine.Reachable w) :
    w.own.Nodup ∧ (∀ v ∈ w.bufs, ∀ r ∈ v.refs, r.offset + r.length ≤ endOf w.heap r.block) ∧
      ∀ a w', carefulMachine.next w a = some w' → ∀ j, j ∉ w.subjects a → ∀ v, w.bufs[j]? = some v →
        w'.bufs[j]? = some v ∧ bytes w'.heap v.refs = bytes w.heap v.refs := by
  obtain ⟨hi, hf⟩ := careful_inv h
  refine ⟨hi.owned, fun v hv r hr => ?_, fun a w' hn j hj v hv => ?_⟩
  · obtain ⟨j, hj⟩ := List.mem_iff_getElem?.mp hv
    obtain ⟨k, hk, hend⟩ := hf j v hj r hr
    rw [endOf, hk]
    exact hend
  · obtain ⟨hadm, hap, w₁, ok, hstep, rfl⟩ := careful_next hn
    obtain ⟨hsame, hbytes⟩ := (step_apart hi hadm hap hstep).frame hf j hj v hv
    exact ⟨hsame, (hbytes (hf j v hv)).2⟩

/-- A buffer shares a block with another one that a stream appends to. -/
def besideStream : List Act :=
  ([.newBuf, .newBuf, .one 0 (.pushBack 7), .two 1 0 .appendBuf, .openStream 0 0, .next 0, .write 0 1 [5, 6]] :
    List Op).map (⟨0, 1, ·⟩)

theorem besideStream_apart : ∃ w w', carefulMachine.Run besideStream w ∧
    carefulMachine.next w ⟨0, 1, .backUp 0 8157⟩ = some w' ∧
    w'.bufs[0]?.map (bytes w'.heap ·.refs) = some [7, 5, 6] ∧
    ∃ v, w.bufs[1]? = some v ∧ w'.bufs[1]? = some v ∧ bytes w'.heap v.refs = bytes w.heap v.refs ∧
      bytes w.heap v.refs = [7] := by
  obtain ⟨w, w', hrun, hn, hzero, hsubjects, hv, hseven⟩ : ∃ w w', carefulMachine.Run besideStream w ∧
      carefulMachine.next w ⟨0, 1, .backUp 0 8157⟩ = some w' ∧
      w'.bufs[0]?.map (bytes w'.heap ·.refs) = some [7, 5, 6] ∧ w.subjects ⟨0, 1, .backUp 0 8157⟩ = [0] ∧
      w.bufs[1]? = some (.small (some ⟨0, 1, 0⟩) none) ∧ bytes w.heap [⟨0, 1, 0⟩] = [7] :=
    Machine.exists_step (s := .start 1) ⟨1, rfl⟩ (by decide +kernel)
  obtain ⟨hsame, hbytes⟩ := (buffers_apart ⟨_, hrun⟩).2.2 _ _ hn 1 (by rw [hsubjects]; decide) _ hv
  exact ⟨w, w', hrun, hn, hzero, _, hv, hsame, hbytes, hseven⟩

/-- Another buffer shares 3 * 2^30 bytes of user data, of which the first 2^31 are popped here. -/
def sharedHigh : List Act :=
  ([.newBuf, .newBuf, .one 0 (.appendUserData (fun _ => 0) (3 * 2 ^ 30)), .two 1 0 .appendBuf, .one 0 (.popFront (2 ^ 31))] :
    List Op).map (⟨0, 1, ·⟩)

/-- Another buffer shares the range a stream gave to its user. -/
def sharedRange : List Act :=
  ([.newBuf, .newBuf, .openStream 0 0, .next 0, .two 1 0 .appendBuf] : List Op).map (⟨0, 1, ·⟩)

/-- `clear` of the one buffer frees the block of the other; a write of the stream's user changes it. -/
theorem shared_bytes_change :
    (∃ w w' v, machine.Run sharedHigh w ∧ machine.next w ⟨0, 1, .one 0 .clear⟩ = some w' ∧ w.bufs[1]? = some v ∧
      w'.bufs[1]? = some v ∧ (bytes w.heap v.refs).length = 3 * 2 ^ 30 ∧ bytes w'.heap v.refs = []) ∧
    ∃ w w' v, machine.Run sharedRange w ∧ machine.next w ⟨0, 1, .write 0 0 [9]⟩ = some w' ∧ w.bufs[1]? = some v ∧
      w'.bufs[1]? = some v ∧ (bytes w.heap v.refs).head? = some 0 ∧ (bytes w'.heap v.refs).head? = some 9 := by
  constructor
  · obtain ⟨w, w', hrun, hn, hv, hv', hsome, hnone⟩ : ∃ w w', machine.Run sharedHigh w ∧
        machine.next w ⟨0, 1, .one 0 .clear⟩ = some w' ∧ w.bufs[1]? = some (.small (some ⟨0, 3 * 2 ^ 30, 0⟩) none) ∧
        w'.bufs[1]? = some (.small (some ⟨0, 3 * 2 ^ 30, 0⟩) none) ∧ (w.heap.payload 0).isSome = true ∧
        (w'.heap.payload 0).isNone = true :=
      Machine.exists_step (s := .start 1) ⟨1, rfl⟩ (by decide +kernel)
    obtain ⟨k, hk⟩ := Option.isSome_iff_exists.mp hsome
    refine ⟨w, w', _, hrun, hn, hv, hv', ?_, ?_⟩
    · show (readRef w.heap ⟨0, 3 * 2 ^ 30, 0⟩ (3 * 2 ^ 30) ++ []).length = 3 * 2 ^ 30
      rw [List.append_nil, length_readRef hk]
    · show readRef w'.heap ⟨0, 3 * 2 ^ 30, 0⟩ (3 * 2 ^ 30) ++ [] = []
      rw [readRef, Option.isNone_iff_eq_none.mp hnone]
      rfl
  · obtain ⟨w, w', hrun, hn, hall⟩ : ∃ w w', machine.Run sharedRange w ∧
        machine.next w ⟨0, 1, .write 0 0 [9]⟩ = some w' ∧ w.bufs[1]? = some (.small (some ⟨0, 8160, 0⟩) none) ∧
        w'.bufs[1]? = some (.small (some ⟨0, 8160, 0⟩) none) ∧ (bytes w.heap [⟨0, 8160, 0⟩]).head? = some 0 ∧
        (bytes w'.heap [⟨0, 8160, 0⟩]).head? = some 9 :=
      Machine.exists_step (s := .start 1) ⟨1, rfl⟩ (by decide +kernel)
    exact ⟨w, w', _, hrun, hn, hall⟩

end World

end LightRpc.IOBuffer

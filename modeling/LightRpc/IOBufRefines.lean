import LightRpc.IOBufHistory

/- Buffers as byte strings.

   `strings calls` is what a history of calls makes of byte lists. `Holds` says that every buffer
   of a world refers to the bytes of its list; each call that the world admits keeps this
   (`Holds.step`), so it is kept by whole histories.

   While the lists are shorter than 2^31 bytes every call is admitted. With larger ones it
   depends on how the bytes are divided: `length()` of a small view and the first `nbytes` of a big
   one are 32-bit sums, and an offset of 2^31 in the first reference of a small view is read as the
   tag of a big one. -/
namespace LightRpc.IOBuffer

open Lib Lib.RefCount List Option

variable {w : World} {a : Act} {calls : List Act}

variable {h : Heap} {v : IOBuf} {r : BlockRef} {rs : List BlockRef} {n : Nat}

/-! What is read from a buffer. -/

theorem take_readRef {b : Block} (hb : h.payload r.block = some b) (m : Nat) :
    (readRef h r n).take m = readRef h r (min m n) := by
  rw [readRef_of_payload hb, readRef_of_payload hb, ← map_take, take_range]

theorem copyRefs_eq : ∀ {rs : List BlockRef} {offset m : Nat}, Fits h rs → (∀ r ∈ rs.head?, offset ≤ r.length) →
    copyRefs h rs offset m = ((bytes h rs).drop offset).take m
  | [], offset, m, _, _ => by
    rw [copyRefs, bytes_nil, drop_nil, take_nil]
  | r :: rs, offset, 0, _, _ => by
    rw [copyRefs, take_zero]
    exact cons_ne_nil r rs
  | r :: rs, offset, m + 1, hf, hoff => by
    obtain ⟨b, hb, -⟩ := hf r mem_cons_self
    have hle : offset ≤ r.length := hoff r rfl
    have hlen : r.length = offset + (r.length - offset) := by omega
    have hdrop : (bytes h (r :: rs)).drop offset =
        readRef h { r with offset := r.offset + offset } (r.length - offset) ++ bytes h rs := by
      rw [bytes_cons, hlen, readRef_split hb, append_assoc, ← hlen]
      exact drop_left' (length_readRef hb offset)
    have hread : (readRef h { r with offset := r.offset + offset } (r.length - offset)).length = r.length - offset :=
      length_readRef (r := { r with offset := r.offset + offset }) hb _
    have hrest := copyRefs_eq (m := m + 1 - min (m + 1) (r.length - offset)) hf.tail (fun r' _ => Nat.zero_le _)
    rw [copyRefs, hrest, hdrop, take_append, hread, drop_zero,
      take_readRef (r := { r with offset := r.offset + offset }) hb]
    congr 2
    omega

theorem copyRefs_skipRefs : ∀ {rs : List BlockRef} {pos m : Nat}, Fits h rs →
    copyRefs h (skipRefs rs pos).1 (skipRefs rs pos).2 m = ((bytes h rs).drop pos).take m
  | rs, 0, m, hf => by
    rw [skipRefs]
    exact copyRefs_eq hf fun _ _ => Nat.zero_le _
  | [], pos + 1, m, hf => by
    rw [skipRefs]
    · exact copyRefs_eq hf fun r hr => absurd hr (not_mem_none r)
    · exact Nat.succ_ne_zero pos
  | r :: rs, pos + 1, m, hf => by
    obtain ⟨b, hb, -⟩ := hf r mem_cons_self
    rw [skipRefs]
    split
    · rename_i hlt
      refine copyRefs_eq hf fun r' hr' => ?_
      obtain rfl := some.inj hr'
      exact Nat.le_of_lt hlt
    · rename_i hge
      have hskip : (readRef h r r.length).drop (pos + 1) = [] := by
        apply drop_eq_nil_of_le
        rw [length_readRef hb]
        omega
      rw [copyRefs_skipRefs hf.tail, bytes_cons, drop_append, length_readRef hb, hskip, nil_append]

theorem copyTo_eq (hv : v.Ok) (hf : Fits h v.refs) (n pos : Nat) :
    copyTo h v n pos = ((bytes h v.refs).drop pos).take n := by
  rw [copyTo, hv.map_refAt]
  exact copyRefs_skipRefs hf

theorem isEmpty_eq (hv : v.Ok) (hf : Fits h v.refs) : v.isEmpty = (bytes h v.refs).isEmpty := by
  rw [hv.isEmpty]
  cases hrefs : v.refs with
  | nil => rfl
  | cons r rs =>
    have hpos := (hv.head hrefs).nonempty
    have hlen := hf.length_bytes
    rw [hrefs, total_cons] at hlen
    rw [isEmpty_cons, eq_comm, isEmpty_eq_false_iff_exists_mem]
    exact exists_mem_of_length_pos (by omega)

theorem fetch1_eq (hv : v.Ok) (hf : Fits h v.refs) : fetch1 h v = (bytes h v.refs).head? := by
  rw [fetch1, hv.isEmpty]
  cases hrefs : v.refs with
  | nil => rfl
  | cons r rs =>
    have hpos := (hv.head hrefs).nonempty
    rw [hrefs] at hf
    obtain ⟨b, hb, -⟩ := hf r mem_cons_self
    have hfirst : (readRef h r r.length).take 1 = readRef h r 1 := by
      rw [take_readRef hb, Nat.min_eq_left hpos]
    rw [isEmpty_cons, if_neg Bool.false_ne_true, hv.frontRef hrefs, bytes_cons, ← hfirst]
    cases hread : readRef h r r.length with
    | nil =>
      have hlen := length_readRef hb r.length
      rw [hread, length_nil] at hlen
      omega
    | cons x xs => rfl

/-- The view that is in use: what looks like a big one is a small one if its array is not an array. -/
def IOBuf.inSmall : IOBuf → Bool
  | .small _ _ => true
  | .big bv => bv.alien.isSome

theorem IOBuf.Ok.isSmall (hv : v.Ok) : v.isSmall = v.inSmall := by
  cases v with
  | small r0 r1 => rfl
  | big bv =>
    have hshape : bv.Ok := hv.shape
    rw [IOBuf.inSmall, hshape.array]
    rfl

/-- The buffer is well formed and everything that can be read from it is the list's. -/
structure Represents (h : Heap) (v : IOBuf) (xs : List UInt8) : Prop where
  view : v.Ok
  tag : v.isSmall = v.inSmall
  content : bytes h v.refs = xs
  length : v.length = xs.length
  empty : v.isEmpty = xs.isEmpty
  copyTo : ∀ n pos, copyTo h v n pos = (xs.drop pos).take n
  fetch1 : fetch1 h v = xs.head?

theorem Represents.of_fits (hv : v.Ok) (hf : Fits h v.refs) : Represents h v (bytes h v.refs) :=
  ⟨hv, hv.isSmall, rfl, hv.length.trans hf.length_bytes.symm, isEmpty_eq hv hf, copyTo_eq hv hf, fetch1_eq hv hf⟩

/-! Histories. -/

structure Strings where
  bufs : List (List UInt8)
  /-- The bytes copied to memory by cuts. -/
  out : List UInt8

/-- What a call makes of byte strings. -/
def Op.strings (l : Strings) : Op → Strings
  | .newBuf => { l with bufs := l.bufs ++ [[]] }
  | .one i o => ⟨l.bufs.modify i (fun xs => o.bytes xs), l.out ++ o.out (l.bufs.getD i [])⟩
  | .two i j o =>
    let p := o.bytes (l.bufs.getD i []) (l.bufs.getD j [])
    { l with bufs := (l.bufs.set i p.1).set j p.2 }
  | .copy j => { l with bufs := l.bufs ++ [l.bufs.getD j []] }
  | _ => l

def strings (calls : List Act) : Strings := calls.foldl (fun l a => a.op.strings l) ⟨[], []⟩

theorem strings_concat (calls : List Act) (a : Act) : strings (calls ++ [a]) = a.op.strings (strings calls) := by
  rw [strings, foldl_append]
  rfl

/-- The operations of buffers. -/
def Op.onBufs : Op → Bool
  | .newBuf | .one _ _ | .two _ _ _ | .copy _ => true
  | _ => false

/-- Histories of operations that succeed. -/
def callMachine : Machine World Act where
  init := World.machine.init
  next w a :=
    if a.op.onBufs then (w.step a).bind fun r => if r.2 then some r.1 else none
    else none

theorem callMachine_next {w' : World} (hn : callMachine.next w a = some w') :
    a.op.onBufs ∧ w.step a = some (w', true) := by
  obtain ⟨hop, hn⟩ := ite_none_right_eq_some.mp hn
  obtain ⟨⟨w1, ok⟩, hstep, hn⟩ := bind_eq_some_iff.mp hn
  obtain ⟨hok, hw⟩ := ite_none_right_eq_some.mp hn
  obtain rfl : ok = true := hok
  obtain rfl : w1 = w' := some.inj hw
  exact ⟨hop, hstep⟩

/-- The buffers hold the strings. -/
structure Holds (w : World) (l : Strings) : Prop where
  len : w.bufs.length = l.bufs.length
  bytes : ∀ (i : Nat) (v : IOBuf), w.bufs[i]? = some v →
    Fits w.heap v.refs ∧ l.bufs[i]? = some (bytes w.heap v.refs)
  out : w.out = l.out

namespace Holds

open World

variable {w w' : World} {l : Strings} {i j t n : Nat} {v' u u' : IOBuf}

theorem getD (hh : Holds w l) (hb : w.bufs[i]? = some v) : l.bufs.getD i [] = IOBuffer.bytes w.heap v.refs := by
  rw [getD_eq_getElem?_getD, (hh.bytes i v hb).2]
  rfl

/-- A buffer that is as it was holds what it held. -/
theorem keep (hh : Holds w l) (hframe : Frame w w' j) (hb : w.bufs[j]? = some v) :
    Fits w'.heap v.refs ∧ l.bufs[j]? = some (IOBuffer.bytes w'.heap v.refs) := by
  obtain ⟨hf, hl⟩ := hh.bytes j v hb
  obtain ⟨hf', heq⟩ := (hframe v hb).2 hf
  rw [heq]
  exact ⟨hf', hl⟩

theorem one {o : Unop} (hh : Holds w l) (hi : w.Inv) (hadm : w.admits ⟨t, n, .one i o⟩)
    (hn : w.step ⟨t, n, .one i o⟩ = some (w', true)) : Holds w' (Op.strings l (.one i o)) := by
  obtain ⟨v, v', hmoved, -, heffect⟩ := step_one hi hadm hn
  have hv := hh.bytes i v hmoved.before
  obtain ⟨hf', heq⟩ := heffect hv.1
  obtain ⟨hbytes, hout⟩ := heq rfl
  refine ⟨?_, fun j x hx => ?_, ?_⟩
  · rw [hmoved.bufs, length_set, hh.len]
    exact (length_modify _ _ _).symm
  · show _ ∧ (l.bufs.modify i _)[j]? = _
    rw [hmoved.bufs] at hx
    by_cases hij : i = j
    · subst hij
      rw [getElem?_set_self (lt_length_of_getElem? hmoved.before)] at hx
      cases hx
      rw [getElem?_modify_eq, hv.2, hbytes]
      exact ⟨hf', rfl⟩
    · rw [getElem?_set_ne hij] at hx
      rw [getElem?_modify_ne _ _ hij]
      exact hh.keep (hmoved.frame j (Ne.symm hij)) hx
  · show _ = l.out ++ o.out (l.bufs.getD i [])
    rw [hout, hh.out, hh.getD hmoved.before]

theorem two {o : Binop} (hh : Holds w l) (hi : w.Inv) (hadm : w.admits ⟨t, n, .two i j o⟩)
    (hn : w.step ⟨t, n, .two i j o⟩ = some (w', true)) : Holds w' (Op.strings l (.two i j o)) := by
  obtain ⟨v, u, v', u', hmoved, heffect⟩ := step_two hi hadm hn
  obtain ⟨hbv, hbu⟩ := hmoved.before
  obtain ⟨hfv, hfu, heq⟩ := heffect (hh.bytes i v hbv).1 (hh.bytes j u hbu).1
  obtain ⟨hbytes, hbytes'⟩ := Prod.ext_iff.mp heq
  have hil : i < l.bufs.length := hh.len ▸ lt_length_of_getElem? hbv
  have hjl : j < l.bufs.length := hh.len ▸ lt_length_of_getElem? hbu
  refine ⟨?_, fun m x hx => ?_, hmoved.out.trans hh.out⟩
  · show w'.bufs.length = ((l.bufs.set i _).set j _).length
    rw [hmoved.bufs, length_set, length_set, length_set, length_set, hh.len]
  · show _ ∧ ((l.bufs.set i _).set j _)[m]? = _
    rw [hh.getD hbv, hh.getD hbu]
    rw [hmoved.bufs] at hx
    by_cases hjm : j = m
    · subst hjm
      rw [getElem?_set_self (by rw [length_set]; exact lt_length_of_getElem? hbu)] at hx
      cases hx
      rw [getElem?_set_self (by rw [length_set]; exact hjl)]
      exact ⟨hfu, congrArg some hbytes'.symm⟩
    · rw [getElem?_set_ne hjm] at hx ⊢
      by_cases him : i = m
      · subst him
        rw [getElem?_set_self (lt_length_of_getElem? hbv)] at hx
        cases hx
        rw [getElem?_set_self hil]
        exact ⟨hfv, congrArg some hbytes.symm⟩
      · rw [getElem?_set_ne him] at hx ⊢
        exact hh.keep (hmoved.frame m (Ne.symm him) (Ne.symm hjm)) hx

/-- A new buffer behind the others. -/
theorem new {xs : List UInt8} (hh : Holds w l) (hmoved : NewMoved w w' v')
    (hnew : Fits w'.heap v'.refs ∧ IOBuffer.bytes w'.heap v'.refs = xs) :
    Holds w' { l with bufs := l.bufs ++ [xs] } := by
  refine ⟨?_, fun m x hx => ?_, hmoved.out.trans hh.out⟩
  · rw [hmoved.bufs, length_append, length_append, hh.len]
    rfl
  · show _ ∧ (l.bufs ++ [xs])[m]? = _
    rw [hmoved.bufs] at hx
    rcases Nat.lt_or_ge m w.bufs.length with hlt | hge
    · rw [getElem?_append_left hlt] at hx
      rw [getElem?_append_left (hh.len ▸ hlt)]
      exact hh.keep (hmoved.frame m) hx
    · rw [getElem?_append_right hge] at hx
      rw [getElem?_append_right (hh.len ▸ hge), ← hh.len]
      have hzero : m - w.bufs.length = 0 := by
        have hlt := lt_length_of_getElem? hx
        rw [length_singleton] at hlt
        omega
      rw [hzero] at hx ⊢
      obtain rfl : v' = x := some.inj hx
      exact ⟨hnew.1, congrArg some hnew.2.symm⟩

theorem step (hh : Holds w l) (hi : w.Inv) (hadm : w.admits a) (hop : a.op.onBufs)
    (hn : w.step a = some (w', true)) : Holds w' (a.op.strings l) := by
  obtain ⟨t, n, op⟩ := a
  cases op with
  | newBuf => exact hh.new (step_newBuf hi hn) ⟨fun _ hr => absurd hr not_mem_nil, rfl⟩
  | one i o => exact hh.one hi hadm hn
  | two i j o => exact hh.two hi hadm hn
  | copy j =>
    obtain ⟨u, v', hu, hmoved, hcopied⟩ := step_copy hi hn
    show Holds w' { l with bufs := l.bufs ++ [l.bufs.getD j []] }
    rw [hh.getD hu]
    exact hh.new hmoved (hcopied (hh.bytes j u hu).1)
  | share | acquire | release _ | fill _ _ | threadExit | openStream _ _ | closeStream _ | next _ | backUp _ _
  | write _ _ _ => exact absurd hop Bool.false_ne_true

theorem init (n : Nat) : Holds (.start n) ⟨[], []⟩ :=
  ⟨rfl, fun _ _ h => absurd h.symm (some_ne_none _), rfl⟩

theorem represents {xs : List UInt8} (hh : Holds w l) (hi : w.Inv) (hb : w.bufs[i]? = some v)
    (hl : l.bufs[i]? = some xs) : Represents w.heap v xs := by
  obtain ⟨hf, heq⟩ := hh.bytes i v hb
  obtain rfl := some.inj (heq.symm.trans hl)
  exact .of_fits (hi.buf hb) hf

end Holds

/-! Strings of less than 2^31 bytes. -/

theorem Unop.room_of_small {o : Unop} (hv : v.Ok) (hf : Fits h v.refs) (hbefore : (IOBuffer.bytes h v.refs).length < 2 ^ 31)
    (hafter : (o.bytes (IOBuffer.bytes h v.refs)).length < 2 ^ 31) : o.Room v := by
  have hlen := hf.length_bytes
  have hrefs := length_le_total hv.refs
  cases o with
  | append data | pushBack x =>
    rw [Unop.bytes, length_append, hlen] at hafter
    exact .of_lt hv.refs (Nat.le_refl _) hafter
  | appendUserData data m =>
    rw [Unop.bytes, length_append, length_map, length_range, hlen] at hafter
    exact ⟨by omega, ⟨fun _ => by omega, by omega, by omega⟩⟩
  | resize m x =>
    rw [Unop.bytes, hlen] at hafter
    refine .of_lt hv.refs (Nat.le_refl _) ?_
    rw [hlen] at hbefore
    split at hafter
    · omega
    · rw [length_append, length_replicate, hlen] at hafter
      exact hafter
  | popFront _ | popBack _ | cutnMem _ | cut1 | clear => trivial

theorem Binop.room_of_small {o : Binop} {u : IOBuf} (hv : v.Ok) (hu : u.Ok) (hf : Fits h v.refs) (hf' : Fits h u.refs)
    (hleft : (o.bytes (IOBuffer.bytes h v.refs) (IOBuffer.bytes h u.refs)).1.length < 2 ^ 31)
    (hright : (o.bytes (IOBuffer.bytes h v.refs) (IOBuffer.bytes h u.refs)).2.length < 2 ^ 31) : o.Room v u := by
  cases o with
  | appendBuf | appendMovable =>
    rw [Binop.bytes, length_append, hf.length_bytes, hf'.length_bytes] at hleft
    exact .of_lt hv.refs (length_le_total hu.refs) hleft
  | cutn m =>
    rw [Binop.bytes, length_append, length_take, hf.length_bytes, hf'.length_bytes] at hright
    obtain ⟨hok, htotal⟩ := takeRefs_ok hv.refs (Nat.min_le_right m (total v.refs))
    have hcount := length_le_total hok
    rw [htotal] at hcount
    exact .of_lt hu.refs hcount hright
  | assign | swap => trivial

theorem Holds.admits {l : Strings} {r : World × Bool} (hh : Holds w l) (hi : w.Inv) (hop : a.op.onBufs)
    (hbefore : ∀ xs ∈ l.bufs, xs.length < 2 ^ 31) (hafter : ∀ xs ∈ (a.op.strings l).bufs, xs.length < 2 ^ 31)
    (hn : w.step a = some r) : w.admits a := by
  obtain ⟨t, n, op⟩ := a
  cases op with
  | newBuf | copy j => rfl
  | one i o =>
    obtain ⟨c, -, hn⟩ := bind_eq_some_iff.mp hn
    obtain ⟨v, hb, -⟩ := bind_eq_some_iff.mp hn
    obtain ⟨hf, hl⟩ := hh.bytes i v hb
    have hmem : o.bytes (IOBuffer.bytes w.heap v.refs) ∈ (Op.strings l (.one i o)).bufs := by
      apply mem_of_getElem? (i := i)
      show (l.bufs.modify i _)[i]? = _
      rw [getElem?_modify_eq, hl]
      rfl
    show (w.bufs[i]?).all (fun v => decide (o.Room v)) = true
    rw [hb, all_some]
    exact decide_eq_true (Unop.room_of_small (hi.buf hb) hf (hbefore _ (mem_of_getElem? hl)) (hafter _ hmem))
  | two i j o =>
    obtain ⟨hne, hn⟩ := ite_none_left_eq_some.mp hn
    obtain ⟨v, hb, hn⟩ := bind_eq_some_iff.mp hn
    obtain ⟨u, hu, -⟩ := bind_eq_some_iff.mp hn
    obtain ⟨hf, hl⟩ := hh.bytes i v hb
    obtain ⟨hf', hl'⟩ := hh.bytes j u hu
    have hil : i < l.bufs.length := lt_length_of_getElem? hl
    have hjl : j < l.bufs.length := lt_length_of_getElem? hl'
    have hstrings : (Op.strings l (.two i j o)).bufs = (l.bufs.set i (o.bytes (IOBuffer.bytes w.heap v.refs)
        (IOBuffer.bytes w.heap u.refs)).1).set j (o.bytes (IOBuffer.bytes w.heap v.refs) (IOBuffer.bytes w.heap u.refs)).2 := by
      rw [← hh.getD hb, ← hh.getD hu]
      rfl
    rw [hstrings] at hafter
    have hleft := hafter _ (mem_of_getElem? (i := i)
      ((getElem?_set_ne (Ne.symm hne)).trans (getElem?_set_self hil)))
    have hright := hafter _ (mem_of_getElem? (i := j) (getElem?_set_self (by rw [length_set]; exact hjl)))
    show (w.bufs[i]?).all (fun v => (w.bufs[j]?).all fun u => decide (o.Room v u)) = true
    rw [hb, all_some, hu, all_some]
    exact decide_eq_true (Binop.room_of_small (hi.buf hb) (hi.buf hu) hf hf' hleft hright)
  | share | acquire | release _ | fill _ _ | threadExit | openStream _ _ | closeStream _ | next _ | backUp _ _
  | write _ _ _ => exact absurd hop Bool.false_ne_true

/-- Every string stays below 2^31 bytes. -/
def StaySmall (calls : List Act) : Prop := ∀ p, p <+: calls → ∀ xs ∈ (strings p).bufs, xs.length < 2 ^ 31

theorem StaySmall.of_concat (h : StaySmall (calls ++ [a])) : StaySmall calls :=
  fun p hp => h p (hp.trans (prefix_append calls [a]))

theorem Holds.next {w' : World} {l : Strings} (hh : Holds w l) (hi : w.Inv) (hadm : w.admits a)
    (hn : callMachine.next w a = some w') : w'.Inv ∧ Holds w' (a.op.strings l) := by
  obtain ⟨hop, hstep⟩ := callMachine_next hn
  exact ⟨World.step_inv hi hadm hstep, hh.step hi hadm hop hstep⟩

theorem holds_of_small (hrun : callMachine.Run calls w) (hsmall : StaySmall calls) :
    w.Inv ∧ Holds w (strings calls) := by
  induction hrun with
  | start hinit =>
    obtain ⟨n, rfl⟩ := hinit
    exact ⟨.init n, .init n⟩
  | step _ hn ih =>
    rename_i calls w w' a _
    obtain ⟨hi, hh⟩ := ih hsmall.of_concat
    obtain ⟨hop, hstep⟩ := callMachine_next hn
    have hafter := hsmall (calls ++ [a]) (prefix_refl _)
    rw [strings_concat] at hafter ⊢
    exact hh.next hi (hh.admits hi hop (hsmall calls (prefix_append _ _)) hafter hstep) hn

/-- Buffers of less than 2^31 bytes are byte strings. -/
theorem buffers_are_byte_strings {calls : List Act} {w : World} (hrun : callMachine.Run calls w)
    (hsmall : StaySmall calls) :
    w.bufs.length = (strings calls).bufs.length ∧ w.out = (strings calls).out ∧
      ∀ (i : Nat) (v : IOBuf) (xs : List UInt8), w.bufs[i]? = some v → (strings calls).bufs[i]? = some xs →
        Represents w.heap v xs := by
  obtain ⟨hi, hh⟩ := holds_of_small hrun hsmall
  exact ⟨hh.len, hh.out, fun i v xs hb hl => hh.represents hi hb hl⟩

/-- Two buffers that share blocks: bytes are appended, copied, cut and popped. -/
def sharing : List Act :=
  ([.newBuf, .newBuf, .one 0 (.append [1, 2, 3]), .one 1 (.pushBack 4), .two 0 1 .appendBuf, .copy 0,
    .two 0 1 (.cutn 2), .one 2 (.popBack 1), .one 0 (.cutnMem 1), .two 0 2 .swap, .one 1 (.resize 5 7)] : List Op).map
    (⟨0, 1, ·⟩)

theorem sharing_represented : (strings sharing).bufs = [[1, 2, 3], [4, 1, 2, 7, 7], [4]] ∧ (strings sharing).out = [3] ∧
    ∃ w, callMachine.Run sharing w ∧ ∀ (i : Nat) (v : IOBuf) (xs : List UInt8), w.bufs[i]? = some v →
      (strings sharing).bufs[i]? = some xs → Represents w.heap v xs := by
  obtain ⟨w, hrun, -⟩ : ∃ w, callMachine.Run sharing w ∧ w.bufs.length = 3 :=
    Machine.exists_run (s := .start 1) ⟨1, rfl⟩ (by decide +kernel)
  have hsmall : StaySmall sharing := by
    have hall : ∀ p ∈ sharing.inits, ∀ xs ∈ (strings p).bufs, xs.length < 2 ^ 31 := by decide +kernel
    exact fun p hp => hall p ((List.mem_inits p sharing).mpr hp)
  exact ⟨by decide +kernel, by decide +kernel, w, hrun, (buffers_are_byte_strings hrun hsmall).2.2⟩

/-! Blocks of user data, of any size that is accepted. -/

/-- The calls that append user data and cut it. -/
def Op.onUserData : Op → Bool
  | .newBuf | .one _ (.appendUserData _ _) | .one _ (.popFront _) | .one _ (.popBack _) | .two _ _ (.cutn _) => true
  | _ => false

/-- A call of these that has room: the size is below 2^31, and a buffer with less than three
    references stays below 2^32 bytes. -/
def hasRoom (w : World) (a : Act) : Bool := a.op.onUserData && w.admits a

theorem holds_of_room (hrun : (callMachine.guard hasRoom).Run calls w) : w.Inv ∧ Holds w (strings calls) := by
  induction hrun with
  | start hinit =>
    obtain ⟨n, rfl⟩ := hinit
    exact ⟨.init n, .init n⟩
  | step _ hn ih =>
    obtain ⟨hroom, hn⟩ := Machine.guard_next.mp hn
    rw [strings_concat]
    exact ih.2.next ih.1 (Bool.and_eq_true_iff.mp hroom).2 hn

/-- Buffers of user data have the right length, content and tag while they have room. -/
theorem user_data_handled {calls : List Act} {w : World} (hrun : (callMachine.guard hasRoom).Run calls w) :
    w.bufs.length = (strings calls).bufs.length ∧
      ∀ (i : Nat) (v : IOBuf) (xs : List UInt8), w.bufs[i]? = some v → (strings calls).bufs[i]? = some xs →
        v.length = xs.length ∧ bytes w.heap v.refs = xs ∧ v.isSmall = v.inSmall := by
  obtain ⟨hi, hh⟩ := holds_of_room hrun
  refine ⟨hh.len, fun i v xs hb hl => ?_⟩
  have hrep := hh.represents hi hb hl
  exact ⟨hrep.length, hrep.content, hrep.tag⟩

def userBytes (i : Nat) : UInt8 := UInt8.ofNat i

/-- Two blocks of 2 * 10^9 bytes, cut in the second and popped at both ends. -/
def twoLargeBlocks : List Act :=
  ([.newBuf, .newBuf, .one 0 (.appendUserData userBytes 2000000000), .one 0 (.appendUserData userBytes 2000000000),
    .two 0 1 (.cutn 3000000000), .one 1 (.popFront 5), .one 1 (.popBack 7)] : List Op).map (⟨0, 1, ·⟩)

theorem twoLargeBlocks_handled : ∃ w, (callMachine.guard hasRoom).Run twoLargeBlocks w ∧
    w.bufs.map IOBuf.length = [1000000000, 2999999988] ∧
    ∀ (i : Nat) (v : IOBuf) (xs : List UInt8), w.bufs[i]? = some v → (strings twoLargeBlocks).bufs[i]? = some xs →
      v.length = xs.length ∧ bytes w.heap v.refs = xs ∧ v.isSmall = v.inSmall := by
  obtain ⟨w, hrun, hlen⟩ : ∃ w, (callMachine.guard hasRoom).Run twoLargeBlocks w ∧
      w.bufs.map IOBuf.length = [1000000000, 2999999988] :=
    Machine.exists_run (s := .start 1) ⟨1, rfl⟩ (by decide +kernel)
  exact ⟨w, hrun, hlen, (user_data_handled hrun).2⟩

/-- Two blocks of 2^31 bytes. -/
def twoHalves : List Act :=
  ([.newBuf, .one 0 (.appendUserData userBytes (2 ^ 31)), .one 0 (.appendUserData userBytes (2 ^ 31))] : List Op).map
    (⟨0, 1, ·⟩)

/-- A block of 3 * 2^30 bytes, and its first 2^31 bytes popped. -/
def popHigh : List Act :=
  ([.newBuf, .one 0 (.appendUserData userBytes (3 * 2 ^ 30)), .one 0 (.popFront (2 ^ 31))] : List Op).map (⟨0, 1, ·⟩)

/-- With two blocks of 2^31 bytes the 32-bit sum of `length()` is 0. After 2^31 bytes were popped off
    a larger block `_small()` takes the offset for a negative tag, and `length()` is beyond all bounds. -/
theorem large_sizes_wrap :
    ((∃ w, callMachine.Run twoHalves w ∧ w.bufs.map IOBuf.length = [0]) ∧
      (strings twoHalves).bufs.map List.length = [2 ^ 32]) ∧
    (∃ w, callMachine.Run popHigh w ∧ w.bufs.map IOBuf.isSmall = [false] ∧ w.bufs.map IOBuf.inSmall = [true] ∧
      w.bufs.map IOBuf.length = [2 ^ 64 - 2 ^ 31]) ∧
      (strings popHigh).bufs.map List.length = [2 ^ 30] := by
  refine ⟨⟨?_, ?_⟩, ?_, ?_⟩
  · exact Machine.exists_run (s := .start 1) ⟨1, rfl⟩ (by decide +kernel)
  · show [([] ++ (List.range (2 ^ 31)).map userBytes ++ (List.range (2 ^ 31)).map userBytes).length] = _
    rw [List.length_append, List.length_append, List.length_map, List.length_range]
    rfl
  · exact Machine.exists_run (s := .start 1) ⟨1, rfl⟩ (by decide +kernel)
  · show [(([] ++ (List.range (3 * 2 ^ 30)).map userBytes).drop (2 ^ 31)).length] = _
    rw [List.length_drop, List.length_append, List.length_map, List.length_range]
    rfl

end LightRpc.IOBuffer

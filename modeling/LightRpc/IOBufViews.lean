import LightRpc.IOBuf

/- The two views of an IOBuf as one list of references.

   `IOBuf.refs` reads the references off either view, and `IOBuf.Ok` is what the source
   relies on: a small view is filled from the front, a big view is a window of at least three
   entries of a power-of-two ring with the right `nbytes`, no reference is empty or reaches
   beyond the first 2^31 bytes of its block, and `nbytes` does not wrap around. Every primitive
   of the source keeps `Ok` and is one list operation on `refs`, whichever view it finds and
   leaves behind; a reference is appended only where there is room for it (`Spare`). -/
namespace LightRpc.IOBuffer

open Lib.RefCount Lib.Window List BigView

variable {r : BlockRef} {bv : BigView} {rs : List BlockRef} {n : Nat} {v : IOBuf} {h : Heap}

def total (rs : List BlockRef) : Nat := (rs.map BlockRef.length).sum

@[simp] theorem total_nil : total [] = 0 := rfl

@[simp] theorem total_cons (r : BlockRef) (rs : List BlockRef) : total (r :: rs) = r.length + total rs := rfl

@[simp] theorem total_append (rs rs' : List BlockRef) : total (rs ++ rs') = total rs + total rs' := by
  rw [total, map_append, sum_append]
  rfl

structure BlockRef.Ok (r : BlockRef) : Prop where
  nonempty : 0 < r.length
  bound : r.offset + r.length < 2 ^ 31

theorem length_le_total (h : ∀ r ∈ rs, r.Ok) : rs.length ≤ total rs := by
  induction rs with
  | nil => exact Nat.le_refl _
  | cons r rs ih =>
    have hr := (h r mem_cons_self).nonempty
    have hrs := ih (fun r' hr' => h r' (mem_cons_of_mem r hr'))
    rw [length_cons, total_cons]
    omega

/-- The references lie in a power-of-two ring. -/
structure BigView.Ring (bv : BigView) : Prop where
  pow : ∃ k, bv.refs.length = 2 ^ k
  cap : bv.refs.length ≤ 2 ^ 31
  mask : bv.capMask + 1 = bv.refs.length
  start : bv.start < bv.refs.length
  high : bv.nref ≤ bv.refs.length
  array : bv.alien = none

structure BigView.Ok (bv : BigView) : Prop extends bv.Ring where
  low : 3 ≤ bv.nref
  bytes : bv.nbytes = total bv.all

/-- The references of an IOBuf, first to last. -/
def IOBuf.refs : IOBuf → List BlockRef
  | .small r0 r1 => r0.toList ++ r1.toList
  | .big bv => bv.all

/-- Each view is as the source expects it. -/
def IOBuf.Shape : IOBuf → Prop
  | .small r0 r1 => r0 = none → r1 = none
  | .big bv => bv.Ok

structure IOBuf.Ok (v : IOBuf) : Prop where
  shape : v.Shape
  refs : ∀ r ∈ v.refs, r.Ok
  bound : total v.refs < 2 ^ 64

theorem IOBuf.Ok.head {v : IOBuf} (hv : v.Ok) (hrefs : v.refs = r :: rs) : r.Ok :=
  hv.refs r (by rw [hrefs]; exact mem_cons_self)

theorem IOBuf.Ok.new : IOBuf.new.Ok :=
  ⟨fun _ => rfl, fun _ h => absurd h not_mem_nil, by decide⟩

/-! The ring of a big view. -/

namespace BigView.Ring

variable {bv : BigView}

theorem index (h : bv.Ring) (i : Nat) : bv.index i = (bv.start + i) % bv.refs.length := by
  obtain ⟨k, hk⟩ := h.pow
  have hmask : bv.capMask = 2 ^ k - 1 := by
    have := h.mask
    omega
  rw [BigView.index, hmask, hk, Nat.and_two_pow_sub_one_eq_mod]

theorem capacity (h : bv.Ring) : bv.capacity = bv.refs.length := by
  rw [BigView.capacity, h.mask, u32, Nat.mod_eq_of_lt]
  have := h.cap
  omega

theorem refAt (h : bv.Ring) (i : Nat) : bv.refAt i = bv.refs.getD ((bv.start + i) % bv.refs.length) default := by
  rw [BigView.refAt, h.index]

theorem all (h : bv.Ring) : bv.all = window bv.refs default bv.start bv.nref := by
  apply map_congr_left
  intro i _
  exact h.refAt i

theorem front (h : bv.Ring) : bv.refs.getD bv.start default = bv.refAt 0 := by
  rw [h.refAt, Nat.add_zero, Nat.mod_eq_of_lt h.start]

theorem touch (h : bv.Ring) (σ : Heap) : bv.touch σ = σ := by
  rw [BigView.touch, h.array]
  rfl

theorem touchAll (h : bv.Ring) (σ : Heap) : bv.touchAll σ = σ := by
  rw [BigView.touchAll, h.touch, ite_self]

theorem releaseArray (h : bv.Ring) (σ : Heap) : bv.releaseArray σ = σ := by
  rw [BigView.releaseArray, h.array]
  rfl

end BigView.Ring

@[simp] theorem BigView.length_all (bv : BigView) : bv.all.length = bv.nref := by
  rw [all, length_map, length_range]

theorem BigView.getElem?_all {i : Nat} (h : i < bv.nref) : bv.all[i]? = some (bv.refAt i) := by
  rw [all, getElem?_map, getElem?_range h, Option.map_some]

/-- The first reference of a big view, and the others in the order they come in. -/
theorem BigView.all_cons (h : bv.nref = n + 1) : bv.all = bv.refAt 0 :: (range n).map (fun i => bv.refAt (i + 1)) := by
  rw [all, h, range_succ_eq_map, map_cons, map_map]
  rfl

theorem BigView.all_concat (h : bv.nref = n + 1) : bv.all = (range n).map bv.refAt ++ [bv.refAt n] := by
  rw [all, h, range_succ, map_append]
  rfl

/-- A big view with a new array. -/
theorem BigView.Ring.all_fresh {pad : List BlockRef} (h : bv.Ring) (hrefs : bv.refs = rs ++ pad)
    (hstart : bv.start = 0) (hnref : bv.nref = rs.length) : bv.all = rs := by
  rw [h.all, hrefs, hstart, hnref, window_append]

/-- Changing a reference in its place. -/
theorem BigView.Ring.modify (h : bv.Ring) {i : Nat} (hi : i < bv.nref) (f : BlockRef → BlockRef) (nbytes : Nat) :
    BigView.Ring { bv with refs := bv.refs.modify (bv.index i) f, nbytes := nbytes } ∧
      BigView.all { bv with refs := bv.refs.modify (bv.index i) f, nbytes := nbytes } = bv.all.modify i f := by
  have hring : BigView.Ring { bv with refs := bv.refs.modify (bv.index i) f, nbytes := nbytes } := by
    refine ⟨?_, ?_, ?_, ?_, ?_, h.array⟩
    all_goals rw [length_modify]
    · exact h.pow
    · exact h.cap
    · exact h.mask
    · exact h.start
    · exact h.high
  refine ⟨hring, ?_⟩
  rw [hring.all, h.all]
  dsimp only
  rw [h.index, window_modify (hi.trans_le h.high) h.high]

/-- A reference behind the last one. -/
theorem BigView.Ring.push (h : bv.Ring) (hlt : bv.nref < bv.refs.length) (r : BlockRef) (nbytes : Nat) :
    BigView.Ring { bv with refs := bv.refs.set (bv.index bv.nref) r, nref := bv.nref + 1, nbytes := nbytes } ∧
      BigView.all { bv with refs := bv.refs.set (bv.index bv.nref) r, nref := bv.nref + 1, nbytes := nbytes } =
        bv.all ++ [r] := by
  have hring : BigView.Ring
      { bv with refs := bv.refs.set (bv.index bv.nref) r, nref := bv.nref + 1, nbytes := nbytes } := by
    refine ⟨?_, ?_, ?_, ?_, ?_, h.array⟩
    all_goals rw [length_set]
    · exact h.pow
    · exact h.cap
    · exact h.mask
    · exact h.start
    · exact hlt
  refine ⟨hring, ?_⟩
  rw [hring.all, h.all]
  dsimp only
  rw [h.index, window_push hlt]

theorem BigView.Ring.popFront (h : bv.Ring) (hn : bv.nref = n + 1) (nbytes : Nat) :
    BigView.Ring { bv with start := bv.index 1, nref := n, nbytes := nbytes } ∧
      bv.all = bv.refAt 0 :: BigView.all { bv with start := bv.index 1, nref := n, nbytes := nbytes } := by
  have hlt : bv.index 1 < bv.refs.length := by
    rw [h.index]
    have := h.start
    exact Nat.mod_lt _ (by omega)
  have hring : BigView.Ring { bv with start := bv.index 1, nref := n, nbytes := nbytes } :=
    ⟨h.pow, h.cap, h.mask, hlt, (by have := h.high; omega : n ≤ bv.refs.length), h.array⟩
  refine ⟨hring, ?_⟩
  rw [hring.all, h.all, hn, window_cons, h.refAt]
  dsimp only
  rw [h.index]
  rfl

theorem BigView.Ring.popBack (h : bv.Ring) (hn : bv.nref = n + 1) (nbytes : Nat) :
    BigView.Ring { bv with nref := n, nbytes := nbytes } ∧
      bv.all = BigView.all { bv with nref := n, nbytes := nbytes } ++ [bv.refAt n] := by
  have hring : BigView.Ring { bv with nref := n, nbytes := nbytes } :=
    ⟨h.pow, h.cap, h.mask, h.start, (by have := h.high; omega : n ≤ bv.refs.length), h.array⟩
  exact ⟨hring, BigView.all_concat hn⟩

/-! Appending a reference. -/

/-- Whether `r` is merged with the last reference. -/
def merges (rs : List BlockRef) (r : BlockRef) : Bool := rs.getLast?.any r.follows

/-- A reference appended to a list: a continuation of the last one is merged with it. -/
def pushList (rs : List BlockRef) (r : BlockRef) : List BlockRef :=
  if merges rs r then rs.modify (rs.length - 1) (BlockRef.extend r.length) else rs ++ [r]

theorem merges_concat (rs : List BlockRef) (back r : BlockRef) : merges (rs ++ [back]) r = r.follows back := by
  rw [merges, getLast?_concat, Option.any_some]

theorem modify_concat (rs : List BlockRef) (back : BlockRef) (f : BlockRef → BlockRef) :
    (rs ++ [back]).modify ((rs ++ [back]).length - 1) f = rs ++ [f back] := by
  rw [length_append, length_singleton, Nat.add_sub_cancel]
  induction rs with
  | nil => rfl
  | cons r rs ih => rw [cons_append, length_cons, modify_succ_cons, ih, cons_append]

theorem pushList_follows {back : BlockRef} (h : r.follows back) :
    pushList (rs ++ [back]) r = rs ++ [back.extend r.length] := by
  rw [pushList, merges_concat, if_pos h, modify_concat]

theorem pushList_apart {back : BlockRef} (h : ¬ r.follows back) : pushList (rs ++ [back]) r = rs ++ [back] ++ [r] := by
  rw [pushList, merges_concat, if_neg h]

/-- References are appended or the last one is extended: none of them gets out of bounds. -/
theorem pushList_ok (hrs : ∀ r' ∈ rs, r'.Ok) (hr : r.Ok) :
    (∀ r' ∈ pushList rs r, r'.Ok) ∧ total (pushList rs r) = total rs + r.length := by
  rcases eq_nil_or_concat' rs with rfl | ⟨rs, back, rfl⟩
  · refine ⟨fun r' hr' => ?_, ?_⟩
    · rw [mem_singleton.mp hr']
      exact hr
    · show r.length + 0 = 0 + r.length
      omega
  · have hback : back.Ok := hrs back (by simp)
    by_cases hf : r.follows back
    · rw [pushList_follows hf]
      have hf : back.block = r.block ∧ u32 (back.offset + back.length) = r.offset := by
        simpa [BlockRef.follows] using hf
      have hoff : back.offset + back.length = r.offset := by
        rw [← hf.2, u32, Nat.mod_eq_of_lt]
        have := hback.bound
        omega
      have hr1 := hr.bound
      have hb0 := hback.nonempty
      -- both parts lie in the first 2^31 bytes of one block
      have hlen : u32 (back.length + r.length) = back.length + r.length := Nat.mod_eq_of_lt (by omega)
      refine ⟨fun r' hr' => ?_, ?_⟩
      · rcases mem_append.mp hr' with hr' | hr'
        · exact hrs r' (mem_append_left _ hr')
        · rw [mem_singleton.mp hr']
          refine ⟨?_, ?_⟩
          · show 0 < u32 (back.length + r.length)
            omega
          · show back.offset + u32 (back.length + r.length) < 2 ^ 31
            omega
      · simp only [total_append, total_cons, total_nil, BlockRef.extend]
        omega
    · rw [pushList_apart hf]
      refine ⟨fun r' hr' => ?_, ?_⟩
      · rcases mem_append.mp hr' with hr' | hr'
        · exact hrs r' hr'
        · rw [mem_singleton.mp hr']
          exact hr
      · rw [total_append, total_cons, total_nil, Nat.add_zero]

theorem length_pushList (rs : List BlockRef) (r : BlockRef) :
    rs.length ≤ (pushList rs r).length ∧ (pushList rs r).length ≤ rs.length + 1 := by
  rw [pushList]
  split
  · rw [length_modify]
    exact ⟨Nat.le_refl _, Nat.le_succ _⟩
  · rw [length_append, length_singleton]
    exact ⟨Nat.le_succ _, Nat.le_refl _⟩

/-- There is room for `n` more bytes in `k` more references: the third reference computes
    `new_nbytes` with 32 bits, `nbytes` has 64, and a ring has no more than 2^31 entries. -/
structure Spare (rs : List BlockRef) (n k : Nat) : Prop where
  small : rs.length < 3 → total rs + n < 2 ^ 32
  bytes : total rs + n < 2 ^ 64
  refs : rs.length + k ≤ 2 ^ 31

namespace Spare

variable {rs : List BlockRef} {r : BlockRef} {n n' k k' : Nat}

/-- A buffer of less than 2^31 bytes has room. -/
theorem of_lt (hrs : ∀ r ∈ rs, r.Ok) (hk : k ≤ n) (hsum : total rs + n < 2 ^ 31) : Spare rs n k := by
  have hlen := length_le_total hrs
  exact ⟨fun _ => by omega, by omega, by omega⟩

theorem mono (hs : Spare rs n k) (hn : n' ≤ n) (hk : k' ≤ k) : Spare rs n' k' := by
  have hrefs := hs.refs
  have hbytes := hs.bytes
  refine ⟨fun hlt => ?_, by omega, by omega⟩
  have := hs.small hlt
  omega

theorem push (hs : Spare rs (r.length + n) (k + 1)) (hrs : ∀ r' ∈ rs, r'.Ok) (hr : r.Ok) :
    Spare (pushList rs r) n k := by
  have htotal := (pushList_ok hrs hr).2
  obtain ⟨hlow, hhigh⟩ := length_pushList rs r
  have hrefs := hs.refs
  have hbytes := hs.bytes
  refine ⟨fun hlt => ?_, by omega, by omega⟩
  have := hs.small (by omega)
  omega

end Spare

/-- What the primitive does to the heap, seen from the list. -/
def pushHeap (move : Bool) (h : Heap) (rs : List BlockRef) (r : BlockRef) : Heap :=
  if merges rs r then mergeRef move h r else takeRef move h r

theorem pushSmall_spec {move : Bool} {r0 r1 : Option BlockRef} (hv : (IOBuf.small r0 r1).Ok) (hr : r.Ok)
    (hspare : Spare (IOBuf.small r0 r1).refs r.length 1) :
    (pushSmall move h r0 r1 r).1 = pushHeap move h (IOBuf.small r0 r1).refs r ∧
      (pushSmall move h r0 r1 r).2.refs = pushList (IOBuf.small r0 r1).refs r ∧
      (pushSmall move h r0 r1 r).2.Shape := by
  have hoff : r.offset < 2 ^ 31 := by
    have := hr.bound
    omega
  match r0, r1, hv with
  | none, r1, hv =>
    obtain rfl : r1 = none := hv.shape rfl
    have hnew : IOBuf.ofSmall (some r) none = .small (some r) none := by
      rw [IOBuf.ofSmall, if_pos hoff]
    refine ⟨rfl, ?_, ?_⟩
    · rw [pushSmall, hnew]
      rfl
    · rw [pushSmall, hnew]
      exact fun h => absurd h (Option.some_ne_none r)
  | some a, none, hv =>
    have hrefs : (IOBuf.small (some a) none).refs = [] ++ [a] := rfl
    by_cases hf : r.follows a
    · rw [pushSmall, if_pos hf, hrefs, pushList_follows hf, pushHeap, merges_concat, if_pos hf]
      exact ⟨rfl, rfl, fun _ => rfl⟩
    · rw [pushSmall, if_neg hf, hrefs, pushList_apart hf, pushHeap, merges_concat, if_neg hf]
      exact ⟨rfl, rfl, fun h => absurd h (Option.some_ne_none a)⟩
  | some a, some b, hv =>
    have hrefs : (IOBuf.small (some a) (some b)).refs = [a] ++ [b] := rfl
    by_cases hf : r.follows b
    · rw [pushSmall, if_pos hf, hrefs, pushList_follows hf, pushHeap, merges_concat, if_pos hf]
      exact ⟨rfl, rfl, fun h => absurd h (Option.some_ne_none a)⟩
    · have hsum := hspare.small (by rw [hrefs]; exact Nat.lt_succ_self 2)
      rw [hrefs] at hsum
      rw [pushSmall, if_neg hf, hrefs, pushList_apart hf, pushHeap, merges_concat, if_neg hf]
      have hring : BigView.Ring ⟨0, [a, b, r] ++ replicate (INITIAL_CAP - 3) default, 3, INITIAL_CAP - 1,
          u32 (a.length + b.length + r.length), none⟩ :=
        ⟨⟨5, rfl⟩, (by decide : 32 ≤ 2 ^ 31), rfl, (by decide : 0 < 32), (by decide : 3 ≤ 32), rfl⟩
      have hall := hring.all_fresh rfl rfl rfl
      refine ⟨rfl, hall, hring, Nat.le_refl 3, ?_⟩
      rw [hall]
      simp only [total_append, total_cons, total_nil] at hsum
      simp only [total_cons, total_nil]
      show u32 (a.length + b.length + r.length) = _
      rw [u32, Nat.mod_eq_of_lt (by omega)]
      omega

theorem pushBig_spec {move : Bool} (hv : (IOBuf.big bv).Ok) (hr : r.Ok)
    (hspare : Spare (IOBuf.big bv).refs r.length 1) : (pushBig move h bv r).1 = pushHeap move h (IOBuf.big bv).refs r ∧
      (pushBig move h bv r).2.refs = pushList (IOBuf.big bv).refs r ∧
      (pushBig move h bv r).2.Shape := by
  have hok : bv.Ok := hv.shape
  obtain ⟨n, hn⟩ : ∃ n, bv.nref = n + 1 := ⟨bv.nref - 1, by have := hok.low; omega⟩
  have hlast : bv.nref - 1 = n := by omega
  have hrefs : (IOBuf.big bv).refs = bv.all := rfl
  have hall := all_concat hn
  have hmerges : merges bv.all r = r.follows (bv.refAt n) := by
    rw [hall, merges_concat]
  rw [pushBig, hok.touch, hlast, hrefs, pushHeap, hmerges]
  by_cases hf : r.follows (bv.refAt n)
  · rw [if_pos hf, if_pos hf]
    obtain ⟨hring, hnew⟩ := hok.modify (by omega : n < bv.nref) (BlockRef.extend r.length) (bv.nbytes + r.length)
    have hpush : pushList bv.all r = bv.all.modify n (BlockRef.extend r.length) := by
      rw [pushList, hmerges, if_pos hf, length_all, hlast]
    refine ⟨rfl, hnew.trans hpush.symm, hring, hok.low, ?_⟩
    have htotal : total (pushList bv.all r) = total bv.all + r.length := (pushList_ok hv.refs hr).2
    rw [hnew, ← hpush, htotal, ← hok.bytes]
  · rw [if_neg hf, if_neg hf]
    have hpush : pushList bv.all r = bv.all ++ [r] := by
      rw [pushList, hmerges, if_neg hf]
    by_cases hfull : bv.nref ≠ bv.capacity
    · rw [if_pos hfull]
      have hlt : bv.nref < bv.refs.length := by
        rw [hok.capacity] at hfull
        have := hok.high
        omega
      obtain ⟨hring, hnew⟩ := hok.push hlt r (bv.nbytes + r.length)
      refine ⟨rfl, hnew.trans hpush.symm, hring, ?_, ?_⟩
      · exact Nat.le_succ_of_le hok.low
      · rw [hnew, total_append, ← hok.bytes]
        rfl
    · -- the ring is full: it is copied into one of twice the size
      rw [if_neg hfull]
      have hfull : bv.nref = bv.refs.length := by
        rw [← hok.capacity]
        exact not_not.mp hfull
      obtain ⟨k, hk⟩ := hok.pow
      have hbound : bv.nref + 1 ≤ 2 ^ 31 := by
        rw [← length_all]
        exact hspare.refs
      have hk30 : k < 31 := by
        by_contra hge
        have := Nat.pow_le_pow_right (by decide : 0 < 2) (Nat.not_lt.mp hge)
        omega
      have hpow : 2 ^ (k + 1) ≤ 2 ^ 31 := Nat.pow_le_pow_right (by decide) hk30
      have hcap : u32 (bv.capacity * 2) = 2 ^ (k + 1) := by
        rw [hok.capacity, hk, ← Nat.pow_succ, u32, Nat.mod_eq_of_lt]
        omega
      have hlen : (bv.all ++ [r] ++ replicate (2 ^ (k + 1) - (bv.nref + 1)) default).length = 2 ^ (k + 1) := by
        rw [length_append, length_append, length_all, length_replicate, length_singleton]
        rw [Nat.pow_succ]
        omega
      have hring : BigView.Ring ⟨0, bv.all ++ [r] ++ replicate (2 ^ (k + 1) - (bv.nref + 1)) default,
          bv.nref + 1, 2 ^ (k + 1) - 1, bv.nbytes + r.length, none⟩ := by
        refine ⟨⟨k + 1, hlen⟩, ?_, ?_, ?_, ?_, rfl⟩
        all_goals rw [hlen]
        · exact hpow
        all_goals rw [Nat.pow_succ]
        · show 2 ^ k * 2 - 1 + 1 = 2 ^ k * 2
          omega
        · show 0 < 2 ^ k * 2
          omega
        · show bv.nref + 1 ≤ 2 ^ k * 2
          omega
      rw [hcap]
      have hnew := hring.all_fresh rfl rfl (by rw [length_append, length_all]; rfl)
      refine ⟨rfl, hnew.trans hpush.symm, hring, Nat.le_succ_of_le hok.low, ?_⟩
      rw [hnew, total_append, ← hok.bytes]
      rfl

/-- Appending a reference to either view appends it to the list. -/
theorem pushRef_spec (move : Bool) (h : Heap) (hv : v.Ok) (hr : r.Ok) (hspare : Spare v.refs r.length 1) :
    (pushRef move h v r).1 = pushHeap move h v.refs r ∧ (pushRef move h v r).2.refs = pushList v.refs r ∧
      (pushRef move h v r).2.Ok := by
  have hspec : (pushRef move h v r).1 = pushHeap move h v.refs r ∧
      (pushRef move h v r).2.refs = pushList v.refs r ∧ (pushRef move h v r).2.Shape := by
    cases v with
    | small r0 r1 => exact pushSmall_spec hv hr hspare
    | big bv => exact pushBig_spec hv hr hspare
  obtain ⟨hheap, hrefs, hshape⟩ := hspec
  have hlist := pushList_ok hv.refs hr
  refine ⟨hheap, hrefs, hshape, ?_, ?_⟩
  · rw [hrefs]
    exact hlist.1
  · rw [hrefs, hlist.2]
    exact hspare.bytes

/-! What the observers of either view read. -/

theorem IOBuf.refNum_eq (v : IOBuf) : v.refNum = v.refs.length := by
  cases v with
  | small r0 r1 => cases r0 <;> cases r1 <;> rfl
  | big bv => exact (length_all bv).symm

theorem IOBuf.Shape.map_refAt (hv : v.Shape) : (range v.refNum).map v.refAt = v.refs := by
  match v, hv with
  | .small none none, _ => rfl
  | .small none (some b), hv => exact absurd (hv rfl) (Option.some_ne_none b)
  | .small (some a) none, _ => rfl
  | .small (some a) (some b), _ => rfl
  | .big bv, _ => rfl

namespace IOBuf.Ok

variable {v : IOBuf} {r : BlockRef} {rs : List BlockRef}

theorem length (hv : v.Ok) : v.length = total v.refs := by
  cases v with
  | small r0 r1 =>
    have hsum : total (IOBuf.small r0 r1).refs = lengthOf r0 + lengthOf r1 := by
      cases r0 <;> cases r1 <;> simp [IOBuf.refs, lengthOf]
    have hbound : lengthOf r0 < 2 ^ 31 ∧ lengthOf r1 < 2 ^ 31 := by
      refine ⟨?_, ?_⟩
      · cases r0 with
        | none => decide
        | some a =>
          have := (hv.refs a (by simp [IOBuf.refs])).bound
          show a.length < 2 ^ 31
          omega
      · cases r1 with
        | none => decide
        | some b =>
          have := (hv.refs b (by simp [IOBuf.refs])).bound
          show b.length < 2 ^ 31
          omega
    rw [hsum]
    exact Nat.mod_eq_of_lt (by omega)
  | big bv => exact hv.shape.bytes

theorem refNum (_ : v.Ok) : v.refNum = v.refs.length := refNum_eq v

theorem map_refAt (hv : v.Ok) : (range v.refNum).map v.refAt = v.refs := hv.shape.map_refAt

theorem isEmpty (hv : v.Ok) : v.isEmpty = v.refs.isEmpty := by
  match v, hv with
  | .small none none, _ => rfl
  | .small none (some b), hv => exact absurd (hv.shape rfl) (Option.some_ne_none b)
  | .small (some a) r1, _ => rfl
  | .big bv, hv =>
    have hok : bv.Ok := hv.shape
    have hlow := hok.low
    have hpos : 0 < bv.nbytes := by
      have := length_le_total hv.refs
      rw [IOBuf.refs, length_all, ← hok.bytes] at this
      omega
    have hne : bv.all ≠ [] := by
      apply ne_nil_of_length_pos
      rw [length_all]
      omega
    rw [IOBuf.isEmpty, IOBuf.refs, isEmpty_eq_false_iff.mpr hne]
    exact beq_false_of_ne (by omega)

theorem front_cases (hv : v.Ok) (h : v.refs = r :: rs) :
    (∃ r1 : Option BlockRef, v = .small (some r) r1 ∧ rs = r1.toList) ∨
      ∃ bv n, v = .big bv ∧ bv.Ok ∧ bv.nref = n + 1 ∧ bv.all = r :: rs := by
  match v, hv with
  | .small none none, _ => exact absurd h (cons_ne_nil r rs).symm
  | .small none (some b), hv => exact absurd (hv.shape rfl) (Option.some_ne_none b)
  | .small (some a) r1, _ =>
    obtain ⟨rfl, rfl⟩ := cons.inj (h : a :: r1.toList = r :: rs)
    exact .inl ⟨r1, rfl, rfl⟩
  | .big bv, hv =>
    have hb : bv.Ok := hv.shape
    exact .inr ⟨bv, bv.nref - 1, rfl, hb, by have := hb.low; omega, h⟩

theorem back_cases (hv : v.Ok) (h : v.refs = rs ++ [r]) :
    v = .small (some r) none ∧ rs = [] ∨ (∃ a, v = .small (some a) (some r) ∧ rs = [a]) ∨
      ∃ bv n, v = .big bv ∧ bv.Ok ∧ bv.nref = n + 1 ∧ bv.all = rs ++ [r] := by
  match v, hv with
  | .small none none, _ => exact absurd h (append_ne_nil_of_right_ne_nil rs (cons_ne_nil r [])).symm
  | .small none (some b), hv => exact absurd (hv.shape rfl) (Option.some_ne_none b)
  | .small (some a) none, _ =>
    obtain ⟨rfl, hr⟩ := append_inj' (show [] ++ [a] = rs ++ [r] from h) rfl
    cases hr
    exact .inl ⟨rfl, rfl⟩
  | .small (some a) (some b), _ =>
    obtain ⟨rfl, hr⟩ := append_inj' (show [a] ++ [b] = rs ++ [r] from h) rfl
    cases hr
    exact .inr (.inl ⟨a, rfl, rfl⟩)
  | .big bv, hv =>
    have hb : bv.Ok := hv.shape
    exact .inr (.inr ⟨bv, bv.nref - 1, rfl, hb, by have := hb.low; omega, h⟩)

theorem frontRef (hv : v.Ok) (h : v.refs = r :: rs) : v.frontRef = r := by
  obtain ⟨r1, rfl, -⟩ | ⟨bv, n, rfl, hb, hn, hall⟩ := hv.front_cases h
  · rfl
  · have hget := getElem?_all (by omega : 0 < bv.nref)
    rw [hall, getElem?_cons_zero] at hget
    rw [IOBuf.frontRef, hb.front]
    exact (Option.some.inj hget).symm

theorem backRef (hv : v.Ok) (h : v.refs = rs ++ [r]) : v.backRef = r := by
  obtain ⟨rfl, -⟩ | ⟨a, rfl, -⟩ | ⟨bv, n, rfl, hb, hn, hall⟩ := hv.back_cases h
  · rfl
  · rfl
  · have hall : rs ++ [r] = _ ++ [bv.refAt n] := hall.symm.trans (all_concat hn)
    rw [IOBuf.backRef, hn, Nat.add_sub_cancel]
    exact (singleton_inj.mp (append_inj' hall rfl).2).symm

end IOBuf.Ok

/-! Taking references off. -/

theorem sub64_of_le {a b : Nat} (hb : b ≤ a) (ha : a < 2 ^ 64) : sub64 a b = a - b := by
  rw [sub64]
  omega

theorem ofSmall_ok {r0 : BlockRef} {r1 : Option BlockRef} (h : r0.Ok) :
    IOBuf.ofSmall (some r0) r1 = .small (some r0) r1 := by
  have := h.bound
  rw [IOBuf.ofSmall, if_pos (by omega)]

/-- A part of the references of a buffer is in bounds like the whole. -/
theorem IOBuf.Ok.sublist {v' : IOBuf} (hv : v.Ok) (hshape : v'.Shape) (hsub : ∀ r ∈ v'.refs, r ∈ v.refs)
    (htotal : total v'.refs ≤ total v.refs) : v'.Ok :=
  ⟨hshape, fun r hr => hv.refs r (hsub r hr), Nat.lt_of_le_of_lt htotal hv.bound⟩

theorem popFrontRef_spec (moveout : Bool) (h : Heap) (hv : v.Ok) (hrefs : v.refs = r :: rs) :
    (popFrontRef moveout h v).1 = (if moveout then h else h.dec r.block) ∧
      (popFrontRef moveout h v).2.refs = rs ∧ (popFrontRef moveout h v).2.Ok := by
  have hspec : (popFrontRef moveout h v).1 = (if moveout then h else h.dec r.block) ∧
      (popFrontRef moveout h v).2.refs = rs ∧ (popFrontRef moveout h v).2.Shape := by
    have hok := hv.refs
    rw [hrefs] at hok
    obtain ⟨r1, rfl, rfl⟩ | ⟨bv, n, rfl, hb, hn, hall⟩ := hv.front_cases hrefs
    · cases r1 with
      | none => exact ⟨rfl, rfl, fun _ => rfl⟩
      | some b =>
        rw [popFrontRef, ofSmall_ok (hok b (by simp))]
        exact ⟨rfl, rfl, fun _ => rfl⟩
    · obtain ⟨hring, hpop⟩ := hb.popFront hn (sub64 bv.nbytes (bv.refAt 0).length)
      obtain ⟨hr, hrs⟩ := cons.inj (hall.symm.trans hpop)
      have hbytes := hb.bytes
      have hbound := hv.bound
      rw [hrefs, total_cons] at hbound
      rw [hall, total_cons] at hbytes
      rw [popFrontRef, hb.touch, hb.front, ← hr, hn, Nat.add_sub_cancel]
      rw [← hr] at hring hrs
      by_cases hbig : n > 2
      · rw [if_pos hbig]
        refine ⟨rfl, hrs.symm, hring, hbig, ?_⟩
        rw [← hrs]
        show sub64 bv.nbytes r.length = total rs
        rw [hbytes, sub64_of_le (by omega) (by omega)]
        omega
      · -- two references are left: back to the small view
        rw [if_neg hbig]
        have hn2 : n = 2 := by
          have := hb.low
          omega
        have hlist := all_cons hn
        rw [hall, hn2] at hlist
        obtain ⟨-, rfl⟩ := cons.inj hlist
        rw [ofSmall_ok (hok (bv.refAt 1) (by simp [range_succ]))]
        exact ⟨rfl, rfl, fun h => absurd h (Option.some_ne_none _)⟩
  obtain ⟨hheap, hrest, hshape⟩ := hspec
  refine ⟨hheap, hrest, hv.sublist hshape ?_ ?_⟩
  · rw [hrest, hrefs]
    exact fun r' hr' => mem_cons_of_mem r hr'
  · rw [hrest, hrefs, total_cons]
    omega

theorem popBackRef_spec (hv : v.Ok) (hrefs : v.refs = rs ++ [r]) :
    (popBackRef h v).1 = h.dec r.block ∧ (popBackRef h v).2.refs = rs ∧ (popBackRef h v).2.Ok := by
  have hspec : (popBackRef h v).1 = h.dec r.block ∧ (popBackRef h v).2.refs = rs ∧
      (popBackRef h v).2.Shape := by
    have hok := hv.refs
    rw [hrefs] at hok
    obtain ⟨rfl, rfl⟩ | ⟨a, rfl, rfl⟩ | ⟨bv, n, rfl, hb, hn, hall⟩ := hv.back_cases hrefs
    · exact ⟨rfl, rfl, fun _ => rfl⟩
    · exact ⟨rfl, rfl, fun _ => rfl⟩
    · obtain ⟨hring, hpop⟩ := hb.popBack hn (sub64 bv.nbytes (bv.refAt n).length)
      obtain ⟨hrs, hr⟩ := append_inj' (hall.symm.trans hpop) rfl
      have hr : r = bv.refAt n := singleton_inj.mp hr
      have hbytes := hb.bytes
      have hbound := hv.bound
      rw [hrefs, total_append, total_cons, total_nil] at hbound
      rw [hall, total_append, total_cons, total_nil] at hbytes
      rw [popBackRef, hb.touch, hn, Nat.add_sub_cancel, ← hr]
      rw [← hr] at hring hrs
      by_cases hbig : n > 2
      · rw [if_pos hbig]
        refine ⟨rfl, hrs.symm, hring, hbig, ?_⟩
        rw [← hrs]
        show sub64 bv.nbytes r.length = total rs
        rw [hbytes, sub64_of_le (by omega) (by omega)]
        omega
      · rw [if_neg hbig]
        have hn2 : n = 2 := by
          have := hb.low
          omega
        have hlist := BigView.all_concat hn
        rw [hall, hn2] at hlist
        obtain ⟨rfl, -⟩ := append_inj' hlist rfl
        rw [ofSmall_ok (hok (bv.refAt 0) (by simp [range_succ]))]
        exact ⟨rfl, rfl, fun h => absurd h (Option.some_ne_none _)⟩
  obtain ⟨hheap, hrest, hshape⟩ := hspec
  refine ⟨hheap, hrest, hv.sublist hshape ?_ ?_⟩
  · rw [hrest, hrefs]
    exact fun r' hr' => mem_append_left _ hr'
  · rw [hrest, hrefs, total_append]
    omega

/-! Changing the first or the last reference. -/

theorem BlockRef.Ok.advance (h : r.Ok) (hn : n < r.length) :
    (r.advance n).Ok ∧ (r.advance n).offset = r.offset + n := by
  have hbound := h.bound
  have hoff : u32 (r.offset + n) = r.offset + n := Nat.mod_eq_of_lt (by omega)
  refine ⟨⟨?_, ?_⟩, hoff⟩
  · show 0 < r.length - n
    omega
  · show u32 (r.offset + n) + (r.length - n) < 2 ^ 31
    omega

theorem BlockRef.Ok.shorten (h : r.Ok) (hn : n < r.length) : (r.shorten n).Ok := by
  have hbound := h.bound
  refine ⟨?_, ?_⟩
  · show 0 < r.length - n
    omega
  · show r.offset + (r.length - n) < 2 ^ 31
    omega

/-- A big view stays right when one of its references loses bytes and `nbytes` with it. -/
theorem BigView.Ok.lessBytes (h : bv.Ok) (hbound : total bv.all < 2 ^ 64) {i : Nat} {f : BlockRef → BlockRef}
    (hi : i < bv.nref) (htotal : total (bv.all.modify i f) + n = total bv.all) :
    (IOBuf.lessBytes (.big { bv with refs := bv.refs.modify (bv.index i) f }) n).refs = bv.all.modify i f ∧
      (IOBuf.lessBytes (.big { bv with refs := bv.refs.modify (bv.index i) f }) n).Shape := by
  obtain ⟨hring, hall⟩ := h.modify hi f (sub64 bv.nbytes n)
  refine ⟨hall, hring, h.low, ?_⟩
  rw [hall]
  show sub64 bv.nbytes n = _
  rw [h.bytes, sub64_of_le (by omega) (by omega)]
  omega

theorem advanceFront_spec (hv : v.Ok) (hrefs : v.refs = r :: rs) (hn : n < r.length) :
    (v.advanceFront n).refs = r.advance n :: rs ∧ (v.advanceFront n).Ok := by
  have hr := hv.head hrefs
  have hadv := (hr.advance hn).1
  have hsum : total (r.advance n :: rs) + n = total (r :: rs) := by
    rw [total_cons, total_cons]
    show r.length - n + total rs + n = r.length + total rs
    omega
  have hspec : (v.advanceFront n).refs = r.advance n :: rs ∧ (v.advanceFront n).Shape := by
    obtain ⟨r1, rfl, rfl⟩ | ⟨bv, m, rfl, hb, hm, hall⟩ := hv.front_cases hrefs
    · rw [IOBuf.advanceFront, Option.map_some, ofSmall_ok hadv]
      exact ⟨rfl, fun h => absurd h (Option.some_ne_none _)⟩
    · have hzero : bv.index 0 = bv.start := by
        rw [hb.index, Nat.add_zero, Nat.mod_eq_of_lt hb.start]
      have hmod : bv.all.modify 0 (BlockRef.advance n) = r.advance n :: rs := by
        rw [hall, modify_zero_cons]
      have hless := hb.lessBytes hv.bound (by omega : 0 < bv.nref) (n := n) (f := BlockRef.advance n) (by rw [hmod, hsum, hall])
      rw [hzero, hmod] at hless
      exact hless
  refine ⟨hspec.1, hspec.2, ?_, ?_⟩
  · rw [hspec.1]
    refine forall_mem_cons.mpr ⟨hadv, fun r' hr' => hv.refs r' ?_⟩
    rw [hrefs]
    exact mem_cons_of_mem r hr'
  · have := hv.bound
    rw [hrefs] at this
    rw [hspec.1]
    omega

theorem shortenBack_spec (hv : v.Ok) (hrefs : v.refs = rs ++ [r]) (hn : n < r.length) :
    (v.shortenBack n).refs = rs ++ [r.shorten n] ∧ (v.shortenBack n).Ok := by
  have hr : r.Ok := hv.refs r (by rw [hrefs]; simp)
  have hsh := hr.shorten hn
  have hsum : total (rs ++ [r.shorten n]) + n = total (rs ++ [r]) := by
    rw [total_append, total_append, total_cons, total_cons, total_nil]
    show total rs + (r.length - n + 0) + n = total rs + (r.length + 0)
    omega
  have hspec : (v.shortenBack n).refs = rs ++ [r.shorten n] ∧ (v.shortenBack n).Shape := by
    obtain ⟨rfl, rfl⟩ | ⟨a, rfl, rfl⟩ | ⟨bv, m, rfl, hb, hm, hall⟩ := hv.back_cases hrefs
    · exact ⟨rfl, fun _ => rfl⟩
    · exact ⟨rfl, fun h => absurd h (Option.some_ne_none _)⟩
    · have hmod : bv.all.modify (bv.nref - 1) (BlockRef.shorten n) = rs ++ [r.shorten n] := by
        rw [← length_all, hall, modify_concat]
      rw [IOBuf.shortenBack, ← hmod]
      apply hb.lessBytes hv.bound (by omega)
      rw [hmod, hsum, hall]
  refine ⟨hspec.1, hspec.2, ?_, ?_⟩
  · rw [hspec.1]
    refine forall_mem_append.mpr ⟨fun r' hr' => hv.refs r' ?_, ?_⟩
    · rw [hrefs]
      exact mem_append_left _ hr'
    · intro r' hr'
      rw [mem_singleton.mp hr']
      exact hsh
  · have := hv.bound
    rw [hrefs] at this
    rw [hspec.1]
    omega

/-! Whole buffers. -/

theorem clear_spec (hv : v.Ok) : clear h v = (decRefs h v.refs, .new) := by
  match v, hv with
  | .small none none, _ => rfl
  | .small none (some b), hv => exact absurd (hv.shape rfl) (Option.some_ne_none b)
  | .small (some a) none, _ => rfl
  | .small (some a) (some b), _ => rfl
  | .big bv, hv =>
    have hb : bv.Ok := hv.shape
    rw [clear, hb.touchAll, hb.releaseArray]
    rfl

theorem copy_spec (hv : v.Ok) : (copy h v).1 = incRefs h v.refs ∧ (copy h v).2.refs = v.refs ∧ (copy h v).2.Ok := by
  cases v with
  | small r0 r1 => exact ⟨rfl, rfl, hv⟩
  | big bv =>
    have hb : bv.Ok := hv.shape
    have hhigh := hb.high
    have hlen : (bv.all ++ replicate (bv.capacity - bv.nref) default).length = bv.refs.length := by
      rw [length_append, length_all, length_replicate, hb.capacity]
      omega
    have hring : BigView.Ring { bv with
        start := 0, refs := bv.all ++ replicate (bv.capacity - bv.nref) default, alien := none } := by
      refine ⟨?_, ?_, ?_, ?_, ?_, rfl⟩
      all_goals rw [hlen]
      · exact hb.pow
      · exact hb.cap
      · exact hb.mask
      · exact Nat.lt_of_le_of_lt (Nat.zero_le _) hb.start
      · exact hhigh
    have hall := hring.all_fresh rfl rfl (length_all bv).symm
    have hrefs : (copy h (.big bv)).2.refs = (IOBuf.big bv).refs := hall
    refine ⟨?_, hrefs, hv.sublist ⟨hring, hb.low, ?_⟩ ?_ ?_⟩
    · rw [copy, hb.touchAll]
      rfl
    · rw [hall]
      exact hb.bytes
    · rw [hrefs]
      exact fun _ h => h
    · rw [hrefs]

theorem assign_spec {lhs rhs : IOBuf} (hl : lhs.Ok) (hr : rhs.Ok) :
    (assign h lhs rhs).1 = incRefs (decRefs h lhs.refs) rhs.refs ∧ (assign h lhs rhs).2.refs = rhs.refs ∧
      (assign h lhs rhs).2.Ok := by
  -- unless the arrays are of one size, the destructor and the copy constructor run
  have hcopy : assign h lhs rhs = copy (clear h lhs).1 rhs →
      (assign h lhs rhs).1 = incRefs (decRefs h lhs.refs) rhs.refs ∧ (assign h lhs rhs).2.refs = rhs.refs ∧
        (assign h lhs rhs).2.Ok := by
    intro heq
    rw [heq, clear_spec hl]
    exact copy_spec hr
  match lhs, rhs with
  | .small _ _, _ => exact hcopy rfl
  | .big _, .small _ _ => exact hcopy rfl
  | .big a, .big b =>
    have ha : a.Ok := hl.shape
    have hb : b.Ok := hr.shape
    by_cases hmask : a.capMask = b.capMask
    · have hsame : a.refs.length = b.refs.length := by
        rw [← ha.mask, ← hb.mask, hmask]
      have hhigh := hb.high
      have heq : assign h (.big a) (.big b) = (incRefs (decRefs h a.all) b.all,
          .big { a with start := 0, nref := b.nref, nbytes := b.nbytes, refs := b.all ++ a.refs.drop b.nref }) := by
        rw [assign, if_pos hmask, ha.touchAll, hb.touchAll]
      have hlen : (b.all ++ a.refs.drop b.nref).length = a.refs.length := by
        rw [length_append, length_all, length_drop]
        omega
      have hring : BigView.Ring
          { a with start := 0, nref := b.nref, nbytes := b.nbytes, refs := b.all ++ a.refs.drop b.nref } := by
        refine ⟨?_, ?_, ?_, ?_, ?_, ha.array⟩
        all_goals rw [hlen]
        · exact ha.pow
        · exact ha.cap
        · exact ha.mask
        · exact Nat.lt_of_le_of_lt (Nat.zero_le _) ha.start
        · rw [hsame]
          exact hhigh
      have hall := hring.all_fresh rfl rfl (length_all b).symm
      rw [heq]
      refine ⟨rfl, hall, hr.sublist ⟨hring, hb.low, ?_⟩ ?_ ?_⟩
      · rw [hall]
        exact hb.bytes
      · exact fun r hmem => (congrArg (r ∈ ·) hall).mp hmem
      · exact Nat.le_of_eq (congrArg total hall)
    · exact hcopy (by rw [assign, if_neg hmask])

end LightRpc.IOBuffer

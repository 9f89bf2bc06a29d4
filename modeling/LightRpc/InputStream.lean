import LightRpc.ByteOrder
import LightRpc.IOBufOps

/- Zero-copy input streams (`IOBufAsZeroCopyInputStream` of `fast_iobuf.{h,cc}`).

   The stream keeps its position as the index of a reference and an offset in it, both of
   type `int`, and counts the bytes it has passed. `Next` hands out what is left of the
   current reference, `Skip` walks over references, and `BackUp` steps back into the
   reference that `Next` handed out.

   A LOG(FATAL) or a null pointer ends the stream's run. The counter of type `int64_t` does
   not wrap around: a buffer has at most 2^31 references of less than 2^32 bytes. -/
namespace LightRpc.IOBuffer

open List

/-- `_pref_at` -/
def IOBuf.prefAt (v : IOBuf) (i : Nat) : Option BlockRef := if i < v.refNum then some (v.refAt i) else none

/-- An `int` read as `size_t`. -/
def sizeT (i : Int) : Nat := (i % 2 ^ 64).toNat

/-- What `Next` writes to `*data` and `*size`. -/
structure Slice where
  block : BlockId
  offset : Int
  size : Int
  deriving DecidableEq

/-- The bytes the caller reads from a slice. -/
def Slice.read (h : Heap) (p : Slice) : List UInt8 :=
  (h.payload p.block).elim [] (fun b => (List.range p.size.toNat).map (fun i : Nat => b.data (p.offset + i).toNat))

structure InputStream where
  refIndex : Int
  addOffset : Int
  byteCount : Int
  deriving DecidableEq

namespace InputStream

/-- `IOBufAsZeroCopyInputStream(const IOBuf &)` -/
def start : InputStream := ⟨0, 0, 0⟩

/-- `Next`, with what it hands out; it returns false without it. -/
def next (v : IOBuf) (s : InputStream) : InputStream × Option Slice :=
  match v.prefAt (sizeT s.refIndex) with
  | none => (s, none)
  | some r =>
    let left := uint32 (r.length - s.addOffset)
    (⟨int32 (s.refIndex + 1), 0, s.byteCount + left⟩, some ⟨r.block, r.offset + s.addOffset, int32 left⟩)

/-- `BackUp` -/
def backUp (v : IOBuf) (s : InputStream) (count : Int) : Option InputStream :=
  if 0 < s.refIndex then
    (v.prefAt (sizeT (s.refIndex - 1))).bind fun r =>
      -- the LOG_IF(FATAL) "BackUp() is not after a Next()"
      if s.addOffset = 0 ∧ uint32 count ≤ r.length then none
      else some ⟨s.refIndex - 1, int32 (r.length - count), s.byteCount - count⟩
  else none

def skipLoop (v : IOBuf) : Nat → InputStream → Int → Option (InputStream × Bool)
  | 0, _, _ => none
  | fuel + 1, s, count =>
    match v.prefAt (sizeT s.refIndex) with
    | none => some (s, false)
    | some r =>
      let left := int32 (r.length - s.addOffset)
      if count < left then some (⟨s.refIndex, int32 (s.addOffset + count), s.byteCount + count⟩, true)
      else skipLoop v fuel ⟨int32 (s.refIndex + 1), 0, s.byteCount + left⟩ (int32 (count - left))

/-- `Skip` -/
def skip (v : IOBuf) (s : InputStream) (count : Int) : Option (InputStream × Bool) :=
  skipLoop v (v.refNum + 1) s count

end InputStream

/-! The calls of a reader. -/

inductive ReadCall where
  | next
  | backUp (count : Int)
  | skip (count : Int)
  deriving DecidableEq

/-- A stream in use. `pos` is the position the calls so far ask for, and `fresh` the size
    that was returned if the last call was a successful `Next`. -/
structure Reader where
  stream : InputStream
  pos : Int
  fresh : Option Int
  aborted : Bool
  deriving DecidableEq

namespace Reader

def start : Reader := ⟨.start, 0, none, false⟩

/-- One valid call on a stream over `v`. -/
def step (v : IOBuf) (R : Reader) (c : ReadCall) : Option Reader :=
  if R.aborted then none
  else match c with
    | .next =>
      let out := R.stream.next v
      some ⟨out.1, R.pos + (out.2.map Slice.size).getD 0, out.2.map Slice.size, false⟩
    | .backUp count =>
      if 1 ≤ count ∧ R.fresh.any (count ≤ ·) then
        some ((R.stream.backUp v count).elim { R with aborted := true } fun s => ⟨s, R.pos - count, none, false⟩)
      else none
    | .skip count =>
      if 0 ≤ count ∧ count < 2 ^ 31 then
        some ((R.stream.skip v count).elim { R with aborted := true } fun out =>
          ⟨out.1, R.pos + min count (total v.refs - R.pos), none, false⟩)
      else none

end Reader

def readerMachine (v : IOBuf) : Lib.Machine Reader ReadCall where
  init R := R = .start
  next := Reader.step v

/-! Where a stream stands. -/

/-- The buffer is as the source expects it, and the stream can count in its references. -/
structure IOBuf.Readable (v : IOBuf) : Prop where
  shape : v.Shape
  refs : ∀ r ∈ v.refs, 0 < r.length ∧ r.length < 2 ^ 31

theorem IOBuf.Shape.prefAt {v : IOBuf} (hv : v.Shape) (i : Nat) : v.prefAt i = v.refs[i]? := by
  match v, hv with
  | .small none none, _ => rfl
  | .small none (some b), hv => exact absurd (hv rfl) (Option.some_ne_none b)
  | .small (some a) none, _ =>
    cases i with
    | zero => rfl
    | succ i => exact if_neg (Nat.not_lt.mpr (Nat.succ_le_succ (Nat.zero_le i)))
  | .small (some a) (some b), _ =>
    match i with
    | 0 => rfl
    | 1 => rfl
    | i + 2 => exact if_neg (Nat.not_lt.mpr (Nat.succ_le_succ (Nat.succ_le_succ (Nat.zero_le i))))
  | .big bv, _ =>
    by_cases hi : i < bv.nref
    · exact (if_pos hi).trans (BigView.getElem?_all hi).symm
    · refine (if_neg hi).trans (getElem?_eq_none ?_).symm
      rw [IOBuf.refs, BigView.length_all]
      exact Nat.not_lt.mp hi

theorem IOBuf.Shape.length_le {v : IOBuf} (hv : v.Shape) : v.refs.length ≤ 2 ^ 31 := by
  match v, hv with
  | .small r0 r1, _ =>
    have hr0 : r0.toList.length ≤ 1 := by cases r0 <;> simp
    have hr1 : r1.toList.length ≤ 1 := by cases r1 <;> simp
    rw [IOBuf.refs, length_append]
    omega
  | .big bv, hv =>
    have hring : bv.Ok := hv
    rw [IOBuf.refs, BigView.length_all]
    exact Nat.le_trans hring.high hring.cap

/-- The stream has passed the references `done` and `a` bytes of the first of `rest`. -/
structure Stands (v : IOBuf) (s : InputStream) (done rest : List BlockRef) (a : Nat) : Prop where
  split : v.refs = done ++ rest
  index : s.refIndex = int32 done.length
  offset : s.addOffset = a
  inside : ∀ r, rest.head? = some r → a < r.length
  ended : rest = [] → a = 0
  count : s.byteCount = total done + a

namespace Stands

variable {v : IOBuf} {s : InputStream} {done rest : List BlockRef} {r : BlockRef} {a : Nat} {h : Heap}

theorem start (hv : v.Readable) : Stands v .start [] v.refs 0 := by
  refine ⟨rfl, rfl, rfl, fun r hr => ?_, fun _ => rfl, rfl⟩
  exact (hv.refs r (mem_of_mem_head? hr)).1

/-- The index finds the reference the stream stands in; one behind the last of 2^31
    references wraps around and finds nothing either. -/
theorem prefAt (hs : Stands v s done rest a) (hv : v.Readable) : v.prefAt (sizeT s.refIndex) = rest.head? := by
  have hlen := hv.shape.length_le
  rw [hv.shape.prefAt, hs.index]
  have hsplit := hs.split
  rw [hsplit, length_append] at hlen
  rcases Nat.lt_or_ge done.length (2 ^ 31) with hlt | hge
  · have hindex : sizeT (int32 done.length) = done.length := by
      rw [sizeT, int32_of_bounds (by omega) (by omega), Int.emod_eq_of_lt (by omega) (by omega), Int.toNat_natCast]
    rw [hindex, hsplit, getElem?_append_right (Nat.le_refl _), Nat.sub_self, head?_eq_getElem?]
  · have hrest : rest = [] := eq_nil_of_length_eq_zero (by omega)
    have hdone : done.length = 2 ^ 31 := by omega
    have hindex : sizeT (int32 done.length) = 2 ^ 64 - 2 ^ 31 := by
      rw [hdone]
      decide
    rw [hindex, hsplit, hrest, append_nil, getElem?_eq_none (by omega)]
    rfl

section

variable (hs : Stands v s done (r :: rest) a) (hv : v.Readable)

include hs hv

theorem left_eq :
    (uint32 (r.length - s.addOffset) : Int) = r.length - a ∧ int32 (r.length - s.addOffset) = r.length - a ∧ a <
      r.length := by
  have hlt := hs.inside r rfl
  have hshort := (hv.refs r (by rw [hs.split]; simp)).2
  rw [hs.offset]
  exact ⟨uint32_of_bounds (by omega) (by omega), int32_of_bounds (by omega) (by omega), hlt⟩

/-- Stepping over the rest of the current reference. -/
theorem pass : Stands v ⟨int32 (s.refIndex + 1), 0, s.byteCount + (r.length - a)⟩ (done ++ [r]) rest 0 := by
  have hrefs := hs.split
  refine ⟨?_, ?_, rfl, fun r' hr' => ?_, fun _ => rfl, ?_⟩
  · rw [hrefs, append_assoc]
    rfl
  · rw [hs.index, length_append, length_singleton]
    rw [int32, int32, int32, Int.bmod_add_bmod, Nat.cast_add, Nat.cast_one]
  · refine (hv.refs r' ?_).1
    rw [hrefs]
    exact mem_append_right _ (mem_cons_of_mem r (mem_of_mem_head? hr'))
  · show s.byteCount + (r.length - a) = _
    rw [hs.count, total_append, total_cons, total_nil]
    omega

/-- Stepping inside the current reference. -/
theorem within {n : Int} (h0 : 0 ≤ n) (hlt : n < r.length - a) :
    Stands v ⟨s.refIndex, int32 (s.addOffset + n), s.byteCount + n⟩ done (r :: rest) (a + n.toNat) := by
  have hshort := (hv.refs r (by rw [hs.split]; simp)).2
  refine ⟨hs.split, hs.index, ?_, fun r' hr' => ?_, fun hnil => absurd hnil (cons_ne_nil r rest), ?_⟩
  · show int32 (s.addOffset + n) = _
    rw [hs.offset, int32_of_bounds (by omega) (by omega)]
    omega
  · obtain rfl := Option.some.inj hr'
    omega
  · show s.byteCount + n = _
    rw [hs.count]
    omega

/-- `Next` hands out the rest of the current reference and passes it. -/
theorem next :
    s.next v =
      (⟨int32 (s.refIndex + 1), 0, s.byteCount + (r.length - a)⟩, some ⟨r.block, r.offset + a, r.length - a⟩) := by
  obtain ⟨hleft, -, hlt⟩ := hs.left_eq hv
  have hshort := (hv.refs r (by rw [hs.split]; simp)).2
  rw [InputStream.next, hs.prefAt hv, head?_cons]
  dsimp only
  rw [hleft, hs.offset, int32_of_bounds (x := (r.length : Int) - a) (by omega) (by omega)]

end

theorem next_none (hs : Stands v s done [] a) (hv : v.Readable) : s.next v = (s, none) := by
  rw [InputStream.next, hs.prefAt hv]
  rfl

/-- What `Next` hands out is the slice of the content at the stream's position. -/
theorem slice (hs : Stands v s done (r :: rest) a) (hf : Fits h v.refs) :
    Slice.read h ⟨r.block, r.offset + a, r.length - a⟩ =
      ((bytes h v.refs).drop (total done + a)).take (r.length - a) := by
  have hlt := hs.inside r rfl
  rw [hs.split] at hf ⊢
  obtain ⟨b, hb, -⟩ := hf r (by simp)
  have hread : Slice.read h ⟨r.block, r.offset + a, r.length - a⟩ =
      readRef h { r with offset := r.offset + a } (r.length - a) := by
    rw [Slice.read, readRef]
    dsimp only
    rw [hb, ← Nat.cast_sub (Nat.le_of_lt hlt), Int.toNat_natCast]
    apply map_congr_left
    intro i _
    rw [← Nat.cast_add, ← Nat.cast_add, Int.toNat_natCast]
  have hsplit : readRef h r r.length = readRef h r a ++ readRef h { r with offset := r.offset + a } (r.length - a) := by
    rw [← readRef_split hb, Nat.add_sub_cancel' (Nat.le_of_lt hlt)]
  have hlen : (readRef h { r with offset := r.offset + a } (r.length - a)).length = r.length - a :=
    length_readRef (r := { r with offset := r.offset + a }) hb _
  rw [hread, bytes_append, bytes_cons, hsplit, append_assoc, ← append_assoc, drop_left', take_left' hlen]
  rw [length_append, hf.left.length_bytes, length_readRef hb]

/-- `Skip` walks on by `n` bytes or to the end. -/
theorem skipLoop : ∀ {rest : List BlockRef} {fuel : Nat} {s : InputStream} {done : List BlockRef} {a : Nat} {n : Int},
    Stands v s done rest a → v.Readable → rest.length < fuel → 0 ≤ n → n < 2 ^ 31 →
    ∃ s' ok done' rest' a', s.skipLoop v fuel n = some (s', ok) ∧ Stands v s' done' rest' a' ∧
      s'.byteCount = s.byteCount + min n (total rest - a) ∧ (ok → n ≤ total rest - a)
  | _, 0, _, _, _, _, _, _, hfuel, _, _ => absurd hfuel (Nat.not_lt_zero _)
  | [], fuel + 1, s, done, a, n, hs, hv, _, h0, _ => by
    refine ⟨s, false, done, [], a, ?_, hs, ?_, fun hok => absurd hok Bool.false_ne_true⟩
    · rw [InputStream.skipLoop, hs.prefAt hv]
      rfl
    · rw [hs.ended rfl, total_nil]
      omega
  | r :: rest, fuel + 1, s, done, a, n, hs, hv, hfuel, h0, hn => by
    obtain ⟨-, hleft, hlt⟩ := hs.left_eq hv
    have hshort := (hv.refs r (by rw [hs.split]; simp)).2
    rw [InputStream.skipLoop, hs.prefAt hv, head?_cons]
    dsimp only
    rw [hleft, total_cons]
    by_cases hin : n < r.length - a
    · rw [if_pos hin]
      refine ⟨_, true, done, r :: rest, _, rfl, hs.within hv h0 hin, ?_, fun _ => by omega⟩
      show s.byteCount + n = _
      omega
    · rw [if_neg hin, int32_of_bounds (x := n - (r.length - a)) (by omega) (by omega)]
      obtain ⟨s', ok, done', rest', a', heq, hs', hcount, hok⟩ :=
        skipLoop (n := n - (r.length - a)) (hs.pass hv) hv (Nat.lt_of_succ_lt_succ hfuel) (by omega) (by omega)
      refine ⟨s', ok, done', rest', a', heq, hs', ?_, fun h => ?_⟩
      · rw [hcount]
        show s.byteCount + (r.length - a) + _ = _
        omega
      · have := hok h
        omega

end Stands

/-! The law of a cursor. -/

/-- The invariant of a stream that has not aborted: it stands at the position the calls ask
    for, and directly after `Next` it stands right behind what was handed out. -/
structure Reading (v : IOBuf) (R : Reader) (done rest : List BlockRef) (a : Nat) : Prop where
  stands : Stands v R.stream done rest a
  pos : R.pos = total done + a
  fresh : ∀ m, R.fresh = some m → ∃ passed r, done = passed ++ [r] ∧ a = 0 ∧ m ≤ r.length

namespace Reading

variable {v : IOBuf} {R R' : Reader} {done rest : List BlockRef} {a : Nat} {h : Heap}

/-- `total` of what is ahead. -/
theorem remaining (hr : Reading v R done rest a) : (total v.refs : Int) - R.pos = total rest - a := by
  rw [hr.pos, hr.stands.split, total_append]
  omega

section

variable (hr : Reading v R done rest a) (hv : v.Readable)

include hr hv

theorem next (ha : R.aborted = false) (hn : R.step v .next = some R') :
    R'.aborted = false ∧ ∃ done' rest' a', Reading v R' done' rest' a' := by
  rw [Reader.step, ha, if_neg Bool.false_ne_true] at hn
  cases rest with
  | nil =>
    dsimp only at hn
    rw [hr.stands.next_none hv] at hn
    cases hn
    refine ⟨rfl, done, [], a, hr.stands, ?_, fun m hm => absurd hm.symm (Option.some_ne_none m)⟩
    show R.pos + 0 = _
    rw [Int.add_zero, hr.pos]
  | cons r rest =>
    dsimp only at hn
    rw [hr.stands.next hv] at hn
    cases hn
    refine ⟨rfl, done ++ [r], rest, 0, hr.stands.pass hv, ?_, fun m hm => ⟨done, r, rfl, rfl, ?_⟩⟩
    · show R.pos + (r.length - a) = _
      rw [hr.pos, total_append, total_cons, total_nil]
      omega
    · cases hm
      show (r.length : Int) - a ≤ r.length
      omega

theorem skip {n : Int} (h0 : 0 ≤ n) (hn : n < 2 ^ 31) :
    ∃ s' ok done' rest' a', R.stream.skip v n = some (s', ok) ∧ Stands v s' done' rest' a' ∧ s'.byteCount = R.pos + min
      n (total v.refs - R.pos) ∧ (ok → n ≤ total v.refs - R.pos) := by
  have hnum : v.refNum = v.refs.length := by
    match v, hv.shape with
    | .small r0 r1, _ => cases r0 <;> cases r1 <;> rfl
    | .big bv, _ => exact (BigView.length_all bv).symm
  have hfuel : rest.length < v.refNum + 1 := by
    rw [hnum, hr.stands.split, length_append]
    omega
  obtain ⟨s', ok, done', rest', a', heq, hs', hcount, hok⟩ := hr.stands.skipLoop hv hfuel h0 hn
  refine ⟨s', ok, done', rest', a', heq, hs', ?_, fun h => ?_⟩
  · rw [hcount, hr.remaining, hr.stands.count, hr.pos]
  · rw [hr.remaining]
    exact hok h

/-- The check of `BackUp` is the wrong way round: it holds of every valid call. -/
theorem backUp {c m : Int} (hm : R.fresh = some m) (hc : 1 ≤ c) (hle : c ≤ m) : R.stream.backUp v c = none := by
  obtain ⟨passed, r, rfl, rfl, hlen⟩ := hr.fresh m hm
  have hs := hr.stands
  rw [InputStream.backUp]
  split
  case isFalse => rfl
  case isTrue hpos =>
    have hrefs := hs.split
    have hcount := hv.shape.length_le
    have hshort := (hv.refs r (by rw [hrefs]; simp)).2
    rw [hrefs] at hcount
    simp only [length_append, length_singleton] at hcount
    -- an index that wrapped around would be negative
    have hlt : passed.length + 1 < 2 ^ 31 := by
      by_contra hge
      have heq : passed.length + 1 = 2 ^ 31 := by omega
      rw [hs.index, length_append, length_singleton, heq] at hpos
      exact absurd hpos (by decide)
    have hindex : R.stream.refIndex = passed.length + 1 := by
      rw [hs.index, length_append, length_singleton, int32_of_bounds (by omega) (by omega), Nat.cast_add,
        Nat.cast_one]
    have hat : sizeT (R.stream.refIndex - 1) = passed.length := by
      rw [hindex, Int.add_sub_cancel, sizeT, Int.emod_eq_of_lt (by omega) (by omega), Int.toNat_natCast]
    have hcast : (uint32 c : Int) = c := uint32_of_bounds (by omega) (by omega)
    rw [hat, hv.shape.prefAt, hrefs, append_assoc, getElem?_append_right (Nat.le_refl _), Nat.sub_self]
    exact if_pos ⟨hs.offset, by omega⟩

end

end Reading

/-- What holds of a stream between two calls: it has not aborted, `ByteCount` is the
    position, `Next` returns false exactly at the end and hands out the slice at the position
    otherwise, and `Skip` advances by `n` or to the end. -/
structure CursorLaw (h : Heap) (v : IOBuf) (R : Reader) : Prop where
  alive : R.aborted = false
  count : R.stream.byteCount = R.pos
  bounds : 0 ≤ R.pos ∧ R.pos ≤ total v.refs
  ended : (R.stream.next v).2 = none ↔ R.pos = total v.refs
  next : ∀ p, (R.stream.next v).2 = some p → 0 < p.size ∧ R.pos + p.size ≤ total v.refs ∧
    p.read h = ((bytes h v.refs).drop R.pos.toNat).take p.size.toNat
  skip : ∀ n, 0 ≤ n → n < 2 ^ 31 → ∃ s ok, R.stream.skip v n = some (s, ok) ∧
    s.byteCount = R.pos + min n (total v.refs - R.pos) ∧ (ok = true → n ≤ total v.refs - R.pos)

theorem Reading.law {h : Heap} {v : IOBuf} {R : Reader} {done rest : List BlockRef} {a : Nat}
    (hr : Reading v R done rest a) (hv : v.Readable) (hf : Fits h v.refs) (ha : R.aborted = false) :
    CursorLaw h v R := by
  have hs := hr.stands
  have hahead := hr.remaining
  have hpos := hr.pos
  have hle : a ≤ total rest := by
    cases rest with
    | nil => exact Nat.le_of_eq (hs.ended rfl)
    | cons r rest =>
      have := hs.inside r rfl
      rw [total_cons]
      omega
  refine ⟨ha, hs.count.trans hpos.symm, ⟨by omega, by omega⟩, ?_, fun p hp => ?_, fun n h0 hn => ?_⟩
  · cases rest with
    | nil =>
      have := hs.ended rfl
      rw [hs.next_none hv]
      rw [total_nil] at hahead
      exact ⟨fun _ => by omega, fun _ => rfl⟩
    | cons r rest =>
      have := hs.inside r rfl
      rw [hs.next hv]
      rw [total_cons] at hahead
      exact ⟨fun h => absurd h (Option.some_ne_none _), fun h => by omega⟩
  · cases rest with
    | nil =>
      rw [hs.next_none hv] at hp
      exact absurd hp.symm (Option.some_ne_none p)
    | cons r rest =>
      have hin := hs.inside r rfl
      rw [hs.next hv] at hp
      cases hp
      rw [total_cons] at hahead
      refine ⟨by dsimp only; omega, by dsimp only; omega, ?_⟩
      have hat : R.pos.toNat = total done + a := by omega
      have hsize : ((r.length : Int) - a).toNat = r.length - a := by omega
      rw [hat, hsize]
      exact hs.slice hf
  · obtain ⟨s', ok, _, _, _, heq, -, hcount, hok⟩ := hr.skip hv h0 hn
    exact ⟨s', ok, heq, hcount, hok⟩

/-- One call keeps the invariant, unless it is `BackUp`: that one aborts. -/
theorem reader_step {v : IOBuf} {R R' : Reader} {c : ReadCall} {done rest : List BlockRef} {a : Nat} (hv : v.Readable)
    (hr : Reading v R done rest a) (ha : R.aborted = false) (hn : R.step v c = some R') :
    (R'.aborted ∧ ∃ n, c = .backUp n) ∨
      ((∀ n, c ≠ .backUp n) ∧ R'.aborted = false ∧ ∃ done' rest' a', Reading v R' done' rest' a') := by
  cases c with
  | next => exact .inr ⟨fun n => nofun, hr.next hv ha hn⟩
  | backUp n =>
    left
    rw [Reader.step, ha, if_neg Bool.false_ne_true] at hn
    obtain ⟨hvalid, heq⟩ := Option.ite_none_right_eq_some.mp hn
    cases hm : R.fresh with
    | none =>
      rw [hm] at hvalid
      exact absurd hvalid.2 Bool.false_ne_true
    | some m =>
      rw [hm] at hvalid
      have hle : n ≤ m := of_decide_eq_true hvalid.2
      rw [hr.backUp hv hm hvalid.1 hle] at heq
      cases heq
      exact ⟨rfl, n, rfl⟩
  | skip n =>
    right
    rw [Reader.step, ha, if_neg Bool.false_ne_true] at hn
    obtain ⟨hvalid, heq⟩ := Option.ite_none_right_eq_some.mp hn
    obtain ⟨s', ok, done', rest', a', hskip, hs', hcount, -⟩ := hr.skip hv hvalid.1 hvalid.2
    rw [hskip] at heq
    cases heq
    refine ⟨fun n => nofun, rfl, done', rest', a', hs', ?_, fun m hm => absurd hm.symm (Option.some_ne_none m)⟩
    exact hcount.symm.trans hs'.count

/-- A stream aborts exactly when `BackUp` is called, and obeys the law until then. -/
theorem cursor_law_until_backUp {h : Heap} {v : IOBuf} {tr : List ReadCall} {R : Reader} (hv : v.Readable)
    (hf : Fits h v.refs) (hrun : (readerMachine v).Run tr R) :
    (R.aborted = true ↔ ∃ n, ReadCall.backUp n ∈ tr) ∧
      ((∀ n, ReadCall.backUp n ∉ tr) → CursorLaw h v R) := by
  have hinv : (R.aborted = true ∧ ∃ n, ReadCall.backUp n ∈ tr) ∨
      ((∀ n, ReadCall.backUp n ∉ tr) ∧ R.aborted = false ∧ ∃ done rest a, Reading v R done rest a) := by
    apply hrun.invariant (I := fun tr R => (R.aborted = true ∧ ∃ n, ReadCall.backUp n ∈ tr) ∨
      ((∀ n, ReadCall.backUp n ∉ tr) ∧ R.aborted = false ∧ ∃ done rest a, Reading v R done rest a))
    · rintro R rfl
      exact .inr ⟨fun n => List.not_mem_nil, rfl, [], v.refs, 0, .start hv, rfl,
        fun m hm => absurd hm.symm (Option.some_ne_none m)⟩
    · intro tr R c R' _ ih hn
      rcases ih with ⟨ha, -⟩ | ⟨hno, ha, done, rest, a, hr⟩
      · have hdead : R.step v c = none := if_pos ha
        rw [show (readerMachine v).next R c = none from hdead] at hn
        exact absurd hn.symm (Option.some_ne_none R')
      · rcases reader_step hv hr ha hn with ⟨ha', n, rfl⟩ | ⟨hc, ha', hr'⟩
        · exact .inl ⟨ha', n, by simp⟩
        · refine .inr ⟨fun n hmem => ?_, ha', hr'⟩
          rcases List.mem_append.mp hmem with hmem | hmem
          · exact hno n hmem
          · exact hc n (List.mem_singleton.mp hmem).symm
  rcases hinv with ⟨ha, hex⟩ | ⟨hno, ha, done, rest, a, hr⟩
  · refine ⟨⟨fun _ => hex, fun _ => ha⟩, fun hno => ?_⟩
    obtain ⟨n, hn⟩ := hex
    exact absurd hn (hno n)
  · refine ⟨⟨fun h => ?_, fun ⟨n, hn⟩ => absurd hn (hno n)⟩, fun _ => hr.law hv hf ha⟩
    rw [ha] at h
    exact absurd h Bool.false_ne_true

/-- A buffer of two and three bytes in two blocks. -/
def fiveBytes : IOBuf := .small (some ⟨0, 2, 0⟩) (some ⟨4, 3, 1⟩)

def fiveBytesHeap : Heap := (Lib.RefCount.Store.empty.alloc ⟨false, 2, 8160, fun _ => 7⟩).alloc ⟨false, 7, 8160, fun _ => 8⟩

theorem fiveBytes_readable : fiveBytes.Readable := ⟨nofun, by decide⟩

theorem fiveBytes_fits : Fits fiveBytesHeap fiveBytes.refs := by
  intro r hr
  rcases mem_cons.mp hr with rfl | hr
  · exact ⟨_, rfl, Nat.le_refl 2⟩
  · rw [mem_singleton.mp hr]
    exact ⟨_, rfl, Nat.le_refl 7⟩

/-- Skipping into the second block, reading the rest, and finding the end. -/
theorem fiveBytes_law : ∃ R, (readerMachine fiveBytes).Run [.next, .skip 1, .next, .next] R ∧
    CursorLaw fiveBytesHeap fiveBytes R := by
  have hrun : ∃ R, (readerMachine fiveBytes).Run [.next, .skip 1, .next, .next] R ∧ R.pos = 5 :=
    Lib.Machine.exists_run (M := readerMachine fiveBytes) (s := Reader.start) rfl (by decide)
  obtain ⟨R, hrun, -⟩ := hrun
  exact ⟨R, hrun, (cursor_law_until_backUp fiveBytes_readable fiveBytes_fits hrun).2 (by simp)⟩

/-- A buffer of two bytes in one block. -/
def twoBytes : IOBuf := .small (some ⟨0, 2, 0⟩) none

/-- `BackUp(1)` directly after a `Next` that returned two bytes aborts. -/
theorem valid_backUp_aborts : twoBytes.Readable ∧
    ∃ R, (readerMachine twoBytes).Run [.next, .backUp 1] R ∧ R.aborted = true :=
  ⟨⟨nofun, by decide⟩, Lib.Machine.exists_run (M := readerMachine twoBytes) (s := Reader.start) rfl (by decide)⟩

end LightRpc.IOBuffer

import LightRpc.IOBufTls

/- The operations on one buffer and on two, as calls.

   Each call comes with its meaning on byte lists (`Unop.bytes`, `Unop.out`, `Binop.bytes`)
   and the room it needs: sizes and numbers of references have 32 bits, and an offset of 2^31
   or more is taken for the tag of a big view. `Unop.run_spec` and `Binop.run_spec` say that
   the call returns, keeps the views well formed and the counts exact, and means what it should. -/
namespace LightRpc.IOBuffer

open Lib.RefCount

variable {h h' : Heap} {c c' : Ctx} {v v' u u' : IOBuf} {F : Multiset BlockId}

instance (rs : List BlockRef) (n k : Nat) : Decidable (Spare rs n k) :=
  decidable_of_iff ((rs.length < 3 → total rs + n < 2 ^ 32) ∧ total rs + n < 2 ^ 64 ∧ rs.length + k ≤ 2 ^ 31)
    ⟨fun ⟨h1, h2, h3⟩ => ⟨h1, h2, h3⟩, fun h => ⟨h.small, h.bytes, h.refs⟩⟩

/-! One buffer. -/

inductive Unop where
  | append (data : List UInt8)
  | pushBack (x : UInt8)
  | appendUserData (data : Nat → UInt8) (size : Nat)
  | resize (n : Nat) (x : UInt8)
  | popFront (n : Nat)
  | popBack (n : Nat)
  | cutnMem (n : Nat)
  | cut1
  | clear

namespace Unop

/-- The call, with whether it succeeded and the bytes copied to the caller's memory. -/
def run (c : Ctx) (v : IOBuf) : Unop → Option (Ctx × IOBuf × Bool × List UInt8)
  | append data => (IOBuffer.append c v data).map fun s => (s.1, s.2.1, s.2.2, [])
  | pushBack x => let s := IOBuffer.pushBack c v x; some (s.1, s.2.1, s.2.2, [])
  | appendUserData data n => (IOBuffer.appendUserData c v data n).map fun s => (s.1, s.2.1, s.2.2, [])
  | resize n x => (IOBuffer.resize c v n x).map fun s => (s.1, s.2.1, s.2.2, [])
  | popFront n => (IOBuffer.popFront c.heap v n).map fun s => (c.setHeap s.1, s.2.1, true, [])
  | popBack n => (IOBuffer.popBack c.heap v n).map fun s => (c.setHeap s.1, s.2.1, true, [])
  | cutnMem n => (IOBuffer.cutnMem c.heap v n).map fun s => (c.setHeap s.1, s.2.1, true, s.2.2)
  | cut1 => let s := IOBuffer.cut1 c.heap v; some (c.setHeap s.1, s.2.1, true, s.2.2)
  | clear => let s := IOBuffer.clear c.heap v; some (c.setHeap s.1, s.2, true, [])

/-- What a successful call makes of the bytes of the buffer. -/
def bytes (xs : List UInt8) : Unop → List UInt8
  | append data => xs ++ data
  | pushBack x => xs ++ [x]
  | appendUserData data n => xs ++ (List.range n).map data
  | resize n x => if n < xs.length then xs.take n else xs ++ List.replicate (n - xs.length) x
  | popFront n => xs.drop n
  | popBack n => xs.take (xs.length - n)
  | cutnMem n => xs.drop n
  | cut1 => xs.drop 1
  | clear => []

/-- What it copies out. -/
def out (xs : List UInt8) : Unop → List UInt8
  | cutnMem n => xs.take n
  | cut1 => xs.take 1
  | _ => []

/-- The buffer has room for what the call appends. -/
def Room (v : IOBuf) : Unop → Prop
  | append data => Spare v.refs data.length data.length
  | pushBack _ => Spare v.refs 1 1
  | appendUserData _ n => n < 2 ^ 31 ∧ Spare v.refs n 1
  | resize n _ => Spare v.refs (n - total v.refs) (n - total v.refs)
  | _ => True

instance (v : IOBuf) : DecidablePred (Room v)
  | append data => inferInstanceAs (Decidable (Spare v.refs data.length data.length))
  | pushBack _ => inferInstanceAs (Decidable (Spare v.refs 1 1))
  | appendUserData _ n => inferInstanceAs (Decidable (n < 2 ^ 31 ∧ Spare v.refs n 1))
  | resize n _ => inferInstanceAs (Decidable (Spare v.refs (n - total v.refs) (n - total v.refs)))
  | popFront _ | popBack _ | cutnMem _ | cut1 | clear => .isTrue trivial

/-- What the call returns, and what it did. -/
def Meets (o : Unop) (c : Ctx) (v : IOBuf) (F : Multiset BlockId) : Prop :=
  ∃ c' v' ok out f, o.run c v = some (c', v', ok, out) ∧ Unary c v F c' v' f ∧
    (ok = true → Fits c.heap v.refs →
      IOBuffer.bytes c'.heap v'.refs = o.bytes (IOBuffer.bytes c.heap v.refs) ∧
        out = o.out (IOBuffer.bytes c.heap v.refs))

/-- A call that only takes bytes off. -/
theorem meets_of_edit {o : Unop} {out : List UInt8} {rs : List BlockRef} {f : List UInt8 → List UInt8}
    (heq : o.run c v = some (c.setHeap h', v', true, out))
    (he : Edit c.heap v (↑c.tls.chain + F) h' v' rs) (hs : Sound c.heap)
    (hex : Exact c.heap (blocks v.refs + (↑c.tls.chain + F)))
    (hb : Fits c.heap v.refs → Fits c.heap rs ∧ IOBuffer.bytes c.heap rs = f (IOBuffer.bytes c.heap v.refs))
    (hf : Fits c.heap v.refs → f (IOBuffer.bytes c.heap v.refs) = o.bytes (IOBuffer.bytes c.heap v.refs) ∧
      out = o.out (IOBuffer.bytes c.heap v.refs)) : o.Meets c v F := by
  have hu := he.unary hs hex hb
  refine ⟨_, v', true, out, f, heq, hu, fun _ hfits => ⟨?_, (hf hfits).2⟩⟩
  rw [(hu.bytes hfits).2]
  exact (hf hfits).1

theorem drop_min (xs : List UInt8) (n : Nat) : xs.drop (min n xs.length) = xs.drop n := by
  rw [List.drop_eq_drop_iff]
  omega

theorem take_min (xs : List UInt8) (n : Nat) : xs.take (min n xs.length) = xs.take n := by
  rw [List.take_eq_take_iff]
  omega

section Calls

variable (hv : v.Ok) (hex : Exact c.heap (blocks v.refs + (↑c.tls.chain + F))) (hs : Sound c.heap)

include hv hex hs

theorem append_meets {data : List UInt8} (hroom : Spare v.refs data.length data.length) :
    (append data).Meets c v F := by
  obtain ⟨c', v', ok, done, heq, hu, -, hdone⟩ := append_spec hv hex hs hroom
  refine ⟨c', v', ok, [], _, ?_, hu, fun hok hf => ⟨?_, rfl⟩⟩
  · rw [run, heq]
    rfl
  · rw [(hu.bytes hf).2, hdone hok]
    rfl

theorem pushBack_meets {x : UInt8} (hroom : Spare v.refs 1 1) : (pushBack x).Meets c v F := by
  obtain ⟨c', v', ok, done, heq, happ, hdone⟩ := pushBack_spec (x := x) hv hex hs hroom
  refine ⟨c', v', ok, [], _, ?_, happ.unary, fun hok hf => ⟨?_, rfl⟩⟩
  · rw [run, heq]
  · rw [if_pos hok] at hdone
    rw [(happ.bytes hf).2, hdone]
    rfl

theorem appendUserData_meets {data : Nat → UInt8} {n : Nat} (hroom : n < 2 ^ 31 ∧ Spare v.refs n 1) :
    (appendUserData data n).Meets c v F := by
  obtain ⟨c', v', ok, heq, hu⟩ := appendUserData_spec hv hex hs data hroom.1 hroom.2
  refine ⟨c', v', ok, [], _, ?_, hu, fun hok hf => ⟨?_, rfl⟩⟩
  · rw [run, heq]
    rfl
  · rw [(hu.bytes hf).2, if_pos hok]
    rfl

theorem resize_meets {n : Nat} {x : UInt8} (hroom : Spare v.refs (n - total v.refs) (n - total v.refs)) :
    (resize n x).Meets c v F := by
  obtain ⟨c', v', ok, f, heq, hu, hf'⟩ := resize_spec (x := x) hv hex hs hroom
  refine ⟨c', v', ok, [], f, ?_, hu, fun hok hf => ⟨?_, rfl⟩⟩
  · rw [run, heq]
    rfl
  · rw [(hu.bytes hf).2, hf' hok, bytes, hf.length_bytes]
    split <;> rfl

theorem popFront_meets {n : Nat} : (popFront n).Meets c v F := by
  obtain ⟨h', v', rs, heq, he, hb⟩ := popFront_spec hv hex n
  refine meets_of_edit (f := (List.drop n ·)) ?_ he hs hex hb (fun _ => ⟨rfl, rfl⟩)
  rw [run, heq]
  rfl

theorem popBack_meets {n : Nat} : (popBack n).Meets c v F := by
  obtain ⟨h', v', rs, heq, he, hb⟩ := popBack_spec hv hex n
  refine meets_of_edit (f := (List.take (total v.refs - n) ·)) ?_ he hs hex hb (fun hf => ⟨?_, rfl⟩)
  · rw [run, heq]
    rfl
  · rw [← hf.length_bytes]
    rfl

theorem cutnMem_meets {n : Nat} : (cutnMem n).Meets c v F := by
  obtain ⟨h', v', heq, he⟩ := cutnMem_spec hv hex n
  have hrun : (cutnMem n).run c v =
      some (c.setHeap h', v', true, IOBuffer.bytes c.heap (takeRefs v.refs (min n (total v.refs)))) := by
    rw [run, heq]
    rfl
  refine meets_of_edit (f := (List.drop (min n (total v.refs)) ·)) hrun he hs hex
    (fun hf => bytes_dropRefs hv.refs hf) (fun hf => ?_)
  rw [(bytes_takeRefs hf).2, ← hf.length_bytes, take_min]
  exact ⟨drop_min _ n, rfl⟩

theorem cut1_meets : cut1.Meets c v F := by
  rcases cut1_spec hv hex with ⟨hnil, heq⟩ | ⟨r, rs, hrefs, hout, he⟩
  · have hrun : cut1.run c v = some (c.setHeap c.heap, v, true, []) := by
      rw [run, heq]
    refine meets_of_edit (f := id) hrun (.refl hv hex) hs hex (fun hf => ⟨hf, rfl⟩) (fun _ => ?_)
    rw [hnil]
    exact ⟨rfl, rfl⟩
  · have hrun : cut1.run c v = some (c.setHeap (IOBuffer.cut1 c.heap v).1, (IOBuffer.cut1 c.heap v).2.1, true,
        readRef c.heap r 1) := by
      rw [run, ← hout]
    refine meets_of_edit (f := (List.drop 1 ·)) hrun he hs hex (fun hf => bytes_dropRefs hv.refs hf)
      (fun hf => ⟨rfl, ?_⟩)
    have hpos := (hv.refs r (by rw [hrefs]; exact List.mem_cons_self)).nonempty
    rw [hrefs] at hf ⊢
    have htake := (bytes_takeRefs (n := 1) hf).2
    rw [takeRefs, if_neg Nat.one_ne_zero] at htake
    show _ = List.take 1 _
    rw [← htake]
    split
    · rename_i hle
      have hone : r.length = 1 := by omega
      rw [hone, Nat.sub_self, takeRefs_zero, bytes_cons, bytes_nil, List.append_nil, hone]
    · rw [bytes_cons, bytes_nil, List.append_nil]
      rfl

theorem clear_meets : clear.Meets c v F :=
  meets_of_edit (f := fun _ => []) rfl (.clear hv hex) hs hex
    (fun _ => ⟨fun _ hr => absurd hr List.not_mem_nil, rfl⟩) (fun _ => ⟨rfl, rfl⟩)

/-- Every call on a buffer that has room for it returns and does what it means. -/
theorem run_spec (o : Unop) (hroom : o.Room v) : o.Meets c v F := by
  cases o with
  | append data => exact append_meets hv hex hs hroom
  | pushBack x => exact pushBack_meets hv hex hs hroom
  | appendUserData data n => exact appendUserData_meets hv hex hs hroom
  | resize n x => exact resize_meets hv hex hs hroom
  | popFront n => exact popFront_meets hv hex hs
  | popBack n => exact popBack_meets hv hex hs
  | cutnMem n => exact cutnMem_meets hv hex hs
  | cut1 => exact cut1_meets hv hex hs
  | clear => exact clear_meets hv hex hs

end Calls

end Unop

/-! Two buffers. -/

inductive Binop where
  | appendBuf
  | appendMovable
  | cutn (n : Nat)
  | assign
  | swap

namespace Binop

def run (h : Heap) (v u : IOBuf) : Binop → Option (Heap × IOBuf × IOBuf)
  | appendBuf => let s := IOBuffer.appendBuf h v u; some (s.1, s.2, u)
  | appendMovable => some (IOBuffer.appendMovable h v u)
  | cutn n => (IOBuffer.cutn h v u n).map fun s => (s.1, s.2.1, s.2.2.1)
  | assign => let s := IOBuffer.assign h v u; some (s.1, s.2, u)
  | swap => some (h, u, v)

/-- What the call makes of the bytes of both buffers. -/
def bytes (xs ys : List UInt8) : Binop → List UInt8 × List UInt8
  | appendBuf => (xs ++ ys, ys)
  | appendMovable => (xs ++ ys, [])
  | cutn n => (xs.drop n, ys ++ xs.take n)
  | assign => (ys, ys)
  | swap => (ys, xs)

def Room (v u : IOBuf) : Binop → Prop
  | appendBuf | appendMovable => Spare v.refs (total u.refs) u.refs.length
  | cutn n => Spare u.refs (min n (total v.refs)) (takeRefs v.refs (min n (total v.refs))).length
  | _ => True

instance (v u : IOBuf) : DecidablePred (Room v u)
  | appendBuf | appendMovable => inferInstanceAs (Decidable (Spare v.refs (total u.refs) u.refs.length))
  | cutn n => inferInstanceAs (Decidable (Spare u.refs (min n (total v.refs))
      (takeRefs v.refs (min n (total v.refs))).length))
  | assign | swap => .isTrue trivial

end Binop

/-- An operation on two buffers that moves references about and maps the bytes by `f`. -/
structure Binary (h : Heap) (v u : IOBuf) (F : Multiset BlockId) (h' : Heap) (v' u' : IOBuf)
    (f : List UInt8 → List UInt8 → List UInt8 × List UInt8) : Prop where
  ok : v'.Ok
  ok' : u'.Ok
  count : Recount h (blocks v.refs + (blocks u.refs + F)) h' (blocks v'.refs + (blocks u'.refs + F))
  bytes : Fits h v.refs → Fits h u.refs → Fits h' v'.refs ∧ Fits h' u'.refs ∧
    (bytes h' v'.refs, bytes h' u'.refs) = f (bytes h v.refs) (bytes h u.refs)

theorem Edit2.binary {rs us : List BlockRef} {f : List UInt8 → List UInt8 → List UInt8 × List UInt8}
    (e : Edit2 h v u F h' v' u' rs us) (hb : Fits h v.refs → Fits h u.refs → Fits h rs ∧ Fits h us ∧
      (bytes h rs, bytes h us) = f (bytes h v.refs) (bytes h u.refs)) : Binary h v u F h' v' u' f := by
  have hleft := Recount.payload e.count (fun r hr => Multiset.mem_add.mpr (.inl (mem_blocks hr)))
  have hright := Recount.payload e.count
    (fun r hr => Multiset.mem_add.mpr (.inr (Multiset.mem_add.mpr (.inl (mem_blocks hr)))))
  refine ⟨e.ok, e.ok', ?_, fun hv hu => ?_⟩
  · rw [e.refs, e.refs']
    exact e.count
  · obtain ⟨hf, hf', heq⟩ := hb hv hu
    rw [e.refs, e.refs', bytes_congr hleft, bytes_congr hright]
    exact ⟨hf.congr hleft, hf'.congr hright, heq⟩

/-- An operation on one of the buffers that only reads the other. -/
theorem Edit.binary {rs : List BlockRef} {f : List UInt8 → List UInt8 → List UInt8 × List UInt8} (hu : u.Ok)
    (e : Edit h v (blocks u.refs + F) h' v' rs)
    (hb : Fits h v.refs → Fits h u.refs → Fits h rs ∧ (bytes h rs, bytes h u.refs) = f (bytes h v.refs) (bytes h u.refs)) :
    Binary h v u F h' v' u f :=
  Edit2.binary ⟨e.refs, rfl, e.ok, hu, e.count⟩ fun hv hf => ⟨(hb hv hf).1, hf, (hb hv hf).2⟩

theorem Binop.run_spec (o : Binop) (hv : v.Ok) (hu : u.Ok) (hroom : o.Room v u)
    (hex : Exact h (blocks v.refs + (blocks u.refs + F))) :
    ∃ h' v' u', o.run h v u = some (h', v', u') ∧ Binary h v u F h' v' u' o.bytes := by
  cases o with
  | appendBuf =>
    refine ⟨_, _, _, rfl, (appendBuf_spec hv hu hex hroom).binary hu fun hf hf' => ?_⟩
    obtain ⟨hfits, hbytes⟩ := bytes_pushAll hv.refs hu.refs hf hf'
    exact ⟨hfits, congrArg (·, IOBuffer.bytes h u.refs) hbytes⟩
  | appendMovable =>
    obtain ⟨rs, he, hb⟩ := appendMovable_spec hv hu hex hroom
    refine ⟨_, _, _, rfl, he.binary fun hf hf' => ⟨(hb hf hf').1, fun _ hr => absurd hr List.not_mem_nil, ?_⟩⟩
    exact congrArg (·, []) (hb hf hf').2
  | cutn n =>
    obtain ⟨h', v', u', heq, he⟩ := cutn_spec hv hu hroom hex
    refine ⟨h', v', u', ?_, he.binary fun hf hf' => ?_⟩
    · rw [run, heq]
      rfl
    · obtain ⟨hdrop, hdropped⟩ := bytes_dropRefs (n := min n (total v.refs)) hv.refs hf
      obtain ⟨htake, htaken⟩ := bytes_takeRefs (n := min n (total v.refs)) hf
      obtain ⟨hpush, hpushed⟩ := bytes_pushAll hu.refs (takeRefs_ok hv.refs (Nat.min_le_right n _)).1 hf' htake
      refine ⟨hdrop, hpush, ?_⟩
      rw [hdropped, hpushed, htaken, ← hf.length_bytes, Unop.drop_min, Unop.take_min]
      rfl
  | assign =>
    exact ⟨_, _, _, rfl, (assign_edit hv hu hex).binary hu fun _ hf' => ⟨hf', rfl⟩⟩
  | swap =>
    refine ⟨_, _, _, rfl, hu, hv, ?_, fun hf hf' => ⟨hf', hf, rfl⟩⟩
    rw [add_left_comm (blocks u.refs)]
    exact .refl hex

end LightRpc.IOBuffer

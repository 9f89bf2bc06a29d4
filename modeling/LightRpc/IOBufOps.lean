import LightRpc.IOBufViews

/- The operations that only move references: what they do to the list of references, to
   the counts, and to the bytes.

   `blocks` is the multiset of blocks a list of references refers to. Each operation is
   given the counts of everything there is, split into its own buffers and the rest `F`,
   and leaves them split in the same way (`Recount`). -/
namespace LightRpc.IOBuffer

open Lib.RefCount Multiset List

variable {h h' : Heap} {v v' out : IOBuf} {r : BlockRef} {rs rs' : List BlockRef} {F m m' : Multiset BlockId} {n : Nat}

def blocks (rs : List BlockRef) : Multiset BlockId := ↑(rs.map BlockRef.block)

@[simp] theorem blocks_nil : blocks [] = 0 := rfl

@[simp] theorem blocks_cons (r : BlockRef) (rs : List BlockRef) : blocks (r :: rs) = r.block ::ₘ blocks rs := rfl

@[simp] theorem blocks_append (rs rs' : List BlockRef) : blocks (rs ++ rs') = blocks rs + blocks rs' := by
  rw [blocks, map_append, ← coe_add]
  rfl

theorem mem_blocks (h : r ∈ rs) : r.block ∈ blocks rs :=
  mem_coe.mpr (mem_map_of_mem h)

/-! The bytes of a list of references. -/

/-- Every reference lies in the used part of a block that is there. -/
def Fits (h : Heap) (rs : List BlockRef) : Prop :=
  ∀ r ∈ rs, ∃ b, h.payload r.block = some b ∧ r.offset + r.length ≤ b.size

def bytes (h : Heap) (rs : List BlockRef) : List UInt8 := rs.flatMap (fun r => readRef h r r.length)

@[simp] theorem bytes_nil (h : Heap) : bytes h [] = [] := rfl

@[simp] theorem bytes_cons (h : Heap) (r : BlockRef) (rs : List BlockRef) :
    bytes h (r :: rs) = readRef h r r.length ++ bytes h rs := rfl

@[simp] theorem bytes_append (h : Heap) (rs rs' : List BlockRef) : bytes h (rs ++ rs') = bytes h rs ++ bytes h rs' :=
  flatMap_append

theorem Fits.append (h1 : Fits h rs) (h2 : Fits h rs') : Fits h (rs ++ rs') :=
  forall_mem_append.mpr ⟨h1, h2⟩

theorem Fits.left (hf : Fits h (rs ++ rs')) : Fits h rs := fun r hr => hf r (mem_append_left _ hr)

theorem Fits.head (hf : Fits h (r :: rs)) : Fits h [r] := fun r' hr' => hf r' (List.mem_singleton.mp hr' ▸ List.mem_cons_self)

theorem Fits.tail (hf : Fits h (r :: rs)) : Fits h rs := fun r' hr' => hf r' (mem_cons_of_mem r hr')

theorem readRef_of_payload {b : Block} (hb : h.payload r.block = some b) (n : Nat) :
    readRef h r n = (List.range n).map (fun i => b.data (r.offset + i)) := by
  rw [readRef, hb]
  rfl

theorem length_readRef {b : Block} (hb : h.payload r.block = some b) (n : Nat) : (readRef h r n).length = n := by
  rw [readRef_of_payload hb, length_map, length_range]

theorem Fits.length_bytes (hf : Fits h rs) : (bytes h rs).length = total rs := by
  induction rs with
  | nil => rfl
  | cons r rs ih =>
    obtain ⟨b, hb, -⟩ := hf r mem_cons_self
    rw [bytes_cons, length_append, length_readRef hb,
      ih (fun r' hr' => hf r' (mem_cons_of_mem r hr')), total_cons]

/-- The bytes of a reference from `n` on. -/
theorem readRef_split {b : Block} (hb : h.payload r.block = some b) {k n : Nat} :
    readRef h r (k + n) = readRef h r k ++ readRef h { r with offset := r.offset + k } n := by
  rw [readRef_of_payload hb, readRef_of_payload hb, readRef_of_payload (r := { r with offset := r.offset + k }) hb,
    List.range_add, List.map_append, List.map_map]
  congr 1
  apply List.map_congr_left
  intro i _
  rw [Function.comp, Nat.add_assoc]

/-- References to blocks that kept their payload have the bytes they had. -/
theorem bytes_congr (hk : ∀ r ∈ rs, h'.payload r.block = h.payload r.block) : bytes h' rs = bytes h rs := by
  apply flatMap_congr
  intro r hr
  rw [readRef, readRef, hk r hr]

theorem Fits.congr (hf : Fits h rs) (hk : ∀ r ∈ rs, h'.payload r.block = h.payload r.block) : Fits h' rs := by
  intro r hr
  rw [hk r hr]
  exact hf r hr

theorem Recount.payload (hc : Recount h m h' m') (hm : ∀ r ∈ rs, r.block ∈ m') :
    ∀ r ∈ rs, h'.payload r.block = h.payload r.block :=
  fun r hr => hc.keeps r.block (hm r hr)

/-! Appending a reference to a list of them. -/

theorem blocks_pushList (rs : List BlockRef) (r : BlockRef) :
    blocks (pushList rs r) = if merges rs r then blocks rs else r.block ::ₘ blocks rs := by
  rcases eq_nil_or_concat' rs with rfl | ⟨rs, back, rfl⟩
  · rfl
  · rw [merges_concat]
    by_cases hf : r.follows back
    · rw [if_pos hf, pushList_follows hf, blocks_append, blocks_append]
      rfl
    · rw [if_neg hf, pushList_apart hf, blocks_append, blocks_cons, blocks_nil, add_cons, add_zero]

theorem follows_iff {back : BlockRef} (hb : back.Ok) :
    r.follows back ↔ back.block = r.block ∧ back.offset + back.length = r.offset := by
  have hbound := hb.bound
  have hoff : u32 (back.offset + back.length) = back.offset + back.length := Nat.mod_eq_of_lt (by omega)
  simp [BlockRef.follows, hoff]

/-- Merged or not, the bytes of the reference come behind the others. -/
theorem bytes_pushList (hrs : ∀ r' ∈ rs, r'.Ok) (hr : r.Ok) (hf : Fits h rs) (hfr : Fits h [r]) :
    Fits h (pushList rs r) ∧ bytes h (pushList rs r) = bytes h rs ++ readRef h r r.length := by
  rcases List.eq_nil_or_concat' rs with rfl | ⟨rs, back, rfl⟩
  · refine ⟨hfr, ?_⟩
    show readRef h r r.length ++ [] = _
    rw [List.append_nil]
    rfl
  · have hback : back.Ok := hrs back (by simp)
    by_cases hfol : r.follows back
    · rw [pushList_follows hfol]
      obtain ⟨hblock, hend⟩ := (follows_iff hback).mp hfol
      obtain ⟨b, hb, hsize⟩ := hf back (by simp)
      obtain ⟨b', hb', hsize'⟩ := hfr r List.mem_cons_self
      rw [← hblock, hb] at hb'
      obtain rfl := Option.some.inj hb'
      have hr1 := hr.bound
      have hlen : u32 (back.length + r.length) = back.length + r.length := Nat.mod_eq_of_lt (by omega)
      refine ⟨hf.left.append ?_, ?_⟩
      · intro r' hr'
        rw [List.mem_singleton.mp hr']
        refine ⟨b, hb, ?_⟩
        show back.offset + u32 (back.length + r.length) ≤ b.size
        omega
      · have hmerged : readRef h (back.extend r.length) (back.extend r.length).length =
            readRef h back back.length ++ readRef h r r.length := by
          show readRef h back (u32 (back.length + r.length)) = _
          rw [hlen, readRef_split hb, hend]
          simp only [readRef, hblock]
        rw [bytes_append, bytes_append, bytes_cons, bytes_cons, hmerged, bytes_nil, List.append_nil, List.append_nil,
          List.append_assoc]
    · rw [pushList_apart hfol]
      refine ⟨hf.append hfr, ?_⟩
      rw [bytes_append, bytes_cons, bytes_nil, List.append_nil]

theorem pushRef_copy (hv : v.Ok) (hr : r.Ok) (hspare : Spare v.refs r.length 1)
    (hex : Exact h (blocks v.refs + F)) (hmem : r.block ∈ blocks v.refs + F) :
    (pushRef false h v r).2.refs = pushList v.refs r ∧ (pushRef false h v r).2.Ok ∧
      Recount h (blocks v.refs + F) (pushRef false h v r).1 (blocks (pushList v.refs r) + F) := by
  obtain ⟨hheap, hrefs, hok⟩ := pushRef_spec false h hv hr hspare
  refine ⟨hrefs, hok, ?_⟩
  rw [hheap, pushHeap, blocks_pushList]
  by_cases hm : merges v.refs r
  · rw [if_pos hm, if_pos hm]
    exact .refl hex
  · rw [if_neg hm, if_neg hm, cons_add]
    exact .inc hex hmem

theorem pushRef_move (hv : v.Ok) (hr : r.Ok) (hspare : Spare v.refs r.length 1)
    (hex : Exact h (r.block ::ₘ (blocks v.refs + F))) :
    (pushRef true h v r).2.refs = pushList v.refs r ∧ (pushRef true h v r).2.Ok ∧
      Recount h (r.block ::ₘ (blocks v.refs + F)) (pushRef true h v r).1 (blocks (pushList v.refs r) + F) := by
  obtain ⟨hheap, hrefs, hok⟩ := pushRef_spec true h hv hr hspare
  refine ⟨hrefs, hok, ?_⟩
  rw [hheap, pushHeap, blocks_pushList]
  by_cases hm : merges v.refs r
  · rw [if_pos hm, if_pos hm]
    exact .dec hex
  · rw [if_neg hm, if_neg hm, cons_add]
    exact .refl hex

/-! Taking bytes off the front. -/

/-- The references after the first `n` bytes are gone. -/
def dropRefs : List BlockRef → Nat → List BlockRef
  | [], _ => []
  | r :: rs, n => if n = 0 then r :: rs else if n < r.length then r.advance n :: rs else dropRefs rs (n - r.length)

/-- References to the first `n` bytes. -/
def takeRefs : List BlockRef → Nat → List BlockRef
  | [], _ => []
  | r :: rs, n => if n = 0 then [] else if r.length ≤ n then r :: takeRefs rs (n - r.length) else [{ r with length := n }]

@[simp] theorem dropRefs_zero (rs : List BlockRef) : dropRefs rs 0 = rs := by
  cases rs <;> rfl

@[simp] theorem takeRefs_zero (rs : List BlockRef) : takeRefs rs 0 = [] := by
  cases rs <;> rfl

theorem bytes_dropRefs : ∀ {rs : List BlockRef} {n : Nat}, (∀ r ∈ rs, r.Ok) → Fits h rs →
    Fits h (dropRefs rs n) ∧ bytes h (dropRefs rs n) = (bytes h rs).drop n
  | [], n, _, hf => ⟨hf, drop_nil.symm⟩
  | r :: rs, n, hok, hf => by
    obtain ⟨b, hb, hsize⟩ := hf r mem_cons_self
    have hrest : Fits h rs := fun r' hr' => hf r' (mem_cons_of_mem r hr')
    have hlen := length_readRef hb r.length
    rw [dropRefs]
    by_cases h0 : n = 0
    · rw [if_pos h0, h0, drop_zero]
      exact ⟨hf, rfl⟩
    rw [if_neg h0]
    by_cases hlt : n < r.length
    · -- inside of the first reference
      rw [if_pos hlt]
      obtain ⟨-, hoff⟩ := (hok r mem_cons_self).advance hlt
      have hread : readRef h (r.advance n) (r.length - n) = (readRef h r r.length).drop n := by
        have hsplit := readRef_split (n := r.length - n) (k := n) hb
        rw [Nat.add_sub_cancel' (Nat.le_of_lt hlt)] at hsplit
        rw [hsplit, drop_left' (length_readRef hb n), ← hoff]
        rfl
      refine ⟨forall_mem_cons.mpr ⟨⟨b, hb, ?_⟩, hrest⟩, ?_⟩
      · rw [hoff]
        show r.offset + n + (r.length - n) ≤ b.size
        omega
      · rw [bytes_cons, bytes_cons, drop_append_of_le_length (by omega)]
        exact congrArg (· ++ bytes h rs) hread
    · rw [if_neg hlt]
      obtain ⟨hfits, hbytes⟩ := bytes_dropRefs (n := n - r.length)
        (fun r' hr' => hok r' (mem_cons_of_mem r hr')) hrest
      refine ⟨hfits, ?_⟩
      have hgone : (readRef h r r.length).drop n = [] := drop_eq_nil_of_le (by omega)
      rw [hbytes, bytes_cons, drop_append, hgone, hlen, nil_append]

theorem takeRefs_ok : ∀ {rs : List BlockRef} {n : Nat}, (∀ r ∈ rs, r.Ok) → n ≤ total rs →
    (∀ r ∈ takeRefs rs n, r.Ok) ∧ total (takeRefs rs n) = n
  | [], n, hok, hn => by
    have hn : n ≤ 0 := hn
    exact ⟨fun r hr => absurd hr List.not_mem_nil, (Nat.le_zero.mp hn).symm⟩
  | r :: rs, n, hok, hn => by
    rw [total_cons] at hn
    rw [takeRefs]
    by_cases h0 : n = 0
    · rw [if_pos h0, h0]
      exact ⟨fun r hr => absurd hr List.not_mem_nil, rfl⟩
    rw [if_neg h0]
    have hr := hok r List.mem_cons_self
    by_cases hle : r.length ≤ n
    · rw [if_pos hle]
      obtain ⟨hrest, htotal⟩ := takeRefs_ok (n := n - r.length)
        (fun r' hr' => hok r' (List.mem_cons_of_mem r hr')) (by omega)
      refine ⟨List.forall_mem_cons.mpr ⟨hr, hrest⟩, ?_⟩
      rw [total_cons, htotal]
      omega
    · rw [if_neg hle]
      have hbound := hr.bound
      refine ⟨fun r' hr' => ?_, ?_⟩
      · rw [List.mem_singleton.mp hr']
        exact ⟨Nat.pos_of_ne_zero h0, (by omega : r.offset + n < 2 ^ 31)⟩
      · show n + 0 = n
        rfl

theorem bytes_takeRefs : ∀ {rs : List BlockRef} {n : Nat}, Fits h rs →
    Fits h (takeRefs rs n) ∧ bytes h (takeRefs rs n) = (bytes h rs).take n
  | [], n, hf => ⟨hf, List.take_nil.symm⟩
  | r :: rs, n, hf => by
    obtain ⟨b, hb, hsize⟩ := hf r List.mem_cons_self
    have hlen := length_readRef hb r.length
    rw [takeRefs]
    by_cases h0 : n = 0
    · rw [if_pos h0, h0, List.take_zero]
      exact ⟨fun r hr => absurd hr List.not_mem_nil, rfl⟩
    rw [if_neg h0]
    by_cases hle : r.length ≤ n
    · rw [if_pos hle]
      obtain ⟨hfits, hbytes⟩ := @bytes_takeRefs rs (n - r.length)
        (fun r' hr' => hf r' (List.mem_cons_of_mem r hr'))
      refine ⟨List.forall_mem_cons.mpr ⟨⟨b, hb, hsize⟩, hfits⟩, ?_⟩
      have hwhole : (readRef h r r.length).take n = readRef h r r.length := List.take_of_length_le (by omega)
      rw [bytes_cons, bytes_cons, hbytes, List.take_append, hwhole, hlen]
    · rw [if_neg hle]
      refine ⟨fun r' hr' => ?_, ?_⟩
      · rw [List.mem_singleton.mp hr']
        exact ⟨b, hb, (by omega : r.offset + n ≤ b.size)⟩
      · have hsplit := readRef_split (n := r.length - n) (k := n) hb
        rw [Nat.add_sub_cancel' (by omega)] at hsplit
        have htake : (bytes h (r :: rs)).take n = readRef h r n := by
          rw [bytes_cons, List.take_append_of_le_length (by omega), hsplit, List.take_left' (length_readRef hb n)]
        rw [htake, bytes_cons, bytes_nil, List.append_nil]
        rfl

theorem mem_takeRefs : ∀ {rs : List BlockRef} {n : Nat}, r ∈ takeRefs rs n → r.block ∈ blocks rs
  | [], _, hr => absurd hr List.not_mem_nil
  | r' :: rs, n, hr => by
    rw [takeRefs] at hr
    split at hr
    · exact absurd hr List.not_mem_nil
    · split at hr
      · rcases List.mem_cons.mp hr with rfl | hr
        · exact mem_blocks List.mem_cons_self
        · exact mem_cons_of_mem (mem_takeRefs hr)
      · rw [List.mem_singleton.mp hr]
        exact mem_blocks (r := r') List.mem_cons_self

/-- What an operation on one buffer did, next to the references `F` of the others. -/
structure Edit (h : Heap) (v : IOBuf) (F : Multiset BlockId) (h' : Heap) (v' : IOBuf) (rs : List BlockRef) :
    Prop where
  refs : v'.refs = rs
  ok : v'.Ok
  count : Recount h (blocks v.refs + F) h' (blocks rs + F)

namespace Edit

theorem exact (e : Edit h v F h' v' rs) : Exact h' (blocks v'.refs + F) := by
  rw [e.refs]
  exact e.count.exact

theorem trans {h'' : Heap} {v'' : IOBuf} (e : Edit h v F h' v' rs) (e' : Edit h' v' F h'' v'' rs') :
    Edit h v F h'' v'' rs' := by
  refine ⟨e'.refs, e'.ok, ?_⟩
  have hcount := e'.count
  rw [e.refs] at hcount
  exact e.count.trans hcount

/-- The bytes that are left are the same before and after. -/
theorem bytes_eq (e : Edit h v F h' v' rs) : bytes h' v'.refs = bytes h rs := by
  rw [e.refs]
  exact bytes_congr (Recount.payload e.count (fun r hr => mem_add.mpr (.inl (mem_blocks hr))))

theorem fits (e : Edit h v F h' v' rs) (hf : Fits h rs) : Fits h' v'.refs := by
  rw [e.refs]
  exact hf.congr (Recount.payload e.count (fun r hr => mem_add.mpr (.inl (mem_blocks hr))))

section

variable (hv : v.Ok) (hex : Exact h (blocks v.refs + F))

include hv hex

theorem refl : Edit h v F h v v.refs :=
  ⟨rfl, hv, .refl hex⟩

theorem popFrontRef (hrefs : v.refs = r :: rs) : Edit h v F (popFrontRef false h v).1 (popFrontRef false h v).2 rs := by
  obtain ⟨hheap, hrest, hok⟩ := popFrontRef_spec false h hv hrefs
  refine ⟨hrest, hok, ?_⟩
  rw [hrefs, blocks_cons, cons_add] at hex ⊢
  rw [hheap]
  exact .dec hex

theorem popBackRef (hrefs : v.refs = rs ++ [r]) : Edit h v F (popBackRef h v).1 (popBackRef h v).2 rs := by
  obtain ⟨hheap, hrest, hok⟩ := popBackRef_spec (h := h) hv hrefs
  have hsplit : blocks v.refs + F = r.block ::ₘ (blocks rs + F) := by
    rw [hrefs, blocks_append, blocks_cons, blocks_nil, add_cons, add_zero, cons_add]
  refine ⟨hrest, hok, ?_⟩
  rw [hsplit] at hex ⊢
  rw [hheap]
  exact .dec hex

theorem advanceFront (hrefs : v.refs = r :: rs) (hn : n < r.length) :
    Edit h v F h (v.advanceFront n) (r.advance n :: rs) := by
  obtain ⟨hnew, hok⟩ := advanceFront_spec hv hrefs hn
  refine ⟨hnew, hok, ?_⟩
  rw [hrefs] at hex ⊢
  exact .refl hex

theorem shortenBack (hrefs : v.refs = rs ++ [r]) (hn : n < r.length) :
    Edit h v F h (v.shortenBack n) (rs ++ [r.shorten n]) := by
  obtain ⟨hnew, hok⟩ := shortenBack_spec hv hrefs hn
  refine ⟨hnew, hok, ?_⟩
  rw [hrefs] at hex ⊢
  rw [blocks_append] at hex ⊢
  rw [blocks_append]
  exact .refl hex

theorem clear : Edit h v F (clear h v).1 (clear h v).2 [] := by
  rw [clear_spec hv]
  refine ⟨rfl, .new, ?_⟩
  rw [blocks_nil, zero_add]
  exact .decAll _ hex

end

end Edit

theorem exists_cons (hn : n < total rs) : ∃ r rs', rs = r :: rs' := by
  cases rs with
  | nil => exact absurd hn (Nat.not_lt_zero n)
  | cons r rs' => exact ⟨r, rs', rfl⟩

theorem dropRefs_within (h0 : 0 < n) (hlt : n < r.length) : dropRefs (r :: rs) n = r.advance n :: rs := by
  rw [dropRefs, if_neg (by omega), if_pos hlt]

theorem dropRefs_beyond (h0 : 0 < n) (hlt : ¬ n < r.length) : dropRefs (r :: rs) n = dropRefs rs (n - r.length) := by
  rw [dropRefs, if_neg (by omega), if_neg hlt]

/-! The references of several buffers, one behind the other. -/

section Refs

variable {ws : List BlockRef} {m : Nat}

theorem takeRefs_append : ∀ {rs : List BlockRef} {m : Nat}, m ≤ total rs → takeRefs (rs ++ ws) m = takeRefs rs m
  | [], m, hm => by
    obtain rfl : m = 0 := Nat.le_zero.mp hm
    rw [takeRefs_zero, takeRefs_zero]
  | r :: rs, m, hm => by
    rw [total_cons] at hm
    rw [cons_append, takeRefs, takeRefs, @takeRefs_append rs (m - r.length) (by omega)]

theorem dropRefs_append : ∀ {rs : List BlockRef} {m : Nat}, m ≤ total rs → dropRefs (rs ++ ws) m = dropRefs rs m ++ ws
  | [], m, hm => by
    obtain rfl : m = 0 := Nat.le_zero.mp hm
    rw [dropRefs_zero, dropRefs_zero]
  | r :: rs, m, hm => by
    rw [total_cons] at hm
    rw [cons_append, dropRefs, dropRefs, @dropRefs_append rs (m - r.length) (by omega)]
    split
    · rfl
    · split <;> rfl

theorem takeRefs_cons_add (hr : r.Ok) (m : Nat) : takeRefs (r :: rs) (r.length + m) = r :: takeRefs rs m := by
  have hpos := hr.nonempty
  rw [takeRefs, if_neg (by omega), if_pos (Nat.le_add_right _ _), Nat.add_sub_cancel_left]

theorem dropRefs_cons_add (hr : r.Ok) (m : Nat) : dropRefs (r :: rs) (r.length + m) = dropRefs rs m := by
  have hpos := hr.nonempty
  rw [dropRefs_beyond (by omega) (by omega), Nat.add_sub_cancel_left]

theorem takeRefs_within (h0 : 0 < m) (hlt : m < r.length) : takeRefs (r :: rs) m = [{ r with length := m }] := by
  rw [takeRefs, if_neg (by omega), if_neg (by omega)]

/-- All of the first references, and some of the others. -/
theorem takeRefs_append_add (hrs : ∀ r ∈ rs, r.Ok) (m : Nat) : takeRefs (rs ++ ws) (total rs + m) = rs ++ takeRefs ws m := by
  induction rs with
  | nil => rw [total_nil, Nat.zero_add, nil_append, nil_append]
  | cons r rs ih =>
    obtain ⟨hr, hrs⟩ := forall_mem_cons.mp hrs
    rw [total_cons, Nat.add_assoc, cons_append, takeRefs_cons_add hr, ih hrs, cons_append]

theorem dropRefs_append_add (hrs : ∀ r ∈ rs, r.Ok) (m : Nat) : dropRefs (rs ++ ws) (total rs + m) = dropRefs ws m := by
  induction rs with
  | nil => rw [total_nil, Nat.zero_add, nil_append]
  | cons r rs ih =>
    obtain ⟨hr, hrs⟩ := forall_mem_cons.mp hrs
    rw [total_cons, Nat.add_assoc, cons_append, dropRefs_cons_add hr, ih hrs]

theorem takeRefs_total (hrs : ∀ r ∈ rs, r.Ok) : takeRefs rs (total rs) = rs := by
  have hall : takeRefs (rs ++ []) (total rs + 0) = rs ++ takeRefs [] 0 := takeRefs_append_add hrs 0
  rwa [append_nil, Nat.add_zero, takeRefs_zero, append_nil] at hall

theorem dropRefs_total (hrs : ∀ r ∈ rs, r.Ok) : dropRefs rs (total rs) = [] := by
  have hall : dropRefs (rs ++ []) (total rs + 0) = dropRefs [] 0 := dropRefs_append_add hrs 0
  rwa [append_nil, Nat.add_zero, dropRefs_zero] at hall

theorem total_dropRefs : ∀ {rs : List BlockRef} {m : Nat}, (∀ r ∈ rs, r.Ok) → m ≤ total rs →
    (∀ r ∈ dropRefs rs m, r.Ok) ∧ total (dropRefs rs m) = total rs - m
  | [], m, hrs, hm => by
    obtain rfl : m = 0 := Nat.le_zero.mp hm
    exact ⟨hrs, rfl⟩
  | r :: rs, m, hrs, hm => by
    obtain ⟨hr, hrest⟩ := forall_mem_cons.mp hrs
    rw [total_cons] at hm
    rw [dropRefs]
    split
    · rename_i h0
      rw [h0]
      exact ⟨hrs, rfl⟩
    split
    · rename_i hlt
      refine ⟨forall_mem_cons.mpr ⟨(hr.advance hlt).1, hrest⟩, ?_⟩
      have hlen : (r.advance m).length = r.length - m := rfl
      rw [total_cons, total_cons, hlen]
      omega
    · rename_i hge
      obtain ⟨hok, htotal⟩ := total_dropRefs (m := m - r.length) hrest (by omega)
      refine ⟨hok, ?_⟩
      rw [htotal, total_cons]
      omega

theorem mem_dropRefs : ∀ {rs : List BlockRef} {m : Nat}, r ∈ dropRefs rs m → r.block ∈ blocks rs
  | [], _, hr => absurd hr not_mem_nil
  | r' :: rs, m, hr => by
    rw [dropRefs] at hr
    split at hr
    · exact mem_blocks hr
    · split at hr
      · rcases mem_cons.mp hr with rfl | hr
        · exact mem_blocks (r := r') mem_cons_self
        · exact mem_blocks (mem_cons_of_mem r' hr)
      · exact mem_cons_of_mem (mem_dropRefs hr)

end Refs

/-- The loop of `cutn` to memory is the one of `pop_front`, and copies what it takes off. -/
theorem cutnMemLoop_spec : ∀ {k : Nat} {h : Heap} {v : IOBuf} {n : Nat} (out : List UInt8), v.Ok →
    v.refs.length ≤ k → n ≤ total v.refs → Exact h (blocks v.refs + F) →
    ∃ h' v', cutnMemLoop k h v out n = some (h', v', out ++ bytes h (takeRefs v.refs n)) ∧
      Edit h v F h' v' (dropRefs v.refs n)
  | fuel, h, v, 0, out, hv, _, _, hex => by
    refine ⟨h, v, ?_, ?_⟩
    · rw [takeRefs_zero, bytes_nil, append_nil]
      cases fuel <;> rfl
    · rw [dropRefs_zero]
      exact .refl hv hex
  | 0, h, v, n + 1, out, hv, hfuel, hn, _ => by
    obtain ⟨r, rs, hrefs⟩ := exists_cons (Nat.lt_of_succ_le hn)
    rw [hrefs, length_cons] at hfuel
    exact absurd hfuel (Nat.not_succ_le_zero _)
  | fuel + 1, h, v, n + 1, out, hv, hfuel, hn, hex => by
    obtain ⟨r, rs, hrefs⟩ := exists_cons (Nat.lt_of_succ_le hn)
    rw [cutnMemLoop, hv.frontRef hrefs]
    by_cases hle : r.length ≤ n + 1
    · rw [if_pos hle]
      have hpop := Edit.popFrontRef hv hex hrefs
      rw [hrefs, length_cons] at hfuel
      rw [hrefs, total_cons] at hn
      obtain ⟨h', v', heq, hedit⟩ := cutnMemLoop_spec (k := fuel) (n := n + 1 - r.length)
        (out ++ readRef h r r.length) hpop.ok (by rw [hpop.refs]; omega) (by rw [hpop.refs]; omega) hpop.exact
      have hbytes : bytes (popFrontRef false h v).1 (takeRefs rs (n + 1 - r.length)) =
          bytes h (takeRefs rs (n + 1 - r.length)) := by
        apply bytes_congr
        exact Recount.payload hpop.count (fun r' hr' => mem_add.mpr (.inl (mem_takeRefs hr')))
      rw [hpop.refs] at hedit heq
      rw [hrefs, dropRefs_beyond n.succ_pos (Nat.not_lt.mpr hle), takeRefs, if_neg n.succ_ne_zero, if_pos hle,
        bytes_cons, ← hbytes, ← append_assoc]
      exact ⟨h', v', heq, hpop.trans hedit⟩
    · rw [if_neg hle]
      refine ⟨h, v.advanceFront (n + 1), ?_, ?_⟩
      · rw [hrefs, takeRefs, if_neg n.succ_ne_zero, if_neg hle, bytes_cons, bytes_nil, append_nil]
        rfl
      · rw [hrefs, dropRefs_within n.succ_pos (by omega)]
        exact .advanceFront hv hex hrefs (by omega)

/-- The bytes are dropped as they would be cut. -/
theorem popFrontLoop_eq (fuel : Nat) (h : Heap) (v : IOBuf) (n : Nat) (out : List UInt8) :
    popFrontLoop fuel h v n = (cutnMemLoop fuel h v out n).map fun t => (t.1, t.2.1) := by
  fun_induction popFrontLoop fuel h v n generalizing out with
  | case1 => simp [cutnMemLoop]
  | case2 => rfl
  | case3 fuel h v n r hlt => rw [cutnMemLoop, if_neg (Nat.not_le.mpr hlt)]; rfl
  | case4 fuel h v n r hlt s ih => rw [cutnMemLoop, if_pos (Nat.le_of_not_lt hlt)]; exact ih _

theorem popFrontLoop_spec {k n : Nat} (hv : v.Ok) (hfuel : v.refs.length ≤ k) (hn : n ≤ total v.refs)
    (hex : Exact h (blocks v.refs + F)) :
    ∃ h' v', popFrontLoop k h v n = some (h', v') ∧ Edit h v F h' v' (dropRefs v.refs n) := by
  obtain ⟨h', v', heq, hedit⟩ := cutnMemLoop_spec [] hv hfuel hn hex
  exact ⟨h', v', by rw [popFrontLoop_eq k h v n [], heq]; rfl, hedit⟩

theorem popFront_spec (hv : v.Ok) (hex : Exact h (blocks v.refs + F)) (n : Nat) :
    ∃ h' v' rs, popFront h v n = some (h', v', min n (total v.refs)) ∧ Edit h v F h' v' rs ∧
      (Fits h v.refs → Fits h rs ∧ bytes h rs = (bytes h v.refs).drop n) := by
  rw [popFront, hv.length]
  by_cases hle : total v.refs ≤ n
  · rw [if_pos hle, Nat.min_eq_right hle]
    refine ⟨_, _, [], rfl, .clear hv hex, fun hf => ⟨fun r hr => absurd hr not_mem_nil, ?_⟩⟩
    rw [drop_eq_nil_of_le (by rw [hf.length_bytes]; exact hle)]
    rfl
  · rw [if_neg hle, Nat.min_eq_left (by omega), hv.refNum]
    obtain ⟨h', v', heq, hedit⟩ := popFrontLoop_spec (n := n) hv (Nat.le_refl _) (by omega) hex
    refine ⟨h', v', _, ?_, hedit, fun hf => bytes_dropRefs hv.refs hf⟩
    rw [heq]
    rfl

theorem cutnMem_spec (hv : v.Ok) (hex : Exact h (blocks v.refs + F)) (n : Nat) :
    ∃ h' v', cutnMem h v n = some (h', v', bytes h (takeRefs v.refs (min n (total v.refs)))) ∧
      Edit h v F h' v' (dropRefs v.refs (min n (total v.refs))) := by
  rw [cutnMem, hv.length, hv.refNum]
  exact cutnMemLoop_spec [] hv (Nat.le_refl _) (Nat.min_le_right _ _) hex

theorem cut1_spec (hv : v.Ok) (hex : Exact h (blocks v.refs + F)) : (v.refs = [] ∧ cut1 h v = (h, v, [])) ∨
      ∃ r rs, v.refs = r :: rs ∧ (cut1 h v).2.2 = readRef h r 1 ∧
        Edit h v F (cut1 h v).1 (cut1 h v).2.1 (dropRefs v.refs 1) := by
  rw [cut1, hv.isEmpty]
  cases hrefs : v.refs with
  | nil => exact .inl ⟨rfl, rfl⟩
  | cons r rs =>
    rw [isEmpty_cons, if_neg Bool.false_ne_true, hv.frontRef hrefs]
    refine .inr ⟨r, rs, rfl, ?_⟩
    by_cases hlt : 1 < r.length
    · rw [if_pos hlt, dropRefs_within Nat.one_pos hlt]
      exact ⟨rfl, .advanceFront hv hex hrefs hlt⟩
    · have hone : 1 - r.length = 0 := by
        have := (hv.head hrefs).nonempty
        omega
      rw [if_neg hlt, dropRefs_beyond Nat.one_pos hlt, hone, dropRefs_zero]
      exact ⟨rfl, .popFrontRef hv hex hrefs⟩

/-! Taking bytes off the back. -/

/-- The references after the last `n` bytes are gone, from the last to the first. -/
def dropRev : List BlockRef → Nat → List BlockRef
  | [], _ => []
  | r :: rs, n => if n = 0 then r :: rs else if n < r.length then r.shorten n :: rs else dropRev rs (n - r.length)

def dropBack (rs : List BlockRef) (n : Nat) : List BlockRef := (dropRev rs.reverse n).reverse

@[simp] theorem dropBack_zero (rs : List BlockRef) : dropBack rs 0 = rs := by
  have hrev : ∀ rs, dropRev rs 0 = rs := by
    intro rs
    cases rs <;> rfl
  rw [dropBack, hrev, reverse_reverse]

theorem dropBack_within (h0 : 0 < n) (hlt : n < r.length) : dropBack (rs ++ [r]) n = rs ++ [r.shorten n] := by
  rw [dropBack, reverse_append, reverse_singleton, singleton_append, dropRev, if_neg (by omega),
    if_pos hlt, reverse_cons, reverse_reverse]

theorem dropBack_beyond (h0 : 0 < n) (hlt : ¬ n < r.length) : dropBack (rs ++ [r]) n = dropBack rs (n - r.length) := by
  rw [dropBack, reverse_append, reverse_singleton, singleton_append, dropRev, if_neg (by omega),
    if_neg hlt, dropBack]

theorem bytes_dropBack : ∀ (rs : List BlockRef) {n : Nat}, Fits h rs → n ≤ total rs →
    Fits h (dropBack rs n) ∧ bytes h (dropBack rs n) = (bytes h rs).take (total rs - n) := by
  intro rs
  induction rs using List.reverseRecOn with
  | nil =>
    intro n hf _
    exact ⟨hf, List.take_nil.symm⟩
  | append_singleton rs r ih =>
    intro n hf hn
    have hlen := hf.length_bytes
    rw [total_append, total_cons, total_nil] at hn hlen
    rcases Nat.eq_zero_or_pos n with rfl | h0
    · rw [dropBack_zero, Nat.sub_zero, List.take_of_length_le (Nat.le_of_eq hf.length_bytes)]
      exact ⟨hf, rfl⟩
    obtain ⟨b, hb, hsize⟩ := hf r (by simp)
    have hrs := hf.left.length_bytes
    rw [bytes_append, bytes_cons, bytes_nil, List.append_nil, total_append, total_cons, total_nil]
    by_cases hlt : n < r.length
    · -- inside of the last reference
      rw [dropBack_within h0 hlt]
      have hsplit := readRef_split (n := n) (k := r.length - n) hb
      rw [Nat.sub_add_cancel (Nat.le_of_lt hlt)] at hsplit
      refine ⟨hf.left.append ?_, ?_⟩
      · intro r' hr'
        rw [List.mem_singleton.mp hr']
        refine ⟨b, hb, ?_⟩
        show r.offset + (r.length - n) ≤ b.size
        omega
      · have htake : (bytes h rs ++ readRef h r r.length).take (total rs + (r.length + 0) - n) =
            bytes h rs ++ readRef h r (r.length - n) := by
          rw [hsplit, ← List.append_assoc, List.take_left']
          rw [List.length_append, length_readRef hb, hrs]
          omega
        rw [htake, bytes_append, bytes_cons, bytes_nil, List.append_nil]
        rfl
    · rw [dropBack_beyond h0 hlt]
      obtain ⟨hfits, hbytes⟩ := ih (n := n - r.length) hf.left (by omega)
      refine ⟨hfits, ?_⟩
      rw [hbytes, List.take_append_of_le_length (by omega)]
      congr 1
      omega

theorem exists_concat (hn : n < total rs) : ∃ rs' r, rs = rs' ++ [r] := by
  rcases eq_nil_or_concat' rs with rfl | ⟨rs', r, rfl⟩
  · exact absurd hn (Nat.not_lt_zero n)
  · exact ⟨rs', r, rfl⟩

theorem popBackLoop_spec : ∀ {k : Nat} {h : Heap} {v : IOBuf} {n : Nat}, v.Ok → v.refs.length ≤ k →
    n ≤ total v.refs → Exact h (blocks v.refs + F) →
    ∃ h' v', popBackLoop k h v n = some (h', v') ∧ Edit h v F h' v' (dropBack v.refs n)
  | fuel, h, v, 0, hv, _, _, hex => by
    refine ⟨h, v, ?_, ?_⟩
    · cases fuel <;> rfl
    · rw [dropBack_zero]
      exact .refl hv hex
  | 0, h, v, n + 1, hv, hfuel, hn, _ => by
    obtain ⟨r, rs, hrefs⟩ := exists_cons (Nat.lt_of_succ_le hn)
    rw [hrefs, length_cons] at hfuel
    exact absurd hfuel (Nat.not_succ_le_zero _)
  | fuel + 1, h, v, n + 1, hv, hfuel, hn, hex => by
    obtain ⟨rs, r, hrefs⟩ := exists_concat (Nat.lt_of_succ_le hn)
    rw [popBackLoop, hv.backRef hrefs]
    by_cases hlt : n + 1 < r.length
    · rw [if_pos hlt]
      refine ⟨h, _, rfl, ?_⟩
      rw [hrefs, dropBack_within n.succ_pos hlt]
      exact .shortenBack hv hex hrefs hlt
    · rw [if_neg hlt]
      have hpop := Edit.popBackRef hv hex hrefs
      rw [hrefs, length_append, length_singleton] at hfuel
      rw [hrefs, total_append, total_cons, total_nil] at hn
      obtain ⟨h', v', heq, hedit⟩ := popBackLoop_spec (k := fuel) (n := n + 1 - r.length) hpop.ok
        (by rw [hpop.refs]; omega) (by rw [hpop.refs]; omega) hpop.exact
      rw [hpop.refs] at hedit
      rw [hrefs, dropBack_beyond n.succ_pos hlt]
      exact ⟨h', v', heq, hpop.trans hedit⟩

theorem popBack_spec (hv : v.Ok) (hex : Exact h (blocks v.refs + F)) (n : Nat) :
    ∃ h' v' rs, popBack h v n = some (h', v', min n (total v.refs)) ∧ Edit h v F h' v' rs ∧
      (Fits h v.refs → Fits h rs ∧ bytes h rs = (bytes h v.refs).take (total v.refs - n)) := by
  rw [popBack, hv.length]
  by_cases hle : total v.refs ≤ n
  · rw [if_pos hle, Nat.min_eq_right hle]
    refine ⟨_, _, [], rfl, .clear hv hex, fun hf => ⟨fun r hr => absurd hr not_mem_nil, ?_⟩⟩
    rw [Nat.sub_eq_zero_of_le hle, take_zero]
    rfl
  · rw [if_neg hle, Nat.min_eq_left (by omega), hv.refNum]
    obtain ⟨h', v', heq, hedit⟩ := popBackLoop_spec (n := n) hv (Nat.le_refl _) (by omega) hex
    refine ⟨h', v', _, ?_, hedit, fun hf => bytes_dropBack _ hf (by omega)⟩
    rw [heq]
    rfl

/-! Appending many references. -/

def pushAll (rs ts : List BlockRef) : List BlockRef := ts.foldl pushList rs

theorem Spare.pushAll {n k : Nat} : ∀ {ts rs : List BlockRef}, Spare rs (total ts + n) (ts.length + k) → (∀ r ∈ rs, r.Ok) →
    (∀ r ∈ ts, r.Ok) → Spare (pushAll rs ts) n k
  | [], rs, hs, _, _ => hs.mono (Nat.le_add_left _ _) (Nat.le_add_left _ _)
  | t :: ts, rs, hs, hrs, hts => by
    obtain ⟨ht, hts⟩ := forall_mem_cons.mp hts
    rw [total_cons, length_cons] at hs
    have hpush : Spare (pushList rs t) (total ts + n) (ts.length + k) :=
      Spare.push (hs.mono (by omega) (by omega)) hrs ht
    exact @Spare.pushAll n k ts (pushList rs t) hpush (pushList_ok hrs ht).1 hts

theorem bytes_pushAll : ∀ {ts rs : List BlockRef}, (∀ r ∈ rs, r.Ok) → (∀ r ∈ ts, r.Ok) →
    Fits h rs → Fits h ts →
    Fits h (pushAll rs ts) ∧ bytes h (pushAll rs ts) = bytes h rs ++ bytes h ts
  | [], rs, _, _, hf, _ => ⟨hf, (append_nil _).symm⟩
  | t :: ts, rs, hrs, hts, hf, hft => by
    obtain ⟨ht, hts⟩ := forall_mem_cons.mp hts
    obtain ⟨hfit, hbytes⟩ := bytes_pushList hrs ht hf hft.head
    obtain ⟨hfit', hbytes'⟩ := @bytes_pushAll ts (pushList rs t) (pushList_ok hrs ht).1 hts hfit hft.tail
    refine ⟨hfit', ?_⟩
    show bytes h (pushAll (pushList rs t) ts) = _
    rw [hbytes', hbytes, bytes_cons, append_assoc]

theorem foldl_pushRef_copy : ∀ {ts : List BlockRef} {h : Heap} {v : IOBuf}, v.Ok → (∀ r ∈ ts, r.Ok) →
    Spare v.refs (total ts) ts.length → Exact h (blocks v.refs + F) → (∀ r ∈ ts, r.block ∈ F) →
    Edit h v F (ts.foldl (fun s r => pushRef false s.1 s.2 r) (h, v)).1
      (ts.foldl (fun s r => pushRef false s.1 s.2 r) (h, v)).2 (pushAll v.refs ts)
  | [], h, v, hv, _, _, hex, _ => .refl hv hex
  | t :: ts, h, v, hv, hts, hspare, hex, hmem => by
    obtain ⟨ht, hts⟩ := forall_mem_cons.mp hts
    obtain ⟨hm, hmem⟩ := forall_mem_cons.mp hmem
    rw [total_cons, length_cons] at hspare
    obtain ⟨hrefs, hok, hcount⟩ := pushRef_copy hv ht (hspare.mono (by omega) (by omega)) hex
      (mem_add.mpr (.inr hm))
    have hpush : Edit h v F (pushRef false h v t).1 (pushRef false h v t).2 (pushList v.refs t) := ⟨hrefs, hok, hcount⟩
    have hspare' : Spare (pushRef false h v t).2.refs (total ts) ts.length := by
      rw [hrefs]
      exact hspare.push hv.refs ht
    have hrest := foldl_pushRef_copy hok hts hspare' hpush.exact hmem
    rw [hrefs] at hrest
    exact hpush.trans hrest

theorem foldl_pushRef_move : ∀ {ts : List BlockRef} {h : Heap} {v : IOBuf}, v.Ok → (∀ r ∈ ts, r.Ok) →
    Spare v.refs (total ts) ts.length → Exact h (blocks ts + (blocks v.refs + F)) →
    (ts.foldl (fun s r => pushRef true s.1 s.2 r) (h, v)).2.refs = pushAll v.refs ts ∧
      (ts.foldl (fun s r => pushRef true s.1 s.2 r) (h, v)).2.Ok ∧
      Recount h (blocks ts + (blocks v.refs + F)) (ts.foldl (fun s r => pushRef true s.1 s.2 r) (h, v)).1
        (blocks (pushAll v.refs ts) + F)
  | [], h, v, hv, _, _, hex => by
    rw [blocks_nil, zero_add] at hex ⊢
    exact ⟨rfl, hv, .refl hex⟩
  | t :: ts, h, v, hv, hts, hspare, hex => by
    obtain ⟨ht, hts⟩ := forall_mem_cons.mp hts
    rw [total_cons, length_cons] at hspare
    -- the references that are still to come belong to the rest
    have hswap : ∀ m : Multiset BlockId, blocks ts + (m + F) = m + (blocks ts + F) := by
      intro m
      rw [add_left_comm]
    rw [blocks_cons, cons_add, hswap] at hex ⊢
    obtain ⟨hrefs, hok, hcount⟩ := pushRef_move hv ht (hspare.mono (by omega) (by omega)) hex
    have hspare' : Spare (pushRef true h v t).2.refs (total ts) ts.length := by
      rw [hrefs]
      exact hspare.push hv.refs ht
    have hex' : Exact (pushRef true h v t).1 (blocks ts + (blocks (pushRef true h v t).2.refs + F)) := by
      rw [hswap, hrefs]
      exact hcount.exact
    obtain ⟨hrefs', hok', hcount'⟩ := foldl_pushRef_move hok hts hspare' hex'
    rw [hrefs] at hrefs' hcount'
    rw [hswap] at hcount'
    exact ⟨hrefs', hok', hcount.trans hcount'⟩

/-! From one buffer into another. -/

/-- What an operation on two buffers did, next to the references `F` of the others. -/
structure Edit2 (h : Heap) (v u : IOBuf) (F : Multiset BlockId) (h' : Heap) (v' u' : IOBuf)
    (rs us : List BlockRef) : Prop where
  refs : v'.refs = rs
  refs' : u'.refs = us
  ok : v'.Ok
  ok' : u'.Ok
  count : Recount h (blocks v.refs + (blocks u.refs + F)) h' (blocks rs + (blocks us + F))

theorem Edit2.trans {h'' : Heap} {u u' v'' u'' : IOBuf} {us us' : List BlockRef}
    (e : Edit2 h v u F h' v' u' rs us) (e' : Edit2 h' v' u' F h'' v'' u'' rs' us') :
    Edit2 h v u F h'' v'' u'' rs' us' := by
  refine ⟨e'.refs, e'.refs', e'.ok, e'.ok', ?_⟩
  have hcount := e'.count
  rw [e.refs, e.refs'] at hcount
  exact e.count.trans hcount

/-- A whole reference goes over: it is neither counted nor dropped. -/
theorem cutn_whole (hv : v.Ok) (hout : out.Ok) (hrefs : v.refs = r :: rs)
    (hspare : Spare out.refs r.length 1) (hex : Exact h (blocks v.refs + (blocks out.refs + F))) :
    Edit2 h v out F (popFrontRef true (pushRef true h out r).1 v).1
      (popFrontRef true (pushRef true h out r).1 v).2 (pushRef true h out r).2 rs (pushList out.refs r) := by
  have hr := hv.head hrefs
  have hswap : ∀ us, blocks rs + (blocks us + F) = blocks us + (blocks rs + F) := by
    intro us
    rw [add_left_comm]
  rw [hrefs, blocks_cons, cons_add, hswap] at hex
  obtain ⟨hnew, hok, hcount⟩ := pushRef_move hout hr hspare hex
  obtain ⟨hheap, hrest, hok'⟩ := popFrontRef_spec true (pushRef true h out r).1 hv hrefs
  refine ⟨hrest, hnew, hok', hok, ?_⟩
  rw [hrefs, blocks_cons, cons_add, hheap, hswap, hswap]
  exact hcount

/-- A reference is split: the part that goes over is counted. -/
theorem cutn_part (hv : v.Ok) (hout : out.Ok) (hrefs : v.refs = r :: rs) (h0 : 0 < n) (hlt : n < r.length)
    (hspare : Spare out.refs n 1) (hex : Exact h (blocks v.refs + (blocks out.refs + F))) :
    Edit2 h v out F (pushRef false h out { r with length := n }).1 (v.advanceFront n)
      (pushRef false h out { r with length := n }).2 (r.advance n :: rs) (pushList out.refs { r with length := n }) := by
  have hr := hv.head hrefs
  have hbound := hr.bound
  have hpart : BlockRef.Ok { r with length := n } := ⟨h0, (by omega : r.offset + n < 2 ^ 31)⟩
  have hswap : ∀ us, blocks v.refs + (blocks us + F) = blocks us + (blocks v.refs + F) := by
    intro us
    rw [add_left_comm]
  rw [hswap] at hex
  have hmem : r.block ∈ blocks out.refs + (blocks v.refs + F) := by
    rw [hrefs, blocks_cons, cons_add, add_cons]
    exact mem_cons_self _ _
  obtain ⟨hnew, hok, hcount⟩ := pushRef_copy hout hpart hspare hex hmem
  obtain ⟨hadv, hok'⟩ := advanceFront_spec hv hrefs hlt
  have hsame : blocks (r.advance n :: rs) = blocks v.refs := by
    rw [hrefs]
    rfl
  refine ⟨hadv, hnew, hok', hok, ?_⟩
  rw [hsame, hswap, hswap]
  exact hcount

theorem cutnLoop_spec : ∀ {k : Nat} {h : Heap} {v out : IOBuf} {n : Nat}, v.Ok → out.Ok →
    v.refs.length ≤ k → n ≤ total v.refs → Spare out.refs n (takeRefs v.refs n).length →
    Exact h (blocks v.refs + (blocks out.refs + F)) →
    ∃ h' v' out', cutnLoop k h v out n = some (h', v', out') ∧
      Edit2 h v out F h' v' out' (dropRefs v.refs n) (pushAll out.refs (takeRefs v.refs n))
  | fuel, h, v, out, 0, hv, hout, _, _, _, hex => by
    refine ⟨h, v, out, ?_, ?_⟩
    · cases fuel <;> rfl
    · rw [dropRefs_zero, takeRefs_zero]
      exact ⟨rfl, rfl, hv, hout, .refl hex⟩
  | 0, h, v, out, n + 1, hv, _, hfuel, hn, _, _ => by
    obtain ⟨r, rs, hrefs⟩ := exists_cons (Nat.lt_of_succ_le hn)
    rw [hrefs, length_cons] at hfuel
    exact absurd hfuel (Nat.not_succ_le_zero _)
  | fuel + 1, h, v, out, n + 1, hv, hout, hfuel, hn, hspare, hex => by
    obtain ⟨r, rs, hrefs⟩ := exists_cons (Nat.lt_of_succ_le hn)
    rw [cutnLoop, hv.frontRef hrefs]
    by_cases hle : r.length ≤ n + 1
    · rw [hrefs, takeRefs, if_neg n.succ_ne_zero, if_pos hle, length_cons] at hspare
      have hr := hv.head hrefs
      rw [if_pos hle]
      have hone := cutn_whole hv hout hrefs (hspare.mono hle (by omega)) hex
      rw [hrefs, length_cons] at hfuel
      rw [hrefs, total_cons] at hn
      have hspare' : Spare (pushRef true h out r).2.refs (n + 1 - r.length) (takeRefs rs (n + 1 - r.length)).length := by
        rw [hone.refs']
        exact Spare.push (hspare.mono (by omega) (Nat.le_refl _)) hout.refs hr
      rw [← hone.refs] at hspare'
      have hex' := hone.count.exact
      rw [← hone.refs, ← hone.refs'] at hex'
      obtain ⟨h', v', out', heq, hedit⟩ := cutnLoop_spec (k := fuel) (n := n + 1 - r.length) hone.ok hone.ok'
        (by rw [hone.refs]; omega) (by rw [hone.refs]; omega) hspare' hex'
      rw [hone.refs, hone.refs'] at hedit
      rw [hrefs, dropRefs_beyond n.succ_pos (Nat.not_lt.mpr hle), takeRefs, if_neg n.succ_ne_zero, if_pos hle]
      exact ⟨h', v', out', heq, hone.trans hedit⟩
    · have hr := hv.head hrefs
      have hu : u32 (n + 1) = n + 1 := by
        have := hr.bound
        exact Nat.mod_eq_of_lt (by omega)
      rw [hrefs, takeRefs, if_neg n.succ_ne_zero, if_neg hle] at hspare
      rw [if_neg hle, hu]
      refine ⟨_, _, _, rfl, ?_⟩
      rw [hrefs, dropRefs_within n.succ_pos (by omega), takeRefs, if_neg n.succ_ne_zero, if_neg hle]
      exact cutn_part hv hout hrefs n.succ_pos (by omega) hspare hex

theorem cutn_spec (hv : v.Ok) (hout : out.Ok)
    (hspare : Spare out.refs (min n (total v.refs)) (takeRefs v.refs (min n (total v.refs))).length)
    (hex : Exact h (blocks v.refs + (blocks out.refs + F))) :
    ∃ h' v' out', cutn h v out n = some (h', v', out', min n (total v.refs)) ∧
      Edit2 h v out F h' v' out' (dropRefs v.refs (min n (total v.refs)))
        (pushAll out.refs (takeRefs v.refs (min n (total v.refs)))) := by
  obtain ⟨h', v', out', heq, hedit⟩ := cutnLoop_spec hv hout (Nat.le_refl _) (Nat.min_le_right n _) hspare hex
  refine ⟨h', v', out', ?_, hedit⟩
  rw [cutn, hv.length, hv.refNum, heq]
  rfl

section

variable {other : IOBuf} (hv : v.Ok) (ho : other.Ok) (hex : Exact h (blocks v.refs + (blocks other.refs + F)))

include hv ho hex

theorem appendBuf_spec (hspare : Spare v.refs (total other.refs) other.refs.length) :
    Edit h v (blocks other.refs + F) (appendBuf h v other).1 (appendBuf h v other).2 (pushAll v.refs other.refs) := by
  rw [appendBuf, ho.map_refAt]
  exact foldl_pushRef_copy hv ho.refs hspare hex (fun r hr => mem_add.mpr (.inl (mem_blocks hr)))

/-- An empty buffer takes the references over as they are, another one merges them. -/
theorem appendMovable_spec (hspare : Spare v.refs (total other.refs) other.refs.length) :
    ∃ rs, Edit2 h v other F (appendMovable h v other).1 (appendMovable h v other).2.1
        (appendMovable h v other).2.2 rs [] ∧
      (Fits h v.refs → Fits h other.refs → Fits h rs ∧ bytes h rs = bytes h v.refs ++ bytes h other.refs) := by
  by_cases hempty : v.refs = []
  · have heq : appendMovable h v other = (h, other, v) := by
      rw [appendMovable, hv.isEmpty, hempty]
      rfl
    rw [heq]
    refine ⟨other.refs, ⟨rfl, hempty, ho, hv, ?_⟩, fun _ hf => ⟨hf, ?_⟩⟩
    · rw [hempty, blocks_nil, zero_add] at hex ⊢
      rw [zero_add]
      exact .refl hex
    · rw [hempty, bytes_nil, nil_append]
  · have heq : appendMovable h v other =
        ((other.refs.foldl (fun s r => pushRef true s.1 s.2 r) (h, v)).1,
          (other.refs.foldl (fun s r => pushRef true s.1 s.2 r) (h, v)).2, .new) := by
      rw [appendMovable, hv.isEmpty, isEmpty_eq_false_iff.mpr hempty, if_neg Bool.false_ne_true, ho.map_refAt]
    rw [add_left_comm] at hex
    obtain ⟨hrefs, hok, hcount⟩ := foldl_pushRef_move hv ho.refs hspare hex
    rw [heq]
    refine ⟨_, ⟨hrefs, rfl, hok, .new, ?_⟩, fun hf hfo => bytes_pushAll hv.refs ho.refs hf hfo⟩
    rw [add_left_comm, blocks_nil, zero_add]
    exact hcount

/-- The references of `other` keep its blocks there while the old ones of `v` are dropped. -/
theorem assign_edit :
    Edit h v (blocks other.refs + F) (assign h v other).1 (assign h v other).2 other.refs := by
  obtain ⟨hheap, hrefs, hok⟩ := assign_spec (h := h) hv ho
  have hdec : Recount h _ (decRefs h v.refs) (blocks other.refs + F) := .decAll _ hex
  refine ⟨hrefs, hok, hdec.trans ?_⟩
  rw [hheap]
  exact .incAll _ hdec.exact (fun b hb => mem_add.mpr (.inl (mem_coe.mpr hb)))

end

end LightRpc.IOBuffer

import LightRpc.IOBufOps

/- `IOBuf::equals` decides equality of contents.

   The function walks both buffers with a cursor each. A round compares as many bytes as both
   cursors have in their references, moves both on, and goes to the next reference on a side
   whose reference is used up; it returns true as soon as a side has no more references.
   `Side.rest` are the bytes a cursor has still to read. As long as nothing differed, both
   sides have the same number of bytes left, so the side that runs out first is not alone.

   The model also returns what `memcmp` was given to read. -/
namespace LightRpc.IOBuffer

open List

/-- `d1`, `len1` and `i` of one side; the pointer is a block and a position in its data. -/
structure Side where
  block : BlockId
  pos : Nat
  len : Nat
  next : Nat

/-- The start of the reference before number `next`. -/
def Side.at (r : BlockRef) (next : Nat) : Side := ⟨r.block, r.offset, r.length, next⟩

/-- The next `n` bytes. -/
def Side.read (h : Heap) (d : Side) (n : Nat) : List UInt8 := readRef h ⟨d.pos, d.len, d.block⟩ n

def Side.span (d : Side) (n : Nat) : Span := ⟨d.block, d.pos, d.pos + n⟩

/-- The side after `n` bytes of its reference were compared, if it has any left. -/
def Side.advance (v : IOBuf) (d : Side) (n : Nat) : Option Side :=
  if d.len - n = 0 then
    if v.refNum ≤ d.next then none else some (.at (v.refAt d.next) (d.next + 1))
  else some { d with pos := d.pos + n, len := d.len - n }

/-- The loop of `equals`, with the ranges it reads -/
def equalsLoop (h : Heap) (v u : IOBuf) : Nat → Side → Side → Option (Bool × List Span)
  | 0, _, _ => none
  | fuel + 1, d₁, d₂ =>
    let cmplen := min d₁.len d₂.len
    let spans := [d₁.span cmplen, d₂.span cmplen]
    if d₁.read h cmplen ≠ d₂.read h cmplen then some (false, spans)
    else
      match d₁.advance v cmplen with
      | none => some (true, spans)
      | some d₁ =>
        match d₂.advance u cmplen with
        | none => some (true, spans)
        | some d₂ => (equalsLoop h v u fuel d₁ d₂).map fun s => (s.1, spans ++ s.2)

/-- `IOBuf::equals` -/
def equals (h : Heap) (v u : IOBuf) : Option (Bool × List Span) :=
  if v.length ≠ u.length then some (false, [])
  else if v.length = 0 then some (true, [])
  else equalsLoop h v u (v.refNum + u.refNum) (.at (v.refAt 0) 1) (.at (u.refAt 0) 1)

/-- The references are in the view that `_small()` reports, none is empty, and `length()` is the
    number of bytes: of a big view `nbytes` is, and of a small one the 32-bit sum has not wrapped
    around. -/
structure IOBuf.WellFormed (v : IOBuf) : Prop where
  shape : v.Shape
  nonempty : ∀ r ∈ v.refs, 0 < r.length
  counted : v.length = total v.refs

variable {h : Heap} {v u : IOBuf} {d d' d₁ d₂ : Side} {n fuel : Nat}

theorem IOBuf.Shape.getElem?_refs (hv : v.Shape) {i : Nat} (hi : i < v.refNum) : v.refs[i]? = some (v.refAt i) := by
  rw [← hv.map_refAt, getElem?_map, getElem?_range hi]
  rfl

/-! What a cursor has left. -/

/-- The cursor is in a reference of the buffer. -/
structure Side.On (h : Heap) (v : IOBuf) (d : Side) : Prop where
  some_left : 0 < d.len
  inside : ∃ r ∈ v.refs, d.block = r.block ∧ r.offset ≤ d.pos ∧ d.pos + d.len = r.offset + r.length
  passed : d.next ≤ v.refs.length

/-- The bytes from the cursor to the end of the buffer. -/
def Side.rest (h : Heap) (v : IOBuf) (d : Side) : List UInt8 := d.read h d.len ++ bytes h (v.refs.drop d.next)

/-- Rounds the cursor can last: one for its reference and one for each that follows. -/
def Side.rounds (v : IOBuf) (d : Side) : Nat := v.refs.length - d.next

theorem Side.On.payload (hd : d.On h v) (hf : Fits h v.refs) : ∃ b, h.payload d.block = some b := by
  obtain ⟨r, hr, hblock, -⟩ := hd.inside
  obtain ⟨b, hb, -⟩ := hf r hr
  exact ⟨b, hblock ▸ hb⟩

/-- The first `n` bytes of the rest are those read. -/
theorem Side.On.rest_eq (hd : d.On h v) (hf : Fits h v.refs) (hn : n ≤ d.len) : d.rest h v = d.read h n ++
      (readRef h ⟨d.pos + n, d.len - n, d.block⟩ (d.len - n) ++ bytes h (v.refs.drop d.next)) := by
  obtain ⟨b, hb⟩ := hd.payload hf
  have hsplit := readRef_split (r := ⟨d.pos, d.len, d.block⟩) hb (k := n) (n := d.len - n)
  rw [Nat.add_sub_cancel' hn] at hsplit
  rw [Side.rest, Side.read, hsplit, append_assoc]
  rfl

theorem Side.On.length_read (hd : d.On h v) (hf : Fits h v.refs) (n : Nat) : (d.read h n).length = n := by
  obtain ⟨b, hb⟩ := hd.payload hf
  exact length_readRef (r := ⟨d.pos, d.len, d.block⟩) hb n

theorem Side.at_on (hv : v.WellFormed) {i : Nat} (hi : i < v.refNum) : (Side.at (v.refAt i) (i + 1)).On h v ∧
      (Side.at (v.refAt i) (i + 1)).rest h v = bytes h (v.refs.drop i) := by
  have hget := hv.shape.getElem?_refs hi
  have hlen : i < v.refs.length := by rwa [← IOBuf.refNum_eq]
  have hmem : v.refAt i ∈ v.refs := List.mem_of_getElem? hget
  refine ⟨⟨hv.nonempty _ hmem, ⟨_, hmem, rfl, Nat.le_refl _, rfl⟩, hlen⟩, ?_⟩
  rw [List.drop_eq_getElem_cons hlen, (List.getElem?_eq_some_iff.mp hget).2, bytes_cons]
  rfl

/-- The side after a comparison: at the end, or with what follows the bytes compared. -/
theorem Side.On.advance (hv : v.WellFormed) (hd : d.On h v) (hf : Fits h v.refs) (h0 : 0 < n) (hn : n ≤ d.len) :
    (d.advance v n = none ∧ d.rest h v = d.read h n) ∨
    ∃ d', d.advance v n = some d' ∧ d'.On h v ∧ d.rest h v = d.read h n ++ d'.rest h v ∧
      d'.rounds v ≤ d.rounds v ∧ (n = d.len → d'.rounds v < d.rounds v) := by
  have hrest := hd.rest_eq hf hn
  by_cases hend : d.len - n = 0
  · have hn' : n = d.len := by omega
    have hempty : readRef h ⟨d.pos + n, d.len - n, d.block⟩ (d.len - n) = [] := by
      obtain ⟨b, hb⟩ := hd.payload hf
      rw [hend]
      exact readRef_of_payload (r := ⟨d.pos + n, 0, d.block⟩) hb 0
    rw [hempty, nil_append] at hrest
    by_cases hnext : v.refNum ≤ d.next
    · left
      refine ⟨by simp [Side.advance, hend, hnext], ?_⟩
      rw [hrest, drop_eq_nil_of_le (by rwa [← IOBuf.refNum_eq]), bytes_nil, append_nil]
    · right
      obtain ⟨hon, hat⟩ := Side.at_on (h := h) hv (Nat.lt_of_not_le hnext)
      have hlt : d.next < v.refs.length := by
        rw [← IOBuf.refNum_eq]
        exact Nat.lt_of_not_le hnext
      refine ⟨_, by simp [Side.advance, hend, hnext], hon, ?_, ?_, ?_⟩
      · rw [hat]
        exact hrest
      · simp only [Side.rounds, Side.at]
        omega
      · simp only [Side.rounds, Side.at]
        omega
  · right
    obtain ⟨r, hr, hblock, hlo, hhi⟩ := hd.inside
    refine ⟨{ d with pos := d.pos + n, len := d.len - n }, by simp [Side.advance, hend],
      ⟨by show 0 < d.len - n; omega, ⟨r, hr, hblock, ?_, ?_⟩, hd.passed⟩, hrest, Nat.le_refl _, ?_⟩
    · show r.offset ≤ d.pos + n
      omega
    · show d.pos + n + (d.len - n) = r.offset + r.length
      omega
    · intro hn'
      omega

/-! The loop. -/

/-- The range lies in a live reference of the buffer. -/
def Span.InRef (h : Heap) (v : IOBuf) (s : Span) : Prop :=
  ∃ r ∈ v.refs, s.block = r.block ∧ r.offset ≤ s.lo ∧ s.hi ≤ r.offset + r.length ∧
    ∃ b, h.payload r.block = some b ∧ r.offset + r.length ≤ b.size

theorem Side.On.span (hd : d.On h v) (hf : Fits h v.refs) (hn : n ≤ d.len) : (d.span n).InRef h v := by
  obtain ⟨r, hr, hblock, hlo, hhi⟩ := hd.inside
  refine ⟨r, hr, hblock, hlo, ?_, hf r hr⟩
  show d.pos + n ≤ r.offset + r.length
  omega

/-- Equal beginnings of the same length leave the ends to be compared. -/
theorem decide_append {xs ys xs' ys' : List UInt8} (h : xs = xs') :
    decide (xs ++ ys = xs' ++ ys') = decide (ys = ys') := by
  rw [h]
  simp

theorem equalsLoop_spec (hv : v.WellFormed) (hu : u.WellFormed) (hfv : Fits h v.refs) (hfu : Fits h u.refs)
    (h₁ : d₁.On h v) (h₂ : d₂.On h u) (hlen : (d₁.rest h v).length = (d₂.rest h u).length)
    (hfuel : d₁.rounds v + d₂.rounds u < fuel) :
    ∃ spans, equalsLoop h v u fuel d₁ d₂ = some (decide (d₁.rest h v = d₂.rest h u), spans) ∧
      ∀ s ∈ spans, s.InRef h v ∨ s.InRef h u := by
  induction fuel generalizing d₁ d₂ with
  | zero => exact absurd hfuel (Nat.not_lt_zero _)
  | succ fuel ih =>
    have hpos : 0 < min d₁.len d₂.len := Nat.lt_min.mpr ⟨h₁.some_left, h₂.some_left⟩
    have hle₁ : min d₁.len d₂.len ≤ d₁.len := Nat.min_le_left _ _
    have hle₂ : min d₁.len d₂.len ≤ d₂.len := Nat.min_le_right _ _
    have hread : (d₁.read h (min d₁.len d₂.len)).length = (d₂.read h (min d₁.len d₂.len)).length := by
      rw [h₁.length_read hfv, h₂.length_read hfu]
    have hspans : ∀ s ∈ [d₁.span (min d₁.len d₂.len), d₂.span (min d₁.len d₂.len)], s.InRef h v ∨ s.InRef h u := by
      simp only [mem_cons, not_mem_nil, or_false, forall_eq_or_imp, forall_eq]
      exact ⟨.inl (h₁.span hfv hle₁), .inr (h₂.span hfu hle₂)⟩
    unfold equalsLoop
    by_cases hdiff : d₁.read h (min d₁.len d₂.len) = d₂.read h (min d₁.len d₂.len)
    · rw [if_neg (not_not.mpr hdiff)]
      rcases h₁.advance hv hfv hpos hle₁ with ⟨hend₁, hrest₁⟩ | ⟨d₁', hnext₁, hon₁, hrest₁, hrounds₁, hless₁⟩ <;>
      rcases h₂.advance hu hfu hpos hle₂ with ⟨hend₂, hrest₂⟩ | ⟨d₂', hnext₂, hon₂, hrest₂, hrounds₂, hless₂⟩
      · refine ⟨_, ?_, hspans⟩
        rw [hend₁, hrest₁, hrest₂, hdiff]
        simp
      · -- one side is used up, so the other has nothing left
        refine ⟨_, ?_, hspans⟩
        rw [hrest₁, hrest₂, length_append, hread] at hlen
        have hnil : d₂'.rest h u = [] := length_eq_zero_iff.mp (by omega)
        rw [hend₁, hrest₁, hrest₂, hnil, hdiff]
        simp
      · refine ⟨_, ?_, hspans⟩
        rw [hrest₁, hrest₂, length_append, hread] at hlen
        have hnil : d₁'.rest h v = [] := length_eq_zero_iff.mp (by omega)
        rw [hnext₁, hend₂, hrest₁, hrest₂, hnil, hdiff]
        simp
      · have hlen' : (d₁'.rest h v).length = (d₂'.rest h u).length := by
          rw [hrest₁, hrest₂, length_append, length_append, hread] at hlen
          omega
        -- the shorter of the two references is used up
        have hround : d₁'.rounds v + d₂'.rounds u < fuel := by
          rcases Nat.le_total d₁.len d₂.len with hmin | hmin
          · have := hless₁ (Nat.min_eq_left hmin)
            omega
          · have := hless₂ (Nat.min_eq_right hmin)
            omega
        obtain ⟨spans, heq, hin⟩ := ih hon₁ hon₂ hlen' hround
        refine ⟨[d₁.span (min d₁.len d₂.len), d₂.span (min d₁.len d₂.len)] ++ spans, ?_, ?_⟩
        · simp only [hnext₁, hnext₂, heq, Option.map_some]
          rw [hrest₁, hrest₂, decide_append hdiff]
        · intro s hs
          exact (mem_append.mp hs).elim (hspans s) (hin s)
    · rw [if_pos hdiff]
      refine ⟨_, ?_, hspans⟩
      have hne : d₁.rest h v ≠ d₂.rest h u := by
        rw [h₁.rest_eq hfv hle₁, h₂.rest_eq hfu hle₂]
        exact fun heq => hdiff (append_inj heq hread).1
      rw [decide_eq_false hne]

/-- For well-formed buffers `equals` returns, true exactly if the contents are the same, and reads
    only bytes of references whose blocks are live. -/
theorem equals_decides (hv : v.WellFormed) (hu : u.WellFormed) (hfv : Fits h v.refs) (hfu : Fits h u.refs) :
    ∃ spans, equals h v u = some (decide (bytes h v.refs = bytes h u.refs), spans) ∧
      ∀ s ∈ spans, s.InRef h v ∨ s.InRef h u := by
  have hlenv : (bytes h v.refs).length = v.length := by rw [hfv.length_bytes, hv.counted]
  have hlenu : (bytes h u.refs).length = u.length := by rw [hfu.length_bytes, hu.counted]
  unfold equals
  by_cases hlen : v.length = u.length
  · by_cases hzero : v.length = 0
    · refine ⟨[], ?_, by simp⟩
      have hv0 : bytes h v.refs = [] := List.length_eq_zero_iff.mp (by rw [hlenv, hzero])
      have hu0 : bytes h u.refs = [] := List.length_eq_zero_iff.mp (by rw [hlenu, ← hlen, hzero])
      rw [hv0, hu0]
      simp [hlen, hlen ▸ hzero]
    · have hposv : 0 < v.refNum := by
        rw [IOBuf.refNum_eq]
        apply List.length_pos_of_ne_nil
        intro hnil
        rw [hv.counted, hnil] at hzero
        exact hzero rfl
      have hposu : 0 < u.refNum := by
        rw [IOBuf.refNum_eq]
        apply List.length_pos_of_ne_nil
        intro hnil
        rw [hlen, hu.counted, hnil] at hzero
        exact hzero rfl
      obtain ⟨hon₁, hrest₁⟩ := Side.at_on (h := h) hv hposv
      obtain ⟨hon₂, hrest₂⟩ := Side.at_on (h := h) hu hposu
      rw [List.drop_zero] at hrest₁ hrest₂
      have hsame : ((Side.at (v.refAt 0) 1).rest h v).length = ((Side.at (u.refAt 0) 1).rest h u).length := by
        rw [hrest₁, hrest₂, hlenv, hlenu, hlen]
      have hfuel : (Side.at (v.refAt 0) 1).rounds v + (Side.at (u.refAt 0) 1).rounds u < v.refNum + u.refNum := by
        rw [IOBuf.refNum_eq] at hposv hposu
        rw [IOBuf.refNum_eq, IOBuf.refNum_eq]
        simp only [Side.rounds, Side.at]
        omega
      obtain ⟨spans, heq, hin⟩ := equalsLoop_spec hv hu hfv hfu hon₁ hon₂ hsame hfuel
      refine ⟨spans, ?_, hin⟩
      rw [if_neg (not_not.mpr hlen), if_neg hzero, heq, hrest₁, hrest₂]
  · refine ⟨[], ?_, by simp⟩
    have hne : bytes h v.refs ≠ bytes h u.refs := by
      intro heq
      rw [heq, hlenu] at hlenv
      exact hlen hlenv.symm
    rw [if_pos hlen, decide_eq_false hne]

/-- Three bytes of a block, held as two references and as three. -/
def threeBytesHeap : Heap := Lib.RefCount.Store.empty.alloc ⟨false, 3, 8160, fun i => if i = 0 then 1 else 2⟩

def inTwo : IOBuf := .small (some ⟨0, 2, 0⟩) (some ⟨2, 1, 0⟩)

def inThree : IOBuf :=
  .big ⟨0, [⟨0, 1, 0⟩, ⟨1, 1, 0⟩, ⟨2, 1, 0⟩] ++ List.replicate 29 default, 3, 31, 3, none⟩

theorem inTwo_wellFormed : inTwo.WellFormed where
  shape := nofun
  nonempty := by decide
  counted := by decide

theorem inThree_wellFormed : inThree.WellFormed where
  shape := ⟨⟨⟨5, rfl⟩, by decide, rfl, by decide, by decide, rfl⟩, by decide, rfl⟩
  nonempty := by decide
  counted := by decide

theorem threeBytes_fit {v : IOBuf} (hv : ∀ r ∈ v.refs, r.block = 0 ∧ r.offset + r.length ≤ 3) :
    Fits threeBytesHeap v.refs := by
  intro r hr
  obtain ⟨hblock, hend⟩ := hv r hr
  rw [hblock]
  exact ⟨_, rfl, hend⟩

theorem inTwo_equals_inThree : bytes threeBytesHeap inTwo.refs = bytes threeBytesHeap inThree.refs ∧
    ∃ spans, equals threeBytesHeap inTwo inThree = some (true, spans) := by
  have hsame : bytes threeBytesHeap inTwo.refs = bytes threeBytesHeap inThree.refs := by decide
  obtain ⟨spans, heq, -⟩ := equals_decides inTwo_wellFormed inThree_wellFormed
    (threeBytes_fit (by decide)) (threeBytes_fit (by decide))
  exact ⟨hsame, spans, by rw [heq, decide_eq_true hsame]⟩

end LightRpc.IOBuffer

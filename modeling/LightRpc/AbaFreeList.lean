import LightRpc.Lib.Machine
import LightRpc.Lib.Window

/- `ListOfABAFreeId`: a list of blocks of identifiers, from which nothing is ever removed; an
   entry whose identifier has died is used again.

   `add` looks at four entries from a cursor on. If all are in use, it splits the block at the
   cursor, so that there is room behind it, and spreads the four and the new identifier over it;
   when the list is long enough, it collects the garbage instead, and when it is too long, it
   refuses.

   The order of the entries means nothing, so what an operation does is an equation between
   multisets of entries: a write exchanges one entry for another (`entries_write`), and a split
   adds a block of unused ones (`entries_split`). The spreading writes to entries of eight
   different indices, which is why a block has to have eight.

   What is proved: every `add` that does not end with a collected list adds its identifier and
   keeps the others, or fails and keeps all; and `_nblock` counts the blocks. An `add` that
   collects the garbage returns 0 without adding. -/
namespace LightRpc.AbaFreeList

open Lib Multiset Function Option

variable {ι : Type}

/-- `IdTraits`: the last two are the static assertion, and that `_cur_index` can count the
    entries of a block. -/
structure Traits (ι : Type) where
  blockSize : Nat
  maxEntries : Nat
  initGcSize : Nat
  idInit : ι
  eight : 8 ≤ blockSize
  enough : blockSize * 2 < maxEntries
  counted : blockSize < 2 ^ 32

def EAGAIN : Int := 11

def ENOMEM : Int := 12

/-- The entries of the blocks, by address and index, and the addresses of the blocks from
    `_head_block` (0) on. -/
structure IdList (ι : Type) where
  mem : Nat × Nat → ι
  chain : List Nat
  curBlock : Nat
  curIndex : Nat
  nblock : Nat
  nextGcSize : Nat
  /-- The address of the next block that is allocated. -/
  fresh : Nat

/-- `next` of a block. -/
def nextOf : List Nat → Nat → Option Nat
  | x :: y :: l, a => if x = a then some y else nextOf (y :: l) a
  | _, _ => none

def insertAfter (a new : Nat) : List Nat → List Nat
  | [] => []
  | x :: l => if x = a then x :: new :: l else x :: insertAfter a new l

namespace IdList

def create (tr : Traits ι) : IdList ι := ⟨fun _ => tr.idInit, [0], 0, 0, 1, tr.initGcSize % 2 ^ 32, 1⟩

/-- The entry at the cursor. -/
def pos (s : IdList ι) : Nat × Nat := (s.curBlock, s.curIndex)

def write (s : IdList ι) (p : Nat × Nat) (x : ι) : IdList ι := { s with mem := Function.update s.mem p x }

/-- `forward_index` -/
def forward (tr : Traits ι) (s : IdList ι) : IdList ι :=
  if tr.blockSize ≤ s.curIndex + 1 then { s with curIndex := 0, curBlock := (nextOf s.chain s.curBlock).getD 0 }
  else { s with curIndex := s.curIndex + 1 }

end IdList

section

variable [DecidableEq ι] (tr : Traits ι) (alive : ι → Bool)

/-- An entry that is in use. -/
def live (x : ι) : Bool := x != tr.idInit && alive x

def entries (mem : Nat × Nat → ι) (chain : List Nat) : List ι := (chain ×ˢ List.range tr.blockSize).map mem

/-- The identifiers that `apply` calls its function with, in this order. -/
def IdList.visited (s : IdList ι) : List ι := (entries tr s.mem s.chain).filter (live tr alive)

/-- The loop of `add` over `count` entries: `none` if the identifier was stored in one, otherwise
    the entries, in addition to those saved before. -/
def scan (id : ι) : Nat → IdList ι → List (Nat × Nat) → IdList ι × Option (List (Nat × Nat))
  | 0, s, saved => (s, some saved)
  | count + 1, s, saved =>
    let p := s.pos
    let s := s.forward tr
    if live tr alive (s.mem p) then scan id count s (saved ++ [p]) else (s.write p id, none)

/-- The new block gets the entries from the cursor on, and follows the block. -/
def IdList.split (s : IdList ι) : IdList ι :=
  { s with
    mem := fun p =>
      if p.1 = s.fresh then if p.2 < s.curIndex then tr.idInit else s.mem (s.curBlock, p.2)
      else if p.1 = s.curBlock ∧ s.curIndex ≤ p.2 then tr.idInit
      else s.mem p
    chain := insertAfter s.curBlock s.fresh s.chain
    nblock := (s.nblock + 1) % 2 ^ 32
    fresh := s.fresh + 1 }

/-- The four entries are spread, the new identifier after them; `p₁` to `p₃` are `saved_pos`. -/
def IdList.scatter (s : IdList ι) (id : ι) (p₁ p₂ p₃ : Nat × Nat) : IdList ι :=
  let s := s.write s.pos (s.mem p₂)
  let s := s.write p₂ (s.mem p₁)
  let s := s.write p₁ tr.idInit
  let s := (s.forward tr).forward tr
  let s := s.write s.pos (s.mem p₃)
  let s := s.write p₃ tr.idInit
  let s := s.forward tr
  let s := s.write s.pos id
  s.forward tr

/-! Garbage collection; `allocs` is the number of allocations that succeed. -/

/-- `TempIdBlock`, with the list it is the end of -/
structure Temp (ι : Type) where
  mem : Nat × Nat → ι
  chain : List Nat
  block : Nat
  index : Nat
  nblock : Nat
  fresh : Nat
  allocs : Nat

/-- A new block, all unused. -/
def blank (mem : Nat × Nat → ι) (a : Nat) : Nat × Nat → ι := fun p => if p.1 = a then tr.idInit else mem p

/-- `add_to_temp_list`; `none` is ENOMEM. -/
def Temp.add (tmp : Temp ι) (x : ι) : Option (Temp ι) :=
  let mem := Function.update tmp.mem (tmp.block, tmp.index) x
  if tmp.index + 1 = tr.blockSize then
    if tmp.allocs = 0 then none
    else
      some ⟨blank tr mem tmp.fresh, tmp.chain ++ [tmp.fresh], tmp.fresh, 0, (tmp.nblock + 1) % 2 ^ 32, tmp.fresh + 1,
        tmp.allocs - 1⟩
  else some { tmp with mem := mem, index := tmp.index + 1 }

/-- The function that `gc` calls for each identifier, over all of them. -/
def Temp.addAll : Temp ι → List ι → Option (Temp ι)
  | tmp, [] => some tmp
  | tmp, x :: xs => ((tmp.add tr x).bind (·.add tr tr.idInit)).bind (·.addAll xs)

/-- `gc`; `none` is ENOMEM, and then the new blocks are freed. -/
def IdList.gc (s : IdList ι) (allocs : Nat) : Option (IdList ι) :=
  if allocs = 0 then none
  else
    let tmp : Temp ι := ⟨blank tr s.mem s.fresh, [s.fresh], s.fresh, 0, 1, s.fresh + 1, allocs - 1⟩
    (tmp.addAll tr (s.visited tr alive)).map fun tmp =>
      { mem := blank tr tmp.mem 0
        chain := 0 :: tmp.chain
        curBlock := tmp.block
        curIndex := tmp.index
        nblock := (tmp.nblock + 1) % 2 ^ 32
        nextGcSize := s.nextGcSize
        fresh := tmp.fresh }

/-- `_next_gc_size` after a collection that left `nblock` blocks of `before`. -/
def nextGc (before nblock nextGcSize : Nat) : Nat :=
  if (before + 2 ^ 32 - nblock) % 2 ^ 32 * tr.blockSize < nextGcSize - nextGcSize / 4 then
    let doubled := nextGcSize * 2 % 2 ^ 32
    if tr.maxEntries ≤ doubled then (tr.maxEntries - tr.blockSize * 2) % 2 ^ 32 else doubled
  else nextGcSize

/-- `add` -/
def IdList.add (s : IdList ι) (id : ι) (allocs : Nat) : IdList ι × Int :=
  match scan tr alive id 4 s [] with
  | (s, some [_, p₁, p₂, p₃]) =>
    if tr.maxEntries < s.nblock * tr.blockSize then (s, EAGAIN)
    else if s.nextGcSize < s.nblock * tr.blockSize then
      match s.gc tr alive allocs with
      | none => ({ s with nextGcSize := nextGc tr s.nblock s.nblock s.nextGcSize }, ENOMEM)
      | some s' => ({ s' with nextGcSize := nextGc tr s.nblock s'.nblock s.nextGcSize }, 0)
    else if allocs = 0 then (s, ENOMEM)
    else ((s.split tr).scatter tr id p₁ p₂ p₃, 0)
  | (s, _) => (s, 0)

/-! Runs: identifiers are added, each once, and die. -/

structure World (ι : Type) where
  list : IdList ι
  alive : ι → Bool
  added : List ι

inductive Act (ι : Type) where
  | add (id : ι) (allocs : Nat)
  | die (id : ι)

def World.next (w : World ι) : Act ι → Option (World ι)
  | .add id allocs =>
    if id ∈ w.added then none
    else some { w with list := (w.list.add tr w.alive id allocs).1, added := id :: w.added }
  | .die id => some { w with alive := Function.update w.alive id false }

def listMachine : Machine (World ι) (Act ι) where
  init := fun w => w.list = IdList.create tr ∧ w.added = []
  next := World.next tr

end

/-! Multisets of entries. -/

section

variable {tr : Traits ι} {mem : Nat × Nat → ι} {chain l : List Nat} {p : Nat × Nat} {x id : ι} {a new : Nat}

/-- The entries of a block. -/
def block (tr : Traits ι) (mem : Nat × Nat → ι) (a : Nat) : Multiset ι :=
  (Multiset.range tr.blockSize).map fun i => mem (a, i)

theorem entries_cons (mem : Nat × Nat → ι) (a : Nat) (l : List Nat) :
    (↑(entries tr mem (a :: l)) : Multiset ι) = block tr mem a + ↑(entries tr mem l) := by
  rw [entries, List.product_cons, List.map_append, ← coe_add, List.map_map]
  rfl

theorem mem_positions : p ∈ chain ×ˢ List.range tr.blockSize ↔ p.1 ∈ chain ∧ p.2 < tr.blockSize := by
  rw [← List.mem_range]
  exact List.mem_product

/-- A write exchanges an entry. -/
theorem entries_write (hnodup : chain.Nodup) (hp : p.1 ∈ chain ∧ p.2 < tr.blockSize) (mem : Nat × Nat → ι) (x : ι) :
    (↑(entries tr (update mem p x) chain) : Multiset ι) + {mem p} = ↑(entries tr mem chain) + {x} := by
  have hpos : p ∈ chain ×ˢ List.range tr.blockSize := mem_positions.mpr hp
  have hnd : (chain ×ˢ List.range tr.blockSize).Nodup := hnodup.product List.nodup_range
  have hperm := List.perm_cons_erase hpos
  have hsplit : ∀ f : Nat × Nat → ι, (↑(entries tr f chain) : Multiset ι) =
      {f p} + ↑(((chain ×ˢ List.range tr.blockSize).erase p).map f) := by
    intro f
    exact coe_eq_coe.mpr (hperm.map f)
  have hrest : ((chain ×ˢ List.range tr.blockSize).erase p).map (update mem p x) =
      ((chain ×ˢ List.range tr.blockSize).erase p).map mem := by
    apply List.map_congr_left
    intro q hq
    exact update_of_ne (hnd.mem_erase_iff.mp hq).1 _ _
  rw [hsplit, hsplit mem, hrest, update_self]
  abel

theorem entries_congr {mem' : Nat × Nat → ι} (h : ∀ a ∈ chain, ∀ i, mem' (a, i) = mem (a, i)) :
    entries tr mem' chain = entries tr mem chain := by
  apply List.map_congr_left
  intro q hq
  exact h q.1 (mem_positions.mp hq).1 q.2

/-- A split adds a block of unused entries. -/
theorem entries_split {s : IdList ι} (hnodup : s.chain.Nodup) (hfresh : ∀ a ∈ s.chain, a < s.fresh)
    (hcur : s.curBlock ∈ s.chain) : (↑(entries tr (s.split tr).mem (s.split tr).chain) : Multiset ι) =
      ↑(entries tr s.mem s.chain) + Multiset.replicate tr.blockSize tr.idInit := by
  have hne : s.curBlock ≠ s.fresh := Nat.ne_of_lt (hfresh _ hcur)
  -- the two blocks, entry by entry
  have htwo : block tr (s.split tr).mem s.curBlock + block tr (s.split tr).mem s.fresh =
      block tr s.mem s.curBlock + Multiset.replicate tr.blockSize tr.idInit := by
    have hconst : Multiset.replicate tr.blockSize tr.idInit =
        (Multiset.range tr.blockSize).map fun _ => tr.idInit := by
      rw [Multiset.map_const', Multiset.card_range]
    rw [hconst]
    unfold block
    generalize Multiset.range tr.blockSize = r
    induction r using Multiset.induction with
    | empty => simp
    | cons i r ih =>
      simp only [Multiset.map_cons, IdList.split, hne, if_false, if_true, true_and] at ih ⊢
      by_cases hi : i < s.curIndex
      · simp only [hi, if_true, Nat.not_le.mpr hi, if_false, Multiset.cons_add, Multiset.add_cons, ih]
      · simp only [hi, if_false, Nat.not_lt.mp hi, if_true, Multiset.cons_add, Multiset.add_cons, ih]
        rw [Multiset.cons_swap]
  have hchain : ∀ l : List Nat, l.Nodup → (∀ a ∈ l, a < s.fresh) → s.curBlock ∈ l →
      (↑(entries tr (s.split tr).mem (insertAfter s.curBlock s.fresh l)) : Multiset ι) =
        ↑(entries tr s.mem l) + Multiset.replicate tr.blockSize tr.idInit := by
    intro l hl hlt hmem
    induction l with
    | nil => cases hmem
    | cons a l ih =>
      obtain ⟨hnot, hl⟩ := List.nodup_cons.mp hl
      have hlt' : ∀ b ∈ l, b < s.fresh := fun b hb => hlt b (List.mem_cons_of_mem _ hb)
      by_cases ha : a = s.curBlock
      · have hrest : entries tr (s.split tr).mem l = entries tr s.mem l := by
          apply entries_congr
          intro b hb i
          have hb₁ : b ≠ s.fresh := Nat.ne_of_lt (hlt' b hb)
          have hb₂ : b ≠ s.curBlock := fun heq => hnot (ha ▸ heq ▸ hb)
          simp [IdList.split, hb₁, hb₂]
        rw [insertAfter, if_pos ha, entries_cons, entries_cons, entries_cons, ha, hrest, ← add_assoc, htwo]
        abel
      · have hmem : s.curBlock ∈ l := (List.mem_cons.mp hmem).resolve_left (Ne.symm ha)
        have hhead : block tr (s.split tr).mem a = block tr s.mem a := by
          have ha' : a ≠ s.fresh := Nat.ne_of_lt (hlt a List.mem_cons_self)
          simp [block, IdList.split, ha, ha']
        rw [insertAfter, if_neg ha, entries_cons, entries_cons, ih hl hlt' hmem, hhead, add_assoc]
  exact hchain s.chain hnodup hfresh hcur

end

/-! The cursor. -/

/-- The cursor is in a block of the list. -/
structure Placed (tr : Traits ι) (s : IdList ι) : Prop where
  head : 0 ∈ s.chain
  nodup : s.chain.Nodup
  fresh : ∀ a ∈ s.chain, a < s.fresh
  block : s.curBlock ∈ s.chain
  index : s.curIndex < tr.blockSize

/-- The cursor is all that moved. -/
def SameList (s s' : IdList ι) : Prop := s' = { s with curBlock := s'.curBlock, curIndex := s'.curIndex }

section

variable {tr : Traits ι} {s s' s'' : IdList ι} {p : Nat × Nat} {x id : ι}

theorem SameList.trans (h : SameList s s') (h' : SameList s' s'') : SameList s s'' := by
  rw [SameList] at *
  rw [h', h]

theorem SameList.mem (h : SameList s s') : s'.mem = s.mem := by rw [h]

theorem SameList.chain (h : SameList s s') : s'.chain = s.chain := by rw [h]

theorem SameList.nblock (h : SameList s s') : s'.nblock = s.nblock := by rw [h]

theorem SameList.nextGcSize (h : SameList s s') : s'.nextGcSize = s.nextGcSize := by rw [h]

theorem nextOf_mem {chain : List Nat} {a b : Nat} (h : nextOf chain a = some b) : b ∈ chain := by
  induction chain with
  | nil => cases h
  | cons x l ih =>
    cases l with
    | nil => cases h
    | cons y l =>
      simp only [nextOf] at h
      split at h
      · rw [← some.inj h]
        simp
      · exact List.mem_cons_of_mem _ (ih h)

/-- The cursor goes to the next index, around the end of the block. -/
theorem Placed.forward (h : Placed tr s) : SameList s (s.forward tr) ∧ Placed tr (s.forward tr) ∧
      (s.forward tr).curIndex = (s.curIndex + 1) % tr.blockSize := by
  have hindex := h.index
  unfold IdList.forward
  split
  · next hend =>
    have hlast : s.curIndex + 1 = tr.blockSize := by omega
    refine ⟨rfl, ⟨h.head, h.nodup, h.fresh, ?_, by show 0 < tr.blockSize; omega⟩, by rw [hlast, Nat.mod_self]⟩
    cases hnext : nextOf s.chain s.curBlock with
    | none => exact h.head
    | some b => exact nextOf_mem hnext
  · next hend =>
    have hlt : s.curIndex + 1 < tr.blockSize := by omega
    exact ⟨rfl, ⟨h.head, h.nodup, h.fresh, h.block, hlt⟩, (Nat.mod_eq_of_lt hlt).symm⟩

theorem Placed.write (h : Placed tr s) (p : Nat × Nat) (x : ι) : Placed tr (s.write p x) :=
  ⟨h.head, h.nodup, h.fresh, h.block, h.index⟩

theorem Placed.pos_mem (h : Placed tr s) : s.pos.1 ∈ s.chain ∧ s.pos.2 < tr.blockSize := ⟨h.block, h.index⟩

variable [DecidableEq ι]

/-- Either the identifier takes the place of an entry that is not in use, or all entries are, and
    they are at successive indices. -/
theorem scan_spec (alive : ι → Bool) (h : Placed tr s) (id : ι) (count : Nat) (saved : List (Nat × Nat)) :
    (∃ s₁ p, scan tr alive id count s saved = (s₁.write p id, none) ∧ SameList s s₁ ∧ Placed tr s₁ ∧
      (p.1 ∈ s.chain ∧ p.2 < tr.blockSize) ∧ live tr alive (s.mem p) = false) ∨
    (∃ s₁ ps, scan tr alive id count s saved = (s₁, some (saved ++ ps)) ∧ SameList s s₁ ∧ Placed tr s₁ ∧
      ps.length = count ∧ s₁.curIndex = (s.curIndex + count) % tr.blockSize ∧
      ∀ (j : Nat) p, ps[j]? = some p → (p.1 ∈ s.chain ∧ p.2 < tr.blockSize) ∧
        p.2 = (s.curIndex + j) % tr.blockSize) := by
  induction count generalizing s saved with
  | zero =>
    right
    refine ⟨s, [], by simp [scan], rfl, h, rfl, (Nat.mod_eq_of_lt h.index).symm, ?_⟩
    intro j p hp
    simp at hp
  | succ count ih =>
    obtain ⟨hsame, hplaced, hindex⟩ := h.forward
    by_cases hlive : live tr alive (s.mem s.pos) = true
    · have hscan : scan tr alive id (count + 1) s saved = scan tr alive id count (s.forward tr) (saved ++ [s.pos]) := by
        simp [scan, hsame.mem, hlive]
      rcases ih hplaced (saved ++ [s.pos]) with
        ⟨s₁, p, heq, hsame₁, hplaced₁, hp, hdead⟩ | ⟨s₁, ps, heq, hsame₁, hplaced₁, hlen, hcur, hps⟩
      · left
        rw [hsame.mem] at hdead
        rw [hsame.chain] at hp
        exact ⟨s₁, p, hscan.trans heq, hsame.trans hsame₁, hplaced₁, hp, hdead⟩
      · right
        refine ⟨s₁, s.pos :: ps, ?_, hsame.trans hsame₁, hplaced₁, by rw [List.length_cons, hlen], ?_, ?_⟩
        · rw [hscan, heq, List.append_assoc]
          rfl
        · rw [hcur, hindex, Nat.mod_add_mod, Nat.add_assoc, Nat.add_comm 1]
        · intro j p hp
          cases j with
          | zero =>
            rw [List.getElem?_cons_zero, some.injEq] at hp
            subst hp
            exact ⟨h.pos_mem, (Nat.mod_eq_of_lt h.index).symm⟩
          | succ j =>
            rw [List.getElem?_cons_succ] at hp
            obtain ⟨hmem, hidx⟩ := hps j p hp
            rw [hsame.chain] at hmem
            refine ⟨hmem, ?_⟩
            rw [hidx, hindex, Nat.mod_add_mod, Nat.add_assoc, Nat.add_comm 1]
    · left
      have hdead : live tr alive (s.mem s.pos) = false := by simpa using hlive
      refine ⟨s.forward tr, s.pos, ?_, hsame, hplaced, h.pos_mem, hdead⟩
      simp [scan, hsame.mem, hdead]

end

/-! Splitting a block and spreading entries over it. -/

section

variable {tr : Traits ι} {s t : IdList ι} {chain : List Nat} {a b new d : Nat}

theorem mem_insertAfter (ha : a ∈ chain) : b ∈ insertAfter a new chain ↔ b = new ∨ b ∈ chain := by
  induction chain with
  | nil => cases ha
  | cons x l ih =>
    by_cases hx : x = a
    · simp only [insertAfter, hx, if_true, List.mem_cons]
      tauto
    · have ha : a ∈ l := (List.mem_cons.mp ha).resolve_left (Ne.symm hx)
      simp only [insertAfter, hx, if_false, List.mem_cons, ih ha]
      tauto

theorem nodup_insertAfter (hnodup : chain.Nodup) (hnew : new ∉ chain) (ha : a ∈ chain) :
    (insertAfter a new chain).Nodup := by
  induction chain with
  | nil => cases ha
  | cons x l ih =>
    obtain ⟨hx', hl⟩ := List.nodup_cons.mp hnodup
    obtain ⟨hne, hnew⟩ : new ≠ x ∧ new ∉ l := by simpa using hnew
    by_cases hx : x = a
    · rw [insertAfter, if_pos hx, List.nodup_cons, List.nodup_cons]
      exact ⟨by simp [hx', Ne.symm hne], hnew, hl⟩
    · have ha : a ∈ l := (List.mem_cons.mp ha).resolve_left (Ne.symm hx)
      rw [insertAfter, if_neg hx, List.nodup_cons]
      exact ⟨by simp [mem_insertAfter ha, hx', Ne.symm hne], ih hl hnew ha⟩

theorem length_insertAfter (ha : a ∈ chain) : (insertAfter a new chain).length = chain.length + 1 := by
  induction chain with
  | nil => cases ha
  | cons x l ih =>
    by_cases hx : x = a
    · simp [insertAfter, hx]
    · have ha : a ∈ l := (List.mem_cons.mp ha).resolve_left (Ne.symm hx)
      simp [insertAfter, hx, ih ha]

theorem nextOf_insertAfter (ha : a ∈ chain) : nextOf (insertAfter a new chain) a = some new := by
  induction chain with
  | nil => cases ha
  | cons x l ih =>
    by_cases hx : x = a
    · simp [insertAfter, hx, nextOf]
    · have ha : a ∈ l := (List.mem_cons.mp ha).resolve_left (Ne.symm hx)
      have hih := ih ha
      rw [insertAfter, if_neg hx]
      cases hl : insertAfter a new l with
      | nil =>
        rw [hl] at hih
        cases hih
      | cons y l' =>
        rw [hl] at hih
        rw [nextOf, if_neg hx, hih]

theorem Placed.split (h : Placed tr s) : Placed tr (s.split tr) where
  head := (mem_insertAfter h.block).mpr (.inr h.head)
  nodup := nodup_insertAfter h.nodup (fun hmem => Nat.lt_irrefl _ (h.fresh _ hmem)) h.block
  fresh := by
    intro a ha
    show a < s.fresh + 1
    rcases (mem_insertAfter h.block).mp ha with rfl | ha
    · exact Nat.lt_succ_self _
    · exact Nat.lt_succ_of_lt (h.fresh a ha)
  block := (mem_insertAfter h.block).mpr (.inr h.block)
  index := h.index

/-- The entry `d` places behind the one where the block is split. -/
def target (tr : Traits ι) (s : IdList ι) (d : Nat) : Nat × Nat :=
  if s.curIndex + d < tr.blockSize then (s.curBlock, s.curIndex + d)
  else (s.fresh, s.curIndex + d - tr.blockSize)

theorem target_index (h : Placed tr s) (hd : d < tr.blockSize) : (target tr s d).2 = (s.curIndex + d) % tr.blockSize := by
  have hindex := h.index
  unfold target
  split
  · next hlt => exact (Nat.mod_eq_of_lt hlt).symm
  · next hlt =>
    rw [Nat.mod_eq_sub_mod (Nat.not_lt.mp hlt), Nat.mod_eq_of_lt (by omega)]

theorem target_mem (h : Placed tr s) (hd : d < tr.blockSize) :
    (target tr s d).1 ∈ (s.split tr).chain ∧ (target tr s d).2 < tr.blockSize := by
  refine ⟨(mem_insertAfter h.block).mpr ?_, ?_⟩
  · unfold target
    split
    · exact .inr h.block
    · exact .inl rfl
  · rw [target_index h hd]
    exact Nat.mod_lt _ (by omega)

/-- It is not in use. -/
theorem target_unused (h : Placed tr s) (hd : d < tr.blockSize) : (s.split tr).mem (target tr s d) = tr.idInit := by
  have hne : s.curBlock ≠ s.fresh := Nat.ne_of_lt (h.fresh _ h.block)
  have hindex := h.index
  unfold target
  split
  · simp [IdList.split, hne]
  · next hlt => simp [IdList.split, show s.curIndex + d - tr.blockSize < s.curIndex by omega]

/-- The cursor is `d` places behind the split. -/
structure At (tr : Traits ι) (s : IdList ι) (d : Nat) (t : IdList ι) : Prop where
  placed : Placed tr t
  chain : t.chain = (s.split tr).chain
  nblock : t.nblock = (s.split tr).nblock
  nextGcSize : t.nextGcSize = s.nextGcSize
  pos : t.pos = target tr s d

theorem At.write (h : At tr s d t) (p : Nat × Nat) (x : ι) : At tr s d (t.write p x) :=
  ⟨h.placed.write p x, h.chain, h.nblock, h.nextGcSize, h.pos⟩

theorem At.forward (h : At tr s d t) (hs : Placed tr s) (hd : d + 1 < tr.blockSize) :
    At tr s (d + 1) (t.forward tr) ∧ (t.forward tr).mem = t.mem := by
  obtain ⟨hsame, hplaced, hindex⟩ := h.placed.forward
  have hcur := hs.index
  refine ⟨⟨hplaced, hsame.chain.trans h.chain, hsame.nblock.trans h.nblock, hsame.nextGcSize.trans h.nextGcSize, ?_⟩,
    hsame.mem⟩
  have hpos := h.pos
  unfold target at hpos ⊢
  by_cases hlt : s.curIndex + d < tr.blockSize
  · rw [if_pos hlt, IdList.pos, Prod.mk.injEq] at hpos
    by_cases hlt' : s.curIndex + (d + 1) < tr.blockSize
    · rw [if_pos hlt', IdList.pos, IdList.forward, if_neg (by omega)]
      simp only [Prod.mk.injEq]
      exact ⟨hpos.1, by omega⟩
    · rw [if_neg hlt', IdList.pos, IdList.forward, if_pos (by omega)]
      simp only [Prod.mk.injEq]
      refine ⟨?_, by omega⟩
      rw [h.chain, hpos.1]
      show (nextOf (insertAfter s.curBlock s.fresh s.chain) s.curBlock).getD 0 = s.fresh
      rw [nextOf_insertAfter hs.block]
      rfl
  · rw [if_neg hlt, IdList.pos, Prod.mk.injEq] at hpos
    rw [if_neg (by omega), IdList.pos, IdList.forward, if_neg (by omega)]
    simp only [Prod.mk.injEq]
    exact ⟨hpos.1, by omega⟩

/-- What the spreading does to the entries: `q₁` to `q₃` are the saved ones, and the three others
    unused ones behind the split. -/
def spread (init : ι) (mem : Nat × Nat → ι) (id : ι) (q₁ q₂ q₃ p₀ p₂ p₃ : Nat × Nat) : Nat × Nat → ι :=
  let mem := Function.update mem p₀ (mem q₂)
  let mem := Function.update mem q₂ (mem q₁)
  let mem := Function.update mem q₁ init
  let mem := Function.update mem p₂ (mem q₃)
  let mem := Function.update mem q₃ init
  Function.update mem p₃ id

theorem scatter_spec (h : Placed tr s) (id : ι) (q₁ q₂ q₃ : Nat × Nat) : ((s.split tr).scatter tr id q₁ q₂ q₃).mem =
        spread tr.idInit (s.split tr).mem id q₁ q₂ q₃ (target tr s 0) (target tr s 2) (target tr s 3) ∧
      Placed tr ((s.split tr).scatter tr id q₁ q₂ q₃) ∧
      ((s.split tr).scatter tr id q₁ q₂ q₃).chain = (s.split tr).chain ∧
      ((s.split tr).scatter tr id q₁ q₂ q₃).nblock = (s.split tr).nblock ∧
      ((s.split tr).scatter tr id q₁ q₂ q₃).nextGcSize = s.nextGcSize := by
  have height := tr.eight
  have hindex := h.index
  have h₀ : At tr s 0 (s.split tr) := by
    refine ⟨h.split, rfl, rfl, rfl, ?_⟩
    rw [target, if_pos (by omega)]
    rfl
  -- the states after the writes at one place of the cursor
  let t₀ := (((s.split tr).write (s.split tr).pos ((s.split tr).mem q₂)))
  let t₁ := (t₀.write q₂ (t₀.mem q₁)).write q₁ tr.idInit
  have ht₁ : At tr s 0 t₁ := ((h₀.write _ _).write _ _).write _ _
  obtain ⟨ht₂, hm₂⟩ := ht₁.forward h (by omega)
  obtain ⟨ht₃, hm₃⟩ := ht₂.forward h (by omega)
  let t₃ := (t₁.forward tr).forward tr
  let t₄ := t₃.write t₃.pos (t₃.mem q₃)
  let t₅ := t₄.write q₃ tr.idInit
  have ht₅ : At tr s 2 t₅ := (ht₃.write _ _).write _ _
  obtain ⟨ht₆, hm₆⟩ := ht₅.forward h (by omega)
  let t₆ := t₅.forward tr
  let t₇ := t₆.write t₆.pos id
  have ht₇ : At tr s 3 t₇ := ht₆.write _ _
  obtain ⟨hsame, hplaced, -⟩ := ht₇.placed.forward
  have hresult : (s.split tr).scatter tr id q₁ q₂ q₃ = t₇.forward tr := rfl
  rw [hresult]
  refine ⟨?_, hplaced, hsame.chain.trans ht₇.chain, hsame.nblock.trans ht₇.nblock, hsame.nextGcSize.trans ht₇.nextGcSize⟩
  rw [hsame.mem]
  show update t₆.mem t₆.pos id = _
  rw [ht₆.pos, hm₆]
  show update (update (update t₃.mem t₃.pos (t₃.mem q₃)) q₃ tr.idInit) (target tr s 3) id = _
  rw [ht₃.pos, show t₃.mem = t₁.mem from hm₃.trans hm₂]
  show update (update (update
    (update (update t₀.mem q₂ (t₀.mem q₁)) q₁ tr.idInit) (target tr s 2)
      (update (update t₀.mem q₂ (t₀.mem q₁)) q₁ tr.idInit q₃)) q₃ tr.idInit) (target tr s 3) id = _
  rw [show t₀.mem = update (s.split tr).mem (target tr s 0) ((s.split tr).mem q₂) by rw [← h₀.pos]; rfl]
  rfl

/-- Six different entries, of which three are not in use: only the new identifier comes in. -/
theorem entries_spread {init id : ι} {mem : Nat × Nat → ι} {q₁ q₂ q₃ p₀ p₂ p₃ : Nat × Nat} (hnodup : chain.Nodup)
    (hin : ∀ p ∈ [q₁, q₂, q₃, p₀, p₂, p₃], p.1 ∈ chain ∧ p.2 < tr.blockSize)
    (hdistinct : [q₁, q₂, q₃, p₀, p₂, p₃].Nodup) (h₀ : mem p₀ = init) (h₂ : mem p₂ = init) (h₃ : mem p₃ = init) :
    (↑(entries tr (spread init mem id q₁ q₂ q₃ p₀ p₂ p₃) chain) : Multiset ι) + {init} =
      ↑(entries tr mem chain) + {id} := by
  simp only [List.mem_cons, List.not_mem_nil, or_false, forall_eq_or_imp, forall_eq] at hin
  simp only [List.nodup_cons, List.mem_cons, List.not_mem_nil, or_false, not_or, List.nodup_nil, and_true] at hdistinct
  obtain ⟨hq₁, hq₂, hq₃, hp₀, hp₂, hp₃⟩ := hin
  obtain ⟨⟨h12, h13, h1a, h1b, h1c⟩, ⟨h23, h2a, h2b, h2c⟩, ⟨h3a, h3b, h3c⟩, ⟨hab, hac⟩, hbc, -⟩ := hdistinct
  let m₁ := update mem p₀ (mem q₂)
  let m₂ := update m₁ q₂ (m₁ q₁)
  let m₃ := update m₂ q₁ init
  let m₄ := update m₃ p₂ (m₃ q₃)
  let m₅ := update m₄ q₃ init
  -- what each write finds
  have v₂ : m₁ q₂ = mem q₂ := update_of_ne h2a _ _
  have v₁ : m₁ q₁ = mem q₁ := update_of_ne h1a _ _
  have v₃ : m₂ q₁ = mem q₁ := (update_of_ne h12 _ _).trans v₁
  have v₄ : m₃ p₂ = init :=
    calc
      m₃ p₂ = m₂ p₂ := update_of_ne (Ne.symm h1b) _ _
      _ = m₁ p₂ := update_of_ne (Ne.symm h2b) _ _
      _ = mem p₂ := update_of_ne (Ne.symm hab) _ _
      _ = init := h₂
  have v₅ : m₄ q₃ = m₃ q₃ := update_of_ne h3b _ _
  have v₆ : m₅ p₃ = init :=
    calc
      m₅ p₃ = m₄ p₃ := update_of_ne (Ne.symm h3c) _ _
      _ = m₃ p₃ := update_of_ne (Ne.symm hbc) _ _
      _ = m₂ p₃ := update_of_ne (Ne.symm h1c) _ _
      _ = m₁ p₃ := update_of_ne (Ne.symm h2c) _ _
      _ = mem p₃ := update_of_ne (Ne.symm hac) _ _
      _ = init := h₃
  classical
  apply ext.mpr
  intro x
  rw [count_add, count_add]
  have hwrite : ∀ {m : Nat × Nat → ι} {p y v w}, p.1 ∈ chain ∧ p.2 < tr.blockSize → m p = v → y = w →
      count x ↑(entries tr (update m p y) chain) + count x {v} =
        count x ↑(entries tr m chain) + count x {w} := by
    intro m p y v w hp hv hw
    rw [← hv, ← hw, ← count_add, ← count_add, entries_write hnodup hp]
  have c₁ : count x ↑(entries tr m₁ chain) + count x {init} =
      count x ↑(entries tr mem chain) + count x {mem q₂} := hwrite hp₀ h₀ rfl
  have c₂ : count x ↑(entries tr m₂ chain) + count x {mem q₂} =
      count x ↑(entries tr m₁ chain) + count x {mem q₁} := hwrite hq₂ v₂ v₁
  have c₃ : count x ↑(entries tr m₃ chain) + count x {mem q₁} =
      count x ↑(entries tr m₂ chain) + count x {init} := hwrite hq₁ v₃ rfl
  have c₄ : count x ↑(entries tr m₄ chain) + count x {init} =
      count x ↑(entries tr m₃ chain) + count x {m₃ q₃} := hwrite hp₂ v₄ rfl
  have c₅ : count x ↑(entries tr m₅ chain) + count x {m₃ q₃} =
      count x ↑(entries tr m₄ chain) + count x {init} := hwrite hq₃ v₅ rfl
  have c₆ : count x ↑(entries tr (spread init mem id q₁ q₂ q₃ p₀ p₂ p₃) chain) + count x {init} =
      count x ↑(entries tr m₅ chain) + count x {id} := hwrite hp₃ v₆ rfl
  omega

end

/-! Adding an identifier. -/

section

variable [DecidableEq ι] {tr : Traits ι} {alive : ι → Bool} {s s' : IdList ι} {id : ι} {allocs : Nat}

/-- The number of entries that can be added before an allocation fails. -/
def Temp.left (tr : Traits ι) (tmp : Temp ι) : Nat := tr.blockSize * tmp.allocs + (tr.blockSize - tmp.index)

omit [DecidableEq ι] in
theorem Temp.add_some {tmp tmp' : Temp ι} {x : ι} (h : tmp.add tr x = some tmp') (hindex : tmp.index < tr.blockSize) :
    tmp'.index < tr.blockSize ∧ tmp'.left tr + 1 = tmp.left tr := by
  unfold Temp.add at h
  simp only at h
  split at h
  · next hend =>
    split at h
    · cases h
    · next hallocs =>
      rw [← some.inj h]
      refine ⟨by show 0 < tr.blockSize; omega, ?_⟩
      obtain ⟨a, ha⟩ : ∃ a, tmp.allocs = a + 1 := ⟨tmp.allocs - 1, by omega⟩
      simp only [Temp.left, ha, Nat.add_sub_cancel, Nat.mul_succ]
      omega
  · next hend =>
    rw [← some.inj h]
    refine ⟨by show tmp.index + 1 < tr.blockSize; omega, ?_⟩
    simp only [Temp.left]
    omega

omit [DecidableEq ι] in
/-- Every identifier takes two entries. -/
theorem Temp.addAll_some {tmp tmp' : Temp ι} {xs : List ι} (h : tmp.addAll tr xs = some tmp')
    (hindex : tmp.index < tr.blockSize) : tmp'.index < tr.blockSize ∧ tmp'.left tr + 2 * xs.length = tmp.left tr := by
  induction xs generalizing tmp with
  | nil =>
    rw [← some.inj h]
    exact ⟨hindex, rfl⟩
  | cons x xs ih =>
    simp only [Temp.addAll, bind_eq_some_iff] at h
    obtain ⟨tmp₂, ⟨tmp₁, h₁, h₂⟩, h₃⟩ := h
    obtain ⟨hi₁, hl₁⟩ := Temp.add_some h₁ hindex
    obtain ⟨hi₂, hl₂⟩ := Temp.add_some h₂ hi₁
    obtain ⟨hi₃, hl₃⟩ := ih h₃ hi₂
    refine ⟨hi₃, ?_⟩
    rw [List.length_cons]
    omega

/-- A collection that has no room for two entries for each identifier fails. -/
theorem gc_fails (h : allocs * tr.blockSize ≤ 2 * (s.visited tr alive).length) : s.gc tr alive allocs = none := by
  unfold IdList.gc
  split
  · rfl
  · next hallocs =>
    rw [map_eq_none_iff]
    have height := tr.eight
    cases htmp : Temp.addAll tr _ (s.visited tr alive) with
    | none => rfl
    | some tmp =>
      obtain ⟨hi, hl⟩ := Temp.addAll_some htmp (by show 0 < tr.blockSize; omega)
      obtain ⟨a, rfl⟩ : ∃ a, allocs = a + 1 := ⟨allocs - 1, by omega⟩
      simp only [Temp.left, Nat.add_sub_cancel] at hl
      rw [Nat.add_mul, Nat.mul_comm] at h
      omega

/-- The list got an identifier and perhaps unused entries, and lost perhaps an entry that was not
    in use. -/
def Inserted (tr : Traits ι) (alive : ι → Bool) (s s' : IdList ι) (id : ι) : Prop :=
  ∃ gone blanks : Multiset ι, (∀ x ∈ gone, live tr alive x = false) ∧ (∀ x ∈ blanks, x = tr.idInit) ∧
    (↑(entries tr s'.mem s'.chain) : Multiset ι) + gone = ↑(entries tr s.mem s.chain) + {id} + blanks

/-- The `add` collects the garbage to the end. -/
def collects (tr : Traits ι) (alive : ι → Bool) (s : IdList ι) (id : ι) (allocs : Nat) : Bool :=
  (scan tr alive id 4 s []).2.isSome && s.nblock * tr.blockSize ≤ tr.maxEntries &&
    s.nextGcSize < s.nblock * tr.blockSize && 2 * (s.visited tr alive).length < allocs * tr.blockSize

structure Sound (tr : Traits ι) (s : IdList ι) : Prop where
  placed : Placed tr s
  count : s.nblock = s.chain.length
  word : s.nextGcSize < 2 ^ 32

omit [DecidableEq ι] in
theorem Sound.of_same (h : Sound tr s) (hsame : SameList s s') (hplaced : Placed tr s') : Sound tr s' :=
  ⟨hplaced, by rw [hsame.nblock, hsame.chain, h.count], by rw [hsame.nextGcSize]; exact h.word⟩

omit [DecidableEq ι] in
theorem nextGc_lt {before nblock next : Nat} (h : next < 2 ^ 32) : nextGc tr before nblock next < 2 ^ 32 := by
  unfold nextGc
  split
  · dsimp only
    split <;> exact Nat.mod_lt _ (by decide)
  · exact h

/-- Four entries in use, and room for a block. -/
theorem split_inserts (alive : ι → Bool) (id : ι) (h : Sound tr s) {ps : List (Nat × Nat)} {q₀ q₁ q₂ q₃ : Nat × Nat} {i : Nat}
    (hps : ps = [q₀, q₁, q₂, q₃]) (hcur : s.curIndex = (i + 4) % tr.blockSize)
    (hsaved : ∀ (j : Nat) p, ps[j]? = some p → (p.1 ∈ s.chain ∧ p.2 < tr.blockSize) ∧ p.2 = (i + j) % tr.blockSize)
    (hfew : s.nblock * tr.blockSize ≤ s.nextGcSize) : Sound tr ((s.split tr).scatter tr id q₁ q₂ q₃) ∧
      Inserted tr alive s ((s.split tr).scatter tr id q₁ q₂ q₃) id := by
  have height := tr.eight
  have hs := h.placed
  obtain ⟨hmem, hplaced, hchain, hnblock, hnext⟩ := scatter_spec hs id q₁ q₂ q₃
  have hroom : s.nblock + 1 < 2 ^ 32 := by
    have := h.word
    have : s.nblock * 8 ≤ s.nblock * tr.blockSize := Nat.mul_le_mul_left _ height
    omega
  refine ⟨⟨hplaced, ?_, by rw [hnext]; exact h.word⟩, ?_⟩
  · rw [hnblock, hchain]
    show (s.nblock + 1) % 2 ^ 32 = (insertAfter s.curBlock s.fresh s.chain).length
    rw [length_insertAfter hs.block, Nat.mod_eq_of_lt hroom, h.count]
  · obtain ⟨hq₁, hi₁⟩ := hsaved 1 q₁ (by rw [hps]; rfl)
    obtain ⟨hq₂, hi₂⟩ := hsaved 2 q₂ (by rw [hps]; rfl)
    obtain ⟨hq₃, hi₃⟩ := hsaved 3 q₃ (by rw [hps]; rfl)
    have hold : ∀ {q : Nat × Nat}, q.1 ∈ s.chain ∧ q.2 < tr.blockSize → q.1 ∈ (s.split tr).chain ∧ q.2 < tr.blockSize :=
      fun hq => ⟨(mem_insertAfter hs.block).mpr (.inr hq.1), hq.2⟩
    -- eight successive indices, of which six are used
    have hindex : ∀ {d : Nat}, d < 4 → (target tr s d).2 = (i + (4 + d)) % tr.blockSize := by
      intro d hd
      rw [target_index hs (by omega), hcur, Nat.mod_add_mod, Nat.add_assoc]
    have hne : ∀ {p q : Nat × Nat} {j k : Nat}, p.2 = (i + j) % tr.blockSize → q.2 = (i + k) % tr.blockSize → j < 8 →
        k < 8 → j ≠ k → p ≠ q := by
      rintro p q j k hp hq hj hk hjk rfl
      exact hjk (Window.index_inj (by omega) (by omega) (hp.symm.trans hq))
    have hdistinct : [q₁, q₂, q₃, target tr s 0, target tr s 2, target tr s 3].Nodup := by
      simp only [List.nodup_cons, List.mem_cons, List.not_mem_nil, or_false, not_or, List.nodup_nil, and_true,
        not_false_eq_true]
      have h₀ := hindex (d := 0) (by omega)
      have h₂ := hindex (d := 2) (by omega)
      have h₃ := hindex (d := 3) (by omega)
      refine ⟨⟨hne hi₁ hi₂ ?_ ?_ ?_, hne hi₁ hi₃ ?_ ?_ ?_, hne hi₁ h₀ ?_ ?_ ?_, hne hi₁ h₂ ?_ ?_ ?_, hne hi₁ h₃ ?_ ?_ ?_⟩,
        ⟨hne hi₂ hi₃ ?_ ?_ ?_, hne hi₂ h₀ ?_ ?_ ?_, hne hi₂ h₂ ?_ ?_ ?_, hne hi₂ h₃ ?_ ?_ ?_⟩,
        ⟨hne hi₃ h₀ ?_ ?_ ?_, hne hi₃ h₂ ?_ ?_ ?_, hne hi₃ h₃ ?_ ?_ ?_⟩,
        ⟨hne h₀ h₂ ?_ ?_ ?_, hne h₀ h₃ ?_ ?_ ?_⟩, hne h₂ h₃ ?_ ?_ ?_⟩ <;> decide
    refine ⟨{tr.idInit}, replicate tr.blockSize tr.idInit, by simp [live], fun x => eq_of_mem_replicate, ?_⟩
    rw [hmem, hchain, entries_spread hs.split.nodup ?_ hdistinct (target_unused hs (by omega)) (target_unused hs (by omega))
      (target_unused hs (by omega)), entries_split hs.nodup hs.fresh hs.block]
    · abel
    · simp only [List.mem_cons, List.not_mem_nil, or_false, forall_eq_or_imp, forall_eq]
      exact ⟨hold hq₁, hold hq₂, hold hq₃, target_mem hs (by omega), target_mem hs (by omega), target_mem hs (by omega)⟩

/-- What `add` returned: the identifier is in the list, or an error and the same entries. -/
def Added (tr : Traits ι) (alive : ι → Bool) (s : IdList ι) (id : ι) (r : IdList ι × Int) : Prop :=
  Sound tr r.1 ∧ (r.2 = 0 ∧ Inserted tr alive s r.1 id ∨ r.2 ≠ 0 ∧ r.1.mem = s.mem ∧ r.1.chain = s.chain)

theorem add_spec (alive : ι → Bool) (id : ι) (allocs : Nat) (h : Sound tr s) (hok : collects tr alive s id allocs = false) :
    Added tr alive s id (s.add tr alive id allocs) := by
  rcases scan_spec alive h.placed id 4 [] with
    ⟨s₁, p, hscan, hsame, hplaced, hp, hdead⟩ | ⟨s₁, ps, hscan, hsame, hplaced, hlen, hcur, hsaved⟩
  · -- an entry that is not in use
    have hadd : s.add tr alive id allocs = (s₁.write p id, 0) := by
      unfold IdList.add
      rw [hscan]
    rw [hadd]
    have hsound := h.of_same hsame hplaced
    refine ⟨⟨hplaced.write p id, hsound.count, hsound.word⟩, .inl ⟨rfl, {s.mem p}, 0, by simpa using hdead, by simp, ?_⟩⟩
    show (↑(entries tr (update s₁.mem p id) s₁.chain) : Multiset ι) + _ = _
    rw [hsame.mem, hsame.chain, entries_write h.placed.nodup hp, add_zero]
  · rw [List.nil_append] at hscan
    obtain ⟨q₀, q₁, q₂, q₃, rfl⟩ : ∃ q₀ q₁ q₂ q₃, ps = [q₀, q₁, q₂, q₃] := by
      match ps, hlen with
      | [q₀, q₁, q₂, q₃], _ => exact ⟨q₀, q₁, q₂, q₃, rfl⟩
    have hsound := h.of_same hsame hplaced
    have hvisited : s₁.visited tr alive = s.visited tr alive := by rw [IdList.visited, IdList.visited, hsame.mem, hsame.chain]
    have hkept : ∀ (rc : Int) (s' : IdList ι), s.add tr alive id allocs = (s', rc) → rc ≠ 0 → Sound tr s' →
        s'.mem = s₁.mem → s'.chain = s₁.chain → Added tr alive s id (s.add tr alive id allocs) := by
      intro rc s' hadd hrc hs' hmem hchain
      rw [hadd]
      exact ⟨hs', .inr ⟨hrc, hmem.trans hsame.mem, hchain.trans hsame.chain⟩⟩
    by_cases hmax : tr.maxEntries < s₁.nblock * tr.blockSize
    · refine hkept EAGAIN s₁ ?_ (by decide) hsound rfl rfl
      simp [IdList.add, hscan, hmax]
    by_cases hgc : s₁.nextGcSize < s₁.nblock * tr.blockSize
    · have hfail : s₁.gc tr alive allocs = none := by
        apply gc_fails
        rw [hvisited]
        simp only [collects, hscan, isSome_some, ← hsame.nblock, ← hsame.nextGcSize, Nat.not_lt.mp hmax, hgc,
          decide_true, Bool.true_and, decide_eq_false_iff_not, not_lt] at hok
        exact hok
      refine hkept ENOMEM { s₁ with nextGcSize := nextGc tr s₁.nblock s₁.nblock s₁.nextGcSize } ?_ (by decide)
        ⟨⟨hplaced.head, hplaced.nodup, hplaced.fresh, hplaced.block, hplaced.index⟩, hsound.count, nextGc_lt hsound.word⟩ rfl rfl
      simp [IdList.add, hscan, hmax, hgc, hfail]
    by_cases hallocs : allocs = 0
    · refine hkept ENOMEM s₁ ?_ (by decide) hsound rfl rfl
      simp [IdList.add, hscan, hmax, hgc, hallocs]
    · have hadd : s.add tr alive id allocs = ((s₁.split tr).scatter tr id q₁ q₂ q₃, 0) := by
        simp [IdList.add, hscan, hmax, hgc, hallocs]
      rw [hadd]
      obtain ⟨hsound', hinserted⟩ := split_inserts alive id hsound rfl hcur
        (fun j p hp => by rw [hsame.chain]; exact hsaved j p hp) (Nat.not_lt.mp hgc)
      refine ⟨hsound', .inl ⟨rfl, ?_⟩⟩
      rw [Inserted, hsame.mem, hsame.chain] at hinserted
      exact hinserted

/-! Runs. -/

/-- The entries that are not unused, dead ones included. -/
def used (tr : Traits ι) (s : IdList ι) : Multiset ι := (↑(entries tr s.mem s.chain) : Multiset ι).filter (· ≠ tr.idInit)

theorem filter_live (s : IdList ι) :
    (↑(s.visited tr alive) : Multiset ι) = (↑(entries tr s.mem s.chain) : Multiset ι).filter (live tr alive ·) := by
  rw [filter_coe, IdList.visited]
  congr 1
  apply List.filter_congr
  simp

theorem Inserted.visited (h : Inserted tr alive s s' id) :
    (s'.visited tr alive).Perm (if live tr alive id then id :: s.visited tr alive else s.visited tr alive) := by
  obtain ⟨gone, blanks, hgone, hblanks, heq⟩ := h
  have heq := congrArg (filter (live tr alive · = true)) heq
  have hgone : gone.filter (live tr alive · = true) = 0 := by
    rw [filter_eq_nil]
    intro x hx
    simp [hgone x hx]
  have hblanks : blanks.filter (live tr alive · = true) = 0 := by
    rw [filter_eq_nil]
    intro x hx
    simp [hblanks x hx, live]
  rw [filter_add, filter_add, filter_add, hgone, hblanks, add_zero, add_zero, ← filter_live,
    ← filter_live, filter_singleton] at heq
  apply coe_eq_coe.mp
  rw [heq]
  split
  · rw [add_comm]
    rfl
  · exact add_zero _

theorem Inserted.used_le (h : Inserted tr alive s s' id) : used tr s' ≤ id ::ₘ used tr s := by
  obtain ⟨gone, blanks, -, hblanks, heq⟩ := h
  have hblanks : blanks.filter (· ≠ tr.idInit) = 0 := by
    rw [filter_eq_nil]
    intro x hx
    simp [hblanks x hx]
  have heq := congrArg (filter (· ≠ tr.idInit)) heq
  rw [filter_add, filter_add, filter_add, hblanks, add_zero] at heq
  calc
    used tr s' ≤ used tr s' + gone.filter (· ≠ tr.idInit) := le_add_right _ _
    _ = used tr s + filter (· ≠ tr.idInit) {id} := heq
    _ ≤ used tr s + {id} := add_le_add_right (filter_le _ _) _
    _ = id ::ₘ used tr s := by rw [add_comm, singleton_add]

structure Inv (tr : Traits ι) (w : World ι) : Prop where
  sound : Sound tr w.list
  nodup : (used tr w.list).Nodup
  known : ∀ x ∈ used tr w.list, x ∈ w.added

theorem Inv.visited_nodup {w : World ι} (h : Inv tr w) : (w.list.visited tr w.alive).Nodup := by
  have hle : (↑(w.list.visited tr w.alive) : Multiset ι) ≤ used tr w.list := by
    rw [filter_live, used]
    apply monotone_filter_right
    intro x hx heq
    simp [live, heq] at hx
  exact coe_nodup.mp (nodup_of_le hle h.nodup)

omit [DecidableEq ι] in
theorem create_sound (tr : Traits ι) : Sound tr (IdList.create tr) where
  placed := ⟨List.mem_singleton_self 0, List.nodup_singleton 0, by simp [IdList.create], List.mem_singleton_self 0,
    Nat.lt_of_lt_of_le (show 0 < 8 by decide) tr.eight⟩
  count := rfl
  word := Nat.mod_lt _ (by decide)

theorem create_used (tr : Traits ι) : used tr (IdList.create tr) = 0 := by
  rw [used, filter_eq_nil]
  intro x hx
  obtain ⟨p, -, rfl⟩ := List.mem_map.mp hx
  simp [IdList.create]

/-- The steps that do not collect. -/
def uncollected (tr : Traits ι) (w : World ι) : Act ι → Bool
  | .add id allocs => !collects tr w.alive w.list id allocs
  | .die _ => true

theorem Inv.next {w w' : World ι} {a : Act ι} (h : Inv tr w) (hok : uncollected tr w a)
    (hn : w.next tr a = some w') : Inv tr w' := by
  cases a with
  | die id =>
    rw [← some.inj hn]
    exact ⟨h.sound, h.nodup, h.known⟩
  | add id allocs =>
    simp only [World.next] at hn
    split at hn
    · cases hn
    · next hnew =>
      rw [← some.inj hn]
      obtain ⟨hsound, hresult⟩ := add_spec w.alive id allocs h.sound (by simpa [uncollected] using hok)
      refine ⟨hsound, ?_, ?_⟩
      · rcases hresult with ⟨-, hins⟩ | ⟨-, hmem, hchain⟩
        · have hfresh : id ∉ used tr w.list := fun hmem => hnew (h.known id hmem)
          exact nodup_of_le hins.used_le (nodup_cons.mpr ⟨hfresh, h.nodup⟩)
        · show (used tr (w.list.add tr w.alive id allocs).1).Nodup
          rw [used, hmem, hchain]
          exact h.nodup
      · intro x hx
        rcases hresult with ⟨-, hins⟩ | ⟨-, hmem, hchain⟩
        · rcases mem_cons.mp (mem_of_le hins.used_le hx) with rfl | hx
          · exact List.mem_cons_self
          · exact List.mem_cons_of_mem _ (h.known x hx)
        · change x ∈ used tr (w.list.add tr w.alive id allocs).1 at hx
          rw [used, hmem, hchain] at hx
          exact List.mem_cons_of_mem _ (h.known x hx)

theorem inv_reachable {w : World ι} (h : ((listMachine tr).guard (uncollected tr)).Reachable w) : Inv tr w := by
  refine Machine.Reachable.invariant (I := Inv tr) ?_ ?_ h
  · rintro w ⟨hlist, -⟩
    refine ⟨hlist ▸ create_sound tr, ?_, ?_⟩
    · rw [hlist, create_used]
      exact nodup_zero
    · rw [hlist, create_used]
      exact nofun
  · intro w a w' hw hn
    obtain ⟨hok, hn⟩ := Machine.guard_next.mp hn
    exact hw.next hok hn

/-- In every run whose `add`s do not collect: `apply` visits no identifier twice, `_nblock` counts
    the blocks, a death removes the one that died, and an `add` that does not collect either
    returns 0, and its identifier is visited in addition, or an error, and nothing changed. -/
theorem list_keeps_ids {w : World ι} (h : ((listMachine tr).guard (uncollected tr)).Reachable w) :
    (w.list.visited tr w.alive).Nodup ∧ w.list.nblock = w.list.chain.length ∧
    (∀ id, w.list.visited tr (Function.update w.alive id false) = (w.list.visited tr w.alive).filter (· ≠ id)) ∧
    ∀ id allocs, id ∉ w.added → uncollected tr w (.add id allocs) = true →
      ((w.list.add tr w.alive id allocs).2 = 0 →
        ((w.list.add tr w.alive id allocs).1.visited tr w.alive).Perm
          (if live tr w.alive id then id :: w.list.visited tr w.alive else w.list.visited tr w.alive)) ∧
      ((w.list.add tr w.alive id allocs).2 ≠ 0 →
        (w.list.add tr w.alive id allocs).1.visited tr w.alive = w.list.visited tr w.alive) := by
  have hinv := inv_reachable h
  refine ⟨hinv.visited_nodup, hinv.sound.count, ?_, ?_⟩
  · intro id
    rw [IdList.visited, IdList.visited, List.filter_filter]
    apply List.filter_congr
    intro x _
    by_cases hx : x = id <;> simp [live, hx]
  · intro id allocs _ hok
    obtain ⟨-, hresult⟩ := add_spec w.alive id allocs hinv.sound (by simpa [uncollected] using hok)
    rcases hresult with ⟨hrc, hins⟩ | ⟨hrc, hmem, hchain⟩
    · exact ⟨fun _ => hins.visited, fun hne => absurd hrc hne⟩
    · refine ⟨fun heq => absurd heq hrc, fun _ => ?_⟩
      rw [IdList.visited, IdList.visited, hmem, hchain]

end

/-- Blocks of eight entries; a collection is due as soon as a block is full. -/
def smallTraits : Traits Nat := ⟨8, 17, 4, 0, by decide, by decide, by decide⟩

def addAll (ids : List Nat) : List (Act Nat) := ids.map fun id => .add id 9

/-- Nine identifiers that stay alive are added, each with return value 0; the ninth collects the
    garbage, and is not in the list. -/
theorem collecting_add_loses_id :
    ∃ w, (listMachine smallTraits).Reachable w ∧ w.list.visited smallTraits w.alive = [1, 2, 3, 4, 5, 6, 7, 8] ∧
      live smallTraits w.alive 9 = true ∧ (w.list.add smallTraits w.alive 9 9).2 = 0 ∧
      (w.list.add smallTraits w.alive 9 9).1.visited smallTraits w.alive = [1, 2, 3, 4, 5, 6, 7, 8] := by
  obtain ⟨w, hrun, hfacts⟩ : ∃ w, (listMachine smallTraits).Run (addAll [1, 2, 3, 4, 5, 6, 7, 8]) w ∧
      (w.list.visited smallTraits w.alive = [1, 2, 3, 4, 5, 6, 7, 8] ∧
        live smallTraits w.alive 9 = true ∧ (w.list.add smallTraits w.alive 9 9).2 = 0 ∧
        (w.list.add smallTraits w.alive 9 9).1.visited smallTraits w.alive = [1, 2, 3, 4, 5, 6, 7, 8]) :=
    Machine.exists_run (s := ⟨IdList.create smallTraits, fun _ => true, []⟩) ⟨rfl, rfl⟩ (by decide)
  exact ⟨w, ⟨_, hrun⟩, hfacts⟩

/-- Blocks of eight entries, without collections until there are eight blocks. -/
def roomyTraits : Traits Nat := ⟨8, 100, 64, 0, by decide, by decide, by decide⟩

/-- The ninth identifier makes the block split. -/
theorem ninth_id_kept :
    ∃ w, ((listMachine roomyTraits).guard (uncollected roomyTraits)).Reachable w ∧ w.list.nblock = 2 ∧
      (w.list.visited roomyTraits w.alive).Nodup := by
  obtain ⟨w, hrun, hblocks⟩ : ∃ w, ((listMachine roomyTraits).guard (uncollected roomyTraits)).Run
      (addAll [1, 2, 3, 4, 5, 6, 7, 8, 9]) w ∧ w.list.nblock = 2 :=
    Machine.exists_run (s := ⟨IdList.create roomyTraits, fun _ => true, []⟩) ⟨rfl, rfl⟩ (by decide)
  exact ⟨w, ⟨_, hrun⟩, hblocks, (list_keeps_ids ⟨_, hrun⟩).1⟩

end LightRpc.AbaFreeList

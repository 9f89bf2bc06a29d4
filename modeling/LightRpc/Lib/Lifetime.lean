import Mathlib

/- Objects that are referred to by versioned identifiers, as their users may rely on it.

   An object is created with one reference of its own. `address` takes a reference to an
   object that has not failed, `setFailed` makes it fail and passes its own reference to the
   caller, and whoever drops the last reference to a failed object recycles it. The
   identifiers of recycled objects are not used again.

   What the users have in hand are stakes: being the one who will make the object fail, a
   reference, or the duty to recycle it. `Inv` ties the stakes of all users to the objects,
   and there is one rule for each thing a user can do.

   `Pool` keeps the objects in slots that are used again, one generation after the other; it
   says what each operation does to the status of every identifier and to the memory. -/
namespace Lib.Lifetime

open Function

open Multiset

inductive Phase where
  | free
  | live
  | failed
  deriving DecidableEq, Repr

structure Status where
  phase : Phase
  count : Nat
  deriving DecidableEq, Repr

/-- The reference an object holds of itself. -/
def Status.own (a : Status) : Nat := if a.phase = .live then 1 else 0

def Status.none : Status := ⟨.free, 0⟩

inductive Stake (ι : Type) where
  | owner (i : ι)
  | ref (i : ι)
  | recycler (i : ι)
  deriving DecidableEq, Repr

variable {ι : Type} [DecidableEq ι]

structure Inv (σ : ι → Status) (T : Multiset (Stake ι)) : Prop where
  owner : ∀ i, T.count (.owner i) = (σ i).own
  ref : ∀ i, (σ i).count = (σ i).own + T.count (.ref i)
  recycler : ∀ i, T.count (.recycler i) = if (σ i).phase = .failed ∧ (σ i).count = 0 then 1 else 0
  gone : ∀ i, (σ i).phase = .free → (σ i).count = 0

theorem Inv.empty : Inv (fun _ : ι => Status.none) 0 where
  owner _ := rfl
  ref _ := rfl
  recycler _ := rfl
  gone _ _ := rfl

/-! What a stake says about its object. -/

section

variable {σ : ι → Status} {T : Multiset (Stake ι)} {i j : ι}

theorem Inv.owner_live (h : Inv σ T) (hmem : .owner i ∈ T) : (σ i).phase = .live := by
  have hpos : 0 < (σ i).own := by
    rw [← h.owner i]
    exact count_pos.mpr hmem
  by_contra hne
  rw [Status.own, if_neg hne] at hpos
  exact absurd hpos (Nat.lt_irrefl 0)

theorem Inv.ref_held (h : Inv σ T) (hmem : .ref i ∈ T) : (σ i).own < (σ i).count := by
  have hpos := count_pos.mpr hmem
  have := h.ref i
  omega

theorem Inv.ref_there (h : Inv σ T) (hmem : .ref i ∈ T) : (σ i).phase ≠ .free := by
  intro hp
  have hz := h.gone i hp
  have := h.ref_held hmem
  omega

theorem Inv.recycler_done (h : Inv σ T) (hmem : .recycler i ∈ T) : (σ i).phase = .failed ∧ (σ i).count = 0 := by
  have hpos := count_pos.mpr hmem
  rw [h.recycler i] at hpos
  by_contra hne
  rw [if_neg hne] at hpos
  exact absurd hpos (Nat.lt_irrefl 0)

theorem Inv.no_refs (h : Inv σ T) (hmem : .recycler i ∈ T) : .ref i ∉ T := by
  intro href
  have := h.ref_held href
  have := (h.recycler_done hmem).2
  omega

/-- An object that is there has somebody who will see to its end. -/
theorem Inv.staked (h : Inv σ T) (hp : (σ i).phase ≠ .free) : .owner i ∈ T ∨ .ref i ∈ T ∨ .recycler i ∈ T := by
  cases hphase : (σ i).phase with
  | free => exact absurd hphase hp
  | live =>
    left
    apply count_pos.mp
    rw [h.owner i, Status.own, if_pos hphase]
    exact Nat.one_pos
  | failed =>
    right
    rcases Nat.eq_zero_or_pos (σ i).count with hz | hpos
    · right
      apply count_pos.mp
      rw [h.recycler i, if_pos ⟨hphase, hz⟩]
      exact Nat.one_pos
    · left
      apply count_pos.mp
      have hcount := h.ref i
      rw [Status.own, hphase, if_neg (by decide)] at hcount
      omega

end

/-! The rules. -/

section

variable {σ : ι → Status} {T : Multiset (Stake ι)} {i : ι}

/-- Only the object whose status changes has to be looked at. -/
theorem Inv.change {T' : Multiset (Stake ι)} {a : Status} (h : Inv σ T)
    (hothers : ∀ j ≠ i, T'.count (.owner j) = T.count (.owner j) ∧ T'.count (.ref j) = T.count (.ref j) ∧
      T'.count (.recycler j) = T.count (.recycler j))
    (howner : T'.count (.owner i) = a.own) (href : a.count = a.own + T'.count (.ref i))
    (hrec : T'.count (.recycler i) = if a.phase = .failed ∧ a.count = 0 then 1 else 0)
    (hgone : a.phase = .free → a.count = 0) : Inv (update σ i a) T' := by
  refine ⟨fun j => ?_, fun j => ?_, fun j => ?_, fun j => ?_⟩ <;> rcases eq_or_ne j i with rfl | hne
  · rw [update_self]
    exact howner
  · rw [update_of_ne hne, (hothers j hne).1]
    exact h.owner j
  · rw [update_self]
    exact href
  · rw [update_of_ne hne, (hothers j hne).2.1]
    exact h.ref j
  · rw [update_self]
    exact hrec
  · rw [update_of_ne hne, (hothers j hne).2.2]
    exact h.recycler j
  · rw [update_self]
    exact hgone
  · rw [update_of_ne hne]
    exact h.gone j

theorem Inv.create (h : Inv σ T) (hfree : σ i = .none) : Inv (update σ i ⟨.live, 1⟩) (.owner i ::ₘ T) := by
  have ho := h.owner i
  have hr := h.ref i
  have hc := h.recycler i
  rw [hfree] at ho hr hc
  apply h.change
  · intro j hne
    simp [hne]
  · rw [count_cons_self, ho]
    rfl
  · have hr : 0 = 0 + T.count (.ref i) := hr
    rw [count_cons_of_ne (by simp)]
    show 1 = 1 + T.count (.ref i)
    omega
  · rw [count_cons_of_ne (by simp), hc]
    rfl
  · exact fun hp => absurd hp (by simp)

theorem Inv.setFailed (h : Inv σ (.owner i ::ₘ T)) : Inv (update σ i ⟨.failed, (σ i).count⟩) (.ref i ::ₘ T) := by
  have hlive := h.owner_live (mem_cons_self _ _)
  have ho := h.owner i
  have hr := h.ref i
  have hc := h.recycler i
  rw [Status.own, hlive, if_pos rfl] at ho hr
  rw [count_cons_self] at ho
  rw [count_cons_of_ne (by simp)] at hr hc
  rw [hlive, if_neg (by simp)] at hc
  apply h.change
  · intro j hne
    simp [hne]
  · rw [count_cons_of_ne (by simp)]
    show T.count (.owner i) = 0
    omega
  · rw [count_cons_self]
    show (σ i).count = 0 + (T.count (.ref i) + 1)
    omega
  · rw [count_cons_of_ne (by simp), hc, if_neg]
    rintro ⟨-, hz⟩
    have hz : (σ i).count = 0 := hz
    omega
  · exact fun hp => absurd hp (by simp)

theorem Inv.address (h : Inv σ T) (hlive : (σ i).phase = .live) :
    Inv (update σ i ⟨.live, (σ i).count + 1⟩) (.ref i ::ₘ T) := by
  have ho := h.owner i
  have hr := h.ref i
  have hc := h.recycler i
  rw [Status.own, hlive, if_pos rfl] at ho hr
  rw [hlive, if_neg (by simp)] at hc
  apply h.change
  · intro j hne
    simp [hne]
  · rw [count_cons_of_ne (by simp), ho]
    rfl
  · rw [count_cons_self]
    show (σ i).count + 1 = 1 + (T.count (.ref i) + 1)
    omega
  · rw [count_cons_of_ne (by simp), hc]
    rfl
  · exact fun hp => absurd hp (by simp)

/-- Dropping a reference; the last one of a failed object leaves the duty to recycle it. -/
theorem Inv.drop (h : Inv σ (.ref i ::ₘ T)) : Inv (update σ i ⟨(σ i).phase, (σ i).count - 1⟩)
      (if (σ i).phase = .failed ∧ (σ i).count = 1 then .recycler i ::ₘ T else T) := by
  have ho := h.owner i
  have hr := h.ref i
  have hc := h.recycler i
  rw [count_cons_self] at hr
  rw [count_cons_of_ne (by simp)] at ho hc
  rw [if_neg (by omega)] at hc
  have hthere := h.ref_there (mem_cons_self _ _)
  by_cases hlast : (σ i).phase = .failed ∧ (σ i).count = 1
  · rw [if_pos hlast]
    have hown : (σ i).own = 0 := by
      rw [Status.own, hlast.1]
      rfl
    apply h.change
    · intro j hne
      simp [hne]
    · rw [count_cons_of_ne (by simp), ho]
      rfl
    · rw [count_cons_of_ne (by simp)]
      show (σ i).count - 1 = (σ i).own + T.count (.ref i)
      omega
    · rw [count_cons_self, hc, if_pos ⟨hlast.1, by dsimp only; omega⟩]
    · exact fun hp => absurd hp hthere
  · rw [if_neg hlast]
    apply h.change
    · intro j hne
      simp [hne]
    · exact ho
    · show (σ i).count - 1 = (σ i).own + T.count (.ref i)
      omega
    · rw [hc, if_neg]
      rintro ⟨hp, hz⟩
      have hz : (σ i).count - 1 = 0 := hz
      exact hlast ⟨hp, by omega⟩
    · exact fun hp => absurd hp hthere

theorem Inv.recycle (h : Inv σ (.recycler i ::ₘ T)) : Inv (update σ i .none) T := by
  obtain ⟨hp, hz⟩ := h.recycler_done (mem_cons_self _ _)
  have ho := h.owner i
  have hr := h.ref i
  have hc := h.recycler i
  rw [count_cons_of_ne (by simp), Status.own, hp, if_neg (by decide)] at ho hr
  rw [count_cons_self, if_pos ⟨hp, hz⟩] at hc
  apply h.change
  · intro j hne
    simp [hne]
  · exact ho
  · show 0 = 0 + T.count (.ref i)
    omega
  · show T.count (.recycler i) = 0
    omega
  · exact fun _ => rfl

end

/-! Slots. -/

structure Id where
  slot : Nat
  gen : Nat
  deriving DecidableEq, Repr

structure Cell (π : Type) where
  gen : Nat
  status : Status
  payload : π

abbrev Pool (π : Type) := List (Cell π)

namespace Pool

variable {π : Type}

def status (σ : Pool π) (id : Id) : Status :=
  match σ[id.slot]? with
  | some c => if c.gen = id.gen then c.status else .none
  | none => .none

/-- The memory of a slot, whichever generation it belongs to. -/
def memory (σ : Pool π) (i : Nat) : Option π := (σ[i]?).map Cell.payload

/-- The identifier was given to an object, which may be recycled by now. -/
def Issued (σ : Pool π) (id : Id) : Prop :=
  ∃ c, σ[id.slot]? = some c ∧ (id.gen < c.gen ∨ id.gen = c.gen ∧ c.status ≠ .none)

/-- A new object in slot `i`, a free one or the first behind the others. -/
def create (σ : Pool π) (i : Nat) (p : π) : Option (Pool π × Id) :=
  match σ[i]? with
  | some c => if c.status = .none then some (σ.set i ⟨c.gen, ⟨.live, 1⟩, p⟩, ⟨i, c.gen⟩) else none
  | none => if i = σ.length then some (σ ++ [⟨0, ⟨.live, 1⟩, p⟩], ⟨i, 0⟩) else none

def setStatus (σ : Pool π) (id : Id) (a : Status) : Pool π := σ.modify id.slot (fun c => { c with status := a })

def address (σ : Pool π) (id : Id) : Option (Pool π) :=
  if (σ.status id).phase = .live then some (σ.setStatus id ⟨.live, (σ.status id).count + 1⟩) else none

def setFailed (σ : Pool π) (id : Id) : Option (Pool π) :=
  if (σ.status id).phase = .live then some (σ.setStatus id ⟨.failed, (σ.status id).count⟩) else none

/-- The pool, and whether this was the last reference to a failed object. -/
def drop (σ : Pool π) (id : Id) : Pool π × Bool :=
  (σ.setStatus id ⟨(σ.status id).phase, (σ.status id).count - 1⟩,
    decide ((σ.status id).phase = .failed ∧ (σ.status id).count = 1))

/-- The slot goes to the next generation. -/
def recycle (σ : Pool π) (id : Id) (blank : π) : Pool π := σ.modify id.slot (fun _ => ⟨id.gen + 1, .none, blank⟩)

variable {σ : Pool π} {id : Id} {i : Nat} {p : π}

section

variable (h : σ.status id ≠ .none)

include h

theorem exists_cell : ∃ c, σ[id.slot]? = some c ∧ c.gen = id.gen ∧ c.status = σ.status id := by
  rw [status] at h ⊢
  cases hc : σ[id.slot]? with
  | none =>
    rw [hc] at h
    exact absurd rfl h
  | some c =>
    rw [hc] at h
    dsimp only at h ⊢
    by_cases hg : c.gen = id.gen
    · exact ⟨c, rfl, hg, (if_pos hg).symm⟩
    · rw [if_neg hg] at h
      exact absurd rfl h

theorem issued_of_status : σ.Issued id := by
  obtain ⟨c, hc, hg, hs⟩ := exists_cell h
  exact ⟨c, hc, .inr ⟨hg.symm, hs ▸ h⟩⟩

theorem status_modify {f : Cell π → Cell π} {a : Status}
    (hself : ∀ c, c.gen = id.gen → (if (f c).gen = id.gen then (f c).status else .none) = a)
    (hother : ∀ c, c.gen = id.gen → ∀ g ≠ id.gen, (if (f c).gen = g then (f c).status else Status.none) = .none) :
    status (σ.modify id.slot f) = update σ.status id a := by
  obtain ⟨c, hc, hg, -⟩ := exists_cell h
  funext id'
  by_cases hslot : id'.slot = id.slot
  · rw [status, hslot, List.getElem?_modify_eq, hc]
    by_cases heq : id' = id
    · subst heq
      rw [update_self]
      exact hself c hg
    · have hne : id'.gen ≠ id.gen := by
        intro hgen
        apply heq
        cases id'
        cases id
        simp_all
      rw [update_of_ne heq, status, hslot, hc]
      dsimp only [Option.map_eq_map, Option.map_some]
      rw [hother c hg id'.gen hne, hg, if_neg hne.symm]
  · have heq : id' ≠ id := fun h => hslot (congrArg Id.slot h)
    rw [update_of_ne heq, status, status, List.getElem?_modify_ne _ _ (Ne.symm hslot)]

theorem status_setStatus (a : Status) : (σ.setStatus id a).status = update σ.status id a := by
  apply status_modify h
  · intro c hg
    exact if_pos hg
  · intro c hg g hne
    exact if_neg (fun h => hne (h.symm.trans hg))

theorem status_recycle (blank : π) : (σ.recycle id blank).status = update σ.status id .none := by
  apply status_modify h
  · intro c _
    exact if_neg (Nat.succ_ne_self id.gen)
  · intro c _ g _
    exact ite_self _

end

theorem memory_setStatus (id : Id) (a : Status) : (σ.setStatus id a).memory = σ.memory := by
  funext j
  rw [memory, memory, setStatus, List.getElem?_modify]
  cases σ[j]? with
  | none => rfl
  | some c =>
    by_cases hj : id.slot = j <;> simp [hj]

theorem issued_modify {f : Cell π → Cell π} (h : σ.status id ≠ .none)
    (hf : ∀ c, c.gen = id.gen → ∀ g, (g < (f c).gen ∨ g = (f c).gen ∧ (f c).status ≠ .none) ↔ g < c.gen ∨ g = c.gen)
    (id' : Id) : Issued (σ.modify id.slot f) id' ↔ σ.Issued id' := by
  obtain ⟨c, hc, hg, hs⟩ := exists_cell h
  by_cases hslot : id'.slot = id.slot
  · rw [Issued, Issued, hslot, List.getElem?_modify_eq, hc]
    constructor
    · rintro ⟨c', heq, hcase⟩
      cases heq
      refine ⟨c, rfl, ?_⟩
      exact ((hf c hg _).mp hcase).imp_right (fun h' => ⟨h', hs ▸ h⟩)
    · rintro ⟨c', heq, hcase⟩
      cases heq
      exact ⟨_, rfl, (hf c hg _).mpr (hcase.imp_right And.left)⟩
  · rw [Issued, Issued, List.getElem?_modify_ne _ _ (Ne.symm hslot)]

theorem issued_setStatus (h : σ.status id ≠ .none) {a : Status} (ha : a ≠ .none) (id' : Id) :
    (σ.setStatus id a).Issued id' ↔ σ.Issued id' := by
  apply issued_modify h
  intro c _ g
  exact or_congr_right (and_iff_left ha)

theorem issued_recycle (h : σ.status id ≠ .none) (blank : π) (id' : Id) :
    (σ.recycle id blank).Issued id' ↔ σ.Issued id' := by
  apply issued_modify h
  intro c hg g
  simp only [ne_eq, not_true_eq_false, and_false, or_false]
  omega

/-- Recycling leaves the memory of the other slots alone. -/
theorem memory_recycle_ne {blank : π} {j : Nat} (hne : j ≠ id.slot) : (σ.recycle id blank).memory j = σ.memory j := by
  rw [memory, memory, recycle, List.getElem?_modify_ne _ _ (Ne.symm hne)]

/-- What `create` did: a new identifier, alone in its slot. -/
structure Created (σ : Pool π) (p : π) (σ' : Pool π) (id : Id) : Prop where
  fresh : ¬ σ.Issued id
  before : σ.status id = .none
  alone : ∀ id', id'.slot = id.slot → σ.status id' = .none
  status : σ'.status = Function.update σ.status id ⟨.live, 1⟩
  issued : ∀ id', σ'.Issued id' ↔ σ.Issued id' ∨ id' = id
  memory : σ'.memory = Function.update σ.memory id.slot (some p)

theorem Created.of_lookup {σ' : Pool π} {g : Nat}
    (hlook : ∀ j, σ'[j]? = if j = i then some ⟨g, ⟨.live, 1⟩, p⟩ else σ[j]?)
    (hold : ∀ c, σ[i]? = some c → c.gen = g ∧ c.status = .none) (hnew : σ[i]? = none → g = 0) :
    Created σ p σ' ⟨i, g⟩ := by
  have halone : ∀ id : Id, id.slot = i → σ.status id = .none := by
    intro id hslot
    rw [Pool.status, hslot]
    cases hc : σ[i]? with
    | none => rfl
    | some c =>
      dsimp only
      rw [(hold c hc).2, ite_self]
  have hpast : ∀ id : Id, id.slot = i → (σ.Issued id ↔ id.gen < g) := by
    intro id hslot
    rw [Issued, hslot]
    constructor
    · rintro ⟨c, hc, hcase⟩
      obtain ⟨rfl, hnone⟩ := hold c hc
      exact hcase.resolve_right fun h => h.2 hnone
    · intro hlt
      cases hc : σ[i]? with
      | none =>
        rw [hnew hc] at hlt
        exact absurd hlt (Nat.not_lt_zero _)
      | some c => exact ⟨c, rfl, .inl ((hold c hc).1 ▸ hlt)⟩
  refine ⟨?_, halone _ rfl, halone, ?_, ?_, ?_⟩
  · rw [hpast _ rfl]
    exact Nat.lt_irrefl g
  · funext id
    rw [Pool.status, hlook]
    by_cases hslot : id.slot = i
    · rw [if_pos hslot]
      by_cases hg : g = id.gen
      · have heq : id = ⟨i, g⟩ := by rw [← hslot, hg]
        rw [heq, update_self]
        exact if_pos rfl
      · have hne : id ≠ ⟨i, g⟩ := fun h => hg (congrArg Id.gen h).symm
        rw [update_of_ne hne, halone id hslot]
        exact if_neg hg
    · have hne : id ≠ ⟨i, g⟩ := fun h => hslot (congrArg Id.slot h)
      rw [if_neg hslot, update_of_ne hne, Pool.status]
  · intro id
    by_cases hslot : id.slot = i
    · rw [hpast id hslot, Issued, hlook, if_pos hslot]
      constructor
      · rintro ⟨c, hc, hcase⟩
        cases hc
        refine hcase.imp_right fun h => ?_
        have hgen : id.gen = g := h.1
        rw [← hslot, ← hgen]
      · rintro (hlt | rfl)
        · exact ⟨_, rfl, .inl hlt⟩
        · exact ⟨_, rfl, .inr ⟨rfl, (by decide : (⟨.live, 1⟩ : Status) ≠ .none)⟩⟩
    · rw [Issued, Issued, hlook, if_neg hslot]
      refine ⟨.inl, fun h => h.resolve_right fun heq => hslot ?_⟩
      rw [heq]
  · funext j
    rw [Pool.memory, hlook]
    by_cases hj : j = i
    · rw [if_pos hj, hj, update_self]
      rfl
    · rw [if_neg hj, update_of_ne hj]
      rfl

theorem create_spec {σ' : Pool π} (h : σ.create i p = some (σ', id)) : Created σ p σ' id := by
  rw [create] at h
  cases hc : σ[i]? with
  | some c =>
    rw [hc] at h
    obtain ⟨hnone, heq⟩ := Option.ite_none_right_eq_some.mp h
    obtain ⟨rfl, rfl⟩ := Prod.mk.inj (Option.some.inj heq)
    apply Created.of_lookup
    · intro j
      rw [List.getElem?_set]
      by_cases hj : i = j
      · rw [if_pos hj, if_pos hj.symm, if_pos (List.getElem?_eq_some_iff.mp hc).1]
      · rw [if_neg hj, if_neg (Ne.symm hj)]
    · intro c' hc'
      obtain rfl := Option.some.inj (hc.symm.trans hc')
      exact ⟨rfl, hnone⟩
    · intro hnil
      exact absurd (hnil.symm.trans hc).symm (Option.some_ne_none c)
  | none =>
    rw [hc] at h
    obtain ⟨rfl, heq⟩ := Option.ite_none_right_eq_some.mp h
    obtain ⟨rfl, rfl⟩ := Prod.mk.inj (Option.some.inj heq)
    apply Created.of_lookup
    · intro j
      by_cases hj : j = σ.length
      · rw [if_pos hj, hj, List.getElem?_concat_length]
      · rw [if_neg hj]
        rcases Nat.lt_or_ge j σ.length with hlt | hge
        · rw [List.getElem?_append_left hlt]
        · rw [List.getElem?_eq_none hge, List.getElem?_eq_none]
          rw [List.length_append, List.length_singleton]
          omega
    · intro c hc'
      exact absurd (hc.symm.trans hc').symm (Option.some_ne_none c)
    · exact fun _ => rfl

end Pool

end Lib.Lifetime

import Mathlib

/- An intrusive queue with many producers and one owner at a time.

   A producer takes a node from a pool, exchanges it into `head` and, if there was
   a head before, links its node back to it in a second step. Whoever exchanged
   into an empty queue owns it: it consumes data, returns finished nodes to the
   pool, and leaves by a compare-and-swap of `head` from its last node to null. If
   that fails, newer nodes hang behind the last one, linked newest first; the owner
   turns this segment around, waiting for links that are not there yet, and appends
   it to its chain.

   Nothing here says which threads run this. Rights are tokens: `View`s of the
   owner, links still to be stored, nodes taken but not yet published, nodes to be
   given back. `Inv` relates the memory to the tokens that are out, whoever holds
   them, and each rule below says what one operation does to memory and tokens. A
   program is verified by assigning tokens to its program counters and citing one
   rule per step. -/
namespace Lib.OwnedQueue

open List Multiset Function Option

inductive Link (α : Type) where
  | unconnected
  | null
  | to (a : α)
  deriving DecidableEq

/-- The shared memory, and the history of what was published (in the order of the
    exchanges), consumed and returned. `ticket` numbers the publications; `dropped` is set
    when data is cleared without being consumed. -/
structure Mem (α β : Type) where
  head : Option α
  next : α → Link α
  data : α → List β
  inUse : α → Bool
  ticket : α → Nat
  pubs : List (List β)
  returned : List (Nat × List β)
  consumed : List β
  dropped : Bool

/-- What the owner of the queue knows. -/
inductive View (α : Type) where
  /-- It exchanged `a` into the empty queue and has not set its link yet. -/
  | fresh (a : α)
  /-- It owns the chain from `req`, whose last node it may know. -/
  | plain (req : α) (tail : Option α)
  /-- It is looking for the last node and has come to `cur`. -/
  | walk (req cur : α)
  /-- Its compare-and-swap failed on `newHead`; it has turned around all from `tail` on and
      stands at `p`. -/
  | rev (req old newHead p : α) (tail : Option α)
  deriving DecidableEq

/-- The queue in the order of the exchanges: the owner's chain, what it has still to turn
    around, what it has turned around, and what was published since. -/
structure Seg (α : Type) where
  priv : List α
  mid : List α
  revd : List α
  newer : List α

def Seg.all {α : Type} (s : Seg α) : List α := s.priv ++ s.mid ++ s.revd ++ s.newer

variable {α β : Type}
variable {req x p old newHead : α} {tail : Option α} {next next' : α → Link α} {s : Seg α} {v : View α}
  {L : Multiset (α × α)} {m m' : Mem α β}

/-- The owner's nodes are not those that link back. -/
theorem Seg.own_not_back (h : s.all.Nodup) (hx : x ∈ s.priv ++ s.revd) : x ∉ s.mid ++ s.newer := by
  simp only [Seg.all, nodup_append, mem_append, ne_eq] at h hx ⊢
  grind

/-- A chain that ends in null. -/
def Linked (next : α → Link α) : List α → Prop
  | [] => True
  | [a] => next a = .null
  | a :: b :: l => next a = .to b ∧ Linked next (b :: l)

/-- `x` is linked back to the node published before it, or its producer is about to. -/
def Conn (next : α → Link α) (links : Multiset (α × α)) (prev : Option α) (x : α) : Prop :=
  ∃ p, prev = some p ∧ (next x = .to p ∨ next x = .unconnected ∧ (x, p) ∈ links)

def Back (next : α → Link α) (links : Multiset (α × α)) : Option α → List α → Prop
  | _, [] => True
  | prev, x :: l => Conn next links prev x ∧ Back next links (some x) l

/-- What a view says about the memory. -/
def Owns (m : Mem α β) (s : Seg α) : View α → Prop
  | .fresh a => s.priv = [a] ∧ s.mid = [] ∧ s.revd = [] ∧ m.next a = .unconnected
  | .plain req tail =>
    s.priv.head? = some req ∧ Linked m.next s.priv ∧ s.mid = [] ∧ s.revd = [] ∧
      ∀ o, tail = some o → s.priv.getLast? = some o
  | .walk req cur =>
    s.priv.head? = some req ∧ Linked m.next s.priv ∧ s.mid = [] ∧ s.revd = [] ∧ cur ∈ s.priv
  | .rev req old newHead p tail =>
    s.priv.head? = some req ∧ Linked m.next s.priv ∧ Linked m.next s.revd ∧ s.priv.getLast? = some old ∧
      (s.priv ++ s.mid).getLast? = some p ∧ s.revd.head? = tail ∧ (s.mid ++ s.revd).getLast? = some newHead

/-- At most one view is out, and none only when the queue is empty. -/
def Right (m : Mem α β) (s : Seg α) (V : Multiset (View α)) : Prop :=
  V = 0 ∧ s.all = [] ∨ ∃ v, V = {v} ∧ Owns m s v

/-- The invariant: memory `m`, views `V`, links to be stored `L`, nodes taken `P` and nodes
    to be returned `R`. -/
structure Inv (m : Mem α β) (V : Multiset (View α)) (L : Multiset (α × α)) (P R : Multiset α) (s : Seg α) :
    Prop where
  nodup : (P + R + ↑s.all).Nodup
  inUse : ∀ a, m.inUse a = true ↔ a ∈ P + R + ↑s.all
  head : m.head = s.all.getLast?
  right : Right m s V
  back_mid : Back m.next L s.priv.getLast? s.mid
  back_newer : Back m.next L (s.priv ++ s.mid ++ s.revd).getLast? s.newer
  links_nodup : (L.map Prod.fst).Nodup
  links_open : ∀ l ∈ L, l.1 ∈ s.mid ++ s.newer ∧ m.next l.1 = .unconnected
  taken_open : ∀ a ∈ P, m.next a = .unconnected
  tickets : Multiset.range m.pubs.length =
    ↑(m.returned.map Prod.fst) + ↑(s.all.map m.ticket) + R.map m.ticket
  cleared : ∀ r ∈ m.returned, r.2 = []
  finished : ∀ a ∈ R, m.data a = []
  bytes : m.dropped = false → m.consumed ++ s.all.flatMap m.data = m.pubs.flatten

/-! Chains. -/

theorem Linked.congr : ∀ {l : List α}, Linked next l →
    (∀ a ∈ l, next' a = next a) → Linked next' l
  | [], _, _ => trivial
  | [a], h, he => (he a (by simp)).trans h
  | a :: b :: l, h, he =>
    ⟨(he a (by simp)).trans h.1, Linked.congr h.2 fun x hx => he x (List.mem_cons_of_mem _ hx)⟩

theorem Linked.last : ∀ {l : List α} {o : α}, Linked next l → l.getLast? = some o →
    next o = .null
  | [], _, _, ho => by simp at ho
  | [a], o, h, ho => by
    simp only [getLast?_singleton, some.injEq] at ho
    rw [← ho]; exact h
  | a :: b :: l, o, h, ho => Linked.last h.2 (by simpa using ho)

/-- The last node is the only one with a null link, and links stay in the chain. -/
theorem Linked.mem : ∀ {l : List α} {c : α}, Linked next l → c ∈ l →
    next c = .null ∧ l.getLast? = some c ∨ ∃ n, next c = .to n ∧ n ∈ l
  | [], _, _, hc => by simp at hc
  | [a], c, h, hc => by
    rw [List.mem_singleton] at hc
    exact .inl ⟨by rw [hc]; exact h, by rw [hc]; rfl⟩
  | a :: b :: l, c, h, hc => by
    rcases List.mem_cons.mp hc with rfl | hc
    · exact .inr ⟨b, h.1, by simp⟩
    · rcases Linked.mem h.2 hc with ⟨hnull, hlast⟩ | ⟨n, hto, hn⟩
      · exact .inl ⟨hnull, by simpa using hlast⟩
      · exact .inr ⟨n, hto, List.mem_cons_of_mem _ hn⟩

/-- The first `k` nodes from a pointer on, if they can be reached. -/
def collect (next : α → Link α) : Nat → Link α → Option (List α)
  | 0, _ => some []
  | _ + 1, .null => some []
  | _ + 1, .unconnected => none
  | k + 1, .to a => (collect next k (next a)).map (a :: ·)

theorem collect_linked : ∀ {k : Nat} {a : α} {l : List α}, Linked next (a :: l) →
    collect next k (.to a) = some ((a :: l).take k)
  | 0, _, _, _ => rfl
  | k + 1, a, [], h => by
    rw [collect, show next a = .null from h]
    cases k <;> rfl
  | k + 1, a, b :: l, h => by
    rw [collect, h.1, collect_linked h.2]
    rfl

section Update

variable [DecidableEq α]

/-- A link as a pointer that may be null. -/
def linkOf : Option α → Link α
  | none => .null
  | some a => .to a

theorem Linked.push {l : List α} (h : Linked next l) (hp : p ∉ l) :
    Linked (update next p (linkOf l.head?)) (p :: l) := by
  cases l with
  | nil => simp [Linked, linkOf]
  | cons b l =>
    refine ⟨by simp [linkOf], h.congr fun a ha => ?_⟩
    have hne : a ≠ p := fun he => hp (he ▸ ha)
    simp [hne]

theorem Linked.append {t : α} {m : List α} : ∀ {l : List α} {o : α}, Linked next l →
    Linked next (t :: m) → l.getLast? = some o → (l ++ t :: m).Nodup →
    Linked (update next o (.to t)) (l ++ t :: m)
  | [], _, _, _, ho, _ => by simp at ho
  | [a], o, _, hm, ho, hnd => by
    simp only [getLast?_singleton, some.injEq] at ho
    subst ho
    refine ⟨by simp, hm.congr fun x hx => ?_⟩
    have hne : x ≠ a := fun he => (List.nodup_cons.mp hnd).1 (he ▸ hx)
    simp [hne]
  | a :: b :: l, o, h, hm, ho, hnd => by
    have ho' : (b :: l).getLast? = some o := by simpa using ho
    have hne : a ≠ o := by
      rintro rfl
      exact (List.nodup_cons.mp hnd).1 (mem_append_left _ (mem_of_getLast? ho'))
    exact ⟨by simp [hne, h.1], Linked.append h.2 hm ho' (List.nodup_cons.mp hnd).2⟩

end Update

/-! Links back. -/

theorem Back.mono {L' : Multiset (α × α)} : ∀ {l : List α} {prev : Option α},
    Back next L prev l → (∀ x ∈ l, ∀ p, Conn next L (some p) x → Conn next' L' (some p) x) →
    Back next' L' prev l
  | [], _, _, _ => trivial
  | x :: l, prev, h, hc => by
    obtain ⟨⟨p, rfl, hx⟩, hl⟩ := h
    exact ⟨hc x (by simp) p ⟨p, rfl, hx⟩, Back.mono hl fun y hy => hc y (List.mem_cons_of_mem _ hy)⟩

theorem Back.congr {l : List α} {prev : Option α} (h : Back next L prev l) (he : ∀ x ∈ l, next' x = next x) :
    Back next' L prev l := by
  refine h.mono fun x hx p hp => ?_
  obtain ⟨q, hq, hc⟩ := hp
  exact ⟨q, hq, by rw [he x hx]; exact hc⟩

theorem Back.snoc : ∀ {l : List α} {prev : Option α},
    Back next L prev (l ++ [x]) ↔ Back next L prev l ∧ Conn next L (l.getLast?.or prev) x
  | [], prev => by simp [Back]
  | a :: l, prev => by
    rw [cons_append, Back, Back, Back.snoc, and_assoc]
    cases l <;> simp [getLast?_cons]

/-- A view only looks at the owner's chain and at what it has turned around. -/
theorem Owns.congr (h : Owns m s v) (he : ∀ a ∈ s.priv ++ s.revd, m'.next a = m.next a) : Owns m' s v := by
  have hpriv : ∀ a ∈ s.priv, m'.next a = m.next a := fun a ha => he a (mem_append_left _ ha)
  have hrevd : ∀ a ∈ s.revd, m'.next a = m.next a := fun a ha => he a (mem_append_right _ ha)
  cases v with
  | fresh a =>
    obtain ⟨h1, h2, h3, h4⟩ := h
    exact ⟨h1, h2, h3, (hpriv a (by simp [h1])).trans h4⟩
  | plain req tail | walk req cur =>
    obtain ⟨h1, h2, h3⟩ := h
    exact ⟨h1, h2.congr hpriv, h3⟩
  | rev req old newHead p tail =>
    obtain ⟨h1, h2, h3, h4⟩ := h
    exact ⟨h1, h2.congr hpriv, h3.congr hrevd, h4⟩

theorem Right.congr {V : Multiset (View α)} (h : Right m s V) (he : ∀ a ∈ s.priv ++ s.revd, m'.next a = m.next a) :
    Right m' s V := by
  rcases h with h | ⟨v, hV, hv⟩
  · exact .inl h
  · exact .inr ⟨v, hV, hv.congr he⟩

theorem Owns.priv_ne_nil (h : Owns m s v) : s.priv ≠ [] := by
  have hhead : ∀ {req : α}, s.priv.head? = some req → s.priv ≠ [] := by
    intro req hreq hp
    rw [hp] at hreq
    cases hreq
  cases v with
  | fresh a => rw [h.1]; simp
  | plain req tail => exact hhead h.1
  | walk req cur => exact hhead h.1
  | rev req old newHead p tail => exact hhead h.1

namespace Inv

variable {V : Multiset (View α)} {P R : Multiset α}

theorem all_nodup (h : Inv m V L P R s) : s.all.Nodup :=
  coe_nodup.mp (nodup_add.mp h.nodup).2.1

/-- Whoever has a view is the owner, and nobody else is. -/
theorem owns (h : Inv m (v ::ₘ V) L P R s) : V = 0 ∧ Owns m s v := by
  rcases h.right with ⟨h0, _⟩ | ⟨w, hw, hv⟩
  · exact absurd h0 (cons_ne_zero)
  · rw [← cons_zero, Multiset.cons_eq_cons] at hw
    rcases hw with ⟨rfl, rfl⟩ | ⟨_, c, _, hc⟩
    · exact ⟨rfl, hv⟩
    · exact absurd hc.symm (cons_ne_zero)

theorem card_views_le (h : Inv m V L P R s) : V.card ≤ 1 := by
  rcases h.right with ⟨rfl, _⟩ | ⟨v, rfl, _⟩ <;> simp

theorem head_eq_none (h : Inv m V L P R s) : m.head = none ↔ V = 0 := by
  rw [h.head, getLast?_eq_none_iff]
  rcases h.right with ⟨rfl, hall⟩ | ⟨v, rfl, hv⟩
  · simp [hall]
  · have := hv.priv_ne_nil
    simp [Seg.all, this]

/-- Only nodes in use matter. -/
theorem frame (h : Inv m V L P R s) (hnext : ∀ x ∈ P + R + ↑s.all, m'.next x = m.next x)
    (hdata : ∀ x ∈ P + R + ↑s.all, m'.data x = m.data x) (hrest : m' = { m with next := m'.next, data := m'.data }) :
    Inv m' V L P R s := by
  have hall : ∀ x ∈ s.all, x ∈ P + R + ↑s.all := fun x hx => mem_add.mpr (.inr hx)
  have hmid : ∀ x ∈ s.mid, x ∈ s.all := fun x hx => by simp [Seg.all, hx]
  have hnewer : ∀ x ∈ s.newer, x ∈ s.all := fun x hx => by simp [Seg.all, hx]
  have hown : ∀ x ∈ s.priv ++ s.revd, x ∈ s.all := fun x hx => by
    rcases mem_append.mp hx with hx | hx <;> simp [Seg.all, hx]
  have hflat : s.all.flatMap m'.data = s.all.flatMap m.data :=
    flatMap_congr fun x hx => hdata x (hall x hx)
  rw [hrest]
  refine { h with
    right := h.right.congr fun x hx => hnext x (hall x (hown x hx))
    back_mid := h.back_mid.congr fun x hx => hnext x (hall x (hmid x hx))
    back_newer := h.back_newer.congr fun x hx => hnext x (hall x (hnewer x hx))
    links_open := fun l hl => ⟨(h.links_open l hl).1, ?_⟩
    taken_open := fun a ha => (hnext a (by simp [ha])).trans (h.taken_open a ha)
    finished := fun a ha => (hdata a (by simp [ha])).trans (h.finished a ha)
    bytes := fun hd => by rw [← h.bytes hd]; exact congrArg _ hflat }
  obtain ⟨hmem, hopen⟩ := h.links_open l hl
  refine (hnext l.1 (hall _ ?_)).trans hopen
  rcases mem_append.mp hmem with hx | hx
  · exact hmid _ hx
  · exact hnewer _ hx

/-! What the owner knows. -/

/-- The owner learns or forgets something. -/
theorem change_view {v' : View α} (h : Inv m (v ::ₘ V) L P R s) (hv : Owns m s v → Owns m s v') :
    Inv m (v' ::ₘ V) L P R s := by
  obtain ⟨rfl, ho⟩ := h.owns
  exact { h with right := .inr ⟨v', rfl, hv ho⟩ }

/-- A node of the owner is not one whose link is still to be stored. -/
theorem link_ne (h : Inv m V L P R s) (hx : x ∈ s.priv ++ s.revd) {e : α × α} (he : e ∈ L) : e.1 ≠ x :=
  fun heq => Seg.own_not_back h.all_nodup hx (heq ▸ (h.links_open e he).1)

theorem plain_next (h : Inv m (.plain req tail ::ₘ V) L P R s) : (m.next req = .null ∧ s.priv = [req]) ∨
      ∃ b l, m.next req = .to b ∧ s.priv = req :: b :: l ∧ Linked m.next (b :: l) := by
  obtain ⟨_, hhead, hlinked, _⟩ := h.owns
  obtain ⟨l, hl⟩ := head?_eq_some_iff.mp hhead
  rw [hl] at hlinked ⊢
  cases l with
  | nil => exact .inl ⟨hlinked, rfl⟩
  | cons b l => exact .inr ⟨b, l, hlinked.1, rfl, hlinked.2⟩

theorem tail_null (h : Inv m (.plain req (some old) ::ₘ V) L P R s) : m.next old = .null := by
  obtain ⟨_, _, hlinked, _, _, htail⟩ := h.owns
  exact hlinked.last (htail old rfl)

/-- An owner whose head is its tail has one element. -/
theorem alone_priv (h : Inv m (.plain req (some req) ::ₘ V) L P R s) : s.priv.take 1 = [req] := by
  rcases h.plain_next with ⟨_, hpriv⟩ | ⟨b, l, hto, _⟩
  · rw [hpriv]
    rfl
  · rw [h.tail_null] at hto
    cases hto

section

variable (h : Inv m (.plain req tail ::ₘ V) L P R s)

include h

/-- The elements found from the owner's head are the first of its own. -/
theorem collect_priv (k : Nat) : collect m.next k (.to req) = some (s.priv.take k) := by
  obtain ⟨_, hhead, hlinked, _⟩ := h.owns
  obtain ⟨l, hl⟩ := head?_eq_some_iff.mp hhead
  rw [hl] at hlinked ⊢
  exact collect_linked hlinked

theorem forget : Inv m (.plain req none ::ₘ V) L P R s := by
  refine h.change_view fun ho => ?_
  obtain ⟨h1, h2, h3, h4, _⟩ := ho
  exact ⟨h1, h2, h3, h4, by simp⟩

/-- A chain of one node is its own tail. -/
theorem learn (hnull : m.next req = .null) : Inv m (.plain req (some req) ::ₘ V) L P R s := by
  rcases h.plain_next with ⟨_, hpriv⟩ | ⟨b, l, hto, _⟩
  · refine h.change_view fun ho => ?_
    obtain ⟨h1, h2, h3, h4, _⟩ := ho
    exact ⟨h1, h2, h3, h4, by simp [hpriv]⟩
  · rw [hto] at hnull; cases hnull

theorem walk_start : Inv m (.walk req req ::ₘ V) L P R s := by
  refine h.change_view fun ho => ?_
  obtain ⟨h1, h2, h3, h4, _⟩ := ho
  exact ⟨h1, h2, h3, h4, mem_of_head? h1⟩

end

theorem walk_next {cur : α} (h : Inv m (.walk req cur ::ₘ V) L P R s) :
    (m.next cur = .null ∧ Inv m (.plain req (some cur) ::ₘ V) L P R s) ∨
      ∃ n, m.next cur = .to n ∧ Inv m (.walk req n ::ₘ V) L P R s := by
  obtain ⟨_, h1, h2, h3, h4, hcur⟩ := h.owns
  rcases h2.mem hcur with ⟨hnull, hlast⟩ | ⟨n, hto, hn⟩
  · exact .inl ⟨hnull, h.change_view fun _ => ⟨h1, h2, h3, h4, by simpa using hlast⟩⟩
  · exact .inr ⟨n, hto, h.change_view fun _ => ⟨h1, h2, h3, h4, hn⟩⟩

/-- The compare-and-swap of `head` failed: all published since is to be turned around. -/
theorem turn (h : Inv m (.plain req (some old) ::ₘ V) L P R s) (hhead : m.head = some newHead) (hne : newHead ≠ old) :
    Inv m (.rev req old newHead newHead none ::ₘ V) L P R ⟨s.priv, s.newer, [], []⟩ := by
  obtain ⟨rfl, h1, h2, hmid, hrevd, htail⟩ := h.owns
  have hold := htail old rfl
  have hall : Seg.all ⟨s.priv, s.newer, [], []⟩ = s.all := by simp [Seg.all, hmid, hrevd]
  have hlast : s.all.getLast? = some newHead := h.head.symm.trans hhead
  rw [Seg.all, hmid, hrevd, append_nil, append_nil] at hlast
  have hnewer : s.newer.getLast? = some newHead := by
    rw [getLast?_append] at hlast
    cases hn : s.newer.getLast? with
    | none => rw [hn, none_or, hold] at hlast; exact absurd (some.inj hlast).symm hne
    | some x => rw [hn, some_or] at hlast; exact hlast
  have hback := h.back_newer
  rw [hmid, hrevd, append_nil, append_nil] at hback
  exact { h with
    nodup := hall ▸ h.nodup
    inUse := hall ▸ h.inUse
    head := hall ▸ h.head
    right := .inr ⟨_, rfl, h1, h2, trivial, hold, hlast, rfl, by simpa using hnewer⟩
    back_mid := hback
    back_newer := trivial
    links_open := fun l hl => by
      have := h.links_open l hl
      rw [hmid, nil_append] at this
      simpa using this
    tickets := hall ▸ h.tickets
    bytes := hall ▸ h.bytes }

/-- The node the owner stands at is linked back, or its producer is about to do so. -/
theorem rev_next (h : Inv m (.rev req old newHead p tail ::ₘ V) L P R s) (hp : p ≠ old) :
    ∃ mid q, s.mid = mid ++ [p] ∧ (s.priv ++ mid).getLast? = some q ∧ Back m.next L s.priv.getLast? mid ∧
      (m.next p = .to q ∨ m.next p = .unconnected ∧ (p, q) ∈ L) := by
  obtain ⟨_, _, _, _, hold, hlast, _⟩ := h.owns
  rcases eq_nil_or_concat s.mid with hmid | ⟨mid, x, hmid⟩
  · rw [hmid, append_nil, hold] at hlast
    exact absurd (some.inj hlast).symm hp
  · rw [concat_eq_append] at hmid
    rw [hmid, ← append_assoc, getLast?_concat, some.injEq] at hlast
    subst hlast
    have hback := h.back_mid
    rw [hmid, Back.snoc] at hback
    obtain ⟨hback, q, hq, hc⟩ := hback
    exact ⟨mid, q, hmid, by rw [getLast?_append]; exact hq, hback, hc⟩

/-- The compare-and-swap of `head` to null: the owner leaves with its last node. -/
theorem leave (h : Inv m (.plain req tail ::ₘ V) L P R s) (hhead : m.head = some req) (hnull : m.next req = .null)
    (hdata : m.data req = []) : Inv { m with head := none } V L P (req ::ₘ R) ⟨[], [], [], []⟩ := by
  obtain ⟨rfl, _, _, hmid, hrevd, _⟩ := h.owns
  have hpriv : s.priv = [req] := by
    rcases h.plain_next with ⟨_, hp⟩ | ⟨b, l, hto, _⟩
    · exact hp
    · rw [hto] at hnull; cases hnull
  have hnewer : s.newer = [] := by
    have hnd := h.all_nodup
    rcases eq_nil_or_concat s.newer with hn | ⟨l, x, hn⟩
    · exact hn
    · have hlast := h.head.symm.trans hhead
      rw [concat_eq_append] at hn
      rw [Seg.all, hn, ← append_assoc, getLast?_concat, some.injEq] at hlast
      subst hlast
      exact absurd (by simp [hn]) (Seg.own_not_back (x := x) hnd (by simp [hpriv]))
  have hall : s.all = [req] := by simp [Seg.all, hpriv, hmid, hrevd, hnewer]
  have hperm : P + R + ↑s.all = P + req ::ₘ R + ↑(⟨[], [], [], []⟩ : Seg α).all := by
    rw [hall]
    simp only [Seg.all, append_nil, coe_nil, coe_singleton, ← singleton_add]
    abel
  have hL : ∀ l, l ∉ L := fun l hl => by
    have := (h.links_open l hl).1
    rw [hmid, hnewer] at this
    cases this
  have hbytes : m.dropped = false → m.consumed = m.pubs.flatten := fun hd => by
    have := h.bytes hd
    simpa [hall, hdata] using this
  exact { h with
    nodup := hperm ▸ h.nodup
    inUse := fun x => hperm ▸ h.inUse x
    head := rfl
    right := .inl ⟨rfl, rfl⟩
    back_mid := trivial
    back_newer := trivial
    links_open := fun l hl => absurd hl (hL l)
    tickets := by
      have ht := h.tickets
      rw [hall] at ht
      rw [ht]
      simp only [Seg.all, append_nil, List.map_cons, map_nil, coe_nil, coe_singleton,
        ← singleton_add, Multiset.map_add, Multiset.map_singleton]
      abel
    finished := fun x hx => by
      rcases Multiset.mem_cons.mp hx with rfl | hx
      · exact hdata
      · exact h.finished x hx
    bytes := fun hd => by rw [hbytes hd]; simp [Seg.all] }

/-- The data of the owner's nodes changes. -/
theorem set_data (h : Inv m (v ::ₘ V) L P R s)
    (hsame : m' = { m with data := m'.data, consumed := m'.consumed, dropped := m'.dropped })
    (hdata : ∀ x, x ∉ s.priv → m'.data x = m.data x)
    (hbytes : m'.dropped = false → m'.consumed ++ s.all.flatMap m'.data = m.pubs.flatten) :
    Inv m' (v ::ₘ V) L P R s := by
  obtain ⟨rfl, ho⟩ := h.owns
  rw [hsame]
  exact { h with
    right := .inr ⟨v, rfl, ho.congr fun _ _ => rfl⟩
    finished := fun a ha => by
      have hnot : a ∉ s.priv := fun hp =>
        (Multiset.disjoint_left.mp (nodup_add.mp h.nodup).2.2)
          (by simp [ha] : a ∈ P + R) (by simp [Seg.all, hp] : a ∈ (s.all : Multiset α))
      exact (hdata a hnot).trans (h.finished a ha)
    bytes := hbytes }

end Inv

section Operations

variable [DecidableEq α]

namespace Mem

/-- Take a node from the pool and fill it. -/
def take (m : Mem α β) (a : α) (d : List β) : Mem α β :=
  { m with
    data := Function.update m.data a d
    next := Function.update m.next a .unconnected
    inUse := Function.update m.inUse a true }

/-- Exchange a node into `head`. -/
def publish (m : Mem α β) (a : α) : Mem α β :=
  { m with
    head := some a
    ticket := Function.update m.ticket a m.pubs.length
    pubs := m.pubs ++ [m.data a] }

def setNext (m : Mem α β) (a : α) (l : Link α) : Mem α β := { m with next := Function.update m.next a l }

/-- Return a node to the pool. -/
def giveBack (m : Mem α β) (a : α) : Mem α β :=
  { m with
    inUse := Function.update m.inUse a false
    returned := m.returned ++ [(m.ticket a, m.data a)] }

/-- Clear a node's data without sending it. -/
def clear (m : Mem α β) (a : α) : Mem α β :=
  { m with data := Function.update m.data a [], dropped := true }

/-- A node that is in the pool is somebody else's to write. -/
def scribble (m : Mem α β) (a : α) (l : Link α) (d : List β) : Mem α β :=
  { m with next := Function.update m.next a l, data := Function.update m.data a d }

end Mem

/-- Take the first `n` bytes off the data of the nodes `as`. -/
def cutData (data : α → List β) : List α → Nat → α → List β
  | [], _ => data
  | a :: as, n => cutData (Function.update data a ((data a).drop n)) as (n - (data a).length)

/-- Consume the first `n` bytes of the nodes `as`. -/
def Mem.consume (m : Mem α β) (as : List α) (n : Nat) : Mem α β :=
  { m with
    data := cutData m.data as n
    consumed := m.consumed ++ (as.flatMap m.data).take n }

namespace Inv

variable {V : Multiset (View α)} {P R : Multiset α} {a : α}

theorem scribble (h : Inv m V L P R s) (ha : m.inUse a = false) (l : Link α) (d : List β) :
    Inv (m.scribble a l d) V L P R s := by
  have hfree : ∀ x ∈ P + R + ↑s.all, x ≠ a := by
    rintro x hx rfl
    rw [(h.inUse x).mpr hx] at ha
    cases ha
  exact h.frame (fun x hx => update_of_ne (hfree x hx) _ _)
    (fun x hx => update_of_ne (hfree x hx) _ _) rfl

/-! Producers. -/

theorem take (h : Inv m V L P R s) (ha : m.inUse a = false) (d : List β) : Inv (m.take a d) V L (a ::ₘ P) R s := by
  have hnew : a ∉ P + R + ↑s.all := fun hmem => by
    rw [(h.inUse a).mpr hmem] at ha
    cases ha
  have hmem : ∀ x, x ∈ a ::ₘ P + R + ↑s.all ↔ x = a ∨ x ∈ P + R + ↑s.all := fun x => by
    simp only [cons_add, Multiset.mem_cons]
  have h' := h.scribble ha .unconnected d
  refine { h' with
    nodup := by rw [cons_add, cons_add]; exact Multiset.nodup_cons.mpr ⟨hnew, h.nodup⟩
    inUse := fun x => ?_
    right := h'.right.congr fun _ _ => rfl
    taken_open := fun x hx => ?_ }
  · rw [hmem, ← h.inUse x]
    by_cases hx : x = a <;> simp [Mem.take, hx]
  · rcases Multiset.mem_cons.mp hx with rfl | hx
    · exact update_self _ _ _
    · exact h'.taken_open x hx

/-- An exchange into the empty queue makes the producer its owner. -/
theorem publish_first (h : Inv m V L (a ::ₘ P) R s) (hhead : m.head = none) :
    Inv (m.publish a) (.fresh a ::ₘ V) L P R ⟨[a], [], [], []⟩ := by
  have hV : V = 0 := h.head_eq_none.mp hhead
  have hall : s.all = [] := getLast?_eq_none_iff.mp (h.head.symm.trans hhead)
  have hL : L = 0 := by
    refine eq_zero_of_forall_notMem fun l hl => ?_
    have hmem := (h.links_open l hl).1
    simp only [Seg.all, append_eq_nil_iff] at hall
    simp [hall] at hmem
  have hperm : a ::ₘ P + R + ↑s.all = P + R + ↑[a] := by
    rw [hall, coe_nil, coe_singleton, ← singleton_add]
    abel
  have haR : a ∉ R := fun hR => by
    have := h.nodup
    rw [cons_add, cons_add, Multiset.nodup_cons] at this
    exact this.1 (by simp [hR])
  subst hV hL
  exact {
    nodup := hperm ▸ h.nodup
    inUse := fun x => hperm ▸ h.inUse x
    head := rfl
    right := .inr ⟨_, rfl, rfl, rfl, rfl, h.taken_open a (Multiset.mem_cons_self a P)⟩
    back_mid := trivial
    back_newer := trivial
    links_nodup := h.links_nodup
    links_open := fun l hl => absurd hl (notMem_zero l)
    taken_open := fun x hx => h.taken_open x (Multiset.mem_cons_of_mem hx)
    tickets := by
      have ht := h.tickets
      rw [hall] at ht
      have hR : R.map (update m.ticket a m.pubs.length) = R.map m.ticket :=
        Multiset.map_congr rfl fun x hx => update_of_ne (fun he : x = a => haR (he ▸ hx)) _ _
      simp only [Mem.publish, length_append, length_singleton, Multiset.range_succ, ht, hR, Seg.all,
        append_nil, List.map_cons, map_nil, update_self, coe_singleton,
        coe_nil, ← singleton_add]
      abel
    cleared := h.cleared
    finished := h.finished
    bytes := fun hd => by
      have hb := h.bytes hd
      rw [hall] at hb
      simp only [flatMap_nil, append_nil] at hb
      simp [Mem.publish, Seg.all, hb] }

/-- An exchange behind another node leaves the link to be stored. -/
theorem publish_behind (h : Inv m V L (a ::ₘ P) R s) (hhead : m.head = some p) :
    Inv (m.publish a) V ((a, p) ::ₘ L) P R { s with newer := s.newer ++ [a] } := by
  have hall : Seg.all { s with newer := s.newer ++ [a] } = s.all ++ [a] := by simp [Seg.all]
  have hperm : a ::ₘ P + R + ↑s.all = P + R + ↑(s.all ++ [a]) := by
    rw [← coe_add, coe_singleton, ← singleton_add]
    abel
  have hnew : a ∉ P + R + ↑s.all := by
    have := h.nodup
    rw [cons_add, cons_add, Multiset.nodup_cons] at this
    exact this.1
  have hne : ∀ x ∈ P + R + ↑s.all, x ≠ a := fun x hx he => hnew (he ▸ hx)
  have hL : ∀ x ∈ s.mid ++ s.newer, x ∈ s.all := fun x hx => by
    rcases mem_append.mp hx with hx | hx <;> simp [Seg.all, hx]
  have hopen : m.next a = .unconnected := h.taken_open a (Multiset.mem_cons_self a P)
  have hmono : ∀ x q, Conn m.next L (some q) x → Conn m.next ((a, p) ::ₘ L) (some q) x := by
    rintro x q ⟨r, hr, hc⟩
    exact ⟨r, hr, hc.imp_right fun hc => ⟨hc.1, Multiset.mem_cons_of_mem hc.2⟩⟩
  have hlast : (s.newer.getLast?.or (s.priv ++ s.mid ++ s.revd).getLast?) = some p := by
    rw [← hhead, h.head]
    exact getLast?_append.symm
  exact {
    nodup := by rw [hall]; exact hperm ▸ h.nodup
    inUse := fun x => by rw [hall]; exact hperm ▸ h.inUse x
    head := by rw [hall]; simp [Mem.publish]
    right := by
      rcases h.right with ⟨rfl, he⟩ | ⟨v, hV, hv⟩
      · rw [h.head, he] at hhead; cases hhead
      · refine .inr ⟨v, hV, ?_⟩
        cases v <;> exact hv
    back_mid := h.back_mid.mono fun x _ => hmono x
    back_newer := Back.snoc.mpr ⟨h.back_newer.mono fun x _ => hmono x, hlast ▸ ⟨p, rfl, .inr ⟨hopen, by simp⟩⟩⟩
    links_nodup := by
      rw [Multiset.map_cons, Multiset.nodup_cons]
      refine ⟨fun hmem => ?_, h.links_nodup⟩
      obtain ⟨l, hl, hfst⟩ := Multiset.mem_map.mp hmem
      exact hne l.1 (by simp [hL _ (h.links_open l hl).1]) hfst
    links_open := fun l hl => by
      rcases Multiset.mem_cons.mp hl with rfl | hl
      · exact ⟨by simp, hopen⟩
      · refine ⟨?_, (h.links_open l hl).2⟩
        rw [← append_assoc]
        exact mem_append_left _ (h.links_open l hl).1
    taken_open := fun x hx => h.taken_open x (Multiset.mem_cons_of_mem hx)
    tickets := by
      have hR : R.map (update m.ticket a m.pubs.length) = R.map m.ticket :=
        Multiset.map_congr rfl fun x hx => update_of_ne (hne x (by simp [hx])) _ _
      have hA : s.all.map (update m.ticket a m.pubs.length) = s.all.map m.ticket :=
        map_congr_left fun x hx => update_of_ne (hne x (by simp [hx])) _ _
      rw [hall]
      simp only [Mem.publish, length_append, length_singleton, Multiset.range_succ, h.tickets, hR,
        map_append, hA, List.map_cons, map_nil, update_self, ← coe_add,
        coe_singleton, ← singleton_add]
      abel
    cleared := h.cleared
    finished := h.finished
    bytes := fun hd => by
      rw [hall, flatMap_append, ← append_assoc]
      simp [Mem.publish, h.bytes hd] }

/-- The producer stores its link. -/
theorem connect (h : Inv m V ((a, p) ::ₘ L) P R s) : Inv (m.setNext a (.to p)) V L P R s := by
  obtain ⟨hmem, hopen⟩ := h.links_open (a, p) (Multiset.mem_cons_self _ L)
  have hnd := h.links_nodup
  rw [Multiset.map_cons, Multiset.nodup_cons] at hnd
  have hother : ∀ l ∈ L, l.1 ≠ a := fun l hl he => hnd.1 (Multiset.mem_map.mpr ⟨l, hl, he⟩)
  have hall : a ∈ s.all := by
    rcases mem_append.mp hmem with hx | hx <;> simp [Seg.all, hx]
  have hPa : ∀ x ∈ P, x ≠ a := by
    rintro x hx rfl
    exact (Multiset.disjoint_left.mp (nodup_add.mp h.nodup).2.2) (by simp [hx]) hall
  have hown : ∀ x ∈ s.priv ++ s.revd, x ≠ a := fun x hx he => Seg.own_not_back h.all_nodup hx (he ▸ hmem)
  have hconn : ∀ x q, Conn m.next ((a, p) ::ₘ L) (some q) x →
      Conn (update m.next a (.to p)) L (some q) x := by
    rintro x q ⟨r, hr, hc⟩
    by_cases hx : x = a
    · subst hx
      rcases hc with hc | ⟨_, hc⟩
      · rw [hopen] at hc; cases hc
      · rcases Multiset.mem_cons.mp hc with hc | hc
        · cases hc
          exact ⟨_, hr, .inl (update_self _ _ _)⟩
        · exact absurd rfl (hother _ hc)
    · refine ⟨r, hr, ?_⟩
      rw [update_of_ne hx]
      refine hc.imp_right fun hc => ⟨hc.1, ?_⟩
      rcases Multiset.mem_cons.mp hc.2 with he | hl
      · exact absurd (congrArg Prod.fst he) hx
      · exact hl
  exact { h with
    right := h.right.congr fun x hx => update_of_ne (hown x hx) _ _
    back_mid := h.back_mid.mono fun x _ => hconn x
    back_newer := h.back_newer.mono fun x _ => hconn x
    links_nodup := hnd.2
    links_open := fun l hl => by
      obtain ⟨h1, h2⟩ := h.links_open l (Multiset.mem_cons_of_mem hl)
      exact ⟨h1, (update_of_ne (hother l hl) _ _).trans h2⟩
    taken_open := fun x hx => (update_of_ne (hPa x hx) _ _).trans (h.taken_open x hx) }

/-! The owner. -/

/-- A link is stored in a node of the queue, the order of which stays. -/
theorem relink {V' : Multiset (View α)} {s' : Seg α} {l : Link α} (h : Inv m V L P R s) (hall : s'.all = s.all)
    (hx : x ∈ s.all) (hL : ∀ e ∈ L, e.1 ≠ x ∧ e.1 ∈ s'.mid ++ s'.newer) (hright : Right (m.setNext x l) s' V')
    (hmid : Back (m.setNext x l).next L s'.priv.getLast? s'.mid)
    (hnewer : Back (m.setNext x l).next L (s'.priv ++ s'.mid ++ s'.revd).getLast? s'.newer) :
    Inv (m.setNext x l) V' L P R s' where
  nodup := hall ▸ h.nodup
  inUse := hall ▸ h.inUse
  head := hall ▸ h.head
  right := hright
  back_mid := hmid
  back_newer := hnewer
  links_nodup := h.links_nodup
  links_open := fun e he =>
    ⟨(hL e he).2, (update_of_ne (hL e he).1 _ _).trans (h.links_open e he).2⟩
  taken_open := fun a ha => by
    have hne : a ≠ x := by
      rintro rfl
      exact (Multiset.disjoint_left.mp (nodup_add.mp h.nodup).2.2) (by simp [ha]) hx
    exact (update_of_ne hne _ _).trans (h.taken_open a ha)
  tickets := hall ▸ h.tickets
  cleared := h.cleared
  finished := h.finished
  bytes := hall ▸ h.bytes

theorem ground (h : Inv m (.fresh a ::ₘ V) L P R s) : Inv (m.setNext a .null) (.plain a none ::ₘ V) L P R s := by
  obtain ⟨rfl, hpriv, hmid, hrevd, _⟩ := h.owns
  have ha : a ∈ s.priv ++ s.revd := by simp [hpriv]
  have hback : ∀ x ∈ s.mid ++ s.newer, (m.setNext a .null).next x = m.next x := fun x hx =>
    update_of_ne (fun he : x = a => Seg.own_not_back h.all_nodup ha (he ▸ hx)) _ _
  refine h.relink rfl (by simp [Seg.all, hpriv]) (fun e he => ⟨h.link_ne ha he, (h.links_open e he).1⟩) ?_
    (h.back_mid.congr fun x hx => hback x (mem_append_left _ hx))
    (h.back_newer.congr fun x hx => hback x (mem_append_right _ hx))
  exact .inr ⟨_, rfl, by simp [hpriv], by simp [hpriv, Linked, Mem.setNext], hmid, hrevd, by simp⟩

/-- One node is turned around. -/
theorem rev_step {q : α} (h : Inv m (.rev req old newHead p tail ::ₘ V) L P R s) (hp : p ≠ old)
    (hto : m.next p = .to q) :
    ∃ s', Inv (m.setNext p (linkOf tail)) (.rev req old newHead q (some p) ::ₘ V) L P R s' := by
  obtain ⟨mid, q', hmid, hlast, hback, hconn⟩ := h.rev_next hp
  obtain ⟨rfl, h1, h2, h3, h4, _, h6, h7⟩ := h.owns
  have hq : q' = q := by
    rcases hconn with hc | ⟨hc, _⟩
    · rw [hto] at hc; cases hc; rfl
    · rw [hto] at hc; cases hc
  subst hq
  have hnd := h.all_nodup
  have hall : Seg.all ⟨s.priv, mid, p :: s.revd, s.newer⟩ = s.all := by simp [Seg.all, hmid]
  have hother : ∀ x, x ∈ s.priv ∨ x ∈ mid ∨ x ∈ s.revd ∨ x ∈ s.newer → x ≠ p := by
    rintro x hx rfl
    simp only [Seg.all, hmid, nodup_append, mem_append, List.mem_singleton, ne_eq] at hnd
    grind
  have hnext : ∀ x, x ∈ s.priv ∨ x ∈ mid ∨ x ∈ s.revd ∨ x ∈ s.newer →
      (m.setNext p (linkOf tail)).next x = m.next x := fun x hx => update_of_ne (hother x hx) _ _
  refine ⟨⟨s.priv, mid, p :: s.revd, s.newer⟩, h.relink hall (by simp [Seg.all, hmid]) ?_ ?_ ?_ ?_⟩
  · intro e he
    have hne : e.1 ≠ p := fun heq => by
      have := (h.links_open e he).2
      rw [heq, hto] at this
      cases this
    refine ⟨hne, ?_⟩
    have hmem := (h.links_open e he).1
    simp only [hmid, mem_append, List.mem_singleton] at hmem ⊢
    rcases hmem with (hm | hm) | hm
    · exact .inl hm
    · exact absurd hm hne
    · exact .inr hm
  · refine .inr ⟨_, rfl, h1, h2.congr fun x hx => hnext x (.inl hx), ?_, h4, hlast, rfl, ?_⟩
    · rw [← h6]
      exact h3.push fun hmem => hother p (.inr (.inr (.inl hmem))) rfl
    · rw [← h7, hmid]; simp
  · exact hback.congr fun x hx => hnext x (.inr (.inl hx))
  · have heq : s.priv ++ mid ++ p :: s.revd = s.priv ++ s.mid ++ s.revd := by simp [hmid]
    rw [heq]
    exact h.back_newer.congr fun x hx => hnext x (.inr (.inr (.inr hx)))

/-- All is turned around: the owner appends it to its chain. -/
theorem join {t : α} (h : Inv m (.rev req old newHead old (some t) ::ₘ V) L P R s) :
    ∃ s', Inv (m.setNext old (.to t)) (.plain req (some newHead) ::ₘ V) L P R s' := by
  obtain ⟨rfl, h1, h2, h3, h4, h5, h6, h7⟩ := h.owns
  have hnd := h.all_nodup
  have hold : old ∈ s.priv := mem_of_getLast? h4
  have hmid : s.mid = [] := by
    rcases eq_nil_or_concat s.mid with hmid | ⟨mid, x, hmid⟩
    · exact hmid
    · rw [concat_eq_append] at hmid
      rw [hmid, ← append_assoc, getLast?_concat, some.injEq] at h5
      subst h5
      exact absurd (by simp [hmid]) (Seg.own_not_back hnd (mem_append_left _ hold))
  obtain ⟨l, hl⟩ := head?_eq_some_iff.mp h6
  have hall : Seg.all ⟨s.priv ++ s.revd, [], [], s.newer⟩ = s.all := by simp [Seg.all, hmid]
  have hchain : (s.priv ++ t :: l).Nodup := by
    rw [Seg.all, hmid, append_nil, hl] at hnd
    exact (nodup_append.mp hnd).1
  have hown : old ∈ s.priv ++ s.revd := mem_append_left _ hold
  refine ⟨⟨s.priv ++ s.revd, [], [], s.newer⟩, h.relink hall (by simp [Seg.all, hold]) ?_ ?_ trivial ?_⟩
  · intro e he
    have := (h.links_open e he).1
    rw [hmid] at this
    exact ⟨h.link_ne hown he, this⟩
  · refine .inr ⟨_, rfl, ?_, ?_, rfl, rfl, ?_⟩
    · rw [head?_append, h1, some_or]
    · show Linked _ (s.priv ++ s.revd)
      rw [hl]
      exact h2.append (hl ▸ h3) h4 hchain
    · intro o ho
      cases ho
      rw [hmid, nil_append] at h7
      rw [getLast?_append, h7, some_or]
  · have hback := h.back_newer
    rw [hmid, append_nil] at hback
    rw [append_nil, append_nil]
    exact hback.congr fun x hx => update_of_ne
      (fun he : x = old => Seg.own_not_back hnd hown (he ▸ mem_append_right _ hx)) _ _

/-- A node that was taken off the queue goes back to the pool. -/
theorem giveBack (h : Inv m V L P (a ::ₘ R) s) : Inv (m.giveBack a) V L P R s := by
  have hperm : P + a ::ₘ R + ↑s.all = a ::ₘ (P + R + ↑s.all) := by
    simp only [← singleton_add]
    abel
  have hnd := h.nodup
  rw [hperm, Multiset.nodup_cons] at hnd
  exact { h with
    nodup := hnd.2
    inUse := fun x => by
      by_cases hx : x = a
      · simp only [Mem.giveBack, hx, update_self]
        exact iff_of_false (by simp) hnd.1
      · simp only [Mem.giveBack, update_of_ne hx]
        rw [h.inUse x, hperm, Multiset.mem_cons]
        exact or_iff_right hx
    tickets := by
      simp only [Mem.giveBack, map_append, List.map_cons, map_nil, ← coe_add,
        coe_singleton, h.tickets, ← singleton_add]
      simp only [Multiset.map_add, Multiset.map_singleton]
      abel
    cleared := fun r hr => by
      rcases mem_append.mp hr with hr | hr
      · exact h.cleared r hr
      · rw [List.mem_singleton.mp hr]
        exact h.finished a (Multiset.mem_cons_self a R)
    finished := fun x hx => h.finished x (Multiset.mem_cons_of_mem hx) }

/-- The owner returns the first node of its chain, which is written, and keeps the rest. -/
theorem pop {b : α} (h : Inv m (.plain req tail ::ₘ V) L P R s) (hto : m.next req = .to b) (hdata : m.data req = []) :
    ∃ s', Inv (m.giveBack req) (.plain b tail ::ₘ V) L P R s' := by
  rcases h.plain_next with ⟨hnull, _⟩ | ⟨c, l, hc, hpriv, hlinked⟩
  · rw [hto] at hnull; cases hnull
  rw [hto] at hc
  cases hc
  obtain ⟨rfl, _, _, hmid, hrevd, htail⟩ := h.owns
  have hall : s.all = req :: Seg.all ⟨b :: l, [], [], s.newer⟩ := by simp [Seg.all, hpriv, hmid, hrevd]
  have hlast : s.priv.getLast? = (b :: l).getLast? := by rw [hpriv]; simp
  have hperm : P + R + ↑s.all = P + req ::ₘ R + ↑(Seg.all ⟨b :: l, [], [], s.newer⟩) := by
    rw [hall]
    simp only [← cons_coe, ← singleton_add]
    abel
  refine ⟨⟨b :: l, [], [], s.newer⟩, giveBack (R := R) ?_⟩
  exact { h with
    nodup := hperm ▸ h.nodup
    inUse := fun x => hperm ▸ h.inUse x
    head := by
      rw [h.head, hall]
      simp [Seg.all, getLast?_cons]
    right := .inr ⟨_, rfl, rfl, hlinked, rfl, rfl, fun o ho => hlast ▸ htail o ho⟩
    back_mid := trivial
    back_newer := by
      have hback := h.back_newer
      rw [hmid, hrevd, append_nil, append_nil, hlast] at hback
      simpa using hback
    links_open := fun e he => by
      have := h.links_open e he
      rwa [hmid] at this
    tickets := by
      rw [h.tickets, hall]
      simp only [List.map_cons, ← cons_coe, ← singleton_add]
      simp only [Multiset.map_add, Multiset.map_singleton]
      abel
    finished := fun x hx => by
      rcases Multiset.mem_cons.mp hx with rfl | hx
      · exact hdata
      · exact h.finished x hx
    bytes := fun hd => by
      rw [← h.bytes hd, hall]
      simp [hdata] }

theorem clear (h : Inv m (.plain req tail ::ₘ V) L P R s) : Inv (m.clear req) (.plain req tail ::ₘ V) L P R s := by
  obtain ⟨_, hhead, _⟩ := h.owns
  refine h.set_data rfl (fun x hx => update_of_ne ?_ _ _) (fun hd => by cases hd)
  rintro rfl
  exact hx (mem_of_head? hhead)

/-- Clearing a node that is to be returned, which is empty already. -/
theorem clear_finished (h : Inv m V L P R s) (hdata : m.data a = []) : Inv (m.clear a) V L P R s := by
  have hsame : update m.data a [] = m.data := by rw [← hdata, update_eq_self]
  have hclear : m.clear a = { m with dropped := true } := by rw [Mem.clear, hsame]
  rw [hclear]
  exact { h with
    right := h.right.congr fun _ _ => rfl
    bytes := fun hd => by cases hd }

end Inv

theorem cutData_of_notMem : ∀ {as : List α} {data : α → List β} {n : Nat}, x ∉ as →
    cutData data as n x = data x
  | [], _, _, _ => rfl
  | a :: as, data, n, hx => by
    rw [cutData, cutData_of_notMem fun h => hx (List.mem_cons_of_mem _ h)]
    exact update_of_ne (fun he => hx (by simp [he])) _ _

theorem flatMap_cutData : ∀ {as : List α} {data : α → List β} {n : Nat}, as.Nodup →
    as.flatMap (cutData data as n) = (as.flatMap data).drop n
  | [], _, _, _ => by simp
  | a :: as, data, n, hnd => by
    obtain ⟨ha, hnd⟩ := List.nodup_cons.mp hnd
    have hrest : as.flatMap (update data a ((data a).drop n)) = as.flatMap data :=
      flatMap_congr fun x hx => update_of_ne (fun he : x = a => ha (he ▸ hx)) _ _
    rw [flatMap_cons, cutData, cutData_of_notMem ha, flatMap_cutData hnd, hrest, flatMap_cons,
      drop_append]
    simp

/-- The owner consumes a prefix of the first `k` nodes of its chain. -/
theorem Inv.consume {V : Multiset (View α)} {P R : Multiset α} (h : Inv m (.plain req tail ::ₘ V) L P R s) (k n : Nat) :
    Inv (m.consume (s.priv.take k) n) (.plain req tail ::ₘ V) L P R s := by
  have hnd := h.all_nodup
  have hsplit : s.all = s.priv.take k ++ (s.priv.drop k ++ s.mid ++ s.revd ++ s.newer) := by
    simp only [Seg.all, ← List.append_assoc, List.take_append_drop]
  rw [hsplit] at hnd
  obtain ⟨hnd, _, hdisj⟩ := List.nodup_append.mp hnd
  refine h.set_data rfl (fun x hx => cutData_of_notMem fun hmem => hx (List.mem_of_mem_take hmem)) fun hd => ?_
  have hb := h.bytes hd
  have hrest : (s.priv.drop k ++ s.mid ++ s.revd ++ s.newer).flatMap (cutData m.data (s.priv.take k) n) =
      (s.priv.drop k ++ s.mid ++ s.revd ++ s.newer).flatMap m.data :=
    List.flatMap_congr fun x hx => cutData_of_notMem fun hmem => hdisj x hmem x hx rfl
  rw [hsplit, List.flatMap_append] at hb ⊢
  rw [← hb]
  show m.consumed ++ ((s.priv.take k).flatMap m.data).take n ++ _ = _
  simp only [Mem.consume]
  rw [flatMap_cutData hnd, hrest, List.append_assoc, ← List.append_assoc (List.take n _), List.take_append_drop]

end Operations

end Lib.OwnedQueue

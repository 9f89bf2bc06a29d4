import LightRpc.WriteQueue

/- The write right.

   Every thread between an exchange into the empty queue and the release of
   `_write_head` holds the write right, unless the right lies in
   `_pending_keepwrite_req`. `Pc.views` says which program counters hold it and what
   they know, `Pc.links`, `Pc.preps` and `Pc.rets` which hold a link to be stored,
   an unpublished request or one to be returned. `step_fits` shows that every step
   of every thread is one of the operations of the owned queue, so its invariant
   holds along every run. -/
namespace LightRpc

open Lib OwnedQueue WriteState List Multiset

variable {s s' : WriteState} {pc pc' : Pc} {T : Multiset Pc} {choice : Choice} {r : WriteState × List Pc} {req : Addr}
  {v : View Addr}

/-! What each thread holds. -/

def Then.views : Then → Multiset (View Addr)
  | .exit => 0
  | .drain req => {.plain req none}
  | .waited req curTail => {.plain req curTail}

@[simp]
def Pc.views : Pc → Multiset (View Addr)
  | .storeNull req => {.fresh req}
  | .freshError req | .freshFailed req | .loadHandshake req | .storePending req | .cut req =>
    {.plain req (some req)}
  | .startKeepWrite req | .drain req _ => {.plain req none}
  | .setFailed _ after | .storeError _ after | .storeStop after | .unregister after => after.views
  | .keepStop req curTail | .keepSkip req curTail | .doWrite req curTail | .keepRelease req curTail _
  | .keepWait req curTail | .keepWaited req curTail => {.plain req curTail}
  | .keepTail req cur => {.walk req cur}
  | .isWriteComplete c => {.plain c.req (some c.oldHead)}
  | .reverse c newHead p tail => {.rev c.req c.oldHead newHead p tail}
  | .link c newHead tail => {.rev c.req c.oldHead newHead c.oldHead (some tail)}
  | _ => 0

@[simp]
def Pc.links : Pc → Multiset (Addr × Addr)
  | .storeNext req prev => {(req, prev)}
  | _ => 0

@[simp]
def Pc.preps : Pc → Multiset Addr
  | .exchange req => {req}
  | _ => 0

@[simp]
def Pc.rets : Pc → Multiset Addr
  | .finish c => {c.req}
  | _ => 0

/-- All that a thread holds. -/
def Pc.tokens (pc : Pc) : Multiset (View Addr) × Multiset (Addr × Addr) × Multiset Addr × Multiset Addr :=
  (pc.views, pc.links, pc.preps, pc.rets)

/-- The thread holds `V` and nothing else. -/
abbrev Pc.Owns (pc : Pc) (V : Multiset (View Addr)) : Prop := pc.tokens = (V, 0, 0, 0)

theorem Pc.tokens_eq {V L P R} (h : pc.tokens = (V, L, P, R)) :
    pc.views = V ∧ pc.links = L ∧ pc.preps = P ∧ pc.rets = R := by
  simpa only [Pc.tokens, Prod.mk.injEq] using h

/-- The right in `_pending_keepwrite_req`. -/
def pendingViews : Option Addr → Multiset (View Addr)
  | some req => {.plain req none}
  | none => 0

/-- A reversing thread has not come to its old head. -/
def Pc.Wf : Pc → Prop
  | .reverse c _ p _ => p ≠ c.oldHead
  | _ => True

/-- The threads `T` and the slot hold the tokens of the queue in memory. -/
def Fits (s : WriteState) (T : Multiset Pc) : Prop :=
  (∀ pc ∈ T, pc.Wf) ∧ ∃ seg, OwnedQueue.Inv s.mem (T.bind Pc.views + pendingViews s.pending) (T.bind Pc.links)
    (T.bind Pc.preps) (T.bind Pc.rets) seg

section

variable (h : Fits s (pc ::ₘ T))

include h

/-- A thread that goes on with the same tokens. -/
theorem Fits.goto (hmem : s'.mem = s.mem) (hpend : s'.pending = s.pending) (htok : pc'.tokens = pc.tokens)
    (hwf : pc'.Wf) : Fits s' (↑[pc'] + T) := by
  obtain ⟨hall, seg, hinv⟩ := h
  obtain ⟨hv, hl, hp, hr⟩ := Pc.tokens_eq htok
  refine ⟨fun x hx => ?_, seg, ?_⟩
  · rcases mem_add.mp hx with hx | hx
    · rw [coe_singleton, Multiset.mem_singleton] at hx
      exact hx ▸ hwf
    · exact hall x (Multiset.mem_cons_of_mem hx)
  · simpa only [cons_bind, coe_singleton, add_bind, singleton_bind, hmem, hpend,
      hv, hl, hp, hr] using hinv

/-- A thread that goes on at `pcs`, where the tokens it had allow it. -/
theorem Fits.step {pcs : List Pc} (hwf : ∀ x ∈ pcs, x.Wf)
    (hinv : ∀ seg, OwnedQueue.Inv s.mem (pc.views + (T.bind Pc.views + pendingViews s.pending))
        (pc.links + T.bind Pc.links) (pc.preps + T.bind Pc.preps) (pc.rets + T.bind Pc.rets) seg →
      ∃ seg, OwnedQueue.Inv s'.mem ((pcs.map Pc.views).sum + (T.bind Pc.views + pendingViews s'.pending))
        ((pcs.map Pc.links).sum + T.bind Pc.links) ((pcs.map Pc.preps).sum + T.bind Pc.preps)
        ((pcs.map Pc.rets).sum + T.bind Pc.rets) seg) : Fits s' (↑pcs + T) := by
  obtain ⟨hall, seg, hseg⟩ := h
  refine ⟨fun x hx => ?_, ?_⟩
  · rcases Multiset.mem_add.mp hx with hx | hx
    · exact hwf x hx
    · exact hall x (Multiset.mem_cons_of_mem hx)
  · obtain ⟨seg', hseg'⟩ := hinv seg (by simpa only [Multiset.cons_bind, add_assoc] using hseg)
    have hsum : ∀ {γ : Type} (f : Pc → Multiset γ), (↑pcs : Multiset Pc).bind f = (pcs.map f).sum := by
      intro γ f
      simp [Multiset.bind, Multiset.join]
    refine ⟨seg', ?_⟩
    simpa only [Multiset.add_bind, hsum, add_assoc] using hseg'

theorem Fits.exit (hmem : s'.mem = s.mem) (hpend : s'.pending = s.pending) (hv : pc.Owns 0) :
    Fits s' (↑([] : List Pc) + T) := by
  obtain ⟨hv, hl, hp, hr⟩ := Pc.tokens_eq hv
  refine h.step (fun x hx => by cases hx) fun seg hseg => ⟨seg, ?_⟩
  simpa only [hv, hl, hp, hr, hmem, hpend, map_nil, sum_nil] using hseg

/-- The thread of the owner, and its view. -/
theorem Fits.view (hv : pc.Owns {v}) :
    ∃ seg, OwnedQueue.Inv s.mem (v ::ₘ (T.bind Pc.views + pendingViews s.pending)) (T.bind Pc.links) (T.bind Pc.preps)
      (T.bind Pc.rets) seg := by
  obtain ⟨_, seg, hseg⟩ := h
  obtain ⟨hv, hl, hp, hr⟩ := Pc.tokens_eq hv
  refine ⟨seg, ?_⟩
  simpa only [cons_bind, hv, hl, hp, hr, singleton_add, cons_add, zero_add] using hseg

/-- The owner goes on with another view. -/
theorem Fits.owner {v' : View Addr} (hv : pc.Owns {v}) (hv' : pc'.Owns {v'}) (hwf : pc'.Wf)
    (hpend : s'.pending = s.pending)
    (hinv : ∀ V L P R seg, OwnedQueue.Inv s.mem (v ::ₘ V) L P R seg → ∃ seg, OwnedQueue.Inv s'.mem (v' ::ₘ V) L P R seg) :
    Fits s' (↑[pc'] + T) := by
  obtain ⟨hv', hl', hp', hr'⟩ := Pc.tokens_eq hv'
  obtain ⟨seg, hseg⟩ := h.view hv
  obtain ⟨seg', hseg'⟩ := hinv _ _ _ _ _ hseg
  refine h.step (fun x hx => by rw [List.mem_singleton.mp hx]; exact hwf) fun _ _ => ⟨seg', ?_⟩
  simpa only [List.map_cons, map_nil, List.sum_cons, sum_nil, add_zero, zero_add, hv', hl', hp', hr', hpend,
    singleton_add] using hseg'

/-- The owner may forget its tail. -/
theorem Fits.forget {tail : Option Addr} (hv : pc.Owns {.plain req tail}) (hv' : pc'.Owns {.plain req none})
    (hwf : pc'.Wf) (hmem : s'.mem = s.mem) (hpend : s'.pending = s.pending) : Fits s' (↑[pc'] + T) :=
  h.owner hv hv' hwf hpend fun _ _ _ _ seg hseg => ⟨seg, hmem ▸ hseg.forget⟩

/-- The owner's right is nowhere else, so the slot is empty. -/
theorem Fits.pending_none (hv : pc.Owns {v}) : s.pending = none := by
  obtain ⟨seg, hseg⟩ := h.view hv
  have hzero := hseg.owns.1
  cases hpend : s.pending with
  | none => rfl
  | some req =>
    rw [hpend] at hzero
    have hcard := congrArg card hzero
    simp [pendingViews] at hcard

/-- A thread takes the request out of the slot, and the right with it. -/
theorem Fits.takeSlot (hpend : s.pending = some req) (hmem : s'.mem = s.mem) (hnone : s'.pending = none)
    (hv : pc.Owns 0) (hv' : pc'.Owns {.plain req none}) (hwf : pc'.Wf) : Fits s' (↑[pc'] + T) := by
  obtain ⟨hv, hl, hp, hr⟩ := Pc.tokens_eq hv
  obtain ⟨hv', hl', hp', hr'⟩ := Pc.tokens_eq hv'
  refine h.step (fun x hx => by rw [List.mem_singleton.mp hx]; exact hwf) fun seg hseg => ⟨seg, ?_⟩
  simp only [hv, hl, hp, hr, hv', hl', hp', hr', hmem, hnone, hpend, pendingViews, zero_add, List.map_cons,
    map_nil, List.sum_cons, sum_nil, add_zero] at hseg ⊢
  rwa [add_comm] at hseg

end

/-- The exchange of `_write_head`. -/
theorem exchange_fits (hfit : Fits s (.exchange req ::ₘ T)) :
    Fits (s.withMem (s.mem.publish req)) (↑[afterExchange req s.mem.head] + T) := by
  cases hhead : s.mem.head with
  | none =>
    show Fits _ (↑[Pc.storeNull req] + T)
    refine hfit.step (by simp [Pc.Wf]) fun seg hseg => ⟨⟨[req], [], [], []⟩, ?_⟩
    simp only [Pc.views, Pc.links, Pc.preps, Pc.rets, zero_add, List.map_cons, map_nil, List.sum_cons,
      sum_nil, add_zero, singleton_add] at hseg ⊢
    exact hseg.publish_first hhead
  | some prev =>
    show Fits _ (↑[Pc.storeNext req prev] + T)
    refine hfit.step (by simp [Pc.Wf]) fun seg hseg => ⟨{ seg with newer := seg.newer ++ [req] }, ?_⟩
    simp only [Pc.views, Pc.links, Pc.preps, Pc.rets, zero_add, List.map_cons, map_nil, List.sum_cons,
      sum_nil, add_zero, singleton_add] at hseg ⊢
    exact hseg.publish_behind hhead

/-- The right moves from the thread to the slot. -/
theorem storePending_fits (hfit : Fits s (.storePending req ::ₘ T)) :
    Fits { s with pending := some req } (↑[Pc.startAsyncConnect] + T) := by
  have hnone := hfit.pending_none rfl
  refine hfit.step (by simp [Pc.Wf]) fun seg hseg => ⟨seg, ?_⟩
  simp only [Pc.views, Pc.links, Pc.preps, Pc.rets, zero_add, List.map_cons, map_nil, List.sum_cons,
      sum_nil, add_zero, singleton_add, hnone, pendingViews] at hseg ⊢
  rw [add_comm, singleton_add]
  exact hseg.forget

theorem startWriteStep_fits (h : startWriteStep s pc choice = some r) (hfit : Fits s (pc ::ₘ T)) :
    Fits r.1 (↑r.2 + T) := by
  revert h
  fun_cases startWriteStep s pc choice <;> intro h <;> cases h
  case case8 data a hfree =>
    refine hfit.step (by simp [Pc.Wf]) fun seg hseg => ⟨seg, ?_⟩
    simp only [Pc.views, Pc.links, Pc.preps, Pc.rets, zero_add, List.map_cons, map_nil, List.sum_cons,
      sum_nil, add_zero, singleton_add] at hseg ⊢
    exact hseg.take (by simpa using hfree) data
  case case10 => exact exchange_fits hfit
  case case11 =>
    refine hfit.step (by simp) fun seg hseg => ⟨seg, ?_⟩
    simp only [Pc.views, Pc.links, Pc.preps, Pc.rets, zero_add, map_nil, sum_nil,
      singleton_add] at hseg ⊢
    exact hseg.connect
  case case12 =>
    refine hfit.owner rfl rfl trivial rfl fun _ _ _ _ seg hseg => ⟨seg, ?_⟩
    exact hseg.ground.learn (Function.update_self _ _ _)
  case case19 => exact storePending_fits hfit
  case case25 hpend => exact hfit.takeSlot hpend rfl rfl rfl rfl trivial
  case case27 n _ =>
    refine hfit.owner rfl rfl trivial rfl fun _ _ _ _ seg hseg => ⟨seg, ?_⟩
    have := hseg.consume 1 n
    rwa [hseg.alone_priv] at this
  case case30 n _ _ =>
    refine hfit.owner rfl rfl trivial rfl fun _ _ _ _ seg hseg => ⟨seg, ?_⟩
    have := (hseg.consume 1 n).forget
    rwa [hseg.alone_priv] at this
  all_goals first
    | exact hfit.exit rfl rfl rfl
    | exact hfit.goto rfl rfl rfl trivial
    | exact hfit.forget rfl rfl trivial rfl rfl

theorem setFailedStep_fits (h : setFailedStep s pc choice = some r) (hfit : Fits s (pc ::ₘ T)) : Fits r.1 (↑r.2 + T) := by
  -- leaving `SetFailed`, a thread goes on with the right it had
  have hresume : ∀ {s' : WriteState} {pc : Pc} {after : Then}, Fits s (pc ::ₘ T) → s'.mem = s.mem →
      s'.pending = s.pending → pc.Owns after.views → Fits s' (↑after.resume + T) := by
    intro s' pc after hfit hmem hpend hv
    cases after with
    | exit => exact hfit.exit hmem hpend hv
    | drain req | waited req curTail => exact hfit.goto hmem hpend hv.symm trivial
  revert h
  fun_cases setFailedStep s pc choice <;> intro h <;> cases h <;>
    first
    | exact hfit.goto rfl rfl rfl trivial
    | exact hresume hfit rfl rfl rfl

section

variable {tail : Option Addr} (h : Fits s (pc ::ₘ T)) (hv : pc.Owns {.plain req tail})

include h hv

theorem Fits.keepComplete : Fits s (↑[LightRpc.keepComplete req tail] + T) := by
  cases tail with
  | none => exact h.owner hv rfl trivial rfl fun _ _ _ _ seg hseg => ⟨seg, hseg.walk_start⟩
  | some o => exact h.owner hv rfl trivial rfl fun _ _ _ _ seg hseg => ⟨seg, hseg⟩

theorem Fits.connected : s.mem.next req ≠ .unconnected := by
  obtain ⟨seg, hseg⟩ := h.view hv
  rcases hseg.plain_next with ⟨hnull, _⟩ | ⟨b, l, hto, _⟩ <;> simp [*]

theorem keepReleased_fits {wait : Bool} : Fits s (↑[keepReleased req tail wait] + T) := by
  cases wait with
  | true => exact h.goto rfl rfl hv.symm trivial
  | false => exact h.keepComplete hv

end

theorem keepWriteStep_fits (h : keepWriteStep s pc choice = some r) (hfit : Fits s (pc ::ₘ T)) :
    r.1.crashed = s.crashed ∧ Fits r.1 (↑r.2 + T) := by
  -- the requests that `DoWrite` collected are the owner's
  have hconsume : ∀ {req curTail list V L P R seg} n, collect s.mem.next DATA_LIST_MAX (.to req) = some list →
      OwnedQueue.Inv s.mem (View.plain req curTail ::ₘ V) L P R seg →
      OwnedQueue.Inv (s.mem.consume list n) (View.plain req curTail ::ₘ V) L P R seg := by
    intro req curTail list V L P R seg n hlist hseg
    cases hlist.symm.trans (hseg.collect_priv _)
    exact hseg.consume _ n
  revert h hfit
  fun_cases keepWriteStep s pc choice <;> intro h hfit <;> cases h
  case case1 | case20 => exact ⟨rfl, hfit.forget rfl rfl trivial rfl rfl⟩
  case case3 | case14 => exact absurd ‹_› (hfit.connected rfl)
  case case5 hto hdata | case16 hto hdata =>
    exact ⟨rfl, hfit.owner rfl rfl trivial rfl fun _ _ _ _ seg hseg => hseg.pop hto hdata⟩
  case case7 hnone =>
    obtain ⟨seg, hseg⟩ := hfit.view rfl
    rw [hseg.collect_priv] at hnone
    cases hnone
  case case8 n hlist _ =>
    exact ⟨rfl, hfit.owner rfl rfl trivial rfl fun _ _ _ _ seg hseg => ⟨seg, hconsume n hlist hseg⟩⟩
  case case11 n e hlist _ =>
    exact ⟨rfl, hfit.owner rfl rfl trivial rfl fun _ _ _ _ seg hseg => ⟨seg, (hconsume n hlist hseg).forget⟩⟩
  case case15 | case17 => exact ⟨rfl, keepReleased_fits hfit rfl⟩
  case case21 => exact ⟨rfl, hfit.keepComplete rfl⟩
  case case22 hopen =>
    obtain ⟨seg, hseg⟩ := hfit.view rfl
    rcases hseg.walk_next with ⟨hnull, _⟩ | ⟨n, hto, _⟩ <;> grind
  case case23 hnull =>
    refine ⟨rfl, hfit.owner rfl rfl trivial rfl fun _ _ _ _ seg hseg => ⟨seg, ?_⟩⟩
    rcases hseg.walk_next with ⟨_, hinv⟩ | ⟨n, hto, _⟩
    · exact hinv
    · cases hnull.symm.trans hto
  case case24 hto =>
    refine ⟨rfl, hfit.owner rfl rfl trivial rfl fun _ _ _ _ seg hseg => ⟨seg, ?_⟩⟩
    rcases hseg.walk_next with ⟨hnull, _⟩ | ⟨n, hto', hinv⟩
    · cases hnull.symm.trans hto
    · cases hto.symm.trans hto'
      exact hinv
  all_goals exact ⟨rfl, hfit.goto rfl rfl rfl trivial⟩

theorem Caller.singular_req {c : Caller} (h : c.singularNode) : c.req = c.oldHead := by
  cases c with
  | startWrite req => rfl
  | keepWrite req curTail => exact beq_iff_eq.mp h
  | drain req recycler => rfl

/-- `IsWriteComplete` returns false to a caller that owns the chain up to `newTail`. -/
theorem Fits.incomplete {c : Caller} {newTail : Addr} (h : Fits s (pc ::ₘ T))
    (hv : pc.Owns {v}) (hpend : s'.pending = s.pending)
    (hinv : ∀ V L P R seg, OwnedQueue.Inv s.mem (v ::ₘ V) L P R seg →
      ∃ seg, OwnedQueue.Inv s'.mem (.plain c.req (some newTail) ::ₘ V) L P R seg) :
    Fits s' (↑[c.incomplete newTail] + T) := by
  have hforget : ∀ V L P R seg, OwnedQueue.Inv s.mem (v ::ₘ V) L P R seg →
      ∃ seg, OwnedQueue.Inv s'.mem (.plain c.req none ::ₘ V) L P R seg := by
    intro V L P R seg hseg
    obtain ⟨seg', hseg'⟩ := hinv V L P R seg hseg
    exact ⟨seg', hseg'.forget⟩
  cases c with
  | startWrite req | drain req recycler => exact h.owner hv rfl trivial hpend hforget
  | keepWrite req curTail => exact h.owner hv rfl trivial hpend hinv

/-- The last request of a released queue is returned. -/
theorem Fits.finish {c : Caller} {pcs : List Pc} (h : Fits s (.finish c ::ₘ T)) (hwf : ∀ x ∈ pcs, x.Wf)
    (hpcs : ∀ x ∈ pcs, x.Owns 0) (hpend : s'.pending = s.pending)
    (hinv : ∀ V L P R seg, OwnedQueue.Inv s.mem V L P (c.req ::ₘ R) seg →
      OwnedQueue.Inv s'.mem V L P R seg) : Fits s' (↑pcs + T) := by
  have hzero : ∀ {γ : Type} (f : Pc → Multiset γ), (∀ x ∈ pcs, f x = 0) → (pcs.map f).sum = 0 := by
    intro γ f hf
    refine List.sum_eq_zero fun x hx => ?_
    obtain ⟨y, hy, rfl⟩ := List.mem_map.mp hx
    exact hf y hy
  refine h.step hwf fun seg hseg => ⟨seg, ?_⟩
  have hpcs := fun x hx => Pc.tokens_eq (hpcs x hx)
  rw [hzero _ fun x hx => (hpcs x hx).1, hzero _ fun x hx => (hpcs x hx).2.1,
    hzero _ fun x hx => (hpcs x hx).2.2.1, hzero _ fun x hx => (hpcs x hx).2.2.2, hpend]
  simp only [Pc.views, Pc.links, Pc.preps, Pc.rets, zero_add, singleton_add] at hseg ⊢
  exact hinv _ _ _ _ _ hseg

theorem completeStep_fits (h : completeStep s pc choice = some r) (hfit : Fits s (pc ::ₘ T)) :
    r.1.crashed = s.crashed ∧ Fits r.1 (↑r.2 + T) := by
  -- a request whose right is given up has nothing left to write
  have hdata : ∀ {c : Caller}, Fits s (.finish c ::ₘ T) → s.mem.data c.req = [] := by
    rintro c ⟨_, seg, hseg⟩
    exact hseg.finished _ (by simp)
  revert h hfit
  fun_cases completeStep s pc choice <;> intro h hfit <;> cases h
  case case1 => exact absurd ‹_› (hfit.connected rfl)
  case case2 hto =>
    exact ⟨rfl, hfit.owner rfl rfl trivial rfl
      fun _ _ _ _ seg hseg => hseg.clear.pop hto (Function.update_self _ _ _)⟩
  case case3 hnull =>
    exact ⟨rfl, hfit.owner rfl rfl trivial rfl fun _ _ _ _ seg hseg => ⟨seg, hseg.clear.learn hnull⟩⟩
  case case4 hne =>
    obtain ⟨seg, hseg⟩ := hfit.view rfl
    exact absurd hseg.tail_null hne
  case case5 c hold hhead hlast =>
    obtain ⟨seg, hseg⟩ := hfit.view rfl
    obtain ⟨hempty, hsingular⟩ := hlast
    have hreq := Caller.singular_req hsingular
    -- the right is released, the last request is still to be returned
    refine ⟨rfl, hfit.step (by simp [Pc.Wf]) fun _ _ => ⟨⟨[], [], [], []⟩, ?_⟩⟩
    simp only [Pc.views, Pc.links, Pc.preps, Pc.rets, zero_add, List.map_cons, map_nil, List.sum_cons,
      sum_nil, add_zero, singleton_add]
    rw [← hreq] at hhead hold hempty
    exact hseg.leave hhead (not_not.mp hold) hempty
  case case6 => exact ⟨rfl, hfit.incomplete rfl rfl fun _ _ _ _ seg hseg => ⟨seg, hseg⟩⟩
  case case7 c _ hne newHead hhead =>
    have hnew : newHead ≠ c.oldHead := fun he => hne (he ▸ hhead)
    exact ⟨rfl, hfit.owner rfl rfl hnew rfl fun _ _ _ _ _ hseg => ⟨_, hseg.turn hhead hnew⟩⟩
  case case8 hhead =>
    obtain ⟨seg, hseg⟩ := hfit.view rfl
    exact absurd (hseg.head_eq_none.mp hhead) cons_ne_zero
  case case10 hnull =>
    obtain ⟨seg, hseg⟩ := hfit.view rfl
    obtain ⟨_, q, _, _, _, hconn⟩ := hseg.rev_next (hfit.1 _ (Multiset.mem_cons_self _ T))
    rcases hconn with hto | ⟨hopen, _⟩ <;> grind
  case case11 hto =>
    have hp := hfit.1 _ (Multiset.mem_cons_self _ T)
    refine ⟨rfl, ?_⟩
    split
    next hq =>
      subst hq
      exact hfit.owner rfl rfl trivial rfl fun _ _ _ _ _ hseg => hseg.rev_step hp hto
    next hq =>
      exact hfit.owner rfl rfl hq rfl fun _ _ _ _ _ hseg => hseg.rev_step hp hto
  case case12 => exact ⟨rfl, hfit.incomplete rfl rfl fun _ _ _ _ _ hseg => hseg.join⟩
  case case13 | case15 => exact ⟨rfl, hfit.finish (by simp) (by simp) rfl fun _ _ _ _ _ hseg => hseg.giveBack⟩
  case case14 hne | case16 hne => exact absurd (hdata hfit) hne
  case case17 recycler =>
    refine ⟨rfl, hfit.finish ?_ ?_ rfl fun _ _ _ _ _ hseg => (hseg.clear_finished (hdata hfit)).giveBack⟩
    · cases recycler <;> simp [Pc.Wf]
    · cases recycler <;> simp [Pc.Owns, Pc.tokens]

theorem handshakeStep_fits (h : handshakeStep s pc choice = some r) (hfit : Fits s (pc ::ₘ T)) :
    Fits r.1 (↑r.2 + T) := by
  revert h
  fun_cases handshakeStep s pc choice <;> intro h <;> cases h <;>
    first
    | exact hfit.exit rfl rfl rfl
    | exact hfit.goto rfl rfl rfl trivial
    | exact hfit.takeSlot (by assumption) rfl rfl rfl rfl trivial

theorem recycleStep_fits (h : recycleStep s pc choice = some r) (hfit : Fits s (pc ::ₘ T)) : Fits r.1 (↑r.2 + T) := by
  revert h
  fun_cases recycleStep s pc choice <;> intro h <;> cases h <;>
    first
    | exact hfit.exit rfl rfl rfl
    | exact hfit.goto rfl rfl rfl trivial
    | exact hfit.takeSlot (by assumption) rfl rfl rfl rfl trivial

/-! Recycling. -/

/-- The program counters of `BeforeRecycled`. -/
def Caller.recycler : Caller → Bool
  | .drain _ recycler => recycler
  | _ => false

def Pc.recycler : Pc → Bool
  | .beforeRecycled | .checkHead => true
  | .drain _ recycler => recycler
  | .isWriteComplete c | .reverse c .. | .link c .. | .finish c => c.recycler
  | _ => false

/-- What a step of a thread leaves alone: whether the thread recycles, that it is one
    thread, and the slot once a recycling thread has emptied it. -/
structure Frame (s : WriteState) (pc : Pc) (r : WriteState × List Pc) : Prop where
  recycler : ∀ x ∈ r.2, x.recycler = pc.recycler
  single : r.2.length ≤ 1
  recycled : r.1.recycled = s.recycled
  pending : pc.recycler = true → s.pending = none ∨ pc = .beforeRecycled → r.1.pending = none

theorem Frame.goto (hr : pc'.recycler = pc.recycler) (hrec : s'.recycled = s.recycled)
    (hpend : pc.recycler → s.pending = none ∨ pc = .beforeRecycled → s'.pending = none) :
    Frame s pc (s', [pc']) :=
  ⟨forall_mem_singleton.mpr hr, le_refl 1, hrec, hpend⟩

theorem Frame.exit (hrec : s'.recycled = s.recycled)
    (hpend : pc.recycler → s.pending = none ∨ pc = .beforeRecycled → s'.pending = none) : Frame s pc (s', []) :=
  ⟨fun _ hx => (not_mem_nil hx).elim, Nat.zero_le 1, hrec, hpend⟩

/-- A thread that does not recycle says nothing about the slot. -/
theorem slot_of_worker (h : pc.recycler = false) :
    pc.recycler → s.pending = none ∨ pc = .beforeRecycled → s'.pending = none := by
  intro ht
  rw [h] at ht
  cases ht

theorem incomplete_recycler (c : Caller) (newTail : Addr) : (c.incomplete newTail).recycler = c.recycler := by
  cases c <;> rfl

theorem afterExchange_recycler (req : Addr) (head : Option Addr) : (afterExchange req head).recycler = false := by
  cases head <;> rfl

theorem keepComplete_recycler (req : Addr) (curTail : Option Addr) : (keepComplete req curTail).recycler = false := by
  cases curTail <;> rfl

theorem keepReleased_recycler (req : Addr) (curTail : Option Addr) (wait : Bool) :
    (keepReleased req curTail wait).recycler = false := by
  cases wait
  · exact keepComplete_recycler req curTail
  · rfl

theorem startWriteStep_frame (h : startWriteStep s pc choice = some r) : r.1.crashed = s.crashed ∧ Frame s pc r := by
  revert h
  fun_cases startWriteStep s pc choice <;> intro h <;> cases h <;> refine ⟨rfl, ?_⟩ <;>
    first
    | exact .exit rfl (slot_of_worker rfl)
    | exact .goto rfl rfl (slot_of_worker rfl)
    | exact .goto (afterExchange_recycler _ _) rfl (slot_of_worker rfl)

theorem resume_frame (after : Then) (hpc : pc.recycler = false) (hrec : s'.recycled = s.recycled) :
    Frame s pc (s', after.resume) := by
  cases after with
  | exit => exact .exit hrec (slot_of_worker hpc)
  | drain req | waited req curTail => exact .goto hpc.symm hrec (slot_of_worker hpc)

theorem setFailedStep_frame (h : setFailedStep s pc choice = some r) : r.1.crashed = s.crashed ∧ Frame s pc r := by
  revert h
  fun_cases setFailedStep s pc choice <;> intro h <;> cases h <;> refine ⟨rfl, ?_⟩ <;>
    first
    | exact resume_frame _ rfl rfl
    | exact .goto rfl rfl (slot_of_worker rfl)

theorem keepWriteStep_frame (h : keepWriteStep s pc choice = some r) : Frame s pc r := by
  revert h
  fun_cases keepWriteStep s pc choice <;> intro h <;> cases h <;>
    first
    | exact .exit rfl (slot_of_worker rfl)
    | exact .goto rfl rfl (slot_of_worker rfl)
    | exact .goto (keepReleased_recycler _ _ _) rfl (slot_of_worker rfl)
    | exact .goto (keepComplete_recycler _ _) rfl (slot_of_worker rfl)

theorem completeStep_frame (h : completeStep s pc choice = some r) : Frame s pc r := by
  -- no program counter here is the start of `BeforeRecycled`
  have hslot : ∀ {s' : WriteState}, pc ≠ .beforeRecycled → s'.pending = s.pending →
      pc.recycler = true → s.pending = none ∨ pc = .beforeRecycled → s'.pending = none := by
    intro s' hne hsame _ hor
    rcases hor with hnone | hpc
    · exact hsame.trans hnone
    · exact absurd hpc hne
  revert h hslot
  fun_cases completeStep s pc choice <;> intro h hslot <;> cases h
  case case17 req recycler =>
    cases recycler
    · exact .exit rfl (hslot nofun rfl)
    · exact .goto rfl rfl (hslot nofun rfl)
  all_goals
    first
    | exact .exit rfl (hslot nofun rfl)
    | exact .goto rfl rfl (hslot nofun rfl)
    | exact .goto (incomplete_recycler _ _) rfl (hslot nofun rfl)
    | exact .goto (by split <;> rfl) rfl (hslot nofun rfl)

theorem handshakeStep_frame (h : handshakeStep s pc choice = some r) : r.1.crashed = s.crashed ∧ Frame s pc r := by
  revert h
  fun_cases handshakeStep s pc choice <;> intro h <;> cases h <;> refine ⟨rfl, ?_⟩ <;>
    first
    | exact .exit rfl (slot_of_worker rfl)
    | exact .goto rfl rfl (slot_of_worker rfl)

/-- The one `CHECK` that Fits does not decide: the head when `BeforeRecycled` looks at it. -/
theorem recycleStep_frame (h : recycleStep s pc choice = some r) :
    (pc = .checkHead ∧ s.mem.head ≠ none ∨ r.1.crashed = s.crashed) ∧ Frame s pc r := by
  cases pc with
  | beforeRecycled =>
    simp only [recycleStep] at h
    split at h <;> cases h
    · exact ⟨.inr rfl, .goto rfl rfl fun _ _ => rfl⟩
    next hnone => exact ⟨.inr rfl, .goto rfl rfl fun _ _ => hnone⟩
  | checkHead =>
    have hslot : ∀ {s' : WriteState}, s'.pending = s.pending →
        s.pending = none ∨ Pc.checkHead = .beforeRecycled → s'.pending = none :=
      fun hsame hor => hsame.trans (hor.resolve_right nofun)
    simp only [recycleStep] at h
    split at h <;> cases h
    · exact ⟨.inr rfl, .exit rfl fun _ => hslot rfl⟩
    next hhead => exact ⟨.inl ⟨rfl, hhead⟩, .exit rfl fun _ => hslot rfl⟩
  | _ => cases h

/-! Every step. -/

theorem step_fits (h : pc.step s choice = some r) (hfit : Fits s (pc ::ₘ T)) :
    (pc = .checkHead ∧ s.mem.head ≠ none ∨ r.1.crashed = s.crashed) ∧ Frame s pc r ∧ Fits r.1 (↑r.2 + T) := by
  unfold Pc.step at h
  split at h
  all_goals first
    | exact ⟨.inr (setFailedStep_frame h).1, (setFailedStep_frame h).2, setFailedStep_fits h hfit⟩
    | exact ⟨.inr (keepWriteStep_fits h hfit).1, keepWriteStep_frame h, (keepWriteStep_fits h hfit).2⟩
    | exact ⟨.inr (completeStep_fits h hfit).1, completeStep_frame h, (completeStep_fits h hfit).2⟩
    | exact ⟨.inr (handshakeStep_frame h).1, (handshakeStep_frame h).2, handshakeStep_fits h hfit⟩
    | exact ⟨(recycleStep_frame h).1, (recycleStep_frame h).2, recycleStep_fits h hfit⟩
    | exact ⟨.inr (startWriteStep_frame h).1, (startWriteStep_frame h).2, startWriteStep_fits h hfit⟩

end LightRpc

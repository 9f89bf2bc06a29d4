import LightRpc.PendingCalls

/- Who settles a call.

   A request is settled under its own mutex, except by its caller before it is
   registered, and everybody but the caller reaches it through `pending_map_` and keeps
   `pending_mutex_` until it is through (`Pc.holds`). So between the write of an outcome
   and the write of `done` (`Pc.finishing`) there is one thread at a time, and after
   `done` there is none. The entries of `pending_map_` are calls between their
   registration and their erasure (`Pc.registered`); after the failure sweep all of them
   are done, and `connection_error_` keeps new ones out. -/
namespace LightRpc.Pending

open Lib List Option ChannelState

variable {r : Nat} {l : Lock}

/-- The mutexes a thread at `pc` has. -/
def Pc.holds (t : Nat) : Pc → Lock → Prop
  | .register _ _, l | .reject _, l | .erase _ _, l | .find _, l | .lockFound _ _, l | .setError _, l
  | .sweep _, l => l = .pending
  | .checkDone _, l | .timeoutDone _, l => l = .request t
  | .checkFound _ k, l | .respondDone _ k, l | .sweepCheck k _, l | .sweepDone k _, l =>
    l = .pending ∨ l = .request k
  | _, _ => False

/-- The `rpc_id` of a call that has one. -/
def Pc.rpcId : Pc → Option Nat
  | .lockRegister _ r | .register _ r | .reject r | .waitLarge r | .startWrite _ r | .lockRequest r | .checkDone r
  | .timeoutDone r | .report r | .lockErase r _ | .erase r _ => some r
  | _ => none

/-- The `rpc_id` of a call that has registered and not yet erased itself. -/
def Pc.registered : Pc → Option Nat
  | .waitLarge r | .startWrite _ r | .lockRequest r | .checkDone r | .timeoutDone r | .report r | .lockErase r _
  | .erase r _ => some r
  | _ => none

/-- The request whose outcome the thread has written and whose `done` it has not. -/
def Pc.finishing (t : Nat) : Pc → Option Nat
  | .reject _ | .timeoutDone _ => some t
  | .respondDone _ k | .sweepDone k _ => some k
  | _ => none

/-- A call that has not tried to register: nobody knows its request. -/
def Pc.fresh : Pc → Bool
  | .address _ | .fetchRpcId _ | .lockRegister _ _ | .register _ _ => true
  | _ => false

/-- In the failure sweep with these requests to go: all others are done. -/
structure Sweeping (s : ChannelState) (rest : List Nat) : Prop where
  error : s.connectionError ≠ 0
  entry : ∀ k ∈ rest, ∃ r, (r, k) ∈ s.pendingMap
  done : ∀ e ∈ s.pendingMap, e.2 ∉ rest → s.done e.2 = true

/-- What a thread knows about the channel. -/
def Pc.Knows (s : ChannelState) : Pc → Prop
  | .lockFound f k | .checkFound f k | .respondDone f k => (f.rpcId, k) ∈ s.pendingMap
  | .lockFailed error | .setError error => error ≠ 0
  | .sweep rest => Sweeping s rest
  | .sweepCheck k rest | .sweepDone k rest => Sweeping s (k :: rest)
  | _ => True

/-- The call `t` took the `rpc_id` `r`. -/
def ChannelState.Issued (s : ChannelState) (r t : Nat) : Prop :=
  ∃ n, s.issued[n]? = some t ∧ r = (1 + n) % 2 ^ 32

/-- The outcome of `k` according to the log. -/
def lastOutcome (log : List Event) (k : Nat) : Outcome :=
  log.foldl (fun o e => match e with
    | .wrote k' _ _ o' => if k' = k then o' else o
    | _ => o) .initial

/-- What the log before an entry has to look like. -/
def allowed (before : List Event) : Event → Prop
  | .wrote k _ p _ =>
    (∀ t, .finished k t ∉ before) ∧ ∀ r, p = .response r → .registered r k ∈ before
  | .finished k t =>
    (∀ t', .finished k t' ∉ before) ∧ ∀ t' p o, .wrote k t' p o ∈ before → t' = t
  | .registered _ _ => .swept ∉ before
  | .rejected _ error => error ≠ 0
  | .swept => True

/-- How far the requests are settled. -/
structure Requests (s : ChannelState) : Prop where
  finishing : ∀ (t : Nat) (pc : Pc) k, s.threads[t]? = some pc → pc.finishing t = some k → s.done k = false
  writing : ∀ k t p o, .wrote k t p o ∈ s.log → s.done k = false →
    ∃ pc : Pc, s.threads[t]? = some pc ∧ pc.finishing t = some k
  begun : ∀ k, s.done k = true → ∃ pc : Pc, s.threads[k]? = some pc ∧ pc.fresh = false
  done : ∀ k, s.done k = true ↔ ∃ t, .finished k t ∈ s.log
  outcome : ∀ k, s.outcome k = lastOutcome s.log k
  history : Along allowed s.log

structure ChannelInv (s : ChannelState) : Prop extends Requests s where
  locks : Locks.Disciplined Pc.holds s.threads s.owner
  issued : ∀ (t : Nat) (pc : Pc) r, s.threads[t]? = some pc → pc.rpcId = some r → s.Issued r t
  knows : ∀ (t : Nat) (pc : Pc), s.threads[t]? = some pc → pc.Knows s
  entries : ∀ r k, (r, k) ∈ s.pendingMap → ∃ pc : Pc, s.threads[k]? = some pc ∧ pc.registered = some r
  logged : ∀ r k, (r, k) ∈ s.pendingMap → .registered r k ∈ s.log
  registered : ∀ r k, .registered r k ∈ s.log → s.Issued r k
  swept : .swept ∈ s.log → s.connectionError ≠ 0 ∧ ∀ e ∈ s.pendingMap, s.done e.2 = true

section
variable {s s' : ChannelState} {t t' k : Nat} {pc pc' : Pc}

/-! Knowledge is kept by everybody else's steps. -/

theorem Pc.Knows.mono (h : pc.Knows s) (hmap : s'.pendingMap = s.pendingMap)
    (herror : s.connectionError ≠ 0 → s'.connectionError ≠ 0)
    (hdone : ∀ k, s.done k → s'.done k) : pc.Knows s' := by
  have hsweeping : ∀ rest, Sweeping s rest → Sweeping s' rest := by
    intro rest hs
    refine ⟨herror hs.error, ?_, ?_⟩
    · rw [hmap]
      exact hs.entry
    · rw [hmap]
      intro e he hnot
      exact hdone _ (hs.done e he hnot)
  cases pc with
  | lockFound f k | checkFound f k | respondDone f k =>
    show (f.rpcId, k) ∈ s'.pendingMap
    rw [hmap]
    exact h
  | sweep rest | sweepCheck k rest | sweepDone k rest => exact hsweeping _ h
  | lockFailed error | setError error => exact h
  | _ => trivial

/-- Whoever does not have `pending_mutex_` knows nothing that could change. -/
theorem Pc.Knows.free (h : pc.Knows s) (hfree : ¬ pc.holds t .pending) : pc.Knows s' := by
  cases pc <;> first | trivial | exact h | exact absurd rfl hfree | exact absurd (.inl rfl) hfree

/-- A thread about to set `done` has the request to itself: by its mutex, or as a call that is
    not registered. -/
theorem Pc.finishing_holds (h : pc.finishing t = some k) :
    pc.holds t (.request k) ∧ (t ≠ k → pc.holds t .pending) ∨ t = k ∧ pc.holds t .pending := by
  cases pc <;> cases h
  · exact .inr ⟨rfl, rfl⟩
  · exact .inl ⟨rfl, fun hne => absurd rfl hne⟩
  · exact .inl ⟨.inr rfl, fun _ => .inl rfl⟩
  · exact .inl ⟨.inr rfl, fun _ => .inl rfl⟩

theorem ChannelInv.finisher_unique (h : ChannelInv s) (ht : s.threads[t]? = some pc)
    (ht' : s.threads[t']? = some pc') (hfin : pc.finishing t = some k) (hfin' : pc'.finishing t' = some k) :
    t = t' := by
  rcases Pc.finishing_holds hfin with ⟨hreq, hpend⟩ | ⟨heq, hpend⟩ <;>
    rcases Pc.finishing_holds hfin' with ⟨hreq', hpend'⟩ | ⟨heq', hpend'⟩
  · exact h.locks.exclusive ht ht' hreq hreq'
  · by_cases hne : t = k
    · rw [hne, heq']
    · exact h.locks.exclusive ht ht' (hpend hne) hpend'
  · by_cases hne : t' = k
    · rw [hne, heq]
    · exact h.locks.exclusive ht ht' hpend (hpend' hne)
  · rw [heq, heq']

/-- A thread moves from `pc` to `pc'`: it has the mutexes it should have, and took none that
    was not free. -/
structure Moves (s : ChannelState) (t : Nat) (pc pc' : Pc) (s' : ChannelState) : Prop where
  from_pc : s.threads[t]? = some pc
  threads : s'.threads = s.threads.set t pc'
  mine : ∀ l, pc'.holds t l → s'.owner l = some t
  others : ∀ l t', t' ≠ t → s.owner l = some t' → s'.owner l = some t'

theorem Moves.to_pc (hm : Moves s t pc pc' s') : s'.threads[t]? = some pc' := by
  rw [hm.threads]
  exact Locks.get_set hm.from_pc

/-- The other threads are where they were. -/
theorem Moves.other (hm : Moves s t pc pc' s') (hne : t' ≠ t) {x : Pc} (hx : s.threads[t']? = some x) :
    s'.threads[t']? = some x := by
  rw [hm.threads, getElem?_set_ne (Ne.symm hne)]
  exact hx

theorem Moves.cases (hm : Moves s t pc pc' s') {x : Pc} (hx : s'.threads[t']? = some x) :
    t' = t ∧ x = pc' ∨ t' ≠ t ∧ s.threads[t']? = some x := by
  rw [hm.threads] at hx
  by_cases heq : t' = t
  · exact .inl ⟨heq, Locks.self_set (heq ▸ hx)⟩
  · exact .inr ⟨heq, Locks.other_set heq hx⟩

/-! The parts of the invariant that are about threads, after a step of one of them. -/

namespace Moves

variable (hm : Moves s t pc pc' s') (h : ChannelInv s)
include hm h

theorem locks : Locks.Disciplined Pc.holds s'.threads s'.owner := by
  rw [hm.threads]
  exact h.locks.move hm.mine hm.others

theorem issued (hmono : ∀ r k, s.Issued r k → s'.Issued r k) (hmine : ∀ r, pc'.rpcId = some r → s'.Issued r t) :
    ∀ (t : Nat) (x : Pc) r, s'.threads[t]? = some x → x.rpcId = some r → s'.Issued r t := by
  intro t' x r hx hr
  rcases hm.cases hx with ⟨rfl, rfl⟩ | ⟨_, hx⟩
  · exact hmine r hr
  · exact hmono r t' (h.issued t' x r hx hr)

theorem knows (hmine : pc'.Knows s')
    (hothers : ∀ t' (x : Pc), t' ≠ t → s.threads[t']? = some x → x.Knows s → x.Knows s') :
    ∀ (t : Nat) (x : Pc), s'.threads[t]? = some x → x.Knows s' := by
  intro t' x hx
  rcases hm.cases hx with ⟨rfl, rfl⟩ | ⟨hne, hx⟩
  · exact hmine
  · exact hothers t' x hne hx (h.knows t' x hx)

/-- A thread with `pending_mutex_` may change all that is known. -/
theorem knows_alone (hpending : pc.holds t .pending) (hmine : pc'.Knows s') :
    ∀ (t : Nat) (x : Pc), s'.threads[t]? = some x → x.Knows s' := by
  refine hm.knows h hmine fun t' x hne hx hknows => hknows.free (t := t') fun hholds => ?_
  exact hne (h.locks.exclusive hx hm.from_pc hholds hpending)

theorem finishing (hmine : ∀ k, pc'.finishing t = some k → s'.done k = false)
    (hothers : ∀ t' (x : Pc) k, t' ≠ t → s.threads[t']? = some x → x.finishing t' = some k →
      s.done k = false → s'.done k = false) :
    ∀ (t : Nat) (x : Pc) k, s'.threads[t]? = some x → x.finishing t = some k → s'.done k = false := by
  intro t' x k hx hk
  rcases hm.cases hx with ⟨rfl, rfl⟩ | ⟨hne, hx⟩
  · exact hmine k hk
  · exact hothers t' x k hne hx hk (h.finishing t' x k hx hk)

theorem entries (hmap : ∀ r k, (r, k) ∈ s'.pendingMap →
      (r, k) ∈ s.pendingMap ∧ (k = t → pc.registered = some r → pc'.registered = some r) ∨
        k = t ∧ pc'.registered = some r) :
    ∀ r k, (r, k) ∈ s'.pendingMap → ∃ x : Pc, s'.threads[k]? = some x ∧ x.registered = some r := by
  intro r k hrk
  rcases hmap r k hrk with ⟨hold, hmine⟩ | ⟨rfl, hnew⟩
  · obtain ⟨x, hx, hxr⟩ := h.entries r k hold
    by_cases heq : k = t
    · subst heq
      rw [hm.from_pc] at hx
      rw [← some.inj hx] at hxr
      exact ⟨pc', hm.to_pc, hmine rfl hxr⟩
    · exact ⟨x, hm.other heq hx, hxr⟩
  · exact ⟨pc', hm.to_pc, hnew⟩

theorem writing (hlog : ∀ k t' p o, .wrote k t' p o ∈ s'.log → .wrote k t' p o ∈ s.log ∨ t' = t ∧ pc'.finishing t = some k)
    (hdone : ∀ k, s'.done k = false → s.done k = false)
    (hmine : ∀ k, s'.done k = false → pc.finishing t = some k → pc'.finishing t = some k) :
    ∀ k t p o, .wrote k t p o ∈ s'.log → s'.done k = false →
      ∃ x : Pc, s'.threads[t]? = some x ∧ x.finishing t = some k := by
  intro k t' p o hw hk
  rcases hlog k t' p o hw with hw | ⟨rfl, hnew⟩
  · obtain ⟨x, hx, hxk⟩ := h.writing k t' p o hw (hdone k hk)
    by_cases heq : t' = t
    · subst heq
      rw [hm.from_pc] at hx
      rw [← some.inj hx] at hxk
      exact ⟨pc', hm.to_pc, hmine k hk hxk⟩
    · exact ⟨x, hm.other heq hx, hxk⟩
  · exact ⟨pc', hm.to_pc, hnew⟩

theorem begun (hfresh : pc'.fresh → pc.fresh)
    (hdone : ∀ k, s'.done k → s.done k ∨ ∃ x : Pc, s'.threads[k]? = some x ∧ x.fresh = false) :
    ∀ k, s'.done k → ∃ x : Pc, s'.threads[k]? = some x ∧ x.fresh = false := by
  intro k hk
  rcases hdone k hk with hk | hx
  · obtain ⟨x, hx, hxk⟩ := h.begun k hk
    by_cases heq : k = t
    · subst heq
      rw [hm.from_pc] at hx
      rw [← some.inj hx] at hxk
      refine ⟨pc', hm.to_pc, ?_⟩
      rw [← Bool.not_eq_true] at hxk ⊢
      exact mt hfresh hxk
    · exact ⟨x, hm.other heq hx, hxk⟩
  · exact hx

end Moves

/-- The call, if the thread is one, goes on with the same `rpc_id`. -/
@[mk_iff]
structure Pc.Follows (pc pc' : Pc) : Prop where
  rpcId : ∀ r, pc'.rpcId = some r → pc.rpcId = some r
  registered : ∀ r, pc.registered = some r → pc'.registered = some r
  fresh : pc'.fresh = true → pc.fresh = true

attribute [simp] Pc.follows_iff

/-- A step that leaves `pending_map_` and `connection_error_` alone. -/
structure Keeps (s s' : ChannelState) : Prop where
  map : s'.pendingMap = s.pendingMap
  error : s'.connectionError = s.connectionError
  issued : s'.issued = s.issued
  done : ∀ k, s.done k = true → s'.done k = true
  log : ∃ es, s'.log = s.log ++ es ∧ .swept ∉ es ∧ ∀ r k, .registered r k ∉ es

theorem Keeps.knows (hk : Keeps s s') (h : pc.Knows s) : pc.Knows s' :=
  h.mono hk.map (by rw [hk.error]; exact id) hk.done

/-- After such a step only what was done to the requests remains to be said. -/
theorem ChannelInv.keeps (h : ChannelInv s) (hm : Moves s t pc pc' s') (hk : Keeps s s') (hnext : pc.Follows pc')
    (hknows : pc'.Knows s') (hreq : Requests s') : ChannelInv s' := by
  have hissued : ∀ r k, s.Issued r k → s'.Issued r k := by
    intro r k
    rw [Issued, Issued, hk.issued]
    exact id
  obtain ⟨es, hlog, hswept, hregistered⟩ := hk.log
  refine ⟨hreq, hm.locks h, ?_, ?_, ?_, ?_, ?_, ?_⟩
  · exact hm.issued h hissued fun r hr => hissued r t (h.issued t pc r hm.from_pc (hnext.rpcId r hr))
  · exact hm.knows h hknows fun _ x _ _ hx => hk.knows hx
  · apply hm.entries h
    rw [hk.map]
    exact fun r k hrk => .inl ⟨hrk, fun _ hr => hnext.registered r hr⟩
  · rw [hk.map, hlog]
    exact fun r k hrk => mem_append_left _ (h.logged r k hrk)
  · rw [hlog]
    exact fun r k hrk => hissued r k (h.registered r k ((mem_append.mp hrk).resolve_right (hregistered r k)))
  · rw [hlog, hk.error, hk.map]
    intro hmem
    obtain ⟨hne, hall⟩ := h.swept ((mem_append.mp hmem).resolve_right hswept)
    exact ⟨hne, fun e he => hk.done e.2 (hall e he)⟩

/-- A step that writes nothing but its own position and the mutexes. -/
theorem ChannelInv.pass (h : ChannelInv s) (hm : Moves s t pc pc' s')
    (hdata : s' = { s with threads := s'.threads, owner := s'.owner })
    (hnext : pc.Follows pc') (hfin : pc.finishing t = none) (hfin' : pc'.finishing t = none)
    (hknows : pc'.Knows s) : ChannelInv s' := by
  have hk : Keeps s s' := by
    rw [hdata]
    exact ⟨rfl, rfl, rfl, fun _ hk => hk, [], (append_nil _).symm, by simp, by simp⟩
  refine h.keeps hm hk hnext (hk.knows hknows) ⟨?_, ?_, ?_, ?_, ?_, ?_⟩
  · apply hm.finishing h
    · simp [hfin']
    · rw [hdata]
      exact fun _ _ _ _ _ _ hk => hk
  · apply hm.writing h
    · rw [hdata]
      exact fun _ _ _ _ hw => .inl hw
    · rw [hdata]
      exact fun _ hk => hk
    · simp [hfin]
  · apply hm.begun h hnext.fresh
    rw [hdata]
    exact fun _ hk => .inl hk
  · rw [hdata]
    exact h.done
  · rw [hdata]
    exact h.outcome
  · rw [hdata]
    exact h.history

/-! Writes to a request. -/

@[simp] theorem done_write (s : ChannelState) (t k : Nat) (p : Party) (o : Outcome) (k' : Nat) :
    (s.write t k p o).done k' = s.done k' := by
  by_cases heq : k' = k
  · simp [write, done, heq]
  · simp [write, note, done, heq]

theorem outcome_write (s : ChannelState) (t k : Nat) (p : Party) (o : Outcome) (k' : Nat) :
    (s.write t k p o).outcome k' = if k = k' then o else s.outcome k' := by
  by_cases heq : k = k'
  · simp [write, outcome, heq]
  · simp [write, note, outcome, Function.update_of_ne (Ne.symm heq), heq]

theorem done_finish (s : ChannelState) (t k k' : Nat) : (s.finish t k).done k' = true ↔ k' = k ∨ s.done k' := by
  by_cases heq : k' = k
  · simp [finish, done, heq]
  · simp [finish, note, done, heq]

@[simp] theorem outcome_finish (s : ChannelState) (t k k' : Nat) : (s.finish t k).outcome k' = s.outcome k' := by
  by_cases heq : k' = k
  · simp [finish, outcome, heq]
  · simp [finish, note, outcome, heq]

theorem lastOutcome_concat (log : List Event) (e : Event) (k : Nat) :
    lastOutcome (log ++ [e]) k = match e with
      | .wrote k' _ _ o => if k' = k then o else lastOutcome log k
      | _ => lastOutcome log k := by
  rw [lastOutcome, foldl_append, foldl_cons, foldl_nil]
  rfl

theorem ChannelInv.not_finished (h : ChannelInv s) (hk : s.done k = false) (t : Nat) : .finished k t ∉ s.log := by
  intro hmem
  rw [(h.done k).mpr ⟨t, hmem⟩] at hk
  cases hk

/-- A thread writes the outcome of a request that is not done. -/
theorem ChannelInv.write (h : ChannelInv s) {p : Party} {o : Outcome} (hm : Moves s t pc pc' s')
    (hdata : s' = { s.write t k p o with threads := s'.threads, owner := s'.owner })
    (hk : s.done k = false) (hp : ∀ r, p = .response r → (r, k) ∈ s.pendingMap)
    (hnext : pc.Follows pc') (hfin : pc.finishing t = none) (hfin' : pc'.finishing t = some k)
    (hknows : pc'.Knows s) : ChannelInv s' := by
  have hdone : ∀ k', s'.done k' = s.done k' := by
    intro k'
    rw [hdata]
    exact done_write s t k p o k'
  have hlog : s'.log = s.log ++ [.wrote k t p o] := by rw [hdata]; rfl
  have hkeeps : Keeps s s' := by
    refine ⟨?_, ?_, ?_, by simp [hdone], _, hlog, by simp, by simp⟩ <;> rw [hdata] <;> rfl
  refine h.keeps hm hkeeps hnext (hkeeps.knows hknows) ⟨?_, ?_, ?_, ?_, ?_, ?_⟩
  · apply hm.finishing h
    · intro k' hk'
      rw [hfin'] at hk'
      rw [hdone, ← some.inj hk', hk]
    · simp [hdone]
  · apply hm.writing h
    · rw [hlog]
      intro k' t' p' o' hw
      rcases mem_append.mp hw with hw | hw
      · exact .inl hw
      · cases mem_singleton.mp hw
        exact .inr ⟨rfl, hfin'⟩
    · simp [hdone]
    · simp [hfin]
  · apply hm.begun h hnext.fresh
    simp only [hdone]
    exact fun _ hk => .inl hk
  · intro k'
    rw [hdone, hlog, h.done k']
    simp
  · intro k'
    rw [hlog, lastOutcome_concat, hdata]
    exact (outcome_write s t k p o k').trans (by rw [h.outcome k'])
  · rw [hlog]
    refine h.history.concat ⟨h.not_finished hk, fun r hr => h.logged r k (hp r hr)⟩

/-- The request a thread is about to finish is its own or one of `pending_map_`. -/
theorem Pc.finishing_known (hfin : pc.finishing t = some k) (hknows : pc.Knows s) :
    k = t ∧ pc.fresh = false ∨ ∃ r, (r, k) ∈ s.pendingMap := by
  cases pc <;> cases hfin
  · exact .inl ⟨rfl, rfl⟩
  · exact .inl ⟨rfl, rfl⟩
  · exact .inr ⟨_, hknows⟩
  · exact .inr (Sweeping.entry hknows _ mem_cons_self)

theorem Pc.fresh_of_registered (h : pc.registered = some r) : pc.fresh = false := by
  cases pc <;> first | rfl | cases h

theorem Moves.finished_begun (hm : Moves s t pc pc' s') (h : ChannelInv s) (hnext : pc.Follows pc')
    (hfin : pc.finishing t = some k) : ∃ x : Pc, s'.threads[k]? = some x ∧ x.fresh = false := by
  rcases Pc.finishing_known hfin (h.knows t pc hm.from_pc) with ⟨rfl, hfresh⟩ | ⟨r, hr⟩
  · refine ⟨pc', hm.to_pc, ?_⟩
    rw [← Bool.not_eq_true] at hfresh ⊢
    exact mt hnext.fresh hfresh
  · obtain ⟨x, hx, hxr⟩ := h.entries r k hr
    by_cases heq : k = t
    · subst heq
      rw [hm.from_pc] at hx
      rw [← some.inj hx] at hxr
      exact ⟨pc', hm.to_pc, Pc.fresh_of_registered (hnext.registered r hxr)⟩
    · exact ⟨x, hm.other heq hx, Pc.fresh_of_registered hxr⟩

/-- A thread sets `done` of the request whose outcome it has written. -/
theorem ChannelInv.finish (h : ChannelInv s) (hm : Moves s t pc pc' s')
    (hdata : s' = { s.finish t k with threads := s'.threads, owner := s'.owner })
    (hnext : pc.Follows pc') (hfin : pc.finishing t = some k) (hfin' : pc'.finishing t = none)
    (hknows : pc'.Knows s') : ChannelInv s' := by
  have hdone : ∀ k', s'.done k' = true ↔ k' = k ∨ s.done k' = true := by
    intro k'
    rw [hdata]
    exact done_finish s t k k'
  have hopen : ∀ k', s'.done k' = false → k' ≠ k ∧ s.done k' = false := by
    intro k' hk'
    have := (hdone k').not
    rw [hk'] at this
    simpa [not_or] using this
  have hk := h.finishing t pc k hm.from_pc hfin
  have hlog : s'.log = s.log ++ [.finished k t] := by rw [hdata]; rfl
  have hkeeps : Keeps s s' := by
    refine ⟨?_, ?_, ?_, fun k' hk' => (hdone k').mpr (.inr hk'), _, hlog, by simp, by simp⟩ <;> rw [hdata] <;> rfl
  refine h.keeps hm hkeeps hnext hknows ⟨?_, ?_, ?_, ?_, ?_, ?_⟩
  · apply hm.finishing h
    · simp [hfin']
    · intro t' x k' hne hx hk' hold
      rw [← Bool.not_eq_true, hdone, not_or, Bool.not_eq_true]
      refine ⟨fun heq => hne ?_, hold⟩
      exact h.finisher_unique hx hm.from_pc (heq ▸ hk') hfin
  · apply hm.writing h
    · rw [hlog]
      intro k' t' p o hw
      exact .inl (by simpa using hw)
    · exact fun k' hk' => (hopen k' hk').2
    · intro k' hk' hmine
      rw [hfin] at hmine
      exact absurd (some.inj hmine).symm (hopen k' hk').1
  · apply hm.begun h hnext.fresh
    intro k' hk'
    rcases (hdone k').mp hk' with rfl | hk'
    · exact .inr (hm.finished_begun h hnext hfin)
    · exact .inl hk'
  · intro k'
    rw [hdone, hlog, h.done k']
    simp only [mem_append, mem_singleton, Event.finished.injEq]
    constructor
    · rintro (rfl | ⟨t', ht'⟩)
      · exact ⟨t, .inr ⟨rfl, rfl⟩⟩
      · exact ⟨t', .inl ht'⟩
    · rintro ⟨t', ht' | ⟨heq, _⟩⟩
      · exact .inr ⟨t', ht'⟩
      · exact .inl heq
  · intro k'
    rw [hlog, lastOutcome_concat, hdata]
    exact (outcome_finish s t k k').trans (h.outcome k')
  · rw [hlog]
    refine h.history.concat ⟨h.not_finished hk, fun t' p o hw => ?_⟩
    obtain ⟨x, hx, hxk⟩ := h.writing k t' p o hw hk
    exact h.finisher_unique hx hm.from_pc hxk hfin

/-- An entry of the log that is not about a request's fields. -/
theorem ChannelInv.note (h : ChannelInv s) {e : Event} (hallowed : allowed s.log e)
    (hwrote : ∀ k t p o, e ≠ .wrote k t p o) (hfinished : ∀ k t, e ≠ .finished k t)
    (hregistered : ∀ r k, e = .registered r k → s.Issued r k)
    (hswept : e = .swept ∨ .swept ∈ s.log → s.connectionError ≠ 0 ∧ ∀ e ∈ s.pendingMap, s.done e.2) :
    ChannelInv (s.note e) where
  locks := h.locks
  issued := h.issued
  knows := by
    intro t pc ht
    exact (h.knows t pc ht).mono rfl id fun _ hk => hk
  finishing := h.finishing
  entries := h.entries
  logged := fun r k hrk => mem_append_left _ (h.logged r k hrk)
  registered := by
    intro r k hrk
    rcases mem_append.mp hrk with hrk | hrk
    · exact h.registered r k hrk
    · exact hregistered r k (mem_singleton.mp hrk).symm
  writing := by
    intro k t p o hw hk
    rcases mem_append.mp hw with hw | hw
    · exact h.writing k t p o hw hk
    · exact absurd (mem_singleton.mp hw).symm (hwrote k t p o)
  begun := h.begun
  done := by
    intro k
    refine (h.done k).trans ⟨fun ⟨t, ht⟩ => ⟨t, mem_append_left _ ht⟩, fun ⟨t, ht⟩ => ?_⟩
    rcases mem_append.mp ht with ht | ht
    · exact ⟨t, ht⟩
    · exact absurd (mem_singleton.mp ht).symm (hfinished k t)
  outcome := by
    intro k
    refine (h.outcome k).trans ?_
    rw [ChannelState.note, lastOutcome_concat]
    cases e with
    | wrote k' t p o => exact absurd rfl (hwrote k' t p o)
    | _ => rfl
  swept := by
    intro hmem
    rcases mem_append.mp hmem with hmem | hmem
    · exact hswept (.inr hmem)
    · exact hswept (.inl (mem_singleton.mp hmem).symm)
  history := h.history.concat hallowed

/-- `pending_map_` and `connection_error_` change, in the hands of who has `pending_mutex_`. -/
theorem ChannelInv.remap (h : ChannelInv s) (hm : Moves s t pc pc' s') (hpending : pc.holds t .pending)
    (hdata : s' = { s with
      threads := s'.threads, owner := s'.owner, pendingMap := s'.pendingMap, connectionError := s'.connectionError })
    (hrpc : ∀ r, pc'.rpcId = some r → pc.rpcId = some r) (hfresh : pc'.fresh = true → pc.fresh = true)
    (hfin : pc.finishing t = none) (hfin' : pc'.finishing t = none) (hknows : pc'.Knows s')
    (hmap : ∀ r k, (r, k) ∈ s'.pendingMap →
      (r, k) ∈ s.pendingMap ∧ (k = t → pc.registered = some r → pc'.registered = some r) ∨
        k = t ∧ pc'.registered = some r) (hlogged : ∀ r k, (r, k) ∈ s'.pendingMap → .registered r k ∈ s.log)
    (hswept : .swept ∈ s.log → s'.connectionError ≠ 0 ∧ ∀ e ∈ s'.pendingMap, s.done e.2 = true) : ChannelInv s' := by
  have hlog : s'.log = s.log := by rw [hdata]
  have hdone : ∀ k, s'.done k = s.done k := by
    rw [hdata]
    exact fun _ => rfl
  have hissued : ∀ r k, s.Issued r k → s'.Issued r k := by
    rw [hdata]
    exact fun r k hrk => hrk
  refine ⟨⟨?_, ?_, ?_, ?_, ?_, ?_⟩, hm.locks h, ?_, hm.knows_alone h hpending hknows, hm.entries h hmap, ?_, ?_, ?_⟩
  · apply hm.finishing h
    · simp [hfin']
    · simp [hdone]
  · apply hm.writing h
    · rw [hlog]
      exact fun _ _ _ _ hw => .inl hw
    · simp [hdone]
    · simp [hfin]
  · apply hm.begun h hfresh
    simp only [hdone]
    exact fun _ hk => .inl hk
  · rw [hlog]
    simp only [hdone]
    exact h.done
  · intro k
    rw [hlog, hdata]
    exact h.outcome k
  · rw [hlog]
    exact h.history
  · exact hm.issued h hissued fun r hr => hissued r t (h.issued t pc r hm.from_pc (hrpc r hr))
  · rw [hlog]
    exact hlogged
  · rw [hlog]
    exact fun r k hrk => hissued r k (h.registered r k hrk)
  · rw [hlog]
    simp only [hdone]
    exact hswept

/-- A call takes its `rpc_id`. -/
theorem ChannelInv.fetch (h : ChannelInv s) {large : Bool} (ht : s.threads[t]? = some (.fetchRpcId large)) :
    ChannelInv ({ s with issued := s.issued ++ [t] }.goto t (.lockRegister large s.rpcId)) := by
  have hm : Moves s t (.fetchRpcId large) (.lockRegister large s.rpcId)
      ({ s with issued := s.issued ++ [t] }.goto t (.lockRegister large s.rpcId)) :=
    ⟨ht, rfl, fun _ hl => hl.elim, fun _ _ _ hown => hown⟩
  have hissued : ∀ r k, s.Issued r k →
      ({ s with issued := s.issued ++ [t] }.goto t (.lockRegister large s.rpcId)).Issued r k := by
    rintro r k ⟨n, hn, hr⟩
    exact ⟨n, Locks.get_old hn, hr⟩
  refine ⟨⟨?_, ?_, ?_, h.done, h.outcome, h.history⟩, hm.locks h, ?_, ?_, ?_, h.logged, ?_, h.swept⟩
  · exact hm.finishing h (by simp [Pc.finishing]) fun _ _ _ _ _ _ hk => hk
  · exact hm.writing h (fun _ _ _ _ hw => .inl hw) (fun _ hk => hk) (by simp [Pc.finishing])
  · exact hm.begun h id fun _ hk => .inl hk
  · refine hm.issued h hissued fun r hr => ⟨s.issued.length, ?_, ?_⟩
    · exact getElem?_concat_length
    · rw [← some.inj hr, rpcId]
  · exact hm.knows h trivial fun _ x _ _ hx => hx.mono rfl id fun _ hk => hk
  · exact hm.entries h fun r k hrk => .inl ⟨hrk, by simp [Pc.registered]⟩
  · exact fun r k hrk => hissued r k (h.registered r k hrk)

/-- A thread starts that has and knows nothing. -/
theorem ChannelInv.spawn (h : ChannelInv s) (hholds : ∀ t l, ¬ pc.holds t l) (hrpc : pc.rpcId = none)
    (hfin : ∀ t, pc.finishing t = none) (hknows : pc.Knows s) : ChannelInv (s.spawn pc) where
  locks := h.locks.spawn hholds
  issued := by
    intro t x r hx hr
    rcases Locks.get_concat hx with hx | rfl
    · exact h.issued t x r hx hr
    · rw [hrpc] at hr
      cases hr
  knows := by
    intro t x hx
    rcases Locks.get_concat hx with hx | rfl
    · exact (h.knows t x hx).mono rfl id fun _ hk => hk
    · exact hknows.mono rfl id fun _ hk => hk
  finishing := by
    intro t x k hx hk
    rcases Locks.get_concat hx with hx | rfl
    · exact h.finishing t x k hx hk
    · rw [hfin] at hk
      cases hk
  entries := by
    intro r k hrk
    obtain ⟨x, hx, hxr⟩ := h.entries r k hrk
    exact ⟨x, Locks.get_old hx, hxr⟩
  logged := h.logged
  registered := h.registered
  writing := by
    intro k t p o hw hk
    obtain ⟨x, hx, hxk⟩ := h.writing k t p o hw hk
    exact ⟨x, Locks.get_old hx, hxk⟩
  begun := by
    intro k hk
    obtain ⟨x, hx, hxk⟩ := h.begun k hk
    exact ⟨x, Locks.get_old hx, hxk⟩
  done := h.done
  outcome := h.outcome
  swept := h.swept
  history := h.history

/-! The steps. -/

attribute [simp] Pc.holds Pc.rpcId Pc.registered Pc.finishing Pc.fresh Pc.Knows

/-- `s'` has the mutexes of `s` up to some that the thread had and has no more. -/
def Released (s : ChannelState) (t : Nat) (pc pc' : Pc) (s' : ChannelState) : Prop :=
  ∀ l, s'.owner l = s.owner l ∨ pc.holds t l ∧ ¬ pc'.holds t l

theorem Released.same (howner : s'.owner = s.owner) : Released s t pc pc' s' := by
  intro l
  rw [howner]
  exact .inl rfl

theorem Released.unlock (h : Released s t pc pc' s') (hl : pc.holds t l) (hl' : ¬ pc'.holds t l) :
    Released s t pc pc' (s'.unlock l) := by
  intro l'
  by_cases heq : l' = l
  · rw [heq]
    exact .inr ⟨hl, hl'⟩
  · have hsame : (s'.unlock l).owner l' = s'.owner l' := Function.update_of_ne heq _ _
    rw [hsame]
    exact h l'

section

variable (h : ChannelInv s) (ht : s.threads[t]? = some pc)

include h ht

theorem ChannelInv.moves {s₁ : ChannelState} (hthreads : s₁.threads = s.threads) (hrel : Released s t pc pc' s₁)
    (hholds : ∀ l, pc'.holds t l → pc.holds t l) : Moves s t pc pc' (s₁.goto t pc') where
  from_pc := ht
  threads := by rw [goto, hthreads]
  mine := by
    intro l hl
    rcases hrel l with hsame | ⟨_, hgone⟩
    · exact hsame.trans (h.locks t pc ht l (hholds l hl))
    · exact absurd hl hgone
  others := by
    intro l t' hne hown
    rcases hrel l with hsame | ⟨hmine, _⟩
    · exact hsame.trans hown
    · have := h.locks t pc ht l hmine
      rw [hown] at this
      exact absurd (some.inj this) hne

theorem ChannelInv.moves_lock (hn : s.lock t l pc' = some s') (hholds : ∀ l', pc'.holds t l' → l' = l ∨ pc.holds t l') :
    Moves s t pc pc' s' ∧ s' = { s with threads := s'.threads, owner := s'.owner } := by
  obtain ⟨hfree, rfl⟩ := ite_some_none_eq_some.mp hn
  refine ⟨⟨ht, rfl, fun l' hl' => ?_, fun l' t' hne hown => Locks.acquire_others hfree l' hne hown⟩, rfl⟩
  by_cases heq : l' = l
  · simp [goto, heq]
  · simp only [goto, Function.update_of_ne heq]
    exact h.locks t pc ht l' ((hholds l' hl').resolve_left heq)

/-- A step that takes a mutex. -/
theorem ChannelInv.lock (hn : s.lock t l pc' = some s') (hholds : ∀ l', pc'.holds t l' → l' = l ∨ pc.holds t l')
    (hnext : pc.Follows pc') (hfin : pc.finishing t = none) (hfin' : pc'.finishing t = none) (hknows : pc'.Knows s) :
    ChannelInv s' := by
  obtain ⟨hm, hdata⟩ := h.moves_lock ht hn hholds
  exact h.pass hm hdata hnext hfin hfin' hknows

/-- A step that writes nothing, and may give mutexes back. -/
theorem ChannelInv.goto {s₁ : ChannelState} (hdata : s₁ = { s with owner := s₁.owner }) (hrel : Released s t pc pc' s₁)
    (hholds : ∀ l, pc'.holds t l → pc.holds t l) (hnext : pc.Follows pc') (hfin : pc.finishing t = none)
    (hfin' : pc'.finishing t = none) (hknows : pc'.Knows s) : ChannelInv (s₁.goto t pc') := by
  refine h.pass (h.moves ht (by rw [hdata]) hrel hholds) ?_ hnext hfin hfin' hknows
  rw [hdata]
  rfl

end

theorem ChannelInv.register (h : ChannelInv s) {large : Bool} (ht : s.threads[t]? = some (.register large r))
    (herror : s.connectionError = 0) (hnext : pc.registered = some r) (hholds : ∀ l, ¬ pc.holds t l)
    (hrpc : pc.rpcId = some r) (hfin : pc.finishing t = none) (hknows : ∀ s, pc.Knows s) :
    ChannelInv (((s.insert r t).unlock .pending).goto t pc) := by
  have hswept : .swept ∉ s.log := fun hmem => (h.swept hmem).1 herror
  have hnote : ChannelInv (s.note (.registered r t)) := by
    apply h.note (e := .registered r t) hswept
    · simp
    · simp
    · intro r' k heq
      cases heq
      exact h.issued t _ r ht rfl
    · simp [hswept]
  have hm : Moves (s.note (.registered r t)) t (.register large r) pc
      (((s.insert r t).unlock .pending).goto t pc) :=
    hnote.moves ht rfl (Released.unlock (.same rfl) rfl (hholds _)) fun l hl => absurd hl (hholds l)
  refine hnote.remap hm rfl rfl ?_ ?_ rfl hfin (hknows _) ?_ ?_ ?_
  · intro r' hr'
    exact hrpc.symm.trans hr'
  · intro hfresh
    rfl
  · intro r' k hrk
    rcases mem_cons.mp hrk with heq | hrk
    · cases heq
      exact .inr ⟨rfl, hnext⟩
    · exact .inl ⟨(mem_filter.mp hrk).1, by simp⟩
  · intro r' k hrk
    rcases mem_cons.mp hrk with heq | hrk
    · cases heq
      exact mem_append_right _ (mem_singleton.mpr rfl)
    · exact hnote.logged r' k (mem_filter.mp hrk).1
  · intro hmem
    exact absurd (by simpa [ChannelState.note] using hmem) hswept

theorem ChannelState.lookup_some (h : s.lookup r = some k) : (r, k) ∈ s.pendingMap := by
  obtain ⟨e, he, rfl⟩ := map_eq_some_iff.mp h
  have hr : e.1 = r := by simpa using find?_some he
  rw [← hr]
  exact mem_of_find?_eq_some he

/-- The next request of the sweep is done. -/
theorem Sweeping.tail {rest : List Nat} (h : Sweeping s (k :: rest)) (hmap : s'.pendingMap = s.pendingMap)
    (herror : s'.connectionError = s.connectionError) (hdone : ∀ k', s'.done k' = true ↔ k' = k ∨ s.done k') :
    Sweeping s' rest := by
  refine ⟨?_, ?_, ?_⟩
  · rw [herror]
    exact h.error
  · rw [hmap]
    exact fun k' hk' => h.entry k' (mem_cons_of_mem _ hk')
  · rw [hmap]
    intro e he hnot
    rw [hdone]
    by_cases heq : e.2 = k
    · exact .inl heq
    · exact .inr (h.done e he (by simp [heq, hnot]))

/-- A call that has not tried to register is not done. -/
theorem ChannelInv.not_done (h : ChannelInv s) (ht : s.threads[t]? = some pc) (hfresh : pc.fresh) :
    s.done t = false := by
  rw [← Bool.not_eq_true]
  intro hdone
  obtain ⟨x, hx, hxt⟩ := h.begun t hdone
  rw [ht] at hx
  rw [← some.inj hx, hfresh] at hxt
  cases hxt

theorem ChannelInv.step (h : ChannelInv s) {ok : Bool} (ht : s.threads[t]? = some pc) (hn : s.step t ok pc = some s') :
    ChannelInv s' := by
  have hknows := h.knows t pc ht
  revert ht hn hknows
  fun_cases ChannelState.step s t ok pc <;> intro ht hn hknows <;> try cases hn
  case case1 | case2 | case8 | case9 | case10 | case11 | case17 =>
    exact h.goto ht rfl (.same rfl) (by simp) (by simp) rfl rfl trivial
  case case3 => exact h.fetch ht
  case case5 large r herror =>
    have hm : Moves s t (.register large r) (.reject r)
        ((s.write t t .caller { s.outcome t with transportError := s.connectionError }).goto t (.reject r)) :=
      h.moves ht rfl (.same rfl) (by simp)
    have hw := h.write hm rfl (h.not_done ht rfl) (by simp) (by simp) rfl rfl trivial
    exact hw.note (e := .rejected t s.connectionError) herror (by simp) (by simp) (by simp) (by simpa using hw.swept)
  case case6 large r herror =>
    cases large <;> exact h.register ht (not_not.mp herror) rfl (by simp) rfl rfl fun _ => trivial
  case case7 | case16 =>
    exact h.finish (h.moves ht rfl (.unlock (.same rfl) rfl (by simp)) (by simp)) rfl (by simp) rfl rfl trivial
  case case13 | case15 | case22 =>
    exact h.goto ht rfl (.unlock (.same rfl) rfl (by simp)) (by simp) (by simp) rfl rfl trivial
  case case14 r hdone _ =>
    exact h.write (h.moves ht rfl (.same rfl) (by simp)) rfl (by simpa using hdone) (by simp) (by simp) rfl rfl trivial
  case case19 r rep =>
    refine h.remap (h.moves ht rfl (.unlock (.same rfl) rfl (by simp)) (by simp)) rfl rfl (by simp) (by simp) rfl rfl
      trivial ?_ ?_ ?_
    · intro r' k hrk
      obtain ⟨hrk, hne⟩ := mem_filter.mp hrk
      refine .inl ⟨hrk, fun _ heq => ?_⟩
      cases heq
      simp at hne
    · exact fun r' k hrk => h.logged r' k (mem_filter.mp hrk).1
    · exact fun hswept => ⟨(h.swept hswept).1, fun e he => (h.swept hswept).2 e (mem_filter.mp he).1⟩
  case case23 f k hk => exact h.goto ht rfl (.same rfl) (by simp) (by simp) rfl rfl (lookup_some hk)
  case case25 =>
    exact h.goto ht rfl (.unlock (.unlock (.same rfl) (by simp) (by simp)) (by simp) (by simp)) (by simp)
      (by simp) rfl rfl trivial
  case case26 f k hdone =>
    refine h.write (h.moves ht rfl (.same rfl) (by simp)) rfl (by simpa using hdone) ?_ (by simp) rfl rfl hknows
    intro r hr
    cases hr
    exact hknows
  case case27 f k =>
    have hm : Moves s t (.respondDone f k) .ended
        ((((s.finish t k).unlock (.request k)).unlock .pending).goto t .ended) :=
      h.moves ht rfl (.unlock (.unlock (.same rfl) (by simp) (by simp)) (by simp) (by simp)) (by simp)
    exact h.finish hm rfl (by simp) rfl rfl trivial
  case case29 error =>
    have herror : (if s.connectionError = 0 then error else s.connectionError) ≠ 0 := by
      split
      · exact hknows
      · assumption
    refine h.remap (h.moves ht rfl (.same rfl) (by simp)) rfl rfl (by simp) (by simp) rfl rfl ⟨herror, ?_, ?_⟩ ?_ ?_ ?_
    · intro k hk
      obtain ⟨e, he, rfl⟩ := mem_map.mp hk
      exact ⟨e.1, he⟩
    · exact fun e he hnot => absurd (mem_map_of_mem he) hnot
    · exact fun r k hrk => .inl ⟨hrk, by simp⟩
    · exact h.logged
    · exact fun hswept => ⟨herror, (h.swept hswept).2⟩
  case case30 =>
    have hall := And.intro hknows.error fun e he => hknows.done e he not_mem_nil
    have hnote := h.note (e := .swept) trivial (by simp) (by simp) (by simp) fun _ => hall
    exact hnote.goto ht rfl (.unlock (.same rfl) rfl (by simp)) (by simp) (by simp) rfl rfl trivial
  case case32 k rest hdone =>
    refine h.goto ht rfl (.unlock (.same rfl) (.inr rfl) (by simp)) (by simp) (by simp) rfl rfl ?_
    exact hknows.tail rfl rfl fun k' => ⟨.inr, fun hk' => hk'.elim (fun heq => heq ▸ hdone) id⟩
  case case33 k rest hdone =>
    exact h.write (h.moves ht rfl (.same rfl) (by simp)) rfl (by simpa using hdone) (by simp) (by simp) rfl rfl hknows
  case case34 k rest =>
    refine h.finish (h.moves ht rfl (.unlock (.same rfl) (.inr rfl) (by simp)) (by simp)) rfl (by simp) rfl rfl ?_
    exact hknows.tail rfl rfl (done_finish s t k)
  -- the acquisitions of a mutex
  all_goals first
    | exact h.lock ht hn (by simp) (by simp) rfl rfl trivial
    | exact h.lock ht hn (by simp [or_comm]) (by simp) rfl rfl hknows

theorem ChannelInv.next (h : ChannelInv s) {a : ChannelAct} (hn : s.next a = some s') : ChannelInv s' := by
  cases a with
  | callMethod large | onProcessResponse f =>
    cases hn
    exact h.spawn (by simp) rfl (fun _ => rfl) trivial
  | onEndpointFailed error =>
    cases hn
    refine h.spawn (by simp) rfl (fun _ => rfl) ?_
    show (if error = 0 then EIO else error) ≠ 0
    split
    · decide
    · assumption
  | step t ok =>
    obtain ⟨pc, ht, hstep⟩ := bind_eq_some_iff.mp hn
    exact h.step ht hstep

theorem ChannelInv.created : ChannelInv .created := by
  refine ⟨⟨?_, ?_, ?_, ?_, ?_, ?_⟩, ?_, ?_, ?_, ?_, ?_, ?_, ?_⟩ <;>
    simp [ChannelState.created, Locks.Disciplined, ChannelState.done, ChannelState.outcome, lastOutcome,
    Along.nil]

theorem channelInv_of_reachable (h : channelMachine.Reachable s) : ChannelInv s := by
  refine h.invariant (I := ChannelInv) ?_ fun s a s' hinv hn => hinv.next hn
  rintro s rfl
  exact .created

/-- As long as `rpc_id_` has not come round, an `rpc_id` names one call. -/
theorem ChannelState.Issued.unique (h : s.Issued r k) (h' : s.Issued r t) (hcalls : s.issued.length < 2 ^ 32) :
    k = t := by
  obtain ⟨n, hn, hr⟩ := h
  obtain ⟨m, hm, hr'⟩ := h'
  have hlt : n < s.issued.length := (List.getElem?_eq_some_iff.mp hn).1
  have hlt' : m < s.issued.length := (List.getElem?_eq_some_iff.mp hm).1
  have heq : n = m := by omega
  rw [heq, hm] at hn
  exact (some.inj hn).symm

theorem ChannelState.lock_requests (h : s.lock t l pc = some s') : s'.requests = s.requests := by
  simp only [lock, ite_none_right_eq_some, some.injEq] at h
  rw [← h.2]
  rfl

/-- A request that is done stays as it is. -/
theorem ChannelInv.frozen (h : ChannelInv s) {a : ChannelAct} (hdone : s.done k) (hn : s.next a = some s') :
    s'.requests k = s.requests k := by
  have hother : ∀ k', s.done k' = false → k ≠ k' := by
    rintro k' hk' rfl
    rw [hdone] at hk'
    cases hk'
  cases a with
  | callMethod | onProcessResponse | onEndpointFailed =>
    cases hn
    rfl
  | step t ok =>
    obtain ⟨pc, ht, hstep⟩ := bind_eq_some_iff.mp hn
    -- whoever writes to a request finds it open
    have hfinish : ∀ {k'}, pc.finishing t = some k' → k ≠ k' := fun hfin => hother _ (h.finishing t pc _ ht hfin)
    have hwrite : ∀ {k'}, ¬ s.done k' = true → k ≠ k' := fun hopen => hother _ (by simpa using hopen)
    revert ht hfinish hstep
    fun_cases ChannelState.step s t ok pc <;> intro ht hstep hfinish
    all_goals first
      | exact congrFun (ChannelState.lock_requests hstep) k
      | (cases hstep; done)
      | (cases hstep; rfl)
      | (cases hstep; exact Function.update_of_ne (hfinish rfl) _ _)
      | (cases hstep; exact Function.update_of_ne (hwrite (by assumption)) _ _)
      | (cases hstep; exact Function.update_of_ne (hother _ (h.not_done ht rfl)) _ _)

/-- The calls of a channel are settled once each. -/
structure ChannelState.Settled (s : ChannelState) : Prop where
  /-- `done` is set by one step at most, and no outcome is written later or by anybody else. -/
  done : ∀ k, s.done k = true ↔ ∃ t, .finished k t ∈ s.log
  outcome : ∀ k, s.outcome k = lastOutcome s.log k
  history : Along allowed s.log
  /-- Whoever has written an outcome sets `done` next. -/
  writing : ∀ k t p o, .wrote k t p o ∈ s.log → s.done k = false →
    ∃ pc : Pc, s.threads[t]? = some pc ∧ pc.finishing t = some k
  frozen : ∀ k a s', s.done k = true → s.next a = some s' → s'.requests k = s.requests k
  response : ∀ k t r o, .wrote k t (.response r) o ∈ s.log → ∀ k', .registered r k' ∈ s.log ↔ k' = k
  swept : .swept ∈ s.log → ∀ e ∈ s.pendingMap, s.done e.2 = true
  rejects : .swept ∈ s.log → ∀ t ok large r, s.threads[t]? = some (.register large r) →
    ∃ s', s.next (.step t ok) = some s' ∧ s'.threads[t]? = some (.reject r) ∧ (s'.outcome t).transportError ≠ 0 ∧
      s'.pendingMap = s.pendingMap
  entries : ∀ e ∈ s.pendingMap, ∃ pc, s.threads[e.2]? = some pc ∧ ∀ rep, pc ≠ .returned rep

theorem ChannelInv.rejects (h : ChannelInv s) (hswept : .swept ∈ s.log) (ok large : Bool) (r : Nat)
    (ht : s.threads[t]? = some (.register large r)) :
    ∃ s', s.next (.step t ok) = some s' ∧ s'.threads[t]? = some (.reject r) ∧ (s'.outcome t).transportError ≠ 0 ∧
      s'.pendingMap = s.pendingMap := by
  have herror := (h.swept hswept).1
  have hstep : s.step t ok (.register large r) = some
      (((s.write t t .caller { s.outcome t with transportError := s.connectionError }).note
        (.rejected t s.connectionError)).goto t (.reject r)) := if_pos herror
  have hnext : s.next (.step t ok) = s.step t ok (.register large r) := by
    rw [ChannelState.next, ht, bind_some]
  refine ⟨_, hnext.trans hstep, ?_, ?_, rfl⟩
  · exact Locks.get_set ht
  · simpa [ChannelState.outcome, ChannelState.goto, ChannelState.note, ChannelState.write] using herror

theorem ChannelInv.response (h : ChannelInv s) (hcalls : s.issued.length < 2 ^ 32) {o : Outcome}
    (hw : .wrote k t (.response r) o ∈ s.log) (k' : Nat) : .registered r k' ∈ s.log ↔ k' = k := by
  obtain ⟨l₁, l₂, hlog⟩ := append_of_mem hw
  have hreg : .registered r k ∈ s.log := by
    rw [hlog]
    exact mem_append_left _ ((h.history l₁ _ l₂ hlog).2 r rfl)
  constructor
  · intro hreg'
    exact (h.registered r k' hreg').unique (h.registered r k hreg) hcalls
  · rintro rfl
    exact hreg

theorem calls_settled_once (h : channelMachine.Reachable s) (hcalls : s.issued.length < 2 ^ 32) : s.Settled where
  done := (channelInv_of_reachable h).done
  outcome := (channelInv_of_reachable h).outcome
  history := (channelInv_of_reachable h).history
  writing := (channelInv_of_reachable h).writing
  frozen := fun _ _ _ hdone hn => (channelInv_of_reachable h).frozen hdone hn
  response := fun _ _ _ _ hw k' => (channelInv_of_reachable h).response hcalls hw k'
  swept := fun hswept => ((channelInv_of_reachable h).swept hswept).2
  rejects := fun hswept _ ok large r ht => (channelInv_of_reachable h).rejects hswept ok large r ht
  entries := by
    intro e he
    obtain ⟨pc, hpc, hreg⟩ := (channelInv_of_reachable h).entries e.1 e.2 he
    refine ⟨pc, hpc, ?_⟩
    rintro rep rfl
    cases hreg

/-- A call that is answered, one that times out, one that is waiting when the connection
    fails, and one that registers afterwards; and the response comes twice. -/
def answeredFailed : List ChannelAct :=
  let go (t n : Nat) : List ChannelAct := List.replicate n (.step t true)
  let f : Response := ⟨1, ERR_SUCCESS, 1, [7, 8], true⟩
  List.flatten [
    [.callMethod false, .onProcessResponse f, .callMethod true, .callMethod false, .callMethod false,
      .onEndpointFailed 104, .onProcessResponse f],
    go 0 5, go 1 5, go 6 4, go 0 5,
    go 2 11,
    go 3 5, go 4 2, go 5 6, go 4 3]

theorem answeredFailed_settled : ∃ s, channelMachine.Reachable s ∧ s.Settled ∧
    s.outcome 0 = ⟨0, false, ERR_SUCCESS, some [7], [8]⟩ ∧ s.outcome 2 = ⟨0, true, ERR_SUCCESS, none, []⟩ ∧
    s.outcome 3 = ⟨104, false, ERR_SUCCESS, none, []⟩ ∧ s.outcome 4 = ⟨104, false, ERR_SUCCESS, none, []⟩ ∧
    s.pendingMap = [(3, 3)] ∧ .swept ∈ s.log ∧ ∀ k ∈ [0, 2, 3, 4], s.done k = true := by
  have hexec : ∃ s, channelMachine.Run answeredFailed s ∧ s.issued.length < 2 ^ 32 ∧
      s.outcome 0 = ⟨0, false, ERR_SUCCESS, some [7], [8]⟩ ∧ s.outcome 2 = ⟨0, true, ERR_SUCCESS, none, []⟩ ∧
      s.outcome 3 = ⟨104, false, ERR_SUCCESS, none, []⟩ ∧ s.outcome 4 = ⟨104, false, ERR_SUCCESS, none, []⟩ ∧
      s.pendingMap = [(3, 3)] ∧ .swept ∈ s.log ∧ ∀ k ∈ [0, 2, 3, 4], s.done k = true :=
    Machine.exists_run rfl (by decide +kernel)
  obtain ⟨s, hrun, hcalls, hs⟩ := hexec
  exact ⟨s, ⟨_, hrun⟩, calls_settled_once ⟨_, hrun⟩ hcalls, hs⟩

end

end LightRpc.Pending

import LightRpc.WriteSafety

/- What `errno` is when `StartWrite` returns -1 (`fast_rdma_endpoint.cc`).

   A failure becomes visible in two steps: `SetFailed` changes the version, which makes
   `Failed()` true, and `OnFailed` stores `_write_error` later. `Recorded` says how the two
   fields and the threads of the write queue relate: as long as the endpoint has failed and no
   error is stored, exactly one thread stands in between.

   `errnoMachine` follows one call of `StartWrite` among any other threads. The call takes the
   steps of the write queue, and the loads that only set `errno`: `errno = error()` after the
   first `Failed()`, and the last line of `FailWrite`. That last load is the one that can find
   no error yet. -/
namespace LightRpc

open Lib OwnedQueue Multiset Option

variable {s' : WriteState} {pc : Pc}

def ENOMEM : Nat := 12

/-! The record of a failure. -/

/-- Between the version change of `SetFailed` and the store of `OnFailed`. -/
def Pc.storing : Pc → Bool
  | .storeError .. => true
  | _ => false

/-- A thread in `SetFailed` has an error to record. -/
def Pc.Cause : Pc → Prop
  | .setFailed e _ => e ≠ 0
  | .storeError e _ => e ≠ 0
  | _ => True

/-- What a step does to the record. -/
inductive FailureStep (s : WriteState) : Pc → WriteState × List Pc → Prop where
  | aside {pc : Pc} {s' : WriteState} {next : List Pc} (hfailed : s'.failed = s.failed)
      (herror : s'.writeError = s.writeError) (hpc : pc.storing = false)
      (hnext : ∀ x ∈ next, x.storing = false ∧ x.Cause) : FailureStep s pc (s', next)
  | version {e : Nat} {after : Then} (hfailed : s.failed = false) :
      FailureStep s (.setFailed e after) ({ s with failed := true }, [.storeError e after])
  | record {e : Nat} {after : Then} :
      FailureStep s (.storeError e after) ({ s with writeError := e }, [.storeStop after])

namespace FailureStep

variable {s : WriteState} {pc' : Pc}

section

variable (hfailed : s'.failed = s.failed) (herror : s'.writeError = s.writeError) (hpc : pc.storing = false)

include hfailed herror hpc

theorem exit : FailureStep s pc (s', []) :=
  .aside hfailed herror hpc (List.forall_mem_nil _)

theorem goto (hstoring : pc'.storing = false) (hcause : pc'.Cause) : FailureStep s pc (s', [pc']) :=
  .aside hfailed herror hpc (List.forall_mem_singleton.mpr ⟨hstoring, hcause⟩)

theorem resume (after : Then) : FailureStep s pc (s', after.resume) := by
  cases after with
  | exit => exact .exit hfailed herror hpc
  | drain req | waited req curTail => exact .goto hfailed herror hpc rfl trivial

end

end FailureStep

theorem errnoOr_ne_zero (e : Nat) : (if e = 0 then EIO else e) ≠ 0 := by
  split
  next => decide
  next hne => exact hne

section
variable {s : WriteState} {choice : Choice} {r : WriteState × List Pc}

theorem startWriteStep_failure (h : startWriteStep s pc choice = some r) : FailureStep s pc r := by
  have hexchange : ∀ req head, (afterExchange req head).storing = false ∧ (afterExchange req head).Cause := by
    intro req head
    cases head <;> exact ⟨rfl, trivial⟩
  revert h
  fun_cases startWriteStep s pc choice <;> intro h <;> cases h <;>
    first
    | exact .exit rfl rfl rfl
    | exact .goto rfl rfl rfl rfl trivial
    | exact .goto rfl rfl rfl rfl (errnoOr_ne_zero _)
    | exact .goto rfl rfl rfl (hexchange _ _).1 (hexchange _ _).2

theorem setFailedStep_failure (h : setFailedStep s pc choice = some r) : FailureStep s pc r := by
  revert h
  fun_cases setFailedStep s pc choice <;> intro h <;> cases h
  case case1 => exact .resume rfl rfl rfl _
  case case2 hunfailed => exact .version (Bool.eq_false_iff.mpr hunfailed)
  case case3 => exact .record
  case case4 => exact .goto rfl rfl rfl rfl trivial
  case case5 => refine .resume ?_ ?_ ?_ _ <;> rfl

theorem keepWriteStep_failure (h : keepWriteStep s pc choice = some r) : FailureStep s pc r := by
  have hcomplete : ∀ req tail, (keepComplete req tail).storing = false ∧ (keepComplete req tail).Cause := by
    intro req tail
    cases tail <;> exact ⟨rfl, trivial⟩
  have hreleased : ∀ req tail wait,
      (keepReleased req tail wait).storing = false ∧ (keepReleased req tail wait).Cause := by
    intro req tail wait
    cases wait
    · exact hcomplete req tail
    · exact ⟨rfl, trivial⟩
  revert h
  fun_cases keepWriteStep s pc choice <;> intro h <;> cases h <;>
    first
    | exact .exit rfl rfl rfl
    | exact .goto rfl rfl rfl rfl trivial
    | exact .goto rfl rfl rfl rfl (errnoOr_ne_zero _)
    | exact .goto rfl rfl rfl (hcomplete _ _).1 (hcomplete _ _).2
    | exact .goto rfl rfl rfl (hreleased _ _ _).1 (hreleased _ _ _).2

theorem completeStep_failure (h : completeStep s pc choice = some r) : FailureStep s pc r := by
  have hincomplete : ∀ (c : Caller) newTail, (c.incomplete newTail).storing = false ∧ (c.incomplete newTail).Cause := by
    intro c newTail
    cases c <;> exact ⟨rfl, trivial⟩
  revert h
  fun_cases completeStep s pc choice <;> intro h <;> cases h <;>
    first
    | exact .exit rfl rfl rfl
    | exact .goto rfl rfl rfl rfl trivial
    | exact .goto rfl rfl rfl (hincomplete _ _).1 (hincomplete _ _).2
    | (split <;> exact .goto rfl rfl rfl rfl trivial)
    | (split
       · exact .goto rfl rfl rfl rfl trivial
       · exact .exit rfl rfl rfl)

theorem handshakeStep_failure (h : handshakeStep s pc choice = some r) : FailureStep s pc r := by
  revert h
  fun_cases handshakeStep s pc choice <;> intro h <;> cases h <;>
    first
    | exact .exit rfl rfl rfl
    | exact .goto rfl rfl rfl rfl trivial
    | exact .goto rfl rfl rfl rfl (show EIO ≠ 0 by decide)
    | exact .goto rfl rfl rfl rfl (errnoOr_ne_zero _)

theorem recycleStep_failure (h : recycleStep s pc choice = some r) : FailureStep s pc r := by
  revert h
  fun_cases recycleStep s pc choice <;> intro h <;> cases h <;>
    first
    | exact .exit rfl rfl rfl
    | exact .goto rfl rfl rfl rfl trivial

theorem step_failure (h : pc.step s choice = some r) : FailureStep s pc r := by
  unfold Pc.step at h
  split at h
  all_goals first
    | exact setFailedStep_failure h
    | exact keepWriteStep_failure h
    | exact completeStep_failure h
    | exact handshakeStep_failure h
    | exact recycleStep_failure h
    | exact startWriteStep_failure h

end

def storers (T : Multiset Pc) : Nat := T.countP fun pc => pc.storing = true

theorem storers_cons_of_storing (h : pc.storing) (T : Multiset Pc) : storers (pc ::ₘ T) = storers T + 1 :=
  countP_cons_of_pos _ h

theorem storers_cons (h : pc.storing = false) (T : Multiset Pc) : storers (pc ::ₘ T) = storers T :=
  countP_cons_of_neg _ (Bool.eq_false_iff.mp h)

/-- The endpoint has failed without an error exactly as long as one thread stands between the
    version change and the store. -/
structure Recorded (s : WriteState) (T : Multiset Pc) : Prop where
  cause : ∀ pc ∈ T, pc.Cause
  unfailed : s.failed = false → s.writeError = 0
  storing : storers T = if s.failed ∧ s.writeError = 0 then 1 else 0

namespace Recorded

variable {s : WriteState} {T : Multiset Pc} {r : WriteState × List Pc}

theorem error_of_storing (h : Recorded s T) (hpc : pc ∈ T) (hstoring : pc.storing) :
    s.failed ∧ s.writeError = 0 := by
  have hpos : 0 < storers T := countP_pos.mpr ⟨pc, hpc, hstoring⟩
  rw [h.storing] at hpos
  split at hpos
  next hboth => exact hboth
  next => omega

/-- Once no thread is storing, a failed endpoint has its error. -/
theorem error_ne_zero (h : Recorded s T) (hfailed : s.failed) (hnone : ∀ pc ∈ T, pc.storing = false) :
    s.writeError ≠ 0 := by
  intro hzero
  have hcount := h.storing
  rw [if_pos ⟨hfailed, hzero⟩] at hcount
  have hpos : 0 < storers T := by omega
  obtain ⟨pc, hpc, hstoring⟩ := countP_pos.mp hpos
  rw [hnone pc hpc] at hstoring
  cases hstoring

theorem error_zero (h : Recorded s T) (hpc : pc ∈ T) (hstoring : pc.storing) : s.writeError = 0 :=
  (h.error_of_storing hpc hstoring).2

theorem spawn (h : Recorded s T) (hstoring : pc.storing = false) (hcause : pc.Cause) : Recorded s (pc ::ₘ T) where
  cause := by
    intro x hx
    rcases mem_cons.mp hx with rfl | hx
    · exact hcause
    · exact h.cause x hx
  unfailed := h.unfailed
  storing := by
    rw [storers_cons hstoring]
    exact h.storing

theorem same (h : Recorded s T) (hfailed : s'.failed = s.failed) (herror : s'.writeError = s.writeError) :
    Recorded s' T where
  cause := h.cause
  unfailed := by
    rw [hfailed, herror]
    exact h.unfailed
  storing := by
    rw [hfailed, herror]
    exact h.storing

theorem exit (h : Recorded s (pc ::ₘ T)) (hstoring : pc.storing = false) : Recorded s T where
  cause := fun x hx => h.cause x (mem_cons_of_mem hx)
  unfailed := h.unfailed
  storing := by
    have hcount := h.storing
    rwa [storers_cons hstoring] at hcount

theorem append (h : Recorded s T) {next : List Pc} (hnext : ∀ x ∈ next, x.storing = false ∧ x.Cause) :
    Recorded s (↑next + T) := by
  induction next with
  | nil => simpa using h
  | cons x next ih =>
    have hx := hnext x List.mem_cons_self
    have hrest := ih fun y hy => hnext y (List.mem_cons_of_mem x hy)
    rw [← cons_coe, cons_add]
    exact hrest.spawn hx.1 hx.2

theorem step (h : Recorded s (pc ::ₘ T)) (hstep : FailureStep s pc r) : Recorded r.1 (↑r.2 + T) := by
  cases hstep with
  | aside hfailed herror hpc hnext => exact ((h.exit hpc).append hnext).same hfailed herror
  | @version e after hfailed =>
    have hzero := h.unfailed hfailed
    have hcause : e ≠ 0 := h.cause _ (mem_cons_self _ _)
    have hcount := (h.exit rfl).storing
    rw [if_neg (by simp [hfailed])] at hcount
    refine ⟨?_, fun _ => hzero, ?_⟩
    · intro x hx
      rcases mem_cons.mp hx with rfl | hx
      · exact hcause
      · exact h.cause x (mem_cons_of_mem hx)
    · rw [if_pos ⟨rfl, hzero⟩]
      exact (storers_cons_of_storing rfl T).trans (congrArg (· + 1) hcount)
  | @record e after =>
    have hboth := h.error_of_storing (mem_cons_self _ _) rfl
    have hcause : e ≠ 0 := h.cause _ (mem_cons_self _ _)
    have hcount := h.storing
    rw [storers_cons_of_storing rfl, if_pos hboth] at hcount
    refine ⟨?_, fun hf => ?_, ?_⟩
    · intro x hx
      rcases mem_cons.mp hx with rfl | hx
      · trivial
      · exact h.cause x (mem_cons_of_mem hx)
    · exact absurd (hf.symm.trans hboth.1) Bool.false_ne_true
    · rw [if_neg (fun hz => hcause hz.2)]
      exact (storers_cons rfl T).trans (Nat.succ.inj hcount)

end Recorded

/-- A failure stays, and its error stays once it is stored. -/
def Keeps (s s' : WriteState) : Prop :=
  (s.failed = true → s'.failed = true) ∧ (s.writeError ≠ 0 → s'.writeError = s.writeError)

theorem Keeps.refl (s : WriteState) : Keeps s s := ⟨id, fun _ => rfl⟩

theorem keeps_step {s : WriteState} {T : Multiset Pc} {r : WriteState × List Pc} (h : Recorded s (pc ::ₘ T))
    (hstep : FailureStep s pc r) : Keeps s r.1 := by
  cases hstep with
  | aside hfailed herror _ _ => exact ⟨fun hf => hfailed.trans hf, fun _ => herror⟩
  | version _ => exact ⟨fun _ => rfl, fun _ => rfl⟩
  | record => exact ⟨id, fun hne => absurd (h.error_zero (mem_cons_self _ _) rfl) hne⟩

/-- The steps of the other threads, with the threads `C` beside them. -/
theorem recorded_next {s : WriteState} {a : WriteAct} {C : Multiset Pc} (h : Recorded s (C + s.threads))
    (hn : s.next a = some s') : Recorded s' (C + s'.threads) ∧ Keeps s s' := by
  have hspawn : ∀ pc : Pc, pc.storing = false → pc.Cause →
      Recorded (s.spawn pc) (C + (s.spawn pc).threads) ∧ Keeps s (s.spawn pc) := by
    intro pc hstoring hcause
    refine ⟨?_, Keeps.refl s⟩
    have hmore : Recorded (s.spawn pc) (pc ::ₘ (C + s.threads)) := (h.spawn hstoring hcause).same rfl rfl
    rwa [← add_cons] at hmore
  cases a with
  | startWrite data | clientEvent | serverHandshake =>
    obtain ⟨_, ⟨⟩⟩ := ite_none_left_eq_some.mp hn
    exact hspawn _ rfl trivial
  | setFailed e =>
    obtain ⟨_, ⟨⟩⟩ := ite_none_left_eq_some.mp hn
    exact hspawn _ rfl (errnoOr_ne_zero e)
  | recycle =>
    obtain ⟨⟨_, hthreads, _⟩, rfl⟩ := ite_some_none_eq_some.mp hn
    rw [hthreads, add_zero] at h
    refine ⟨?_, Keeps.refl s⟩
    show Recorded _ (C + {.beforeRecycled})
    rw [add_comm, singleton_add]
    have hmore : Recorded s (.beforeRecycled ::ₘ C) := h.spawn rfl trivial
    exact hmore.same rfl rfl
  | scribble a l data =>
    obtain ⟨_, ⟨⟩⟩ := ite_none_left_eq_some.mp hn
    exact ⟨h.same rfl rfl, Keeps.refl s⟩
  | step pc choice =>
    obtain ⟨hmem, r, hstep, rfl⟩ := WriteState.next_step hn
    obtain ⟨rest, hrest, hreplace⟩ := Threads.replace_spec hmem r.2
    rw [hrest, add_cons] at h
    refine ⟨?_, keeps_step h (step_failure hstep)⟩
    show Recorded _ (C + Threads.replace s.threads pc r.2)
    rw [hreplace, add_left_comm]
    exact (h.step (step_failure hstep)).same rfl rfl

/-! One call of `StartWrite`. -/

inductive CallPc where
  /-- At a step of the write queue. -/
  | at (pc : Pc)
  /-- `errno = error()` after the first `Failed()`: the load of `_write_error`, then `Failed()`. -/
  | loadErrno
  | loadErrnoFailed
  /-- `errno = _write_error.load()` of `FailWrite`. -/
  | failErrno
  | returned (rc : Int)
  | aborted
  deriving DecidableEq

structure Call where
  pc : CallPc
  errno : Nat
  /-- `saved_errno`, once `StartAsyncConnect` has failed. -/
  saved : Option Nat
  /-- The errors of the attempts to connect or to start a thread that failed. -/
  attempts : List Nat

namespace Call

def goto (c : Call) (pc : CallPc) : Call := { c with pc := pc }

def fail (c : Call) (errno : Nat) : Call := { c with pc := .returned (-1), errno := errno }

/-- Where the call is after a step of its thread, and the threads it started: `pc` is where
    it was, `next` where the thread goes on in the write queue. -/
def after (c : Call) (s : WriteState) : Pc → Choice → List Pc → Call × List Pc
  | .start _, _, [] => (c.goto .loadErrno, [])
  | .loadError _, _, [] => (c.fail s.writeError, [])
  | .loadFailed _, _, [] => (c.fail ECANCELED, [])
  | .getObject _, _, [] => (c.fail ENOMEM, [])
  | .startAsyncConnect, .error e, [pc] => ({ c with pc := .at pc, saved := some e, attempts := e :: c.attempts }, [])
  | .registerTcpEvent, .error e, [pc] => ({ c with pc := .at pc, saved := some e, attempts := e :: c.attempts }, [])
  | .registerTcpEvent, _, [pc] => ({ c with pc := .at pc, saved := some s.error }, [])
  | .startKeepWrite _, .error e, [pc] => ({ c with pc := .at pc, attempts := e :: c.attempts }, [])
  -- `KeepWrite` is another thread's
  | .startKeepWrite _, _, next => (c.goto (.returned 0), next)
  -- `FailPendingWrite` returns
  | .failPending _, _, [] => (c.fail (c.saved.getD 0), [])
  | .finish (.drain _ _), _, [] => (c.goto .failErrno, [])
  | _, _, [pc] => (c.goto (.at pc), [])
  | _, _, next => (c.goto (.returned 0), next)

end Call

structure Calls where
  /-- The endpoint, with the threads other than the one of the call. -/
  queue : WriteState
  call : Call

inductive CallAct where
  | other (a : WriteAct)
  | call (choice : Choice)

/-- A failing `connect` or `socket` call and a thread that does not start leave an errno. -/
def Choice.setsErrno : Choice → Bool
  | .error e => e ≠ 0
  | _ => true

def callStep (s : Calls) (choice : Choice) : Option Calls :=
  match s.call.pc with
  | .at pc =>
    if choice.setsErrno then
      (pc.step s.queue choice).map fun r =>
        if r.1.crashed then ⟨{ r.1 with threads := ↑r.2 + s.queue.threads }, s.call.goto .aborted⟩
        else
          let (call, started) := s.call.after s.queue pc choice r.2
          ⟨{ r.1 with threads := ↑started + s.queue.threads }, call⟩
    else none
  | .loadErrno =>
    if s.queue.writeError ≠ 0 then some { s with call := s.call.fail s.queue.writeError }
    else some { s with call := s.call.goto .loadErrnoFailed }
  | .loadErrnoFailed => some { s with call := s.call.fail (if s.queue.failed then ECANCELED else 0) }
  | .failErrno =>
    -- called from `FailPendingWrite`, `FailWrite` leaves an errno that is overwritten
    some { s with call := s.call.fail (s.call.saved.getD s.queue.writeError) }
  | .returned _ | .aborted => none

/-- The call holds a reference, so the endpoint is not recycled before it returns. -/
def Call.allows (c : Call) : WriteAct → Bool
  | .recycle => match c.pc with
    | .returned _ => true
    | _ => false
  | _ => true

def Calls.next (s : Calls) : CallAct → Option Calls
  | .other a => if s.call.allows a then (s.queue.next a).map fun queue => { s with queue := queue } else none
  | .call choice => callStep s choice

/-- A call that has not begun, on an endpoint nobody uses yet: the others may begin first. -/
def Calls.created (handshakeOk : Bool) (data : Bytes) (errno : Nat) : Calls :=
  ⟨.created handshakeOk, ⟨.at (.start data), errno, none, []⟩⟩

def errnoMachine (handshakeOk : Bool) (data : Bytes) : Machine Calls CallAct where
  init := fun s => ∃ errno, s = .created handshakeOk data errno
  next := Calls.next

/-! What the call knows where it stands. -/

def Caller.writing : Caller → Bool
  | .startWrite _ => true
  | .drain _ false => true
  | _ => false

/-- The steps of the write queue that are `StartWrite`'s own. -/
def Pc.writing : Pc → Bool
  | .start _ | .loadError _ | .loadFailed _ | .getObject _ | .exchange _ | .storeNext _ _ | .storeNull _
  | .freshError _ | .freshFailed _ | .loadHandshake _ | .storePending _ | .startAsyncConnect | .registerTcpEvent
  | .cut _ | .startKeepWrite _ | .failPending _ => true
  | .setFailed _ (.drain _) | .storeError _ (.drain _) | .storeStop (.drain _) | .unregister (.drain _) => true
  | .drain _ false => true
  | .isWriteComplete c | .reverse c _ _ _ | .link c _ _ | .finish c => c.writing
  | _ => false

def Caller.draining : Caller → Bool
  | .drain _ _ => true
  | _ => false

/-- The version has changed: `SetFailed` returns, or has returned. -/
def Pc.pastFailure : Pc → Bool
  | .storeError _ _ | .storeStop _ | .unregister _ | .drain _ _ => true
  | .isWriteComplete c | .reverse c _ _ _ | .link c _ _ | .finish c => c.draining
  | _ => false

/-- `errno` is the code that is recorded, a code of its own, or the error of the attempt. -/
def Explained (s : WriteState) (c : Call) (errno : Nat) : Prop :=
  errno ≠ 0 ∧ (errno = s.writeError ∨ errno = ECANCELED ∨ errno = ENOMEM ∨ errno ∈ c.attempts)

def Here (s : WriteState) (c : Call) : Prop :=
  match c.pc with
  | .at pc => pc.writing = true ∧ (pc.pastFailure = true → s.failed = true) ∧
      ((∃ e, pc = .failPending e) → ∃ e, c.saved = some e)
  | .loadErrno | .loadErrnoFailed | .failErrno => s.failed = true
  | .returned rc => rc = -1 → Explained s c c.errno
  | .aborted => True

def CallPc.threads : CallPc → Multiset Pc
  | .at pc => {pc}
  | _ => 0

section
variable {s : WriteState} {c c' : Call} {errno : Nat}

theorem Explained.keeps (h : Explained s c errno) (hk : Keeps s s') (ha : c.attempts ⊆ c'.attempts) :
    Explained s' c' errno := by
  obtain ⟨hne, hcause⟩ := h
  refine ⟨hne, ?_⟩
  rcases hcause with hcode | hown | hmemory | hattempt
  · refine .inl (hcode.trans (hk.2 ?_).symm)
    rwa [← hcode]
  · exact .inr (.inl hown)
  · exact .inr (.inr (.inl hmemory))
  · exact .inr (.inr (.inr (ha hattempt)))

theorem Here.keeps (h : Here s c) (hk : Keeps s s') : Here s' c := by
  unfold Here at h ⊢
  split at h
  next => exact ⟨h.1, fun hp => hk.1 (h.2.1 hp), h.2.2⟩
  next => exact hk.1 h
  next => exact hk.1 h
  next => exact hk.1 h
  next => exact fun hrc => (h hrc).keeps hk (List.Subset.refl _)
  next => trivial

theorem explained_ecanceled (s : WriteState) (c : Call) : Explained s c ECANCELED := ⟨by decide, .inr (.inl rfl)⟩

/-- `error()` of a failed endpoint. -/
theorem explained_error (hfailed : s.failed) (c : Call) : Explained s c s.error := by
  unfold WriteState.error
  rw [if_pos hfailed]
  split
  next hne => exact ⟨hne, .inl rfl⟩
  next => exact explained_ecanceled s c

end

def Known (s : WriteState) (c : Call) : Prop := Here s c ∧ ∀ e, c.saved = some e → Explained s c e

section
variable {s : WriteState} {c : Call} {choice : Choice} {r : WriteState × List Pc}

def Pc.failsPending : Pc → Bool
  | .failPending _ => true
  | _ => false

section

variable (hk : Keeps s s') (hsaved : ∀ e, c.saved = some e → Explained s c e)

include hk hsaved

theorem known_goto {pc' : Pc} (hwriting : pc'.writing) (hpast : pc'.pastFailure → s'.failed)
    (hpending : pc'.failsPending = false) : Known s' (c.goto (.at pc')) := by
  refine ⟨⟨hwriting, hpast, ?_⟩, fun e he => (hsaved e he).keeps hk (List.Subset.refl _)⟩
  rintro ⟨e, rfl⟩
  cases hpending

theorem known_fail {errno : Nat} (herrno : Explained s c errno) : Known s' (c.fail errno) :=
  ⟨fun _ => herrno.keeps hk (List.Subset.refl _), fun e he => (hsaved e he).keeps hk (List.Subset.refl _)⟩

theorem known_done : Known s' (c.goto (.returned 0)) := by
  refine ⟨?_, fun e he => (hsaved e he).keeps hk (List.Subset.refl _)⟩
  intro hrc
  cases hrc

end

/-- `StartAsyncConnect` has failed with the errno `e`. -/
theorem known_pending {e : Nat} (hc' : c.pc = .at (.failPending e)) (hsaved : c.saved = some e)
    (he : Explained s' c e) : Known s' c := by
  refine ⟨?_, fun e' he' => ?_⟩
  · rw [Here, hc']
    exact ⟨rfl, Bool.noConfusion, fun _ => ⟨e, hsaved⟩⟩
  · rw [hsaved] at he'
    cases he'
    exact he

theorem explained_attempt {e : Nat} (s : WriteState) (hset : (Choice.error e).setsErrno) (hmem : e ∈ c.attempts) :
    Explained s c e :=
  ⟨of_decide_eq_true hset, .inr (.inr (.inr hmem))⟩

theorem startWriteStep_known (h : startWriteStep s pc choice = some r) (hset : choice.setsErrno)
    (hk : Keeps s r.1) (hhere : Here s { c with pc := .at pc }) (hsaved : ∀ e, c.saved = some e → Explained s c e) :
    Known r.1 (c.after s pc choice r.2).1 := by
  revert h hk
  fun_cases startWriteStep s pc choice <;> intro h hk <;> cases h
  case case1 hfailed => exact ⟨hfailed, hsaved⟩
  case case3 hne => exact known_fail hk hsaved ⟨hne, .inl rfl⟩
  case case5 => exact known_fail hk hsaved (explained_ecanceled s c)
  case case9 => exact known_fail hk hsaved ⟨by decide, .inr (.inr (.inl rfl))⟩
  case case10 req =>
    cases s.mem.head with
    | none | some prev => exact known_goto hk hsaved rfl Bool.noConfusion rfl
  case case11 => exact known_done hk hsaved
  case case21 e => exact known_pending rfl rfl (explained_attempt s hset List.mem_cons_self)
  case case22 hfailed => exact known_pending rfl rfl (explained_error hfailed c)
  case case23 => exact known_done hk hsaved
  case case24 e => exact known_pending rfl rfl (explained_attempt s hset List.mem_cons_self)
  case case26 =>
    obtain ⟨e, he⟩ := hhere.2.2 ⟨_, rfl⟩
    have herrno := hsaved e he
    refine known_fail hk hsaved ?_
    rwa [show c.saved = some e from he]
  case case32 => exact known_done hk hsaved
  case case33 req e =>
    refine ⟨⟨rfl, Bool.noConfusion, ?_⟩, fun e' he' => (hsaved e' he').keeps hk (List.subset_cons_self _ _)⟩
    rintro ⟨e', he'⟩
    cases he'
  all_goals exact known_goto hk hsaved rfl Bool.noConfusion rfl

theorem setFailedStep_known (h : setFailedStep s pc choice = some r) (hk : Keeps s r.1)
    (hhere : Here s { c with pc := .at pc }) (hsaved : ∀ e, c.saved = some e → Explained s c e) :
    Known r.1 (c.after s pc choice r.2).1 := by
  obtain ⟨hwriting, hpast, -⟩ := hhere
  revert h hk
  fun_cases setFailedStep s pc choice <;> intro h hk <;> cases h
  case case1 e after hfailed =>
    cases after with
    | drain req => exact known_goto hk hsaved rfl (fun _ => hfailed) rfl
    | _ => cases hwriting
  case case2 e after _ =>
    cases after with
    | drain req => exact known_goto hk hsaved rfl (fun _ => rfl) rfl
    | _ => cases hwriting
  case case3 | case4 | case5 =>
    rename_i after
    cases after with
    | drain req => exact known_goto hk hsaved rfl (fun _ => hpast rfl) rfl
    | _ => cases hwriting

theorem Caller.incomplete_writing {k : Caller} (h : k.writing) (newTail : Addr) :
    (k.incomplete newTail).writing := by
  cases k with
  | startWrite req => rfl
  | keepWrite req curTail => cases h
  | drain req recycler =>
    cases recycler with
    | false => rfl
    | true => cases h

theorem Caller.incomplete_pastFailure {k : Caller} (newTail : Addr) :
    (k.incomplete newTail).pastFailure = k.draining := by
  cases k <;> rfl

theorem Caller.incomplete_failsPending (k : Caller) (newTail : Addr) : (k.incomplete newTail).failsPending = false := by
  cases k <;> rfl

theorem completeStep_known (h : completeStep s pc choice = some r) (hcrashed : r.1.crashed = false) (hk : Keeps s r.1)
    (hhere : Here s { c with pc := .at pc }) (hsaved : ∀ e, c.saved = some e → Explained s c e) :
    Known r.1 (c.after s pc choice r.2).1 := by
  obtain ⟨hwriting, hpast, -⟩ := hhere
  revert h hk hcrashed
  fun_cases completeStep s pc choice <;> intro h hcrashed hk <;> cases h
  case case2 req recycler next _ =>
    cases recycler with
    | false => exact known_goto hk hsaved rfl (fun _ => hpast rfl) rfl
    | true => cases hwriting
  case case3 req recycler _ =>
    cases recycler with
    | false => exact known_goto hk hsaved rfl (fun _ => hpast rfl) rfl
    | true => cases hwriting
  case case5 => exact known_goto hk hsaved hwriting hpast rfl
  case case6 k _ _ _ =>
    refine known_goto hk hsaved (Caller.incomplete_writing hwriting _) ?_ (Caller.incomplete_failsPending k _)
    rw [Caller.incomplete_pastFailure]
    exact hpast
  case case7 => exact known_goto hk hsaved hwriting hpast rfl
  case case11 =>
    split at hk
    next heq =>
      simp only [if_pos heq]
      exact known_goto hk hsaved hwriting hpast rfl
    next hne =>
      simp only [if_neg hne]
      exact known_goto hk hsaved hwriting hpast rfl
  case case12 k newHead tail =>
    refine known_goto hk hsaved (Caller.incomplete_writing hwriting _) ?_ (Caller.incomplete_failsPending k _)
    rw [Caller.incomplete_pastFailure]
    exact hpast
  case case13 => exact known_done hk hsaved
  case case15 => cases hwriting
  case case17 req recycler =>
    cases recycler with
    | false => exact ⟨hpast rfl, fun e he => (hsaved e he).keeps hk (List.Subset.refl _)⟩
    | true => cases hwriting
  all_goals cases hcrashed

/-- A step of the call's thread, in the write queue. -/
theorem step_known (h : pc.step s choice = some r) (hset : choice.setsErrno) (hcrashed : r.1.crashed = false)
    (hk : Keeps s r.1) (hhere : Here s { c with pc := .at pc }) (hsaved : ∀ e, c.saved = some e → Explained s c e) :
    Known r.1 (c.after s pc choice r.2).1 := by
  unfold Pc.step at h
  split at h
  all_goals first
    | exact setFailedStep_known h hk hhere hsaved
    | exact completeStep_known h hcrashed hk hhere hsaved
    | exact startWriteStep_known h hset hk hhere hsaved
    | cases hhere.1

/-- The thread of the call goes on in the call or in the threads it started. -/
theorem after_threads (next : List Pc) :
    (c.after s pc choice next).1.pc.threads + ↑(c.after s pc choice next).2 = (↑next : Multiset Pc) := by
  fun_cases Call.after c s pc choice next
  case case9 => exact zero_add _
  case case13 => exact zero_add _
  all_goals rfl

end

/-- What a step of the call is: one of the write queue, or a load into `errno`. -/
theorem callStep_cases {s s' : Calls} {choice : Choice} (h : callStep s choice = some s') :
    (∃ pc r, s.call.pc = .at pc ∧ choice.setsErrno ∧ pc.step s.queue choice = some r ∧
      s' = if r.1.crashed then ⟨{ r.1 with threads := ↑r.2 + s.queue.threads }, s.call.goto .aborted⟩
        else ⟨{ r.1 with threads := ↑(s.call.after s.queue pc choice r.2).2 + s.queue.threads },
          (s.call.after s.queue pc choice r.2).1⟩) ∨ (s.call.pc = .loadErrno ∧ s'.queue = s.queue ∧
      s'.call = if s.queue.writeError ≠ 0 then s.call.fail s.queue.writeError else s.call.goto .loadErrnoFailed) ∨
    (s.call.pc = .loadErrnoFailed ∧ s'.queue = s.queue ∧ s'.call = s.call.fail (if s.queue.failed then ECANCELED else 0)) ∨
    (s.call.pc = .failErrno ∧ s'.queue = s.queue ∧ s'.call = s.call.fail (s.call.saved.getD s.queue.writeError)) := by
  revert h
  fun_cases callStep s choice <;> intro h
  case case1 pc hpc hset =>
    obtain ⟨r, hstep, rfl⟩ := map_eq_some_iff.mp h
    exact .inl ⟨pc, r, hpc, hset, hstep, rfl⟩
  case case2 => cases h
  case case3 hpc hne =>
    cases h
    exact .inr (.inl ⟨hpc, rfl, (if_pos hne).symm⟩)
  case case4 hpc hne =>
    cases h
    exact .inr (.inl ⟨hpc, rfl, (if_neg hne).symm⟩)
  case case5 hpc =>
    cases h
    exact .inr (.inr (.inl ⟨hpc, rfl, rfl⟩))
  case case6 hpc =>
    cases h
    exact .inr (.inr (.inr ⟨hpc, rfl, rfl⟩))
  all_goals cases h

section
variable {s s' : Calls} {choice : Choice}

theorem callStep_recorded (h : Recorded s.queue (s.call.pc.threads + s.queue.threads))
    (hn : callStep s choice = some s') :
    Recorded s'.queue (s'.call.pc.threads + s'.queue.threads) ∧ Keeps s.queue s'.queue := by
  rcases callStep_cases hn with ⟨pc, r, hpc, _, hstep, hs'⟩ | ⟨hpc, hqueue, hcall⟩ | ⟨hpc, hqueue, hcall⟩ |
    ⟨hpc, hqueue, hcall⟩
  · rw [hpc, CallPc.threads, singleton_add] at h
    have hrecorded := h.step (step_failure hstep)
    have hkeeps := keeps_step h (step_failure hstep)
    split at hs' <;> cases hs'
    next =>
      refine ⟨?_, hkeeps⟩
      show Recorded _ (0 + (↑r.2 + s.queue.threads))
      rw [zero_add]
      exact hrecorded.same rfl rfl
    next =>
      refine ⟨?_, hkeeps⟩
      show Recorded _ (_ + (↑(s.call.after s.queue pc choice r.2).2 + s.queue.threads))
      rw [← add_assoc, after_threads]
      exact hrecorded.same rfl rfl
  all_goals
    rw [hpc] at h
    rw [hqueue, hcall]
  · split <;> exact ⟨h, Keeps.refl _⟩
  · exact ⟨h, Keeps.refl _⟩
  · exact ⟨h, Keeps.refl _⟩

/-- The call's step, with the error stored before the last load of `FailWrite`. -/
theorem callStep_known (hrecorded : Recorded s.queue (s.call.pc.threads + s.queue.threads))
    (h : Known s.queue s.call) (hn : callStep s choice = some s')
    (hstored : s.call.pc = .failErrno → s.call.saved = none → storers s.queue.threads = 0) :
    Known s'.queue s'.call := by
  obtain ⟨hhere, hsaved⟩ := h
  have hkeeps := (callStep_recorded hrecorded hn).2
  rcases callStep_cases hn with ⟨pc, r, hpc, hset, hstep, hs'⟩ | ⟨hpc, hqueue, hcall⟩ | ⟨hpc, hqueue, hcall⟩ |
    ⟨hpc, hqueue, hcall⟩
  · split at hs' <;> cases hs'
    next => exact ⟨trivial, fun e he => (hsaved e he).keeps hkeeps (List.Subset.refl _)⟩
    next hcrashed =>
      have hat : s.call = { s.call with pc := .at pc } := by rw [← hpc]
      rw [hat] at hhere
      exact step_known hstep hset (Bool.eq_false_iff.mpr hcrashed) hkeeps hhere hsaved
  -- at the loads the endpoint has failed
  all_goals
    rw [Here, hpc] at hhere
    rw [hqueue, hcall]
  · split
    next hne => exact known_fail (Keeps.refl _) hsaved ⟨hne, .inl rfl⟩
    next => exact ⟨hhere, hsaved⟩
  · rw [if_pos hhere]
    exact known_fail (Keeps.refl _) hsaved (explained_ecanceled _ _)
  · cases hsome : s.call.saved with
    | some e => exact known_fail (Keeps.refl _) hsaved (hsaved e hsome)
    | none =>
      have hnone := countP_eq_zero.mp (hstored hpc hsome)
      rw [hpc, show CallPc.failErrno.threads = 0 from rfl, zero_add] at hrecorded
      have hne := hrecorded.error_ne_zero hhere fun pc hmem => Bool.eq_false_iff.mpr (hnone pc hmem)
      exact known_fail (Keeps.refl _) hsaved ⟨hne, .inl rfl⟩

end

/-- When `FailWrite` loads `_write_error` for its caller's `errno`, no thread stands between
    the version change of `SetFailed` and the store of `OnFailed`. -/
def errorStored (s : Calls) : CallAct → Bool
  | .call _ => s.call.pc = .failErrno → s.call.saved = none → storers s.queue.threads = 0
  | .other _ => true

section
variable {handshakeOk : Bool} {data : Bytes} {s : Calls}

theorem next_other {s' : Calls} {a : WriteAct} (hn : (errnoMachine handshakeOk data).next s (.other a) = some s') :
    ∃ queue, s.queue.next a = some queue ∧ { s with queue := queue } = s' := by
  have hn : (if s.call.allows a then (s.queue.next a).map fun queue => { s with queue := queue } else none) = some s' := hn
  exact map_eq_some_iff.mp (ite_none_right_eq_some.mp hn).2

theorem recorded_reachable (h : (errnoMachine handshakeOk data).Reachable s) :
    Recorded s.queue (s.call.pc.threads + s.queue.threads) := by
  refine h.invariant (I := fun s => Recorded s.queue (s.call.pc.threads + s.queue.threads)) ?_ ?_
  · intro s hinit
    obtain ⟨errno, rfl⟩ := hinit
    refine ⟨?_, fun _ => rfl, rfl⟩
    intro pc hpc
    cases mem_singleton.mp hpc
    trivial
  · intro s a s' hrecorded hn
    cases a with
    | other a =>
      obtain ⟨queue, hqueue, rfl⟩ := next_other hn
      exact (recorded_next hrecorded hqueue).1
    | call choice => exact (callStep_recorded hrecorded hn).1

theorem known_reachable (h : ((errnoMachine handshakeOk data).guard errorStored).Reachable s) :
    Known s.queue s.call := by
  obtain ⟨acts, hrun⟩ := h
  refine hrun.invariant (I := fun _ s => Known s.queue s.call) ?_ ?_
  · intro s hinit
    obtain ⟨errno, rfl⟩ := hinit
    refine ⟨⟨rfl, Bool.noConfusion, ?_⟩, fun e he => by cases he⟩
    intro ⟨e, he⟩
    cases he
  · intro acts s a s' hrun hknown hn
    obtain ⟨hok, hn⟩ := Machine.guard_next.mp hn
    have hrecorded := recorded_reachable ⟨acts, hrun.of_guard⟩
    cases a with
    | other a =>
      obtain ⟨queue, hqueue, rfl⟩ := next_other hn
      have hkeeps := (recorded_next hrecorded hqueue).2
      exact ⟨hknown.1.keeps hkeeps, fun e he => (hknown.2 e he).keeps hkeeps (List.Subset.refl _)⟩
    | call choice => exact callStep_known hrecorded hknown hn (of_decide_eq_true hok)

end

/-- **A rejected write reports its cause**, if the error is stored before `FailWrite` loads it:
    a load that comes earlier leaves 0 in `errno`. -/
theorem rejected_write_reports_cause (handshakeOk : Bool) (data : Bytes) :
    (∀ s, ((errnoMachine handshakeOk data).guard errorStored).Reachable s → s.call.pc = .returned (-1) →
      Explained s.queue s.call s.call.errno) ∧
    ∀ s a s', (errnoMachine handshakeOk data).Reachable s → errorStored s a = false →
      (errnoMachine handshakeOk data).next s a = some s' → s'.call.pc = .returned (-1) ∧ s'.call.errno = 0 := by
  constructor
  · intro s hreach hreturned
    have hhere := (known_reachable hreach).1
    rw [Here, hreturned] at hhere
    exact hhere rfl
  · intro s a s' hreach hearly hn
    have hrecorded := recorded_reachable hreach
    cases a with
    | other a => cases hearly
    | call choice =>
      obtain ⟨hpc, hlate⟩ := Classical.not_imp.mp (of_decide_eq_false hearly)
      obtain ⟨hsaved, hstorers⟩ := Classical.not_imp.mp hlate
      rw [hpc, show CallPc.failErrno.threads = 0 from rfl, zero_add] at hrecorded
      obtain ⟨pc, hmem, hstoring⟩ := Multiset.countP_pos.mp (Nat.pos_of_ne_zero hstorers)
      have hzero := hrecorded.error_zero hmem hstoring
      have hn : callStep s choice = some s' := hn
      rw [callStep, hpc] at hn
      cases hn
      refine ⟨rfl, ?_⟩
      show s.call.saved.getD s.queue.writeError = 0
      rw [hsaved, hzero]
      rfl

/-- The call has published its request when another thread fails the endpoint. -/
def published : List CallAct :=
  [.call .ok, .call .ok, .call .ok, .call (.object 7), .call .ok, .call .ok, .other (.setFailed 104),
   .other (.step (.setFailed 104 .exit) .ok)]

/-- The rest of the call: it sees the failure, drains, and loads the error. -/
def rejected : List CallAct := [.call .ok, .call .ok, .call .ok, .call .ok, .call .ok, .call .ok, .call .ok]

theorem rejected_write_without_cause : ∃ s, (errnoMachine true [1]).Run (published ++ rejected) s ∧
    s.call.pc = .returned (-1) ∧ ¬Explained s.queue s.call s.call.errno := by
  have hexec : ∃ s, (errnoMachine true [1]).Run (published ++ rejected) s ∧ s.call.pc = .returned (-1) ∧
      s.call.errno = 0 := Machine.exists_run ⟨0, rfl⟩ (by decide +kernel)
  obtain ⟨s, hrun, hreturned, hzero⟩ := hexec
  exact ⟨s, hrun, hreturned, fun hexplained => hexplained.1 hzero⟩

theorem reset_write_reports_cause : ∃ s,
    ((errnoMachine true [1]).guard errorStored).Run
      (published ++ [.other (.step (.storeError 104 .exit) .ok)] ++ rejected.dropLast) s ∧
    s.call.pc = .returned (-1) ∧ s.call.errno = 104 ∧ Explained s.queue s.call s.call.errno := by
  have hexec : ∃ s, ((errnoMachine true [1]).guard errorStored).Run
      (published ++ [.other (.step (.storeError 104 .exit) .ok)] ++ rejected.dropLast) s ∧
      s.call.pc = .returned (-1) ∧ s.call.errno = 104 := Machine.exists_run ⟨0, rfl⟩ (by decide +kernel)
  obtain ⟨s, hrun, hreturned, herrno⟩ := hexec
  exact ⟨s, hrun, hreturned, herrno, (rejected_write_reports_cause true [1]).1 s ⟨_, hrun⟩ hreturned⟩

end LightRpc

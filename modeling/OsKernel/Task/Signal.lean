import OsKernel.Lib.Run

/-! # Signals of one thread and its process

The signal state that `sys_sigaction`, `sys_kill`, `sys_sigprocmask`,
`sys_sigreturn` and `handle_signals` read and write (`syscall/signal.rs`,
`task/mod.rs`): the process's pending set, mask and action table, and the
thread's pending set, `handling_sig`, `killed`, `frozen`, trap context and the
single `trap_ctx_backup` slot.  A `SignalFlags` value is its `usize` bits.

Signal number `s` is the bit `1 << (s - 1)` in `sys_kill` and in the test of
`sys_sigaction`, which stores its action at `table[s]`; the delivery loop of
`check_pending_signals` reads the action of bit `k` at `table[k]`.
-/

namespace OsKernel.Task

/-- `MAX_SIG`. -/
def maxSig : Nat := 63

/-- `SIGKILL`, `SIGCONT`, `SIGSTOP` and `SIGCANCEL` as bits. -/
def sigkill : Nat := 1 <<< 8
def sigcont : Nat := 1 <<< 17
def sigstop : Nat := 1 <<< 18
def sigcancel : Nat := 1 <<< 32

/-- `SaFlags::SA_RESTORER`. -/
def saRestorer : Nat := 0x04000000

/-- `SIGNAL_TRAMPOLINE = TRAMPOLINE - PAGE_SIZE`. -/
def signalTrampoline : Nat := 2 ^ 64 - 2 * 0x1000

/-- `EPERM` and `SUCCESS`. -/
def eperm : Int := -1
def success : Int := 0

/-- The bit of signal number `signum`: `1 << (signum - 1)` on `usize` in release
    mode, where the subtraction wraps and the shift amount is taken mod 64. -/
def sigBit (signum : Nat) : Nat :=
  1 <<< ((signum + 63) % 64)

/-- `SignalFlags::contains`. -/
def contains (flags signal : Nat) : Bool :=
  flags &&& signal == signal

/-- `TrapContext`. -/
structure TrapContext where
  x : Nat → Nat
  sstatus : Nat
  sepc : Nat
  kernelSatp : Nat
  kernelSp : Nat
  trapHandler : Nat

/-- `SignalAction`. -/
structure SignalAction where
  saHandler : Nat
  saFlags : Nat
  saRestorer : Nat
  mask : Nat

/-- `SignalAction::default`: `SIG_DFL`, no flag, the mask `from_bits(40)`. -/
def SignalAction.default : SignalAction :=
  ⟨0, 0, 0, 40⟩

/-- The signal state of one thread and its process. -/
structure SigState where
  signalsPending : Nat
  signalMask : Nat
  /-- `signal_actions.table`, indexed `0..=MAX_SIG`. -/
  signalActions : Nat → SignalAction
  /-- The thread's own `signal_pending`. -/
  signalPending : Nat
  handlingSig : Int
  killed : Bool
  frozen : Bool
  trapCx : TrapContext
  trapCtxBackup : Option TrapContext

namespace SigState

/-- `call_kernel_signal_handler`. -/
def callKernelSignalHandler (st : SigState) (signal : Nat) : SigState :=
  if signal = sigstop then { st with frozen := true, signalsPending := st.signalsPending ^^^ sigstop }
  else if signal = sigcont then
    if contains st.signalsPending sigcont then
      { st with signalsPending := st.signalsPending ^^^ sigcont, frozen := false }
    else st
  else { st with killed := true }

/-- `call_user_signal_handler(sig, signal, thread)`: with a handler, install the
    action's mask, record `sig`, clear the pending bit, save the trap context in
    the backup slot and enter the handler with `a0 = sig`. -/
def callUserSignalHandler (st : SigState) (sig signal : Nat) (thread : Bool) : SigState :=
  let action := st.signalActions sig
  if action.saHandler ≠ 0 then
    let st := { st with signalMask := action.mask, handlingSig := sig }
    let st := if thread then { st with signalPending := st.signalPending ^^^ signal }
      else { st with signalsPending := st.signalsPending ^^^ signal }
    let backup := st.trapCx
    let ra := if contains action.saFlags saRestorer then action.saRestorer else signalTrampoline
    { st with
        trapCtxBackup := some backup,
        trapCx := { backup with
          sepc := action.saHandler,
          x := Function.update (Function.update backup.x 10 sig) 1 ra } }
  else { st with killed := true }

/-- Whether `signal` may be delivered now: not masked, and either no handler
    runs or the running handler's mask lets it through. -/
def deliverable (st : SigState) (pending signal : Nat) : Bool :=
  contains pending signal && !contains st.signalMask signal &&
    (st.handlingSig == -1 || !contains (st.signalActions st.handlingSig.toNat).mask signal)

/-- The 64-iteration loop of `check_pending_signals` over the bits `sigs`:
    kernel signals are handled in place, the first user signal is delivered and
    ends the loop. -/
def checkPendingLoop (st : SigState) : List Nat → SigState
  | [] => st
  | sig :: sigs =>
      let signal := 1 <<< sig
      if st.deliverable st.signalsPending signal then
        if signal = sigkill ∨ signal = sigstop ∨ signal = sigcont then
          (st.callKernelSignalHandler signal).checkPendingLoop sigs
        else st.callUserSignalHandler sig signal false
      else st.checkPendingLoop sigs

/-- `check_pending_signals`: the hard-coded `SIGCANCEL` path of the thread (at
    table slot 33), then the loop over bits `0..=MAX_SIG`. -/
def checkPendingSignals (st : SigState) : SigState :=
  let st := if st.deliverable st.signalPending sigcancel then
      st.callUserSignalHandler 33 sigcancel true
    else st
  st.checkPendingLoop (List.range (maxSig + 1))

/-- `handle_signals` up to its wait for `SIGCONT`: while the thread is frozen
    and alive it is suspended and checks again, which is a later
    `handle_signals` here. -/
def handleSignals (st : SigState) : SigState :=
  st.checkPendingSignals

/-- `sys_sigaction(signum, action)` with a null `old_action`. -/
def sysSigaction (st : SigState) (signum : Nat) (action : Option SignalAction) :
    SigState × Int :=
  if maxSig < signum then (st, eperm)
  else
    let flag := sigBit signum
    if flag = sigkill ∨ flag = sigstop then (st, eperm)
    else
      match action with
      | some action => ({ st with signalActions := Function.update st.signalActions signum action },
          success)
      | none => (st, success)

/-- `sys_kill(pid, signum)` for the process of this thread. -/
def sysKill (st : SigState) (signum : Nat) : SigState :=
  { st with signalsPending := st.signalsPending ||| sigBit signum }

/-- `sys_sigprocmask(how, set)` with a null `old_set`. -/
def sysSigprocmask (st : SigState) (how : Nat) (set : Option Nat) : SigState × Int :=
  match set with
  | none => (st, success)
  | some set =>
      match how with
      | 0 => ({ st with signalMask := st.signalMask ||| set }, success)
      | 1 => ({ st with signalMask := st.signalMask &&& ((2 ^ 64 - 1) ^^^ set) }, success)
      | 2 => ({ st with signalMask := set }, success)
      | _ => (st, eperm)

/-- `sys_sigreturn`: `handling_sig = -1` and the trap context taken back from
    the backup slot, whose `unwrap` panics when no delivery ever filled it. -/
def sysSigreturn (st : SigState) : Option SigState :=
  st.trapCtxBackup.map fun backup => { st with handlingSig := -1, trapCx := backup }

/-- The state of a new process's main thread (`ProcessControlBlock::new`,
    `TaskControlBlock::new`) about to return to user mode with `cx`. -/
def fresh (cx : TrapContext) : SigState where
  signalsPending := 0
  signalMask := 0
  signalActions := fun _ => SignalAction.default
  signalPending := 0
  handlingSig := -1
  killed := false
  frozen := false
  trapCx := cx
  trapCtxBackup := none

/-! ## Bits -/

theorem bit_and_bit (a b : Nat) : (1 <<< a) &&& (1 <<< b) = if a = b then 1 <<< a else 0 := by
  apply Nat.eq_of_testBit_eq
  intro i
  simp only [Nat.one_shiftLeft, Nat.testBit_and, Nat.testBit_two_pow]
  by_cases hab : a = b
  · subst hab
    simp [Nat.testBit_two_pow]
  · simp only [hab, if_false, Nat.zero_testBit, Bool.and_eq_false_iff, decide_eq_false_iff_not]
    omega

theorem contains_bit_bit (a b : Nat) : contains (1 <<< a) (1 <<< b) = decide (a = b) := by
  by_cases hab : a = b
  · simp [contains, hab]
  · have hne : (0 : Nat) ≠ 1 <<< b := by
      rw [Nat.one_shiftLeft]
      exact (Nat.two_pow_pos b).ne
    simp [contains, bit_and_bit, hab, hne]

theorem contains_zero (signal : Nat) (h : signal ≠ 0) : contains 0 signal = false := by
  simp [contains, Ne.symm h]

theorem sigBit_of_pos {signum : Nat} (hpos : 0 < signum) (hle : signum ≤ 64) :
    sigBit signum = 1 <<< (signum - 1) := by
  have hmod : (signum + 63) % 64 = signum - 1 := by omega
  rw [sigBit, hmod]

/-! ## The delivery loop -/

theorem checkPendingLoop_append_of_not_pending (st : SigState) (first rest : List Nat)
    (hidle : ∀ sig ∈ first, contains st.signalsPending (1 <<< sig) = false) :
    st.checkPendingLoop (first ++ rest) = st.checkPendingLoop rest := by
  induction first with
  | nil => rfl
  | cons sig sigs ih =>
      have hsig : st.deliverable st.signalsPending (1 <<< sig) = false := by
        simp [deliverable, hidle sig List.mem_cons_self]
      simp only [List.cons_append, checkPendingLoop, hsig, Bool.false_eq_true, if_false]
      exact ih (fun other hother => hidle other (List.mem_cons_of_mem sig hother))

theorem checkPendingLoop_cons_user (st : SigState) (sig : Nat) (sigs : List Nat)
    (hdeliver : st.deliverable st.signalsPending (1 <<< sig) = true)
    (huser : ¬ (1 <<< sig = sigkill ∨ 1 <<< sig = sigstop ∨ 1 <<< sig = sigcont)) :
    st.checkPendingLoop (sig :: sigs) = st.callUserSignalHandler sig (1 <<< sig) false := by
  simp only [checkPendingLoop, hdeliver, if_true, huser, if_false]

theorem range_split {k n : Nat} (hk : k < n) :
    List.range n = List.range k ++ k :: List.range' (k + 1) (n - k - 1) := by
  have hn : n = k + (n - k - 1 + 1) := by omega
  have hsplit := @List.range'_append_1 0 k (n - k - 1 + 1)
  rw [Nat.zero_add, ← hn] at hsplit
  rw [List.range_eq_range', List.range_eq_range', ← hsplit, List.range'_succ]

/-- With exactly bit `k` pending for the process, nothing masking it, no
    handler running and no `SIGCANCEL` for the thread, `check_pending_signals`
    is the user delivery of bit `k`: it reads `table[k]` and passes `k` in `a0`. -/
theorem checkPendingSignals_single_bit (st : SigState) {k : Nat} (hk : k ≤ maxSig)
    (hpending : st.signalsPending = 1 <<< k) (hthread : st.signalPending = 0)
    (hmask : contains st.signalMask (1 <<< k) = false) (hidle : st.handlingSig = -1)
    (huser : ¬ (1 <<< k = sigkill ∨ 1 <<< k = sigstop ∨ 1 <<< k = sigcont)) :
    st.checkPendingSignals = st.callUserSignalHandler k (1 <<< k) false := by
  have hcancel : st.deliverable st.signalPending sigcancel = false := by
    simp [deliverable, hthread, contains_zero sigcancel (by decide)]
  have hbefore : ∀ sig ∈ List.range k, contains st.signalsPending (1 <<< sig) = false := by
    intro sig hsig
    rw [hpending, contains_bit_bit]
    simp only [List.mem_range] at hsig
    simp only [decide_eq_false_iff_not]
    omega
  have hdeliver : st.deliverable st.signalsPending (1 <<< k) = true := by
    simp [deliverable, hpending, contains_bit_bit, hmask, hidle]
  simp only [checkPendingSignals, hcancel, Bool.false_eq_true, if_false]
  rw [range_split (show k < maxSig + 1 by omega), checkPendingLoop_append_of_not_pending]
  · exact checkPendingLoop_cons_user st k _ hdeliver huser
  · exact hbefore

/-! ## Numbers, bits and table slots -/

theorem bit_inj {a b : Nat} : 1 <<< a = 1 <<< b ↔ a = b := by
  simp only [Nat.one_shiftLeft]
  exact Nat.pow_right_injective (le_refl 2) |>.eq_iff

theorem sysSigaction_eq (st : SigState) (signum : Nat) (action : Option SignalAction) :
    ∃ table : Nat → SignalAction, (st.sysSigaction signum action).1 = { st with signalActions := table } ∧
      ∀ i, i ≠ signum → table i = st.signalActions i := by
  by_cases hmax : maxSig < signum
  · exact ⟨st.signalActions, by simp [sysSigaction, hmax], fun _ _ => rfl⟩
  by_cases hflag : sigBit signum = sigkill ∨ sigBit signum = sigstop
  · exact ⟨st.signalActions, by simp [sysSigaction, hmax, hflag], fun _ _ => rfl⟩
  cases action with
  | none => exact ⟨st.signalActions, by simp [sysSigaction, hmax, hflag], fun _ _ => rfl⟩
  | some action =>
      exact ⟨Function.update st.signalActions signum action, by simp [sysSigaction, hmax, hflag],
        fun i hi => Function.update_of_ne hi _ _⟩

/-- `sys_sigaction(signum, act)`, `sys_kill(signum)`, then `handle_signals`, on a
    thread with nothing pending, masked or running: the delivery is that of bit
    `signum - 1`, so it reads `table[signum - 1]` (not the slot `signum` just
    written) and passes `signum - 1` in `a0`. -/
theorem handleSignals_after_sigaction_kill (st : SigState) {signum : Nat} (hpos : 0 < signum)
    (hle : signum ≤ 64) (act : SignalAction) (hpending : st.signalsPending = 0)
    (hthread : st.signalPending = 0) (hmask : st.signalMask = 0) (hidle : st.handlingSig = -1)
    (huser : signum ≠ 9 ∧ signum ≠ 18 ∧ signum ≠ 19) :
    ((st.sysSigaction signum (some act)).1.sysKill signum).handleSignals =
      ((st.sysSigaction signum (some act)).1.sysKill signum).callUserSignalHandler (signum - 1)
        (1 <<< (signum - 1)) false := by
  obtain ⟨table, htable, -⟩ := st.sysSigaction_eq signum (some act)
  have hbit : sigBit signum = 1 <<< (signum - 1) := sigBit_of_pos hpos hle
  rw [htable]
  apply checkPendingSignals_single_bit
  · unfold maxSig
    omega
  · simp [sysKill, hpending, hbit]
  · exact hthread
  · simp only [sysKill, hmask]
    exact contains_zero _ (by rw [Nat.one_shiftLeft]; exact (Nat.two_pow_pos _).ne')
  · exact hidle
  · simp only [sigkill, sigstop, sigcont, bit_inj]
    omega

/-- A user trap context: every register 0, returning to `0x10000`. -/
def userCx : TrapContext :=
  ⟨fun _ => 0, 0, 0x10000, 0, 0, 0⟩

/-- On a new process: `sys_sigaction(10, handler 0x1000)`, `sys_kill(10)`, then
    `handle_signals`.  The delivery reads the default action at `table[9]`, so
    the thread is marked killed and its trap context still returns to
    `0x10000` instead of entering the handler. -/
theorem sigaction_kill_kills_task :
    (((fresh userCx).sysSigaction 10 (some ⟨0x1000, 0, 0, 0⟩)).1.sysKill 10).handleSignals.killed =
        true ∧
      (((fresh userCx).sysSigaction 10 (some ⟨0x1000, 0, 0, 0⟩)).1.sysKill 10).handleSignals.trapCx.sepc =
        0x10000 := by
  rw [handleSignals_after_sigaction_kill (fresh userCx) (by decide : 0 < 10) (by decide) _ rfl rfl rfl
    rfl (by decide)]
  decide

/-! ## Delivery and return -/

theorem callUserSignalHandler_backup (st : SigState) {sig : Nat} (signal : Nat) (thread : Bool)
    (hhandler : (st.signalActions sig).saHandler ≠ 0) :
    (st.callUserSignalHandler sig signal thread).trapCtxBackup = some st.trapCx := by
  unfold callUserSignalHandler
  cases thread <;> simp [hhandler]

end SigState

/-- What the thread, or the kernel on its behalf, does to its signal state. -/
inductive SigEvent where
  /-- User code runs and traps back with the context `resume` makes of it. -/
  | user (resume : TrapContext → TrapContext)
  | sigaction (signum : Nat) (action : Option SignalAction)
  | kill (signum : Nat)
  | sigprocmask (how : Nat) (set : Option Nat)
  /-- `handle_signals` on the way back to user mode. -/
  | handle
  | sigreturn

/-- Events that neither deliver a signal nor return from one. -/
def SigEvent.quiet : SigEvent → Bool
  | .handle | .sigreturn => false
  | _ => true

/-- The step function of the signal state. -/
def sigStep (st : SigState) : SigEvent → Option SigState
  | .user resume => some { st with trapCx := resume st.trapCx }
  | .sigaction signum action => some (st.sysSigaction signum action).1
  | .kill signum => some (st.sysKill signum)
  | .sigprocmask how set => some (st.sysSigprocmask how set).1
  | .handle => some st.handleSignals
  | .sigreturn => st.sysSigreturn

theorem sysSigprocmask_backup (st : SigState) (how : Nat) (set : Option Nat) :
    (st.sysSigprocmask how set).1.trapCtxBackup = st.trapCtxBackup := by
  unfold SigState.sysSigprocmask
  split
  · rfl
  · split <;> rfl

theorem sigStep_quiet_isSome (st : SigState) {event : SigEvent} (hquiet : event.quiet = true) :
    (sigStep st event).isSome := by
  cases event <;> simp_all [sigStep, SigEvent.quiet]

theorem sigStep_quiet_backup {st next : SigState} {event : SigEvent} (hquiet : event.quiet = true)
    (hstep : sigStep st event = some next) : next.trapCtxBackup = st.trapCtxBackup := by
  cases event with
  | user resume =>
      simp only [sigStep, Option.some.injEq] at hstep
      rw [← hstep]
  | sigaction signum action =>
      simp only [sigStep, Option.some.injEq] at hstep
      obtain ⟨table, htable, -⟩ := st.sysSigaction_eq signum action
      rw [← hstep, htable]
  | kill signum =>
      simp only [sigStep, Option.some.injEq] at hstep
      rw [← hstep]
      rfl
  | sigprocmask how set =>
      simp only [sigStep, Option.some.injEq] at hstep
      rw [← hstep, sysSigprocmask_backup]
  | handle | sigreturn => simp [SigEvent.quiet] at hquiet

/-- After a delivery, any run of quiet events and then `sys_sigreturn`: nothing
    panics, the trap context is again the one current at the delivery,
    `handling_sig` is `-1`, and `signal_mask` is left as the run made it. -/
theorem sigreturn_restores_delivery_context (st : SigState) {sig : Nat} (signal : Nat)
    (thread : Bool) (hhandler : (st.signalActions sig).saHandler ≠ 0) (events : List SigEvent)
    (hquiet : ∀ event ∈ events, event.quiet = true) :
    ∃ mid final, StepRun.exec sigStep (st.callUserSignalHandler sig signal thread) events = some mid ∧
      mid.sysSigreturn = some final ∧ final.trapCx = st.trapCx ∧ final.handlingSig = -1 ∧
      final.signalMask = mid.signalMask := by
  set delivered := st.callUserSignalHandler sig signal thread
  obtain ⟨mid, hrun⟩ := Option.isSome_iff_exists.mp
    (StepRun.exec_isSome_of_mem sigStep (fun s _ hq => sigStep_quiet_isSome s hq) delivered events
      hquiet)
  have hbackup : mid.trapCtxBackup = some st.trapCx :=
    @StepRun.exec_invariant_of_mem SigState SigEvent sigStep
      (fun s => s.trapCtxBackup = some st.trapCx) (fun event => event.quiet = true)
      (fun s _ next hq hs hstep => (sigStep_quiet_backup hq hstep).trans hs) delivered mid events
      hquiet (SigState.callUserSignalHandler_backup st signal thread hhandler) hrun
  refine ⟨mid, { mid with handlingSig := -1, trapCx := st.trapCx }, hrun, ?_, rfl, rfl, rfl⟩
  simp [SigState.sysSigreturn, hbackup]

/-- `sigreturn_restores_delivery_context` on a handler installed for slot 11, with
    a `kill`, a `sigprocmask` and some user code between delivery and return. -/
theorem sigreturn_restores_delivery_context_after_sigaction :
    (((SigState.fresh SigState.userCx).sysSigaction 11 (some ⟨0x1000, 0, 0, 0⟩)).1.signalActions
        11).saHandler ≠ 0 ∧
      (∀ event ∈ [SigEvent.kill 5, .sigprocmask 0 (some 4), .user (fun cx => { cx with sepc := 8 })],
        event.quiet = true) ∧
      ∃ mid final, StepRun.exec sigStep
          (((SigState.fresh SigState.userCx).sysSigaction 11 (some ⟨0x1000, 0, 0, 0⟩)).1.callUserSignalHandler
            11 (1 <<< 11) false)
          [SigEvent.kill 5, .sigprocmask 0 (some 4), .user (fun cx => { cx with sepc := 8 })] = some mid ∧
        mid.sysSigreturn = some final ∧ final.trapCx = SigState.userCx ∧ final.handlingSig = -1 ∧
        final.signalMask = mid.signalMask :=
  ⟨by decide, by decide,
    sigreturn_restores_delivery_context _ (1 <<< 11) false (by decide) _ (by decide)⟩

/-- Two handlers with empty masks are set up, the first is delivered, its code
    runs one instruction, and a second signal is delivered inside it. -/
def nestedDeliveries : List SigEvent :=
  [.sigaction 11 (some ⟨0x1000, 0, 0, 0⟩), .sigaction 12 (some ⟨0x2000, 0, 0, 2⟩), .kill 12, .handle,
    .user (fun cx => { cx with sepc := cx.sepc + 4 }), .kill 13, .handle, .sigreturn, .sigreturn]

/-- After the two returns the thread resumes inside the first handler at
    `0x1004` rather than at `0x10000`, with the second handler's mask `2` rather
    than the empty mask; and `sys_sigreturn` with no delivery panics. -/
theorem nested_sigreturn_resumes_inner_context :
    (StepRun.exec sigStep (SigState.fresh SigState.userCx) nestedDeliveries).map
        (fun st => (st.trapCx.sepc, st.signalMask, st.handlingSig)) = some (0x1004, 2, -1) ∧
      (SigState.fresh SigState.userCx).sysSigreturn = none := by
  decide

end OsKernel.Task

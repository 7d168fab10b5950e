import Mathlib
import OsKernel.Task.Signal

/-! # Exit statuses and `sys_wait4`

A process ends on one of two paths, and each hands an `i32` exit code to
`exit_current_and_run_next`, which stores it raw in the process.  `sys_exit(c)`
hands over `(c & 0xff) << 8`.  `trap_handler` hands over the errno that
`SignalFlags::check_error` gives for the first fatal signal pending, which is
`-2`, `-4`, `-6`, `-8`, `-9` or `-11`.  `sys_wait4` removes a zombie child
from the caller's children and writes its exit code to `*exit_code_ptr`.

The parent decodes the status it receives with the macros of the Linux C library
(`bits/waitstatus.h`): `wtermsig`, `wexitstatus`, `wifexited` and
`wifsignaled`.  These are the reader's side and are not part of the kernel.

A child process is its pid, `is_zombie` and `exit_code`.  Its address space and
threads are left out, since `sys_wait4` reads nothing else of it.
`translated_refmut` is `mapped`, the test that the page of `exit_code_ptr` is
mapped: its `unwrap` panics on an unmapped page.
-/

namespace OsKernel.Task

/-- The bits of `SIGINT`, `SIGILL`, `SIGABRT`, `SIGFPE` and `SIGSEGV`. -/
def sigint : Nat := 1 <<< 1
def sigill : Nat := 1 <<< 3
def sigabrt : Nat := 1 <<< 5
def sigfpe : Nat := 1 <<< 7
def sigsegv : Nat := 1 <<< 10

/-- `ECHILD`. -/
def echild : Int := -10

/-- `WaitOption::WNOHANG`, and all bits of `WaitOption`. -/
def wnohang : Nat := 1
def waitOptionAll : Nat := 1 ||| 2 ||| 4 ||| 8 ||| 0x1000000

def checkError (flags : Nat) : Option (BitVec 32 × String) :=
  if contains flags sigint then some (-2, "Killed, SIGINT=2")
  else if contains flags sigill then some (-4, "Illegal Instruction, SIGILL=4")
  else if contains flags sigabrt then some (-6, "Aborted, SIGABRT=6")
  else if contains flags sigfpe then some (-8, "Erroneous Arithmetic Operation, SIGFPE=8")
  else if contains flags sigkill then some (-9, "Application being killed, SIGSEGV=9")
  else if contains flags sigsegv then some (-11, "Segmentation Fault, SIGSEGV=11")
  else none

/-- The exit code `sys_exit` hands to `exit_current_and_run_next`. -/
def sysExit (exitCode : BitVec 32) : BitVec 32 :=
  (exitCode &&& 0xff) <<< 8

/-- The exit code `trap_handler` hands to `exit_current_and_run_next`, when the
    process's pending signals hold a fatal one. -/
def trapExitCode (signalsPending : Nat) : Option (BitVec 32) :=
  (checkError signalsPending).map Prod.fst

structure ChildProcess where
  pid : Nat
  isZombie : Bool
  exitCode : BitVec 32
  deriving DecidableEq, Repr

/-- What `exit_current_and_run_next` records when the main thread of process `pid`
    exits: the process becomes a zombie with that exit code. -/
def exitCurrentAndRunNext (children : List ChildProcess) (pid : Nat) (exitCode : BitVec 32) :
    List ChildProcess :=
  children.map fun c => if c.pid = pid then { c with isZombie := true, exitCode } else c

/-- `pid == -1 || pid as usize == p.getpid()`. -/
def waitsFor (pid : Int) (child : ChildProcess) : Bool :=
  pid == -1 || (pid % 2 ^ 64).toNat == child.pid

inductive WaitResult where
  | returns (ret : Int)
  | blocks
  deriving DecidableEq, Repr

/-- One pass of the loop of `sys_wait4`: the caller's new children, the status it
    writes to `*exit_code_ptr`, and what the call does.  A pass that finds no zombie
    without `WNOHANG` blocks the caller, which makes the next pass when woken. -/
def sysWait4 (children : List ChildProcess) (pid : Int) (exitCodePtr option : Nat)
    (mapped : Nat → Bool) : Option (List ChildProcess × Option (BitVec 32) × WaitResult) :=
  -- `WaitOption::from_bits(option).unwrap()`
  if option &&& waitOptionAll ≠ option then none
  else if !children.any (waitsFor pid) then some (children, none, .returns echild)
  else
    match children.find? (fun c => c.isZombie && waitsFor pid c) with
    | some child =>
        let rest := children.eraseP fun c => c.isZombie && waitsFor pid c
        if exitCodePtr = 0 then some (rest, none, .returns child.pid)
        else if mapped exitCodePtr then some (rest, some child.exitCode, .returns child.pid)
        else none
    | none =>
        if option &&& wnohang ≠ 0 then some (children, none, .returns success)
        else some (children, none, .blocks)

/-! ## The decoding of the C library -/

def wtermsig (status : BitVec 32) : BitVec 32 := status &&& 0x7f

def wexitstatus (status : BitVec 32) : BitVec 32 := (status &&& 0xff00) >>> 8

def wifexited (status : BitVec 32) : Bool := wtermsig status == 0

/-- `((signed char) ((status & 0x7f) + 1) >> 1) > 0`. -/
def wifsignaled (status : BitVec 32) : Bool :=
  decide (0 < (((status &&& 0x7f) + 1).setWidth 8).toInt >>> 1)

/-! ## The exit path -/

theorem toNat_sysExit (exitCode : BitVec 32) :
    (sysExit exitCode).toNat = exitCode.toNat % 2 ^ 8 * 2 ^ 8 := by
  have hlow : (exitCode &&& 0xff).toNat = exitCode.toNat % 2 ^ 8 := by
    rw [BitVec.toNat_and, show (0xff : BitVec 32).toNat = 2 ^ 8 - 1 by rfl,
      Nat.and_two_pow_sub_one_eq_mod]
  have hlt : exitCode.toNat % 2 ^ 8 * 2 ^ 8 < 2 ^ 32 := by omega
  rw [sysExit, BitVec.toNat_shiftLeft, hlow, Nat.shiftLeft_eq, Nat.mod_eq_of_lt hlt]

theorem sysExit_decodes (exitCode : BitVec 32) :
    wifexited (sysExit exitCode) = true ∧ wexitstatus (sysExit exitCode) = exitCode &&& 0xff := by
  have hstatus := toNat_sysExit exitCode
  constructor
  · have hsig : wtermsig (sysExit exitCode) = 0 := by
      apply BitVec.eq_of_toNat_eq
      rw [wtermsig, BitVec.toNat_and, show (0x7f : BitVec 32).toNat = 2 ^ 7 - 1 by rfl,
        Nat.and_two_pow_sub_one_eq_mod, hstatus]
      show _ = 0
      omega
    simp [wifexited, hsig]
  · apply BitVec.eq_of_toNat_eq
    rw [wexitstatus, BitVec.ushiftRight_and_distrib, show (0xff00 : BitVec 32) >>> 8 = 0xff by decide,
      BitVec.toNat_and, BitVec.toNat_and, BitVec.toNat_ushiftRight, hstatus,
      show (0xff : BitVec 32).toNat = 2 ^ 8 - 1 by rfl, Nat.and_two_pow_sub_one_eq_mod,
      Nat.and_two_pow_sub_one_eq_mod, Nat.shiftRight_eq_div_pow]
    omega

/-! ## The signal path -/

theorem checkError_eq_some {flags : Nat} {errno : BitVec 32} {msg : String}
    (h : checkError flags = some (errno, msg)) :
    ∃ s ∈ [2, 4, 6, 8, 9, 11], contains flags (sigBit s) = true ∧ errno = -BitVec.ofNat 32 s := by
  unfold checkError at h
  split_ifs at h with h2 h4 h6 h8 h9 h11
  · exact ⟨2, by simp, h2, ((Prod.mk.inj (Option.some.inj h)).1).symm⟩
  · exact ⟨4, by simp, h4, ((Prod.mk.inj (Option.some.inj h)).1).symm⟩
  · exact ⟨6, by simp, h6, ((Prod.mk.inj (Option.some.inj h)).1).symm⟩
  · exact ⟨8, by simp, h8, ((Prod.mk.inj (Option.some.inj h)).1).symm⟩
  · exact ⟨9, by simp, h9, ((Prod.mk.inj (Option.some.inj h)).1).symm⟩
  · exact ⟨11, by simp, h11, ((Prod.mk.inj (Option.some.inj h)).1).symm⟩

theorem wtermsig_neg {s : Nat} (hpos : 0 < s) (hle : s ≤ 128) :
    wtermsig (-BitVec.ofNat 32 s) = BitVec.ofNat 32 (128 - s) := by
  apply BitVec.eq_of_toNat_eq
  have hs : (BitVec.ofNat 32 s).toNat = s := by
    rw [BitVec.toNat_ofNat]
    omega
  rw [wtermsig, BitVec.toNat_and, show (0x7f : BitVec 32).toNat = 2 ^ 7 - 1 by rfl,
    Nat.and_two_pow_sub_one_eq_mod, BitVec.toNat_neg, hs, BitVec.toNat_ofNat]
  omega

theorem wifsignaled_fatal : ∀ s ∈ [2, 4, 6, 8, 9, 11], wifsignaled (-BitVec.ofNat 32 s) = true := by
  decide

/-! ## `sys_wait4` -/

theorem waitsFor_iff {p : Nat} (hp : p < 2 ^ 63) (child : ChildProcess) :
    waitsFor p child = true ↔ child.pid = p := by
  have hmod : ((p : Int) % 2 ^ 64).toNat = p := by omega
  simp only [waitsFor, Bool.or_eq_true, beq_iff_eq, hmod]
  omega

theorem mem_exitCurrentAndRunNext {children : List ChildProcess} {p : Nat} {code : BitVec 32}
    {child : ChildProcess} (hmem : child ∈ exitCurrentAndRunNext children p code) (hpid : child.pid = p) :
    child.isZombie = true ∧ child.exitCode = code := by
  obtain ⟨c, -, rfl⟩ := List.mem_map.mp hmem
  by_cases hc : c.pid = p
  · simp [hc]
  · simp [hc] at hpid

theorem pids_exitCurrentAndRunNext (children : List ChildProcess) (p : Nat) (code : BitVec 32) :
    (exitCurrentAndRunNext children p code).map ChildProcess.pid = children.map ChildProcess.pid := by
  simp only [exitCurrentAndRunNext, List.map_map]
  apply List.map_congr_left
  intro c _
  by_cases hc : c.pid = p <;> simp [hc]

theorem find?_zombie_after_exit {children : List ChildProcess} {p : Nat} (code : BitVec 32)
    (hp : p ∈ children.map ChildProcess.pid) (hp63 : p < 2 ^ 63) :
    (exitCurrentAndRunNext children p code).any (waitsFor p) = true ∧
      ∃ child, (exitCurrentAndRunNext children p code).find? (fun c => c.isZombie && waitsFor p c) =
        some child ∧ child.pid = p ∧ child.exitCode = code := by
  set exited := exitCurrentAndRunNext children p code
  have hp' : p ∈ exited.map ChildProcess.pid := by
    rw [pids_exitCurrentAndRunNext]
    exact hp
  obtain ⟨c, hc, hcpid⟩ := List.mem_map.mp hp'
  have hzombie : (exited.find? fun c => c.isZombie && waitsFor p c).isSome := by
    rw [List.find?_isSome]
    refine ⟨c, hc, ?_⟩
    simp [(mem_exitCurrentAndRunNext hc hcpid).1, (waitsFor_iff hp63 c).mpr hcpid]
  obtain ⟨child, hfind⟩ := Option.isSome_iff_exists.mp hzombie
  have hchild := List.find?_some hfind
  simp only [Bool.and_eq_true] at hchild
  have hpid := (waitsFor_iff hp63 child).mp hchild.2
  refine ⟨List.any_eq_true.mpr ⟨c, hc, (waitsFor_iff hp63 c).mpr hcpid⟩, child, hfind, hpid, ?_⟩
  exact (mem_exitCurrentAndRunNext (List.mem_of_find?_eq_some hfind) hpid).2

theorem sysWait4_after_exit {children : List ChildProcess} {p ptr : Nat} {mapped : Nat → Bool}
    (code : BitVec 32) (hp : p ∈ children.map ChildProcess.pid) (hp63 : p < 2 ^ 63) (hptr : ptr ≠ 0)
    (hmapped : mapped ptr = true) :
    sysWait4 (exitCurrentAndRunNext children p code) p ptr 0 mapped =
      some ((exitCurrentAndRunNext children p code).eraseP (fun c => c.isZombie && waitsFor p c),
        some code, .returns p) := by
  obtain ⟨hany, child, hfind, hpid, hcode⟩ := find?_zombie_after_exit code hp hp63
  simp [sysWait4, hany, hfind, hptr, hmapped, hpid, hcode]

theorem pid_ne_of_mem_eraseP {children : List ChildProcess} {P : ChildProcess → Bool}
    {child c : ChildProcess} (hnodup : (children.map ChildProcess.pid).Nodup)
    (hfind : children.find? P = some child) (hc : c ∈ children.eraseP P) : c.pid ≠ child.pid := by
  obtain ⟨x, l₁, l₂, hbefore, hx, rfl, herase⟩ :=
    List.exists_of_eraseP (List.mem_of_find?_eq_some hfind) (List.find?_some hfind)
  have hxchild : x = child := by
    have hnone : l₁.find? P = none := List.find?_eq_none.mpr hbefore
    rw [List.find?_append, hnone, Option.none_or, List.find?_cons_of_pos hx] at hfind
    exact Option.some.inj hfind
  subst hxchild
  rw [List.map_append, List.map_cons, List.nodup_middle, List.nodup_cons, ← List.map_append] at hnodup
  rw [herase] at hc
  intro heq
  exact hnodup.1 (heq ▸ List.mem_map_of_mem hc)

theorem sysWait4_after_exit_once {children : List ChildProcess} {p ptr : Nat} {mapped : Nat → Bool}
    (code : BitVec 32) (hnodup : (children.map ChildProcess.pid).Nodup)
    (hp : p ∈ children.map ChildProcess.pid) (hp63 : p < 2 ^ 63) (hptr : ptr ≠ 0)
    (hmapped : mapped ptr = true) :
    ∃ rest, sysWait4 (exitCurrentAndRunNext children p code) p ptr 0 mapped =
        some (rest, some code, .returns p) ∧
      sysWait4 rest p ptr 0 mapped = some (rest, none, .returns echild) := by
  have hnodup' : ((exitCurrentAndRunNext children p code).map ChildProcess.pid).Nodup := by
    rw [pids_exitCurrentAndRunNext]
    exact hnodup
  obtain ⟨-, child, hfind, hpid, -⟩ := find?_zombie_after_exit code hp hp63
  have hnone : ((exitCurrentAndRunNext children p code).eraseP fun c => c.isZombie && waitsFor p c).any
      (waitsFor p) = false := by
    rw [List.any_eq_false]
    intro c hc hwait
    exact pid_ne_of_mem_eraseP hnodup' hfind hc (((waitsFor_iff hp63 c).mp hwait).trans hpid.symm)
  refine ⟨_, sysWait4_after_exit code hp hp63 hptr hmapped, ?_⟩
  rw [sysWait4, if_neg (by simp), hnone]
  rfl

theorem wait4_reports_fatal_signal_as_128_minus_signal {children : List ChildProcess} {p ptr : Nat}
    {mapped : Nat → Bool} {flags : Nat} {errno : BitVec 32}
    (hnodup : (children.map ChildProcess.pid).Nodup) (hp : p ∈ children.map ChildProcess.pid)
    (hp63 : p < 2 ^ 63) (hptr : ptr ≠ 0) (hmapped : mapped ptr = true)
    (htrap : trapExitCode flags = some errno) :
    ∃ s, s ∈ [2, 4, 6, 8, 9, 11] ∧ contains flags (sigBit s) = true ∧
      (∃ rest, sysWait4 (exitCurrentAndRunNext children p errno) p ptr 0 mapped =
          some (rest, some errno, .returns p) ∧
        sysWait4 rest p ptr 0 mapped = some (rest, none, .returns echild)) ∧
      wifsignaled errno = true ∧ wtermsig errno = BitVec.ofNat 32 (128 - s) ∧
      wtermsig errno ≠ BitVec.ofNat 32 s := by
  obtain ⟨⟨_, msg⟩, herr, rfl⟩ := Option.map_eq_some_iff.mp htrap
  obtain ⟨s, hs, hbit, rfl⟩ := checkError_eq_some herr
  have hbound : 0 < s ∧ s ≤ 11 := by
    simp only [List.mem_cons, List.not_mem_nil, or_false] at hs
    omega
  have hterm := wtermsig_neg hbound.1 (by omega)
  refine ⟨s, hs, hbit, sysWait4_after_exit_once _ hnodup hp hp63 hptr hmapped,
    wifsignaled_fatal s hs, hterm, ?_⟩
  rw [hterm]
  intro heq
  have := congrArg BitVec.toNat heq
  rw [BitVec.toNat_ofNat, BitVec.toNat_ofNat] at this
  omega

/-- A child that a segmentation fault ends, waited for by its pid. -/
theorem segfault_child_reports_signal_117 :
    ∃ s, s ∈ [2, 4, 6, 8, 9, 11] ∧ contains sigsegv (sigBit s) = true ∧
      (∃ rest, sysWait4 (exitCurrentAndRunNext [⟨5, false, 0⟩] 5 (-11)) 5 0x1000 0
          (fun _ => true) = some (rest, some (-11), .returns 5) ∧
        sysWait4 rest 5 0x1000 0 (fun _ => true) = some (rest, none, .returns echild)) ∧
      wifsignaled (-11) = true ∧ wtermsig (-11) = BitVec.ofNat 32 (128 - s) ∧
      wtermsig (-11) ≠ BitVec.ofNat 32 s :=
  @wait4_reports_fatal_signal_as_128_minus_signal [⟨5, false, 0⟩] 5 0x1000 (fun _ => true) sigsegv
    (-11) (by decide) (by simp) (by decide) (by decide) rfl (by decide)

end OsKernel.Task

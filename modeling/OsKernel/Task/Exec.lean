import OsKernel.Task.Process
import OsKernel.Mm.Loader
import OsKernel.Fs.Fcntl

/-! # `exec` and `sys_execve`

`ProcessControlBlock::exec` asserts a single thread, puts a bare address space
in place of the old one, loads the file with `from_elf`, sets both heap bounds
to the new heap base, gives the main thread a new user stack and trap context,
and builds the stack of `argv`, `envp` and `auxv`.  Nothing else of the process
changes: the descriptor table, with the `cloexec` flags of its descriptors, the
signal actions, the mask and the pending signals stay as they are.  Malformed
contents panic in `from_elf`, when the old address space is gone already.

`sys_execve` runs on the strings that `translated_str` reads.  Its file-system
calls are the fields of `ExecFiles`; the trap context that `exec` writes to the
main thread's frame is returned with that frame, and `self_exe` with them.
-/

namespace OsKernel.Task

open OsKernel.Mm OsKernel.Fs StateLoop Fallible

/-- The values of the running kernel that `exec` reads: the frames of the two
    trampolines, `KERNEL_SPACE.token()`, the top of the main thread's kernel
    stack, the address of `trap_handler` and the current `sstatus`. -/
structure KernelCx where
  strampoline : Nat
  ssignaltrampoline : Nat
  kernelSatp : Nat
  kernelSp : Nat
  trapHandler : Nat
  sstatus : Nat

/-- Bit `SPP` of `sstatus`, which `set_spp(SPP::User)` clears. -/
def sppBit : Nat := 1 <<< 8

/-- `TrapContext::app_init_context`. -/
def appInitContext (entry sp kernelSatp kernelSp trapHandler sstatus : Nat) : TrapContext where
  x := fun i => if i = 2 then sp else 0
  sstatus := sstatus &&& (2 ^ 64 - 1 - sppBit)
  sepc := entry
  kernelSatp := kernelSatp
  kernelSp := kernelSp
  trapHandler := trapHandler

/-- What `exec` leaves in the main thread: its `trap_cx_ppn` and the trap
    context written there. -/
structure MainThread where
  trapCxPpn : Nat
  trapCx : TrapContext

/-- What `sys_execve` asks of the file system: `open` at the working inode,
    `get_cwd` and `map_to_kernel_space` of the file opened, and the interpreter
    lookup of `from_elf`.  `none` is a panic. -/
structure ExecFiles (W G : Type) where
  openAt : W → String → Option (Except Int G)
  getCwd : G → Option String
  mapToKernelSpace : G → List UInt8
  openInterp : List UInt8 → Option (List UInt8)

namespace ProcessControlBlockInner

variable {F W G : Type}

/-- `ProcessControlBlock::exec` of the file with bytes `elfData`. -/
def exec (pcb : ProcessControlBlockInner F W) (kcx : KernelCx)
    (openInterp : List UInt8 → Option (List UInt8)) (elfData : List UInt8)
    (argvVec envpVec : List String) :
    StateT Phys Option (ProcessControlBlockInner F W × MainThread) := do
  if pcb.threadCount ≠ 1 then failure
  -- the bare address space stands in for the old one, which is dropped, until
  -- the one of `from_elf` replaces it in turn
  let bare ← MemorySet.newBare
  pcb.memorySet.drop
  let img ← MemorySet.fromElfData kcx.strampoline kcx.ssignaltrampoline openInterp elfData
  bare.drop
  let heapBase := vaFromUsize img.userHeapBase
  let pcb := { pcb with memorySet := img.memorySet, heapBase := heapBase, heapEnd := heapBase }
  -- `get_task(0)`
  let _ ← StateT.lift pcb.tasks.head?.join
  let ms ← allocUserRes pcb.memorySet img.ustackTop 0 true
  let pcb := { pcb with memorySet := ms }
  let trapCxPte ← StateT.lift (ms.translate (floor (vaFromUsize (trapCxBottomFromTid 0))))
  let (userSp, argc, argvBase, envpBase, auxBase) ←
    ms.buildStack img.ustackTop argvVec envpVec img.auxv
  let cx := appInitContext (img.interpEntry.getD img.entryPoint) userSp kcx.kernelSatp
    kcx.kernelSp kcx.trapHandler kcx.sstatus
  let cx := { cx with x := fun i =>
    if i = 10 then argc else if i = 11 then argvBase else if i = 12 then envpBase
    else if i = 13 then auxBase else cx.x i }
  pure (pcb, ⟨ptePpn trapCxPte, cx⟩)

theorem exec_eq_some {pcb pcb' : ProcessControlBlockInner F W} {kcx : KernelCx}
    {openInterp : List UInt8 → Option (List UInt8)} {elfData : List UInt8}
    {argvVec envpVec : List String} {main : MainThread} {p p' : Phys}
    (h : pcb.exec kcx openInterp elfData argvVec envpVec p = some ((pcb', main), p')) :
    ∃ ms base, pcb' = { pcb with memorySet := ms, heapBase := base, heapEnd := base } := by
  unfold exec at h
  by_cases hone : pcb.threadCount = 1
  · rw [if_neg (not_not.mpr hone)] at h
    obtain ⟨_, p₁, -, h⟩ := bind_eq_some.mp h
    obtain ⟨_, p₂, -, h⟩ := bind_eq_some.mp h
    obtain ⟨img, p₃, -, h⟩ := bind_eq_some.mp h
    obtain ⟨_, p₄, -, h⟩ := bind_eq_some.mp h
    obtain ⟨_, p₅, -, h⟩ := bind_eq_some.mp h
    obtain ⟨ms, p₆, -, h⟩ := bind_eq_some.mp h
    obtain ⟨_, p₇, -, h⟩ := bind_eq_some.mp h
    obtain ⟨_, p₈, -, h⟩ := bind_eq_some.mp h
    obtain ⟨hpure, -⟩ := pure_eq_some.mp h
    exact ⟨ms, vaFromUsize img.userHeapBase, (Prod.mk.inj hpure).1.symm⟩
  · rw [if_pos hone] at h
    obtain ⟨⟨⟩, p₁, hfail, -⟩ := bind_eq_some.mp h
    exact absurd hfail failure_ne_some

theorem exec_eq_none_of_malformed {openInterp : List UInt8 → Option (List UInt8)}
    {elfData : List UInt8} (hbad : Malformed openInterp elfData) (pcb : ProcessControlBlockInner F W)
    (kcx : KernelCx) (argvVec envpVec : List String) (p : Phys) :
    pcb.exec kcx openInterp elfData argvVec envpVec p = none := by
  rw [Option.eq_none_iff_forall_ne_some]
  rintro ⟨r, p'⟩ h
  unfold exec at h
  by_cases hone : pcb.threadCount = 1
  · rw [if_neg (not_not.mpr hone)] at h
    obtain ⟨_, p₁, -, h⟩ := bind_eq_some.mp h
    obtain ⟨_, p₂, -, h⟩ := bind_eq_some.mp h
    obtain ⟨img, p₃, himg, -⟩ := bind_eq_some.mp h
    rw [MemorySet.fromElfData_eq_none hbad] at himg
    cases himg
  · rw [if_pos hone] at h
    obtain ⟨⟨⟩, p₁, hfail, -⟩ := bind_eq_some.mp h
    exact absurd hfail failure_ne_some

end ProcessControlBlockInner

/-- The arguments that make `sys_execve` return `SUCCESS` at once. -/
def skippedTests : List String :=
  ["pthread", "socket", "sem_init", "tls_init", "tls_local_exec", "tls_get_new_dtv"]

/-- `contains_substrings`: some string has `target` as a substring. -/
def containsSubstrings (vecOfStrings : List String) (target : String) : Bool :=
  vecOfStrings.any fun s => s.toList.tails.any target.toList.isPrefixOf

/-- The rewrite of `sys_execve` for a path ending in `.sh`: it is run by
    `/busybox sh`. -/
def scriptRewrite (path : String) (argsVec : List String) : String × List String :=
  if ".sh".toList.isSuffixOf path.toList then ("./busybox", "/busybox" :: "sh" :: argsVec)
  else (path, argsVec)

variable {F W G : Type}

/-- `sys_execve`: the process, for a call that ran `exec` the main thread and
    `self_exe`, and the return value. -/
def sysExecve (pcb : ProcessControlBlockInner F W) (kcx : KernelCx) (files : ExecFiles W G)
    (path : String) (argsVec envpVec : List String) :
    StateT Phys Option (ProcessControlBlockInner F W × Option (MainThread × String) × Int) :=
  if skippedTests.any (containsSubstrings argsVec) then pure (pcb, none, success)
  else
    let (path, argsVec) := scriptRewrite path argsVec
    match files.openAt pcb.workPath path with
    | none => failure
    | some (.error errno) => pure (pcb, none, errno)
    | some (.ok file) => do
        let cwd ← StateT.lift (files.getCwd file)
        let argc := argsVec.length
        let (pcb, main) ← pcb.exec kcx files.openInterp (files.mapToKernelSpace file) argsVec envpVec
        pure (pcb, some (main, cwd), argc)

theorem sysExecve_ran {pcb pcb' : ProcessControlBlockInner F W} {kcx : KernelCx}
    {files : ExecFiles W G} {path : String} {argsVec envpVec : List String} {main : MainThread}
    {cwd : String} {ret : Int} {p p' : Phys}
    (h : sysExecve pcb kcx files path argsVec envpVec p = some ((pcb', some (main, cwd), ret), p')) :
    ∃ file p₁, pcb.exec kcx files.openInterp (files.mapToKernelSpace file)
      (scriptRewrite path argsVec).2 envpVec p₁ = some ((pcb', main), p') := by
  unfold sysExecve at h
  split_ifs at h with hskip
  · cases h
  rcases hrw : scriptRewrite path argsVec with ⟨path', args'⟩
  rw [hrw] at h
  dsimp only at h
  cases hopen : files.openAt pcb.workPath path' with
  | none =>
      rw [hopen] at h
      exact absurd h failure_ne_some
  | some r =>
      rw [hopen] at h
      cases r with
      | error errno => cases h
      | ok file =>
          obtain ⟨cwd', p₁, -, h⟩ := bind_eq_some.mp h
          obtain ⟨⟨pcb₁, main₁⟩, p₂, hexec, h⟩ := bind_eq_some.mp h
          obtain ⟨hpure, rfl⟩ := pure_eq_some.mp h
          cases hpure
          exact ⟨file, p₁, hexec⟩

theorem sysExecve_of_open_error {pcb : ProcessControlBlockInner F W} {kcx : KernelCx}
    {files : ExecFiles W G} {path : String} {argsVec envpVec : List String} {errno : Int}
    (hskip : skippedTests.any (containsSubstrings argsVec) = false)
    (hopen : files.openAt pcb.workPath (scriptRewrite path argsVec).1 = some (.error errno))
    (p : Phys) : sysExecve pcb kcx files path argsVec envpVec p = some ((pcb, none, errno), p) := by
  unfold sysExecve
  rw [if_neg (by simp [hskip])]
  rcases hrw : scriptRewrite path argsVec with ⟨path', args'⟩
  rw [hrw] at hopen
  dsimp only
  rw [hopen]
  rfl

/-- After `sys_execve` has run `exec`, the descriptor table is the caller's, with
    every descriptor whose `cloexec` flag is set still in its slot, and so are the
    signal actions, custom handlers included, the mask and the pending signals. -/
theorem execve_keeps_cloexec_descriptors_and_handlers {pcb pcb' : ProcessControlBlockInner (Descriptor F) W}
    {kcx : KernelCx} {files : ExecFiles W G} {path : String} {argsVec envpVec : List String}
    {main : MainThread} {cwd : String} {ret : Int} {p p' : Phys}
    (h : sysExecve pcb kcx files path argsVec envpVec p = some ((pcb', some (main, cwd), ret), p')) :
    pcb'.fdTable = pcb.fdTable ∧ pcb'.signalActions = pcb.signalActions ∧
      pcb'.signalMask = pcb.signalMask ∧ pcb'.signalsPending = pcb.signalsPending := by
  obtain ⟨file, p₁, hexec⟩ := sysExecve_ran h
  obtain ⟨ms, base, rfl⟩ := ProcessControlBlockInner.exec_eq_some hexec
  exact ⟨rfl, rfl, rfl, rfl⟩

/-- On a file whose contents `from_elf` rejects, `sys_execve` does not return an
    errno: it panics, whatever the machine state. -/
theorem execve_panics_on_malformed_elf {pcb : ProcessControlBlockInner F W} {kcx : KernelCx}
    {files : ExecFiles W G} {path : String} {argsVec envpVec : List String} {file : G}
    (hskip : skippedTests.any (containsSubstrings argsVec) = false)
    (hopen : files.openAt pcb.workPath (scriptRewrite path argsVec).1 = some (.ok file))
    (hbad : Malformed files.openInterp (files.mapToKernelSpace file)) (p : Phys) :
    sysExecve pcb kcx files path argsVec envpVec p = none := by
  rw [Option.eq_none_iff_forall_ne_some]
  rintro ⟨r, p'⟩ h
  unfold sysExecve at h
  rw [if_neg (by simp [hskip])] at h
  rcases hrw : scriptRewrite path argsVec with ⟨path', args'⟩
  rw [hrw] at hopen h
  dsimp only at h
  rw [hopen] at h
  obtain ⟨cwd, p₁, -, h⟩ := bind_eq_some.mp h
  obtain ⟨res, p₂, hexec, -⟩ := bind_eq_some.mp h
  rw [ProcessControlBlockInner.exec_eq_none_of_malformed hbad] at hexec
  cases hexec

/-! ## Two runs of `sys_execve` -/

/-- A 64-bit ELF file of 120 bytes: the header, then one loadable segment
    `R | X`, the whole file, at `0x1000`, which is also the entry point. -/
def tinyElf : List UInt8 :=
  Elf.magic ++ [2, 1, 1] ++ List.replicate 9 0 ++
    Elf.leBytes 2 2 ++ Elf.leBytes 2 0xf3 ++ Elf.leBytes 4 1 ++ Elf.leBytes 8 0x1000 ++
    Elf.leBytes 8 64 ++ Elf.leBytes 8 0 ++ Elf.leBytes 4 0 ++ Elf.leBytes 2 64 ++
    Elf.leBytes 2 56 ++ Elf.leBytes 2 1 ++ List.replicate 6 0 ++
    Elf.leBytes 4 1 ++ Elf.leBytes 4 5 ++ Elf.leBytes 8 0 ++ Elf.leBytes 8 0x1000 ++
    Elf.leBytes 8 0x1000 ++ Elf.leBytes 8 120 ++ Elf.leBytes 8 120 ++ Elf.leBytes 8 0x1000

/-- A file system where every path opens one file, whose bytes are `contents` and
    whose working directory is the root, and no interpreter is found. -/
def oneFile (contents : List UInt8) : ExecFiles Unit (List UInt8) where
  openAt := fun _ _ => some (.ok contents)
  getCwd := fun _ => some "/"
  mapToKernelSpace := id
  openInterp := fun _ => none

/-- The trampolines at frames `0x10` and `0x11`. -/
def bootKcx : KernelCx := ⟨0x10, 0x11, 0, 0, 0, 0⟩

/-- The standard streams and, in slot 3, a file opened without `O_CLOEXEC`. -/
def callerTable : FdTable (Descriptor Nat) :=
  FdTable.new [some ⟨false, false, 0⟩, some ⟨false, false, 1⟩, some ⟨false, false, 2⟩,
    some ⟨false, false, 3⟩]

/-- A single-threaded caller with descriptor table `table` and a handler at
    `0x1000` for `SIGUSR1`, whose address space is a bare table on frame `0x7f`,
    below the frames that `Phys.boot 0x80 0x100` hands out. -/
def execCaller (table : FdTable (Descriptor Nat)) : ProcessControlBlockInner (Descriptor Nat) Unit where
  memorySet := ⟨⟨0x7f, [0x7f], fun _ => none, fun _ => none, fun _ => 0⟩, [], [], [], 0, 0⟩
  fdTable := table
  workPath := ()
  signalsPending := 0
  signalMask := 0
  tasks := [some 0]
  heapBase := 0
  heapEnd := 0
  signalActions := fun sig => if sig = 10 then ⟨0x1000, 0, 0, 0⟩ else SignalAction.default
  exitSignal := 0

/-- `fcntl(3, F_SETFD, FD_CLOEXEC)`, then `execve("/bin/true")` of `tinyElf`:
    `exec` runs, and descriptor 3 is still open with its flag set, and the
    handler of `SIGUSR1` is still installed. -/
theorem cloexec_descriptor_survives_execve :
    ∃ t pcb' main cwd ret p',
      sysFcntl callerTable 3 2 fdCloexec = some (t, success) ∧
      t.getRef 3 = .ok ⟨true, false, 3⟩ ∧
      sysExecve (execCaller t) bootKcx (oneFile tinyElf) "/bin/true" [] [] (Phys.boot 0x80 0x100) =
        some ((pcb', some (main, cwd), ret), p') ∧
      (pcb'.fdTable = (execCaller t).fdTable ∧ pcb'.signalActions = (execCaller t).signalActions ∧
        pcb'.signalMask = (execCaller t).signalMask ∧
        pcb'.signalsPending = (execCaller t).signalsPending) ∧
      pcb'.fdTable.getRef 3 = .ok ⟨true, false, 3⟩ ∧ (pcb'.signalActions 10).saHandler = 0x1000 := by
  have hran : (sysExecve (execCaller (callerTable.setSlot 3 ⟨true, false, 3⟩)) bootKcx
      (oneFile tinyElf) "/bin/true" [] [] (Phys.boot 0x80 0x100)).any
      (fun r => r.1.2.1.isSome) = true := by
    decide +kernel
  obtain ⟨⟨⟨pcb', res, ret⟩, p'⟩, hrun, hres⟩ := (Option.any_eq_true _ _).mp hran
  obtain ⟨⟨main, cwd⟩, rfl⟩ := Option.isSome_iff_exists.mp hres
  have hkeep := execve_keeps_cloexec_descriptors_and_handlers hrun
  refine ⟨_, pcb', main, cwd, ret, p', rfl, rfl, hrun, hkeep, ?_, ?_⟩
  · rw [hkeep.1]
    rfl
  · rw [hkeep.2.1]
    rfl

/-- A shell script: its bytes do not start with the ELF magic number. -/
def shellScript : List UInt8 :=
  "#!/bin/sh\nexit 0\n".toUTF8.toList

/-- `execve("/bin/run")` of a shell script stops the kernel instead of returning
    an errno. -/
theorem execve_of_shell_script_panics :
    skippedTests.any (containsSubstrings []) = false ∧
      (oneFile shellScript).openAt (execCaller callerTable).workPath
        (scriptRewrite "/bin/run" []).1 = some (.ok shellScript) ∧
      Malformed (oneFile shellScript).openInterp ((oneFile shellScript).mapToKernelSpace shellScript) ∧
      sysExecve (execCaller callerTable) bootKcx (oneFile shellScript) "/bin/run" [] []
        (Phys.boot 0x80 0x100) = none := by
  have hbad : Malformed (oneFile shellScript).openInterp shellScript :=
    .header (Elf.ElfFile.new_ne_ok_of_not_magic (by decide +kernel))
  exact ⟨rfl, rfl, hbad, execve_panics_on_malformed_elf rfl rfl hbad _⟩

end OsKernel.Task

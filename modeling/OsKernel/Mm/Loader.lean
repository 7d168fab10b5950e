import OsKernel.Mm.MemorySet
import OsKernel.Mm.Elf

/-! # Loading an ELF file and building the user stack

`from_elf`, `load_interp` and `build_stack` of `mm/memory_set.rs`, on the bytes
of the file and through the parser of `Mm.Elf`: each `unwrap` of a parse and
each slice of the input is a panic when it fails.  `ROOT_FD.open` of the
interpreter's path is the parameter `openInterp`, which gives the bytes that
`map_to_kernel_space` maps of the file it opens, or `none` for an `Err`, on
which `from_elf` panics.  The kernel-space mapping of a file and its removal
are left out.

`build_stack` writes through `translated_refmut`: the page of each address must
have an entry in the new page table, so arguments that do not fit in the user
stack stop the kernel too.

On a file whose program headers all parse, and that has no `PT_INTERP` header,
the loop on the bytes builds the address space and the heap base that
`MemorySet.fromElf` builds from the parsed headers (`fromElfData_refines_fromElf`).
-/

namespace OsKernel.Mm

open Fallible StateLoop

/-- `AuxHeader`. -/
structure AuxHeader where
  type_ : Nat
  value : Nat
  deriving DecidableEq, Repr

def atNull : Nat := 0
def atPhdr : Nat := 3
def atPhent : Nat := 4
def atPhnum : Nat := 5
def atPagesize : Nat := 6
def atBase : Nat := 7
def atFlags : Nat := 8
def atEntry : Nat := 9
def atNoelf : Nat := 10
def atUid : Nat := 11
def atEuid : Nat := 12
def atGid : Nat := 13
def atEgid : Nat := 14
def atPlatform : Nat := 15
def atHwcap : Nat := 16
def atClktck : Nat := 17
def atSecure : Nat := 23
def atRandom : Nat := 25
def atExecfn : Nat := 31

/-- `CLOCK_FREQ` of the QEMU board. -/
def clockFreq : Nat := 12500000
def dynBase : Nat := 0x6000_0000

/-- The `MapPermission` of a segment: `U`, and `R`, `W`, `X` from its flags. -/
def mapPermOf (flags : Nat) : Nat :=
  let perm := pteU
  let perm := if Elf.Flags.isRead flags then perm ||| pteR else perm
  let perm := if Elf.Flags.isWrite flags then perm ||| pteW else perm
  if Elf.Flags.isExecute flags then perm ||| pteX else perm

/-- What `from_elf` returns. -/
structure ElfImage where
  memorySet : MemorySet
  userHeapBase : Nat
  ustackTop : Nat
  entryPoint : Nat
  auxv : List AuxHeader
  interpEntry : Option Nat

/-- What the loop of `from_elf` over the program headers carries. -/
structure LoadState where
  memorySet : MemorySet
  maxEndVpn : Nat
  headVa : Nat
  interpEntry : Option Nat
  interpBase : Option Nat

namespace MemorySet

/-- The `Type::Load` branch that `from_elf` and `load_interp` share, for the
    segment `[start_addr, end_addr)`: map it with the segment's permissions and
    copy `input[offset .. offset + file_size]` in from its page offset.  The
    area's `vpn_range` is returned for `from_elf`. -/
def loadSegment (ms : MemorySet) (input : List UInt8) (ph : Elf.ProgramHeader)
    (startAddr endAddr : Nat) : StateT Phys Option (MemorySet × VPNRange) := do
  let startVa := vaFromUsize startAddr
  let endVa := vaFromUsize endAddr
  let pageOff := pageOffset startVa
  let mapArea ← StateT.lift (MapArea.new startVa endVa .framed (mapPermOf ph.flags))
  let data ← StateT.lift (slice input ph.offset (wrappingAdd ph.offset ph.fileSize))
  let ms ← if pageOff = 0 then ms.push mapArea (some data)
    else ms.pushWithOffset mapArea pageOff (some data)
  pure (ms, mapArea.vpnRange)

/-- One program header of `load_interp`: segments are loaded `DYN_BASE` higher,
    and an interpreter of the interpreter panics. -/
def loadInterpStep (elf : Elf.ElfFile) (ms : MemorySet) (i : Nat) :
    StateT Phys Option MemorySet := do
  let ph ← StateT.lift (unwrap (elf.programHeader i))
  let typ ← StateT.lift ph.getType.toOption
  if typ = .load then
    let (ms, _) ← ms.loadSegment elf.input ph (wrappingAdd ph.virtualAddr dynBase)
      (wrappingAdd (wrappingAdd ph.virtualAddr ph.memSize) dynBase)
    pure ms
  else if typ = .interp then failure
  else pure ms

/-- `load_interp`: the interpreter's entry and base.  Its `head_va` is never
    read, so it is left out. -/
def loadInterp (ms : MemorySet) (elfData : List UInt8) :
    StateT Phys Option (MemorySet × Nat × Nat) := do
  let elf ← StateT.lift (unwrap (Elf.ElfFile.new elfData))
  if elf.header.magic ≠ Elf.magic then failure
  let interpBase := dynBase
  let interpEntry := wrappingAdd elf.header.entryPoint interpBase
  let ms ← (List.range elf.header.phCount).foldlM (loadInterpStep elf) ms
  pure (ms, interpEntry, interpBase)

/-- The path of a `PT_INTERP` header: `input[offset .. offset + file_size - 1]`,
    without the terminating NUL. -/
def interpPath (elf : Elf.ElfFile) (ph : Elf.ProgramHeader) : Option (List UInt8) :=
  slice elf.input ph.offset (wrappingSub (wrappingAdd ph.offset ph.fileSize) 1)

/-- The body of the loop of `from_elf` for a program header of type `typ`. -/
def fromElfBranch (elf : Elf.ElfFile) (openInterp : List UInt8 → Option (List UInt8))
    (st : LoadState) (ph : Elf.ProgramHeader) (typ : Elf.ProgramType) :
    StateT Phys Option LoadState :=
  if typ = .load then do
    let headVa := if st.headVa = 0 then vaFromUsize ph.virtualAddr else st.headVa
    let (ms, range) ← st.memorySet.loadSegment elf.input ph ph.virtualAddr
      (wrappingAdd ph.virtualAddr ph.memSize)
    pure { st with memorySet := ms, maxEndVpn := range.r, headVa := headVa }
  else if typ = .interp then do
    let path ← StateT.lift (interpPath elf ph)
    match openInterp path with
    | some elfData =>
        let (ms, entry, base) ← st.memorySet.loadInterp elfData
        pure { st with memorySet := ms, interpEntry := some entry, interpBase := some base }
    | none => failure
  else pure st

/-- One program header of `from_elf`. -/
def fromElfStep (elf : Elf.ElfFile) (openInterp : List UInt8 → Option (List UInt8))
    (st : LoadState) (i : Nat) : StateT Phys Option LoadState := do
  let ph ← StateT.lift (unwrap (elf.programHeader i))
  let typ ← StateT.lift ph.getType.toOption
  fromElfBranch elf openInterp st ph typ

/-- `from_elf` on the bytes of the file. -/
def fromElfData (strampoline ssignaltrampoline : Nat) (openInterp : List UInt8 → Option (List UInt8))
    (elfData : List UInt8) : StateT Phys Option ElfImage := do
  let ms ← newBare
  let ms ← ms.mapTrampoline strampoline
  let ms ← ms.mapSignaltrampoline ssignaltrampoline
  let elf ← StateT.lift (unwrap (Elf.ElfFile.new elfData))
  let header := elf.header
  let auxv : List AuxHeader := [⟨atPhent, header.phEntrySize⟩, ⟨atPhnum, header.phCount⟩,
    ⟨atPagesize, pageSize⟩, ⟨atFlags, 0⟩, ⟨atEntry, header.entryPoint⟩, ⟨atUid, 0⟩,
    ⟨atEuid, 0⟩, ⟨atGid, 0⟩, ⟨atEgid, 0⟩, ⟨atPlatform, 0⟩, ⟨atHwcap, 0⟩,
    ⟨atClktck, clockFreq⟩, ⟨atSecure, 0⟩, ⟨atNoelf, 0x112d⟩]
  if header.magic ≠ Elf.magic then failure
  let st ← (List.range header.phCount).foldlM (fromElfStep elf openInterp) ⟨ms, 0, 0, none, none⟩
  let auxv := auxv ++ [⟨atBase, st.interpBase.getD 0⟩,
    ⟨atPhdr, wrappingAdd st.headVa header.phOffset⟩]
  let userHeapBase := (st.maxEndVpn <<< 12) + pageSize
  pure ⟨st.memorySet, userHeapBase, stackTop, header.entryPoint, auxv, st.interpEntry⟩

/-! ## `build_stack` -/

/-- `*translated_refmut(token, va as *mut T) = value`, with the bytes of
    `value`: the page of `va` must have an entry, and `get_mut` of the null
    address panics.  Every write of `build_stack` is aligned to its size, so it
    stays in one frame. -/
def writeUser (ms : MemorySet) (va : Nat) (bytes : List UInt8) : StateT Phys Option Unit := do
  let pa ← StateT.lift (ms.pageTable.translateVa (vaFromUsize va))
  if pa = 0 then failure
  writeBytes (pa / pageSize) (pa % pageSize) bytes

/-- The bytes of a string written one by one from `p` on, each through its own
    translation. -/
def writeUserBytes (ms : MemorySet) : Nat → List UInt8 → StateT Phys Option Unit
  | _, [] => pure ()
  | p, c :: cs => do
      ms.writeUser p [c]
      writeUserBytes ms (p + 1) cs

/-- A run of `usize` values from `addr` on. -/
def writeUsizes (ms : MemorySet) : Nat → List Nat → StateT Phys Option Unit
  | _, [] => pure ()
  | addr, v :: vs => do
      ms.writeUser addr (Elf.leBytes 8 v)
      writeUsizes ms (addr + 8) vs

/-- The closure `push_stack`: each string and its NUL below `user_sp`, in order,
    and the array of their addresses, ended by 0. -/
def pushStack (ms : MemorySet) : List String → Nat → StateT Phys Option (List Nat × Nat)
  | [], userSp => pure ([0], userSp)
  | parm :: parms, userSp => do
      let bytes := parm.toUTF8.toList
      let at_ := wrappingSub userSp (bytes.length + 1)
      ms.writeUserBytes at_ (bytes ++ [0])
      let (ptrs, userSp) ← pushStack ms parms at_
      pure (at_ :: ptrs, userSp)

/-- `build_stack`: `(user_sp, argc, argv_base, envp_base, aux_base)`. -/
def buildStack (ms : MemorySet) (userSp : Nat) (argvVec envpVec : List String)
    (auxvVec : List AuxHeader) : StateT Phys Option (Nat × Nat × Nat × Nat × Nat) := do
  let envpVec := envpVec ++ ["PATH=/:/bin/"]
  let userSp := wrappingSub userSp 16
  let (envp, userSp) ← ms.pushStack envpVec userSp
  let userSp := userSp - userSp % 8
  let argc := argvVec.length
  let (argv, userSp) ← ms.pushStack argvVec userSp
  let userSp := userSp - userSp % 8
  let platform := "RISC-V64".toUTF8.toList
  let userSp := wrappingSub userSp (platform.length + 1)
  let userSp := userSp - userSp % 8
  ms.writeUserBytes userSp (platform ++ [0])
  -- sixteen bytes that stand for random ones
  let userSp := wrappingSub userSp 16
  let auxvVec := auxvVec ++ [⟨atRandom, userSp⟩]
  ms.writeUsizes userSp [0x01020304050607, 0x08090a0b0c0d0e0f]
  let userSp := userSp - userSp % 16
  let execfn ← StateT.lift argv.head?
  let auxvVec := auxvVec ++ [⟨atExecfn, execfn⟩, ⟨atNull, 0⟩]
  let userSp := wrappingSub userSp (auxvVec.length * 16)
  let auxBase := userSp
  -- each entry is its type and then its value
  ms.writeUsizes auxBase (auxvVec.flatMap fun aux => [aux.type_, aux.value])
  let userSp := wrappingSub userSp (envp.length * 8)
  let envpBase := userSp
  ms.writeUsizes envpBase envp
  let userSp := wrappingSub userSp (argv.length * 8)
  let argvBase := userSp
  ms.writeUsizes argvBase argv
  let userSp := wrappingSub userSp 8
  ms.writeUsizes userSp [argc]
  pure (userSp, argc, argvBase, envpBase, auxBase)

/-! ### Where `sp` ends

Below the padding to 16 bytes the code steps down over the auxiliary vector,
then over `envp.len() + 1` pointers (with the `PATH` entry and the null),
`argv.len() + 1` pointers and `argc`, all of 8 bytes: `sp` is 16-aligned only
when `argv.len() + envp.len()` is even. -/

theorem wrappingSub_stack_mod {base auxLen envpLen argvLen : Nat} (hbase : base % 16 = 0) :
    wrappingSub (wrappingSub (wrappingSub (wrappingSub base (auxLen * 16)) (envpLen * 8))
      (argvLen * 8)) 8 % 16 = 8 * ((envpLen + argvLen + 1) % 2) := by
  simp only [wrappingSub_mod_sixteen]
  omega

theorem pushStack_length {ms : MemorySet} :
    ∀ {parms : List String} {userSp : Nat} {p p' : Phys} {ptrs : List Nat} {sp : Nat},
      ms.pushStack parms userSp p = some ((ptrs, sp), p') → ptrs.length = parms.length + 1
  | [], _, _, _, _, _, h => by
      obtain ⟨hpair, -⟩ := pure_eq_some.mp h
      cases hpair
      rfl
  | parm :: parms, userSp, p, p', ptrs, sp, h => by
      rw [pushStack] at h
      obtain ⟨⟨⟩, p₁, -, h⟩ := bind_eq_some.mp h
      obtain ⟨⟨rest, sp₁⟩, p₂, hrest, h⟩ := bind_eq_some.mp h
      obtain ⟨hpair, -⟩ := pure_eq_some.mp h
      cases hpair
      simp [pushStack_length hrest]

/-- Every `sp` that `build_stack` returns is 8 bytes off a 16-byte boundary
    when `argv.len() + envp.len()` is odd, whatever the stack top and the
    auxiliary vector. -/
theorem buildStack_sp_mod {ms : MemorySet} {top : Nat} {argvVec envpVec : List String}
    {auxvVec : List AuxHeader} {p p' : Phys} {r : Nat × Nat × Nat × Nat × Nat}
    (h : ms.buildStack top argvVec envpVec auxvVec p = some (r, p')) :
    r.1 % 16 = 8 * ((argvVec.length + envpVec.length) % 2) := by
  unfold buildStack at h
  obtain ⟨⟨envp, sp₁⟩, p₁, henvp, h⟩ := bind_eq_some.mp h
  obtain ⟨⟨argv, sp₂⟩, p₂, hargv, h⟩ := bind_eq_some.mp h
  obtain ⟨⟨⟩, p₃, -, h⟩ := bind_eq_some.mp h
  obtain ⟨⟨⟩, p₄, -, h⟩ := bind_eq_some.mp h
  obtain ⟨execfn, p₅, -, h⟩ := bind_eq_some.mp h
  obtain ⟨⟨⟩, p₆, -, h⟩ := bind_eq_some.mp h
  obtain ⟨⟨⟩, p₇, -, h⟩ := bind_eq_some.mp h
  obtain ⟨⟨⟩, p₈, -, h⟩ := bind_eq_some.mp h
  obtain ⟨⟨⟩, p₉, -, h⟩ := bind_eq_some.mp h
  obtain ⟨rfl, -⟩ := pure_eq_some.mp h
  have hne := pushStack_length henvp
  have hna := pushStack_length hargv
  simp only [List.length_append, List.length_singleton] at hne
  have hbase : ∀ x, (x - x % 16) % 16 = 0 := fun x => by omega
  dsimp only
  rw [wrappingSub_stack_mod (hbase _), hne, hna]
  omega

/-- A new address space with one page of user stack below `USER_STACK_TOP`. -/
def oneStackPage : StateT Phys Option MemorySet := do
  let ms ← newBare
  ms.insertFramedArea (stackTop - pageSize) stackTop (pteR ||| pteW ||| pteU)

/-- `execve("/bin/true", ["/bin/true"], [])`: one argument and no environment
    leave `sp` 8 bytes off a 16-byte boundary. -/
theorem buildStack_misaligns_one_argument :
    ∃ ms p₁ r p', oneStackPage (Phys.boot 0x80 0x100) = some (ms, p₁) ∧
      ms.buildStack stackTop ["/bin/true"] [] [] p₁ = some (r, p') ∧ r.1 % 16 = 8 := by
  have hran : ((oneStackPage >>= fun ms => ms.buildStack stackTop ["/bin/true"] [] [])
      (Phys.boot 0x80 0x100)).isSome = true := by
    decide +kernel
  obtain ⟨⟨r, p'⟩, hrun⟩ := Option.isSome_iff_exists.mp hran
  obtain ⟨ms, p₁, hms, hbuild⟩ := bind_eq_some.mp hrun
  exact ⟨ms, p₁, r, p', hms, hbuild, buildStack_sp_mod hbuild⟩

/-! ## Where `from_elf` stops the kernel -/

theorem slice_eq_none {data : List UInt8} {lo hi : Nat} (h : ¬ (lo ≤ hi ∧ hi ≤ data.length)) :
    slice data lo hi = none :=
  if_neg h

theorem loadSegment_eq_none_of_past_end {ms : MemorySet} {input : List UInt8}
    {ph : Elf.ProgramHeader} {startAddr endAddr : Nat}
    (hend : input.length < ph.offset + ph.fileSize) (hfit : ph.offset + ph.fileSize < 2 ^ 64)
    (p : Phys) : ms.loadSegment input ph startAddr endAddr p = none := by
  have hslice : slice input ph.offset (wrappingAdd ph.offset ph.fileSize) = none := by
    apply slice_eq_none
    rw [wrappingAdd, Nat.mod_eq_of_lt hfit]
    omega
  rw [Option.eq_none_iff_forall_ne_some]
  rintro ⟨r, p'⟩ h
  obtain ⟨area, p₁, -, h⟩ := bind_eq_some.mp h
  obtain ⟨data, p₂, hdata, -⟩ := bind_eq_some.mp h
  rw [lift_eq_some, hslice] at hdata
  cases hdata.1

theorem fromElfStep_eq_branch {elf : Elf.ElfFile} {openInterp : List UInt8 → Option (List UInt8)}
    {i : Nat} {ph : Elf.ProgramHeader} {typ : Elf.ProgramType}
    (hph : elf.programHeader i = some (.ok ph)) (htyp : ph.getType.toOption = some typ)
    (st : LoadState) : fromElfStep elf openInterp st i = fromElfBranch elf openInterp st ph typ := by
  rw [fromElfStep, unwrap_eq_some.mpr hph, lift_some_bind, htyp, lift_some_bind]

theorem fromElfStep_eq_none_of_segment {elf : Elf.ElfFile}
    {openInterp : List UInt8 → Option (List UInt8)} {i : Nat} {ph : Elf.ProgramHeader}
    (hph : elf.programHeader i = some (.ok ph)) (hload : ph.getType = .ok .load)
    (hend : elf.input.length < ph.offset + ph.fileSize) (hfit : ph.offset + ph.fileSize < 2 ^ 64)
    (st : LoadState) (p : Phys) : fromElfStep elf openInterp st i p = none := by
  rw [fromElfStep_eq_branch hph (by rw [hload]; rfl), fromElfBranch, if_pos rfl]
  apply bind_eq_none_of_eq_none
  exact loadSegment_eq_none_of_past_end hend hfit _

theorem fromElfStep_eq_none_of_interp {elf : Elf.ElfFile}
    {openInterp : List UInt8 → Option (List UInt8)} {i : Nat} {ph : Elf.ProgramHeader}
    (hph : elf.programHeader i = some (.ok ph)) (hinterp : ph.getType = .ok .interp)
    (hmissing : ∀ path, interpPath elf ph = some path → openInterp path = none)
    (st : LoadState) (p : Phys) : fromElfStep elf openInterp st i p = none := by
  rw [fromElfStep_eq_branch hph (by rw [hinterp]; rfl), fromElfBranch, if_neg (by decide),
    if_pos rfl]
  rw [Option.eq_none_iff_forall_ne_some]
  rintro ⟨st', p'⟩ h
  obtain ⟨path, p₁, hpath, h⟩ := bind_eq_some.mp h
  rw [lift_eq_some] at hpath
  rw [hmissing path hpath.1] at h
  exact failure_ne_some h

end MemorySet

/-- The file contents on which `from_elf` stops the kernel: no header that
    `ElfFile::new` accepts; a loadable segment whose `offset + file_size` runs
    past the end of the file; a `PT_INTERP` header whose path `ROOT_FD.open`
    does not find. -/
inductive Malformed (openInterp : List UInt8 → Option (List UInt8)) (input : List UInt8) : Prop
  | header (hnew : ∀ elf, Elf.ElfFile.new input ≠ some (.ok elf))
  | segment {elf : Elf.ElfFile} {i : Nat} {ph : Elf.ProgramHeader}
      (hnew : Elf.ElfFile.new input = some (.ok elf)) (hi : i < elf.header.phCount)
      (hph : elf.programHeader i = some (.ok ph)) (hload : ph.getType = .ok .load)
      (hend : input.length < ph.offset + ph.fileSize) (hfit : ph.offset + ph.fileSize < 2 ^ 64)
  | interp {elf : Elf.ElfFile} {i : Nat} {ph : Elf.ProgramHeader}
      (hnew : Elf.ElfFile.new input = some (.ok elf)) (hi : i < elf.header.phCount)
      (hph : elf.programHeader i = some (.ok ph)) (hinterp : ph.getType = .ok .interp)
      (hmissing : ∀ path, MemorySet.interpPath elf ph = some path → openInterp path = none)

namespace MemorySet

theorem fromElfData_eq_none_of_not_elf {openInterp : List UInt8 → Option (List UInt8)}
    {input : List UInt8} (hnew : ∀ elf, Elf.ElfFile.new input ≠ some (.ok elf))
    (strampoline ssignaltrampoline : Nat) (p : Phys) :
    fromElfData strampoline ssignaltrampoline openInterp input p = none := by
  rw [Option.eq_none_iff_forall_ne_some]
  rintro ⟨img, p'⟩ h
  obtain ⟨ms₀, p₁, -, h⟩ := bind_eq_some.mp h
  obtain ⟨ms₁, p₂, -, h⟩ := bind_eq_some.mp h
  obtain ⟨ms₂, p₃, -, h⟩ := bind_eq_some.mp h
  obtain ⟨elf, p₄, helf, -⟩ := bind_eq_some.mp h
  rw [lift_eq_some, unwrap_eq_some] at helf
  exact hnew elf helf.1

theorem fromElfData_eq_none_of_step {openInterp : List UInt8 → Option (List UInt8)}
    {input : List UInt8} {elf : Elf.ElfFile} {i : Nat}
    (hnew : Elf.ElfFile.new input = some (.ok elf)) (hi : i < elf.header.phCount)
    (hstep : ∀ st p, fromElfStep elf openInterp st i p = none)
    (strampoline ssignaltrampoline : Nat) (p : Phys) :
    fromElfData strampoline ssignaltrampoline openInterp input p = none := by
  rw [Option.eq_none_iff_forall_ne_some]
  rintro ⟨img, p'⟩ h
  obtain ⟨ms₀, p₁, -, h⟩ := bind_eq_some.mp h
  obtain ⟨ms₁, p₂, -, h⟩ := bind_eq_some.mp h
  obtain ⟨ms₂, p₃, -, h⟩ := bind_eq_some.mp h
  obtain ⟨elf', p₄, helf, h⟩ := bind_eq_some.mp h
  rw [lift_eq_some, unwrap_eq_some, hnew] at helf
  obtain ⟨hsame, rfl⟩ := helf
  cases hsame
  -- the magic assertion holds: `ElfFile::new` has checked it
  rw [if_neg (not_not.mpr (Elf.ElfFile.magic_of_new hnew))] at h
  obtain ⟨st, p₅, hloop, -⟩ := bind_eq_some.mp h
  rw [foldlM_eq_none_of_mem (List.mem_range.mpr hi) hstep] at hloop
  cases hloop

theorem fromElfData_eq_none {openInterp : List UInt8 → Option (List UInt8)} {input : List UInt8}
    (hbad : Malformed openInterp input) (strampoline ssignaltrampoline : Nat) (p : Phys) :
    fromElfData strampoline ssignaltrampoline openInterp input p = none := by
  cases hbad with
  | header hnew => exact fromElfData_eq_none_of_not_elf hnew strampoline ssignaltrampoline p
  | @segment elf i ph hnew hi hph hload hend hfit =>
      have hinput : elf.input = input := (Elf.ElfFile.new_eq_ok hnew).1
      exact fromElfData_eq_none_of_step hnew hi
        (fromElfStep_eq_none_of_segment hph hload (hinput ▸ hend) hfit) strampoline ssignaltrampoline p
  | interp hnew hi hph hinterp hmissing =>
      exact fromElfData_eq_none_of_step hnew hi
        (fromElfStep_eq_none_of_interp hph hinterp hmissing) strampoline ssignaltrampoline p

end MemorySet

/-! ## The loop on the bytes refines the loop on the parsed headers -/

theorem and_two_pow_beq_eq_bne_zero (x k : Nat) :
    (x &&& 2 ^ k == 2 ^ k) = (x &&& 2 ^ k != 0) := by
  rw [Nat.and_two_pow]
  cases x.testBit k <;> simp [(Nat.two_pow_pos k).ne]

theorem mapPermOf_eq (ph : MemorySet.ProgramHeader) : mapPermOf ph.flags = ph.mapPerm := by
  have hx := and_two_pow_beq_eq_bne_zero ph.flags 0
  have hw := and_two_pow_beq_eq_bne_zero ph.flags 1
  have hr := and_two_pow_beq_eq_bne_zero ph.flags 2
  simp only [pow_zero, pow_one] at hx hw
  norm_num at hr
  simp only [mapPermOf, MemorySet.ProgramHeader.mapPerm, Elf.Flags.isRead, Elf.Flags.isWrite,
    Elf.Flags.isExecute, Elf.flagR, Elf.flagW, Elf.flagX]
  simp only [hx, hw, hr]

namespace MemorySet

/-- Program header `i` as `fromElf` reads it, or `none` where the loop on the
    bytes panics or loads an interpreter. -/
def parsedHeader (elf : Elf.ElfFile) (i : Nat) : Option ProgramHeader := do
  let ph ← unwrap (elf.programHeader i)
  let typ ← ph.getType.toOption
  if typ = .load then
    let data ← slice elf.input ph.offset (wrappingAdd ph.offset ph.fileSize)
    pure ⟨true, ph.virtualAddr, ph.memSize, ph.flags, data⟩
  else if typ = .interp then none
  else pure ⟨false, ph.virtualAddr, ph.memSize, ph.flags, []⟩

def parsedHeaders (elf : Elf.ElfFile) : Option (List ProgramHeader) :=
  (List.range elf.header.phCount).mapM (parsedHeader elf)

theorem push_or_pushWithOffset {β : Type} (ms : MemorySet) (area : MapArea) (off : Nat)
    (data : Option (List UInt8)) (k : MemorySet → StateT Phys Option β) :
    (if off = 0 then ms.push area data >>= k else ms.pushWithOffset area off data >>= k) =
      ms.pushWithOffset area off data >>= k := by
  by_cases h : off = 0
  · rw [if_pos h, h]
    rfl
  · rw [if_neg h]

theorem loadSegment_eq {ms : MemorySet} {input : List UInt8} {ph : Elf.ProgramHeader}
    {data : List UInt8}
    (hdata : slice input ph.offset (wrappingAdd ph.offset ph.fileSize) = some data)
    (startAddr endAddr : Nat) :
    ms.loadSegment input ph startAddr endAddr = (do
      let area ← StateT.lift (MapArea.new (vaFromUsize startAddr) (vaFromUsize endAddr) .framed
        (mapPermOf ph.flags))
      let ms ← ms.pushWithOffset area (vaFromUsize startAddr % pageSize) (some data)
      pure (ms, area.vpnRange)) := by
  simp only [loadSegment, hdata, pageOffset_eq_mod, push_or_pushWithOffset]
  rfl

/-- One program header: the address space and the last page number that the
    loop on the bytes carries move as the body of the loop of `fromElf` moves
    them on the parsed header. -/
theorem fromElfStep_refines {elf : Elf.ElfFile} {openInterp : List UInt8 → Option (List UInt8)}
    {i : Nat} {mph : ProgramHeader} (hparse : parsedHeader elf i = some mph) (st : LoadState)
    (s : Phys) :
    (fromElfStep elf openInterp st i s).map (fun r => ((r.1.memorySet, r.1.maxEndVpn), r.2)) =
      (if mph.load then do
        let startVa := vaFromUsize mph.virtualAddr
        let area ← StateT.lift (MapArea.new startVa
          (vaFromUsize (wrappingAdd mph.virtualAddr mph.memSize)) .framed mph.mapPerm)
        let ms ← st.memorySet.pushWithOffset area (startVa % pageSize) (some mph.data)
        pure (ms, area.vpnRange.r)
      else pure (st.memorySet, st.maxEndVpn) : StateT Phys Option (MemorySet × Nat)) s := by
  obtain ⟨ph, hph, hparse⟩ := Option.bind_eq_some_iff.mp hparse
  obtain ⟨typ, htyp, hparse⟩ := Option.bind_eq_some_iff.mp hparse
  rw [unwrap_eq_some] at hph
  rw [fromElfStep_eq_branch hph htyp]
  by_cases hload : typ = .load
  · subst hload
    rw [if_pos rfl] at hparse
    obtain ⟨data, hdata, hmph⟩ := Option.bind_eq_some_iff.mp hparse
    cases hmph
    rw [fromElfBranch, if_pos rfl, loadSegment_eq hdata]
    simp only [if_true, ← mapPermOf_eq]
    cases MapArea.new (vaFromUsize ph.virtualAddr) (vaFromUsize (wrappingAdd ph.virtualAddr ph.memSize))
        .framed (mapPermOf ph.flags) with
    | none => rfl
    | some area =>
        rw [lift_some_bind, lift_some_bind, bind_assoc]
        exact map_bind_congr (fun ms s' => rfl) s
  by_cases hinterp : typ = .interp
  · subst hinterp
    rw [if_neg (by decide), if_pos rfl] at hparse
    cases hparse
  · rw [if_neg hload, if_neg hinterp] at hparse
    cases hparse
    rw [fromElfBranch, if_neg hload, if_neg hinterp]
    rfl

/-- `from_elf` on the bytes of a file whose program headers all parse, none of
    them `PT_INTERP`, builds the address space and the heap base that `fromElf`
    builds from its parsed headers, and leaves the same machine state. -/
theorem fromElfData_refines_fromElf {openInterp : List UInt8 → Option (List UInt8)}
    {input : List UInt8} {elf : Elf.ElfFile} {phs : List ProgramHeader}
    (hnew : Elf.ElfFile.new input = some (.ok elf)) (hphs : parsedHeaders elf = some phs)
    (strampoline ssignaltrampoline : Nat) (p : Phys) :
    (fromElfData strampoline ssignaltrampoline openInterp input p).map
        (fun r => ((r.1.memorySet, r.1.userHeapBase), r.2)) =
      fromElf strampoline ssignaltrampoline phs p := by
  rw [fromElfData, fromElf]
  refine map_bind_congr (fun ms₀ p₁ => ?_) p
  refine map_bind_congr (fun ms₁ p₂ => ?_) p₁
  refine map_bind_congr (fun ms₂ p₃ => ?_) p₂
  rw [unwrap_eq_some.mpr hnew, lift_some_bind]
  rw [if_neg (not_not.mpr (Elf.ElfFile.magic_of_new hnew))]
  beta_reduce
  -- the two loops run in lockstep, one program header at a time
  refine map_bind_of_map (fun st : LoadState => (st.memorySet, st.maxEndVpn)) _ ?_
    (fun st s' => rfl)
  refine foldlM_map_of_forall₂ (fun st : LoadState => (st.memorySet, st.maxEndVpn)) ?_ _ _
  exact (forall₂_of_mapM_eq_some hphs).imp fun i mph hparse st s => fromElfStep_refines hparse st s

end MemorySet

end OsKernel.Mm

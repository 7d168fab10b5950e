import OsKernel.Mm.Fork
import OsKernel.Mm.UserCalls
import OsKernel.Fs.FdTable
import OsKernel.Task.Signal
import OsKernel.Lib.Word

/-! # Processes: `new`, `fork` and `brk`

The fields of `ProcessControlBlockInner` that `ProcessControlBlock::new`,
`fork` and `sys_brk` read or write.  `fork` builds the child from fresh pieces:
the address space of `from_existed_user`, `FdTable::new` over a clone of the
parent's slots, the root as working directory, the default signal state, and
the heap bounds `heap_base .. heap_base` whatever the parent's heap holds.  A
file descriptor and a working directory are parameters.
-/

namespace OsKernel.Task

open OsKernel.Mm OsKernel.Fs StateLoop

/-- `SignalFlags::SIGCHLD`. -/
def sigchld : Nat := 1 <<< 16

structure ProcessControlBlockInner (F W : Type) where
  memorySet : MemorySet
  fdTable : FdTable F
  workPath : W
  signalsPending : Nat
  signalMask : Nat
  /-- The threads, by `tid`. -/
  tasks : List (Option Nat)
  heapBase : Nat
  heapEnd : Nat
  signalActions : Nat → SignalAction
  exitSignal : Nat

namespace ProcessControlBlockInner

variable {F W : Type}

def threadCount (pcb : ProcessControlBlockInner F W) : Nat :=
  pcb.tasks.length

/-- `ProcessControlBlock::new` for `initproc`: the address space of `from_elf`
    with the main thread's user stack and trap context, the standard streams
    (`stderr` is a second descriptor of `Stdout`) and the root as working
    directory. -/
def new (strampoline ssignaltrampoline : Nat) (phs : List MemorySet.ProgramHeader)
    (stdin stdout stderr : F) (root : W) : StateT Phys Option (ProcessControlBlockInner F W) := do
  let (ms, uheapBase) ← MemorySet.fromElf strampoline ssignaltrampoline phs
  let ms ← allocUserRes ms stackTop 0 true
  pure ⟨ms, FdTable.initial stdin stdout stderr, root, 0, 0, [some 0], vaFromUsize uheapBase,
    vaFromUsize uheapBase, fun _ => SignalAction.default, 0⟩

/-- `ProcessControlBlock::fork`, up to the child's state: it asserts a single
    thread, and the child's main thread uses the copied user stack and trap
    context. -/
def fork (parent : ProcessControlBlockInner F W) (strampoline ssignaltrampoline : Nat) (root : W) :
    StateT Phys Option (ProcessControlBlockInner F W) := do
  if parent.threadCount ≠ 1 then failure
  let memorySet ← parent.memorySet.fromExistedUser strampoline ssignaltrampoline
  pure ⟨memorySet, parent.fdTable.forkCopy, root, parent.signalsPending, 0, [some 0],
    parent.heapBase, parent.heapBase, fun _ => SignalAction.default, sigchld⟩

/-- `sys_brk` of the current process. -/
def sysBrk (pcb : ProcessControlBlockInner F W) (addr : Nat) :
    StateT Phys Option (ProcessControlBlockInner F W × Int) :=
  if addr = 0 then pure (pcb, toIsize pcb.heapEnd)
  else if addr < pcb.heapBase then pure (pcb, Mm.einval)
  else
    let alignAddr := alignUp addr
    let alignEnd := alignUp pcb.heapEnd
    if addr ≤ alignEnd then pure ({ pcb with heapEnd := vaFromUsize addr }, toIsize alignAddr)
    else do
      let (ms, _) ← pcb.memorySet.mapHeap pcb.heapEnd (vaFromUsize alignAddr)
      pure ({ pcb with memorySet := ms, heapEnd := vaFromUsize alignAddr }, toIsize addr)

/-- The bits `Flags` knows: `MAP_SHARED` to `MAP_UNINITIALIZED`. -/
def mmapFlagBits : Nat :=
  0x01 ||| 0x02 ||| 0x10 ||| 0x20 ||| 0x0100 ||| 0x0800 ||| 0x1000 ||| 0x2000 ||| 0x4000 |||
    0x8000 ||| 0x10000 ||| 0x20000 ||| 0x40000 ||| 0x80000 ||| 0x100000 ||| 0x4000000

/-- `ProcessControlBlockInner::mmap`: `Flags::from_bits(flags).unwrap()`; a file
    mapping reads the whole file of descriptor `fd` with `read_all`, maps
    `min(len, file_len - offset)` bytes and copies from `offset` on.  `prot` is
    not read. -/
def mmap (pcb : ProcessControlBlockInner F W) (readAll : F → List UInt8)
    (startAddr len flags fd offset : Nat) : StateT Phys Option (ProcessControlBlockInner F W × Int) :=
  if flags &&& mmapFlagBits ≠ flags then failure
  else if flags &&& MemorySet.mapAnonymous ≠ 0 then do
    let (ms, addr) ← pcb.memorySet.mmap startAddr len offset [] flags
    pure ({ pcb with memorySet := ms }, addr)
  else
    match pcb.fdTable.getRef fd with
    | .error (.errno e) => pure (pcb, e)
    | .error .panic => failure
    | .ok d =>
        let context := readAll d
        -- `file_len - offset` is taken before the test, and wraps
        let length := min len (Word.sub 64 context.length offset)
        if context.length ≤ offset then pure (pcb, eperm)
        else do
          let (ms, addr) ← pcb.memorySet.mmap startAddr length offset context flags
          pure ({ pcb with memorySet := ms }, addr)

theorem fork_eq_some {parent child : ProcessControlBlockInner F W}
    {strampoline ssignaltrampoline : Nat} {root : W} {p p' : Phys}
    (h : parent.fork strampoline ssignaltrampoline root p = some (child, p')) :
    parent.threadCount = 1 ∧
      parent.memorySet.fromExistedUser strampoline ssignaltrampoline p = some (child.memorySet, p') ∧
      child = ⟨child.memorySet, parent.fdTable.forkCopy, root, parent.signalsPending, 0, [some 0],
        parent.heapBase, parent.heapBase, fun _ => SignalAction.default, sigchld⟩ := by
  unfold fork at h
  by_cases hone : parent.threadCount = 1
  · rw [if_neg (not_not.mpr hone)] at h
    obtain ⟨ms, p₁, hcopy, hpure⟩ := bind_eq_some.mp h
    obtain ⟨rfl, rfl⟩ := pure_eq_some.mp hpure
    exact ⟨hone, hcopy, rfl⟩
  · rw [if_pos hone] at h
    obtain ⟨⟨⟩, p₁, hfail, -⟩ := bind_eq_some.mp h
    exact absurd hfail failure_ne_some

theorem mapHeapLoop_eq_none_of_mapped {ms : MemorySet} {aimAddr currentAddr : Nat} (fuel : Nat)
    (p : Phys) (hlt : currentAddr < aimAddr)
    (hmapped : ms.pageTable.validEntry (floor currentAddr) ≠ none) :
    MemorySet.mapHeapLoop aimAddr fuel ms currentAddr p = none := by
  cases fuel with
  | zero => rfl
  | succ fuel =>
      rw [Option.eq_none_iff_forall_ne_some]
      rintro ⟨ms', p'⟩ h
      unfold MemorySet.mapHeapLoop at h
      rw [if_neg (by omega)] at h
      obtain ⟨frame, p₁, -, hrest⟩ := bind_eq_some.mp h
      obtain ⟨pt, p₂, hmap, -⟩ := bind_eq_some.mp hrest
      exact hmapped (PageTable.map_spec hmap).1

theorem mapHeapLoop_keeps_mapped {aimAddr v : Nat} :
    ∀ (fuel : Nat) (ms : MemorySet) (currentAddr : Nat) (p : Phys) {ms' : MemorySet} {p' : Phys},
      MemorySet.mapHeapLoop aimAddr fuel ms currentAddr p = some (ms', p') →
      ms.pageTable.validEntry v ≠ none → ms'.pageTable.validEntry v ≠ none
  | 0, _, _, _, _, _, h, _ => absurd h failure_ne_some
  | fuel + 1, ms, currentAddr, p, ms', p', h, hv => by
      unfold MemorySet.mapHeapLoop at h
      by_cases hle : aimAddr ≤ currentAddr
      · rw [if_pos hle] at h
        obtain ⟨rfl, -⟩ := pure_eq_some.mp h
        exact hv
      · rw [if_neg hle] at h
        obtain ⟨frame, p₁, -, hrest⟩ := bind_eq_some.mp h
        obtain ⟨pt, p₂, hmap, hrest⟩ := bind_eq_some.mp hrest
        obtain ⟨⟨⟩, p₃, -, hrec⟩ := bind_eq_some.mp hrest
        exact mapHeapLoop_keeps_mapped fuel _ _ p₃ hrec (PageTable.validEntry_ne_none_of_map hmap hv)

theorem mapHeapLoop_maps {aimAddr : Nat} (haim : aimAddr ≤ 2 ^ 39) :
    ∀ (fuel : Nat) (ms : MemorySet) (currentAddr : Nat) (p : Phys) {ms' : MemorySet} {p' : Phys},
      MemorySet.mapHeapLoop aimAddr fuel ms currentAddr p = some (ms', p') →
      ∀ k, currentAddr + k * pageSize < aimAddr →
        ms'.pageTable.validEntry (floor (currentAddr + k * pageSize)) ≠ none
  | 0, _, _, _, _, _, h, _, _ => absurd h failure_ne_some
  | fuel + 1, ms, currentAddr, p, ms', p', h, k, hk => by
      unfold MemorySet.mapHeapLoop at h
      rw [if_neg (by omega)] at h
      obtain ⟨frame, p₁, -, hrest⟩ := bind_eq_some.mp h
      obtain ⟨pt, p₂, hmap, hrest⟩ := bind_eq_some.mp hrest
      obtain ⟨⟨⟩, p₃, -, hrec⟩ := bind_eq_some.mp hrest
      cases k with
      | zero =>
          have hnew : pt.validEntry (floor currentAddr) ≠ none := by
            rw [(PageTable.map_spec hmap).2.1]
            exact Option.some_ne_none _
          simpa using mapHeapLoop_keeps_mapped fuel _ _ p₃ hrec hnew
      | succ k =>
          have hnext : vaFromUsize (currentAddr + pageSize) = currentAddr + pageSize := by
            apply Nat.mod_eq_of_lt
            unfold pageSize at hk ⊢
            omega
          rw [hnext] at hrec
          have hlater := mapHeapLoop_maps haim fuel _ _ p₃ hrec k (by unfold pageSize at hk ⊢; omega)
          rwa [show currentAddr + pageSize + k * pageSize = currentAddr + (k + 1) * pageSize by ring]
            at hlater

theorem sysBrk_grow {pcb pcb₁ : ProcessControlBlockInner F W} {p p₁ : Phys} {g : Nat} {r : Int}
    (h : pcb.sysBrk g p = some ((pcb₁, r), p₁)) (hg0 : g ≠ 0) (hbase : pcb.heapBase ≤ g)
    (hgrow : alignUp pcb.heapEnd < g) :
    ∃ ms, MemorySet.mapHeapLoop (vaFromUsize (alignUp g)) (2 ^ 27 + 1) pcb.memorySet pcb.heapEnd p =
        some (ms, p₁) ∧ pcb₁ = { pcb with memorySet := ms, heapEnd := vaFromUsize (alignUp g) } := by
  unfold sysBrk at h
  rw [if_neg hg0, if_neg (by omega), if_neg (by omega)] at h
  obtain ⟨⟨ms, ret⟩, p₂, hheap, hpure⟩ := bind_eq_some.mp h
  obtain ⟨ms', p₃, hloop, hpure'⟩ := bind_eq_some.mp hheap
  obtain ⟨hms, rfl⟩ := pure_eq_some.mp hpure'
  obtain ⟨hpcb, rfl⟩ := pure_eq_some.mp hpure
  obtain ⟨rfl, -⟩ := Prod.mk.inj hms
  exact ⟨ms', hloop, (Prod.mk.inj hpcb).1.symm⟩

theorem sysBrk_within {pcb : ProcessControlBlockInner F W} {s : Nat} (p : Phys) (hs0 : s ≠ 0)
    (hbase : pcb.heapBase ≤ s) (hin : s ≤ alignUp pcb.heapEnd) :
    pcb.sysBrk s p = some (({ pcb with heapEnd := vaFromUsize s }, toIsize (alignUp s)), p) := by
  unfold sysBrk
  rw [if_neg hs0, if_neg (by omega), if_pos hin]
  rfl

theorem sysBrk_eq_none_of_heapEnd_mapped {pcb : ProcessControlBlockInner F W} {addr : Nat}
    (p : Phys) (hzero : addr ≠ 0) (hbase : pcb.heapBase ≤ addr) (hgrow : alignUp pcb.heapEnd < addr)
    (hlt : pcb.heapEnd < vaFromUsize (alignUp addr))
    (hmapped : pcb.memorySet.pageTable.validEntry (floor pcb.heapEnd) ≠ none) :
    pcb.sysBrk addr p = none := by
  unfold sysBrk
  rw [if_neg hzero, if_neg (by omega), if_neg (by omega)]
  apply bind_eq_none_of_eq_none
  apply bind_eq_none_of_eq_none
  exact mapHeapLoop_eq_none_of_mapped _ p hlt hmapped

theorem alignUp_of_lt {x : Nat} (hx : x + (pageSize - 1) < 2 ^ 64) :
    alignUp x = (x + (pageSize - 1)) / pageSize * pageSize := by
  rw [alignUp, wrappingAdd, Nat.mod_eq_of_lt hx]

/-- A `brk` that grows the heap maps its pages up to the aligned break; a `brk`
    back among them leaves them mapped with `heap_end` inside them; the next
    `brk` past the new aligned break maps from `heap_end` again, and panics on
    the page it finds mapped. -/
theorem brk_grow_shrink_grow_panics {pcb pcb₁ : ProcessControlBlockInner F W} {p p₁ : Phys}
    {g s a : Nat} {r : Int} (hfirst : pcb.sysBrk g p = some ((pcb₁, r), p₁)) (hg0 : g ≠ 0)
    (hgbase : pcb.heapBase ≤ g) (hgrow : alignUp pcb.heapEnd < g) (hg : g + pageSize < 2 ^ 39)
    (hs0 : s ≠ 0) (hsbase : pcb.heapBase ≤ s) (hsend : pcb.heapEnd ≤ s) (hsg : s < alignUp g)
    (ha : alignUp s < a) (hlt : s < vaFromUsize (alignUp a)) :
    ∃ pcb₂, pcb₁.sysBrk s p₁ = some ((pcb₂, toIsize (alignUp s)), p₁) ∧ pcb₂.heapEnd = s ∧
      pcb₂.sysBrk a p₁ = none := by
  obtain ⟨ms, hloop, rfl⟩ := sysBrk_grow hfirst hg0 hgbase hgrow
  have hA : alignUp g = (g + (pageSize - 1)) / pageSize * pageSize :=
    alignUp_of_lt (by unfold pageSize at hg ⊢; omega)
  have hAlt : alignUp g < 2 ^ 39 := by
    rw [hA]
    unfold pageSize at hg ⊢
    omega
  have hvaA : vaFromUsize (alignUp g) = alignUp g := Nat.mod_eq_of_lt hAlt
  have hAA : alignUp (alignUp g) = alignUp g := by
    rw [alignUp_of_lt (by omega), hA]
    unfold pageSize
    omega
  have hvs : vaFromUsize s = s := Nat.mod_eq_of_lt (by omega)
  have hsA : s ≤ alignUp s := by
    rw [alignUp_of_lt (by unfold pageSize; omega)]
    unfold pageSize
    omega
  rw [hvaA] at hloop
  refine ⟨_, sysBrk_within p₁ hs0 hsbase (by simp only [hvaA, hAA]; omega), hvs, ?_⟩
  have hmapped : ms.pageTable.validEntry (floor s) ≠ none := by
    obtain ⟨k, hk, hfloor⟩ : ∃ k, pcb.heapEnd + k * pageSize < alignUp g ∧
        floor (pcb.heapEnd + k * pageSize) = floor s := by
      refine ⟨floor s - floor pcb.heapEnd, ?_, ?_⟩
      · rw [hA]
        unfold floor pageSize at *
        omega
      · unfold floor pageSize
        omega
    rw [← hfloor]
    exact mapHeapLoop_maps (by omega) _ _ _ _ hloop k hk
  exact sysBrk_eq_none_of_heapEnd_mapped p₁ (by omega) (by dsimp only; omega)
    (by dsimp only; rw [hvs]; exact ha) (by dsimp only; rw [hvs]; exact hlt)
    (by dsimp only; rw [hvs]; exact hmapped)

/-- After `fork` of a parent whose heap holds the page at `heap_base`, which
    every `brk` that grows the heap maps first, the child's `brk` past that page
    panics: the child's `heap_end` is `heap_base`, so `map_heap` maps the copied
    page again. -/
theorem fork_child_brk_panics {parent child : ProcessControlBlockInner F W}
    {strampoline ssignaltrampoline addr : Nat} {root : W} {p p' : Phys} {frame : FrameTracker}
    (hready : Fork.ForkReady parent.memorySet p strampoline ssignaltrampoline)
    (hheap : (floor parent.heapBase, frame) ∈ parent.memorySet.heapArea)
    (h : parent.fork strampoline ssignaltrampoline root p = some (child, p'))
    (hzero : addr ≠ 0) (hbase : parent.heapBase ≤ addr) (hgrow : alignUp parent.heapBase < addr)
    (hlt : parent.heapBase < vaFromUsize (alignUp addr)) :
    child.sysBrk addr p' = none := by
  obtain ⟨-, hcopy, hchild⟩ := fork_eq_some h
  obtain ⟨-, -, -, -, -, hheapc, -⟩ := Fork.fromExistedUser_copies hready hcopy
  obtain ⟨c, -, -, hentry, -⟩ := hheapc _ hheap
  rw [hchild]
  exact sysBrk_eq_none_of_heapEnd_mapped p' hzero hbase hgrow hlt (by simp [hentry])

/-- A file mapping panics whenever the length it maps, `min(len, file_len -
    offset)`, is below the offset: the copy loop's first slice is
    `context[offset..length]`. -/
theorem mmap_panics_of_offset_past_length {pcb : ProcessControlBlockInner F W}
    {readAll : F → List UInt8} {d : F} {startAddr len flags fd offset : Nat} (p : Phys)
    (hflags : flags &&& mmapFlagBits = flags) (hfile : flags &&& MemorySet.mapAnonymous = 0)
    (hfd : pcb.fdTable.getRef fd = .ok d) (hsize : (readAll d).length < 2 ^ 64)
    (hoff : offset < (readAll d).length) (hpast : min len ((readAll d).length - offset) < offset) :
    pcb.mmap readAll startAddr len flags fd offset p = none := by
  unfold mmap
  rw [if_neg (not_not.mpr hflags), if_neg (not_not.mpr hfile), hfd]
  dsimp only
  rw [if_neg (Nat.not_le_of_lt hoff), Word.sub_of_le hoff.le hsize]
  apply bind_eq_none_of_eq_none
  exact MemorySet.mmap_eq_none_of_len_lt_offset p hfile hpast

/-- A process whose descriptor 3 is a file of three bytes, on an empty address
    space. -/
def threeByteFilePcb : ProcessControlBlockInner Nat Unit :=
  ⟨⟨⟨0, [], fun _ => none, fun _ => none, fun _ => 0⟩, [], [], [], 0, 0⟩,
    FdTable.new [some 0, some 1, some 2, some 3], (), 0, 0, [some 0], 0, 0,
    fun _ => SignalAction.default, 0⟩

/-- Its contents, `read_all` of descriptor 3. -/
def threeByteFile (d : Nat) : List UInt8 :=
  if d = 3 then [1, 2, 3] else []

/-- `mmap(0, 5, _, MAP_PRIVATE, 3, 2)` of that file maps `min(5, 3 - 2) = 1` byte
    and panics. -/
theorem mmap_of_three_byte_file_panics :
    (0x02 : Nat) &&& mmapFlagBits = 0x02 ∧ (0x02 : Nat) &&& MemorySet.mapAnonymous = 0 ∧
      threeByteFilePcb.fdTable.getRef 3 = .ok 3 ∧ (threeByteFile 3).length < 2 ^ 64 ∧
      2 < (threeByteFile 3).length ∧ min 5 ((threeByteFile 3).length - 2) < 2 ∧
      threeByteFilePcb.mmap threeByteFile 0 5 0x02 3 2 (Phys.boot 0x80 0x100) = none :=
  ⟨by decide, by decide, rfl, by decide, by decide, by decide,
    mmap_panics_of_offset_past_length _ (by decide) (by decide) rfl (by decide) (by decide)
      (by decide)⟩

end ProcessControlBlockInner

/-- `initproc` from one loadable page of text, with the trampolines at frames
    `0x10` and `0x11` on a machine whose free frames are `[0x80, 0x100)`, after
    `brk(0x4000)` grows its heap by the page at `heap_base = 0x3000` and an
    anonymous private `mmap` of one page. -/
def grownParent : Option (ProcessControlBlockInner Nat Nat × Phys) :=
  (do
    let pcb ← ProcessControlBlockInner.new 0x10 0x11 [textSegment] 0 1 2 0
    let (pcb, _) ← pcb.sysBrk 0x4000
    let (ms, _) ← pcb.memorySet.mmap 0 pageSize 0 [] (0x02 ||| MemorySet.mapAnonymous)
    pure { pcb with memorySet := ms }) (Phys.boot 0x80 0x100)

/-- `initproc` from one loadable page of text at `0x1000`, so that
    `heap_base = 0x3000`. -/
def initproc : Option (ProcessControlBlockInner Nat Nat × Phys) :=
  ProcessControlBlockInner.new 0x10 0x11 [textSegment] 0 1 2 0 (Phys.boot 0x80 0x100)

/-- `brk(0x5000)`, `brk(0x3800)`, `brk(0x5000)` from `initproc`: the third call
    maps page 3 again. -/
theorem brk_5000_3800_5000_panics :
    ∃ pcb p pcb₁ p₁ r, initproc = some (pcb, p) ∧ pcb.sysBrk 0x5000 p = some ((pcb₁, r), p₁) ∧
      (0x5000 : Nat) ≠ 0 ∧ pcb.heapBase ≤ 0x5000 ∧ alignUp pcb.heapEnd < 0x5000 ∧
      0x5000 + pageSize < 2 ^ 39 ∧ (0x3800 : Nat) ≠ 0 ∧ pcb.heapBase ≤ 0x3800 ∧
      pcb.heapEnd ≤ 0x3800 ∧ 0x3800 < alignUp 0x5000 ∧ alignUp 0x3800 < 0x5000 ∧
      0x3800 < vaFromUsize (alignUp 0x5000) ∧
      ∃ pcb₂, pcb₁.sysBrk 0x3800 p₁ = some ((pcb₂, toIsize (alignUp 0x3800)), p₁) ∧
        pcb₂.heapEnd = 0x3800 ∧ pcb₂.sysBrk 0x5000 p₁ = none := by
  obtain ⟨⟨pcb, p⟩, hnew⟩ : ∃ r, initproc = some r := Option.isSome_iff_exists.mp (by decide +kernel)
  have hheap : (initproc.map fun r => (r.1.heapBase, r.1.heapEnd)) = some (0x3000, 0x3000) := by
    decide +kernel
  rw [hnew, Option.map_some, Option.some.injEq, Prod.mk.injEq] at hheap
  obtain ⟨hbase, hend⟩ := hheap
  have hgrows : (initproc.bind fun r => r.1.sysBrk 0x5000 r.2).isSome = true := by
    decide +kernel
  rw [hnew, Option.bind_some] at hgrows
  obtain ⟨⟨⟨pcb₁, r⟩, p₁⟩, hfirst⟩ := Option.isSome_iff_exists.mp hgrows
  have hfacts : alignUp 0x3000 < 0x5000 ∧ 0x3800 < alignUp 0x5000 ∧ alignUp 0x3800 < 0x5000 ∧
      0x3800 < vaFromUsize (alignUp 0x5000) := by
    decide
  obtain ⟨h₁, h₂, h₃, h₄⟩ := hfacts
  refine ⟨pcb, p, pcb₁, p₁, r, hnew, hfirst, by decide, by rw [hbase]; decide, by rw [hend]; exact h₁,
    by decide, by decide, by rw [hbase]; decide, by rw [hend]; decide, h₂, h₃, h₄, ?_⟩
  exact ProcessControlBlockInner.brk_grow_shrink_grow_panics hfirst (by decide) (by rw [hbase]; decide)
    (by rw [hend]; exact h₁) (by decide) (by decide) (by rw [hbase]; decide) (by rw [hend]; decide) h₂ h₃ h₄

theorem fork_child_heap_end_breaks_brk :
    ∃ parent p child p' bits bits', grownParent = some (parent, p) ∧
      parent.fork 0x10 0x11 0 p = some (child, p') ∧
      parent.heapEnd = 0x4000 ∧ child.heapEnd = 0x3000 ∧ child.sysBrk 0x4000 p' = none ∧
      parent.memorySet.pageTable.validEntry 0x20000 = some bits ∧ hasFlag bits pteX = true ∧
      child.memorySet.pageTable.validEntry 0x20000 = some bits' ∧ hasFlag bits' pteX = false := by
  obtain ⟨⟨parent, p⟩, hrun⟩ : ∃ r, grownParent = some r :=
    Option.isSome_iff_exists.mp (by decide +kernel)
  have hparent : (grownParent.map fun r => (r.1.heapEnd,
      (r.1.memorySet.pageTable.validEntry 0x20000).map fun bits => hasFlag bits pteX)) =
      some (0x4000, some true) := by
    decide +kernel
  rw [hrun, Option.map_some, Option.some.injEq, Prod.mk.injEq, Option.map_eq_some_iff] at hparent
  obtain ⟨hend, bits, hentry, hexec⟩ := hparent
  have hfork : (grownParent.bind fun r => (r.1.fork 0x10 0x11 0 r.2).map fun c => (c.1.heapBase,
      c.1.heapEnd, (c.1.memorySet.pageTable.validEntry 0x3).isSome,
      (c.1.memorySet.pageTable.validEntry 0x20000).map fun bits => hasFlag bits pteX)) =
      some (0x3000, 0x3000, true, some false) := by
    decide +kernel
  rw [hrun, Option.bind_some] at hfork
  obtain ⟨⟨child, p'⟩, hcall, hchild⟩ := Option.map_eq_some_iff.mp hfork
  simp only [Prod.mk.injEq, Option.map_eq_some_iff] at hchild
  obtain ⟨hcbase, hcend, hheap, bits', hentry', hexec'⟩ := hchild
  -- the copied heap page is at `floor heap_end`, so the child's `map_heap` maps it again
  have hmapped : child.memorySet.pageTable.validEntry (floor child.heapEnd) ≠ none := by
    rw [hcend]
    exact Option.isSome_iff_ne_none.mp hheap
  have hbrk : child.sysBrk 0x4000 p' = none :=
    ProcessControlBlockInner.sysBrk_eq_none_of_heapEnd_mapped p' (by decide) (by rw [hcbase]; decide)
      (by rw [hcend]; decide) (by rw [hcend]; decide) hmapped
  exact ⟨parent, p, child, p', bits, bits', hrun, hcall, hend, hcend, hbrk, hentry, hexec, hentry',
    hexec'⟩

end OsKernel.Task

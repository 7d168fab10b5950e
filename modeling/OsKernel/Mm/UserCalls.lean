import OsKernel.Mm.MemorySet

/-! # `munmap` and `mprotect` on a user address space

`munmap` only forgets the frames it owns: the page table keeps every entry, so
an unmapped page stays readable and writable through a frame that is back in
the allocator.  `mprotect` rewrites every valid leaf in its range with the
user's flags and `U`, whoever owns the page, and `VirtPageNum::indexes` only
reads 27 bits of the page number it is given.
-/

namespace OsKernel.Mm

open StateLoop

namespace MemorySet

theorem munmapPage_spec {ms ms' : MemorySet} {vpn : Nat} {p p' : Phys}
    (h : ms.munmapPage vpn p = some (ms', p')) :
    ms' = { ms with mmapArea := (SortedMap.remove ms.mmapArea vpn).1 } ∧ p.Releases p' ∧
      ∀ frame, SortedMap.get? ms.mmapArea vpn = some frame → frame.hold →
        frame.ppn ∈ p'.allocator.recycled := by
  unfold munmapPage at h
  rcases hrem : SortedMap.remove ms.mmapArea vpn with ⟨mmap, old⟩
  rw [hrem] at h
  obtain ⟨u, mid, hdrop, hpure⟩ := bind_eq_some.mp h
  obtain ⟨rfl, rfl⟩ := pure_eq_some.mp hpure
  obtain ⟨hrel, hfreed⟩ := dropOld_spec hdrop
  have hold : old = SortedMap.get? ms.mmapArea vpn := by
    rw [← SortedMap.remove_snd, hrem]
  exact ⟨rfl, hrel, fun frame hframe hhold => hfreed frame (hold.trans hframe) hhold⟩

theorem munmap_spec {ms ms' : MemorySet} {startAddr len : Nat} {ret : Int} {p p' : Phys}
    (h : ms.munmap startAddr len p = some ((ms', ret), p')) :
    ms'.pageTable = ms.pageTable ∧ ms'.areas = ms.areas ∧ ms'.heapArea = ms.heapArea ∧
      ret = success ∧ p.Releases p' ∧
      ∃ range : VPNRange, range.l = floor (vaFromUsize (alignUp startAddr)) ∧
        range.r = floor (vaFromUsize (alignUp (wrappingAdd startAddr len))) ∧
        ∀ vpn ∈ range.toList, ∀ frame, SortedMap.get? ms.mmapArea vpn = some frame →
          frame.hold → frame.ppn ∈ p'.allocator.recycled := by
  unfold munmap at h
  obtain ⟨range, p₁, hrange, hrest⟩ := bind_eq_some.mp h
  obtain ⟨hnew, rfl⟩ := lift_eq_some.mp hrange
  obtain ⟨ms₁, p₂, hloop, hpure⟩ := bind_eq_some.mp hrest
  obtain ⟨hres, rfl⟩ := pure_eq_some.mp hpure
  obtain ⟨rfl, rfl⟩ := Prod.mk.inj hres
  have hbounds : range.l = floor (vaFromUsize (alignUp startAddr)) ∧
      range.r = floor (vaFromUsize (alignUp (wrappingAdd startAddr len))) := by
    unfold VPNRange.new at hnew
    split at hnew
    · cases hnew
      exact ⟨rfl, rfl⟩
    · cases hnew
  let inv : MemorySet → Phys → Prop := fun m q =>
    m.pageTable = ms.pageTable ∧ m.areas = ms.areas ∧ m.heapArea = ms.heapArea ∧ p.Releases q ∧
      ∀ vpn frame, SortedMap.get? ms.mmapArea vpn = some frame → frame.hold →
        SortedMap.get? m.mmapArea vpn = some frame ∨ frame.ppn ∈ q.allocator.recycled
  let done : Nat → MemorySet → Phys → Prop := fun vpn _ q =>
    ∀ frame, SortedMap.get? ms.mmapArea vpn = some frame → frame.hold →
      frame.ppn ∈ q.allocator.recycled
  have hinit : inv ms p := ⟨rfl, rfl, rfl, Phys.Releases.refl p, fun _ _ hframe _ => Or.inl hframe⟩
  obtain ⟨⟨hpt, hareas, hheap, hrel, -⟩, hall⟩ := foldlM_forall_mem munmapPage inv done
    (fun m vpn q m' q' _ hinv hstep => by
      obtain ⟨rfl, hrel', hfreed⟩ := munmapPage_spec hstep
      obtain ⟨hpt, hareas, hheap, hrel, hheld⟩ := hinv
      refine ⟨⟨hpt, hareas, hheap, hrel.trans hrel', fun other frame hframe hhold => ?_⟩, ?_⟩
      · by_cases hother : other = vpn
        · subst hother
          rcases hheld other frame hframe hhold with hstill | hback
          · exact Or.inr (hfreed frame hstill hhold)
          · exact Or.inr (hrel'.recycled _ hback)
        · rcases hheld other frame hframe hhold with hstill | hback
          · exact Or.inl (by rw [SortedMap.get?_remove_of_ne _ hother]; exact hstill)
          · exact Or.inr (hrel'.recycled _ hback)
      · intro frame hframe hhold
        rcases hheld vpn frame hframe hhold with hstill | hback
        · exact hfreed frame hstill hhold
        · exact hrel'.recycled _ hback)
    (fun m vpn _ q m' q' _ _ hdone hstep frame hframe hhold =>
      (munmapPage_spec hstep).2.1.recycled _ (hdone frame hframe hhold))
    hinit hloop
  exact ⟨hpt, hareas, hheap, rfl, hrel, range, hbounds.1, hbounds.2, hall⟩

theorem munmap_leaves_entry_of_freed_frame {ms ms' : MemorySet} {startAddr len vpn bits : Nat}
    {ret : Int} {p p' : Phys} (h : ms.munmap startAddr len p = some ((ms', ret), p'))
    (hlo : floor (vaFromUsize (alignUp startAddr)) ≤ vpn)
    (hhi : vpn < floor (vaFromUsize (alignUp (wrappingAdd startAddr len))))
    (hentry : ms.pageTable.validEntry vpn = some bits)
    (howned : SortedMap.get? ms.mmapArea vpn = some ⟨ptePpn bits, true⟩) :
    ms'.pageTable.validEntry vpn = some bits ∧ ¬ p'.allocator.InUse (ptePpn bits) := by
  obtain ⟨hpt, -, -, -, -, range, hl, hr, hfreed⟩ := munmap_spec h
  have hmem : vpn ∈ range.toList := by
    simp only [VPNRange.toList, List.mem_range'_1]
    omega
  exact ⟨hpt ▸ hentry,
    StackFrameAllocator.not_inUse_of_mem_recycled (hfreed vpn hmem _ howned rfl)⟩

/-- The frame that an area, `heap_area` or `mmap_area` holds for `vpn`. -/
def ownedFrame (ms : MemorySet) (vpn : Nat) : Option FrameTracker :=
  (ms.areas.findSome? fun area => SortedMap.get? area.dataFrames vpn) <|>
    SortedMap.get? ms.heapArea vpn <|> SortedMap.get? ms.mmapArea vpn

end MemorySet

/-- A program with one loadable page of text at `0x1000`. -/
def textSegment : MemorySet.ProgramHeader :=
  ⟨true, 0x1000, 0x1000, 5, []⟩

/-- `exec` of that program, with the trampolines at frames `0x10` and `0x11`, on
    a machine whose free frames are `[0x80, 0x100)`, then an anonymous private
    `mmap` of one page. -/
def mmapOnePage : Option ((MemorySet × Int) × Phys) :=
  (do
    let (ms, _) ← MemorySet.fromElf 0x10 0x11 [textSegment]
    ms.mmap 0 pageSize 0 [] (0x02 ||| MemorySet.mapAnonymous)) (Phys.boot 0x80 0x100)

theorem munmap_leaves_valid_pte_to_freed_frame :
    ∃ ms p ms' p' bits, mmapOnePage = some ((ms, 0x20000000), p) ∧
      ms.munmap 0x20000000 pageSize p = some ((ms', success), p') ∧
      ms'.pageTable.validEntry 0x20000 = some bits ∧ ¬ p'.allocator.InUse (ptePpn bits) ∧
      ms'.ownedFrame 0x20000 = none := by
  obtain ⟨⟨⟨ms, addr⟩, p⟩, hrun⟩ : ∃ r, mmapOnePage = some r :=
    Option.isSome_iff_exists.mp (by decide +kernel)
  have hmmap : (mmapOnePage.map fun r => (r.1.2, r.1.1.pageTable.validEntry 0x20000,
      SortedMap.get? r.1.1.mmapArea 0x20000)) =
      some (0x20000000, some (pteNew 0x86 0x1f), some ⟨0x86, true⟩) := by
    decide +kernel
  rw [hrun] at hmmap
  simp only [Option.map_some, Option.some.injEq, Prod.mk.injEq] at hmmap
  obtain ⟨rfl, hentry, howned⟩ := hmmap
  have hunmap : (mmapOnePage.bind fun r => (r.1.1.munmap 0x20000000 pageSize r.2).map
      fun r' => r'.1.1.ownedFrame 0x20000) = some none := by
    decide +kernel
  rw [hrun, Option.bind_some] at hunmap
  obtain ⟨⟨⟨ms', ret⟩, p'⟩, hcall, hnone⟩ := Option.map_eq_some_iff.mp hunmap
  have hret : ret = success := (MemorySet.munmap_spec hcall).2.2.2.1
  subst hret
  obtain ⟨hkept, hfree⟩ := MemorySet.munmap_leaves_entry_of_freed_frame hcall
    (by decide) (by decide) hentry (by rw [howned]; decide)
  exact ⟨ms, p, ms', p', _, hrun, hcall, hkept, hfree, hnone⟩

theorem ceil_next_page {addr : Nat} (halign : addr % pageSize = 0)
    (hroom : addr + 2 * pageSize ≤ 2 ^ 64) :
    ceil (wrappingAdd addr pageSize) = addr / pageSize + 1 := by
  have hpow : (2 : Nat) ^ 64 = 18446744073709551616 := by norm_num
  unfold ceil wrappingAdd wrappingSub pageSize at *
  rw [hpow] at *
  omega

theorem mprotect_one_page {ms : MemorySet} {addr bits : Nat} (flags : Nat)
    (halign : addr % pageSize = 0) (hroom : addr + 2 * pageSize ≤ 2 ^ 64)
    (hentry : ms.pageTable.validEntry (addr / pageSize) = some bits) :
    ms.mprotect addr (wrappingAdd addr pageSize) flags =
      some ({ ms with
        pageTable := ms.pageTable.setLeaf (addr / pageSize)
          (ptePpn bits <<< 10 ||| (flags ||| pteU ||| pteV)) }, success) := by
  unfold MemorySet.mprotect
  rw [ceil_next_page halign hroom]
  have hrange : VPNRange.new (floor addr) (addr / pageSize + 1) =
      some ⟨addr / pageSize, addr / pageSize + 1, Nat.le_succ _⟩ := by
    simp [VPNRange.new, floor]
  rw [hrange]
  simp [VPNRange.toList, MemorySet.mprotectLoop, PageTable.setPteFlags_of_validEntry flags hentry]

theorem sysMprotect_sets_user_bit {ms : MemorySet} {addr prot bits : Nat} (hzero : addr ≠ 0)
    (halign : addr % pageSize = 0) (hroom : addr + 2 * pageSize ≤ 2 ^ 64)
    (hprot : Mprotectprot.fromBits prot = some prot) (hsmall : prot < 2 ^ 32)
    (hentry : ms.pageTable.validEntry (addr / pageSize) = some bits) :
    ∃ ms', sysMprotect ms addr pageSize prot = some (ms', success) ∧
      ∃ bits', ms'.pageTable.validEntry (addr / pageSize) = some bits' ∧ hasFlag bits' pteU := by
  have hcall : sysMprotect ms addr pageSize prot = ms.mprotect addr (wrappingAdd addr pageSize)
      (Mprotectprot.into prot) := by
    have hok : ¬ (addr = 0 ∨ addr % pageSize ≠ 0) := by simp [hzero, halign]
    unfold sysMprotect
    rw [if_neg hok, Nat.mod_eq_of_lt hsmall, hprot]
    rfl
  rw [hcall, mprotect_one_page _ halign hroom hentry]
  have hpte : (ms.pageTable.findPte (addr / pageSize)).isSome :=
    by simp [(PageTable.validEntry_eq_some.mp hentry).1]
  exact ⟨_, rfl, _, PageTable.validEntry_setLeaf_self _ hpte
    (pteIsValid_pteNew_pteV (ptePpn bits) (Mprotectprot.into prot ||| pteU)),
    hasFlag_pteNew_pteU (ptePpn bits) (Mprotectprot.into prot)⟩

/-- The image of `textSegment` with its main thread's user stack and trap context,
    as `exec` leaves it. -/
def userImage : Option (MemorySet × Phys) :=
  (do
    let (ms, _) ← MemorySet.fromElf 0x10 0x11 [textSegment]
    allocUserRes ms stackTop 0 true) (Phys.boot 0x80 0x100)

theorem mprotect_gives_user_access_to_trap_context :
    ∃ ms p bits ms' bits', userImage = some (ms, p) ∧
      ms.pageTable.validEntry (floor (vaFromUsize (trapCxBottomFromTid 0))) = some bits ∧
      hasFlag bits pteU = false ∧
      sysMprotect ms (trapCxBottomFromTid 0) pageSize Mprotectprot.protRead = some (ms', success) ∧
      ms'.pageTable.validEntry (floor (vaFromUsize (trapCxBottomFromTid 0))) = some bits' ∧
      hasFlag bits' pteU = true := by
  obtain ⟨⟨ms, p⟩, hrun⟩ : ∃ r, userImage = some r :=
    Option.isSome_iff_exists.mp (by decide +kernel)
  -- the kernel maps the trap context at the 39-bit address, the user names the 64-bit one
  have halias : leafIndex (trapCxBottomFromTid 0 / pageSize) =
      leafIndex (floor (vaFromUsize (trapCxBottomFromTid 0))) := by decide +kernel
  have himage : (userImage.map fun r => (r.1.pageTable.validEntry
      (floor (vaFromUsize (trapCxBottomFromTid 0)))).map fun bits => hasFlag bits pteU) =
      some (some false) := by
    decide +kernel
  rw [hrun, Option.map_some, Option.some.injEq, Option.map_eq_some_iff] at himage
  obtain ⟨bits, hentry, hkernel⟩ := himage
  obtain ⟨ms', hcall, bits', hentry', huser⟩ :=
    @sysMprotect_sets_user_bit ms (trapCxBottomFromTid 0) Mprotectprot.protRead bits (by decide +kernel)
    (by decide +kernel) (by decide +kernel) (by decide +kernel) (by decide +kernel)
    (by rw [PageTable.validEntry_congr _ halias]; exact hentry)
  rw [PageTable.validEntry_congr _ halias] at hentry'
  exact ⟨ms, p, bits, ms', bits', hrun, hentry, hkernel, hcall, hentry', huser⟩

end OsKernel.Mm

import OsKernel.Mm.PageTable
import OsKernel.Lib.SortedMap
import OsKernel.Lib.StateLoop

/-! # Address spaces

`MemorySet` and `MapArea` of `mm/memory_set.rs` over the page-table model.
The `BTreeMap`s from page numbers to frames are key-sorted lists; a
`FrameTracker` that a map displaces or removes is dropped, which gives its frame
back when it holds it.  The ELF parser's output, the linker symbols of the two
trampolines and the bytes of a mapped file are parameters.
-/

namespace OsKernel.Mm

def trampoline : Nat := 2 ^ 64 - 1 - pageSize + 1
def signalTrampoline : Nat := trampoline - pageSize
def trapContextBase : Nat := signalTrampoline - pageSize
def mmapBase : Nat := 0x2000_0000
def stackTop : Nat := 0x1_0000_0000
def userStackSize : Nat := 4096 * 20

def success : Int := 0
def eperm : Int := -1
def einval : Int := -22

/-- `x as isize`. -/
def toIsize (x : Nat) : Int :=
  if x < 2 ^ 63 then x else x - 2 ^ 64

/-- `(x + PAGE_SIZE - 1) & !(PAGE_SIZE - 1)` on `usize`. -/
def alignUp (x : Nat) : Nat :=
  wrappingAdd x (pageSize - 1) / pageSize * pageSize

/-- `VPNRange`: `new` asserts `start <= end`, so a range carries it. -/
structure VPNRange where
  l : Nat
  r : Nat
  le : l ≤ r
deriving DecidableEq

namespace VPNRange

def new (start stop : Nat) : Option VPNRange :=
  if h : start ≤ stop then some ⟨start, stop, h⟩ else none

/-- The page numbers the range's iterator yields. -/
def toList (range : VPNRange) : List Nat :=
  List.range' range.l (range.r - range.l)

end VPNRange

/-- `get_bytes_array()[off..off + bytes.len()].copy_from_slice(bytes)`. -/
def writeBytes (ppn off : Nat) (bytes : List UInt8) : StateT Phys Option Unit := fun p =>
  if off + bytes.length ≤ pageSize then
    some ((), { p with mem := Function.update p.mem ppn fun i =>
      if off ≤ i ∧ i < off + bytes.length then bytes.getD (i - off) 0 else p.mem ppn i })
  else none

/-- `&data[lo..hi]`, which panics unless `lo <= hi <= data.len()`. -/
def slice (data : List UInt8) (lo hi : Nat) : Option (List UInt8) :=
  if lo ≤ hi ∧ hi ≤ data.length then some ((data.drop lo).take (hi - lo)) else none

structure FrameTracker where
  ppn : Nat
  hold : Bool
deriving DecidableEq, Repr

namespace FrameTracker

/-- `frame_alloc`. -/
def alloc : StateT Phys Option FrameTracker := do
  let ppn ← frameAlloc
  pure ⟨ppn, true⟩

/-- `Drop for FrameTracker`. -/
def drop (frame : FrameTracker) : StateT Phys Option Unit :=
  if frame.hold then frameDealloc frame.ppn else pure ()

theorem drop_spec {frame : FrameTracker} {p p' : Phys} {u : Unit}
    (h : frame.drop p = some (u, p')) :
    p.Releases p' ∧ (frame.hold → frame.ppn ∈ p'.allocator.recycled) := by
  unfold drop at h
  cases hhold : frame.hold with
  | true =>
      rw [hhold, if_pos rfl] at h
      obtain ⟨hrel, hmem⟩ := frameDealloc_releases h
      exact ⟨hrel, fun _ => hmem⟩
  | false =>
      rw [hhold, if_neg Bool.false_ne_true] at h
      obtain ⟨-, rfl⟩ := StateLoop.pure_eq_some.mp h
      exact ⟨Phys.Releases.refl p, fun hfalse => absurd hfalse Bool.false_ne_true⟩

end FrameTracker

/-- Drop the tracker that `BTreeMap::insert` or `remove` hands back. -/
def dropOld : Option FrameTracker → StateT Phys Option Unit
  | some frame => frame.drop
  | none => pure ()

theorem dropOld_spec {old : Option FrameTracker} {p p' : Phys} {u : Unit}
    (h : dropOld old p = some (u, p')) :
    p.Releases p' ∧ ∀ frame, old = some frame → frame.hold → frame.ppn ∈ p'.allocator.recycled := by
  cases old with
  | none =>
      obtain ⟨-, rfl⟩ := StateLoop.pure_eq_some.mp h
      exact ⟨Phys.Releases.refl p, fun _ hnone => absurd hnone (by simp)⟩
  | some frame =>
      obtain ⟨hrel, hheld⟩ := FrameTracker.drop_spec h
      exact ⟨hrel, fun frame' hsome => by cases hsome; exact hheld⟩

inductive MapType
  | identical
  | framed
  | marked
deriving DecidableEq, Repr

/-- `MapPermission` has the bits of `PTEFlags`: `from_bits(map_perm.bits)` is
    the identity. -/
structure MapArea where
  vpnRange : VPNRange
  dataFrames : List (Nat × FrameTracker)
  mapType : MapType
  mapPerm : Nat

namespace MapArea

def new (startVa endVa : Nat) (mapType : MapType) (mapPerm : Nat) : Option MapArea :=
  (VPNRange.new (floor startVa) (ceil endVa)).map fun range => ⟨range, [], mapType, mapPerm⟩

/-- `from_another`: `VPNRange::new` of a range's own bounds cannot fail. -/
def fromAnother (another : MapArea) : MapArea :=
  ⟨another.vpnRange, [], another.mapType, another.mapPerm⟩

def mapOne (area : MapArea) (pt : PageTable) (vpn : Nat) :
    StateT Phys Option (MapArea × PageTable) := do
  let (area, ppn) ← match area.mapType with
    | .identical => pure (area, vpn)
    | .framed => do
        let frame ← FrameTracker.alloc
        let (frames, old) := SortedMap.insert area.dataFrames vpn frame
        dropOld old
        pure ({ area with dataFrames := frames }, frame.ppn)
    | .marked => failure
  let pt ← pt.map vpn ppn area.mapPerm
  pure (area, pt)

def mapOneUnalloc (area : MapArea) (pt : PageTable) (vpn ppn : Nat) :
    StateT Phys Option PageTable :=
  pt.map vpn ppn area.mapPerm

def map (area : MapArea) (pt : PageTable) : StateT Phys Option (MapArea × PageTable) :=
  match area.mapType with
  | .identical | .framed =>
      area.vpnRange.toList.foldlM (fun (area, pt) vpn => area.mapOne pt vpn) (area, pt)
  | .marked => do
      let pt ← area.dataFrames.foldlM
        (fun pt (vpn, frame) => area.mapOneUnalloc pt vpn frame.ppn) pt
      pure (area, pt)

def unmapOne (area : MapArea) (pt : PageTable) (vpn : Nat) :
    StateT Phys Option (MapArea × PageTable) := do
  let area ← if area.mapType = .framed then do
      let (frames, old) := SortedMap.remove area.dataFrames vpn
      dropOld old
      pure { area with dataFrames := frames }
    else pure area
  let pt ← StateT.lift (pt.unmap vpn)
  pure (area, pt)

def unmap (area : MapArea) (pt : PageTable) : StateT Phys Option (MapArea × PageTable) :=
  area.vpnRange.toList.foldlM (fun (area, pt) vpn => area.unmapOne pt vpn) (area, pt)

/-- The loop of `copy_data`.  Each round moves `start` on by at least one
    byte, so `data.len() + 1` rounds are enough. -/
def copyDataLoop (pt : PageTable) (data : List UInt8) :
    Nat → Nat → Nat → Nat → StateT Phys Option Unit
  | 0, _, _, _ => failure
  | fuel + 1, start, pageOffset, vpn => do
      let src ← StateT.lift (slice data start (min data.length (start + pageSize - pageOffset)))
      let pte ← StateT.lift (pt.translate vpn)
      writeBytes (ptePpn pte) pageOffset src
      let start := start + pageSize - pageOffset
      if data.length ≤ start then pure ()
      else copyDataLoop pt data fuel start 0 (vpn + 1)

def copyData (area : MapArea) (pt : PageTable) (data : List UInt8) (offset : Nat) :
    StateT Phys Option Unit :=
  if area.mapType = .framed then copyDataLoop pt data (data.length + 1) 0 offset area.vpnRange.l
  else failure

end MapArea

structure MemorySet where
  pageTable : PageTable
  areas : List MapArea
  heapArea : List (Nat × FrameTracker)
  mmapArea : List (Nat × FrameTracker)
  mmapBase : Nat
  mmapEnd : Nat

namespace MemorySet

def newBare : StateT Phys Option MemorySet := do
  let pt ← PageTable.new
  pure ⟨pt, [], [], [], vaFromUsize Mm.mmapBase, vaFromUsize Mm.mmapBase⟩

def translate (ms : MemorySet) (vpn : Nat) : Option Nat :=
  ms.pageTable.translate vpn

def pushWithOffset (ms : MemorySet) (area : MapArea) (offset : Nat) (data : Option (List UInt8)) :
    StateT Phys Option MemorySet := do
  let (area, pt) ← area.map ms.pageTable
  match data with
  | some data => area.copyData pt data offset
  | none => pure ()
  pure { ms with pageTable := pt, areas := ms.areas ++ [area] }

def push (ms : MemorySet) (area : MapArea) (data : Option (List UInt8)) :
    StateT Phys Option MemorySet :=
  ms.pushWithOffset area 0 data

def insertFramedArea (ms : MemorySet) (startVa endVa permission : Nat) :
    StateT Phys Option MemorySet := do
  let area ← StateT.lift (MapArea.new startVa endVa .framed permission)
  ms.push area none

def removeAreaWithStartVpn (ms : MemorySet) (startVpn : Nat) : StateT Phys Option MemorySet :=
  match ms.areas.findIdx? (fun area => area.vpnRange.l == startVpn) with
  | some idx => do
      let area ← StateT.lift ms.areas[idx]?
      let (area, pt) ← area.unmap ms.pageTable
      -- the removed area is dropped with the trackers it still holds
      area.dataFrames.forM fun entry => entry.2.drop
      pure { ms with pageTable := pt, areas := ms.areas.eraseIdx idx }
  | none => failure

/-- `Drop for MemorySet`, field by field: the frames of the page table's nodes,
    then the trackers of every area, of the heap and of the mmap area. -/
def drop (ms : MemorySet) : StateT Phys Option Unit := do
  ms.pageTable.frames.forM frameDealloc
  ms.areas.forM fun area => area.dataFrames.forM fun entry => entry.2.drop
  ms.heapArea.forM fun entry => entry.2.drop
  ms.mmapArea.forM fun entry => entry.2.drop

/-- `map_trampoline`, with the frame of `strampoline`. -/
def mapTrampoline (ms : MemorySet) (strampoline : Nat) : StateT Phys Option MemorySet := do
  let pt ← ms.pageTable.map (floor (vaFromUsize trampoline)) strampoline (pteR ||| pteX)
  pure { ms with pageTable := pt }

/-- `map_signaltrampoline`, with the frame of `ssignaltrampoline`. -/
def mapSignaltrampoline (ms : MemorySet) (ssignaltrampoline : Nat) :
    StateT Phys Option MemorySet := do
  let pt ← ms.pageTable.map (floor (vaFromUsize signalTrampoline)) ssignaltrampoline
    (pteR ||| pteX ||| pteU)
  pure { ms with pageTable := pt }

/-- A loadable program header as `from_elf` reads it: its `p_flags` bits are
    X = 1, W = 2, R = 4, and `data` is `elf.input[offset .. offset + file_size]`. -/
structure ProgramHeader where
  load : Bool
  virtualAddr : Nat
  memSize : Nat
  flags : Nat
  data : List UInt8

def ProgramHeader.mapPerm (ph : ProgramHeader) : Nat :=
  let perm := pteU
  let perm := if ph.flags &&& 4 != 0 then perm ||| pteR else perm
  let perm := if ph.flags &&& 2 != 0 then perm ||| pteW else perm
  if ph.flags &&& 1 != 0 then perm ||| pteX else perm

/-- `from_elf` over the program headers: the address space and the heap base. -/
def fromElf (strampoline ssignaltrampoline : Nat) (phs : List ProgramHeader) :
    StateT Phys Option (MemorySet × Nat) := do
  let ms ← newBare
  let ms ← ms.mapTrampoline strampoline
  let ms ← ms.mapSignaltrampoline ssignaltrampoline
  let (ms, maxEndVpn) ← phs.foldlM (fun (ms, maxEndVpn) ph =>
    if ph.load then do
      let startVa := vaFromUsize ph.virtualAddr
      let area ← StateT.lift (MapArea.new startVa
        (vaFromUsize (wrappingAdd ph.virtualAddr ph.memSize)) .framed ph.mapPerm)
      let ms ← ms.pushWithOffset area (startVa % pageSize) (some ph.data)
      pure (ms, area.vpnRange.r)
    else pure (ms, maxEndVpn)) (ms, 0)
  pure (ms, (maxEndVpn <<< 12) + pageSize)

/-- One heap or mmap page of `from_existed_user`: a fresh frame mapped `U | R | W`
    in `owned`, filled from the parent's frame. -/
def cloneFrame (pt : PageTable) (owned : List (Nat × FrameTracker)) (vpn : Nat)
    (src : FrameTracker) : StateT Phys Option (PageTable × List (Nat × FrameTracker)) := do
  let frame ← FrameTracker.alloc
  let pt ← pt.map vpn frame.ppn (pteU ||| pteR ||| pteW)
  let (owned, old) := SortedMap.insert owned vpn frame
  dropOld old
  copyFrame frame.ppn src.ppn
  pure (pt, owned)

/-- One page of an area of `from_existed_user`: the parent's frame copied into
    the child's. -/
def copyPage (user ms : MemorySet) (vpn : Nat) : StateT Phys Option Unit := do
  let src ← StateT.lift (user.translate vpn)
  let dst ← StateT.lift (ms.translate vpn)
  copyFrame (ptePpn dst) (ptePpn src)

/-- One area of `from_existed_user`: mapped afresh, then copied page by page. -/
def cloneArea (user ms : MemorySet) (area : MapArea) : StateT Phys Option MemorySet := do
  let ms ← ms.push (MapArea.fromAnother area) none
  area.vpnRange.toList.forM (copyPage user ms)
  pure ms

/-- The loop of `from_existed_user` over `heap_area` or `mmap_area`. -/
def cloneFrames (pt : PageTable) (owned src : List (Nat × FrameTracker)) :
    StateT Phys Option (PageTable × List (Nat × FrameTracker)) :=
  src.foldlM (fun (pt, owned) (vpn, frame) => cloneFrame pt owned vpn frame) (pt, owned)

def fromExistedUser (user : MemorySet) (strampoline ssignaltrampoline : Nat) :
    StateT Phys Option MemorySet := do
  let ms ← newBare
  let ms ← ms.mapTrampoline strampoline
  let ms ← ms.mapSignaltrampoline ssignaltrampoline
  let ms := { ms with mmapEnd := user.mmapEnd }
  let ms ← user.areas.foldlM (cloneArea user) ms
  let (pt, heap) ← cloneFrames ms.pageTable ms.heapArea user.heapArea
  let ms := { ms with pageTable := pt, heapArea := heap }
  let (pt, mmap) ← cloneFrames ms.pageTable ms.mmapArea user.mmapArea
  pure { ms with pageTable := pt, mmapArea := mmap }

/-- The loop of `map_heap`.  Every round maps a new page below `2^27`, or the
    `map` assertion fails, so `2^27 + 1` rounds are enough. -/
def mapHeapLoop (aimAddr : Nat) : Nat → MemorySet → Nat → StateT Phys Option MemorySet
  | 0, _, _ => failure
  | fuel + 1, ms, currentAddr =>
      if aimAddr ≤ currentAddr then pure ms
      else do
        let frame ← FrameTracker.alloc
        let vpn := floor currentAddr
        let pt ← ms.pageTable.map vpn frame.ppn (pteU ||| pteR ||| pteW)
        let (heap, old) := SortedMap.insert ms.heapArea vpn frame
        dropOld old
        mapHeapLoop aimAddr fuel { ms with pageTable := pt, heapArea := heap }
          (vaFromUsize (currentAddr + pageSize))

def mapHeap (ms : MemorySet) (currentAddr aimAddr : Nat) :
    StateT Phys Option (MemorySet × Int) := do
  let ms ← mapHeapLoop aimAddr (2 ^ 27 + 1) ms currentAddr
  pure (ms, success)

def mapFixed : Nat := 0x10
def mapAnonymous : Nat := 0x20

/-- A page of `mmap` with a fresh frame, mapped `R | W | U | X`. -/
def mmapNewPage (ms : MemorySet) (vpn : Nat) : StateT Phys Option MemorySet := do
  let frame ← FrameTracker.alloc
  let (mmap, old) := SortedMap.insert ms.mmapArea vpn frame
  dropOld old
  let pt ← ms.pageTable.map vpn frame.ppn (pteR ||| pteW ||| pteU ||| pteX)
  pure { ms with pageTable := pt, mmapArea := mmap }

/-- The loop of `mmap` that writes `context` from `offset` on, a page at a time. -/
def mmapWriteLoop (pt : PageTable) (context : List UInt8) (len : Nat) :
    Nat → Nat → Nat → StateT Phys Option Unit
  | 0, _, _ => failure
  | fuel + 1, start, vpn => do
      let src ← StateT.lift (slice context start (min len (start + pageSize)))
      let pte ← StateT.lift (pt.translate vpn)
      writeBytes (ptePpn pte) 0 src
      let start := start + pageSize
      if len ≤ start then pure ()
      else mmapWriteLoop pt context len fuel start (vpn + 1)

def mmap (ms : MemorySet) (startAddr len offset : Nat) (context : List UInt8) (flags : Nat) :
    StateT Phys Option (MemorySet × Int) := do
  let fixed := flags &&& mapFixed != 0 && startAddr != 0
  let (startAddrAlign, endAddrAlign) :=
    if fixed then (alignUp startAddr, alignUp (wrappingAdd startAddr len))
    else (alignUp ms.mmapEnd, alignUp (wrappingAdd ms.mmapEnd len))
  let ms := { ms with mmapEnd := vaFromUsize (wrappingAdd endAddrAlign pageSize) }
  let range ← StateT.lift (VPNRange.new (floor (vaFromUsize startAddrAlign))
    (floor (vaFromUsize endAddrAlign)))
  let ms ← if fixed then
      range.toList.foldlM (fun ms vpn =>
        match SortedMap.get? ms.mmapArea vpn with
        | some _ => pure ms
        | none => ms.mmapNewPage vpn) ms
    else range.toList.foldlM mmapNewPage ms
  if flags &&& mapAnonymous = 0 then
    mmapWriteLoop ms.pageTable context len (len / pageSize + 1) offset range.l
  pure (ms, toIsize startAddrAlign)

/-- One page of `munmap`: `mmap_area.remove(&vpn)`, dropping its frame.  The
    page table is not touched. -/
def munmapPage (ms : MemorySet) (vpn : Nat) : StateT Phys Option MemorySet := do
  let (mmap, old) := SortedMap.remove ms.mmapArea vpn
  dropOld old
  pure { ms with mmapArea := mmap }

def munmap (ms : MemorySet) (startAddr len : Nat) : StateT Phys Option (MemorySet × Int) := do
  let range ← StateT.lift (VPNRange.new (floor (vaFromUsize (alignUp startAddr)))
    (floor (vaFromUsize (alignUp (wrappingAdd startAddr len)))))
  let ms ← range.toList.foldlM munmapPage ms
  pure (ms, success)

/-- The loop of `mprotect`: it stops with `EPERM` at the first page without a
    valid entry, keeping the pages it already changed. -/
def mprotectLoop (pt : PageTable) (newFlags : Nat) : List Nat → PageTable × Int
  | [] => (pt, success)
  | vpn :: rest =>
      match pt.setPteFlags vpn newFlags with
      | (pt, true) => mprotectLoop pt newFlags rest
      | (pt, false) => (pt, eperm)

def mprotect (ms : MemorySet) (start stop newFlags : Nat) : Option (MemorySet × Int) :=
  (VPNRange.new (floor start) (ceil stop)).map fun range =>
    let (pt, ret) := mprotectLoop ms.pageTable newFlags range.toList
    ({ ms with pageTable := pt }, ret)

end MemorySet

namespace Mprotectprot

def protRead : Nat := 0x01
def protWrite : Nat := 0x02
def protExec : Nat := 0x04
def protSem : Nat := 0x10
def protGrowsdown : Nat := 0x01000000
def protGrowsup : Nat := 0x02000000

def all : Nat :=
  protRead ||| protWrite ||| protExec ||| protSem ||| protGrowsdown ||| protGrowsup

/-- `MPROCTECTPROT::from_bits`: `None` on a bit that is not a flag. -/
def fromBits (bits : Nat) : Option Nat :=
  if bits &&& all = bits then some bits else none

/-- `Into<PTEFlags> for MPROCTECTPROT`: always `U`, then the access bits. -/
def into (prot : Nat) : Nat :=
  let flag := pteU
  let flag := if prot &&& protRead != 0 then flag ||| pteR else flag
  let flag := if prot &&& protWrite != 0 then flag ||| pteW else flag
  if prot &&& protExec != 0 then flag ||| pteX else flag

end Mprotectprot

/-- `sys_mprotect` on the current process's address space. -/
def sysMprotect (ms : MemorySet) (addr len prot : Nat) : Option (MemorySet × Int) :=
  if addr = 0 ∨ addr % pageSize ≠ 0 then some (ms, einval)
  else do
    let prot ← Mprotectprot.fromBits (prot % 2 ^ 32)
    ms.mprotect addr (wrappingAdd addr len) (Mprotectprot.into prot)

def trapCxBottomFromTid (tid : Nat) : Nat :=
  trapContextBase - tid * pageSize

def ustackTopFromId (ustackTop id : Nat) : Nat :=
  ustackTop - id * (pageSize + userStackSize)

/-- `TaskUserRes::alloc_user_res`: the user stack `R | W | U` and the trap
    context `R | W`, without `U`. -/
def allocUserRes (ms : MemorySet) (ustackTop tid : Nat) (allocUserStack : Bool) :
    StateT Phys Option MemorySet := do
  let ms ← if allocUserStack then
      let top := ustackTopFromId ustackTop tid
      ms.insertFramedArea (vaFromUsize (top - userStackSize)) (vaFromUsize top)
        (pteR ||| pteW ||| pteU)
    else pure ms
  let trapCxBottom := trapCxBottomFromTid tid
  ms.insertFramedArea (vaFromUsize trapCxBottom) (vaFromUsize (trapCxBottom + pageSize))
    (pteR ||| pteW)

/-- `TaskUserRes::dealloc_user_res`: the areas that `alloc_user_res` pushed go
    by the page numbers of their bottoms. -/
def deallocUserRes (ms : MemorySet) (ustackTop tid : Nat) (selfStack : Bool) :
    StateT Phys Option MemorySet := do
  let ms ← if selfStack then do
      let top := ustackTopFromId ustackTop tid
      let ustackBottomVpn ← StateT.lift (vpnFromVa (vaFromUsize (top - userStackSize)))
      ms.removeAreaWithStartVpn ustackBottomVpn
    else pure ms
  let trapCxBottomVpn ← StateT.lift (vpnFromVa (vaFromUsize (trapCxBottomFromTid tid)))
  ms.removeAreaWithStartVpn trapCxBottomVpn

/-! ## How the steps decompose -/

section Steps

open StateLoop

theorem FrameTracker.alloc_eq_some {p p' : Phys} {frame : FrameTracker}
    (h : FrameTracker.alloc p = some (frame, p')) :
    frameAlloc p = some (frame.ppn, p') ∧ frame.hold = true := by
  obtain ⟨c, mid, hc, hpure⟩ := bind_eq_some.mp h
  obtain ⟨rfl, rfl⟩ := pure_eq_some.mp hpure
  exact ⟨hc, rfl⟩

theorem MapArea.map_framed {area : MapArea} (hframed : area.mapType = .framed) (pt : PageTable) :
    area.map pt = area.vpnRange.toList.foldlM (fun (area, pt) vpn => area.mapOne pt vpn) (area, pt) := by
  rw [MapArea.map, hframed]

theorem MapArea.mapOne_framed {area area' : MapArea} {pt pt' : PageTable} {vpn : Nat} {p p' : Phys}
    (hframed : area.mapType = .framed) (h : area.mapOne pt vpn p = some ((area', pt'), p')) :
    ∃ c p₁ p₂, frameAlloc p = some (c, p₁) ∧
      dropOld (SortedMap.insert area.dataFrames vpn ⟨c, true⟩).2 p₁ = some ((), p₂) ∧
      pt.map vpn c area.mapPerm p₂ = some (pt', p') ∧
      area'.dataFrames = (SortedMap.insert area.dataFrames vpn ⟨c, true⟩).1 ∧
      area'.mapType = .framed ∧ area'.mapPerm = area.mapPerm := by
  unfold MapArea.mapOne at h
  rw [hframed] at h
  obtain ⟨⟨c, hold⟩, p₁, halloc, hrest⟩ := bind_eq_some.mp h
  obtain ⟨halloc, rfl⟩ := FrameTracker.alloc_eq_some halloc
  rcases hins : SortedMap.insert area.dataFrames vpn ⟨c, true⟩ with ⟨frames, old⟩
  rw [hins] at hrest
  obtain ⟨⟨⟩, p₂, hdrop, hrest⟩ := bind_eq_some.mp hrest
  rw [pure_bind] at hrest
  obtain ⟨pt₁, p₃, hmap, hpure⟩ := bind_eq_some.mp hrest
  obtain ⟨hpair, rfl⟩ := pure_eq_some.mp hpure
  obtain ⟨rfl, rfl⟩ := Prod.mk.inj hpair
  exact ⟨c, p₁, p₂, halloc, by rw [hins]; exact hdrop, hmap, by rw [hins], rfl, rfl⟩

theorem MapArea.mapOne_keeps_key {area area' : MapArea} {pt pt' : PageTable} {vpn key : Nat}
    {p p' : Phys} (hframed : area.mapType = .framed) (h : area.mapOne pt vpn p = some ((area', pt'), p'))
    (hkey : (SortedMap.get? area.dataFrames key).isSome) : (SortedMap.get? area'.dataFrames key).isSome := by
  obtain ⟨c, -, -, -, -, -, hdata, -⟩ := MapArea.mapOne_framed hframed h
  rw [hdata, SortedMap.get?_insert]
  split
  · rfl
  · exact hkey

/-- An area holds a frame of its own for each of its pages. -/
def MapArea.Holds (area : MapArea) : Prop :=
  ∀ vpn ∈ area.vpnRange.toList, ∃ frame, SortedMap.get? area.dataFrames vpn = some frame ∧ frame.hold = true

/-- Every frame an area holds for one of its pages is back in the allocator. -/
def MapArea.Released (area : MapArea) (p : Phys) : Prop :=
  ∀ vpn ∈ area.vpnRange.toList, ∀ frame, SortedMap.get? area.dataFrames vpn = some frame →
    frame.hold = true → frame.ppn ∈ p.allocator.recycled

theorem MapArea.Released.of_releases {area : MapArea} {p p' : Phys} (h : area.Released p)
    (hrel : p.Releases p') : area.Released p' :=
  fun vpn hvpn frame hget hhold => hrel.recycled _ (h vpn hvpn frame hget hhold)

theorem MapArea.unmapOne_framed {area area' : MapArea} {pt pt' : PageTable} {vpn : Nat} {p p' : Phys}
    (hframed : area.mapType = .framed) (h : area.unmapOne pt vpn p = some ((area', pt'), p')) :
    dropOld (SortedMap.remove area.dataFrames vpn).2 p = some ((), p') ∧
      area'.dataFrames = (SortedMap.remove area.dataFrames vpn).1 ∧ area'.mapType = .framed := by
  unfold MapArea.unmapOne at h
  rw [if_pos hframed] at h
  rcases hrem : SortedMap.remove area.dataFrames vpn with ⟨frames, old⟩
  rw [hrem] at h
  obtain ⟨⟨⟩, p₁, hdrop, hrest⟩ := bind_eq_some.mp h
  rw [pure_bind] at hrest
  obtain ⟨pt₁, p₂, hlift, hpure⟩ := bind_eq_some.mp hrest
  obtain ⟨-, rfl⟩ := lift_eq_some.mp hlift
  obtain ⟨hpair, rfl⟩ := pure_eq_some.mp hpure
  obtain ⟨rfl, rfl⟩ := Prod.mk.inj hpair
  exact ⟨hdrop, rfl, hframed⟩

theorem MapArea.unmapLoop_releases {f : MapArea × PageTable → Nat → StateT Phys Option (MapArea × PageTable)}
    (hf : ∀ area pt vpn, f (area, pt) vpn = area.unmapOne pt vpn) :
    ∀ {vpns : List Nat} {area area' : MapArea} {pt pt' : PageTable} {p p' : Phys}, vpns.Nodup →
      area.mapType = .framed → vpns.foldlM f (area, pt) p = some ((area', pt'), p') →
      p.Releases p' ∧ ∀ vpn ∈ vpns, ∀ frame, SortedMap.get? area.dataFrames vpn = some frame →
        frame.hold = true → frame.ppn ∈ p'.allocator.recycled := by
  intro vpns
  induction vpns with
  | nil =>
      intro area area' pt pt' p p' _ _ h
      obtain ⟨-, rfl⟩ := foldlM_nil_eq_some.mp h
      exact ⟨Phys.Releases.refl p, fun vpn hvpn => absurd hvpn List.not_mem_nil⟩
  | cons v rest ih =>
      intro area area' pt pt' p p' hnodup hframed h
      obtain ⟨⟨a₁, pt₁⟩, p₁, hone, hrest⟩ := foldlM_cons_eq_some.mp h
      rw [hf] at hone
      obtain ⟨hdrop, hdata, hty₁⟩ := MapArea.unmapOne_framed hframed hone
      obtain ⟨hnotin, hnodup'⟩ := List.nodup_cons.mp hnodup
      obtain ⟨hrel, hrest'⟩ := ih hnodup' hty₁ hrest
      obtain ⟨hrel₁, hv⟩ := dropOld_spec hdrop
      refine ⟨hrel₁.trans hrel, fun vpn hvpn frame hget hhold => ?_⟩
      rcases List.mem_cons.mp hvpn with rfl | hvpn
      · exact hrel.recycled _ (hv frame (by rw [SortedMap.remove_snd, hget]) hhold)
      · have hne : vpn ≠ v := fun heq => hnotin (heq ▸ hvpn)
        exact hrest' vpn hvpn frame (by rw [hdata, SortedMap.get?_remove_of_ne _ hne, hget]) hhold

theorem MapArea.unmap_releases {area area' : MapArea} {pt pt' : PageTable} {p p' : Phys}
    (hframed : area.mapType = .framed) (h : area.unmap pt p = some ((area', pt'), p')) :
    p.Releases p' ∧ area.Released p' :=
  MapArea.unmapLoop_releases (fun _ _ _ => rfl) List.nodup_range' hframed h

theorem MemorySet.push_none_eq_some {ms ms' : MemorySet} {area : MapArea} {p p' : Phys}
    (h : ms.push area none p = some (ms', p')) :
    ∃ area', area.map ms.pageTable p = some ((area', ms'.pageTable), p') ∧
      ms' = { ms with pageTable := ms'.pageTable, areas := ms.areas ++ [area'] } := by
  obtain ⟨⟨area', pt⟩, p₁, hmap, hrest⟩ := bind_eq_some.mp h
  dsimp only at hrest
  obtain ⟨rfl, rfl⟩ := pure_eq_some.mp hrest
  exact ⟨area', hmap, rfl⟩

theorem MemorySet.cloneArea_eq_some {user ms ms' : MemorySet} {area : MapArea} {p p' : Phys}
    (h : user.cloneArea ms area p = some (ms', p')) :
    ∃ p₁, ms.push (MapArea.fromAnother area) none p = some (ms', p₁) ∧
      area.vpnRange.toList.forM (user.copyPage ms') p₁ = some ((), p') := by
  obtain ⟨ms₁, p₁, hpush, hrest⟩ := bind_eq_some.mp h
  obtain ⟨⟨⟩, p₂, hcopy, hpure⟩ := bind_eq_some.mp hrest
  obtain ⟨rfl, rfl⟩ := pure_eq_some.mp hpure
  exact ⟨p₁, hpush, hcopy⟩

theorem MemorySet.copyPage_eq_some {user ms : MemorySet} {vpn : Nat} {p p' : Phys} {u : Unit}
    (h : user.copyPage ms vpn p = some (u, p')) :
    ∃ src dst, user.translate vpn = some src ∧ ms.translate vpn = some dst ∧
      copyFrame (ptePpn dst) (ptePpn src) p = some ((), p') := by
  obtain ⟨src, p₁, hlift, hrest⟩ := bind_eq_some.mp h
  obtain ⟨hsrc, rfl⟩ := lift_eq_some.mp hlift
  obtain ⟨dst, p₂, hlift', hcopy⟩ := bind_eq_some.mp hrest
  obtain ⟨hdst, rfl⟩ := lift_eq_some.mp hlift'
  exact ⟨src, dst, hsrc, hdst, hcopy⟩

theorem MemorySet.cloneFrame_eq_some {pt pt' : PageTable} {owned owned' : List (Nat × FrameTracker)}
    {vpn : Nat} {src : FrameTracker} {p p' : Phys}
    (h : MemorySet.cloneFrame pt owned vpn src p = some ((pt', owned'), p')) :
    ∃ c p₁ p₂ p₃, frameAlloc p = some (c, p₁) ∧
      pt.map vpn c (pteU ||| pteR ||| pteW) p₁ = some (pt', p₂) ∧
      dropOld (SortedMap.insert owned vpn ⟨c, true⟩).2 p₂ = some ((), p₃) ∧
      copyFrame c src.ppn p₃ = some ((), p') ∧
      owned' = (SortedMap.insert owned vpn ⟨c, true⟩).1 := by
  unfold MemorySet.cloneFrame at h
  obtain ⟨⟨c, hold⟩, p₁, halloc, hrest⟩ := bind_eq_some.mp h
  obtain ⟨halloc, rfl⟩ := FrameTracker.alloc_eq_some halloc
  obtain ⟨pt₁, p₂, hmap, hrest⟩ := bind_eq_some.mp hrest
  rcases hins : SortedMap.insert owned vpn ⟨c, true⟩ with ⟨owned₁, old⟩
  rw [hins] at hrest
  obtain ⟨⟨⟩, p₃, hdrop, hrest⟩ := bind_eq_some.mp hrest
  obtain ⟨⟨⟩, p₄, hcopy, hpure⟩ := bind_eq_some.mp hrest
  obtain ⟨hpair, rfl⟩ := pure_eq_some.mp hpure
  obtain ⟨rfl, rfl⟩ := Prod.mk.inj hpair
  exact ⟨c, p₁, p₂, p₃, halloc, hmap, by rw [hins]; exact hdrop, hcopy, by rw [hins]⟩

theorem MemorySet.newBare_eq_some {ms : MemorySet} {p p' : Phys}
    (h : MemorySet.newBare p = some (ms, p')) :
    PageTable.new p = some (ms.pageTable, p') ∧ ms.areas = [] ∧ ms.heapArea = [] ∧
      ms.mmapArea = [] := by
  obtain ⟨pt, p₁, hnew, hpure⟩ := bind_eq_some.mp h
  obtain ⟨rfl, rfl⟩ := pure_eq_some.mp hpure
  exact ⟨hnew, rfl, rfl, rfl⟩

theorem MemorySet.mapTrampoline_eq_some {ms ms' : MemorySet} {strampoline : Nat} {p p' : Phys}
    (h : ms.mapTrampoline strampoline p = some (ms', p')) :
    ms.pageTable.map (floor (vaFromUsize trampoline)) strampoline (pteR ||| pteX) p =
      some (ms'.pageTable, p') ∧ ms' = { ms with pageTable := ms'.pageTable } := by
  obtain ⟨pt, p₁, hmap, hpure⟩ := bind_eq_some.mp h
  obtain ⟨rfl, rfl⟩ := pure_eq_some.mp hpure
  exact ⟨hmap, rfl⟩

theorem MemorySet.mapSignaltrampoline_eq_some {ms ms' : MemorySet} {ssignaltrampoline : Nat}
    {p p' : Phys} (h : ms.mapSignaltrampoline ssignaltrampoline p = some (ms', p')) :
    ms.pageTable.map (floor (vaFromUsize signalTrampoline)) ssignaltrampoline
        (pteR ||| pteX ||| pteU) p = some (ms'.pageTable, p') ∧
      ms' = { ms with pageTable := ms'.pageTable } := by
  obtain ⟨pt, p₁, hmap, hpure⟩ := bind_eq_some.mp h
  obtain ⟨rfl, rfl⟩ := pure_eq_some.mp hpure
  exact ⟨hmap, rfl⟩

theorem MemorySet.fromExistedUser_eq_some {user child : MemorySet} {strampoline ssignaltrampoline : Nat}
    {p p' : Phys} (h : user.fromExistedUser strampoline ssignaltrampoline p = some (child, p')) :
    ∃ ms₁ ms₂ ms₃ ms₄ p₁ p₂ p₃ p₄ pt heap p₅ pt' mmap,
      MemorySet.newBare p = some (ms₁, p₁) ∧ ms₁.mapTrampoline strampoline p₁ = some (ms₂, p₂) ∧
      ms₂.mapSignaltrampoline ssignaltrampoline p₂ = some (ms₃, p₃) ∧
      user.areas.foldlM (cloneArea user) { ms₃ with mmapEnd := user.mmapEnd } p₃ = some (ms₄, p₄) ∧
      cloneFrames ms₄.pageTable ms₄.heapArea user.heapArea p₄ = some ((pt, heap), p₅) ∧
      cloneFrames pt ms₄.mmapArea user.mmapArea p₅ = some ((pt', mmap), p') ∧
      child = { ms₄ with pageTable := pt', heapArea := heap, mmapArea := mmap } := by
  obtain ⟨ms₁, p₁, hbare, hrest⟩ := bind_eq_some.mp h
  obtain ⟨ms₂, p₂, htramp, hrest⟩ := bind_eq_some.mp hrest
  obtain ⟨ms₃, p₃, hsig, hrest⟩ := bind_eq_some.mp hrest
  obtain ⟨ms₄, p₄, hareas, hrest⟩ := bind_eq_some.mp hrest
  obtain ⟨⟨pt, heap⟩, p₅, hheap, hrest⟩ := bind_eq_some.mp hrest
  obtain ⟨⟨pt', mmap⟩, p₆, hmmap, hpure⟩ := bind_eq_some.mp hrest
  obtain ⟨rfl, rfl⟩ := pure_eq_some.mp hpure
  exact ⟨ms₁, ms₂, ms₃, ms₄, p₁, p₂, p₃, p₄, pt, heap, p₅, pt', mmap, hbare, htramp, hsig,
    hareas, hheap, hmmap, rfl⟩

theorem MemorySet.mmapWriteLoop_eq_none_of_lt {pt : PageTable} {context : List UInt8} {len start : Nat}
    (fuel vpn : Nat) (p : Phys) (hlt : len < start) :
    MemorySet.mmapWriteLoop pt context len (fuel + 1) start vpn p = none := by
  have hslice : slice context start (min len (start + pageSize)) = none := by
    rw [slice, if_neg (by omega)]
  rw [mmapWriteLoop]
  apply bind_eq_none_of_eq_none
  rw [hslice]
  rfl

theorem MemorySet.mmap_eq_none_of_len_lt_offset {ms : MemorySet} {startAddr len offset : Nat}
    {context : List UInt8} {flags : Nat} (p : Phys) (hfile : flags &&& mapAnonymous = 0)
    (hlt : len < offset) : ms.mmap startAddr len offset context flags p = none := by
  rw [Option.eq_none_iff_forall_ne_some]
  rintro ⟨r, p'⟩ h
  unfold mmap at h
  obtain ⟨range, p₁, -, hrest⟩ := bind_eq_some.mp h
  simp only [hfile, if_true] at hrest
  split at hrest <;>
  · obtain ⟨ms', p₂, -, hrest⟩ := bind_eq_some.mp hrest
    obtain ⟨u, p₃, hloop, -⟩ := bind_eq_some.mp hrest
    rw [MemorySet.mmapWriteLoop_eq_none_of_lt _ _ _ hlt] at hloop
    cases hloop

theorem MapArea.mapOne_shape {area area' : MapArea} {pt pt' : PageTable} {vpn : Nat} {p p' : Phys}
    (h : area.mapOne pt vpn p = some ((area', pt'), p')) :
    area'.vpnRange = area.vpnRange ∧ area'.mapType = area.mapType ∧ area'.mapPerm = area.mapPerm := by
  cases hty : area.mapType with
  | identical =>
      simp only [MapArea.mapOne, hty, pure_bind] at h
      obtain ⟨pt₁, p₁, -, hpure⟩ := bind_eq_some.mp h
      obtain ⟨hpair, -⟩ := pure_eq_some.mp hpure
      cases hpair
      exact ⟨rfl, hty, rfl⟩
  | framed =>
      obtain ⟨-, -, -, -, -, -, -, hty', hperm⟩ := MapArea.mapOne_framed hty h
      refine ⟨?_, hty', hperm⟩
      simp only [MapArea.mapOne, hty] at h
      obtain ⟨frame, p₁, -, hrest⟩ := bind_eq_some.mp h
      obtain ⟨⟨⟩, p₂, -, hrest⟩ := bind_eq_some.mp hrest
      rw [pure_bind] at hrest
      obtain ⟨pt₁, p₃, -, hpure⟩ := bind_eq_some.mp hrest
      obtain ⟨hpair, -⟩ := pure_eq_some.mp hpure
      cases hpair
      rfl
  | marked =>
      simp only [MapArea.mapOne, hty] at h
      exact absurd h (by simp)

theorem MapArea.map_shape {area area' : MapArea} {pt pt' : PageTable} {p p' : Phys}
    (h : area.map pt p = some ((area', pt'), p')) :
    area'.vpnRange = area.vpnRange ∧ area'.mapType = area.mapType ∧ area'.mapPerm = area.mapPerm := by
  cases hty : area.mapType with
  | marked =>
      simp only [MapArea.map, hty] at h
      obtain ⟨pt₁, p₁, -, hpure⟩ := bind_eq_some.mp h
      obtain ⟨hpair, -⟩ := pure_eq_some.mp hpure
      cases hpair
      exact ⟨rfl, hty, rfl⟩
  | identical | framed =>
      simp only [MapArea.map, hty] at h
      refine foldlM_invariant _ (fun b _ => b.1.vpnRange = area.vpnRange ∧ b.1.mapType = area.mapType ∧
          b.1.mapPerm = area.mapPerm) (fun b vpn s b' s' _ hb hone => ?_) ⟨rfl, rfl, rfl⟩ h |>.imp_right
        (fun h => hty ▸ h)
      obtain ⟨h₁, h₂, h₃⟩ := MapArea.mapOne_shape hone
      exact ⟨h₁.trans hb.1, h₂.trans hb.2.1, h₃.trans hb.2.2⟩

theorem MapArea.map_holds {area area' : MapArea} {pt pt' : PageTable} {p p' : Phys}
    (hframed : area.mapType = .framed) (h : area.map pt p = some ((area', pt'), p')) : area'.Holds := by
  have hrange := (MapArea.map_shape h).1
  rw [MapArea.map_framed hframed] at h
  obtain ⟨-, hall⟩ := foldlM_forall_mem _ (fun b _ => b.1.mapType = .framed)
    (fun vpn b _ => ∃ frame, SortedMap.get? b.1.dataFrames vpn = some frame ∧ frame.hold = true)
    (fun ⟨a, pt⟩ vpn _ ⟨a', pt'⟩ _ _ hty hone => by
      obtain ⟨c, -, -, -, -, -, hdata, hty', -⟩ := MapArea.mapOne_framed hty hone
      exact ⟨hty', ⟨c, true⟩, by rw [hdata, SortedMap.get?_insert, if_pos rfl], rfl⟩)
    (fun ⟨a, pt⟩ vpn other _ ⟨a', pt'⟩ _ _ hty ⟨frame, hget, hhold⟩ hone => by
      obtain ⟨c, -, -, -, -, -, hdata, -, -⟩ := MapArea.mapOne_framed hty hone
      rw [hdata, SortedMap.get?_insert]
      split
      · exact ⟨⟨c, true⟩, rfl, rfl⟩
      · exact ⟨frame, hget, hhold⟩)
    hframed h
  intro vpn hvpn
  rw [hrange] at hvpn
  exact hall vpn hvpn

theorem MemorySet.insertFramedArea_eq_some {ms ms' : MemorySet} {startVa endVa permission : Nat}
    {p p' : Phys} (h : ms.insertFramedArea startVa endVa permission p = some (ms', p')) :
    ∃ area : MapArea, area.vpnRange.l = floor startVa ∧ area.vpnRange.r = ceil endVa ∧
      area.mapType = .framed ∧ area.mapPerm = permission ∧ area.Holds ∧
      ms' = { ms with pageTable := ms'.pageTable, areas := ms.areas ++ [area] } := by
  obtain ⟨area, p₁, hnew, hpush⟩ := bind_eq_some.mp h
  obtain ⟨hmk, rfl⟩ := lift_eq_some.mp hnew
  obtain ⟨range, hrange, rfl⟩ := Option.map_eq_some_iff.mp hmk
  obtain ⟨area', hmap, hms⟩ := MemorySet.push_none_eq_some hpush
  obtain ⟨hl, hty, hperm⟩ := MapArea.map_shape hmap
  have hholds := MapArea.map_holds rfl hmap
  unfold VPNRange.new at hrange
  split at hrange
  · cases hrange
    exact ⟨area', by rw [hl], by rw [hl], hty, hperm, hholds, hms⟩
  · cases hrange

theorem MemorySet.removeAreaWithStartVpn_eq_some {ms ms' : MemorySet} {startVpn : Nat} {p p' : Phys}
    (h : ms.removeAreaWithStartVpn startVpn p = some (ms', p')) :
    ∃ idx, ms.areas.findIdx? (fun area => area.vpnRange.l == startVpn) = some idx ∧
      ms' = { ms with pageTable := ms'.pageTable, areas := ms.areas.eraseIdx idx } := by
  unfold MemorySet.removeAreaWithStartVpn at h
  cases hfind : ms.areas.findIdx? (fun area => area.vpnRange.l == startVpn) with
  | none =>
      simp only [hfind] at h
      exact absurd h failure_ne_some
  | some idx =>
      simp only [hfind] at h
      obtain ⟨area, p₁, -, hrest⟩ := bind_eq_some.mp h
      obtain ⟨⟨area₁, pt⟩, p₂, -, hrest⟩ := bind_eq_some.mp hrest
      obtain ⟨⟨⟩, p₃, -, hpure⟩ := bind_eq_some.mp hrest
      obtain ⟨rfl, -⟩ := pure_eq_some.mp hpure
      exact ⟨idx, rfl, rfl⟩

theorem dropTrackers_spec {frames : List (Nat × FrameTracker)} {p p' : Phys} {u : PUnit}
    (h : frames.forM (fun entry => entry.2.drop) p = some (u, p')) :
    p.Releases p' ∧ ∀ entry ∈ frames, entry.2.hold → entry.2.ppn ∈ p'.allocator.recycled :=
  forM_forall_mem _ p.Releases (fun entry s => entry.2.hold → entry.2.ppn ∈ s.allocator.recycled)
    (fun _ _ _ _ hs hdrop => ⟨hs.trans (FrameTracker.drop_spec hdrop).1, (FrameTracker.drop_spec hdrop).2⟩)
    (fun _ _ _ _ _ _ hdone hdrop hhold => (FrameTracker.drop_spec hdrop).1.recycled _ (hdone hhold))
    (Phys.Releases.refl p) h

theorem MemorySet.removeAreaWithStartVpn_releases {ms ms' : MemorySet} {startVpn : Nat} {p p' : Phys}
    (h : ms.removeAreaWithStartVpn startVpn p = some (ms', p')) :
    ∃ idx area, ms.areas.findIdx? (fun area => area.vpnRange.l == startVpn) = some idx ∧
      ms.areas[idx]? = some area ∧ (area.mapType = .framed → p.Releases p' ∧ area.Released p') := by
  unfold MemorySet.removeAreaWithStartVpn at h
  cases hfind : ms.areas.findIdx? (fun area => area.vpnRange.l == startVpn) with
  | none =>
      simp only [hfind] at h
      exact absurd h failure_ne_some
  | some idx =>
      simp only [hfind] at h
      obtain ⟨area, p₁, hlift, hrest⟩ := bind_eq_some.mp h
      obtain ⟨hget, rfl⟩ := lift_eq_some.mp hlift
      obtain ⟨⟨area₁, pt⟩, p₂, hunmap, hrest⟩ := bind_eq_some.mp hrest
      obtain ⟨⟨⟩, p₃, hdrop, hpure⟩ := bind_eq_some.mp hrest
      obtain ⟨-, rfl⟩ := pure_eq_some.mp hpure
      have hlater := (dropTrackers_spec hdrop).1
      refine ⟨idx, area, rfl, hget, fun hframed => ?_⟩
      obtain ⟨hrel, hreleased⟩ := MapArea.unmap_releases hframed hunmap
      exact ⟨hrel.trans hlater, hreleased.of_releases hlater⟩

theorem MemorySet.drop_spec {ms : MemorySet} {p p' : Phys} {u : Unit} (h : ms.drop p = some (u, p')) :
    p.Releases p' ∧ (∀ ppn ∈ ms.pageTable.frames, ppn ∈ p'.allocator.recycled) ∧
      (∀ area ∈ ms.areas, ∀ entry ∈ area.dataFrames, entry.2.hold → entry.2.ppn ∈ p'.allocator.recycled) ∧
      (∀ entry ∈ ms.heapArea ++ ms.mmapArea, entry.2.hold → entry.2.ppn ∈ p'.allocator.recycled) := by
  unfold MemorySet.drop at h
  obtain ⟨⟨⟩, p₁, htable, h⟩ := bind_eq_some.mp h
  obtain ⟨⟨⟩, p₂, hareas, h⟩ := bind_eq_some.mp h
  obtain ⟨⟨⟩, p₃, hheap, hmmap⟩ := bind_eq_some.mp h
  obtain ⟨hrel₁, htable'⟩ := forM_forall_mem _ p.Releases (fun ppn s => ppn ∈ s.allocator.recycled)
    (fun _ _ _ _ hs hdealloc => ⟨hs.trans (frameDealloc_releases hdealloc).1, (frameDealloc_releases hdealloc).2⟩)
    (fun _ _ _ _ _ _ hdone hdealloc => (frameDealloc_releases hdealloc).1.recycled _ hdone)
    (Phys.Releases.refl p) htable
  obtain ⟨hrel₂, hareas'⟩ := forM_forall_mem _ p₁.Releases
    (fun area s => ∀ entry ∈ area.dataFrames, entry.2.hold → entry.2.ppn ∈ s.allocator.recycled)
    (fun _ _ _ _ hs hdrop => ⟨hs.trans (dropTrackers_spec hdrop).1, (dropTrackers_spec hdrop).2⟩)
    (fun _ _ _ _ _ _ hdone hdrop entry hentry hhold =>
      (dropTrackers_spec hdrop).1.recycled _ (hdone entry hentry hhold))
    (Phys.Releases.refl p₁) hareas
  obtain ⟨hrel₃, hheap'⟩ := dropTrackers_spec hheap
  obtain ⟨hrel₄, hmmap'⟩ := dropTrackers_spec hmmap
  have hlater : p₁.Releases p' := hrel₂.trans (hrel₃.trans hrel₄)
  refine ⟨hrel₁.trans hlater, fun ppn hppn => hlater.recycled _ (htable' ppn hppn),
    fun area harea entry hentry hhold => (hrel₃.trans hrel₄).recycled _ (hareas' area harea entry hentry hhold),
    fun entry hentry hhold => ?_⟩
  rcases List.mem_append.mp hentry with hheap_mem | hmmap_mem
  · exact hrel₄.recycled _ (hheap' entry hheap_mem hhold)
  · exact hmmap' entry hmmap_mem hhold

end Steps

end OsKernel.Mm

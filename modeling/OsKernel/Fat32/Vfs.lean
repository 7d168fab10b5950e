import OsKernel.Fat32.Bitmap
import OsKernel.Fs.Cache
import OsKernel.Lib.Word

/-! # File content of a FAT32 inode

The byte-level operations of `Inode` in `fs/fat32/vfs.rs`: the cluster list
grows and shrinks through the FAT allocator, and every read and write goes
through the page caches of the inode, one page per round of a loop, a page
being read in from the sectors that `get_neighboring_sec` finds for it in the
cluster list.  `size` is a `u32` and offsets are `usize`; their arithmetic
wraps.
-/

namespace OsKernel.Fat32

open Bitmap Fs

/-- The geometry of `EasyFileSystem`.  A volume with a zero in one of the two
    counts panics on its first division, so a geometry carries that they are
    positive. -/
structure Efs where
  secPerClus : Nat
  bytsPerSec : Nat
  dataAreaStartBlock : Nat
  secPerClus_pos : 0 < secPerClus
  bytsPerSec_pos : 0 < bytsPerSec

namespace Efs

def clusSize (efs : Efs) : Nat :=
  efs.bytsPerSec * efs.secPerClus

/-- `first_sector_of_cluster`, in `u32`. -/
def firstSectorOfCluster (efs : Efs) (clusNum : Nat) : Nat :=
  Word.add 32 efs.dataAreaStartBlock (Word.mul 32 (Word.sub 32 clusNum 2) efs.secPerClus)

end Efs

structure FileContent where
  size : Nat
  clusList : List Nat
  /-- For a directory, where its last entry is. -/
  hint : Nat

/-- What the content operations of one `Inode` read and write: its content and
    page caches, and the volume's FAT and blocks. -/
structure FileState where
  content : FileContent
  fileCacheMgr : PageCacheManager
  fat : Fat
  disk : Disk

/-- One round of the page loop of `read_at`, `write_at` and `clear_at`: the
    cache index, the offset in the page, the length and the offset in the
    buffer. -/
structure Round where
  cacheId : Nat
  pageOff : Nat
  len : Nat
  bufOff : Nat
deriving DecidableEq, Repr

/-- The page loop of `read_at`, `write_at` and `clear_at`, up to the cache
    calls.  It runs at least once and moves `start` to the next page boundary
    each round; a round whose end is below its start underflows its length,
    and the slice then panics. -/
def pageRoundsLoop : Nat → Nat → Nat → Nat → Nat → Option (List Round)
  | 0, _, _, _, _ => none
  | fuel + 1, startCache, start, stop, done =>
      let endCurrentBlock := min ((start / cacheSz + 1) * cacheSz) stop
      if endCurrentBlock < start then none
      else
        let round : Round := ⟨startCache, start % cacheSz, endCurrentBlock - start, done⟩
        if endCurrentBlock = stop then some [round]
        else (pageRoundsLoop fuel (startCache + 1) endCurrentBlock stop (done + round.len)).map
          (round :: ·)

/-- The rounds over `[start, stop)`: one per page it touches, so
    `stop / CACHE_SZ - start / CACHE_SZ + 1` are enough. -/
def pageRounds (start stop : Nat) : Option (List Round) :=
  pageRoundsLoop (stop / cacheSz - start / cacheSz + 1) (start / cacheSz) start stop 0

namespace Inode

variable (efs : Efs)

/-- `total_clus`: `size.div_ceil(clus_size)`. -/
def totalClus (size : Nat) : Nat :=
  (size + efs.clusSize - 1) / efs.clusSize

/-- The loop of `get_neighboring_sec`: at most `n` sectors from `secId` on,
    stopping at the first one past the cluster list. -/
def neighboringLoop (clusList : List Nat) : Nat → Nat → List Nat
  | 0, _ => []
  | n + 1, secId =>
      let clusterId := secId / efs.secPerClus
      if clusList.length ≤ clusterId then []
      else
        (efs.firstSectorOfCluster (clusList.getD clusterId 0) + secId % efs.secPerClus) ::
          neighboringLoop clusList n (secId + 1)

/-- `get_neighboring_sec`: the sectors of page `innerCacheId` of the file. -/
def getNeighboringSec (clusList : List Nat) (innerCacheId : Nat) : List Nat :=
  let secPerCache := cacheSz / efs.bytsPerSec
  neighboringLoop efs clusList secPerCache (innerCacheId * secPerCache)

/-- `alloc_clus`: as many of `allocNum` clusters as the FAT gives, appended. -/
def allocClus (st : FileState) (allocNum : Nat) : FileState :=
  let (fat, newClus) := st.fat.alloc allocNum st.content.clusList.getLast?
  { st with fat, content := { st.content with clusList := st.content.clusList ++ newClus } }

/-- `dealloc_clus`: pop up to `deallocNum` clusters off the end and free them,
    last first, ending the chain at the new last cluster. -/
def deallocClus (st : FileState) (deallocNum : Nat) : FileState :=
  let clusList := st.content.clusList
  let kept := clusList.take (clusList.length - min deallocNum clusList.length)
  let deallocList := (clusList.drop kept.length).reverse
  { st with fat := st.fat.free deallocList kept.getLast?,
            content := { st.content with clusList := kept } }

/-- `get_cache` of the round's page, then the `modify` that writes `bytes` at
    the round's offset. -/
def writeRound (st : FileState) (r : Round) (bytes : List UInt8) : Option FileState := do
  let (mgr, pc) ← st.fileCacheMgr.getCache r.cacheId
    (getNeighboringSec efs st.content.clusList r.cacheId) st.disk
  pure { st with fileCacheMgr := mgr.setCache r.cacheId (pc.write r.pageOff bytes) }

/-- `get_cache` of the round's page, then the `read` of the round's bytes. -/
def readRound (st : FileState) (r : Round) : Option (FileState × List UInt8) := do
  let (mgr, pc) ← st.fileCacheMgr.getCache r.cacheId
    (getNeighboringSec efs st.content.clusList r.cacheId) st.disk
  pure ({ st with fileCacheMgr := mgr }, pc.read r.pageOff r.len)

/-- `clear_at_block_cache_lock`: zeroes over `[offset, offset + length)`. -/
def clearAtBlockCacheLock (st : FileState) (offset length : Nat) : Option (FileState × Nat) := do
  let rounds ← pageRounds offset (offset + length)
  let st ← rounds.foldlM (fun st r => writeRound efs st r (List.replicate r.len 0)) st
  pure (st, (rounds.map Round.len).sum)

/-- `modify_size_lock`: the size moves by `diff` in `u32`, the cluster list
    follows it, and then a growth is zeroed when `clear` is set, while a
    shrink drops the caches past the new end. -/
def modifySizeLock (st : FileState) (diff : Int) (clear : Bool) : Option FileState := do
  let oldSize := st.content.size
  let newSize := Word.ofInt 32 (oldSize + diff)
  let oldClusNum := totalClus efs oldSize
  let newClusNum := totalClus efs newSize
  let st := if 0 < diff then allocClus st (Word.sub 64 newClusNum oldClusNum)
    else deallocClus st (Word.sub 64 oldClusNum newClusNum)
  let st := { st with content := { st.content with size := newSize } }
  if 0 < diff then
    if clear then do
      let (st, _) ← clearAtBlockCacheLock efs st oldSize (Word.sub 32 newSize oldSize)
      pure st
    else pure st
  else pure { st with fileCacheMgr := st.fileCacheMgr.notifyNewSize newSize }

/-- `read_at_block_cache_rlock`: the bytes of `[offset, min(offset + len, size))`. -/
def readAtBlockCacheRlock (st : FileState) (offset len : Nat) :
    Option (FileState × List UInt8) := do
  let stop := min (Word.add 64 offset len) st.content.size
  if stop ≤ offset then pure (st, [])
  else
    let rounds ← pageRounds offset stop
    rounds.foldlM (fun (st, out) r => do
      let (st, bytes) ← readRound efs st r
      pure (st, out ++ bytes)) (st, [])

/-- `write_at_block_cache_lock`: a write past the end first moves the size to
    its end, without clearing, then the bytes go in up to the size; returns the
    number of bytes written. -/
def writeAtBlockCacheLock (st : FileState) (offset : Nat) (buf : List UInt8) :
    Option (FileState × Nat) := do
  let diffLen := Word.signed 64 (Word.sub 64 (Word.add 64 buf.length offset) st.content.size)
  let st ← if 0 < diffLen then modifySizeLock efs st diffLen false else pure st
  let stop := min (Word.add 64 offset buf.length) st.content.size
  let rounds ← pageRounds offset stop
  let st ← rounds.foldlM (fun st r => writeRound efs st r ((buf.drop r.bufOff).take r.len)) st
  pure (st, (rounds.map Round.len).sum)

/-- `OSInode::truncate_size`. -/
def truncateSize (st : FileState) (newSize : Nat) : Option FileState :=
  modifySizeLock efs st (Word.signed 64 (Word.sub 64 newSize st.content.size)) true

/-- `OSInode::modify_size`. -/
def modifySize (st : FileState) (diff : Int) : Option FileState :=
  modifySizeLock efs st diff true

end Inode

/-! ## The content a file should have

A regular file seen as the byte string it stands for: a write past the end
first pads with zeros up to its offset, and a truncation to a larger size pads
with zeros. -/

namespace ByteFile

def write (s : List UInt8) (off : Nat) (buf : List UInt8) : List UInt8 :=
  let s := s ++ List.replicate (off - s.length) 0
  s.take off ++ buf ++ s.drop (off + buf.length)

def truncate (s : List UInt8) (n : Nat) : List UInt8 :=
  s.take n ++ List.replicate (n - s.length) 0

def read (s : List UInt8) (off n : Nat) : List UInt8 :=
  (s.drop off).take n

end ByteFile

theorem sectorBytes_pos : 0 < 512 := by
  decide

/-- A volume of 8-sector clusters of 512-byte sectors with data from sector 100,
    whose FAT has 16 entries, all free from cluster 2 on; an empty file on it
    with no cache, over a zeroed device. -/
def sdEfs : Efs :=
  ⟨8, 512, 100, by decide, sectorBytes_pos⟩

def emptyFile : FileState :=
  ⟨⟨0, [], 0⟩, PageCacheManager.new, ⟨fun c => if c < 2 then eoc else fatEntryFree, 16, [], 2⟩,
    fun _ _ => 0⟩

/-- `"ABCDEFGH"`. -/
def eightBytes : List UInt8 :=
  [0x41, 0x42, 0x43, 0x44, 0x45, 0x46, 0x47, 0x48]

theorem write_past_end_reads_stale_bytes :
    ∃ st₁ n₁ st₂ st₃ n₃ st₄,
      Inode.writeAtBlockCacheLock sdEfs emptyFile 0 eightBytes = some (st₁, n₁) ∧
      Inode.truncateSize sdEfs st₁ 4 = some st₂ ∧
      Inode.writeAtBlockCacheLock sdEfs st₂ 8 [0x5A] = some (st₃, n₃) ∧
      Inode.readAtBlockCacheRlock sdEfs st₃ 0 9 =
        some (st₄, [0x41, 0x42, 0x43, 0x44, 0x45, 0x46, 0x47, 0x48, 0x5A]) ∧
      ByteFile.read (ByteFile.write (ByteFile.truncate (ByteFile.write [] 0 eightBytes) 4) 8 [0x5A])
        0 9 = [0x41, 0x42, 0x43, 0x44, 0, 0, 0, 0, 0x5A] := by
  have hrun : ((Inode.writeAtBlockCacheLock sdEfs emptyFile 0 eightBytes).bind fun r₁ =>
      (Inode.truncateSize sdEfs r₁.1 4).bind fun st₂ =>
      (Inode.writeAtBlockCacheLock sdEfs st₂ 8 [0x5A]).bind fun r₃ =>
      (Inode.readAtBlockCacheRlock sdEfs r₃.1 0 9).map Prod.snd) =
      some [0x41, 0x42, 0x43, 0x44, 0x45, 0x46, 0x47, 0x48, 0x5A] := by
    decide +kernel
  simp only [Option.bind_eq_some_iff, Option.map_eq_some_iff] at hrun
  obtain ⟨⟨st₁, n₁⟩, h₁, st₂, h₂, ⟨st₃, n₃⟩, h₃, ⟨st₄, bytes⟩, h₄, rfl⟩ := hrun
  exact ⟨st₁, n₁, st₂, st₃, n₃, st₄, h₁, h₂, h₃, h₄, by decide⟩

end OsKernel.Fat32

import OsKernel.Fat32.Content
import OsKernel.Fat32.DirIter

/-! # An inode and its short entry

`Inode::new` and `Inode::from_ent` build an inode from the short entry its
parent directory holds for it, and `Drop for Inode` is to write the size and
first cluster back to that entry (`fs/fat32/vfs.rs`).  The write-back edits a
copy of the short entry and writes the entry it read, so the parent keeps the
bytes it had.
-/

namespace OsKernel.Fat32

open Bitmap Fs

namespace Inode

variable (efs : Efs)

/-- The loop of `set_hint`: every entry in `Enum` mode, up to the first that is
    `last_and_unused`. -/
def setHintLoop : Nat → DirIter → FileState → Option FileState
  | 0, _, _ => none
  | fuel + 1, it, st => do
      let (st, it, dirEnt) ← it.next efs st
      match dirEnt with
      | none => pure { st with content.hint := st.content.size }
      | some dirEnt =>
          if dirEnt.lastAndUnused then do
            let offset ← it.offset
            pure { st with content.hint := offset }
          else setHintLoop fuel it st

def setHint (st : FileState) : Option FileState :=
  setHintLoop efs (st.content.size / stepSize + 1) ⟨none, .enum, forward⟩ st

/-- `Inode::new` on the FAT and device of the volume.  The loop of
    `get_all_clus_num` ends only on a chain without a cycle, of at most
    `tot_ent` clusters, which is its fuel here. -/
def new (fat : Fat) (disk : Disk) (fstClus : Nat) (fileType : DiskInodeType)
    (size : Option Nat) : Option FileState := do
  let clusList ← if fstClus = 0 then pure [] else fat.getAllClusNum (fat.totEnt + 1) fstClus
  let size := size.getD (Word.mul 32 clusList.length efs.clusSize)
  let inode : FileState := ⟨⟨size, clusList, 0⟩, PageCacheManager.new, fat, disk⟩
  if fileType = .directory then setHint efs inode else pure inode

/-- `Inode::from_ent`: the size of a file is its `file_size`, that of a
    directory what its clusters hold. -/
def fromEnt (fat : Fat) (disk : Disk) (ent : FATDirEnt) : Option (FileState × DiskInodeType) :=
  let fileType := if ent.isDir then DiskInodeType.directory else .file
  (new efs fat disk ent.firstClus fileType (if ent.isFile then some ent.fileSize else none)).map
    (·, fileType)

def getDirEnt (st : FileState) (offset : Nat) : Option (FileState × Except Unit FATDirEnt) := do
  let (st, bytes) ← readAtBlockCacheRlock efs st offset stepSize
  pure (st, if bytes.length ≠ stepSize then .error () else .ok (FATDirEnt.ofRead bytes))

def setDirEnt (st : FileState) (offset : Nat) (dirEnt : FATDirEnt) :
    Option (FileState × Except Unit Unit) := do
  let (st, written) ← writeAtBlockCacheLock efs st offset dirEnt.bytes
  pure (st, if written ≠ dirEnt.bytes.length then .error () else .ok ())

/-- `get_first_clus_lock`. -/
def getFirstClusLock (st : FileState) : Option Nat :=
  st.content.clusList.head?

/-- `Drop for Inode`, of an inode with content `st`, its `deleted` flag and its
    `parent_dir` with the offset of its short entry: the content after, and the
    parent after the write-back. -/
def drop (st : FileState) (deleted : Bool) (parentDir : Option (FileState × Nat)) :
    Option (FileState × Option FileState) :=
  if deleted then pure (deallocClus st st.content.clusList.length, parentDir.map Prod.fst)
  else
    match parentDir with
    | none => pure (st, none)
    | some (parentDir, offset) => do
        let (parentDir, dirEnt) ← getDirEnt efs parentDir offset
        let dirEnt ← dirEnt.toOption
        let shortDirEnt ← dirEnt.getShortEnt
        -- the copy `short_dir_ent` gets the size and the first cluster
        let _shortDirEnt := (shortDirEnt.setFileSize st.content.size.toUInt32).setFstClus
          ((getFirstClusLock st).getD 0).toUInt32
        -- and `dir_ent`, as it was read, is what goes back
        let (parentDir, written) ← setDirEnt efs parentDir offset dirEnt
        written.toOption
        pure (st, some parentDir)

/-! ## The parent keeps its bytes -/

section WriteBack

variable {efs} (h512 : efs.bytsPerSec = bufferSize)
include h512

theorem getDirEnt_refines {st : FileState} {s : List UInt8} (hrep : Represents efs st s)
    {offset : Nat} (hoff : offset + stepSize ≤ s.length) :
    ∃ st', getDirEnt efs st offset =
        some (st', .ok (FATDirEnt.ofRead (ByteFile.read s offset stepSize))) ∧
      Represents efs st' s := by
  have hsize := hrep.size_lt
  obtain ⟨st', hread, hrep'⟩ :=
    readAtBlockCacheRlock_refines h512 hrep offset stepSize (by omega)
  refine ⟨st', ?_, hrep'⟩
  simp [getDirEnt, hread, ByteFile.length_read hoff]

theorem setDirEnt_refines {st : FileState} {s : List UInt8} (hrep : Represents efs st s)
    {offset : Nat} (hoff : offset + stepSize ≤ s.length) (dirEnt : FATDirEnt) :
    ∃ st', setDirEnt efs st offset dirEnt = some (st', .ok ()) ∧
      Represents efs st' (ByteFile.write s offset dirEnt.bytes) := by
  have hsize := hrep.size_lt
  have hgrow : totalClus efs (offset + dirEnt.bytes.length) - totalClus efs s.length = 0 :=
    Nat.sub_eq_zero_of_le (totalClus_mono (by rw [dirEnt.length_eq]; exact hoff))
  obtain ⟨st', hwrite, hrep'⟩ := writeAtBlockCacheLock_refines h512 hrep dirEnt.bytes
    (show offset ≤ s.length by omega) (by rw [dirEnt.length_eq]; omega)
    (by rw [hgrow]; exact supplies_zero st)
  refine ⟨st', ?_, hrep'⟩
  simp [setDirEnt, hwrite]

/-- `drop` of an inode that is not deleted leaves its parent holding the bytes
    it held, whatever the size and clusters of the inode: the short entry
    keeps what it recorded before. -/
theorem drop_writes_back_stale_entry {st parentDir : FileState} {s : List UInt8} {offset : Nat}
    (hrep : Represents efs parentDir s) (hoff : offset + stepSize ≤ s.length)
    (hshort : (FATDirEnt.ofRead (ByteFile.read s offset stepSize)).isLong = false) :
    ∃ parentDir', drop efs st false (some (parentDir, offset)) = some (st, some parentDir') ∧
      Represents efs parentDir' s := by
  obtain ⟨par₁, hget, hrep₁⟩ := getDirEnt_refines h512 hrep hoff
  obtain ⟨par₂, hset, hrep₂⟩ :=
    setDirEnt_refines h512 hrep₁ hoff (FATDirEnt.ofRead (ByteFile.read s offset stepSize))
  have hsame : (FATDirEnt.ofRead (ByteFile.read s offset stepSize)).bytes =
      ByteFile.read s offset stepSize :=
    FATDirEnt.ofRead_bytes (ByteFile.length_read hoff)
  rw [hsame, ByteFile.write_read_self hoff] at hrep₂
  refine ⟨par₂, ?_, hrep₂⟩
  simp [drop, hget, FATDirEnt.getShortEnt, hshort, hset, Except.toOption]

theorem next_first_used {st : FileState} {s : List UInt8} (hrep : Represents efs st s)
    (hlen : stepSize ≤ s.length)
    (hused : (FATDirEnt.ofRead (ByteFile.read s 0 stepSize)).unused = false) :
    ∃ st' it', (DirIter.mk none .used forward).next efs st =
      some (st', it', some (FATDirEnt.ofRead (ByteFile.read s 0 stepSize))) := by
  obtain ⟨st', hread, -⟩ := readAtBlockCacheRlock_refines h512 hrep 0 stepSize (by decide)
  have hlast : (FATDirEnt.ofRead (ByteFile.read s 0 stepSize)).lastAndUnused = false := by
    simp only [FATDirEnt.unused, Bool.or_eq_false_iff] at hused
    exact hused.1
  have hsize : ¬ st.content.size ≤ 0 := by
    rw [hrep.size_eq]
    unfold stepSize at hlen
    omega
  refine ⟨st', ⟨some 0, .used, forward⟩, ?_⟩
  show DirIter.nextLoop efs ((st.content.size + 0) / stepSize + 1 + 1) _ st = _
  simp [DirIter.nextLoop, DirIter.step, DirIter.readEnt, forward, hread, hlast, hused,
    checkDirEntLegality, hsize]

end WriteBack

/-! ## Metadata read from the disk -/

theorem new_of_closed {fat : Fat} {S : Nat → Prop} (hclosed : ∀ c, S c → S (fat.getNextClusNum c))
    (hcont : ∀ c, S c → ¬ (fat.getNextClusNum c = badBlock ∨ fat.getNextClusNum c = fatEntryFree ∨
      fatEntryReservedToEnd ≤ fat.getNextClusNum c))
    {fstClus : Nat} (hS : S fstClus) (hzero : fstClus ≠ 0) (disk : Disk) (fileType : DiskInodeType)
    (size : Option Nat) : new efs fat disk fstClus fileType size = none := by
  simp [new, hzero, Fat.getAllClusNum_of_closed fat hclosed hcont _ _ hS]

/-- A FAT whose chain from a cluster runs into a cycle makes `get_all_clus_num`
    loop, and `Inode::new` of a file there with it; a directory whose first
    entry is a long entry that is not the last of its name makes
    `DirWalker::next` panic. -/
theorem malformed_metadata_hangs_or_panics :
    (∀ (f : Fat) (S : Nat → Prop), (∀ c, S c → S (f.getNextClusNum c)) →
      (∀ c, S c → ¬ (f.getNextClusNum c = badBlock ∨ f.getNextClusNum c = fatEntryFree ∨
        fatEntryReservedToEnd ≤ f.getNextClusNum c)) →
      ∀ c, S c → (∀ fuel, f.getAllClusNum fuel c = none) ∧
        ∀ (efs : Efs) (disk : Disk) (fileType : DiskInodeType) (size : Option Nat), c ≠ 0 →
          new efs f disk c fileType size = none) ∧
    ∀ (efs : Efs) (st : FileState) (s : List UInt8), efs.bytsPerSec = bufferSize →
      Represents efs st s → stepSize ≤ s.length →
      (FATDirEnt.ofRead (ByteFile.read s 0 stepSize)).isLong = true →
      (FATDirEnt.ofRead (ByteFile.read s 0 stepSize)).isLastLongDirEnt = false →
      (FATDirEnt.ofRead (ByteFile.read s 0 stepSize)).unused = false →
      walkerNext efs ⟨none, .used, forward⟩ st = none := by
  refine ⟨fun f S hclosed hcont c hc => ⟨fun fuel => Fat.getAllClusNum_of_closed f hclosed hcont fuel c hc,
    fun efs disk fileType size hzero => new_of_closed efs hclosed hcont hc hzero disk fileType size⟩, ?_⟩
  intro efs st s h512 hrep hlen hlong hlast hused
  obtain ⟨st', it', hnext⟩ := next_first_used h512 hrep hlen hused
  exact walkerNext_eq_none_of_orphan hnext hlong hlast

/-! ## A file that grew after its entry was written -/

/-- A volume of one-sector clusters. -/
def sectorEfs : Efs :=
  ⟨1, 512, 100, by decide, sectorBytes_pos⟩

/-- The short entry `FILE` of an empty file: size 0 and no first cluster. -/
def emptyFileEnt : FATDirEnt :=
  FATDirEnt.fromName ⟨[0x46, 0x49, 0x4C, 0x45, 0x20, 0x20, 0x20, 0x20, 0x20, 0x20, 0x20], rfl⟩ 0 .file

def oneFileDirBytes : List UInt8 :=
  emptyFileEnt.bytes ++ List.replicate 480 0

theorem oneFileDirBytes_length : oneFileDirBytes.length = 512 := by
  rw [oneFileDirBytes, List.length_append, emptyFileEnt.length_eq, List.length_replicate]
  rfl

/-- A directory in cluster 2, at sector 100, holding `emptyFileEnt` first; no
    page of it is cached. -/
def oneFileDir : FileState :=
  ⟨⟨512, [2], 32⟩, PageCacheManager.new, ⟨fun c => if c < 4 then eoc else fatEntryFree, 16, [], 4⟩,
    fun sec i => if sec = 100 then oneFileDirBytes.getD i 0 else 0⟩

/-- A directory of one cluster, cluster 2 at sector 100, holding `bytes`, with
    no page cached: a read sees the sector. -/
def sectorDir (bytes : List UInt8) (hint : Nat) (fat : Fat) : FileState :=
  ⟨⟨512, [2], hint⟩, PageCacheManager.new, fat, fun sec i => if sec = 100 then bytes.getD i 0 else 0⟩

theorem viewByte_sectorDir (bytes : List UInt8) (hint : Nat) (fat : Fat) {i : Nat} (hi : i < 512) :
    viewByte sectorEfs (sectorDir bytes hint fat) i = bytes.getD i 0 := by
  have hsec : i / bufferSize = 0 := Nat.div_eq_of_lt hi
  have hoff : i % bufferSize = i := Nat.mod_eq_of_lt hi
  have hfirst : sectorEfs.firstSectorOfCluster 2 = 100 := by decide
  show diskByte sectorEfs [2] (sectorDir bytes hint fat).disk i = _
  simp only [diskByte, hsec, Nat.zero_div, Nat.zero_mod, List.getD_cons_zero, hfirst, Nat.add_zero, hoff]
  simp [sectorDir]

theorem represents_sectorDir {bytes : List UInt8} (hlen : bytes.length = 512) (hint : Nat)
    (fat : Fat) : Represents sectorEfs (sectorDir bytes hint fat) bytes :=
  ⟨hlen.symm, by rw [hlen]; decide, by rw [hlen]; show 512 ≤ 1 * sectorEfs.clusSize; decide,
    fun i hi => viewByte_sectorDir bytes hint fat (hlen ▸ hi)⟩

/-- The file of that entry once it holds 10 bytes in cluster 3. -/
def grownFile : FileState :=
  { oneFileDir with content := ⟨10, [3], 0⟩ }

theorem drop_of_grown_file_keeps_empty_entry :
    Represents sectorEfs oneFileDir oneFileDirBytes ∧ 0 + stepSize ≤ oneFileDirBytes.length ∧
      (FATDirEnt.ofRead (ByteFile.read oneFileDirBytes 0 stepSize)).isLong = false ∧
      (∃ parentDir', drop sectorEfs grownFile false (some (oneFileDir, 0)) =
          some (grownFile, some parentDir') ∧
        Represents sectorEfs parentDir' oneFileDirBytes) ∧
      (fromEnt sectorEfs grownFile.fat grownFile.disk
          (FATDirEnt.ofRead (ByteFile.read oneFileDirBytes 0 stepSize))).map
        (fun r => r.1.content.size) = some 0 ∧
      grownFile.content.size = 10 := by
  have hrep : Represents sectorEfs oneFileDir oneFileDirBytes :=
    represents_sectorDir oneFileDirBytes_length 32 _
  have hoff : 0 + stepSize ≤ oneFileDirBytes.length := by
    rw [oneFileDirBytes_length]; decide
  exact ⟨hrep, hoff, by decide +kernel,
    drop_writes_back_stale_entry rfl hrep hoff (by decide +kernel), by decide +kernel, rfl⟩

/-! ## A cycle of two clusters, and a long entry alone -/

/-- Clusters 2 and 3 that point to each other. -/
def cycleFat : Fat :=
  ⟨fun c => if c = 2 then 3 else if c = 3 then 2 else eoc, 16, [], 4⟩

/-- A long entry of order 1 without `LAST_LONG_ENTRY`. -/
def orphanLongEnt : FATDirEnt :=
  ⟨[0x01] ++ List.replicate 10 0 ++ [attrLongName] ++ List.replicate 20 0, by simp [stepSize]⟩

def orphanDirBytes : List UInt8 :=
  orphanLongEnt.bytes ++ List.replicate 480 0

theorem orphanDirBytes_length : orphanDirBytes.length = 512 := by
  rw [orphanDirBytes, List.length_append, orphanLongEnt.length_eq, List.length_replicate]
  rfl

theorem cycle_and_orphan_entry :
    (∀ c, (c = 2 ∨ c = 3) → (cycleFat.getNextClusNum c = 2 ∨ cycleFat.getNextClusNum c = 3)) ∧
      (∀ c, (c = 2 ∨ c = 3) → ¬ (cycleFat.getNextClusNum c = badBlock ∨
        cycleFat.getNextClusNum c = fatEntryFree ∨ fatEntryReservedToEnd ≤ cycleFat.getNextClusNum c)) ∧
      (∀ fuel, cycleFat.getAllClusNum fuel 2 = none) ∧
      new sectorEfs cycleFat (fun _ _ => 0) 2 .file none = none ∧
      Represents sectorEfs (sectorDir orphanDirBytes 0 cycleFat) orphanDirBytes ∧
      stepSize ≤ orphanDirBytes.length ∧
      (FATDirEnt.ofRead (ByteFile.read orphanDirBytes 0 stepSize)).isLong = true ∧
      (FATDirEnt.ofRead (ByteFile.read orphanDirBytes 0 stepSize)).isLastLongDirEnt = false ∧
      (FATDirEnt.ofRead (ByteFile.read orphanDirBytes 0 stepSize)).unused = false ∧
      walkerNext sectorEfs ⟨none, .used, forward⟩ (sectorDir orphanDirBytes 0 cycleFat) = none := by
  have hclosed : ∀ c, (c = 2 ∨ c = 3) →
      (cycleFat.getNextClusNum c = 2 ∨ cycleFat.getNextClusNum c = 3) := by
    rintro c (rfl | rfl) <;> decide
  have hcont : ∀ c, (c = 2 ∨ c = 3) → ¬ (cycleFat.getNextClusNum c = badBlock ∨
      cycleFat.getNextClusNum c = fatEntryFree ∨ fatEntryReservedToEnd ≤ cycleFat.getNextClusNum c) := by
    rintro c (rfl | rfl) <;> decide
  have hrep := represents_sectorDir orphanDirBytes_length 0 cycleFat
  have hlen : stepSize ≤ orphanDirBytes.length := by
    rw [orphanDirBytes_length]
    decide
  have hlong : (FATDirEnt.ofRead (ByteFile.read orphanDirBytes 0 stepSize)).isLong = true := by
    decide +kernel
  have hlast : (FATDirEnt.ofRead (ByteFile.read orphanDirBytes 0 stepSize)).isLastLongDirEnt = false := by
    decide +kernel
  have hused : (FATDirEnt.ofRead (ByteFile.read orphanDirBytes 0 stepSize)).unused = false := by
    decide +kernel
  obtain ⟨hcycle, hwalk⟩ := malformed_metadata_hangs_or_panics
  obtain ⟨hloop, hnew⟩ := hcycle cycleFat (fun c => c = 2 ∨ c = 3) hclosed hcont 2 (Or.inl rfl)
  exact ⟨hclosed, hcont, hloop, hnew sectorEfs _ .file none (by decide), hrep, hlen, hlong, hlast, hused,
    hwalk sectorEfs _ _ rfl hrep hlen hlong hlast hused⟩

end Inode

end OsKernel.Fat32

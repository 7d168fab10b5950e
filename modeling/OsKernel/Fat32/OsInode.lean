import OsKernel.Fat32.Metadata
import OsKernel.Fat32.ShortName
import OsKernel.Fs.DirectoryTree

/-! # The FAT32 files under the directory tree

The `File` operations of `OSInode` (`fs/fat32/inode.rs`) that the directory
tree calls, over a volume of `Inode`s (`fs/fat32/vfs.rs`): `open_subfile`,
`create` through `create_lock`, `unlink` through `unlink_lock`, and
`link_child` through `link_par_lock`.  An `Inode` is its content, page caches,
type, parent and `deleted` flag; all of them share the FAT and the device of
the volume, so an operation on one inode runs on the `FileState` of that inode
over the volume's FAT and device.  A file of the tree is the id of its `Inode`:
the `OSInode`s that `open` makes share theirs.
-/

namespace OsKernel.Fat32

open Bitmap Fs Unicode Fallible

/-- `ENOTEMPTY`. -/
def enotempty : Int := -39

structure InodeRec where
  content : FileContent
  fileCacheMgr : PageCacheManager
  fileType : DiskInodeType
  /-- `parent_dir`: the parent's inode and the offset of the short entry. -/
  parentDir : Option (Nat × Nat)
  deleted : Bool

structure Volume where
  fat : Fat
  disk : Disk
  inodes : List InodeRec

namespace Volume

variable (efs : Efs)

def fileState (v : Volume) (id : Nat) : Option FileState :=
  v.inodes[id]?.map fun r => ⟨r.content, r.fileCacheMgr, v.fat, v.disk⟩

def setFile (v : Volume) (id : Nat) (st : FileState) : Volume :=
  ⟨st.fat, st.disk, v.inodes.modify id fun r =>
    { r with content := st.content, fileCacheMgr := st.fileCacheMgr }⟩

/-- An operation on the content of one inode. -/
def onFile {α : Type} (v : Volume) (id : Nat) (f : FileState → Option (FileState × α)) :
    Option (Volume × α) := do
  let (st, a) ← f (← v.fileState id)
  pure (v.setFile id st, a)

def modifyInode (v : Volume) (id : Nat) (f : InodeRec → InodeRec) : Volume :=
  { v with inodes := v.inodes.modify id f }

/-- A new `Inode` of content `st`. -/
def addInode (v : Volume) (st : FileState) (fileType : DiskInodeType)
    (parentDir : Option (Nat × Nat)) : Volume × Nat :=
  (⟨st.fat, st.disk, v.inodes ++ [⟨st.content, st.fileCacheMgr, fileType, parentDir, false⟩]⟩,
    v.inodes.length)

def isDir (v : Volume) (id : Nat) : Bool :=
  v.inodes[id]?.map (·.fileType) == some .directory

def isFile (v : Volume) (id : Nat) : Bool :=
  v.inodes[id]?.map (·.fileType) == some .file

def firstClus? (v : Volume) (id : Nat) : Option Nat :=
  (v.inodes[id]?.map (·.content.clusList)).bind List.head?

end Volume

namespace Inode

variable (efs : Efs)

/-- The loop of `get_all_files_lock`: the names of the walk but `.` and `..`,
    each with its short entry and offset. -/
def getAllFilesLoop : Nat → DirIter → FileState →
    Option (FileState × List (List Char × FATDirEnt × Nat))
  | 0, _, _ => none
  | fuel + 1, it, st => do
      let (st, it, ele) ← walkerNext efs it st
      match ele with
      | none => pure (st, [])
      | some (name, shortEnt) =>
          if name = ['.'] ∨ name = ['.', '.'] then getAllFilesLoop fuel it st
          else do
            let offset ← it.offset
            let (st, rest) ← getAllFilesLoop fuel it st
            pure (st, (name, shortEnt, offset) :: rest)

def getAllFilesLock (st : FileState) : Option (FileState × List (List Char × FATDirEnt × Nat)) :=
  getAllFilesLoop efs (st.content.size / stepSize + 1) ⟨none, .used, forward⟩ st

/-- The loop of `is_empty_dir_lock`: every name of the walk is `.` or `..`. -/
def isEmptyDirLoop : Nat → DirIter → FileState → Option (FileState × Bool)
  | 0, _, _ => none
  | fuel + 1, it, st => do
      let (st, it, ele) ← walkerNext efs it st
      match ele with
      | none => pure (st, true)
      | some (name, _) =>
          if name = ['.'] ∨ name = ['.', '.'] then isEmptyDirLoop fuel it st else pure (st, false)

def isEmptyDirLock (st : FileState) : Option (FileState × Bool) :=
  isEmptyDirLoop efs (st.content.size / stepSize + 1) ⟨none, .used, forward⟩ st

/-- The loop of `modify_parent_dir_entry`: the entry named `..` gets the
    parent's first cluster; `false` is its `Err`. -/
def modifyParentDirEntryLoop (parentDirClusNum : Nat) :
    Nat → DirIter → FileState → Option (FileState × Bool)
  | 0, _, _ => none
  | fuel + 1, it, st => do
      let (st, it, dirEnt) ← it.next efs st
      match dirEnt with
      | none => pure (st, false)
      | some dirEnt =>
          if dirEnt.getName = ['.', '.'] then do
            -- `FATDirEnt::set_fst_clus` panics on a long entry
            if !dirEnt.isShort then none
            let st ← it.writeToCurrentEnt efs st (dirEnt.setFstClus parentDirClusNum.toUInt32)
            pure (st, true)
          else modifyParentDirEntryLoop parentDirClusNum fuel it st

def modifyParentDirEntry (st : FileState) (parentDirClusNum : Nat) : Option (FileState × Bool) :=
  modifyParentDirEntryLoop efs parentDirClusNum (st.content.size / stepSize + 1)
    ⟨none, .used, forward⟩ st

/-- The short names `.` and `..`. -/
def dotName : ShortName :=
  ⟨[0x2E, 0x20, 0x20, 0x20, 0x20, 0x20, 0x20, 0x20, 0x20, 0x20, 0x20], rfl⟩

def dotDotName : ShortName :=
  ⟨[0x2E, 0x2E, 0x20, 0x20, 0x20, 0x20, 0x20, 0x20, 0x20, 0x20, 0x20], rfl⟩

/-- `fill_empty_dir`: `.`, `..` and the end of the directory. -/
def fillEmptyDir (st : FileState) (parentFstClus fstClus : Nat) : Option FileState := do
  let it : DirIter := ⟨none, .enum, forward⟩
  let (st, it, _) ← it.next efs st
  let st ← it.writeToCurrentEnt efs st (FATDirEnt.fromName dotName fstClus.toUInt32 .directory)
  let (st, it, _) ← it.next efs st
  let st ← it.writeToCurrentEnt efs st
    (FATDirEnt.fromName dotDotName parentFstClus.toUInt32 .directory)
  let (st, it, _) ← it.next efs st
  it.writeToCurrentEnt efs st FATDirEnt.unusedAndLastEntry

end Inode

namespace Volume

variable (efs : Efs)

/-- `open_subfile`: an `Inode` from the short entry of each file of the
    directory. -/
def openSubfile (v : Volume) (id : Nat) : Option (Volume × Except Int (List (List Char × Nat))) := do
  let (v, files) ← v.onFile id (Inode.getAllFilesLock efs)
  let (v, vec) ← files.foldlM (fun (acc : Volume × List (List Char × Nat)) file => do
      let (st, fileType) ← Inode.fromEnt efs acc.1.fat acc.1.disk file.2.1
      let (v, child) := acc.1.addInode st fileType (some (id, file.2.2))
      pure (v, acc.2 ++ [(file.1, child)])) (v, [])
  pure (v, .ok vec)

/-- The first cluster `create_lock` takes for a directory, or 0 for a file;
    an empty allocation is its `Err`. -/
def allocFstClus (v : Volume) (fileType : DiskInodeType) : Volume × Except Unit Nat :=
  if fileType = .directory then
    match v.fat.alloc 1 none with
    | (fat, clus :: _) => ({ v with fat }, .ok clus)
    | (fat, []) => ({ v with fat }, .error ())
  else (v, .ok 0)

/-- `create_lock` in the directory `parent`. -/
def createLock (v : Volume) (parent : Nat) (name : List Char) (fileType : DiskInodeType) :
    Option (Volume × Except Unit Nat) :=
  if v.isFile parent || 256 ≤ utf8Len name then pure (v, .error ())
  else
    andThen (some (v.allocFstClus fileType)) fun v fstClus => do
      let (v, shortEnt, longEnts) ← v.onFile parent fun st =>
        (Inode.genDirEntOf efs st name fstClus.toUInt32 fileType).map fun (st, ents) => (st, ents)
      let (v, shortEntOffset) ← v.onFile parent fun st => Inode.createDirEnt efs st shortEnt longEnts
      let (st, currentType) ← Inode.fromEnt efs v.fat v.disk shortEnt
      let (v, current) := v.addInode st currentType (some (parent, shortEntOffset))
      if fileType = .directory then do
        let v := v.modifyInode current fun r => { r with content := { r.content with hint := 2 * stepSize } }
        let parentFstClus ← v.firstClus? parent
        let (v, ()) ← v.onFile current fun st =>
          (Inode.fillEmptyDir efs st parentFstClus fstClus).map (·, ())
        pure (v, .ok current)
      else pure (v, .ok current)

/-- `unlink_lock`: the entries leave the parent, whose `Err` is a panic. -/
def unlinkLock (v : Volume) (id : Nat) (delete : Bool) : Option Volume := do
  let r ← v.inodes[id]?
  match r.parentDir with
  | none => pure v
  | some (par, offset) => do
      let (v, ok) ← v.onFile par fun st => Inode.deleteDirEnt efs st offset
      if !ok then none
      pure (v.modifyInode id fun r => { r with deleted := delete || r.deleted, parentDir := none })

/-- `OSInode::unlink`: a directory must hold only `.` and `..`. -/
def unlink (v : Volume) (id : Nat) (delete : Bool) : Option (Volume × Except Int Unit) := do
  let (v, nonEmptyDir) ← if v.isDir id then
      (v.onFile id (Inode.isEmptyDirLock efs)).map fun (v, empty) => (v, !empty)
    else pure (v, false)
  if nonEmptyDir then pure (v, .error enotempty)
  else (unlinkLock efs v id delete).map (·, .ok ())

/-- `link_par_lock` of `child` into `parent` under `name`; `false` is its `Err`. -/
def linkParLock (v : Volume) (child parent : Nat) (name : List Char) : Option (Volume × Bool) := do
  let r ← v.inodes[child]?
  let (v, shortEnt, longEnts) ← v.onFile parent fun st =>
    (Inode.genDirEntOf efs st name ((v.firstClus? child).getD 0).toUInt32 r.fileType).map
      fun (st, ents) => (st, ents)
  let (v, shortEntOffset) ← v.onFile parent fun st => Inode.createDirEnt efs st shortEnt longEnts
  let (v, ok) ← if r.fileType = .directory then do
      let parentFstClus ← v.firstClus? parent
      v.onFile child fun st => Inode.modifyParentDirEntry efs st parentFstClus
    else pure (v, true)
  if !ok then pure (v, false)
  else pure (v.modifyInode child fun r => { r with parentDir := some (parent, shortEntOffset) }, true)

/-- The `File` operations of `OSInode`; `create` and `link_child` panic where
    `create_lock` and `link_par_lock` fail. -/
def osInodeOps : FileOps Volume Nat where
  isDir := isDir
  isFile := isFile
  openSubfile := openSubfile efs
  create v parent name fileType := do
    let (v, r) ← createLock efs v parent name fileType
    match r with
    | .ok inner => pure (v, .ok inner)
    | .error () => none
  truncateSize v id newSize := v.onFile id fun st =>
    (Inode.truncateSize efs st newSize).map (·, .ok ())
  unlink := unlink efs
  linkChild v parent name child := do
    let (v, ok) ← linkParLock efs v child parent name
    if ok then pure (v, .ok ()) else none
  openFile _ id _ _ := id

theorem unlink_of_nonempty_dir {v v' : Volume} {id : Nat} (delete : Bool) (hdir : v.isDir id = true)
    (hlist : v.onFile id (Inode.isEmptyDirLock efs) = some (v', false)) :
    unlink efs v id delete = some (v', .error enotempty) := by
  simp [unlink, hdir, hlist]

theorem renameOverTarget_eq_enotempty {t t₁ : DirectoryTree Volume Nat}
    {oldInode newParInode newInode : Nat} {newLastComp : List Char}
    {oldNode newNode newParNode : DirectoryTreeNode Nat} {v' : Volume}
    (hfound : t.tryToOpenSubfile (osInodeOps efs) newParInode newLastComp = some (t₁, .ok newInode))
    (hold : t₁.node? oldInode = some oldNode) (hnew : t₁.node? newInode = some newNode)
    (hpar : t₁.node? newParInode = some newParNode)
    (htype : t₁.fs.isDir newNode.file = t₁.fs.isDir oldNode.file) (hidle : newNode.speUsage = 0)
    (hdir : t₁.fs.isDir newParNode.file = true)
    (hlist : t₁.fs.onFile newParNode.file (Inode.isEmptyDirLock efs) = some (v', false)) :
    t.renameOverTarget (osInodeOps efs) oldInode newParInode newLastComp =
      some ({ t₁ with fs := v' }, .error enotempty) :=
  DirectoryTree.renameOverTarget_unlinks_parent (osInodeOps efs) hfound hold hnew hpar htype hidle
    (unlink_of_nonempty_dir efs true hdir hlist)

end Volume

/-- The tree right after `ROOT` is made: its one node, of special use, for the
    root `Inode`, on the first file system. -/
def rootTree (v : Volume) : DirectoryTree Volume Nat :=
  ⟨v, [⟨1, [], ⟨1, .fat32⟩, 0, none, none⟩], ([], none)⟩

/-- A fresh volume on `sectorEfs`: the root directory in cluster 2, zeroed, as
    `root_inode` reads it, and a FAT whose scan starts at cluster 3. -/
def freshVolume : Volume :=
  ⟨⟨fun c => if c < 3 then eoc else fatEntryFree, 16, [], 3⟩, fun _ _ => 0,
    [⟨⟨512, [2], 0⟩, PageCacheManager.new, .directory, none, false⟩]⟩

/-- The tree over FAT32 on `sectorEfs`. -/
def sectorOps : FileOps Volume Nat :=
  Volume.osInodeOps Inode.sectorEfs

open DirectoryTree OpenFlags

/-! ## `unlinkat` of a path without components

`delete` only rejects a last segment `"."`, and then unwraps the last of the
components that `parse_dir_path` leaves: `/`, `a/..` and every other path whose
names cancel leave none. -/

/-- `delete` panics on a path whose components all cancel, before it reads the
    tree or the disk. -/
theorem delete_panics_of_no_components {σ F : Type} (ops : FileOps σ F) (t : DirectoryTree σ F)
    (self : Nat) {path : List Char} (hnil : parseDirPath path = [])
    (hlast : ¬ ((path.splitOn '/').getLast?.all (· = ['.'])) = true) (deleteDirectory : Bool) :
    t.delete ops self path deleteDirectory = none := by
  unfold delete
  rw [if_neg hlast, hnil]
  rfl

theorem unlink_root_panics :
    parseDirPath "/".toList = [] ∧ ¬ (("/".toList.splitOn '/').getLast?.all (· = ['.'])) = true ∧
      (rootTree freshVolume).delete sectorOps root "/".toList false = none :=
  ⟨by decide, by decide,
    delete_panics_of_no_components sectorOps _ root (by decide) (by decide) false⟩

/-! ## Runs from a fresh root -/

/-- `open("/f", O_CREAT)`, then `open("/f", O_CREAT | O_EXCL)`: `PATH_CACHE`
    answers the second, which succeeds, where resolving the path gives
    `EEXIST`. -/
theorem open_from_path_cache_skips_excl :
    ∃ t₁ f₁ t₂ f₂ t₃,
      (rootTree freshVolume).openPath sectorOps root "/f".toList oCreat false = some (t₁, .ok f₁) ∧
      t₁.openPath sectorOps root "/f".toList (oCreat ||| oExcl) false = some (t₂, .ok f₂) ∧
      t₁.openResolve sectorOps root "/f".toList (oCreat ||| oExcl) = some (t₃, .error eexist) := by
  have hrun : (andThen ((rootTree freshVolume).openPath sectorOps root "/f".toList oCreat false)
      fun t₁ _ => pure (t₁, .ok (outcome (t₁.openPath sectorOps root "/f".toList (oCreat ||| oExcl) false),
        outcome (t₁.openResolve sectorOps root "/f".toList (oCreat ||| oExcl))))).map Prod.snd =
          some (.ok (some (.ok ()), some (.error eexist))) := by
    decide +kernel
  obtain ⟨t, hchain⟩ := exists_eq_of_map_snd hrun
  obtain ⟨t₁, f₁, h₁, hchain⟩ := andThen_eq_ok.mp hchain
  have hpair := eq_of_pure_ok hchain
  obtain ⟨t₂, f₂, h₂⟩ := exists_eq_ok_of_outcome (Prod.ext_iff.mp hpair).1
  obtain ⟨t₃, h₃⟩ := exists_eq_error_of_outcome (Prod.ext_iff.mp hpair).2
  exact ⟨t₁, f₁, t₂, f₂, t₃, h₁, h₂, h₃⟩

/-- Two files `/a` and `/b`: `rename("/a", "/b")` unlinks `/`, which is not
    empty, and fails; and `rename("/a", "/c")` links the file back under `a`. -/
theorem rename_onto_file_fails_and_rename_keeps_old_name :
    (∃ t₁ f₁ t₂ f₂ t₃,
      (rootTree freshVolume).openPath sectorOps root "/a".toList oCreat false = some (t₁, .ok f₁) ∧
      t₁.openPath sectorOps root "/b".toList oCreat false = some (t₂, .ok f₂) ∧
      t₂.rename sectorOps "/a".toList "/b".toList = some (t₃, .error enotempty)) ∧
    (∃ t₁ f₁ t₂ st, (rootTree freshVolume).openPath sectorOps root "/a".toList oCreat false =
        some (t₁, .ok f₁) ∧
      t₁.rename sectorOps "/a".toList "/c".toList = some (t₂, .ok ()) ∧
      t₂.fs.fileState 0 = some st ∧ (walkAll Inode.sectorEfs st).map (·.map (·.1)) = some ["a".toList]) := by
  constructor
  · have hrun : (andThen ((rootTree freshVolume).openPath sectorOps root "/a".toList oCreat false)
        fun t₁ _ => andThen (t₁.openPath sectorOps root "/b".toList oCreat false)
        fun t₂ _ => pure (t₂, .ok (outcome (t₂.rename sectorOps "/a".toList "/b".toList)))).map
          Prod.snd = some (.ok (some (.error enotempty))) := by
      decide +kernel
    obtain ⟨t, hchain⟩ := exists_eq_of_map_snd hrun
    obtain ⟨t₁, f₁, h₁, hchain⟩ := andThen_eq_ok.mp hchain
    obtain ⟨t₂, f₂, h₂, hchain⟩ := andThen_eq_ok.mp hchain
    obtain ⟨t₃, h₃⟩ := exists_eq_error_of_outcome (eq_of_pure_ok hchain)
    exact ⟨t₁, f₁, t₂, f₂, t₃, h₁, h₂, h₃⟩
  · have hrun : (andThen ((rootTree freshVolume).openPath sectorOps root "/a".toList oCreat false)
        fun t₁ _ => andThen (t₁.rename sectorOps "/a".toList "/c".toList)
        fun t₂ () => pure (t₂, .ok ((t₂.fs.fileState 0).bind fun st =>
          (walkAll Inode.sectorEfs st).map (·.map (·.1))))).map Prod.snd =
            some (.ok (some ["a".toList])) := by
      decide +kernel
    obtain ⟨t, hchain⟩ := exists_eq_of_map_snd hrun
    obtain ⟨t₁, f₁, h₁, hchain⟩ := andThen_eq_ok.mp hchain
    obtain ⟨t₂, u, h₂, hchain⟩ := andThen_eq_ok.mp hchain
    obtain ⟨st, hst, hnames⟩ := Option.bind_eq_some_iff.mp (eq_of_pure_ok hchain)
    exact ⟨t₁, f₁, t₂, st, h₁, h₂, hst, hnames⟩

/-- Directories `/x` and `/a` and a file `/a/b`, and a descriptor of `/x`:
    opening `/a/b` from it finds the file, while `rename("/a/b", "/a/c")` from
    it looks for `/x/a/b` and gives `ENOENT`. -/
theorem fd_rename_resolves_absolute_path_under_cwd :
    ∃ t₁ t₂ t₃ f₃ t₄ x n t₅ fd t₆,
      (rootTree freshVolume).mkdir sectorOps root "/x".toList = some (t₁, .ok ()) ∧
      t₁.mkdir sectorOps root "/a".toList = some (t₂, .ok ()) ∧
      t₂.openPath sectorOps root "/a/b".toList oCreat false = some (t₃, .ok f₃) ∧
      t₃.cdPath sectorOps root "/x".toList = some (t₄, .ok x) ∧ t₄.node? x = some n ∧
      FileDescriptor.openPath sectorOps t₄ ⟨n.file, some x⟩ "/a/b".toList ⟨0⟩ false =
        some (t₅, .ok fd) ∧
      FileDescriptor.rename sectorOps t₄ ⟨n.file, some x⟩ "/a/b".toList ⟨n.file, some x⟩
        "/a/c".toList = some (t₆, .error enoent) := by
  have hrun : (andThen ((rootTree freshVolume).mkdir sectorOps root "/x".toList)
      fun t₁ () => andThen (t₁.mkdir sectorOps root "/a".toList)
      fun t₂ () => andThen (t₂.openPath sectorOps root "/a/b".toList oCreat false)
      fun t₃ _ => andThen (t₃.cdPath sectorOps root "/x".toList)
      fun t₄ x => pure (t₄, .ok ((t₄.node? x).map fun n =>
        (outcome (FileDescriptor.openPath sectorOps t₄ ⟨n.file, some x⟩ "/a/b".toList ⟨0⟩ false),
          outcome (FileDescriptor.rename sectorOps t₄ ⟨n.file, some x⟩ "/a/b".toList
            ⟨n.file, some x⟩ "/a/c".toList))))).map Prod.snd =
        some (.ok (some (some (.ok ()), some (.error enoent)))) := by
    decide +kernel
  obtain ⟨t, hchain⟩ := exists_eq_of_map_snd hrun
  obtain ⟨t₁, u₁, h₁, hchain⟩ := andThen_eq_ok.mp hchain
  obtain ⟨t₂, u₂, h₂, hchain⟩ := andThen_eq_ok.mp hchain
  obtain ⟨t₃, f₃, h₃, hchain⟩ := andThen_eq_ok.mp hchain
  obtain ⟨t₄, x, h₄, hchain⟩ := andThen_eq_ok.mp hchain
  obtain ⟨n, hn, hpair⟩ := Option.map_eq_some_iff.mp (eq_of_pure_ok hchain)
  obtain ⟨t₅, fd, h₅⟩ := exists_eq_ok_of_outcome (Prod.ext_iff.mp hpair).1
  obtain ⟨t₆, h₆⟩ := exists_eq_error_of_outcome (Prod.ext_iff.mp hpair).2
  exact ⟨t₁, t₂, t₃, f₃, t₄, x, n, t₅, fd, t₆, h₁, h₂, h₃, h₄, hn, h₅, h₆⟩

end OsKernel.Fat32

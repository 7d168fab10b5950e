import OsKernel.Fat32.ShortName
import OsKernel.Lib.StateLoop

/-! # Directory listings

`Inode::dirent_info_lock` (`fs/fat32/vfs.rs`) walks a directory from an offset
and reports each name with the offset just past its set of entries, the last
one with the size of the directory.  `OSInode::get_dirent`
(`fs/fat32/inode.rs`) keeps the offset of the last name for the next call and
turns each name into the `Dirent` of `fs/layout.rs`, whose `d_name` is a fixed
array of `NAME_LIMIT` bytes.
-/

namespace OsKernel.Fat32

open Unicode

/-- `NAME_LIMIT`. -/
def nameLimit : Nat := 128

/-- `size_of::<Dirent>()`: `8 + 8 + 2 + 1 + NAME_LIMIT` bytes, aligned to 8. -/
def direntSize : Nat := 152

/-- `Dirent`.  `d_off` is an `isize` holding an offset of the directory, so a
    natural number here. -/
structure Dirent where
  dIno : Nat
  dOff : Nat
  dReclen : Nat
  dType : UInt8
  dName : List UInt8
  dName_length : dName.length = nameLimit
deriving DecidableEq

/-- `Dirent::new`: `d_name[0..d_name.len()].copy_from_slice(d_name.as_bytes())`
    into a zeroed array, which panics when the name has more than `NAME_LIMIT`
    bytes. -/
def Dirent.new (dIno dOff : Nat) (dType : UInt8) (dName : List Char) : Option Dirent :=
  if h : (encodeUtf8 dName).length ≤ nameLimit then
    some ⟨dIno, dOff, direntSize, dType,
      encodeUtf8 dName ++ List.replicate (nameLimit - (encodeUtf8 dName).length) 0,
      by simp only [List.length_append, List.length_replicate]; omega⟩
  else none

/-- What `dirent_info_lock` reports of a name: the name, the offset to resume
    from, the first cluster and the attribute of its short entry. -/
abbrev DirentInfo := List Char × Nat × Nat × UInt8

namespace Inode

variable (efs : Efs)

/-- The loop of `dirent_info_lock`.  The walk is one name ahead of what it
    reports: each name goes out with the offset after the short entry of the
    name before it, and when the walk ends the last name goes out with the size
    of the directory. -/
def direntInfoLoop (size : Nat) :
    Nat → DirIter → FileState → List Char × FATDirEnt → Option (FileState × List DirentInfo)
  | 0, _, st, _ => pure (st, [])
  | length + 1, it, st, (lastName, lastShortEnt) => do
      let nextDirentOffset := (← it.offset) + stepSize
      let (st, it, pair) ← walkerNext efs it st
      match pair with
      | none => pure (st, [(lastName, size, lastShortEnt.firstClus, lastShortEnt.attr)])
      | some pair => do
          let (st, rest) ← direntInfoLoop size length it st pair
          pure (st, (lastName, nextDirentOffset, lastShortEnt.firstClus, lastShortEnt.attr) :: rest)

/-- `dirent_info_lock(offset, length)`: at most `length` names from `offset`;
    the inner `none` is its `Err(())` on a file. -/
def direntInfoLock (st : FileState) (isDir : Bool) (offset length : Nat) :
    Option (FileState × Option (List DirentInfo)) :=
  if !isDir then pure (st, none)
  else do
    let it := (DirIter.mk none .used forward).setIterOffset offset
    let (st, it, first) ← walkerNext efs it st
    match first with
    | none => pure (st, some [])
    | some pair => do
        let (st, v) ← direntInfoLoop efs st.content.size length it st pair
        pure (st, some v)

end Inode

/-- The `d_type` `get_dirent` gives an attribute. -/
def direntType (attr : UInt8) : UInt8 :=
  if attr = attrDirectory ∨ attr = attrVolumeId then 4
  else if attr = attrArchive then 8
  else 0

namespace OSInode

variable (efs : Efs)

/-- `OSInode::get_dirent(count)` of an inode at `offset`: the records of at most
    `count / size_of::<Dirent>()` names and the offset of the next call.  It
    asserts that the inode is a directory and unwraps `dirent_info_lock`; the
    offset goes to `dirent_info_lock` as a `u32`. -/
def getDirent (st : FileState) (isDir : Bool) (offset count : Nat) :
    Option (FileState × Nat × List Dirent) := do
  if !isDir then none
  let (st, vec) ← Inode.direntInfoLock efs st isDir (offset % 2 ^ 32) (count / direntSize)
  let vec ← vec
  let offset := ((vec.getLast?).map fun info => info.2.1).getD offset
  let dirents ← vec.mapM fun (name, off, firstClus, type) =>
    Dirent.new firstClus off (direntType type) name
  pure (st, offset, dirents)

end OSInode

/-! ## Names past `NAME_LIMIT` -/

theorem Dirent.new_eq_none_iff {dIno dOff : Nat} {dType : UInt8} {dName : List Char} :
    Dirent.new dIno dOff dType dName = none ↔ nameLimit < (encodeUtf8 dName).length := by
  unfold Dirent.new
  split
  · next hle => simp only [reduceCtorEq, false_iff, Nat.not_lt]; exact hle
  · next hgt => simp only [true_iff]; omega

theorem Dirent.new_dName_of_length_eq {dIno dOff : Nat} {dType : UInt8} {dName : List Char}
    (hlen : (encodeUtf8 dName).length = nameLimit) :
    ∃ d, Dirent.new dIno dOff dType dName = some d ∧ d.dName = encodeUtf8 dName := by
  unfold Dirent.new
  rw [dif_pos hlen.le]
  exact ⟨_, rfl, by simp [hlen]⟩

theorem OSInode.getDirent_eq_none_of_long_name {efs : Efs} {st st' : FileState}
    {offset count : Nat} {v : List DirentInfo} {info : DirentInfo}
    (hinfo : Inode.direntInfoLock efs st true (offset % 2 ^ 32) (count / direntSize) =
      some (st', some v))
    (hmem : info ∈ v) (hlong : nameLimit < (encodeUtf8 info.1).length) :
    OSInode.getDirent efs st true offset count = none := by
  have hnew : (fun (i : DirentInfo) => Dirent.new i.2.2.1 i.2.1 (direntType i.2.2.2) i.1) info =
      none := Dirent.new_eq_none_iff.mpr hlong
  have hmapM : v.mapM (fun (i : DirentInfo) => Dirent.new i.2.2.1 i.2.1 (direntType i.2.2.2) i.1) =
      none := StateLoop.mapM_eq_none_of_mem hmem hnew
  simp only [OSInode.getDirent, hinfo, Bool.not_true]
  simp [hmapM]

/-! ## A name of 129 bytes -/

/-- `create_lock` takes names up to 255 bytes; this one has 129. -/
def longName : List Char :=
  List.replicate 129 'a'

/-- `create_lock` of `longName` in the empty root, then a `getdents` of four
    records: the call panics. -/
theorem getDirent_panics_on_long_name :
    ∃ st₁ ents st₂ off,
      Inode.genDirEntOf sdEfs emptyRoot longName 0 .file = some (st₁, ents) ∧
      Inode.createDirEnt sdEfs st₁ ents.1 ents.2 = some (st₂, off) ∧
      OSInode.getDirent sdEfs st₂ true 0 (4 * direntSize) = none := by
  have hrun : ((Inode.genDirEntOf sdEfs emptyRoot longName 0 .file).bind fun r =>
      (Inode.createDirEnt sdEfs r.1 r.2.1 r.2.2).map fun c =>
        (OSInode.getDirent sdEfs c.1 true 0 (4 * direntSize)).isNone) = some true := by
    decide +kernel
  simp only [Option.bind_eq_some_iff, Option.map_eq_some_iff, Option.isNone_iff_eq_none] at hrun
  obtain ⟨⟨st₁, ents⟩, hgen, ⟨st₂, off⟩, hcreate, hnone⟩ := hrun
  exact ⟨st₁, ents, st₂, off, hgen, hcreate, hnone⟩

end OsKernel.Fat32

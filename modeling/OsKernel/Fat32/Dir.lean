import OsKernel.Fat32.DirIter

/-! # Directory entries of a file

The directory operations of `Inode` in `fs/fat32/vfs.rs`: `gen_dir_ent` turns
a name into its long entries, `alloc_dir_ent` finds room for a set of entries
from `hint` on and grows the file by a cluster when there is none,
`create_dir_ent` writes a set, and `delete_dir_ent` marks a set unused and
moves `hint` back over the unused entries before it.  The short name of a set,
`gen_short_name_slice`, is a parameter.
-/

namespace OsKernel.Fat32

open Bitmap Unicode

/-- `LONG_DIR_ENT_NAME_CAPACITY`. -/
def longDirEntNameCapacity : Nat := 13

/-- `gen_long_name_slice`: units `13 i .. 13 (i + 1)` of the name's UTF-16,
    padded with zeros. -/
def genLongNameSlice (name : List Char) (longEntIndex : Nat) : NameSlice :=
  ⟨((encodeUtf16 name ++ List.replicate
        ((longEntIndex + 1) * longDirEntNameCapacity - (encodeUtf16 name).length) 0).drop
      (longEntIndex * longDirEntNameCapacity)).take longDirEntNameCapacity, by
    simp only [List.length_take, List.length_drop, List.length_append, List.length_replicate,
      longDirEntNameCapacity]
    omega⟩

/-- `long_ent_num` of `gen_name_slice`: the name's length in UTF-8 bytes over
    13, rounded up. -/
def longEntNum (name : List Char) : Nat :=
  (utf8Len name + longDirEntNameCapacity - 1) / longDirEntNameCapacity

/-- The long entries of `gen_dir_ent`, first part first: entry `i` has order
    `i + 1`, and the last one is marked. -/
def genLongEnts (name : List Char) : List FATDirEnt :=
  let longEntNum := longEntNum name
  (List.range longEntNum).map fun i =>
    FATDirEnt.fromNameSlice (i + 1 == longEntNum) (i + 1) (genLongNameSlice name i)

/-- `gen_dir_ent`, for the short name `gen_short_name_slice` gives. -/
def genDirEnt (shortNameSlice : ShortName) (name : List Char) (fstClus : UInt32)
    (fileType : DiskInodeType) : FATDirEnt × List FATDirEnt :=
  (FATDirEnt.fromName shortNameSlice fstClus fileType, genLongEnts name)

namespace Inode

variable (efs : Efs)

/-- `expand_dir_size`: one cluster more, not cleared. -/
def expandDirSize (st : FileState) : Option FileState :=
  modifySizeLock efs st efs.clusSize false

/-- `shrink_dir_size`: the clusters `hint` needs, one at least, in `u32`. -/
def shrinkDirSize (st : FileState) : Option FileState :=
  let newSize := max (Word.mul 32 (totalClus efs st.content.hint) efs.clusSize) efs.clusSize
  modifySizeLock efs st ((newSize : Int) - st.content.size) false

/-- The loop of `alloc_dir_ent`: count entries from `hint` on, growing the file
    at its end; after the last one the next entry becomes `last_and_unused` and
    `hint`, or else `hint` is the size. -/
def allocDirEntLoop (allocNum : Nat) : Nat → FileState → DirIter → Nat → Option (FileState × Nat)
  | 0, _, _, _ => none
  | fuel + 1, st, iter, foundFreeDirEnt => do
      let (st, iter, dirEnt) ← iter.next efs st
      match dirEnt with
      | none => do
          let st ← expandDirSize efs st
          allocDirEntLoop allocNum fuel st iter foundFreeDirEnt
      | some _ =>
          let foundFreeDirEnt := foundFreeDirEnt + 1
          if allocNum ≤ foundFreeDirEnt then do
            let offset ← iter.offset
            let (st, iter, dirEnt) ← iter.next efs st
            match dirEnt with
            | some _ => do
                let st ← iter.writeToCurrentEnt efs st FATDirEnt.unusedAndLastEntry
                let hint ← iter.offset
                pure ({ st with content := { st.content with hint } }, offset)
            | none => pure ({ st with content := { st.content with hint := st.content.size } }, offset)
          else allocDirEntLoop allocNum fuel st iter foundFreeDirEnt

/-- `alloc_dir_ent`: room for `allocNum` entries; returns the offset of the
    last.  Each round finds an entry or grows the file, so `2 allocNum + 1`
    rounds are enough. -/
def allocDirEnt (st : FileState) (allocNum : Nat) : Option (FileState × Nat) :=
  let iter := (DirIter.mk none .enum forward).setIterOffset st.content.hint
  allocDirEntLoop efs allocNum (2 * allocNum + 2) st iter 0

/-- `create_dir_ent`: the short entry at the offset `alloc_dir_ent` returns,
    and the long entries before it, first part nearest. -/
def createDirEnt (st : FileState) (shortEnt : FATDirEnt) (longEnts : List FATDirEnt) :
    Option (FileState × Nat) := do
  let (st, shortEntOffset) ← allocDirEnt efs st (1 + longEnts.length)
  let iter : DirIter := ⟨some shortEntOffset, .enum, backward⟩
  let st ← iter.writeToCurrentEnt efs st shortEnt
  let (st, _) ← longEnts.foldlM (fun (st, iter) longEnt => do
      let (st, iter, _) ← iter.next efs st
      let st ← iter.writeToCurrentEnt efs st longEnt
      pure (st, iter)) (st, iter)
  pure (st, shortEntOffset)

/-- The loop of `delete_dir_ent` over the long entries before the short one:
    each is marked unused, up to the last of the name; `false` is its `Err`. -/
def deleteLongLoop : Nat → FileState → DirIter → Option (FileState × Bool)
  | 0, _, _ => none
  | fuel + 1, st, iter => do
      let (st, dirEnt) ← iter.currentClone efs st
      match dirEnt with
      | none => pure (st, false)
      | some dirEnt =>
          if !dirEnt.isLong then pure (st, false)
          else do
            let st ← iter.writeToCurrentEnt efs st FATDirEnt.unusedNotLastEntry
            let (st, iter, _) ← iter.next efs st
            if dirEnt.isLastLongDirEnt then pure (st, true)
            else deleteLongLoop fuel st iter

/-- The hint loop of `delete_dir_ent`: back from `hint`, every unused entry
    becomes `last_and_unused` and the new `hint`, up to a used one. -/
def deleteHintLoop : Nat → FileState → DirIter → Option FileState
  | 0, _, _ => none
  | fuel + 1, st, iter => do
      let (st, iter, dirEnt) ← iter.next efs st
      match dirEnt with
      | none => pure { st with content := { st.content with hint := 0 } }
      | some dirEnt =>
          if dirEnt.unused then do
            let hint ← iter.offset
            let st := { st with content := { st.content with hint } }
            let st ← iter.writeToCurrentEnt efs st FATDirEnt.unusedAndLastEntry
            deleteHintLoop fuel st iter
          else pure st

/-- `delete_dir_ent` of the set whose short entry is at `offset`; `false` is
    its `Err`. -/
def deleteDirEnt (st : FileState) (offset : Nat) : Option (FileState × Bool) := do
  let iter : DirIter := ⟨some offset, .used, backward⟩
  let st ← iter.writeToCurrentEnt efs st FATDirEnt.unusedNotLastEntry
  let (st, iter, dirEnt) ← iter.next efs st
  match dirEnt with
  | none => pure (st, true)
  | some dirEnt =>
      if !dirEnt.isLong then pure (st, true)
      else do
        let (st, ok) ← deleteLongLoop efs (offset / stepSize + 1) st iter
        if !ok then pure (st, false)
        else do
          let iter : DirIter := ⟨some st.content.hint, .enum, backward⟩
          let st ← deleteHintLoop efs (st.content.hint / stepSize + 1) st iter
          let st ← shrinkDirSize efs st
          pure (st, true)

end Inode

/-! ## The long entries carry the name

`gen_dir_ent` cuts the name's UTF-16 into parts of 13 units, and
`FATLongDirEnt::name` decodes each part on its own.  A name of the basic plane
has no surrogate to cut, so the parts decode back to the name, and the orders
are those `DirWalker` checks. -/

theorem takeWhile_take_drop_append_zeros {xs : List UInt16} (hxs : ∀ x ∈ xs, x ≠ 0) (k m n : Nat) :
    (((xs ++ List.replicate k 0).drop m).take n).takeWhile (· != 0) = (xs.drop m).take n := by
  rw [List.drop_append, List.take_append,
    List.takeWhile_append_of_pos (fun x hx => ?_), List.takeWhile_eq_nil_iff.mpr ?_, List.append_nil]
  · intro h
    simp
  · exact bne_iff_ne.mpr (hxs x (List.mem_of_mem_drop (List.mem_of_mem_take hx)))

theorem takeWhile_genLongNameSlice {name : List Char} (hbmp : ∀ c ∈ name, c.toNat < 0x10000)
    (hnul : ∀ c ∈ name, c.toNat ≠ 0) (i : Nat) :
    (genLongNameSlice name i).1.takeWhile (· != 0) =
      ((name.drop (i * longDirEntNameCapacity)).take longDirEntNameCapacity).map bmpUnit := by
  have hunits : ∀ u ∈ name.map bmpUnit, u ≠ 0 := by
    intro u hu h0
    obtain ⟨c, hc, rfl⟩ := List.mem_map.mp hu
    exact hnul c hc (by rw [← toNat_bmpUnit (hbmp c hc), h0]; rfl)
  rw [genLongNameSlice]
  dsimp only
  rw [encodeUtf16_of_bmp hbmp, List.length_map, takeWhile_take_drop_append_zeros hunits, List.map_take,
    List.map_drop]

theorem flatMap_range_take_drop {α : Type} (xs : List α) (n : Nat) :
    ∀ k, (List.range k).flatMap (fun i => (xs.drop (i * n)).take n) = xs.take (k * n)
  | 0 => by simp
  | k + 1 => by
    rw [List.range_succ, List.flatMap_append, flatMap_range_take_drop xs n k, List.flatMap_singleton,
      Nat.succ_mul, List.take_add]

theorem length_le_longEntNum_mul (name : List Char) :
    name.length ≤ longEntNum name * longDirEntNameCapacity := by
  have hlen := length_le_utf8Len name
  unfold longEntNum longDirEntNameCapacity
  omega

/-- The long entries of `gen_dir_ent` carry the name: for a name of the basic
    plane without NUL, `FATLongDirEnt::name` of each entry, first part first,
    gives the name back; and entry `i` is long, of order `i + 1`, and marked
    last exactly when it is, as `DirWalker` expects of a name under 256 bytes. -/
theorem long_entries_round_trip {name : List Char} (hbmp : ∀ c ∈ name, c.toNat < 0x10000)
    (hnul : ∀ c ∈ name, c.toNat ≠ 0) (hlen : utf8Len name < 256) :
    (genLongEnts name).flatMap FATDirEnt.getName = name ∧
      ∀ i (hi : i < (genLongEnts name).length), (genLongEnts name)[i].isLong = true ∧
        (genLongEnts name)[i].ord = i + 1 ∧
        (genLongEnts name)[i].isLastLongDirEnt = (i + 1 == (genLongEnts name).length) := by
  have hnum : longEntNum name < 64 := by
    unfold longEntNum longDirEntNameCapacity
    omega
  refine ⟨?_, fun i hi => ?_⟩
  · have hpart : ∀ i, (FATDirEnt.fromNameSlice (i + 1 == longEntNum name) (i + 1)
        (genLongNameSlice name i)).getName = (name.drop (i * longDirEntNameCapacity)).take longDirEntNameCapacity := by
      intro i
      rw [FATDirEnt.getName, if_pos (FATDirEnt.isLong_fromNameSlice _ _ _), FATDirEnt.longName,
        FATDirEnt.nameUnits_fromNameSlice, takeWhile_genLongNameSlice hbmp hnul,
        fromUtf16Lossy_map_bmpUnit fun c hc => hbmp c (List.mem_of_mem_drop (List.mem_of_mem_take hc))]
    rw [genLongEnts, List.flatMap_map]
    simp only [hpart]
    rw [flatMap_range_take_drop, List.take_of_length_le (length_le_longEntNum_mul name)]
  · have hi' : i < longEntNum name := by simpa [genLongEnts] using hi
    simp only [genLongEnts, List.getElem_map, List.getElem_range, List.length_map, List.length_range]
    exact ⟨FATDirEnt.isLong_fromNameSlice _ _ _, FATDirEnt.ord_fromNameSlice _ (by omega) _,
      FATDirEnt.isLastLongDirEnt_fromNameSlice _ (by omega) _⟩

/-- `"résumé-2026.txt"`: 15 chars of the basic plane in 17 bytes, so two long
    entries. -/
def resumeName : List Char :=
  ['r', 'é', 's', 'u', 'm', 'é', '-', '2', '0', '2', '6', '.', 't', 'x', 't']

theorem long_entries_of_resume :
    (∀ c ∈ resumeName, c.toNat < 0x10000) ∧ (∀ c ∈ resumeName, c.toNat ≠ 0) ∧ utf8Len resumeName < 256 ∧
      (genLongEnts resumeName).flatMap FATDirEnt.getName = resumeName ∧ (genLongEnts resumeName).length = 2 :=
  have hbmp : ∀ c ∈ resumeName, c.toNat < 0x10000 := by simp [resumeName]
  have hnul : ∀ c ∈ resumeName, c.toNat ≠ 0 := by simp [resumeName]
  have hlen : utf8Len resumeName < 256 := by decide +kernel
  ⟨hbmp, hnul, hlen, (long_entries_round_trip hbmp hnul hlen).1, by decide +kernel⟩

/-! ## A fresh volume -/

/-- The root directory of a fresh volume on `sdEfs`: one zeroed cluster, whose
    first entry ends the directory, and `hint` 0. -/
def emptyRoot : FileState :=
  ⟨⟨sdEfs.clusSize, [2], 0⟩, Fs.PageCacheManager.new,
    ⟨fun c => if c < 3 then eoc else fatEntryFree, 16, [], 3⟩, fun _ _ => 0⟩

end OsKernel.Fat32

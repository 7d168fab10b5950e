import OsKernel.Fat32.DirOps

/-! # A directory over runs of creations and deletions

`create_lock` and `link_par_lock` (`fs/fat32/vfs.rs`) write a name into the
parent directory by `gen_dir_ent` and `create_dir_ent`, and the child keeps the
offset of its short entry as its `parent_dir`; `unlink_lock` takes the name out
by `delete_dir_ent` at that offset.  Here the directory is a system whose
events are these writes, with the names linked in it carried beside the file.

Names reach `create_lock` through `translated_str`, which makes a char of each
byte: their chars are below 256, none of them NUL, so no surrogate pair is cut
between two long entries.  The short name that `gen_short_name_slice` picks is
part of the event.  What stays true over every run is `Layout`: the entry at
`hint` ends the directory, but a cluster that allocation added keeps what it
held after that entry, so the entries past `hint` need not be free.
-/

namespace OsKernel.Fat32

open Inode Fs DirIter DirItem Unicode

/-! ## The names a directory links -/

/-- The names of a run of items from entry `p` on: the offset of each name's
    short entry, with the pair `DirWalker` yields for it. -/
def linkedAt : Nat → List DirItem → List (Nat × List Char × FATDirEnt)
  | _, [] => []
  | p, item :: items =>
      (item.pair.map fun r => (stepSize * (p + item.ents.length - 1), r)).toList ++
        linkedAt (p + item.ents.length) items

@[simp] theorem linkedAt_nil (p : Nat) : linkedAt p [] = [] := rfl

theorem map_snd_linkedAt : ∀ (p : Nat) (items : List DirItem),
    (linkedAt p items).map Prod.snd = items.filterMap pair
  | _, [] => rfl
  | p, item :: items => by
      rw [linkedAt, List.map_append, map_snd_linkedAt, List.filterMap_cons]
      cases item.pair <;> rfl

theorem linkedAt_append : ∀ (p : Nat) (items items' : List DirItem),
    linkedAt p (items ++ items') = linkedAt p items ++ linkedAt (p + (entsOf items).length) items'
  | p, [], items' => by simp
  | p, item :: items, items' => by
      rw [List.cons_append, linkedAt, linkedAt, linkedAt_append, entsOf_cons, List.length_append,
        List.append_assoc, Nat.add_assoc]

theorem linkedAt_of_deleted {D : List DirItem} (hD : ∀ item ∈ D, ∃ e, item = deleted e) (p : Nat) :
    linkedAt p D = [] := by
  induction D generalizing p with
  | nil => rfl
  | cons item D ih =>
      obtain ⟨e, rfl⟩ := hD _ List.mem_cons_self
      rw [linkedAt, ih (fun item h => hD item (List.mem_cons_of_mem _ h))]
      rfl

theorem linkedAt_named (p : Nat) {longs : List FATDirEnt} {short : FATDirEnt} (items : List DirItem)
    {r : List Char × FATDirEnt} (hr : (named longs short).pair = some r) :
    linkedAt p (named longs short :: items) =
      (stepSize * (p + longs.length), r) :: linkedAt (p + longs.length + 1) items := by
  rw [linkedAt, hr]
  simp [ents, Nat.add_assoc]

/-- Every name of the items lies between their first and their last entry. -/
theorem bounds_of_mem_linkedAt : ∀ {p : Nat} {items : List DirItem} {x : Nat × List Char × FATDirEnt},
    x ∈ linkedAt p items → stepSize * p ≤ x.1 ∧ x.1 < stepSize * (p + (entsOf items).length)
  | _, [], _, hx => by simp at hx
  | p, item :: items, x, hx => by
      have hpos := length_ents_pos item
      rw [linkedAt, List.mem_append] at hx
      rw [entsOf_cons, List.length_append]
      rcases hx with hx | hx
      · cases h : item.pair with
        | none => simp [h] at hx
        | some r =>
            simp only [h, Option.map_some, Option.toList_some, List.mem_singleton] at hx
            subst hx
            unfold stepSize
            constructor <;> omega
      · have ⟨h₁, h₂⟩ := bounds_of_mem_linkedAt hx
        unfold stepSize at h₁ h₂ ⊢
        constructor <;> omega

/-- A linked offset is the short entry of a name among the items. -/
theorem exists_named_of_mem_linkedAt : ∀ {p : Nat} {items : List DirItem} {off : Nat},
    off ∈ (linkedAt p items).map Prod.fst →
      ∃ before longs short after, items = before ++ named longs short :: after ∧
        off = stepSize * (p + (entsOf before).length + longs.length)
  | _, [], _, h => by simp at h
  | p, item :: items, off, h => by
      rw [linkedAt, List.map_append, List.mem_append] at h
      rcases h with h | h
      · cases item with
        | deleted e => simp [pair] at h
        | named longs short =>
            refine ⟨[], longs, short, items, rfl, ?_⟩
            simp only [pair, Option.map_some, Option.toList_some, List.map_cons, List.map_nil,
              List.mem_singleton] at h
            simp [h, ents]
      · obtain ⟨before, longs, short, after, rfl, rfl⟩ := exists_named_of_mem_linkedAt h
        refine ⟨item :: before, longs, short, after, rfl, ?_⟩
        rw [entsOf_cons, List.length_append, Nat.add_assoc p]

/-- An offset outside the entries of the items is none of their names'. -/
theorem filter_linkedAt_of_outside {p : Nat} {items : List DirItem} {off : Nat}
    (h : off < stepSize * p ∨ stepSize * (p + (entsOf items).length) ≤ off) :
    (linkedAt p items).filter (·.1 != off) = linkedAt p items := by
  refine List.filter_eq_self.mpr fun x hx => ?_
  have hbounds := bounds_of_mem_linkedAt hx
  simp only [bne_iff_ne, ne_eq]
  omega

/-- Taking a name out: its entries become entries marked unused, and the
    names linked are the others. -/
theorem linkedAt_unlink (before after : List DirItem) (longs : List FATDirEnt) (short e : FATDirEnt) :
    (linkedAt 0 (before ++ named longs short :: after)).filter
        (·.1 != stepSize * ((entsOf before).length + longs.length)) =
      linkedAt 0 (before ++ List.replicate (longs.length + 1) (deleted e) ++ after) := by
  have hdel : ∀ item ∈ List.replicate (longs.length + 1) (deleted e), ∃ e', item = deleted e' :=
    fun item h => ⟨e, List.eq_of_mem_replicate h⟩
  rw [linkedAt_append, linkedAt_named _ _ rfl, linkedAt_append, linkedAt_append, linkedAt_of_deleted hdel,
    entsOf_append, entsOf_replicate_deleted, List.length_append, List.length_replicate, List.filter_append,
    List.filter_cons]
  -- the names before the short entry lie below it, those after it above
  have hbefore : (linkedAt 0 before).filter (·.1 != stepSize * ((entsOf before).length + longs.length)) =
      linkedAt 0 before :=
    filter_linkedAt_of_outside (Or.inr (by unfold stepSize; omega))
  have hafter : (linkedAt ((entsOf before).length + longs.length + 1) after).filter
      (·.1 != stepSize * ((entsOf before).length + longs.length)) =
        linkedAt ((entsOf before).length + longs.length + 1) after :=
    filter_linkedAt_of_outside (Or.inl (by unfold stepSize; omega))
  simp only [Nat.zero_add, bne_self_eq_false, Bool.false_eq_true, if_false, hbefore, List.append_nil]
  rw [hafter, Nat.add_assoc]

/-! ## The entries `gen_dir_ent` makes -/

/-- A long entry of order 1 to 63 is used, marked last or not. -/
theorem FATDirEnt.unused_fromNameSlice (isLastEnt : Bool) {order : Nat} (h₀ : 0 < order) (h : order < 64)
    (partialName : NameSlice) : (FATDirEnt.fromNameSlice isLastEnt order partialName).unused = false := by
  have hbyte : ∀ o < 64, 0 < o → (o.toUInt8 != 0 && o.toUInt8 != 0xE5) = true ∧
      ((o.toUInt8 ||| 0x40) != 0 && (o.toUInt8 ||| 0x40) != 0xE5) = true := by
    decide
  obtain ⟨hplain, hmarked⟩ := hbyte order h h₀
  rw [FATDirEnt.unused, FATDirEnt.lastAndUnused, FATDirEnt.unusedNotLast, FATDirEnt.byte_zero_fromNameSlice]
  cases isLastEnt
  · simpa [dirEntryLastAndUnused, dirEntryUnused] using hplain
  · simpa [dirEntryLastAndUnused, dirEntryUnused, lastLongEntry] using hmarked

theorem FATDirEnt.isShort_fromName (name : ShortName) (fstClus : UInt32) (fileType : DiskInodeType) :
    (FATDirEnt.fromName name fstClus fileType).isShort = true := by
  rw [FATDirEnt.isShort, FATDirEnt.isLong, ← FATDirEnt.attr, FATDirEnt.fromName_attr]
  split <;> decide

/-- A short entry is used when its name does not start with `0x00` or `0xE5`. -/
theorem FATDirEnt.unused_fromName {name : ShortName} (h₀ : name.1.getD 0 0 ≠ dirEntryLastAndUnused)
    (h₁ : name.1.getD 0 0 ≠ dirEntryUnused) (fstClus : UInt32) (fileType : DiskInodeType) :
    (FATDirEnt.fromName name fstClus fileType).unused = false := by
  have hbyte : (FATDirEnt.fromName name fstClus fileType).byte 0 = name.1.getD 0 0 := by
    have hlen := name.2
    simp only [FATDirEnt.byte, FATDirEnt.fromName, List.append_assoc]
    exact List.getD_append _ _ _ _ (by omega)
  rw [FATDirEnt.unused, FATDirEnt.lastAndUnused, FATDirEnt.unusedNotLast, hbyte, beq_false_of_ne h₀,
    beq_false_of_ne h₁]
  rfl

@[simp] theorem genDirEnt_fst (shortNameSlice : ShortName) (name : List Char) (fstClus : UInt32)
    (fileType : DiskInodeType) :
    (genDirEnt shortNameSlice name fstClus fileType).1 = FATDirEnt.fromName shortNameSlice fstClus fileType :=
  rfl

@[simp] theorem genDirEnt_snd (shortNameSlice : ShortName) (name : List Char) (fstClus : UInt32)
    (fileType : DiskInodeType) : (genDirEnt shortNameSlice name fstClus fileType).2 = genLongEnts name :=
  rfl

/-- A name as `translated_str` reads it: chars below 256, none of them NUL. -/
def Latin1Name (name : List Char) : Prop :=
  ∀ c ∈ name, c.toNat < 256 ∧ c.toNat ≠ 0

instance : DecidablePred Latin1Name := fun name =>
  inferInstanceAs (Decidable (∀ c ∈ name, c.toNat < 256 ∧ c.toNat ≠ 0))

/-- `translated_str` over the bytes of user memory from `ptr` on: each byte up
    to the first NUL, as the char of its code. -/
def translatedStr (bytes : List UInt8) : List Char :=
  (bytes.takeWhile (· != 0)).map fun b => Char.ofNat b.toNat

/-- Every part of a string `translated_str` read, such as a component of a
    path, is a name of that kind. -/
theorem latin1Name_of_sublist {bytes : List UInt8} {name : List Char} (h : List.Sublist name (translatedStr bytes)) :
    Latin1Name name := by
  intro c hc
  obtain ⟨b, hb, rfl⟩ := List.mem_map.mp (h.subset hc)
  have hne : b ≠ 0 := by simpa using List.mem_takeWhile_imp hb
  have hlt := b.toNat_lt
  have hb0 : b.toNat ≠ 0 := fun h0 => hne (UInt8.toNat_inj.mp h0)
  rw [Char.toNat_ofNat, if_pos (by unfold Nat.isValidChar; omega)]
  exact ⟨hlt, hb0⟩

theorem Latin1Name.bmp {name : List Char} (h : Latin1Name name) : ∀ c ∈ name, c.toNat < 0x10000 :=
  fun c hc => lt_trans (h c hc).1 (by decide)

theorem length_genLongEnts_le {name : List Char} (hlen : utf8Len name < 256) : (genLongEnts name).length ≤ 20 := by
  simp only [genLongEnts, List.length_map, List.length_range, longEntNum, longDirEntNameCapacity]
  omega

theorem unused_of_mem_genLongEnts {name : List Char} (hlen : utf8Len name < 256) :
    ∀ e ∈ genLongEnts name, e.unused = false := by
  intro e he
  have hnum := length_genLongEnts_le hlen
  simp only [genLongEnts, List.mem_map, List.mem_range] at he hnum
  obtain ⟨i, hi, rfl⟩ := he
  rw [List.length_map, List.length_range] at hnum
  exact FATDirEnt.unused_fromNameSlice _ (by omega) (by omega) _

/-- The entries of a name, last part first, and its short entry make an item
    that `DirWalker` reads back as the name. -/
theorem valid_named_genLongEnts {name : List Char} {shortName : ShortName} (hname : Latin1Name name)
    (hlen : utf8Len name < 256) (h₀ : shortName.1.getD 0 0 ≠ dirEntryLastAndUnused)
    (h₁ : shortName.1.getD 0 0 ≠ dirEntryUnused) (fstClus : UInt32) (fileType : DiskInodeType) :
    (named (genLongEnts name).reverse (FATDirEnt.fromName shortName fstClus fileType)).Valid := by
  have hrt := (long_entries_round_trip hname.bmp (fun c hc => (hname c hc).2) hlen).2
  refine ⟨longChain_reverse_iff.mpr fun i hi => ?_, FATDirEnt.isShort_fromName _ _ _,
    FATDirEnt.unused_fromName h₀ h₁ _ _⟩
  obtain ⟨hlong, hord, hlast⟩ := hrt i hi
  exact ⟨hlong, unused_of_mem_genLongEnts hlen _ (List.getElem_mem _), hord, hlast⟩

theorem pair_named_genLongEnts {name : List Char} (hname : Latin1Name name) (hne : name ≠ [])
    (hlen : utf8Len name < 256) (short : FATDirEnt) :
    (named (genLongEnts name).reverse short).pair = some (name, short) := by
  have hrt := (long_entries_round_trip hname.bmp (fun c hc => (hname c hc).2) hlen).1
  simp [pair, hrt, hne]

theorem byte_zero_genLongEnts (name : List Char) (j : Nat)
    (hj : j < (genLongEnts name).length) :
    (genLongEnts name)[j].byte 0 =
      if j + 1 = (genLongEnts name).length then (j + 1).toUInt8 ||| lastLongEntry else (j + 1).toUInt8 := by
  simp only [genLongEnts, List.getElem_map, List.getElem_range, List.length_map, List.length_range,
    FATDirEnt.byte_zero_fromNameSlice, beq_iff_eq]

/-! ## Creating a name in a laid-out directory -/

section Create

variable {efs : Efs} (h512 : efs.bytsPerSec = bufferSize)
include h512

/-- `create_dir_ent` of the entries `gen_dir_ent` makes: the name joins the
    items, last part first, and `hint` moves past it.  At most 20 long entries
    and the short one fit in the two clusters the FAT may have to give. -/
theorem Layout.createDirEnt {st : FileState} {items : List DirItem} {tail : List FATDirEnt}
    (hl : Layout efs st items tail) {name : List Char} {shortName : ShortName} (fstClus : UInt32)
    (fileType : DiskInodeType) (hname : Latin1Name name) (hlen : utf8Len name < 256)
    (h₀ : shortName.1.getD 0 0 ≠ dirEntryLastAndUnused) (h₁ : shortName.1.getD 0 0 ≠ dirEntryUnused)
    (hgrow : GrowsBy 2 st) (hsize : st.content.size + 2 * efs.clusSize < 2 ^ 32) :
    ∃ st' tail', Inode.createDirEnt efs st (genDirEnt shortName name fstClus fileType).1
        (genDirEnt shortName name fstClus fileType).2 =
          some (st', stepSize * ((entsOf items).length + (genLongEnts name).length)) ∧
      Layout efs st' (items ++ [named (genLongEnts name).reverse (genDirEnt shortName name fstClus fileType).1])
        tail' := by
  have hnum := length_genLongEnts_le hlen
  have hsec := efs.secPerClus_pos
  obtain ⟨st', tail', hcreate, htail, hrep, hhint, hdvd, hle⟩ := createDirEnt_spec h512 (E := 2)
    (FATDirEnt.fromName shortName fstClus fileType) (genLongEnts name) hl.represents hl.hint_eq hl.size_dvd
    (by rw [List.length_append]; omega) hgrow hsize (by omega)
  refine ⟨st', tail', hcreate, ⟨fun item hitem => ?_, ?_, ?_, ?_, hdvd, lt_of_lt_of_le hl.size_pos hle⟩⟩
  · rcases List.mem_append.mp hitem with h | h
    · exact hl.valid item h
    · rw [List.mem_singleton.mp h]
      exact valid_named_genLongEnts hname hlen h₀ h₁ fstClus fileType
  · simpa [ents] using hrep
  · rw [hhint]
    simp [ents]
  · intro e he
    rw [htail e he]
    rfl

/-- The long entries of a name created in a laid-out directory, read back: in
    file order they carry the orders `n ||| 0x40`, `n - 1`, ..., `1`, the short
    entry follows them, and `DirWalker` yields the name itself after the
    names that were there. -/
theorem created_name_reads_back {st : FileState} {items : List DirItem} {tail : List FATDirEnt}
    (hl : Layout efs st items tail) {name : List Char} {shortName : ShortName} (fstClus : UInt32)
    (fileType : DiskInodeType) (hname : Latin1Name name) (hne : name ≠ []) (hlen : utf8Len name < 256)
    (h₀ : shortName.1.getD 0 0 ≠ dirEntryLastAndUnused) (h₁ : shortName.1.getD 0 0 ≠ dirEntryUnused)
    (hgrow : GrowsBy 2 st) (hsize : st.content.size + 2 * efs.clusSize < 2 ^ 32) :
    ∃ st' tail', Inode.createDirEnt efs st (genDirEnt shortName name fstClus fileType).1
        (genDirEnt shortName name fstClus fileType).2 =
          some (st', stepSize * ((entsOf items).length + (genLongEnts name).length)) ∧
      Represents efs st' (entBytes (entsOf items ++ (genLongEnts name).reverse ++
        (genDirEnt shortName name fstClus fileType).1 :: tail')) ∧
      (∀ i (hi : i < (genLongEnts name).reverse.length), (genLongEnts name).reverse[i].byte 0 =
        if i = 0 then (genLongEnts name).length.toUInt8 ||| lastLongEntry
        else ((genLongEnts name).length - i).toUInt8) ∧
      walkAll efs st' = some (items.filterMap pair ++ [(name, (genDirEnt shortName name fstClus fileType).1)]) := by
  obtain ⟨st', tail', hcreate, hl'⟩ := hl.createDirEnt h512 fstClus fileType hname hlen h₀ h₁ hgrow hsize
  have hes : entsOf (items ++ [named (genLongEnts name).reverse (genDirEnt shortName name fstClus fileType).1]) ++
      tail' = entsOf items ++ (genLongEnts name).reverse ++ (genDirEnt shortName name fstClus fileType).1 :: tail' := by
    simp [ents]
  refine ⟨st', tail', hcreate, hes ▸ hl'.represents, fun i hi => ?_, ?_⟩
  · rw [List.length_reverse] at hi
    have hord : (genLongEnts name).length - 1 - i + 1 = (genLongEnts name).length - i := by omega
    rw [List.getElem_reverse, byte_zero_genLongEnts name _ (by omega), hord]
    by_cases h0 : i = 0
    · simp [h0]
    · rw [if_neg (by omega), if_neg h0]
  · rw [walkAll_of_layout h512 hl', List.filterMap_append, List.filterMap_cons,
      pair_named_genLongEnts hname hne hlen, List.filterMap_nil]

end Create

/-- An empty directory in cluster 2 of a volume of one-sector clusters: one
    zeroed sector, whose first entry ends it. -/
def emptySectorDir : FileState :=
  sectorDir (List.replicate 512 0) 0 emptyRoot.fat

theorem layout_emptySectorDir :
    Layout sectorEfs emptySectorDir [] (List.replicate 16 FATDirEnt.unusedAndLastEntry) where
  valid := by simp
  represents := by
    have hbytes : entBytes (entsOf [] ++ List.replicate 16 FATDirEnt.unusedAndLastEntry) = List.replicate 512 0 := by
      decide +kernel
    rw [hbytes]
    exact represents_sectorDir (by rw [List.length_replicate]) 0 emptyRoot.fat
  hint_eq := rfl
  tail_free := by simp [FATDirEnt.lastAndUnused, FATDirEnt.unusedAndLastEntry, FATDirEnt.byte, dirEntryLastAndUnused]
  size_dvd := by decide
  size_pos := by decide

theorem growsBy_two_emptySectorDir : GrowsBy 2 emptySectorDir :=
  ⟨by unfold Supplies; decide, by unfold Supplies; decide, trivial⟩

/-- `"crème-brûlée.txt"`: 16 chars below 256 in 19 bytes, so two long entries. -/
def cremeName : List Char :=
  ['c', 'r', 'è', 'm', 'e', '-', 'b', 'r', 'û', 'l', 'é', 'e', '.', 't', 'x', 't']

/-- `CREME~1 TXT`. -/
def cremeShortName : ShortName :=
  ⟨[0x43, 0x52, 0x45, 0x4D, 0x45, 0x7E, 0x31, 0x20, 0x54, 0x58, 0x54], rfl⟩

theorem latin1Name_creme : Latin1Name cremeName := by
  have hlt : ∀ c ∈ cremeName, c.toNat < 256 := by simp [cremeName]
  have hne : ∀ c ∈ cremeName, c.toNat ≠ 0 := by simp [cremeName]
  exact fun c hc => ⟨hlt c hc, hne c hc⟩

theorem utf8Len_creme : utf8Len cremeName < 256 := by
  decide +kernel

theorem creme_brulee_reads_back :
    ∃ st' off, Inode.createDirEnt sectorEfs emptySectorDir (genDirEnt cremeShortName cremeName 0 .file).1
        (genDirEnt cremeShortName cremeName 0 .file).2 = some (st', off) ∧
      walkAll sectorEfs st' = some [(cremeName, FATDirEnt.fromName cremeShortName 0 .file)] := by
  obtain ⟨st', tail', hcreate, -, -, hwalk⟩ := created_name_reads_back rfl layout_emptySectorDir 0 .file
    latin1Name_creme (by simp [cremeName]) utf8Len_creme
    (show cremeShortName.1.getD 0 0 ≠ dirEntryLastAndUnused by decide)
    (show cremeShortName.1.getD 0 0 ≠ dirEntryUnused by decide) growsBy_two_emptySectorDir (by decide)
  exact ⟨st', _, hcreate, by simpa using hwalk⟩

/-! ## The directory as a system -/

/-- A directory file and the names linked in it: for each, the offset of its
    short entry, which the child keeps as its `parent_dir`, its name and its
    short entry. -/
structure DirState where
  file : FileState
  linked : List (Nat × List Char × FATDirEnt)

/-- The writes into a directory. -/
inductive DirOp
  /-- `create_lock` or `link_par_lock` of `name`, to which
      `gen_short_name_slice` gave `shortName`, for a child of that first
      cluster and type. -/
  | create (name : List Char) (shortName : ShortName) (fstClus : UInt32) (fileType : DiskInodeType)
  /-- `unlink_lock` of the child whose `parent_dir` is at `offset`. -/
  | unlink (offset : Nat)

/-- The directory after a write: `gen_dir_ent` then `create_dir_ent`, whose
    offset the child keeps; or `delete_dir_ent` at the child's offset, after
    which it has none.  `create_lock` refuses a name of 256 bytes or more before
    it writes anything, which `Allowed` leaves out. -/
def dirStep (efs : Efs) (s : DirState) : DirOp → Option DirState
  | .create name shortName fstClus fileType => do
      let (shortEnt, longEnts) := genDirEnt shortName name fstClus fileType
      let (file, shortEntOffset) ← Inode.createDirEnt efs s.file shortEnt longEnts
      pure ⟨file, s.linked ++ [(shortEntOffset, name, shortEnt)]⟩
  | .unlink offset => do
      let (file, ok) ← Inode.deleteDirEnt efs s.file offset
      -- `unlink_lock` panics when `delete_self_dir_ent` fails
      if !ok then none
      pure ⟨file, s.linked.filter (·.1 != offset)⟩

theorem dirStep_create (efs : Efs) (s : DirState) (name : List Char) (shortName : ShortName) (fstClus : UInt32)
    (fileType : DiskInodeType) :
    dirStep efs s (.create name shortName fstClus fileType) =
      (Inode.createDirEnt efs s.file (genDirEnt shortName name fstClus fileType).1
          (genDirEnt shortName name fstClus fileType).2).map fun r =>
        ⟨r.1, s.linked ++ [(r.2, name, (genDirEnt shortName name fstClus fileType).1)]⟩ := by
  simp only [dirStep]
  cases Inode.createDirEnt efs s.file (genDirEnt shortName name fstClus fileType).1
    (genDirEnt shortName name fstClus fileType).2 <;> rfl

theorem dirStep_unlink {efs : Efs} {s : DirState} {offset : Nat} {file : FileState}
    (h : Inode.deleteDirEnt efs s.file offset = some (file, true)) :
    dirStep efs s (.unlink offset) = some ⟨file, s.linked.filter (·.1 != offset)⟩ := by
  simp [dirStep, h]

theorem linked_of_dirStep_unlink {efs : Efs} {s s' : DirState} {offset : Nat}
    (h : dirStep efs s (.unlink offset) = some s') : s'.linked = s.linked.filter (·.1 != offset) := by
  cases hdel : Inode.deleteDirEnt efs s.file offset with
  | none => simp [dirStep, hdel] at h
  | some r =>
      obtain ⟨file, ok⟩ := r
      cases ok <;> simp [dirStep, hdel] at h
      rw [← h]

/-- The writes of the runs: a name as `translated_str` reads it, not empty and
    under 256 bytes as `create_lock` asks, whose short name does not start as
    an unused entry does, in a directory whose FAT can add two clusters and
    whose size leaves room for them in `u32`; the unlink of a linked name. -/
def Allowed (efs : Efs) (s : DirState) : DirOp → Prop
  | .create name shortName _ _ => Latin1Name name ∧ name ≠ [] ∧ utf8Len name < 256 ∧
      shortName.1.getD 0 0 ≠ dirEntryLastAndUnused ∧ shortName.1.getD 0 0 ≠ dirEntryUnused ∧
      GrowsBy 2 s.file ∧ s.file.content.size + 2 * efs.clusSize < 2 ^ 32
  | .unlink offset => offset ∈ s.linked.map Prod.fst

/-- The directory is laid out, and the names it links are those of its items. -/
def DirState.Inv (efs : Efs) (s : DirState) : Prop :=
  ∃ items tail, Layout efs s.file items tail ∧ linkedAt 0 items = s.linked

section Run

variable {efs : Efs} (h512 : efs.bytsPerSec = bufferSize)
include h512

/-- Every write the runs allow succeeds on a laid-out directory and leaves it
    laid out, with the names it links. -/
theorem DirState.Inv.step {s : DirState} {op : DirOp} (hi : s.Inv efs) (hallowed : Allowed efs s op) :
    ∃ s', dirStep efs s op = some s' ∧ s'.Inv efs := by
  obtain ⟨items, tail, hl, hlinked⟩ := hi
  cases op with
  | create name shortName fstClus fileType =>
      obtain ⟨hname, hne, hlen, h₀, h₁, hgrow, hsize⟩ := hallowed
      obtain ⟨st', tail', hcreate, hl'⟩ := hl.createDirEnt h512 fstClus fileType hname hlen h₀ h₁ hgrow hsize
      refine ⟨_, by rw [dirStep_create, hcreate, Option.map_some], _, tail', hl', ?_⟩
      rw [linkedAt_append, hlinked, Nat.zero_add, linkedAt_named _ _ (pair_named_genLongEnts hname hne hlen _),
        List.length_reverse, linkedAt_nil]
  | unlink offset =>
      rw [Allowed, ← hlinked] at hallowed
      obtain ⟨before, longs, short, after, rfl, rfl⟩ := exists_named_of_mem_linkedAt hallowed
      obtain ⟨st', items', D, tail', hdel, hsplit, hD, hl'⟩ := deleteDirEnt_spec h512 hl
      rw [Nat.zero_add]
      refine ⟨_, dirStep_unlink hdel, items', tail', hl', ?_⟩
      rw [← hlinked, linkedAt_unlink before after longs short FATDirEnt.unusedNotLastEntry, hsplit,
        linkedAt_append, linkedAt_of_deleted hD, List.append_nil]

theorem DirState.Inv.of_step {s s' : DirState} {op : DirOp} (hi : s.Inv efs) (hallowed : Allowed efs s op)
    (hstep : dirStep efs s op = some s') : s'.Inv efs := by
  obtain ⟨s'', hs'', hi''⟩ := hi.step h512 hallowed
  rw [hstep, Option.some.injEq] at hs''
  exact hs'' ▸ hi''

/-- `DirWalker` over a directory that keeps the invariant yields the names it
    links, in order. -/
theorem DirState.Inv.walkAll {s : DirState} (hi : s.Inv efs) :
    walkAll efs s.file = some (s.linked.map Prod.snd) := by
  obtain ⟨items, tail, hl, hlinked⟩ := hi
  rw [walkAll_of_layout h512 hl, ← hlinked, map_snd_linkedAt]

/-- Over every run of creations and unlinks from a laid-out directory, the
    directory stays laid out: used entries in whole names up to `hint`, the
    entry at `hint` `last_and_unused` when there is one.  `DirWalker` yields one
    pair for each name linked and not unlinked, in order, without reaching its
    `unreachable!()`; the size stays a positive multiple of the cluster size;
    and every write the runs allow succeeds from there. -/
theorem directory_runs_keep_layout {s₀ s : DirState} {ops : List DirOp} (h₀ : s₀.Inv efs)
    (hrun : StepRun.Steps (StepRun.Guarded (Allowed efs) (dirStep efs)) s₀ ops s) :
    s.Inv efs ∧ walkAll efs s.file = some (s.linked.map Prod.snd) ∧
      efs.clusSize ∣ s.file.content.size ∧ 0 < s.file.content.size ∧
      ∀ op, Allowed efs s op → ∃ s', dirStep efs s op = some s' := by
  have hinv : s.Inv efs :=
    StepRun.Steps.invariant (fun _ _ _ ht hguard => ht.of_step h512 hguard.1 hguard.2) hrun h₀
  obtain ⟨items, tail, hl, -⟩ := id hinv
  refine ⟨hinv, hinv.walkAll h512, hl.size_dvd, hl.size_pos, fun op hop => ?_⟩
  obtain ⟨s', hs', -⟩ := hinv.step h512 hop
  exact ⟨s', hs'⟩

end Run

/-- `crème-brûlée.txt` created in the empty directory and unlinked again. -/
theorem creme_brulee_created_and_unlinked :
    ∃ s, StepRun.Steps (StepRun.Guarded (Allowed sectorEfs) (dirStep sectorEfs)) ⟨emptySectorDir, []⟩
        [.create cremeName cremeShortName 0 .file, .unlink (stepSize * 2)] s ∧
      s.linked = [] ∧ walkAll sectorEfs s.file = some [] := by
  have h₀ : (⟨emptySectorDir, []⟩ : DirState).Inv sectorEfs := ⟨[], _, layout_emptySectorDir, rfl⟩
  have hcreate : Allowed sectorEfs ⟨emptySectorDir, []⟩ (.create cremeName cremeShortName 0 .file) :=
    ⟨latin1Name_creme, by simp [cremeName], utf8Len_creme, by decide, by decide, growsBy_two_emptySectorDir,
      by decide⟩
  obtain ⟨st₁, -, hc, -⟩ := layout_emptySectorDir.createDirEnt rfl 0 .file latin1Name_creme utf8Len_creme
    (show cremeShortName.1.getD 0 0 ≠ dirEntryLastAndUnused by decide)
    (show cremeShortName.1.getD 0 0 ≠ dirEntryUnused by decide) growsBy_two_emptySectorDir (by decide)
  have hs₁ : dirStep sectorEfs ⟨emptySectorDir, []⟩ (.create cremeName cremeShortName 0 .file) =
      some ⟨st₁, [(stepSize * 2, cremeName, FATDirEnt.fromName cremeShortName 0 .file)]⟩ := by
    rw [dirStep_create, hc]
    rfl
  have hunlink : Allowed sectorEfs ⟨st₁, [(stepSize * 2, cremeName, FATDirEnt.fromName cremeShortName 0 .file)]⟩
      (.unlink (stepSize * 2)) := by
    simp [Allowed]
  obtain ⟨s₂, hs₂, -⟩ := (h₀.of_step rfl hcreate hs₁).step rfl hunlink
  have hrun : StepRun.Steps (StepRun.Guarded (Allowed sectorEfs) (dirStep sectorEfs)) ⟨emptySectorDir, []⟩
      [.create cremeName cremeShortName 0 .file, .unlink (stepSize * 2)] s₂ :=
    .cons ⟨hcreate, hs₁⟩ (.cons ⟨hunlink, hs₂⟩ (.nil s₂))
  obtain ⟨-, hwalk, -⟩ := directory_runs_keep_layout rfl h₀ hrun
  have hlinked : s₂.linked = [] := by
    rw [linked_of_dirStep_unlink hs₂]
    simp
  exact ⟨s₂, hrun, hlinked, by rw [hwalk, hlinked]; rfl⟩

/-! ## What a new cluster held

`expand_dir_size` does not clear the cluster it adds, and `alloc_dir_ent`
writes a `last_and_unused` entry only after the entries it hands out: what the
cluster held past that entry stays. -/

/-- A directory of one cluster whose 16 entries are all marked unused, so that
    `hint` is its size; cluster 3, the next one the FAT gives, holds 16 short
    entries of an earlier file. -/
def staleDir : FileState :=
  { sectorDir (entBytes (List.replicate 16 FATDirEnt.unusedNotLastEntry)) 512 emptyRoot.fat with
    disk := fun sec i =>
      if sec = 101 then (entBytes (List.replicate 16 emptyFileEnt)).getD i 0
      else if sec = 100 then (entBytes (List.replicate 16 FATDirEnt.unusedNotLastEntry)).getD i 0 else 0 }

theorem layout_staleDir :
    Layout sectorEfs staleDir (List.replicate 16 (deleted FATDirEnt.unusedNotLastEntry)) [] := by
  have hbytes : entBytes (entsOf (List.replicate 16 (deleted FATDirEnt.unusedNotLastEntry)) ++ []) =
      entBytes (List.replicate 16 FATDirEnt.unusedNotLastEntry) := by
    rw [entsOf_replicate_deleted, List.append_nil]
  have hrep := @represents_sectorDir (entBytes (List.replicate 16 FATDirEnt.unusedNotLastEntry))
    (by decide +kernel) 512 emptyRoot.fat
  refine ⟨fun item hitem => ?_, ?_, ?_, by simp, by decide, by decide⟩
  · rw [List.eq_of_mem_replicate hitem]
    rfl
  · rw [hbytes]
    refine ⟨hrep.size_eq, hrep.size_lt, hrep.covers, fun i hi => ?_⟩
    rw [← hrep.bytes i hi]
    have hsec : i / bufferSize = 0 := Nat.div_eq_of_lt (by rw [hrep.size_eq.symm] at hi; exact hi)
    have hfirst : sectorEfs.firstSectorOfCluster 2 = 100 := by decide
    show diskByte sectorEfs [2] staleDir.disk i = diskByte sectorEfs [2] (sectorDir _ 512 emptyRoot.fat).disk i
    simp only [diskByte, hsec, Nat.zero_div, List.getD_cons_zero, hfirst]
    simp [staleDir, sectorDir]
  · rw [entsOf_replicate_deleted]
    rfl

/-- In a directory laid out as the claim of a free end asks, with no entry
    past `hint`, `create_lock` of `"a"` grows the directory by cluster 3 and
    moves `hint` to 576, and the entry at 608, after `hint`, is a used entry
    the cluster held. -/
theorem create_leaves_stale_entry_past_hint :
    (⟨staleDir, []⟩ : DirState).Inv sectorEfs ∧
      ∃ s st e, dirStep sectorEfs ⟨staleDir, []⟩ (.create ['a'] cremeShortName 0 .file) = some s ∧
        s.file.content.hint = 576 ∧ Inode.getDirEnt sectorEfs s.file 608 = some (st, .ok e) ∧
        e.unused = false := by
  refine ⟨⟨_, [], layout_staleDir, linkedAt_of_deleted (fun item h => ⟨_, List.eq_of_mem_replicate h⟩) 0⟩, ?_⟩
  have hrun : ((dirStep sectorEfs ⟨staleDir, []⟩ (.create ['a'] cremeShortName 0 .file)).bind fun s =>
      (Inode.getDirEnt sectorEfs s.file 608).map fun r => (s.file.content.hint, r.2.toOption.map FATDirEnt.unused)) =
        some (576, some false) := by
    decide +kernel
  simp only [Option.bind_eq_some_iff, Option.map_eq_some_iff, Prod.mk.injEq] at hrun
  obtain ⟨s, hs, ⟨st, r⟩, hget, hhint, b, hb, hused⟩ := hrun
  cases r with
  | error u => simp [Except.toOption] at hb
  | ok e =>
      obtain rfl : e = b := by simpa [Except.toOption] using hb
      exact ⟨s, st, e, hs, hhint, hget, hused⟩

end OsKernel.Fat32

import OsKernel.Lib.Unicode
import OsKernel.Lib.Word

/-! # Directory entries

`FATDirEnt` of `fs/fat32/layout.rs`, the union of `FATShortDirEnt` and
`FATLongDirEnt`, as the 32 bytes a directory file holds for it.  A union
field is read at its offset in those bytes: byte 0 is the first byte of a
short name or the `ord` of a long entry, byte 11 the attribute of both, and a
long entry spreads its 13 UTF-16 units over bytes 1, 14 and 28 on.
-/

namespace OsKernel.Fat32

open Unicode

/-- `DIR_ENTRY_UNUSED`. -/
def dirEntryUnused : UInt8 := 0xE5

/-- `DIR_ENTRY_LAST_AND_UNUSED`. -/
def dirEntryLastAndUnused : UInt8 := 0x00

/-- `LAST_LONG_ENTRY`. -/
def lastLongEntry : UInt8 := 0x40

/-- `FATDiskInodeType::AttrReadOnly`. -/
def attrReadOnly : UInt8 := 0x01

/-- `FATDiskInodeType::AttrHidden`. -/
def attrHidden : UInt8 := 0x02

/-- `FATDiskInodeType::AttrSystem`. -/
def attrSystem : UInt8 := 0x04

/-- `FATDiskInodeType::AttrVolumeID`. -/
def attrVolumeId : UInt8 := 0x08

/-- `FATDiskInodeType::AttrDirectory`. -/
def attrDirectory : UInt8 := 0x10

/-- `FATDiskInodeType::AttrArchive`. -/
def attrArchive : UInt8 := 0x20

/-- `FATDiskInodeType::AttrLongName`. -/
def attrLongName : UInt8 := 0x0F

/-- `STEP_SIZE`, the size of a `FATDirEnt`. -/
def stepSize : Nat := 32

inductive DiskInodeType
  | file
  | directory
deriving DecidableEq, Repr

/-- The 11 bytes of a short name. -/
abbrev ShortName := { name : List UInt8 // name.length = 11 }

/-- A long entry's 13 units of a name. -/
abbrev NameSlice := { units : List UInt16 // units.length = 13 }

/-- A `u16` in little-endian bytes. -/
def le16 (u : UInt16) : List UInt8 :=
  [u.toUInt8, (u >>> 8).toUInt8]

theorem length_flatMap_le16 (us : List UInt16) : (us.flatMap le16).length = 2 * us.length := by
  induction us with
  | nil => rfl
  | cons u us ih =>
      rw [List.flatMap_cons, List.length_append, ih, List.length_cons]
      simp only [le16, List.length_cons, List.length_nil]
      omega

structure FATDirEnt where
  bytes : List UInt8
  length_eq : bytes.length = stepSize
deriving DecidableEq

namespace FATDirEnt

def byte (e : FATDirEnt) (i : Nat) : UInt8 :=
  e.bytes.getD i 0

/-- The little-endian `u16` at byte `i`. -/
def u16At (e : FATDirEnt) (i : Nat) : UInt16 :=
  (e.byte i).toUInt16 ||| ((e.byte (i + 1)).toUInt16 <<< 8)

/-- The little-endian `u32` at byte `i`. -/
def u32At (e : FATDirEnt) (i : Nat) : Nat :=
  (e.u16At i).toNat + (e.u16At (i + 2)).toNat * 0x10000

def setByte (e : FATDirEnt) (i : Nat) (b : UInt8) : FATDirEnt :=
  ⟨e.bytes.set i b, by rw [List.length_set, e.length_eq]⟩

/-- Writes `u` little-endian at byte `i`. -/
def setU16 (e : FATDirEnt) (i : Nat) (u : UInt16) : FATDirEnt :=
  (e.setByte i u.toUInt8).setByte (i + 1) (u >>> 8).toUInt8

/-- `attr`. -/
def attr (e : FATDirEnt) : UInt8 :=
  e.byte 11

/-- `FATShortDirEnt::get_first_clus`: `fst_clus_lo | fst_clus_hi << 16`. -/
def firstClus (e : FATDirEnt) : Nat :=
  (e.u16At 26).toNat ||| ((e.u16At 20).toNat <<< 16)

/-- `FATShortDirEnt::set_fst_clus`. -/
def setFstClus (e : FATDirEnt) (fstClus : UInt32) : FATDirEnt :=
  (e.setU16 20 (fstClus >>> 16).toUInt16).setU16 26 (fstClus &&& 0xFFFF).toUInt16

/-- `file_size`. -/
def fileSize (e : FATDirEnt) : Nat :=
  e.u32At 28

/-- `short_dir_ent.file_size = size`. -/
def setFileSize (e : FATDirEnt) (size : UInt32) : FATDirEnt :=
  (e.setU16 28 size.toUInt16).setU16 30 (size >>> 16).toUInt16

/-- `FATShortDirEnt::is_dir`. -/
def isDir (e : FATDirEnt) : Bool :=
  e.attr == attrDirectory

/-- `FATShortDirEnt::is_file`. -/
def isFile (e : FATDirEnt) : Bool :=
  e.attr == attrArchive || e.attr == attrHidden || e.attr == attrSystem || e.attr == attrReadOnly

/-- `FATShortDirEnt::from_name`: the name, the attribute of the file type and
    the first cluster split into `fst_clus_hi` and `fst_clus_lo`. -/
def fromName (name : ShortName) (fstClus : UInt32) (fileType : DiskInodeType) : FATDirEnt :=
  ⟨name.1 ++ [if fileType = .directory then attrDirectory else attrArchive] ++
      List.replicate 8 (0 : UInt8) ++ le16 (fstClus >>> 16).toUInt16 ++ List.replicate 4 (0 : UInt8) ++
      le16 (fstClus &&& 0xFFFF).toUInt16 ++ List.replicate 4 (0 : UInt8),
    by simp only [List.length_append, name.2, List.length_replicate, le16, List.length_cons,
      List.length_nil, stepSize]⟩

/-- `FATDirEnt::empty`: the empty short entry, an archive. -/
def empty : FATDirEnt :=
  ⟨List.replicate 11 0 ++ [attrArchive] ++ List.replicate 20 0, by simp [stepSize]⟩

/-- `FATDirEnt::unused_not_last_entry`. -/
def unusedNotLastEntry : FATDirEnt :=
  ⟨[dirEntryUnused] ++ List.replicate 10 0 ++ [attrArchive] ++ List.replicate 20 0,
    by simp [stepSize]⟩

/-- `FATDirEnt::unused_and_last_entry`: its byte 11 is cleared too. -/
def unusedAndLastEntry : FATDirEnt :=
  ⟨List.replicate 32 0, by simp [stepSize]⟩

/-- `FATLongDirEnt::from_name_slice`: `order` in `ord`, with `LAST_LONG_ENTRY`
    on the last entry of the name. -/
def fromNameSlice (isLastEnt : Bool) (order : Nat) (partialName : NameSlice) : FATDirEnt :=
  let ord : UInt8 := if isLastEnt then order.toUInt8 ||| lastLongEntry else order.toUInt8
  ⟨[ord] ++ (partialName.1.take 5).flatMap le16 ++ [attrLongName, 0, 0] ++
      ((partialName.1.drop 5).take 6).flatMap le16 ++ [0, 0] ++ (partialName.1.drop 11).flatMap le16,
    by simp only [List.length_append, length_flatMap_le16, List.length_take, List.length_drop,
      partialName.2, List.length_cons, List.length_nil, stepSize]; omega⟩

def isLong (e : FATDirEnt) : Bool :=
  e.byte 11 == attrLongName

def isShort (e : FATDirEnt) : Bool :=
  !e.isLong

def unusedNotLast (e : FATDirEnt) : Bool :=
  e.byte 0 == dirEntryUnused

def lastAndUnused (e : FATDirEnt) : Bool :=
  e.byte 0 == dirEntryLastAndUnused

def unused (e : FATDirEnt) : Bool :=
  e.lastAndUnused || e.unusedNotLast

def isLastLongDirEnt (e : FATDirEnt) : Bool :=
  e.isLong && (e.byte 0 &&& lastLongEntry) != 0

/-- `ord`: the order of a long entry, without `LAST_LONG_ENTRY`. -/
def ord (e : FATDirEnt) : Nat :=
  if e.isLong then (e.byte 0 &&& (lastLongEntry - 1)).toNat else 0

/-- The 13 units of `name1`, `name2` and `name3`. -/
def nameUnits (e : FATDirEnt) : List UInt16 :=
  [1, 3, 5, 7, 9, 14, 16, 18, 20, 22, 24, 28, 30].map e.u16At

/-- `FATLongDirEnt::name`: the units up to the first zero, decoded lossily. -/
def longName (e : FATDirEnt) : List Char :=
  fromUtf16Lossy (e.nameUnits.takeWhile (· != 0))

/-- The index of the first space among `n` bytes from `start`, else `n`. -/
def spaceIndex (e : FATDirEnt) (start n : Nat) : Nat :=
  ((List.range n).find? fun i => e.byte (start + i) == 0x20).getD n

/-- `core::str::from_utf8(..).unwrap_or("")` of the bytes `[start, start + n)`. -/
def asU8Str (e : FATDirEnt) (start n : Nat) : List Char :=
  (decodeUtf8 ((e.bytes.drop start).take n)).getD []

/-- `FATShortDirEnt::name`: the base up to its first space, and a dot and the
    extension when the extension has one. -/
def shortName (e : FATDirEnt) : List Char :=
  let basicNameLen := e.spaceIndex 0 8
  let extNameLen := e.spaceIndex 8 3
  if extNameLen ≠ 0 then e.asU8Str 0 basicNameLen ++ ['.'] ++ e.asU8Str 8 extNameLen
  else e.asU8Str 0 basicNameLen

/-- `FATDirEnt::get_name`. -/
def getName (e : FATDirEnt) : List Char :=
  if e.isLong then e.longName else e.shortName

/-- `get_short_name_array`. -/
def shortNameArray (e : FATDirEnt) : List UInt8 :=
  e.bytes.take 11

/-- The entry read back from `bytes` written over `empty`, as a read into its
    `as_bytes_mut` leaves it. -/
def ofRead (bytes : List UInt8) : FATDirEnt :=
  ⟨(bytes ++ empty.bytes.drop bytes.length).take stepSize, by
    simp only [List.length_take, List.length_append, List.length_drop, empty.length_eq]
    omega⟩

/-- `get_short_ent`. -/
def getShortEnt (e : FATDirEnt) : Option FATDirEnt :=
  if !e.isLong then some e else none

theorem ofRead_bytes {bytes : List UInt8} (h : bytes.length = stepSize) :
    (ofRead bytes).bytes = bytes := by
  have hdrop : empty.bytes.drop bytes.length = [] :=
    List.drop_eq_nil_of_le (by rw [h, empty.length_eq])
  show (bytes ++ empty.bytes.drop bytes.length).take stepSize = bytes
  rw [hdrop, List.append_nil]
  exact List.take_of_length_le h.le

/-! ## The fields of a short entry

`set_fst_clus`, the size and `from_name` write little-endian words at fixed
offsets; what they write reads back, and the other fields stay as they were. -/

theorem byte_setByte_self {e : FATDirEnt} {i : Nat} (b : UInt8) (h : i < stepSize) :
    (e.setByte i b).byte i = b := by
  simp [byte, setByte, e.length_eq, h]

theorem byte_setByte_of_ne {e : FATDirEnt} {i j : Nat} (b : UInt8) (h : i ≠ j) :
    (e.setByte i b).byte j = e.byte j := by
  simp [byte, setByte, List.getElem?_set_ne h]

theorem byte_setU16_of_ne {e : FATDirEnt} {i j : Nat} (u : UInt16) (h₀ : i ≠ j) (h₁ : i + 1 ≠ j) :
    (e.setU16 i u).byte j = e.byte j := by
  rw [setU16, byte_setByte_of_ne _ h₁, byte_setByte_of_ne _ h₀]

theorem join_le16 (u : UInt16) : (u.toUInt8.toUInt16 ||| ((u >>> 8).toUInt8.toUInt16 <<< 8)) = u := by
  apply UInt16.toNat_inj.mp
  simp only [UInt16.toNat_or, UInt16.toNat_shiftLeft, UInt8.toNat_toUInt16, UInt16.toNat_toUInt8,
    UInt16.toNat_shiftRight]
  have h8 : (8 : UInt16).toNat % 16 = 8 := rfl
  have hu := u.toNat_lt
  rw [h8, Nat.shiftLeft_eq, Nat.shiftRight_eq_div_pow]
  have hhigh : u.toNat / 2 ^ 8 % 2 ^ 8 * 2 ^ 8 % 2 ^ 16 = u.toNat / 2 ^ 8 % 2 ^ 8 * 2 ^ 8 :=
    Nat.mod_eq_of_lt (by omega)
  rw [hhigh, Word.or_mul_two_pow_eq_add _ (Nat.mod_lt _ (by norm_num))]
  omega

theorem join_clusters (c : UInt32) :
    (c &&& 0xFFFF).toUInt16.toNat ||| ((c >>> 16).toUInt16.toNat <<< 16) = c.toNat := by
  have hc := c.toNat_lt
  have hmask : (0xFFFF : UInt32).toNat = 2 ^ 16 - 1 := rfl
  have h16 : (16 : UInt32).toNat % 32 = 16 := rfl
  simp only [UInt32.toNat_toUInt16, UInt32.toNat_and, UInt32.toNat_shiftRight, hmask, h16,
    Nat.and_two_pow_sub_one_eq_mod, Nat.shiftLeft_eq, Nat.shiftRight_eq_div_pow]
  rw [Word.or_mul_two_pow_eq_add _ (by omega)]
  omega

theorem u16At_of_bytes {e : FATDirEnt} {i : Nat} {u : UInt16} (h₀ : e.byte i = u.toUInt8)
    (h₁ : e.byte (i + 1) = (u >>> 8).toUInt8) : e.u16At i = u := by
  rw [u16At, h₀, h₁, join_le16]

theorem u16At_setU16_self {e : FATDirEnt} {i : Nat} (u : UInt16) (h : i + 1 < stepSize) :
    (e.setU16 i u).u16At i = u := by
  apply u16At_of_bytes
  · rw [setU16, byte_setByte_of_ne _ (by omega), byte_setByte_self _ (by omega)]
  · rw [setU16, byte_setByte_self _ h]

theorem u16At_setU16_of_disjoint {e : FATDirEnt} {i j : Nat} (u : UInt16) (h : j + 1 < i ∨ i + 1 < j) :
    (e.setU16 i u).u16At j = e.u16At j := by
  rw [u16At, u16At, byte_setU16_of_ne _ (by omega) (by omega), byte_setU16_of_ne _ (by omega) (by omega)]

theorem attr_setU16 {e : FATDirEnt} {i : Nat} (u : UInt16) (h : 11 < i) : (e.setU16 i u).attr = e.attr :=
  byte_setU16_of_ne _ (by omega) (by omega)

theorem shortNameArray_setU16 {e : FATDirEnt} {i : Nat} (u : UInt16) (h : 11 ≤ i) :
    (e.setU16 i u).shortNameArray = e.shortNameArray := by
  simp only [shortNameArray, setU16, setByte, List.take_set_of_le (by omega : 11 ≤ i + 1),
    List.take_set_of_le h]

theorem firstClus_setFstClus (e : FATDirEnt) (c : UInt32) : (e.setFstClus c).firstClus = c.toNat := by
  rw [firstClus, setFstClus, u16At_setU16_self _ (by decide), u16At_setU16_of_disjoint _ (by omega),
    u16At_setU16_self _ (by decide), join_clusters]

theorem fileSize_setFileSize (e : FATDirEnt) (s : UInt32) : (e.setFileSize s).fileSize = s.toNat := by
  rw [fileSize, u32At, setFileSize, u16At_setU16_self _ (by decide), u16At_setU16_of_disjoint _ (by omega),
    u16At_setU16_self _ (by decide)]
  have hs := s.toNat_lt
  have h16 : (16 : UInt32).toNat % 32 = 16 := rfl
  simp only [UInt32.toNat_toUInt16, UInt32.toNat_shiftRight, h16, Nat.shiftRight_eq_div_pow]
  omega

theorem fileSize_setFstClus (e : FATDirEnt) (c : UInt32) : (e.setFstClus c).fileSize = e.fileSize := by
  simp only [fileSize, u32At, setFstClus, u16At_setU16_of_disjoint _ (by omega : 28 + 1 < 20 ∨ 20 + 1 < 28),
    u16At_setU16_of_disjoint _ (by omega : 28 + 1 < 26 ∨ 26 + 1 < 28),
    u16At_setU16_of_disjoint _ (by omega : 28 + 2 + 1 < 20 ∨ 20 + 1 < 28 + 2),
    u16At_setU16_of_disjoint _ (by omega : 28 + 2 + 1 < 26 ∨ 26 + 1 < 28 + 2)]

theorem firstClus_setFileSize (e : FATDirEnt) (s : UInt32) : (e.setFileSize s).firstClus = e.firstClus := by
  simp only [firstClus, setFileSize, u16At_setU16_of_disjoint _ (by omega : 26 + 1 < 28 ∨ 28 + 1 < 26),
    u16At_setU16_of_disjoint _ (by omega : 26 + 1 < 30 ∨ 30 + 1 < 26),
    u16At_setU16_of_disjoint _ (by omega : 20 + 1 < 28 ∨ 28 + 1 < 20),
    u16At_setU16_of_disjoint _ (by omega : 20 + 1 < 30 ∨ 30 + 1 < 20)]

theorem fromName_firstClus (name : ShortName) (c : UInt32) (t : DiskInodeType) :
    (fromName name c t).firstClus = c.toNat := by
  have hn := name.2
  have hlo : (fromName name c t).u16At 26 = (c &&& 0xFFFF).toUInt16 := by
    apply u16At_of_bytes <;> simp [fromName, byte, le16, List.getD_eq_getElem?_getD, hn]
  have hhi : (fromName name c t).u16At 20 = (c >>> 16).toUInt16 := by
    apply u16At_of_bytes <;> simp [fromName, byte, le16, List.getD_eq_getElem?_getD, hn]
  rw [firstClus, hlo, hhi, join_clusters]

theorem fromName_fileSize (name : ShortName) (c : UInt32) (t : DiskInodeType) :
    (fromName name c t).fileSize = 0 := by
  have hn := name.2
  simp [fromName, fileSize, u32At, u16At, byte, le16, List.getD_eq_getElem?_getD, hn]

theorem fromName_shortNameArray (name : ShortName) (c : UInt32) (t : DiskInodeType) :
    (fromName name c t).shortNameArray = name.1 := by
  have hn := name.2
  simp [fromName, shortNameArray, hn]

theorem fromName_attr (name : ShortName) (c : UInt32) (t : DiskInodeType) :
    (fromName name c t).attr = if t = .directory then attrDirectory else attrArchive := by
  have hn := name.2
  simp [fromName, attr, byte, List.getD_eq_getElem?_getD, hn]

/-- The fields of a short entry round trip: what `set_fst_clus`, the size field
    and `from_name` write reads back through `get_first_clus`, `file_size`,
    `attr` and `get_short_name_array`, and each setter leaves the other fields
    as they were. -/
theorem short_entry_fields_round_trip (e : FATDirEnt) (c s : UInt32) (name : ShortName)
    (t : DiskInodeType) :
    ((e.setFstClus c).firstClus = c.toNat ∧ (e.setFstClus c).fileSize = e.fileSize ∧
      (e.setFstClus c).attr = e.attr ∧ (e.setFstClus c).shortNameArray = e.shortNameArray) ∧
    ((e.setFileSize s).fileSize = s.toNat ∧ (e.setFileSize s).firstClus = e.firstClus ∧
      (e.setFileSize s).attr = e.attr ∧ (e.setFileSize s).shortNameArray = e.shortNameArray) ∧
    ((fromName name c t).firstClus = c.toNat ∧ (fromName name c t).fileSize = 0 ∧
      (fromName name c t).shortNameArray = name.1 ∧
      (fromName name c t).attr = if t = .directory then attrDirectory else attrArchive) := by
  refine ⟨⟨firstClus_setFstClus e c, fileSize_setFstClus e c, ?_, ?_⟩,
    ⟨fileSize_setFileSize e s, firstClus_setFileSize e s, ?_, ?_⟩,
    fromName_firstClus name c t, fromName_fileSize name c t, fromName_shortNameArray name c t,
    fromName_attr name c t⟩
  · rw [setFstClus, attr_setU16 _ (by omega), attr_setU16 _ (by omega)]
  · rw [setFstClus, shortNameArray_setU16 _ (by omega), shortNameArray_setU16 _ (by omega)]
  · rw [setFileSize, attr_setU16 _ (by omega), attr_setU16 _ (by omega)]
  · rw [setFileSize, shortNameArray_setU16 _ (by omega), shortNameArray_setU16 _ (by omega)]

/-! ## The fields of a long entry -/

theorem nameUnits_fromNameSlice (isLastEnt : Bool) (order : Nat) (partialName : NameSlice) :
    (fromNameSlice isLastEnt order partialName).nameUnits = partialName.1 := by
  obtain ⟨units, hlen⟩ := partialName
  match units, hlen with
  | [u₀, u₁, u₂, u₃, u₄, u₅, u₆, u₇, u₈, u₉, u₁₀, u₁₁, u₁₂], hlen =>
    have hread : (fromNameSlice isLastEnt order ⟨[u₀, u₁, u₂, u₃, u₄, u₅, u₆, u₇, u₈, u₉, u₁₀, u₁₁, u₁₂],
        hlen⟩).nameUnits = [u₀, u₁, u₂, u₃, u₄, u₅, u₆, u₇, u₈, u₉, u₁₀, u₁₁, u₁₂].map
          fun u : UInt16 => u.toUInt8.toUInt16 ||| ((u >>> 8).toUInt8.toUInt16 <<< 8) := rfl
    rw [hread, show (fun u : UInt16 => u.toUInt8.toUInt16 ||| ((u >>> 8).toUInt8.toUInt16 <<< 8)) = id from
      funext join_le16, List.map_id]

theorem isLong_fromNameSlice (isLastEnt : Bool) (order : Nat) (partialName : NameSlice) :
    (fromNameSlice isLastEnt order partialName).isLong = true := by
  obtain ⟨units, hlen⟩ := partialName
  match units, hlen with
  | [_, _, _, _, _, _, _, _, _, _, _, _, _], _ => rfl

theorem byte_zero_fromNameSlice (isLastEnt : Bool) (order : Nat) (partialName : NameSlice) :
    (fromNameSlice isLastEnt order partialName).byte 0 =
      if isLastEnt then order.toUInt8 ||| lastLongEntry else order.toUInt8 :=
  rfl

theorem lastLongEntry_bit : ∀ o < 64, (o ||| 64) &&& 64 = 64 ∧ o &&& 64 = 0 := by
  decide

theorem ord_fromNameSlice (isLastEnt : Bool) {order : Nat} (h : order < 64) (partialName : NameSlice) :
    (fromNameSlice isLastEnt order partialName).ord = order := by
  have h63 : (lastLongEntry - 1).toNat = 2 ^ 6 - 1 := rfl
  have h64 : lastLongEntry.toNat = 2 ^ 6 := rfl
  rw [ord, if_pos (isLong_fromNameSlice isLastEnt order partialName), byte_zero_fromNameSlice]
  cases isLastEnt
  · simp only [Bool.false_eq_true, if_false, UInt8.toNat_and, h63, Nat.and_two_pow_sub_one_eq_mod]
    simp only [UInt8.toNat_ofNat']
    omega
  · simp only [if_true, UInt8.toNat_and, UInt8.toNat_or, h63, h64, Nat.and_two_pow_sub_one_eq_mod,
      Nat.or_mod_two_pow, UInt8.toNat_ofNat', Nat.mod_self, Nat.or_zero]
    omega

theorem isLastLongDirEnt_fromNameSlice (isLastEnt : Bool) {order : Nat} (h : order < 64)
    (partialName : NameSlice) : (fromNameSlice isLastEnt order partialName).isLastLongDirEnt = isLastEnt := by
  have h64 : lastLongEntry.toNat = 64 := rfl
  have hmod : order.toUInt8.toNat = order := by
    simp only [UInt8.toNat_ofNat']
    omega
  obtain ⟨hset, hclear⟩ := lastLongEntry_bit order h
  rw [isLastLongDirEnt, isLong_fromNameSlice, Bool.true_and, byte_zero_fromNameSlice]
  cases isLastEnt
  · simp only [Bool.false_eq_true, if_false, bne_eq_false_iff_eq]
    apply UInt8.toNat_inj.mp
    simp only [UInt8.toNat_and, hmod, h64, hclear]
    rfl
  · simp only [if_true, bne_iff_ne, ne_eq]
    intro h0
    have hbit := congrArg UInt8.toNat h0
    simp only [UInt8.toNat_and, UInt8.toNat_or, hmod, h64, hset] at hbit
    exact absurd hbit (by decide)

end FATDirEnt

end OsKernel.Fat32

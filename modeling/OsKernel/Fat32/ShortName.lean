import OsKernel.Fat32.Dir

/-! # Short names

The 8.3 name a new entry gets: `gen_short_name_prefix` and
`gen_short_name_numtail` of `FATDirEnt` (`fs/fat32/layout.rs`) and
`gen_short_name_slice` of `Inode` (`fs/fat32/vfs.rs`).  A Rust `String` is its
list of chars; its length and the positions `split_at` and slicing take are
counted in UTF-8 bytes, and a position inside a char panics.  The tail loop
counts an `i32` down by 11; it is kept as its 32 bits, which is also what
`{:04X}` prints of it.
-/

namespace OsKernel.Fat32

open Unicode

/-- `name_res[i] = b`. -/
def ShortName.setByte (n : ShortName) (i : Nat) (b : UInt8) : ShortName :=
  ⟨n.1.set i b, by rw [List.length_set, n.2]⟩

/-- `name_res[pos..pos + bytes.len()].copy_from_slice(bytes)`. -/
def ShortName.setBytes : ShortName → Nat → List UInt8 → ShortName
  | n, _, [] => n
  | n, pos, b :: bs => ShortName.setBytes (n.setByte pos b) (pos + 1) bs

/-- `str::rsplit_once(c)`: the parts before and after the last `c`. -/
def rsplitOnce (s : List Char) (c : Char) : Option (List Char × List Char) :=
  if c ∈ s then
    some ((s.reverse.dropWhile (· != c)).tail.reverse, (s.reverse.takeWhile (· != c)).reverse)
  else none

/-- `str::split_at(mid)`: the first `mid` bytes and the rest; `none`, a panic,
    when `mid` is past the end or inside a char. -/
def splitAtByte : List Char → Nat → Option (List Char × List Char)
  | s, 0 => some ([], s)
  | [], _ + 1 => none
  | c :: s, mid + 1 =>
      if c.utf8Size ≤ mid + 1 then
        (splitAtByte s (mid + 1 - c.utf8Size)).map fun (a, b) => (c :: a, b)
      else none

/-- `format!("{: <width}", s)`: `s` padded with spaces to `width` chars. -/
def padRight (s : List Char) (width : Nat) : List Char :=
  s ++ List.replicate (width - s.length) ' '

/-- `gen_short_name_prefix`: spaces removed and ASCII in upper case; the name
    split at its last dot, base and extension swapped when only the extension
    is there; the leading dots of the base dropped; then base and extension cut
    to 8 and 3 bytes and padded, unless both are empty. -/
def genShortNamePrefix (s : List Char) : Option (List Char) := do
  let s := (s.filter (· != ' ')).map Char.toUpper
  let (base, ext) := (rsplitOnce s '.').getD (s, [])
  let (base, ext) := if base.isEmpty && !ext.isEmpty then (ext, base) else (base, ext)
  -- the `while` loop keeps a base of dots only, which `trim_start_matches` then empties
  let base := if base.all (· == '.') then base else base.dropWhile (· == '.')
  let base := base.dropWhile (· == '.')
  let base ← if !ext.isEmpty || !base.isEmpty then
      (fun p => padRight p.1 8) <$> splitAtByte base (min 8 (utf8Len base))
    else pure []
  -- this test reads the padded base
  let ext ← if !ext.isEmpty || !base.isEmpty then
      (fun p => padRight p.1 3) <$> splitAtByte ext (min 3 (utf8Len ext))
    else pure []
  pure (base ++ ext)

/-- Whether an entry of `v` has the short name `nameRes`. -/
def shortNameTaken (v : List FATDirEnt) (nameRes : ShortName) : Bool :=
  v.any fun e => e.shortNameArray == nameRes.1

/-- `format!("{:04X}", i).as_bytes()[0..4]` for the `i32` whose bits are `i`. -/
def hex4 (i : Nat) : List UInt8 :=
  let digits := (Nat.toDigits 16 i).map Char.toUpper
  ((List.replicate (4 - digits.length) '0' ++ digits).take 4).map fun c => c.toNat.toUInt8

/-- `jiffies`, the seed of the hex tail. -/
def jiffies : Nat := 19382022

/-- The hex loop of `gen_short_name_numtail`: four hex digits of `i` at
    `baselen`, `i` counted down by 11 in `i32` while the name is taken.  `i`
    runs through all `2 ^ 32` values before one repeats, so when the fuel runs
    out the loop of the source never ends. -/
def numtailHexLoop (v : List FATDirEnt) (baselen : Nat) :
    Nat → Nat → ShortName → Option ShortName
  | 0, _, _ => none
  | fuel + 1, i, nameRes =>
      let nameRes := nameRes.setBytes baselen (hex4 i)
      if shortNameTaken v nameRes then numtailHexLoop v baselen fuel (Word.sub 32 i 11) nameRes
      else some nameRes

/-- `gen_short_name_numtail`: the name as it is when no entry has it; else `~1`
    to `~9` after at most six chars of the base; else four hex digits and `~8`
    after at most two. -/
def genShortNameNumtail (v : List FATDirEnt) (nameRes : ShortName) : Option ShortName :=
  if !shortNameTaken v nameRes then some nameRes
  else
    let baselen := ((List.range 11).find? fun i => nameRes.1.getD i 0 == 0x20).getD 8
    let (baselen, nameRes) :=
      if 6 < baselen then (6, nameRes.setByte 7 0x20) else (baselen, nameRes)
    let nameRes := nameRes.setByte baselen 0x7E
    match (List.range' 1 9).find? fun d =>
        !shortNameTaken v (nameRes.setByte (baselen + 1) (0x30 + d.toUInt8)) with
    | some d => some (nameRes.setByte (baselen + 1) (0x30 + d.toUInt8))
    | none =>
        -- the digit loop leaves `9` behind
        let nameRes := nameRes.setByte (baselen + 1) 0x39
        let sz := (jiffies >>> 10) &&& 0x7
        let (baselen, nameRes) :=
          if 2 < baselen then (2, nameRes.setByte 7 0x20) else (baselen, nameRes)
        let nameRes := (nameRes.setByte (baselen + 4) 0x7E).setByte (baselen + 5) (0x31 + sz.toUInt8)
        numtailHexLoop v baselen (2 ^ 32) (jiffies &&& 0xFFFF) nameRes

/-- `gen_short_name_slice` in the directory `st`: the prefix, which must be
    non-empty and not start with a space, its first 11 bytes, and the tail that
    sets it apart from the short entries of the directory. -/
def genShortNameSlice (efs : Efs) (st : FileState) (name : List Char) :
    Option (FileState × ShortName) := do
  let shortName ← genShortNamePrefix name
  let spaceAt := if ' ' ∈ shortName then utf8Len (shortName.takeWhile (· != ' ')) else 8
  if shortName.isEmpty || spaceAt == 0 then none
  else
    let bytes := encodeUtf8 shortName
    if h : 11 ≤ bytes.length then do
      let (st, v) ← (DirIter.mk none .short forward).collect efs st
      let slice ← genShortNameNumtail v ⟨bytes.take 11, by rw [List.length_take]; exact Nat.min_eq_left h⟩
      pure (st, slice)
    else none

/-- `gen_dir_ent` of `Inode` in the directory `st`: the short name that
    `gen_short_name_slice` gives there, and the entries of `genDirEnt`. -/
def Inode.genDirEntOf (efs : Efs) (st : FileState) (name : List Char) (fstClus : UInt32)
    (fileType : DiskInodeType) : Option (FileState × FATDirEnt × List FATDirEnt) := do
  let (st, shortNameSlice) ← genShortNameSlice efs st name
  pure (st, genDirEnt shortNameSlice name fstClus fileType)

/-! ## Names of dots and spaces -/

theorem rsplitOnce_of_dots {s : List Char} (hs : ∀ c ∈ s, c = '.') :
    ∃ base, (rsplitOnce s '.').getD (s, []) = (base, []) ∧ ∀ c ∈ base, c = '.' := by
  by_cases hmem : '.' ∈ s
  · refine ⟨(s.reverse.dropWhile (· != '.')).tail.reverse, ?_, fun c hc => hs c ?_⟩
    · obtain ⟨c, rest, hrev⟩ : ∃ c rest, s.reverse = c :: rest :=
        List.exists_cons_of_ne_nil (List.reverse_ne_nil_iff.mpr (List.ne_nil_of_mem hmem))
      have hc : c = '.' := hs c (List.mem_reverse.mp (hrev ▸ List.mem_cons_self))
      rw [rsplitOnce, if_pos hmem, Option.getD_some, hrev, hc]
      simp
    · have hsub := (List.dropWhile_sublist (· != '.') (l := s.reverse)).subset
        (List.mem_of_mem_tail (List.mem_reverse.mp hc))
      exact List.mem_reverse.mp hsub
  · exact ⟨s, by rw [rsplitOnce, if_neg hmem]; rfl, hs⟩

theorem genShortNamePrefix_of_spaces_and_dots {name : List Char}
    (hname : ∀ c ∈ name, c = ' ' ∨ c = '.') : genShortNamePrefix name = some [] := by
  have hdots : ∀ c ∈ (name.filter (· != ' ')).map Char.toUpper, c = '.' := by
    intro c hc
    obtain ⟨d, hd, rfl⟩ := List.mem_map.mp hc
    obtain ⟨hmem, hne⟩ := List.mem_filter.mp hd
    rcases hname d hmem with rfl | rfl
    · simp at hne
    · rfl
  obtain ⟨base, hsplit, hbase⟩ := rsplitOnce_of_dots hdots
  have hall : base.all (· == '.') = true := List.all_eq_true.mpr fun c hc => by simp [hbase c hc]
  have hdrop : base.dropWhile (· == '.') = [] :=
    List.dropWhile_eq_nil_iff.mpr fun c hc => by simp [hbase c hc]
  unfold genShortNamePrefix
  simp only [hsplit, List.isEmpty_nil, Bool.not_true, Bool.and_false, Bool.false_eq_true,
    if_false, hall, if_true, hdrop, Bool.or_self]
  rfl

/-- `gen_short_name_slice` panics on a name made of spaces and dots, such as
    `" "` or `"..."`, whatever the directory holds: its prefix is empty. -/
theorem genShortNameSlice_panics_of_spaces_and_dots (efs : Efs) (st : FileState)
    {name : List Char} (hname : ∀ c ∈ name, c = ' ' ∨ c = '.') :
    genShortNameSlice efs st name = none := by
  unfold genShortNameSlice
  rw [genShortNamePrefix_of_spaces_and_dots hname]
  rfl

theorem genShortNameSlice_panics_on_three_dots :
    (∀ c ∈ ['.', '.', '.'], c = ' ' ∨ c = '.') ∧
      genShortNameSlice sdEfs emptyRoot ['.', '.', '.'] = none :=
  ⟨by simp, genShortNameSlice_panics_of_spaces_and_dots sdEfs emptyRoot (by simp)⟩

end OsKernel.Fat32

import OsKernel.Mm.PageTable
import OsKernel.Lib.Fallible

/-! # The ELF parser

The part of the vendored `xmas-elf` that `from_elf` and `load_interp` call:
`ElfFile::new` (`parse_header`), `program_header` (`parse_program_header`), the
getters of both headers, `ProgramHeader::get_type` and the segment flags.  The
input is the file's bytes, mapped at a page boundary.  A parse returns
`Option (Except String _)`: an `Err` carries the library's own message, and
`none` is a panic, of a slice past the end of the input or of an assertion of
`zero::read` (the slice holds the whole header, at an address aligned for it).
-/

namespace OsKernel.Mm.Elf

/-- `MAGIC`. -/
def magic : List UInt8 := [0x7f, 0x45, 0x4c, 0x46]

/-- The little-endian number in `input[off .. off + n]`, as `zero::read` sees a
    field of `n` bytes. -/
def readLe (input : List UInt8) (off n : Nat) : Nat :=
  ((input.drop off).take n).foldr (fun b acc => b.toNat + 256 * acc) 0

/-- The `n` little-endian bytes of `v`. -/
def leBytes (n v : Nat) : List UInt8 :=
  (List.range n).map fun i => UInt8.ofNat (v >>> (8 * i))

/-- `Class` of `HeaderPt1`, the two that `parse_header` accepts. -/
inductive ElfClass where
  /-- `Class::ThirtyTwo`: `HeaderPt2_<P32>` and `ProgramHeader32`. -/
  | thirtyTwo
  /-- `Class::SixtyFour`: `HeaderPt2_<P64>` and `ProgramHeader64`. -/
  | sixtyFour
  deriving DecidableEq, Repr

/-- The fields of `Header` that the kernel reads, each through its getter. -/
structure Header where
  magic : List UInt8
  elfClass : ElfClass
  entryPoint : Nat
  phOffset : Nat
  phEntrySize : Nat
  phCount : Nat
  deriving DecidableEq, Repr

/-- `HeaderPt1` and `HeaderPt2_<P32>`, which starts at byte 16. -/
def header32 (input : List UInt8) : Header where
  magic := input.take 4
  elfClass := .thirtyTwo
  entryPoint := readLe input 24 4
  phOffset := readLe input 28 4
  phEntrySize := readLe input 42 2
  phCount := readLe input 44 2

/-- `HeaderPt1` and `HeaderPt2_<P64>`. -/
def header64 (input : List UInt8) : Header where
  magic := input.take 4
  elfClass := .sixtyFour
  entryPoint := readLe input 24 8
  phOffset := readLe input 32 8
  phEntrySize := readLe input 54 2
  phCount := readLe input 56 2

/-- `parse_header`.  The second part is the slice `input[16 .. 16 + size]`, of
    36 bytes for a 32-bit file and 48 for a 64-bit one. -/
def parseHeader (input : List UInt8) : Option (Except String Header) :=
  if input.length < 16 then some (.error "File is shorter than the first ELF header part")
  else if input.take 4 ≠ magic then some (.error "Did not find ELF magic number")
  else
    let elfClass := (input.getD 4 0).toNat
    if elfClass = 1 then
      if 16 + 36 ≤ input.length then some (.ok (header32 input)) else none
    else if elfClass = 2 then
      if 16 + 48 ≤ input.length then some (.ok (header64 input)) else none
    else some (.error "Invalid ELF class")

structure ElfFile where
  input : List UInt8
  header : Header
  deriving DecidableEq, Repr

/-- `ElfFile::new`. -/
def ElfFile.new (input : List UInt8) : Option (Except String ElfFile) :=
  (parseHeader input).map fun r => r.map fun header => ⟨input, header⟩

/-- The fields of `ProgramHeader` that the kernel reads; `typ` is the raw
    `Type_`, decoded by `getType`. -/
structure ProgramHeader where
  typ : Nat
  flags : Nat
  offset : Nat
  virtualAddr : Nat
  fileSize : Nat
  memSize : Nat
  deriving DecidableEq, Repr

/-- `ProgramHeader32` at `input[start ..]`. -/
def programHeader32 (input : List UInt8) (start : Nat) : ProgramHeader where
  typ := readLe input start 4
  flags := readLe input (start + 24) 4
  offset := readLe input (start + 4) 4
  virtualAddr := readLe input (start + 8) 4
  fileSize := readLe input (start + 16) 4
  memSize := readLe input (start + 20) 4

/-- `ProgramHeader64` at `input[start ..]`. -/
def programHeader64 (input : List UInt8) (start : Nat) : ProgramHeader where
  typ := readLe input start 4
  flags := readLe input (start + 4) 4
  offset := readLe input (start + 8) 8
  virtualAddr := readLe input (start + 16) 8
  fileSize := readLe input (start + 32) 8
  memSize := readLe input (start + 40) 8

/-- `parse_program_header`.  `start` and `end` are `usize` sums; `zero::read`
    asserts that the entry holds a whole header (32 or 56 bytes) at an address
    aligned for it (4 or 8), and the input starts at a page. -/
def parseProgramHeader (input : List UInt8) (header : Header) (index : Nat) :
    Option (Except String ProgramHeader) :=
  if ¬ (index < header.phCount ∧ 0 < header.phOffset ∧ 0 < header.phEntrySize) then
    some (.error "There are no program headers in this file")
  else
    let start := wrappingAdd header.phOffset (index * header.phEntrySize)
    let stop := wrappingAdd start header.phEntrySize
    if ¬ (start ≤ stop ∧ stop ≤ input.length) then none
    else
      match header.elfClass with
      | .thirtyTwo =>
          if 32 ≤ header.phEntrySize ∧ start % 4 = 0 then some (.ok (programHeader32 input start))
          else none
      | .sixtyFour =>
          if 56 ≤ header.phEntrySize ∧ start % 8 = 0 then some (.ok (programHeader64 input start))
          else none

/-- `ElfFile::program_header`. -/
def ElfFile.programHeader (elf : ElfFile) (index : Nat) : Option (Except String ProgramHeader) :=
  parseProgramHeader elf.input elf.header index

/-- `program::Type`. -/
inductive ProgramType where
  | null
  | load
  | dynamic
  | interp
  | note
  | shLib
  | phdr
  | tls
  | gnuRelro
  | osSpecific (t : Nat)
  | processorSpecific (t : Nat)
  deriving DecidableEq, Repr

def typeLoos : Nat := 0x60000000
def typeHios : Nat := 0x6fffffff
def typeLoproc : Nat := 0x70000000
def typeHiproc : Nat := 0x7fffffff
def typeGnuRelro : Nat := typeLoos + 0x474e552

/-- `Type_::as_type`, which `get_type` calls. -/
def ProgramHeader.getType (ph : ProgramHeader) : Except String ProgramType :=
  match ph.typ with
  | 0 => .ok .null
  | 1 => .ok .load
  | 2 => .ok .dynamic
  | 3 => .ok .interp
  | 4 => .ok .note
  | 5 => .ok .shLib
  | 6 => .ok .phdr
  | 7 => .ok .tls
  | t =>
      if t = typeGnuRelro then .ok .gnuRelro
      else if typeLoos ≤ t ∧ t ≤ typeHios then .ok (.osSpecific t)
      else if typeLoproc ≤ t ∧ t ≤ typeHiproc then .ok (.processorSpecific t)
      else .error "Invalid type"

def flagX : Nat := 0x1
def flagW : Nat := 0x2
def flagR : Nat := 0x4

namespace Flags

def isExecute (flags : Nat) : Bool := flags &&& flagX == flagX
def isWrite (flags : Nat) : Bool := flags &&& flagW == flagW
def isRead (flags : Nat) : Bool := flags &&& flagR == flagR

end Flags

/-! ## What an accepted header says -/

theorem parseHeader_eq_ok {input : List UInt8} {h : Header}
    (hparse : parseHeader input = some (.ok h)) :
    input.take 4 = magic ∧ h.magic = magic ∧ 52 ≤ input.length := by
  unfold parseHeader at hparse
  by_cases hshort : input.length < 16
  · simp [hshort] at hparse
  by_cases hmagic : input.take 4 = magic
  · simp only [hshort, hmagic, if_false, ne_eq, not_true_eq_false] at hparse
    split_ifs at hparse with h32 hlen32 h64 hlen64
    · cases hparse
      exact ⟨hmagic, hmagic, by omega⟩
    · cases hparse
      exact ⟨hmagic, hmagic, by omega⟩
    · cases hparse
  · simp [hshort, hmagic] at hparse

theorem ElfFile.new_eq_ok {input : List UInt8} {elf : ElfFile}
    (hnew : ElfFile.new input = some (.ok elf)) :
    elf.input = input ∧ parseHeader input = some (.ok elf.header) := by
  unfold ElfFile.new at hnew
  obtain ⟨r, hr, hmap⟩ := Option.map_eq_some_iff.mp hnew
  cases r with
  | error e => cases hmap
  | ok header =>
      cases hmap
      exact ⟨rfl, hr⟩

theorem ElfFile.magic_of_new {input : List UInt8} {elf : ElfFile}
    (hnew : ElfFile.new input = some (.ok elf)) : elf.header.magic = magic :=
  (parseHeader_eq_ok (ElfFile.new_eq_ok hnew).2).2.1

theorem ElfFile.new_ne_ok_of_not_magic {input : List UInt8} (hmagic : input.take 4 ≠ magic)
    (elf : ElfFile) : ElfFile.new input ≠ some (.ok elf) := by
  intro hnew
  exact hmagic (parseHeader_eq_ok (ElfFile.new_eq_ok hnew).2).1

theorem parseProgramHeader_of_le {input : List UInt8} {header : Header} {index : Nat}
    (hle : header.phCount ≤ index) :
    parseProgramHeader input header index = some (.error "There are no program headers in this file") := by
  have hout : ¬ (index < header.phCount ∧ 0 < header.phOffset ∧ 0 < header.phEntrySize) := by
    omega
  rw [parseProgramHeader, if_pos hout]

end OsKernel.Mm.Elf

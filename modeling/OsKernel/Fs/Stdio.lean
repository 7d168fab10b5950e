import OsKernel.Mm.UserBuffer
import OsKernel.Lib.Unicode

/-! # Console output

`Stdout::write_user` of `fs/dev/stdio.rs` prints each slice of its
`UserBuffer` as `from_utf8(slice).unwrap()` and returns `len()`.  The slices
are those of `translated_byte_buffer`, cut at page boundaries, so whether a
write panics depends on where the characters of the text fall against the
pages, not only on the text.
-/

namespace OsKernel.Fs

open Mm Unicode StateLoop

/-- `Stdout::write_user`: `print!` of `from_utf8(buffer)` sends the bytes of
    `buffer`, and an ill-formed slice panics at the `unwrap`. -/
def Stdout.writeUser (ub : UserBuffer) : Option (List UInt8 × Nat) :=
  (ub.buffers.mapM decodeUtf8).map fun _ => (ub.buffers.flatten, ub.len)

/-- `write_user(None, UserBuffer::new(translated_byte_buffer(token, ptr, len)))`
    on a `Stdout`, the call that `sys_write` and `sys_writev` make: the bytes
    printed and the size returned. -/
def Stdout.writeRange (pt : PageTable) (mem : Nat → Nat → UInt8) (ptr len : Nat) :
    Option (List UInt8 × Nat) := do
  let pieces ← translatedByteBuffer pt ptr len
  Stdout.writeUser (UserBuffer.ofSlices mem pieces)

/-- `sys_write(fd, buf, len)` on a descriptor backed by `Stdout`. -/
def sysWriteStdout (pt : PageTable) (mem : Nat → Nat → UInt8) (buf len : Nat) :
    Option (List UInt8 × Int) :=
  (Stdout.writeRange pt mem buf len).map fun (out, writeSize) => (out, toIsize writeSize)

/-- The loop of `sys_writev` over the `IOVec`s it has read, as
    `(iov_base, iov_len)`: the bytes printed so far and `write_size`. -/
def sysWritevLoop (pt : PageTable) (mem : Nat → Nat → UInt8) :
    List (Nat × Nat) → List UInt8 → Nat → Option (List UInt8 × Nat)
  | [], out, writeSize => some (out, writeSize)
  | (iovBase, iovLen) :: iovs, out, writeSize => do
      let (printed, size) ← Stdout.writeRange pt mem iovBase iovLen
      sysWritevLoop pt mem iovs (out ++ printed) (wrappingAdd writeSize size)

/-- `sys_writev(fd, iov, iovcnt)` on a descriptor backed by `Stdout`. -/
def sysWritevStdout (pt : PageTable) (mem : Nat → Nat → UInt8) (iovs : List (Nat × Nat)) :
    Option (List UInt8 × Int) :=
  (sysWritevLoop pt mem iovs [] 0).map fun (out, writeSize) => (out, toIsize writeSize)

/-! ### What a write prints -/

theorem Stdout.writeUser_eq_none_iff (ub : UserBuffer) :
    Stdout.writeUser ub = none ↔ ∃ buffer ∈ ub.buffers, decodeUtf8 buffer = none := by
  rw [Stdout.writeUser, Option.map_eq_none_iff, mapM_eq_none_iff]

theorem Stdout.writeUser_of_decodes {ub : UserBuffer}
    (h : ¬ ∃ buffer ∈ ub.buffers, decodeUtf8 buffer = none) :
    Stdout.writeUser ub = some (ub.buffers.flatten, ub.len) := by
  rw [← Stdout.writeUser_eq_none_iff, ← ne_eq, Option.ne_none_iff_exists'] at h
  obtain ⟨r, hr⟩ := h
  rw [hr]
  simp only [Stdout.writeUser, Option.map_eq_some_iff] at hr
  obtain ⟨_, _, rfl⟩ := hr
  rfl

theorem UserBuffer.len_ofSlices (mem : Nat → Nat → UInt8) (pieces : List UserSlice) :
    (UserBuffer.ofSlices mem pieces).len = (readSlices mem pieces).length := by
  simp [UserBuffer.len, UserBuffer.ofSlices, readSlices, List.length_flatten]

/-- A write to the console of a range below `2 ^ 38` that `translated_byte_buffer`
    cuts into `pieces` panics exactly when one piece on its own is not UTF-8;
    otherwise it prints the bytes of the range and returns `len`. -/
theorem sysWriteStdout_eq {pt : PageTable} {mem : Nat → Nat → UInt8} {ptr len : Nat}
    {pieces : List UserSlice} (hrange : ptr + len < 2 ^ 38)
    (hpieces : translatedByteBuffer pt ptr len = some pieces) :
    sysWriteStdout pt mem ptr len =
      if ∃ piece ∈ pieces, decodeUtf8 (piece.read mem) = none then none
      else (userBytes pt mem ptr len).map fun bytes => (bytes, (len : Int)) := by
  have hread := @translatedByteBuffer_reads pt mem ptr len hrange
  rw [hpieces, Option.map_some] at hread
  have hbuffers : (∃ buffer ∈ (UserBuffer.ofSlices mem pieces).buffers, decodeUtf8 buffer = none) ↔
      ∃ piece ∈ pieces, decodeUtf8 (piece.read mem) = none := by
    simp [UserBuffer.ofSlices]
  unfold sysWriteStdout Stdout.writeRange
  rw [hpieces, Option.bind_eq_bind, Option.bind_some]
  split
  · rename_i hbad
    rw [(Stdout.writeUser_eq_none_iff _).mpr (hbuffers.mpr hbad)]
    rfl
  · rename_i hgood
    rw [Stdout.writeUser_of_decodes (fun h => hgood (hbuffers.mp h)), ← hread]
    have hlen : (UserBuffer.ofSlices mem pieces).len = len := by
      rw [UserBuffer.len_ofSlices]
      exact length_of_userBytes hread.symm
    simp only [Option.map_some, hlen, toIsize, if_pos (by omega : len < 2 ^ 63)]
    rfl

/-- A page table mapping the first two pages, to frames `0x80` and `0x81`. -/
def twoPageTable : PageTable :=
  ⟨0, [0], fun _ => some 0, fun _ => some 0,
    fun i => if i = 0 then pteNew 0x80 (pteR ||| pteW ||| pteU ||| pteV)
      else if i = 1 then pteNew 0x81 (pteR ||| pteW ||| pteU ||| pteV) else 0⟩

/-- "é" (`C3 A9`) in the last byte of the first page and the first of the second. -/
def splitCharMem : Nat → Nat → UInt8 :=
  fun ppn off => if ppn = 0x80 ∧ off = 0xFFF then 0xC3 else if ppn = 0x81 ∧ off = 0 then 0xA9 else 0

theorem sysWriteStdout_panics_on_split_char :
    0xFFF + 2 < 2 ^ 38 ∧
      translatedByteBuffer twoPageTable 0xFFF 2 = some [⟨0x80, 0xFFF, 0x1000⟩, ⟨0x81, 0, 1⟩] ∧
      userBytes twoPageTable splitCharMem 0xFFF 2 = some [0xC3, 0xA9] ∧
      decodeUtf8 [0xC3, 0xA9] = some ['é'] ∧
      sysWriteStdout twoPageTable splitCharMem 0xFFF 2 = none := by
  have hpieces : translatedByteBuffer twoPageTable 0xFFF 2 = some [⟨0x80, 0xFFF, 0x1000⟩, ⟨0x81, 0, 1⟩] := by
    decide
  refine ⟨by decide, hpieces, by decide, by decide, ?_⟩
  rw [sysWriteStdout_eq (by decide) hpieces, if_pos (by decide)]

/-! ### `sys_writev` -/

theorem sysWritevLoop_eq_none_iff {pt : PageTable} {mem : Nat → Nat → UInt8} :
    ∀ (iovs : List (Nat × Nat)) (out : List UInt8) (writeSize : Nat),
      sysWritevLoop pt mem iovs out writeSize = none ↔
        ∃ iov ∈ iovs, Stdout.writeRange pt mem iov.1 iov.2 = none := by
  intro iovs
  induction iovs with
  | nil => simp [sysWritevLoop]
  | cons iov iovs ih =>
    intro out writeSize
    obtain ⟨iovBase, iovLen⟩ := iov
    simp only [sysWritevLoop, List.mem_cons, exists_eq_or_imp]
    cases Stdout.writeRange pt mem iovBase iovLen with
    | none => simp
    | some r => simp [ih]

end OsKernel.Fs

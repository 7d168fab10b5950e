import Mathlib
import OsKernel.Fat32.Content
import OsKernel.Fs.FdTable

/-! # In-kernel copies: `sys_sendfile` and `sys_copy_file_range`

Both calls run one loop (`copyLoop`).  Each pass reads up to
`min(left_bytes, BUFFER_SIZE)` bytes from the input into a kernel buffer and
stops on a read of zero bytes.  Otherwise it writes what it read to the output,
adds the write's result to `write_size` and takes the read's length off
`left_bytes`.  The two calls differ in their constants.  `sys_sendfile` uses a
buffer of 4096 bytes, starts from `count` and writes at the output's own offset.
`sys_copy_file_range` uses a buffer of `0x4096` bytes, writes at `*off_out` when
it is given, and starts from `BUFFER_SIZE` when `len` is 0.

The files are `Arc<dyn File>`, so the loop is generic in the file's type
(`FileIo`).  A read fills at most the buffer it is given, and that is why the
loop ends.  `OSInodeBytes` is an `OSInode` seen through the byte string its inode
stands for.  `osInodeRead_refines` and `osInodeWrite_refines` tie its `read` and
`write` to the ones on the inode's state.  The input and the output are
different files.
-/

namespace OsKernel.Fs

open OsKernel.Fat32

/-- What the copy loops use of a `File`: `readable`, `writable`, and `read` and
    `write` with an optional user offset, which return the file, the new user
    offset and the bytes read or the count written. -/
structure FileIo (φ : Type) where
  readable : φ → Bool
  writable : φ → Bool
  read : φ → Option Nat → Nat → φ × Option Nat × List UInt8
  write : φ → Option Nat → List UInt8 → φ × Option Nat × Nat
  length_read_le : ∀ f offset len, (read f offset len).2.2.length ≤ len

/-- The two files, the user's offsets when given, `left_bytes` and `write_size`. -/
structure CopyState (φ : Type) where
  inFile : φ
  offIn : Option Nat
  outFile : φ
  offOut : Option Nat
  leftBytes : Nat
  writeSize : Nat

section Loop

variable {φ : Type} (io : FileIo φ)

def copyLoop (bufferSize : Nat) (s : CopyState φ) : CopyState φ :=
  let r := io.read s.inFile s.offIn (min s.leftBytes bufferSize)
  if _h : r.2.2.length = 0 then { s with inFile := r.1, offIn := r.2.1 }
  else
    let w := io.write s.outFile s.offOut r.2.2
    copyLoop bufferSize
      ⟨r.1, r.2.1, w.1, w.2.1, s.leftBytes - r.2.2.length, s.writeSize + w.2.2⟩
termination_by s.leftBytes
decreasing_by
  have hne : (io.read s.inFile s.offIn (min s.leftBytes bufferSize)).2.2.length ≠ 0 := by assumption
  have hread := io.length_read_le s.inFile s.offIn (min s.leftBytes bufferSize)
  have hmin := Nat.min_le_left s.leftBytes bufferSize
  omega

def sysSendfile (inFile outFile : φ) (offset : Option Nat) (count : Nat) : Int × CopyState φ :=
  let s : CopyState φ := ⟨inFile, offset, outFile, none, count, 0⟩
  if !io.readable inFile || !io.writable outFile then (ebadf, s)
  else
    let s := copyLoop io 4096 s
    (s.writeSize, s)

def sysCopyFileRange (inFile : φ) (offIn : Option Nat) (outFile : φ) (offOut : Option Nat)
    (len : Nat) : Int × CopyState φ :=
  let s : CopyState φ := ⟨inFile, offIn, outFile, offOut, if len ≠ 0 then len else 0x4096, 0⟩
  if !io.readable inFile || !io.writable outFile then (ebadf, s)
  else
    let s := copyLoop io 0x4096 s
    (s.writeSize, s)

end Loop

/-! ## Regular files -/

/-- An `OSInode`: its `readable`, `writable` and `append` flags, the bytes of its
    inode and the descriptor's `offset`. -/
structure OSInodeBytes where
  readable : Bool
  writable : Bool
  append : Bool
  bytes : List UInt8
  offset : Nat

namespace OSInodeBytes

/-- `OSInode::read`: from `*offset` when it is given, which then advances, else
    from the file offset. -/
def read (f : OSInodeBytes) (offset : Option Nat) (len : Nat) : OSInodeBytes × Option Nat × List UInt8 :=
  match offset with
  | some off =>
      let buf := ByteFile.read f.bytes off len
      (f, some (off + buf.length), buf)
  | none =>
      let buf := ByteFile.read f.bytes f.offset len
      ({ f with offset := f.offset + buf.length }, none, buf)

/-- `OSInode::write`: at `*offset` when it is given, else at the file offset, which
    an append file first moves to its end. -/
def write (f : OSInodeBytes) (offset : Option Nat) (buf : List UInt8) : OSInodeBytes × Option Nat × Nat :=
  match offset with
  | some off => ({ f with bytes := ByteFile.write f.bytes off buf }, some (off + buf.length), buf.length)
  | none =>
      let off := if f.append then f.bytes.length else f.offset
      ({ f with bytes := ByteFile.write f.bytes off buf, offset := off + buf.length }, none, buf.length)

/-- Where a read with user offset `offset` starts. -/
def readPos (f : OSInodeBytes) (offset : Option Nat) : Nat := offset.getD f.offset

/-- Where a write with user offset `offset` goes. -/
def writePos (f : OSInodeBytes) (offset : Option Nat) : Nat :=
  match offset with
  | some off => off
  | none => if f.append then f.bytes.length else f.offset

theorem read_spec (f : OSInodeBytes) (offset : Option Nat) (len : Nat) :
    (f.read offset len).2.2 = ByteFile.read f.bytes (f.readPos offset) len ∧
      (f.read offset len).1.bytes = f.bytes ∧
      (f.read offset len).1.readPos (f.read offset len).2.1 =
        f.readPos offset + (f.read offset len).2.2.length := by
  cases offset <;> simp [read, readPos]

theorem write_spec (f : OSInodeBytes) (offset : Option Nat) (buf : List UInt8) :
    (f.write offset buf).1.bytes = ByteFile.write f.bytes (f.writePos offset) buf ∧
      (f.write offset buf).1.writePos (f.write offset buf).2.1 = f.writePos offset + buf.length ∧
      (f.write offset buf).2.2 = buf.length := by
  cases offset with
  | some off => simp [write, writePos]
  | none =>
      by_cases happ : f.append = true
      · simp [write, writePos, happ, ByteFile.length_write buf (le_refl f.bytes.length)]
      · simp [write, writePos, happ]

theorem length_read_le (f : OSInodeBytes) (offset : Option Nat) (len : Nat) :
    (f.read offset len).2.2.length ≤ len := by
  rw [(read_spec f offset len).1, ByteFile.read, List.length_take]
  exact Nat.min_le_left _ _

end OSInodeBytes

def osInodeIo : FileIo OSInodeBytes :=
  ⟨OSInodeBytes.readable, OSInodeBytes.writable, OSInodeBytes.read, OSInodeBytes.write,
    OSInodeBytes.length_read_le⟩

@[simp] theorem osInodeIo_read : osInodeIo.read = OSInodeBytes.read := rfl

@[simp] theorem osInodeIo_write : osInodeIo.write = OSInodeBytes.write := rfl

/-! ## The copy loop on regular files -/

namespace CopyState

def readPos (s : CopyState OSInodeBytes) : Nat := s.inFile.readPos s.offIn

def writePos (s : CopyState OSInodeBytes) : Nat := s.outFile.writePos s.offOut

/-- The bytes still to read from the input, from where the next read starts. -/
def available (s : CopyState OSInodeBytes) : Nat := s.inFile.bytes.length - s.readPos

end CopyState

/-- From `s` to `s'` the loop copied `k` bytes: both positions and `write_size`
    moved on by `k`, the input is as it was, and the output holds the `k` bytes
    from the read position at the write position. -/
structure Copied (s s' : CopyState OSInodeBytes) (k : Nat) : Prop where
  readPos_eq : s'.readPos = s.readPos + k
  writePos_eq : s'.writePos = s.writePos + k
  writeSize_eq : s'.writeSize = s.writeSize + k
  inBytes_eq : s'.inFile.bytes = s.inFile.bytes
  outBytes_eq : s'.outFile.bytes =
    if k = 0 then s.outFile.bytes
    else ByteFile.write s.outFile.bytes s.writePos (ByteFile.read s.inFile.bytes s.readPos k)

theorem Copied.trans {s s₁ s₂ : CopyState OSInodeBytes} {k₁ k₂ : Nat} (h₁ : Copied s s₁ k₁)
    (h₂ : Copied s₁ s₂ k₂) (hk₁ : k₁ ≤ s.available) : Copied s s₂ (k₁ + k₂) := by
  refine ⟨by rw [h₂.readPos_eq, h₁.readPos_eq, Nat.add_assoc],
    by rw [h₂.writePos_eq, h₁.writePos_eq, Nat.add_assoc],
    by rw [h₂.writeSize_eq, h₁.writeSize_eq, Nat.add_assoc], h₂.inBytes_eq.trans h₁.inBytes_eq, ?_⟩
  rw [h₂.outBytes_eq, h₁.readPos_eq, h₁.writePos_eq, h₁.inBytes_eq]
  by_cases hk₂ : k₂ = 0
  · simp [hk₂, h₁.outBytes_eq]
  by_cases hk₁0 : k₁ = 0
  · simp [hk₁0, hk₂, h₁.outBytes_eq]
  have hlen : (ByteFile.read s.inFile.bytes s.readPos k₁).length = k₁ := by
    rw [ByteFile.length_read_eq]
    unfold CopyState.available at hk₁
    omega
  have hwrites := ByteFile.write_write_append s.outFile.bytes s.writePos
    (ByteFile.read s.inFile.bytes s.readPos k₁) (ByteFile.read s.inFile.bytes (s.readPos + k₁) k₂)
  rw [hlen] at hwrites
  rw [if_neg hk₂, if_neg (by omega), h₁.outBytes_eq, if_neg hk₁0, hwrites, ← ByteFile.read_add]

variable {B : Nat}

theorem copyLoop_pass (s : CopyState OSInodeBytes) :
    let r := s.inFile.read s.offIn (min s.leftBytes B)
    let w := s.outFile.write s.offOut r.2.2
    r.2.2.length = min (min s.leftBytes B) s.available ∧
      (r.2.2.length = 0 → Copied s { s with inFile := r.1, offIn := r.2.1 } 0) ∧
      (r.2.2.length ≠ 0 →
        Copied s ⟨r.1, r.2.1, w.1, w.2.1, s.leftBytes - r.2.2.length, s.writeSize + w.2.2⟩
          r.2.2.length) := by
  intro r w
  obtain ⟨hbuf, hbytes, hpos⟩ := s.inFile.read_spec s.offIn (min s.leftBytes B)
  obtain ⟨hout, hwpos, hwritten⟩ := s.outFile.write_spec s.offOut r.2.2
  have hlen : r.2.2.length = min (min s.leftBytes B) s.available := by
    rw [hbuf, ByteFile.length_read_eq]
    rfl
  refine ⟨hlen, fun h0 => ⟨?_, rfl, rfl, hbytes, by simp⟩, fun hne => ⟨hpos, hwpos, ?_, hbytes, ?_⟩⟩
  · show r.1.readPos r.2.1 = s.readPos + 0
    rw [hpos, h0]
    rfl
  · show s.writeSize + w.2.2 = _
    rw [hwritten]
  · show w.1.bytes = _
    rw [if_neg hne, hout, hbuf]
    unfold CopyState.readPos CopyState.writePos
    rw [ByteFile.read_length_self]

theorem copyLoop_copied (hB : 0 < B) (s : CopyState OSInodeBytes) :
    Copied s (copyLoop osInodeIo B s) (min s.leftBytes s.available) := by
  rw [copyLoop]
  set r := osInodeIo.read s.inFile s.offIn (min s.leftBytes B)
  set w := osInodeIo.write s.outFile s.offOut r.2.2
  set next : CopyState OSInodeBytes :=
    ⟨r.1, r.2.1, w.1, w.2.1, s.leftBytes - r.2.2.length, s.writeSize + w.2.2⟩
  obtain ⟨hlen, hstop, hgo⟩ := copyLoop_pass (B := B) s
  have hlen : r.2.2.length = min (min s.leftBytes B) s.available := hlen
  by_cases h0 : r.2.2.length = 0
  · rw [dif_pos h0]
    have hzero : min s.leftBytes s.available = 0 := by omega
    rw [hzero]
    exact hstop h0
  · rw [dif_neg h0]
    have hpass : Copied s next r.2.2.length := hgo h0
    have havail : next.available = s.available - r.2.2.length := by
      unfold CopyState.available
      rw [hpass.readPos_eq, hpass.inBytes_eq]
      omega
    have hrest := copyLoop_copied hB next
    rw [havail, show next.leftBytes = s.leftBytes - r.2.2.length from rfl] at hrest
    have hk : min s.leftBytes s.available =
        r.2.2.length + min (s.leftBytes - r.2.2.length) (s.available - r.2.2.length) := by
      omega
    rw [hk]
    exact hpass.trans hrest (by omega)
termination_by s.leftBytes
decreasing_by
  have hread : (osInodeIo.read s.inFile s.offIn (min s.leftBytes B)).2.2.length =
      min (min s.leftBytes B) s.available := by assumption
  have hne : (osInodeIo.read s.inFile s.offIn (min s.leftBytes B)).2.2.length ≠ 0 := by assumption
  omega

/-! ## The two calls on regular files -/

theorem sysSendfile_spec {inFile outFile : OSInodeBytes} (offset : Option Nat) (count : Nat)
    (hr : inFile.readable = true) (hw : outFile.writable = true) :
    (sysSendfile osInodeIo inFile outFile offset count).1 =
        (min count (inFile.bytes.length - inFile.readPos offset) : Nat) ∧
      Copied ⟨inFile, offset, outFile, none, count, 0⟩ (sysSendfile osInodeIo inFile outFile offset count).2
        (min count (inFile.bytes.length - inFile.readPos offset)) := by
  have hcopy := copyLoop_copied (B := 4096) (by decide) ⟨inFile, offset, outFile, none, count, 0⟩
  have hrw : (!osInodeIo.readable inFile || !osInodeIo.writable outFile) = false := by
    simp [osInodeIo, hr, hw]
  simp only [sysSendfile, hrw, Bool.false_eq_true, if_false]
  exact ⟨by rw [hcopy.writeSize_eq, Nat.zero_add]; rfl, hcopy⟩

theorem copy_file_range_len_zero_reads_buffer_size {inFile outFile : OSInodeBytes}
    (offIn offOut : Option Nat) (len : Nat) (hr : inFile.readable = true) (hw : outFile.writable = true) :
    (sysCopyFileRange osInodeIo inFile offIn outFile offOut len).1 =
        (min (if len ≠ 0 then len else 0x4096) (inFile.bytes.length - inFile.readPos offIn) : Nat) ∧
      Copied ⟨inFile, offIn, outFile, offOut, if len ≠ 0 then len else 0x4096, 0⟩
        (sysCopyFileRange osInodeIo inFile offIn outFile offOut len).2
        (min (if len ≠ 0 then len else 0x4096) (inFile.bytes.length - inFile.readPos offIn)) := by
  have hcopy := copyLoop_copied (B := 0x4096) (by decide)
    ⟨inFile, offIn, outFile, offOut, if len ≠ 0 then len else 0x4096, 0⟩
  have hrw : (!osInodeIo.readable inFile || !osInodeIo.writable outFile) = false := by
    simp [osInodeIo, hr, hw]
  simp only [sysCopyFileRange, hrw, Bool.false_eq_true, if_false]
  exact ⟨by rw [hcopy.writeSize_eq, Nat.zero_add]; rfl, hcopy⟩

/-- A file of three bytes, open for reading, and an empty file open for writing. -/
def threeByteInput : OSInodeBytes := ⟨true, false, false, [1, 2, 3], 0⟩

def emptyOutput : OSInodeBytes := ⟨false, true, false, [], 0⟩

theorem copy_file_range_len_zero_copies_three_bytes :
    (sysCopyFileRange osInodeIo threeByteInput none emptyOutput none 0).1 = 3 ∧
      Copied ⟨threeByteInput, none, emptyOutput, none, 0x4096, 0⟩
        (sysCopyFileRange osInodeIo threeByteInput none emptyOutput none 0).2 3 :=
  copy_file_range_len_zero_reads_buffer_size none none 0 rfl rfl

/-! ## The bytes of an `OSInode` and the state of its inode -/

section Refinement

variable (efs : Efs)

/-- `OSInode::read` on the state `st` of the inode, with the descriptor's offset
    `fileOffset`: the inode's state, the descriptor's and the user's offsets after
    the read, and the bytes read. -/
def osInodeRead (st : FileState) (fileOffset : Nat) (offset : Option Nat) (len : Nat) :
    Option (FileState × Nat × Option Nat × List UInt8) :=
  match offset with
  | some off =>
      (Inode.readAtBlockCacheRlock efs st off len).map fun (st, buf) =>
        (st, fileOffset, some (off + buf.length), buf)
  | none =>
      (Inode.readAtBlockCacheRlock efs st fileOffset len).map fun (st, buf) =>
        (st, fileOffset + buf.length, none, buf)

/-- `OSInode::write` on the state `st` of the inode.  With no user offset, an append
    file writes at `get_file_size_wlock`. -/
def osInodeWrite (st : FileState) (fileOffset : Nat) (append : Bool) (offset : Option Nat)
    (buf : List UInt8) : Option (FileState × Nat × Option Nat × Nat) :=
  match offset with
  | some off =>
      (Inode.writeAtBlockCacheLock efs st off buf).map fun (st, n) => (st, fileOffset, some (off + n), n)
  | none =>
      let off := if append then st.content.size else fileOffset
      (Inode.writeAtBlockCacheLock efs st off buf).map fun (st, n) => (st, off + n, none, n)

variable {efs}

theorem osInodeRead_refines (h512 : efs.bytsPerSec = bufferSize) {st : FileState} {f : OSInodeBytes}
    (hrep : Inode.Represents efs st f.bytes) (offset : Option Nat) (len : Nat)
    (hlen : f.readPos offset + len < 2 ^ 64) :
    ∃ st', osInodeRead efs st f.offset offset len =
        some (st', (f.read offset len).1.offset, (f.read offset len).2.1, (f.read offset len).2.2) ∧
      Inode.Represents efs st' f.bytes := by
  obtain ⟨st', hread, hrep'⟩ := Inode.readAtBlockCacheRlock_refines h512 hrep (f.readPos offset) len hlen
  refine ⟨st', ?_, hrep'⟩
  cases offset with
  | some off =>
      simp only [OSInodeBytes.readPos, Option.getD_some] at hread
      simp [osInodeRead, hread, OSInodeBytes.read]
  | none =>
      simp only [OSInodeBytes.readPos, Option.getD_none] at hread
      simp [osInodeRead, hread, OSInodeBytes.read]

theorem osInodeWrite_refines (h512 : efs.bytsPerSec = bufferSize) {st : FileState} {f : OSInodeBytes}
    (hrep : Inode.Represents efs st f.bytes) (offset : Option Nat) (buf : List UInt8)
    (hpos : f.writePos offset ≤ f.bytes.length) (hend : f.writePos offset + buf.length < 2 ^ 32)
    (hfat : Inode.Supplies st
      (Inode.totalClus efs (f.writePos offset + buf.length) - Inode.totalClus efs f.bytes.length)) :
    ∃ st', osInodeWrite efs st f.offset f.append offset buf =
        some (st', (f.write offset buf).1.offset, (f.write offset buf).2.1, (f.write offset buf).2.2) ∧
      Inode.Represents efs st' (f.write offset buf).1.bytes := by
  obtain ⟨st', hwrite, hrep'⟩ := Inode.writeAtBlockCacheLock_refines h512 hrep buf hpos hend hfat
  refine ⟨st', ?_, by rw [(f.write_spec offset buf).1]; exact hrep'⟩
  cases offset with
  | some off =>
      simp only [OSInodeBytes.writePos] at hwrite
      simp [osInodeWrite, hwrite, OSInodeBytes.write]
  | none =>
      by_cases happ : f.append = true
      · simp only [OSInodeBytes.writePos, happ, if_true] at hwrite
        simp [osInodeWrite, happ, hrep.size_eq, hwrite, OSInodeBytes.write]
      · simp only [OSInodeBytes.writePos, happ, Bool.false_eq_true, if_false] at hwrite
        simp [osInodeWrite, happ, hwrite, OSInodeBytes.write]

end Refinement

end OsKernel.Fs

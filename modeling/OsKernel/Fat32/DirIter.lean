import OsKernel.Fat32.Vfs
import OsKernel.Fat32.Layout

/-! # Iterating a directory

`DirIter` and `DirWalker` of `fs/fat32/dir_iter.rs`.  An iterator is an
offset into a directory file, a mode that picks the entries it stops at, and a
direction; it reads and writes the file through the content operations of
`Inode`.  Offsets are `u32`.  The loops of `next` run once per entry of the file
at most and end there; here they run on fuel, `none` when it runs out, with
enough of it given by `next` and `DirWalker::next`.
-/

namespace OsKernel.Fat32

open Unicode

inductive DirIterMode
  | long
  | short
  | used
  | unused
  | enum
deriving DecidableEq, Repr

/-- `FORWARD`. -/
def forward : Bool := true

/-- `BACKWARD`. -/
def backward : Bool := false

/-- `usize::MAX`, where `DirWalker::next` starts `should_be_ord`. -/
def usizeMax : Nat := 2 ^ 64 - 1

structure DirIter where
  offset : Option Nat
  mode : DirIterMode
  direction : Bool
deriving DecidableEq, Repr

/-- `check_dir_ent_legality`: whether `next` stops at the entry. -/
def checkDirEntLegality : DirIterMode → FATDirEnt → Bool
  | .unused, e => e.unusedNotLast
  | .used, e => !e.unused
  | .long, e => !e.unused && e.isLong
  | .short, e => !e.unused && e.isShort
  | .enum, _ => true

namespace DirIter

variable (efs : Efs)

/-- `set_iter_offset`: the offset before `offset` in the direction, so that
    the next step lands on it. -/
def setIterOffset (it : DirIter) (offset : Nat) : DirIter :=
  if it.direction then
    { it with offset := if offset = 0 then none else some (Word.sub 32 offset stepSize) }
  else { it with offset := some (Word.add 32 offset stepSize) }

/-- `read_at_block_cache_wlock` of the entry at `offset` into a fresh
    `FATDirEnt::empty`. -/
def readEnt (st : FileState) (offset : Nat) : Option (FileState × FATDirEnt) := do
  let (st, bytes) ← Inode.readAtBlockCacheRlock efs st offset stepSize
  pure (st, FATDirEnt.ofRead bytes)

/-- `step`: one entry in the direction.  Forward, the end of the file ends the
    iterator, and so does a `last_and_unused` entry outside `Enum` mode, both
    without moving; backward, the start of the file does. -/
def step (it : DirIter) (st : FileState) : Option (FileState × DirIter × Option FATDirEnt) :=
  if it.direction then
    let offset := (it.offset.map fun offset => Word.add 32 offset stepSize).getD 0
    if st.content.size ≤ offset then pure (st, it, none)
    else do
      let (st, dirEnt) ← readEnt efs st offset
      if it.mode ≠ .enum ∧ dirEnt.lastAndUnused then pure (st, it, none)
      else pure (st, { it with offset := some offset }, some dirEnt)
  else
    match it.offset with
    | none => pure (st, it, none)
    | some 0 => pure (st, { it with offset := none }, none)
    | some offset => do
        let offset := Word.sub 32 offset stepSize
        let (st, dirEnt) ← readEnt efs st offset
        pure (st, { it with offset := some offset }, some dirEnt)

/-- The loop of `next`: step past the entries the mode skips. -/
def nextLoop : Nat → DirIter → FileState → Option (FileState × DirIter × Option FATDirEnt)
  | 0, _, _ => none
  | fuel + 1, it, st => do
      let (st, it, dirEnt) ← step efs it st
      match dirEnt with
      | none => pure (st, it, none)
      | some dirEnt =>
          if checkDirEntLegality it.mode dirEnt then pure (st, it, some dirEnt)
          else nextLoop fuel it st

/-- The steps `next` can take: one per entry the offset can pass, and one more. -/
def fuel (it : DirIter) (st : FileState) : Nat :=
  (st.content.size + it.offset.getD 0) / stepSize + 2

/-- `Iterator::next` of `DirIter`. -/
def next (it : DirIter) (st : FileState) : Option (FileState × DirIter × Option FATDirEnt) :=
  nextLoop efs (it.fuel st) it st

/-- `current_clone`: the entry at the offset, if it is below the size. -/
def currentClone (it : DirIter) (st : FileState) : Option (FileState × Option FATDirEnt) :=
  match it.offset with
  | some offset =>
      if offset < st.content.size then do
        let (st, bytes) ← Inode.readAtBlockCacheRlock efs st offset stepSize
        pure (st, if bytes.length ≠ 0 then some (FATDirEnt.ofRead bytes) else none)
      else pure (st, none)
  | none => pure (st, none)

/-- `write_to_current_ent`: it panics without an offset or on a short write. -/
def writeToCurrentEnt (it : DirIter) (st : FileState) (ent : FATDirEnt) : Option FileState := do
  let offset ← it.offset
  let (st, written) ← Inode.writeAtBlockCacheLock efs st offset ent.bytes
  if written ≠ ent.bytes.length then none else pure st

/-- The loop of `collect`: every entry `next` yields, up to the end. -/
def collectLoop : Nat → DirIter → FileState → Option (FileState × List FATDirEnt)
  | 0, _, _ => none
  | fuel + 1, it, st => do
      let (st, it, dirEnt) ← it.next efs st
      match dirEnt with
      | none => pure (st, [])
      | some dirEnt => (fun (st, rest) => (st, dirEnt :: rest)) <$> collectLoop fuel it st

/-- `Iterator::collect` of a `DirIter`. -/
def collect (it : DirIter) (st : FileState) : Option (FileState × List FATDirEnt) :=
  collectLoop efs (st.content.size / stepSize + 1) it st

end DirIter

/-- The loop of `DirWalker::next`: long entries prepend their part of the name,
    each one after the last long entry of a name with the order below the one
    before; a short entry ends the name.  A long entry out of order is the
    `unreachable!()`.  `should_be_ord` is a `usize` and wraps. -/
def walkLoop (efs : Efs) :
    Nat → List Char → Nat → DirIter → FileState →
      Option (FileState × DirIter × Option (List Char × FATDirEnt))
  | 0, _, _, _, _ => none
  | fuel + 1, name, shouldBeOrd, it, st => do
      let (st, it, dirEnt) ← it.next efs st
      match dirEnt with
      | none => pure (st, it, none)
      | some dirEnt =>
          if dirEnt.isLong then
            if dirEnt.isLastLongDirEnt then
              walkLoop efs fuel (dirEnt.getName ++ name) (Word.sub 64 dirEnt.ord 1) it st
            else if dirEnt.ord = shouldBeOrd then
              walkLoop efs fuel (dirEnt.getName ++ name) (Word.sub 64 shouldBeOrd 1) it st
            else none
          else if dirEnt.isShort then
            pure (st, it, some (if name.isEmpty then dirEnt.getName else name, dirEnt))
          else walkLoop efs fuel name shouldBeOrd it st

/-- `Iterator::next` of `DirWalker`: the next name with its short entry. -/
def walkerNext (efs : Efs) (it : DirIter) (st : FileState) :
    Option (FileState × DirIter × Option (List Char × FATDirEnt)) :=
  walkLoop efs (it.fuel st) [] usizeMax it st

theorem FATDirEnt.ord_lt (e : FATDirEnt) : e.ord < 2 ^ 8 := by
  unfold FATDirEnt.ord
  split
  · exact UInt8.toNat_lt _
  · decide

theorem walkLoop_eq_none_of_out_of_order {efs : Efs} {it it' : DirIter} {st st' : FileState}
    {e : FATDirEnt} {name : List Char} {shouldBeOrd : Nat} (fuel : Nat)
    (hnext : it.next efs st = some (st', it', some e)) (hlong : e.isLong = true)
    (hlast : e.isLastLongDirEnt = false) (hord : e.ord ≠ shouldBeOrd) :
    walkLoop efs (fuel + 1) name shouldBeOrd it st = none := by
  simp [walkLoop, hnext, hlong, hlast, hord]

theorem walkerNext_eq_none_of_orphan {efs : Efs} {it it' : DirIter} {st st' : FileState}
    {e : FATDirEnt} (hnext : it.next efs st = some (st', it', some e)) (hlong : e.isLong = true)
    (hlast : e.isLastLongDirEnt = false) : walkerNext efs it st = none := by
  have hord : e.ord ≠ usizeMax := Nat.ne_of_lt (lt_of_lt_of_le e.ord_lt (by decide))
  exact walkLoop_eq_none_of_out_of_order _ hnext hlong hlast hord

/-- A `DirWalker` run to its end: every pair it yields, in order. -/
def walkAllLoop (efs : Efs) : Nat → DirIter → FileState → Option (List (List Char × FATDirEnt))
  | 0, _, _ => none
  | fuel + 1, it, st => do
      let (st, it, pair) ← walkerNext efs it st
      match pair with
      | none => pure []
      | some pair => (pair :: ·) <$> walkAllLoop efs fuel it st

/-- The names of a directory as `DirWalker` over `DirIter(None, Used, FORWARD)`
    yields them. -/
def walkAll (efs : Efs) (st : FileState) : Option (List (List Char × FATDirEnt)) :=
  walkAllLoop efs (st.content.size / stepSize + 1) ⟨none, .used, forward⟩ st

end OsKernel.Fat32

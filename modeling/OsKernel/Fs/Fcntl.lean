import OsKernel.Fs.FdTable
import OsKernel.Fs.DirectoryTree

/-! # Descriptor flags and `fcntl`

`FileDescriptor` of `fs/mod.rs` with the two flags it carries besides its file,
and `sys_fcntl` over the process's table.  `open` sets `cloexec` from
`O_CLOEXEC`; `F_SETFD` sets it from bit `FD_CLOEXEC` of its argument and
`F_GETFD` reads it back; `F_DUPFD_CLOEXEC` puts a copy with the flag set in the
first slot `try_insert_at` finds.  A call on a slot that holds nothing returns
`EBADF` and leaves the table as it was.
-/

namespace OsKernel.Fs

/-- `FileDescriptor`, with its file opaque. -/
structure Descriptor (F : Type) where
  cloexec : Bool
  nonblock : Bool
  file : F
  deriving DecidableEq, Repr

namespace Descriptor

variable {F : Type}

def setCloexec (d : Descriptor F) (flag : Bool) : Descriptor F :=
  { d with cloexec := flag }

end Descriptor

/-- `Fcntl_Command::from_primitive`: the commands that `sys_fcntl` handles, and
    `other` for the rest, known or `ILLEAGAL`, which all return `SUCCESS`. -/
inductive FcntlCommand where
  | dupfd
  | getfd
  | setfd
  | getfl
  | dupfdCloexec
  | other
  deriving DecidableEq, Repr

def FcntlCommand.fromPrimitive (cmd : Nat) : FcntlCommand :=
  if cmd = 0 then .dupfd
  else if cmd = 1 then .getfd
  else if cmd = 2 then .setfd
  else if cmd = 3 then .getfl
  else if cmd = 1030 then .dupfdCloexec
  else .other

def fdCloexec : Nat := 1
def success : Int := 0

def OpenFlags.oNonblock : OpenFlags := ⟨0o4000⟩

namespace FdTable

variable {α : Type}

/-- The `isize` of an `Err` of a table call, or its panic. -/
def returnError (t : FdTable α) : FdError → Option (FdTable α × Int)
  | .errno code => some (t, code)
  | .panic => none

/-- `try_insert_at(d, hint)` as `sys_fcntl` returns it: the new slot, or the errno. -/
def insertResult (t : FdTable α) (d : α) (hint : Nat) : Option (FdTable α × Int) :=
  match t.tryInsertAt d hint with
  | .ok (t', fd) => some (t', fd)
  | .error e => returnError t e

/-- A write through `get_refmut(fd)`, which has found a descriptor there. -/
def setSlot (t : FdTable α) (fd : Nat) (d : α) : FdTable α :=
  { t with inner := t.inner.set fd (some d) }

end FdTable

variable {F : Type}

/-- `sys_fcntl(fd, cmd, arg)` over the process's table. -/
def sysFcntl (t : FdTable (Descriptor F)) (fd cmd arg : Nat) :
    Option (FdTable (Descriptor F) × Int) :=
  match FcntlCommand.fromPrimitive cmd with
  | .dupfd =>
      match t.getRef fd with
      | .ok d => t.insertResult d arg
      | .error e => t.returnError e
  | .dupfdCloexec =>
      match t.getRef fd with
      | .ok d => t.insertResult (d.setCloexec true) arg
      | .error e => t.returnError e
  | .getfd =>
      match t.getRef fd with
      | .ok d => some (t, if d.cloexec then 1 else 0)
      | .error e => t.returnError e
  | .setfd =>
      match t.getRef fd with
      | .ok d => some (t.setSlot fd (d.setCloexec (arg &&& fdCloexec != 0)), success)
      | .error e => t.returnError e
  | .getfl =>
      match t.getRef fd with
      | .ok d =>
          some (t, if d.nonblock then ((OpenFlags.oRdwr ||| OpenFlags.oNonblock).bits : Int)
            else (OpenFlags.oRdwr.bits : Int))
      | .error e => t.returnError e
  | .other => some (t, success)

namespace FdTable

variable {α : Type}

theorem returnError_eq_some {t t' : FdTable α} {e : FdError} {r : Int}
    (h : t.returnError e = some (t', r)) : t' = t := by
  cases e with
  | errno code =>
      cases h
      rfl
  | panic => cases h

theorem insertResult_eq_some {t t' : FdTable α} {d : α} {hint : Nat} {r : Int}
    (h : t.insertResult d hint = some (t', r)) :
    (∃ n : Nat, r = n ∧ t'.getRef n = .ok d) ∨ t' = t := by
  unfold insertResult at h
  cases hins : t.tryInsertAt d hint with
  | ok res =>
      obtain ⟨t₁, n⟩ := res
      rw [hins] at h
      cases h
      exact .inl ⟨n, rfl, getRef_tryInsertAt hins⟩
  | error e =>
      rw [hins] at h
      exact .inr (returnError_eq_some h)

theorem insertResult_unchanged_of_neg {t t' : FdTable α} {d : α} {hint : Nat} {r : Int}
    (h : t.insertResult d hint = some (t', r)) (hneg : r < 0) : t' = t := by
  rcases insertResult_eq_some h with ⟨n, rfl, -⟩ | heq
  · omega
  · exact heq

theorem getRef_setSlot_self {t : FdTable α} {fd : Nat} {d : α} (hfd : fd < t.inner.length) :
    (t.setSlot fd d).getRef fd = .ok d := by
  rw [getRef_eq_ok_iff]
  simp [setSlot, hfd]

theorem getRef_setSlot_of_ne {t : FdTable α} {fd i : Nat} {d : α} (hne : i ≠ fd) :
    (t.setSlot fd d).getRef i = t.getRef i := by
  unfold getRef setSlot
  simp only [List.length_set, List.getD_eq_getElem?_getD, List.getElem?_set_ne (Ne.symm hne)]

theorem lt_length_of_getRef {t : FdTable α} {fd : Nat} {d : α} (hd : t.getRef fd = .ok d) :
    fd < t.inner.length := by
  have hslot := getRef_eq_ok_iff.mp hd
  exact (List.getElem?_eq_some_iff.mp hslot).1

end FdTable

variable {t t' : FdTable (Descriptor F)} {fd arg : Nat} {d : Descriptor F} {r : Int}

theorem sysFcntl_setfd (hd : t.getRef fd = .ok d) :
    sysFcntl t fd 2 arg = some (t.setSlot fd (d.setCloexec (arg &&& fdCloexec != 0)), success) := by
  simp [sysFcntl, FcntlCommand.fromPrimitive, hd]

theorem sysFcntl_getfd (hd : t.getRef fd = .ok d) :
    sysFcntl t fd 1 arg = some (t, if d.cloexec then 1 else 0) := by
  simp [sysFcntl, FcntlCommand.fromPrimitive, hd]

theorem getfd_after_setfd (hd : t.getRef fd = .ok d) (hset : sysFcntl t fd 2 arg = some (t', r))
    (arg' : Nat) :
    sysFcntl t' fd 1 arg' = some (t', if arg &&& fdCloexec != 0 then 1 else 0) ∧
      ∀ i, i ≠ fd → t'.getRef i = t.getRef i := by
  rw [sysFcntl_setfd hd] at hset
  cases hset
  have hnew := FdTable.getRef_setSlot_self (d := d.setCloexec (arg &&& fdCloexec != 0))
    (FdTable.lt_length_of_getRef hd)
  refine ⟨?_, fun i hi => FdTable.getRef_setSlot_of_ne hi⟩
  rw [sysFcntl_getfd hnew]
  rfl

theorem sysFcntl_dupfdCloexec (h : sysFcntl t fd 1030 arg = some (t', r)) :
    (∃ (d : Descriptor F) (n : Nat), t.getRef fd = .ok d ∧ r = n ∧
      t'.getRef n = .ok (d.setCloexec true)) ∨ t' = t := by
  simp only [sysFcntl, FcntlCommand.fromPrimitive] at h
  cases hd : t.getRef fd with
  | ok d =>
      rw [hd] at h
      rcases FdTable.insertResult_eq_some h with ⟨n, rfl, hn⟩ | heq
      · exact .inl ⟨d, n, rfl, rfl, hn⟩
      · exact .inr heq
  | error e =>
      rw [hd] at h
      exact .inr (FdTable.returnError_eq_some h)

theorem sysFcntl_error_unchanged {cmd : Nat} (h : sysFcntl t fd cmd arg = some (t', r))
    (hneg : r < 0) : t' = t := by
  unfold sysFcntl at h
  cases hd : t.getRef fd with
  | error e =>
      rw [hd] at h
      split at h
      case h_6 =>
        cases h
        rfl
      all_goals exact FdTable.returnError_eq_some h
  | ok d =>
      rw [hd] at h
      split at h
      case h_1 | h_2 => exact FdTable.insertResult_unchanged_of_neg h hneg
      case h_3 | h_5 =>
        cases h
        split at hneg <;> omega
      case h_4 =>
        cases h
        exact absurd hneg (by decide)
      case h_6 =>
        cases h
        rfl

end OsKernel.Fs

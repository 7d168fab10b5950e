import OsKernel.Fs.Fcntl
import OsKernel.Lib.Run

/-! # The descriptor system calls

`sys_dup`, `sys_dup3`, `sys_close` and `sys_pipe` of `syscall/fs.rs` and the
`RESOURCE_NOFILE` case of `sys_prlimit` in `syscall/process.rs`, with
`sys_fcntl`, as the steps of a process's descriptor table.  A call returns the
table and its `isize`, and `none` is a panic.  The files of `make_pipe` are
parameters, and the two numbers `sys_pipe` writes through `translated_refmut`
are returned beside the table.

What the calls are for is `FdSpec`, over a table of slots that are empty or
hold a descriptor: a call that returns a descriptor number has put its copy in
a free slot below the soft limit, `close` empties its slot, and a call that
returns an errno changes nothing.  From a sound table (`FdTable.Sound`) every
run of calls refines it and no call panics, as long as `prlimit` keeps the
soft limit within `SYSTEM_FD_LIMIT` and `F_DUPFD` does not take a recycled slot
above a taken hint.  Three places where the calls leave that specification or
POSIX close the module.
-/

namespace OsKernel.Fs

variable {α F : Type}

/-! ## The calls -/

/-- Every flag `OpenFlags` of `layout.rs` names, `OpenFlags::all()`. -/
def OpenFlags.allBits : Nat :=
  0o1 ||| 0o2 ||| 0o100 ||| 0o200 ||| 0o400 ||| 0o1000 ||| 0o2000 ||| 0o4000 ||| 0o10000 |||
    0o4010000 ||| 0o200000 ||| 0o400000 ||| 0o2000000 ||| 0o20000 ||| 0o40000 ||| 0o100000 |||
    0o1000000 ||| 0o10000000 ||| 0o20200000

/-- `OpenFlags::from_bits`: the flags, unless a bit outside `all()` is set. -/
def OpenFlags.fromBits (bits : Nat) : Option OpenFlags :=
  if bits &&& OpenFlags.allBits = bits then some ⟨bits⟩ else none

def OpenFlags.oRdonly : OpenFlags := ⟨0⟩
def OpenFlags.oCloexec : OpenFlags := ⟨0o2000000⟩

/-- How `sys_dup3` reads `flags`: `O_CLOEXEC` alone, `O_RDONLY` (no flag), or
    `EINVAL` for anything else. -/
def dup3IsCloexec (flags : Nat) : Option Bool :=
  match OpenFlags.fromBits flags with
  | some f =>
      if f = OpenFlags.oCloexec then some true
      else if f = OpenFlags.oRdonly then some false
      else none
  | none => none

namespace FdTable

/-- The `isize` of a table call that returns a slot, or its `Err`. -/
def returnSlot (t : FdTable α) : Except FdError (FdTable α × Nat) → Option (FdTable α × Int)
  | .ok (t', fd) => some (t', fd)
  | .error e => t.returnError e

end FdTable

/-- `sys_dup(oldfd)`: a clone of the descriptor, cloexec flag and all, in the
    slot `insert` picks. -/
def sysDup (t : FdTable (Descriptor F)) (oldfd : Nat) : Option (FdTable (Descriptor F) × Int) :=
  match t.getRef oldfd with
  | .ok d => t.returnSlot (t.insert d)
  | .error e => t.returnError e

/-- `sys_dup3(oldfd, newfd, flags)`: a clone in slot `newfd`, replacing what is
    there.  The flag is checked but not used: the copy's `cloexec` is cleared
    whatever `flags` says. -/
def sysDup3 (t : FdTable (Descriptor F)) (oldfd newfd flags : Nat) :
    Option (FdTable (Descriptor F) × Int) :=
  if oldfd = newfd then some (t, einval)
  else
    match dup3IsCloexec flags with
    | none => some (t, einval)
    | some _ =>
        match t.getRef oldfd with
        | .ok d => t.returnSlot (t.insertAt (d.setCloexec false) newfd)
        | .error e => t.returnError e

/-- `sys_close(fd)`. -/
def sysClose (t : FdTable (Descriptor F)) (fd : Nat) : Option (FdTable (Descriptor F) × Int) :=
  match t.remove fd with
  | .ok (t', _) => some (t', success)
  | .error e => t.returnError e

/-- The descriptor `FileDescriptor::new(false, false, file)`. -/
def Descriptor.plain (file : F) : Descriptor F :=
  ⟨false, false, file⟩

/-- `sys_pipe(pipe)` with the two ends `make_pipe` made: the table, the return
    value, and the pair written to `pipe[0]` and `pipe[1]`.  When the write end
    finds no slot, the read end stays in the table. -/
def sysPipe (t : FdTable (Descriptor F)) (pipeRead pipeWrite : F) :
    Option (FdTable (Descriptor F) × Int × Option (Nat × Nat)) :=
  match t.insert (.plain pipeRead) with
  | .error e => (t.returnError e).map fun p => (p.1, p.2, none)
  | .ok (t₁, readFd) =>
      match t₁.insert (.plain pipeWrite) with
      | .error e => (t₁.returnError e).map fun p => (p.1, p.2, none)
      | .ok (t₂, writeFd) => some (t₂, success, some (readFd, writeFd))

def resourceStack : Nat := 3
def resourceNofile : Nat := 7

/-- `sys_prlimit(pid, resource, new_limit, old_limit)` on the caller's table,
    with `*new_limit` read (`none` for a null pointer) as `(rlim_cur, rlim_max)`.
    `pid` and `old_limit` are not used; a resource other than these two is a
    `todo!()`. -/
def sysPrlimit (t : FdTable α) (resource : Nat) (newLimit : Option (Nat × Nat)) :
    Option (FdTable α × Int) :=
  match newLimit with
  | none => some (t, success)
  | some (cur, max) =>
      if resource = resourceNofile then some ((t.setSoftLimit cur).setHardLimit max, success)
      else if resource = resourceStack then some (t, success)
      else none

/-! ## A process's descriptor table under its calls -/

/-- The calls of a process that touch only its descriptor table. -/
inductive FdCall (F : Type) where
  | close (fd : Nat)
  | dup (oldfd : Nat)
  | dup3 (oldfd newfd flags : Nat)
  | fcntl (fd cmd arg : Nat)
  | pipe (pipeRead pipeWrite : F)
  | prlimit (resource : Nat) (newLimit : Option (Nat × Nat))

/-- One call: the table it leaves and the value it returns. -/
def fdCall (t : FdTable (Descriptor F)) : FdCall F → Option (FdTable (Descriptor F) × Int)
  | .close fd => sysClose t fd
  | .dup oldfd => sysDup t oldfd
  | .dup3 oldfd newfd flags => sysDup3 t oldfd newfd flags
  | .fcntl fd cmd arg => sysFcntl t fd cmd arg
  | .pipe pipeRead pipeWrite => (sysPipe t pipeRead pipeWrite).map fun p => (p.1, p.2.1)
  | .prlimit resource newLimit => sysPrlimit t resource newLimit

/-- The step of the table, paired with the value the last call returned. -/
def fdStep (s : FdTable (Descriptor F) × Int) (call : FdCall F) :
    Option (FdTable (Descriptor F) × Int) :=
  fdCall s.1 call

/-- The calls the abstract table describes on `t`: `prlimit` on a resource it
    handles and, for `RESOURCE_NOFILE`, within `SYSTEM_FD_LIMIT`; `F_DUPFD` on an
    empty hint or with no recycled slot above it. -/
def allowed (t : FdTable (Descriptor F)) : FdCall F → Bool
  | .fcntl _ cmd arg =>
      match FcntlCommand.fromPrimitive cmd with
      | .dupfd | .dupfdCloexec => t.isVacant arg || (t.recycled.find? (arg < ·.toNat)).isNone
      | _ => true
  | .prlimit resource (some (cur, _)) =>
      (resource == resourceNofile && decide (cur ≤ FdTable.systemFdLimit)) ||
        resource == resourceStack
  | _ => true

/-! ## What the calls are for -/

/-- A table of slots, each empty or holding a descriptor, and its soft limit. -/
structure FdSlots (α : Type) where
  slots : Nat → Option α
  limit : Nat

namespace FdSlots

def put (m : FdSlots α) (n : Nat) (x : Option α) : FdSlots α :=
  { m with slots := Function.update m.slots n x }

/-- Slot `n` can take a new descriptor. -/
def Free (m : FdSlots α) (n : Nat) : Prop :=
  m.slots n = none ∧ n < m.limit

/-- A copy of slot `fd`, changed by `f`, in a free slot at or above `lower`
    that the call returns; or an errno, and nothing changed. -/
def Dup (m : FdSlots α) (fd lower : Nat) (f : α → α) (m' : FdSlots α) (r : Int) : Prop :=
  (r < 0 ∧ m' = m) ∨
    ∃ d, m.slots fd = some d ∧ 0 ≤ r ∧ lower ≤ r.toNat ∧ m.Free r.toNat ∧
      m' = m.put r.toNat (some (f d))

end FdSlots

/-- The table as the calls see it. -/
def FdTable.toSlots (t : FdTable α) : FdSlots α :=
  ⟨t.slot, t.softLimit⟩

/-- What each call may do to the slots, and the value it returns. -/
def FdSpec (m : FdSlots (Descriptor F)) : FdCall F → FdSlots (Descriptor F) × Int → Prop
  | .close fd, (m', r) =>
      m' = m.put fd none ∧ (m.slots fd ≠ none ∧ r = success ∨ m.slots fd = none ∧ r = ebadf)
  | .dup oldfd, (m', r) => m.Dup oldfd 0 id m' r
  | .dup3 oldfd newfd flags, (m', r) =>
      (r < 0 ∧ m' = m) ∨
        ∃ d, oldfd ≠ newfd ∧ (dup3IsCloexec flags).isSome ∧ m.slots oldfd = some d ∧
          newfd < m.limit ∧ r = newfd ∧ m' = m.put newfd (some (d.setCloexec false))
  | .fcntl fd cmd arg, (m', r) =>
      match FcntlCommand.fromPrimitive cmd with
      | .dupfd => m.Dup fd arg id m' r
      | .dupfdCloexec => m.Dup fd arg (·.setCloexec true) m' r
      | .setfd =>
          m' = (match m.slots fd with
            | some d => m.put fd (some (d.setCloexec (arg &&& fdCloexec != 0)))
            | none => m)
      | .getfd | .getfl => m' = m
      | .other => m' = m ∧ r = success
  | .pipe pipeRead pipeWrite, (m', r) =>
      (r < 0 ∧ (m' = m ∨ ∃ n, m.Free n ∧ m' = m.put n (some (.plain pipeRead)))) ∨
        (r = success ∧ ∃ n₁ n₂, m.Free n₁ ∧ (m.put n₁ (some (.plain pipeRead))).Free n₂ ∧
          m' = (m.put n₁ (some (.plain pipeRead))).put n₂ (some (.plain pipeWrite)))
  | .prlimit resource newLimit, (m', r) =>
      r = success ∧
        match newLimit with
        | some (cur, max) =>
            if resource = resourceNofile then
              m' = ⟨fun i => if i < cur ∧ i < max then m.slots i else none, cur⟩
            else m' = m
        | none => m' = m

/-! ## Each call meets its specification -/

namespace FdTable

theorem returnError_errno {t t' : FdTable α} {code r : Int}
    (h : t.returnError (.errno code) = some (t', r)) : t' = t ∧ r = code := by
  cases h
  exact ⟨rfl, rfl⟩

theorem softLimit_truncateTo (t : FdTable α) (limit : Nat) :
    (t.truncateTo limit).softLimit = t.softLimit := by
  unfold truncateTo
  split_ifs <;> rfl

theorem toSlots_put {t t' : FdTable α} {n : Nat} {x : Option α}
    (hslot : t'.slot = Function.update t.slot n x) (hlimit : t'.softLimit = t.softLimit) :
    t'.toSlots = t.toSlots.put n x := by
  simp [toSlots, FdSlots.put, hslot, hlimit]

theorem Puts.toSlots {t t' : FdTable α} {n : Nat} {d : α} (h : t.Puts t' n d) :
    t'.toSlots = t.toSlots.put n (some d) :=
  toSlots_put h.slot_eq h.softLimit_eq

theorem Puts.dup {t t' : FdTable α} {fd lower n : Nat} {d : α} {f : α → α}
    (hd : t.slot fd = some d) (hfree : t.slot n = none) (hlower : lower ≤ n)
    (h : t.Puts t' n (f d)) : t.toSlots.Dup fd lower f t'.toSlots n :=
  .inr ⟨d, hd, by omega, by simpa using hlower, ⟨hfree, h.lt_softLimit⟩, by simpa using h.toSlots⟩

end FdTable

namespace FdSlots

theorem put_eq_self {m : FdSlots α} {n : Nat} {x : Option α} (h : m.slots n = x) :
    m.put n x = m := by
  cases m
  simp [put, ← h]

theorem dup_of_neg {m : FdSlots α} {fd lower : Nat} {f : α → α} {r : Int} (hr : r < 0) :
    m.Dup fd lower f m r :=
  .inl ⟨hr, rfl⟩

end FdSlots

section Calls

variable {t t' : FdTable (Descriptor F)} {r : Int}

theorem sysClose_spec {fd : Nat} (hs : t.Sound) (h : sysClose t fd = some (t', r)) :
    t'.Sound ∧ FdSpec t.toSlots (.close fd) (t'.toSlots, r) := by
  unfold sysClose at h
  cases hrm : t.remove fd with
  | ok res =>
      rw [hrm] at h
      cases h
      obtain ⟨hslot, hview, hlimit, hs'⟩ := FdTable.remove_spec hs hrm
      exact ⟨hs', FdTable.toSlots_put hview hlimit, .inl ⟨by simp [FdTable.toSlots, hslot], rfl⟩⟩
  | error e =>
      rw [hrm] at h
      obtain ⟨rfl, hslot⟩ := FdTable.remove_eq_error hrm
      obtain ⟨rfl, rfl⟩ := FdTable.returnError_errno h
      exact ⟨hs, (FdSlots.put_eq_self hslot).symm, .inr ⟨hslot, rfl⟩⟩

theorem sysDup_spec {oldfd : Nat} (hs : t.Sound) (h : sysDup t oldfd = some (t', r)) :
    t'.Sound ∧ FdSpec t.toSlots (.dup oldfd) (t'.toSlots, r) := by
  unfold sysDup at h
  cases hd : t.getRef oldfd with
  | error e =>
      rw [hd] at h
      obtain ⟨rfl, -⟩ := FdTable.getRef_eq_error hd
      obtain ⟨rfl, rfl⟩ := FdTable.returnError_errno h
      exact ⟨hs, FdSlots.dup_of_neg (by decide)⟩
  | ok d =>
      simp only [hd] at h
      cases hins : t.insert d with
      | error e =>
          rw [hins, FdTable.returnSlot, FdTable.insert_eq_error hs hins] at h
          obtain ⟨rfl, rfl⟩ := FdTable.returnError_errno h
          exact ⟨hs, FdSlots.dup_of_neg (by decide)⟩
      | ok res =>
          rw [hins] at h
          cases h
          obtain ⟨hfree, hput⟩ := FdTable.insert_spec hs hins
          exact ⟨hput.sound, hput.dup (f := id) (FdTable.getRef_eq_ok_iff_slot.mp hd) hfree
            (Nat.zero_le _)⟩

theorem sysDup3_spec {oldfd newfd flags : Nat} (hs : t.Sound)
    (h : sysDup3 t oldfd newfd flags = some (t', r)) :
    t'.Sound ∧ FdSpec t.toSlots (.dup3 oldfd newfd flags) (t'.toSlots, r) := by
  unfold sysDup3 at h
  by_cases heq : oldfd = newfd
  · rw [if_pos heq] at h
    cases h
    exact ⟨hs, .inl ⟨by decide, rfl⟩⟩
  rw [if_neg heq] at h
  cases hflags : dup3IsCloexec flags with
  | none =>
      rw [hflags] at h
      cases h
      exact ⟨hs, .inl ⟨by decide, rfl⟩⟩
  | some _ =>
      simp only [hflags] at h
      cases hd : t.getRef oldfd with
      | error e =>
          rw [hd] at h
          obtain ⟨rfl, -⟩ := FdTable.getRef_eq_error hd
          obtain ⟨rfl, rfl⟩ := FdTable.returnError_errno h
          exact ⟨hs, .inl ⟨by decide, rfl⟩⟩
      | ok d =>
          simp only [hd] at h
          cases hins : t.insertAt (d.setCloexec false) newfd with
          | error e =>
              rw [hins, FdTable.returnSlot, FdTable.insertAt_eq_error hins] at h
              obtain ⟨rfl, rfl⟩ := FdTable.returnError_errno h
              exact ⟨hs, .inl ⟨by decide, rfl⟩⟩
          | ok res =>
              rw [hins] at h
              cases h
              obtain ⟨rfl, hput⟩ := FdTable.insertAt_spec hs hins
              exact ⟨hput.sound, .inr ⟨d, heq, by simp [hflags],
                FdTable.getRef_eq_ok_iff_slot.mp hd, hput.lt_softLimit, rfl, hput.toSlots⟩⟩

theorem insertResult_spec {fd arg : Nat} {d : Descriptor F} {f : Descriptor F → Descriptor F}
    (hs : t.Sound) (hd : t.slot fd = some d)
    (hguard : t.isVacant arg = true ∨ t.recycled.find? (arg < ·.toNat) = none)
    (h : t.insertResult (f d) arg = some (t', r)) :
    t'.Sound ∧ t.toSlots.Dup fd arg f t'.toSlots r := by
  unfold FdTable.insertResult at h
  cases hins : t.tryInsertAt (f d) arg with
  | error e =>
      rw [hins, FdTable.tryInsertAt_eq_error hs hins] at h
      obtain ⟨rfl, rfl⟩ := FdTable.returnError_errno h
      exact ⟨hs, FdSlots.dup_of_neg (by decide)⟩
  | ok res =>
      rw [hins] at h
      cases h
      obtain ⟨hlower, hfree, hput⟩ := FdTable.tryInsertAt_spec hs hguard hins
      exact ⟨hput.sound, hput.dup hd hfree hlower⟩

theorem sysFcntl_spec {fd cmd arg : Nat} (hs : t.Sound) (hadm : allowed t (.fcntl fd cmd arg) = true)
    (h : sysFcntl t fd cmd arg = some (t', r)) :
    t'.Sound ∧ FdSpec t.toSlots (.fcntl fd cmd arg) (t'.toSlots, r) := by
  unfold sysFcntl at h
  simp only [FdSpec]
  cases hd : t.getRef fd with
  | error e =>
      obtain ⟨rfl, hslot⟩ := FdTable.getRef_eq_error hd
      cases hcmd : FcntlCommand.fromPrimitive cmd <;> simp only [hcmd, hd] at h ⊢
      case other =>
        cases h
        exact ⟨hs, rfl, rfl⟩
      all_goals
        obtain ⟨rfl, rfl⟩ := FdTable.returnError_errno h
        first
          | exact ⟨hs, FdSlots.dup_of_neg (by decide)⟩
          | exact ⟨hs, by simp [FdTable.toSlots, hslot]⟩
  | ok d =>
      have hslot := FdTable.getRef_eq_ok_iff_slot.mp hd
      cases hcmd : FcntlCommand.fromPrimitive cmd <;> simp only [hcmd, hd] at h ⊢
      case dupfd =>
        exact insertResult_spec (f := id) hs hslot (by simpa [allowed, hcmd] using hadm) h
      case dupfdCloexec =>
        exact insertResult_spec hs hslot (by simpa [allowed, hcmd] using hadm) h
      case setfd =>
        cases h
        have hlt := FdTable.lt_length_of_slot hslot
        refine ⟨hs.set hlt _ (List.Sublist.refl _) fun x hx heq => ?_, ?_⟩
        · have hvac := (hs.vacant x hx).2
          rw [heq, hslot] at hvac
          cases hvac
        · simp only [FdTable.toSlots, hslot]
          exact FdTable.toSlots_put (FdTable.slot_set hlt _ _ _ _) rfl
      all_goals
        cases h
        first
          | exact ⟨hs, rfl⟩
          | exact ⟨hs, rfl, rfl⟩

theorem sysPipe_spec {pipeRead pipeWrite : F} {out : Option (Nat × Nat)} (hs : t.Sound)
    (h : sysPipe t pipeRead pipeWrite = some (t', r, out)) :
    t'.Sound ∧ FdSpec t.toSlots (.pipe pipeRead pipeWrite) (t'.toSlots, r) := by
  unfold sysPipe at h
  cases hread : t.insert (.plain pipeRead) with
  | error e =>
      rw [hread, FdTable.insert_eq_error hs hread] at h
      cases h
      exact ⟨hs, .inl ⟨show emfile < 0 by decide, .inl rfl⟩⟩
  | ok res =>
      obtain ⟨t₁, readFd⟩ := res
      obtain ⟨hfree₁, hput₁⟩ := FdTable.insert_spec hs hread
      simp only [hread] at h
      cases hwrite : t₁.insert (.plain pipeWrite) with
      | error e =>
          rw [hwrite, FdTable.insert_eq_error hput₁.sound hwrite] at h
          cases h
          exact ⟨hput₁.sound, .inl ⟨show emfile < 0 by decide, .inr ⟨readFd, ⟨hfree₁, hput₁.lt_softLimit⟩, hput₁.toSlots⟩⟩⟩
      | ok res =>
          obtain ⟨t₂, writeFd⟩ := res
          obtain ⟨hfree₂, hput₂⟩ := FdTable.insert_spec hput₁.sound hwrite
          rw [hwrite] at h
          cases h
          refine ⟨hput₂.sound, .inr ⟨rfl, readFd, writeFd, ⟨hfree₁, hput₁.lt_softLimit⟩, ?_, ?_⟩⟩
          · rw [← hput₁.toSlots]
            exact ⟨hfree₂, hput₂.lt_softLimit⟩
          · rw [hput₂.toSlots, hput₁.toSlots]

theorem sysPrlimit_spec {resource : Nat} {newLimit : Option (Nat × Nat)} (hs : t.Sound)
    (hadm : allowed t (.prlimit resource newLimit) = true)
    (h : sysPrlimit t resource newLimit = some (t', r)) :
    t'.Sound ∧ FdSpec t.toSlots (.prlimit resource newLimit) (t'.toSlots, r) := by
  unfold sysPrlimit at h
  simp only [FdSpec]
  cases newLimit with
  | none =>
      cases h
      exact ⟨hs, rfl, rfl⟩
  | some limits =>
      obtain ⟨cur, max⟩ := limits
      simp only at h ⊢
      by_cases hnofile : resource = resourceNofile
      · rw [if_pos hnofile] at h ⊢
        cases h
        have hcur : cur ≤ FdTable.systemFdLimit := by
          simp only [allowed, hnofile] at hadm
          simpa [resourceNofile, resourceStack] using hadm
        refine ⟨(hs.setSoftLimit hcur).setHardLimit max, rfl, ?_⟩
        have hlimit : ((t.setSoftLimit cur).setHardLimit max).softLimit = cur := by
          simp [FdTable.setHardLimit, FdTable.softLimit_truncateTo, FdTable.setSoftLimit]
        have hslots : ((t.setSoftLimit cur).setHardLimit max).slot =
            fun i => if i < cur ∧ i < max then t.slot i else none := by
          funext i
          rw [FdTable.slot_setHardLimit, FdTable.slot_setSoftLimit]
          by_cases hc : i < cur <;> by_cases hm : i < max <;> simp [hc, hm]
        show FdTable.toSlots _ = _
        simp only [FdTable.toSlots, hlimit, hslots]
      · rw [if_neg hnofile] at h ⊢
        split_ifs at h
        cases h
        exact ⟨hs, rfl, rfl⟩

theorem fdCall_spec {call : FdCall F} (hs : t.Sound) (hadm : allowed t call = true)
    (h : fdCall t call = some (t', r)) : t'.Sound ∧ FdSpec t.toSlots call (t'.toSlots, r) := by
  cases call with
  | close fd => exact sysClose_spec hs h
  | dup oldfd => exact sysDup_spec hs h
  | dup3 oldfd newfd flags => exact sysDup3_spec hs h
  | fcntl fd cmd arg => exact sysFcntl_spec hs hadm h
  | pipe pipeRead pipeWrite =>
      obtain ⟨⟨t₁, r₁, out⟩, hpipe, heq⟩ := Option.map_eq_some_iff.mp h
      cases heq
      exact sysPipe_spec hs hpipe
  | prlimit resource newLimit => exact sysPrlimit_spec hs hadm h

theorem returnSlot_isSome {res : Except FdError (FdTable (Descriptor F) × Nat)}
    (h : ∀ e, res = .error e → e = .errno emfile) : (t.returnSlot res).isSome := by
  cases res with
  | ok _ => rfl
  | error e =>
      rw [h e rfl]
      rfl

theorem getRef_bind_isSome {fd : Nat} {k : Descriptor F → Option (FdTable (Descriptor F) × Int)}
    (hk : ∀ d, (k d).isSome) :
    (match t.getRef fd with
      | .ok d => k d
      | .error e => t.returnError e).isSome := by
  cases hd : t.getRef fd with
  | ok d => exact hk d
  | error e =>
      rw [(FdTable.getRef_eq_error hd).1]
      rfl

theorem fdCall_isSome {call : FdCall F} (hs : t.Sound) (hadm : allowed t call = true) :
    (fdCall t call).isSome := by
  cases call with
  | close fd =>
      show (sysClose t fd).isSome
      unfold sysClose
      cases hrm : t.remove fd with
      | ok _ => rfl
      | error e =>
          rw [(FdTable.remove_eq_error hrm).1]
          rfl
  | dup oldfd =>
      exact getRef_bind_isSome fun d => returnSlot_isSome fun e he => FdTable.insert_eq_error hs he
  | dup3 oldfd newfd flags =>
      show (sysDup3 t oldfd newfd flags).isSome
      unfold sysDup3
      split_ifs
      · rfl
      · cases dup3IsCloexec flags with
        | none => rfl
        | some _ =>
            exact getRef_bind_isSome fun d => returnSlot_isSome fun e he => FdTable.insertAt_eq_error he
  | fcntl fd cmd arg =>
      show (sysFcntl t fd cmd arg).isSome
      unfold sysFcntl
      have hinsert : ∀ d : Descriptor F, (t.insertResult d arg).isSome := fun d =>
        @returnSlot_isSome F t (t.tryInsertAt d arg) fun e he => FdTable.tryInsertAt_eq_error hs he
      cases FcntlCommand.fromPrimitive cmd
      case other => rfl
      all_goals exact getRef_bind_isSome fun d => by first | exact hinsert _ | rfl
  | pipe pipeRead pipeWrite =>
      show ((sysPipe t pipeRead pipeWrite).map _).isSome
      rw [Option.isSome_map]
      unfold sysPipe
      cases hread : t.insert (.plain pipeRead) with
      | error e =>
          rw [FdTable.insert_eq_error hs hread]
          rfl
      | ok res =>
          obtain ⟨t₁, readFd⟩ := res
          have hs₁ := (FdTable.insert_spec hs hread).2.sound
          simp only
          cases hwrite : t₁.insert (.plain pipeWrite) with
          | error e =>
              rw [FdTable.insert_eq_error hs₁ hwrite]
              rfl
          | ok _ => rfl
  | prlimit resource newLimit =>
      show (sysPrlimit t resource newLimit).isSome
      unfold sysPrlimit
      cases newLimit with
      | none => rfl
      | some limits =>
          obtain ⟨cur, max⟩ := limits
          simp only [allowed, Bool.or_eq_true, Bool.and_eq_true, beq_iff_eq] at hadm
          split_ifs with hnofile hstack
          · rfl
          · rfl
          · exact absurd hadm (by simp [hnofile, hstack])

end Calls

/-! ## Runs of calls -/

/-- The abstract step: what `FdSpec` allows, whatever the last call returned. -/
def FdSpecStep (a : FdSlots (Descriptor F) × Int) (call : FdCall F)
    (b : FdSlots (Descriptor F) × Int) : Prop :=
  FdSpec a.1 call b

/-- From a sound table, every run of admitted calls is a run of the code that
    keeps the table sound, refines `FdSpec` call by call, and can go on with
    any admitted call: no call panics. -/
theorem fd_calls_refine_fdSpec {s₀ : FdTable (Descriptor F) × Int} (hs₀ : s₀.1.Sound) :
    ∀ (calls : List (FdCall F)) (s : FdTable (Descriptor F) × Int),
      StepRun.exec (StepRun.guard (fun s => allowed s.1) fdStep) s₀ calls = some s →
      StepRun.exec fdStep s₀ calls = some s ∧ s.1.Sound ∧
        StepRun.Steps FdSpecStep (s₀.1.toSlots, s₀.2) calls (s.1.toSlots, s.2) ∧
        ∀ call, allowed s.1 call = true → (fdStep s call).isSome := by
  intro calls s hrun
  have hstep : ∀ (a : FdTable (Descriptor F) × Int) call next, a.1.Sound →
      StepRun.guard (fun s => allowed s.1) fdStep a call = some next →
      next.1.Sound ∧ FdSpec a.1.toSlots call (next.1.toSlots, next.2) := by
    intro a call next ha hguard
    obtain ⟨hadm, hcall⟩ := StepRun.guard_eq_some.mp hguard
    exact fdCall_spec ha hadm hcall
  have hsound : s.1.Sound :=
    StepRun.exec_invariant _ (fun a call next ha h => (hstep a call next ha h).1) calls hs₀ hrun
  refine ⟨StepRun.exec_of_exec_guard calls hrun, hsound, ?_, fun call hadm => fdCall_isSome hsound hadm⟩
  exact @StepRun.exec_refines _ _ _ (StepRun.guard (fun s => allowed s.1) fdStep) FdSpecStep
    (fun s => (s.1.toSlots, s.2)) (fun s => s.1.Sound)
    (fun a call next ha h => (hstep a call next ha h).1)
    (fun a call next ha h => (hstep a call next ha h).2) s₀ s calls hs₀ hrun

/-- A shell's start: `dup(1)`, `close(0)`, a pipe, `F_DUPFD_CLOEXEC` of 1,
    `dup3(3, 10, O_CLOEXEC)` and `prlimit(RLIMIT_NOFILE, 64, 64)`. -/
def shellCalls : List (FdCall Nat) :=
  [.dup 1, .close 0, .pipe 5 6, .fcntl 1 1030 0, .dup3 3 10 0o2000000, .prlimit 7 (some (64, 64))]

/-- The table of `ProcessControlBlock::new`, its files named 0, 1 and 2. -/
def initialFds : FdTable (Descriptor Nat) :=
  .initial (.plain 0) (.plain 1) (.plain 2)

theorem fd_calls_of_shell :
    ∃ s, StepRun.exec (StepRun.guard (fun s => allowed s.1) fdStep) (initialFds, 0) shellCalls = some s ∧
      (StepRun.exec fdStep (initialFds, 0) shellCalls = some s ∧ s.1.Sound ∧
        StepRun.Steps FdSpecStep (initialFds.toSlots, 0) shellCalls (s.1.toSlots, s.2) ∧
        ∀ call, allowed s.1 call = true → (fdStep s call).isSome) :=
  ⟨_, rfl, fd_calls_refine_fdSpec (FdTable.sound_initial _ _ _) _ _ rfl⟩

/-! ## Where the calls leave their specification -/

example : dup3IsCloexec 0o2000000 = some true := by decide
example : dup3IsCloexec 0 = some false := by decide
example : dup3IsCloexec 0o2000001 = none := by decide

/-- `dup` copies the descriptor with its close-on-exec flag, and `dup3` with
    `O_CLOEXEC` clears it; POSIX has the copy of `dup` without the flag and the
    copy of `dup3` with it. -/
theorem dup_keeps_cloexec_and_dup3_clears_it {t : FdTable (Descriptor F)} {oldfd newfd : Nat}
    {d : Descriptor F} (hs : t.Sound) (hd : t.slot oldfd = some d) (hne : oldfd ≠ newfd)
    (hnew : newfd < t.softLimit) :
    (∀ t' r, sysDup t oldfd = some (t', r) → 0 ≤ r → t'.slot r.toNat = some d) ∧
      ∃ t' : FdTable (Descriptor F), sysDup3 t oldfd newfd OpenFlags.oCloexec.bits =
        some (t', (newfd : Int)) ∧ t'.slot newfd = some (d.setCloexec false) := by
  refine ⟨fun t' r hdup hr => ?_, ?_⟩
  · rcases (sysDup_spec hs hdup).2 with ⟨hneg, -⟩ | ⟨d', hd', -, -, -, hview⟩
    · omega
    · obtain rfl : d' = d := Option.some.inj (hd'.symm.trans hd)
      have := congrArg (fun m => m.slots r.toNat) hview
      simpa [FdTable.toSlots, FdSlots.put] using this
  · obtain ⟨t', hins⟩ := FdTable.insertAt_eq_ok_of_lt (d := d.setCloexec false) hnew
    have hput := (FdTable.insertAt_spec hs hins).2
    refine ⟨t', ?_, by simp [hput.slot_eq]⟩
    have hflags : dup3IsCloexec OpenFlags.oCloexec.bits = some true := by decide
    have hget : t.getRef oldfd = .ok d := FdTable.getRef_eq_ok_iff_slot.mpr hd
    simp [sysDup3, hne, hflags, hget, hins, FdTable.returnSlot]

/-- Slot 1 of the table of `ProcessControlBlock::new` with `cloexec` set. -/
def cloexecFds : FdTable (Descriptor Nat) :=
  .initial (.plain 0) ⟨true, false, 1⟩ (.plain 2)

example : ∃ t' : FdTable (Descriptor Nat), sysDup3 cloexecFds 1 5 OpenFlags.oCloexec.bits = some (t', 5) ∧
    t'.slot 5 = some ⟨false, false, 1⟩ :=
  (dup_keeps_cloexec_and_dup3_clears_it (FdTable.sound_initial _ _ _)
    (show cloexecFds.slot 1 = some ⟨true, false, 1⟩ from rfl) (show 1 ≠ 5 by decide)
    (show 5 < cloexecFds.softLimit by decide)).2

/-- A `pipe` that finds one free slot puts the read end in it and then fails
    with `EMFILE`: the call reports an error and leaves an open descriptor the
    caller was never told of. -/
theorem pipe_leaves_read_end_on_emfile {t : FdTable (Descriptor F)} (hrec : t.recycled = [])
    (hroom : t.inner.length + 1 = t.softLimit) (pipeRead pipeWrite : F) :
    t.slot t.inner.length = none ∧
      ∃ t', sysPipe t pipeRead pipeWrite = some (t', emfile, none) ∧
        t'.slot t.inner.length = some (.plain pipeRead) := by
  refine ⟨FdTable.slot_eq_none_of_le le_rfl,
    ⟨t.inner ++ [some (.plain pipeRead)], t.recycled, t.softLimit, t.hardLimit⟩, ?_, ?_⟩
  · have hfirst : t.insert (.plain pipeRead) =
        .ok (⟨t.inner ++ [some (.plain pipeRead)], t.recycled, t.softLimit, t.hardLimit⟩,
          t.inner.length) := by
      simp [FdTable.insert, hrec, show t.inner.length ≠ t.softLimit by omega]
    have hsecond : FdTable.insert ⟨t.inner ++ [some (.plain pipeRead)], t.recycled, t.softLimit,
        t.hardLimit⟩ (.plain pipeWrite) = .error (.errno emfile) := by
      simp [FdTable.insert, hrec, hroom]
    simp [sysPipe, hfirst, hsecond, FdTable.returnError]
  · simp [FdTable.slot]

/-- The table after `prlimit(RLIMIT_NOFILE, 4, 256)`: room for one more slot. -/
def fourSlotFds : FdTable (Descriptor Nat) :=
  (initialFds.setSoftLimit 4).setHardLimit 256

example : sysPrlimit initialFds resourceNofile (some (4, 256)) = some (fourSlotFds, success) ∧
    ∃ t', sysPipe fourSlotFds 5 6 = some (t', emfile, none) ∧ t'.slot 3 = some (.plain 5) :=
  ⟨rfl, (pipe_leaves_read_end_on_emfile rfl rfl 5 6).2⟩

theorem sysDup_append {t : FdTable (Descriptor F)} {fd : Nat} {d : Descriptor F}
    (hrec : t.recycled = []) (hd : t.slot fd = some d) (hlt : t.inner.length < t.softLimit) :
    sysDup t fd =
      some (FdTable.mk (t.inner ++ [some d]) [] t.softLimit t.hardLimit, (t.inner.length : Int)) := by
  have hget := FdTable.getRef_eq_ok_iff_slot.mpr hd
  simp [sysDup, hget, FdTable.insert, hrec, Nat.ne_of_lt hlt, FdTable.returnSlot]

theorem exec_dups {fd : Nat} {d : Descriptor F} (k : Nat) :
    ∀ {t : FdTable (Descriptor F)} (r : Int), t.recycled = [] → t.slot fd = some d →
      t.inner.length + k ≤ t.softLimit →
      ∃ r', StepRun.exec fdStep (t, r) (List.replicate k (.dup fd)) =
        some (⟨t.inner ++ List.replicate k (some d), [], t.softLimit, t.hardLimit⟩, r') := by
  induction k with
  | zero =>
      intro t r hrec _ _
      exact ⟨r, by cases t; simp_all⟩
  | succ k ih =>
      intro t r hrec hd hk
      have hdup := sysDup_append hrec hd (by omega)
      have hd₁ : FdTable.slot ⟨t.inner ++ [some d], [], t.softLimit, t.hardLimit⟩ fd = some d := by
        have hlt := FdTable.lt_length_of_slot hd
        simpa [FdTable.slot, List.getElem?_append_left hlt] using hd
      obtain ⟨r', hrun⟩ := ih (t := ⟨t.inner ++ [some d], [], t.softLimit, t.hardLimit⟩)
        t.inner.length rfl hd₁ (by simp; omega)
      refine ⟨r', ?_⟩
      rw [List.replicate_succ, StepRun.exec_cons]
      simp only [fdStep, fdCall, hdup, Option.bind_some]
      rw [hrun]
      simp [List.replicate_succ]

/-- `remove` keeps a slot number as a `u8`, so past 256 slots `close(256)`
    records slot 0: the next `dup` returns 0, which still holds its descriptor,
    and replaces it. -/
theorem close_256_makes_dup_overwrite_slot_zero {t : FdTable (Descriptor F)} {fd : Nat}
    {d : Descriptor F} (hrec : t.recycled = []) (h256 : t.slot 256 ≠ none)
    (hd : t.slot fd = some d) (hne : fd ≠ 256) :
    ∃ t₁ t₂, sysClose t 256 = some (t₁, success) ∧ t₁.slot 0 = t.slot 0 ∧
      sysDup t₁ fd = some (t₂, 0) ∧ t₂.slot 0 = some d ∧ t₂.slot 256 = none := by
  obtain ⟨e, he⟩ := Option.ne_none_iff_exists'.mp h256
  have hlen := FdTable.lt_length_of_slot he
  let t₁ : FdTable (Descriptor F) := ⟨t.inner.set 256 none, [UInt8.ofNat 256], t.softLimit, t.hardLimit⟩
  have hrm : t.remove 256 = .ok (t₁, e) := by
    unfold FdTable.remove
    rw [if_neg (by omega)]
    have hget : t.inner.getD 256 none = some e := he
    rw [hget]
    simp only [hrec, List.nil_append]
    rfl
  have hslot₁ : t₁.slot = Function.update t.slot 256 none := FdTable.slot_set hlen none _ _ _
  have hd₁ : t₁.slot fd = some d := by rw [hslot₁, Function.update_of_ne hne, hd]
  -- `256 as u8` is 0, the top of the stack
  have hwrap : (UInt8.ofNat 256).toNat = 0 := by decide
  have hlen₁ : 0 < t₁.inner.length := by simp [t₁]; omega
  let t₂ : FdTable (Descriptor F) := ⟨t₁.inner.set 0 (some d), [], t.softLimit, t.hardLimit⟩
  have hins : t₁.insert d = .ok (t₂, 0) := by
    have hne : t.inner ≠ [] := List.ne_nil_of_length_pos (by omega)
    simp [FdTable.insert, t₁, t₂, hne]
  have hslot₂ : t₂.slot = Function.update t₁.slot 0 (some d) := FdTable.slot_set hlen₁ _ _ _ _
  refine ⟨t₁, t₂, by simp [sysClose, hrm], ?_, ?_, by simp [hslot₂], ?_⟩
  · rw [hslot₁, Function.update_of_ne (by decide)]
  · simp [sysDup, FdTable.getRef_eq_ok_iff_slot.mpr hd₁, hins, FdTable.returnSlot]
  · rw [hslot₂, Function.update_of_ne (by decide), hslot₁]
    simp

/-- The table after `prlimit(RLIMIT_NOFILE, 300, 300)` and 254 calls of `dup(1)`
    from the table of `ProcessControlBlock::new`. -/
def wideFds : FdTable (Descriptor Nat) :=
  ⟨initialFds.inner ++ List.replicate 254 (some (.plain 1)), [], 300, 300⟩

theorem wideFds_reachable :
    ∃ r, StepRun.exec fdStep (initialFds, 0)
      (.prlimit resourceNofile (some (300, 300)) :: List.replicate 254 (.dup 1)) = some (wideFds, r) := by
  have hlimit : fdStep (initialFds, 0) (.prlimit resourceNofile (some (300, 300))) =
      some (⟨initialFds.inner, [], 300, 300⟩, success) := rfl
  obtain ⟨r, hrun⟩ := @exec_dups Nat 1 (.plain 1) 254 ⟨initialFds.inner, [], 300, 300⟩ success rfl rfl
    (by decide)
  exact ⟨r, by rw [StepRun.exec_cons, hlimit, Option.bind_some, hrun]; rfl⟩

theorem close_256_in_wide_table :
    (∃ r, StepRun.exec fdStep (initialFds, 0)
      (.prlimit resourceNofile (some (300, 300)) :: List.replicate 254 (.dup 1)) = some (wideFds, r)) ∧
    wideFds.recycled = [] ∧ wideFds.slot 256 ≠ none ∧ wideFds.slot 1 = some (.plain 1) ∧ 1 ≠ 256 ∧
      ∃ t₁ t₂, sysClose wideFds 256 = some (t₁, success) ∧ t₁.slot 0 = wideFds.slot 0 ∧
        sysDup t₁ 1 = some (t₂, 0) ∧ t₂.slot 0 = some (.plain 1) ∧ t₂.slot 256 = none :=
  ⟨wideFds_reachable, rfl, by decide, rfl, by decide,
    close_256_makes_dup_overwrite_slot_zero rfl (by decide) rfl (by decide)⟩

end OsKernel.Fs

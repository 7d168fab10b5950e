import OsKernel.Fs.FdTable
import OsKernel.Mm.MemorySet
import OsKernel.Task.Timer
import OsKernel.Lib.StateLoop

/-! # pselect

`FdSet` and `pselect` of `syscall/ppoll.rs`, and `sys_pselect` of
`syscall/fs.rs`.  An `FdSet` is sixteen `u64` words; descriptor `d` is bit
`d & 0x3F` of word `d >> 6`, and a word index past the sixteenth is a Rust
index out of range, a panic here.  `pselect` counts in rounds the set
descriptors below `nfds` that are open and ready, until a round counts one or
the deadline has passed, and then clears from the read and write sets the open
descriptors that are not ready.  A round sees the descriptor table it locks
and the `TimeSpec::now()` its timeout test reads.  The copies between user and
kernel memory (`translated_ref`) are left out: `sys_pselect` gets the sets as
read.
-/

namespace OsKernel.Fs

open Timer StateLoop

/-- `FdSet`: `bits : [u64; 16]`. -/
structure FdSet where
  bits : List Nat
  length_bits : bits.length = 16
  lt_bits : ∀ w ∈ bits, w < 2 ^ 64

namespace FdSet

/-- `FdSet::empty`. -/
def empty : FdSet :=
  ⟨List.replicate 16 0, List.length_replicate, fun w hw => by
    rw [List.eq_of_mem_replicate hw]
    exact Nat.two_pow_pos 64⟩

/-- `fd_elt`: the word that holds descriptor `d`. -/
def fdElt (d : Nat) : Nat := d >>> 6

/-- `fd_mask`: the bit of descriptor `d` in its word. -/
def fdMask (d : Nat) : Nat := 1 <<< (d &&& 0x3F)

/-- `is_set`: `fd_mask(d) & bits[fd_elt(d)] != 0`, which panics past the last word. -/
def isSet (s : FdSet) (d : Nat) : Option Bool :=
  s.bits[fdElt d]?.map fun w => fdMask d &&& w != 0

/-- Word `i` replaced by `w`. -/
def setWord (s : FdSet) (i w : Nat) (hw : w < 2 ^ 64) : FdSet :=
  ⟨s.bits.set i w, by rw [List.length_set, s.length_bits], fun x hx => by
    rcases List.mem_or_eq_of_mem_set hx with hx | rfl
    · exact s.lt_bits x hx
    · exact hw⟩

/-- `clr`: `bits[fd_elt(d)] &= !fd_mask(d)`, the `u64` negation being the
    `xor` with `2^64 - 1`. -/
def clr (s : FdSet) (d : Nat) : Option FdSet :=
  match h : s.bits[fdElt d]? with
  | some w => some (s.setWord (fdElt d) (w &&& (fdMask d ^^^ (2 ^ 64 - 1)))
      (lt_of_le_of_lt Nat.and_le_left (s.lt_bits w (List.mem_of_getElem? h))))
  | none => none

/-! ### The bit view -/

/-- Descriptor `i` is in the set: bit `i % 64` of word `i / 64`, and no
    descriptor past the last word. -/
def bit (s : FdSet) (i : Nat) : Bool :=
  (s.bits.getD (i / 64) 0).testBit (i % 64)

theorem fdElt_eq (d : Nat) : fdElt d = d / 64 := by
  rw [fdElt, Nat.shiftRight_eq_div_pow]

theorem fdMask_eq (d : Nat) : fdMask d = 2 ^ (d % 64) := by
  rw [fdMask, Nat.one_shiftLeft, show (0x3F : Nat) = 2 ^ 6 - 1 from rfl,
    Nat.and_two_pow_sub_one_eq_mod]

theorem getElem?_bits_of_lt (s : FdSet) {i : Nat} (h : i < 16) :
    s.bits[i]? = some (s.bits.getD i 0) := by
  rw [List.getD_eq_getElem?_getD, List.getElem?_eq_getElem (by rw [s.length_bits]; exact h)]
  rfl

theorem isSet_of_lt (s : FdSet) {d : Nat} (h : d < 1024) : s.isSet d = some (s.bit d) := by
  have hword : d / 64 < 16 := by omega
  rw [isSet, fdElt_eq, getElem?_bits_of_lt s hword, Option.map_some, fdMask_eq, Nat.land_comm,
    Nat.and_two_pow, bit]
  cases (s.bits.getD (d / 64) 0).testBit (d % 64) <;> simp

theorem isSet_of_ge (s : FdSet) {d : Nat} (h : 1024 ≤ d) : s.isSet d = none := by
  rw [isSet, fdElt_eq, List.getElem?_eq_none (by rw [s.length_bits]; omega), Option.map_none]

theorem testBit_clearMask (w k j : Nat) (hk : k < 64) (hj : j < 64) :
    (w &&& (2 ^ k ^^^ (2 ^ 64 - 1))).testBit j = (w.testBit j && j != k) := by
  rw [Nat.testBit_and, Nat.testBit_xor, Nat.testBit_two_pow, Nat.testBit_two_pow_sub_one]
  by_cases hjk : j = k
  · subst hjk
    simp [hj]
  · simp [hj, hjk, Ne.symm hjk]

theorem bit_setWord (s : FdSet) {i w : Nat} (hw : w < 2 ^ 64) (hi : i < 16) (j : Nat) :
    (s.setWord i w hw).bit j = if j / 64 = i then w.testBit (j % 64) else s.bit j := by
  simp only [bit, setWord, List.getD_eq_getElem?_getD, List.getElem?_set, s.length_bits, if_pos hi]
  by_cases hij : i = j / 64
  · subst hij
    simp
  · simp [hij, Ne.symm hij]

theorem clr_of_lt (s : FdSet) {d : Nat} (h : d < 1024) :
    ∃ s', s.clr d = some s' ∧ ∀ j, s'.bit j = (s.bit j && j != d) := by
  have hword : fdElt d < 16 := by
    rw [fdElt_eq]
    omega
  have hget : s.bits[fdElt d]? = some (s.bits.getD (d / 64) 0) := by
    rw [fdElt_eq]
    exact getElem?_bits_of_lt s (by omega)
  unfold clr
  split
  next w hw =>
    have hword_eq : w = s.bits.getD (d / 64) 0 := Option.some.inj (hw.symm.trans hget)
    refine ⟨_, rfl, fun j => ?_⟩
    rw [bit_setWord _ _ hword, fdElt_eq, fdMask_eq]
    by_cases hj : j / 64 = d / 64
    · have hmod : (j % 64 != d % 64) = (j != d) := by
        rw [Bool.eq_iff_iff, bne_iff_ne, bne_iff_ne]
        omega
      rw [if_pos hj, testBit_clearMask _ _ _ (Nat.mod_lt _ (by decide)) (Nat.mod_lt _ (by decide)),
        hword_eq, bit, hj, hmod]
    · have hne : j ≠ d := by
        rintro rfl
        exact hj rfl
      simp [hj, hne]
  next hnone => simp [hget] at hnone

end FdSet

/-! ### The passes over a set -/

section Passes

variable {α : Type} (t : FdTable α) (ready : α → Bool)

/-- `if let Ok(fd) = fd_table.get_ref(i) { if fd.r_ready() .. }`: descriptor `i`
    is open and `ready`. -/
def readyAt (i : Nat) : Bool :=
  match t.getRef i with
  | .ok fd => ready fd
  | .error _ => false

/-- The test of the final pass, `if !fd.r_ready()`: `i` is open and not `ready`. -/
def notReadyAt (i : Nat) : Bool :=
  match t.getRef i with
  | .ok fd => !ready fd
  | .error _ => false

/-- One iteration of a round's `for i in 0..nfds`: a set, open and ready
    descriptor adds one to `done`. -/
def countStep (s : FdSet) (done i : Nat) : Option Nat := do
  let set ← s.isSet i
  pure (if set && readyAt t ready i then done + 1 else done)

/-- A round's pass over one set, from the count `done` so far. -/
def countReady (nfds : Nat) (s : FdSet) (done : Nat) : Option Nat :=
  (List.range nfds).foldlM (countStep t ready s) done

/-- One iteration of the final pass: a set, open descriptor that is not ready
    is cleared. -/
def clearStep (s : FdSet) (i : Nat) : Option FdSet := do
  let set ← s.isSet i
  if set && notReadyAt t ready i then s.clr i else pure s

/-- The final pass over one set. -/
def clearNotReady (nfds : Nat) (s : FdSet) : Option FdSet :=
  (List.range nfds).foldlM (clearStep t ready) s

/-- The descriptors below `nfds` that a round counts in `s`. -/
def readyBits (nfds : Nat) (s : FdSet) : Nat :=
  ((List.range nfds).filter fun i => s.bit i && readyAt t ready i).length

theorem countStep_of_lt (s : FdSet) (done : Nat) {i : Nat} (hi : i < 1024) :
    countStep t ready s done i = some (if s.bit i && readyAt t ready i then done + 1 else done) := by
  rw [countStep, FdSet.isSet_of_lt s hi]
  rfl

theorem readyBits_succ (s : FdSet) (n : Nat) :
    readyBits t ready (n + 1) s =
      readyBits t ready n s + if s.bit n && readyAt t ready n then 1 else 0 := by
  rw [readyBits, List.range_succ, List.filter_append, List.length_append, ← readyBits]
  by_cases hn : s.bit n && readyAt t ready n
  · simp [hn]
  · simp [hn]

theorem countReady_eq (s : FdSet) (done : Nat) {nfds : Nat} (hn : nfds ≤ 1024) :
    countReady t ready nfds s done = some (done + readyBits t ready nfds s) := by
  induction nfds with
  | zero => rfl
  | succ n ih =>
      rw [countReady, foldlM_range_succ, ← countReady, ih (by omega), Option.bind_eq_bind,
        Option.bind_some, countStep_of_lt t ready s _ (by omega), readyBits_succ]
      by_cases hn : s.bit n && readyAt t ready n
      · simp [hn, Nat.add_assoc]
      · simp [hn]

theorem countReady_eq_none (s : FdSet) (done : Nat) {nfds : Nat} (hn : 1024 < nfds) :
    countReady t ready nfds s done = none := by
  have hstep : ∀ d, countStep t ready s d 1024 = none := fun d => by
    rw [countStep, FdSet.isSet_of_ge s (le_refl _)]
    rfl
  exact option_foldlM_eq_none_of_mem (List.mem_range.mpr hn) hstep done

theorem clearNotReady_eq (s : FdSet) {nfds : Nat} (hn : nfds ≤ 1024) :
    ∃ s', clearNotReady t ready nfds s = some s' ∧
      ∀ j, s'.bit j = (s.bit j && !(decide (j < nfds) && notReadyAt t ready j)) := by
  induction nfds with
  | zero => exact ⟨s, rfl, fun j => by simp⟩
  | succ n ih =>
      obtain ⟨s₁, hs₁, hbits₁⟩ := ih (by omega)
      rw [clearNotReady, foldlM_range_succ, ← clearNotReady, hs₁, Option.bind_eq_bind,
        Option.bind_some, clearStep, FdSet.isSet_of_lt s₁ (by omega), Option.bind_eq_bind,
        Option.bind_some]
      have hpast : ∀ j, j ≠ n → (s.bit j && !(decide (j < n + 1) && notReadyAt t ready j)) =
          (s.bit j && !(decide (j < n) && notReadyAt t ready j)) := fun j hj => by
        have hlt : decide (j < n + 1) = decide (j < n) := by
          rw [decide_eq_decide]
          omega
        rw [hlt]
      by_cases hclear : s₁.bit n && notReadyAt t ready n
      · obtain ⟨s₂, hs₂, hbits₂⟩ := @FdSet.clr_of_lt s₁ n (by omega)
        refine ⟨s₂, by rw [if_pos hclear, hs₂], fun j => ?_⟩
        rw [hbits₂, hbits₁]
        by_cases hj : j = n
        · subst hj
          simp_all
        · rw [hpast j hj]
          simp [hj]
      · refine ⟨s₁, by rw [if_neg hclear]; rfl, fun j => ?_⟩
        rw [hbits₁]
        by_cases hj : j = n
        · subst hj
          simp_all
        · rw [hpast j hj]

end Passes

/-! ### The rounds and the result -/

section Pselect

variable {α : Type}

/-- A round's pass over an optional set: nothing to count without a set. -/
def countOpt (t : FdTable α) (ready : α → Bool) (nfds : Nat) (fds : Option FdSet) (done : Nat) :
    Option Nat :=
  match fds with
  | some s => countReady t ready nfds s done
  | none => pure done

variable (rReady wReady : α → Bool) (nfds : Nat) (readFds writeFds : Option FdSet)

/-- One round of the loop of `pselect`: the read pass, then the write pass,
    both adding to one `done`. -/
def pollRound (t : FdTable α) : Option Nat := do
  let done ← countOpt t rReady nfds readFds 0
  countOpt t wReady nfds writeFds done

/-- The loop of `pselect` over its rounds, each the table it locks and the
    `TimeSpec::now()` its timeout test reads.  It breaks with the round's table
    and count when the round counts a ready descriptor or has reached the
    deadline; `some none` is a loop still waiting when the rounds run out. -/
def pselectLoop (deadline : Option TimeSpec) :
    List (FdTable α × TimeSpec) → Option (Option (FdTable α × Nat))
  | [] => pure none
  | (t, now) :: rounds => do
      let done ← pollRound rReady wReady nfds readFds writeFds t
      if done ≠ 0 then pure (some (t, done))
      else
        match deadline with
        | some deadline =>
            if pselectExpired deadline now then pure (some (t, done))
            else pselectLoop deadline rounds
        | none => pselectLoop deadline rounds

/-- What `pselect` leaves in its three sets, and its return value. -/
structure PselectResult where
  readFds : Option FdSet
  writeFds : Option FdSet
  exceptionFds : Option FdSet
  ret : Int

/-- The final pass of `pselect` over the table of the round that broke the
    loop (nothing runs in between to change it): clear the open descriptors
    that are not ready, and empty the exception set. -/
def pselectFinish (exceptionFds : Option FdSet) (t : FdTable α) (done : Nat) :
    Option PselectResult := do
  let readFds ← readFds.mapM (clearNotReady t rReady nfds)
  let writeFds ← writeFds.mapM (clearNotReady t wReady nfds)
  pure ⟨readFds, writeFds, exceptionFds.map fun _ => FdSet.empty, done⟩

/-- `pselect`, its deadline `*timeout + TimeSpec::now()` taken at `start`. -/
def pselect (exceptionFds : Option FdSet) (timeout : Option TimeSpec) (start : TimeSpec)
    (rounds : List (FdTable α × TimeSpec)) : Option (Option PselectResult) := do
  let deadline := timeout.map fun timeout => pselectDeadline timeout start
  match ← pselectLoop rReady wReady nfds readFds writeFds deadline rounds with
  | none => pure none
  | some (t, done) => some <$> pselectFinish rReady wReady nfds readFds writeFds exceptionFds t done

/-- `sys_pselect`: a negative `nfds as isize` is `EINVAL`, the sets untouched. -/
def sysPselect (exceptionFds : Option FdSet) (timeout : Option TimeSpec) (start : TimeSpec)
    (rounds : List (FdTable α × TimeSpec)) : Option (Option PselectResult) :=
  if Mm.toIsize nfds < 0 then pure (some ⟨readFds, writeFds, exceptionFds, Mm.einval⟩)
  else pselect rReady wReady nfds readFds writeFds exceptionFds timeout start rounds

/-! What a round counts and what the final pass leaves, over the bit view. -/

/-- The count of a round's pass over an optional set. -/
def readyCount (t : FdTable α) (ready : α → Bool) (nfds : Nat) : Option FdSet → Nat
  | some s => readyBits t ready nfds s
  | none => 0

/-- A set after the final pass: the one passed in, less the descriptors below
    `nfds` that are open and not ready. -/
def Returned (t : FdTable α) (ready : α → Bool) (nfds : Nat) : Option FdSet → Option FdSet → Prop
  | some s, r => ∃ s', r = some s' ∧
      ∀ j, s'.bit j = (s.bit j && !(decide (j < nfds) && notReadyAt t ready j))
  | none, r => r = none

theorem countOpt_eq (t : FdTable α) (ready : α → Bool) (fds : Option FdSet) (done : Nat)
    (hn : nfds ≤ 1024) : countOpt t ready nfds fds done = some (done + readyCount t ready nfds fds) := by
  cases fds with
  | some s => exact countReady_eq t ready s done hn
  | none => rfl

theorem countOpt_eq_none (t : FdTable α) (ready : α → Bool) {fds : Option FdSet} (done : Nat)
    (hn : 1024 < nfds) (hfds : fds.isSome) : countOpt t ready nfds fds done = none := by
  cases fds with
  | some s => exact countReady_eq_none t ready s done hn
  | none => cases hfds

theorem pollRound_eq (t : FdTable α) (hn : nfds ≤ 1024) :
    pollRound rReady wReady nfds readFds writeFds t =
      some (readyCount t rReady nfds readFds + readyCount t wReady nfds writeFds) := by
  rw [pollRound, countOpt_eq nfds t rReady readFds 0 hn, Option.bind_eq_bind, Option.bind_some,
    countOpt_eq nfds t wReady writeFds _ hn, Nat.zero_add]

theorem pollRound_eq_none (t : FdTable α) (hn : 1024 < nfds)
    (hfds : readFds.isSome ∨ writeFds.isSome) :
    pollRound rReady wReady nfds readFds writeFds t = none := by
  rw [pollRound, Option.bind_eq_bind]
  rcases hfds with hread | hwrite
  · rw [countOpt_eq_none nfds t rReady 0 hn hread]
    rfl
  · cases countOpt t rReady nfds readFds 0 with
    | none => rfl
    | some done => exact countOpt_eq_none nfds t wReady done hn hwrite

theorem pselectLoop_eq_none (deadline : Option TimeSpec) {rounds : List (FdTable α × TimeSpec)}
    (hround : ∀ t, pollRound rReady wReady nfds readFds writeFds t = none) (hne : rounds ≠ []) :
    pselectLoop rReady wReady nfds readFds writeFds deadline rounds = none := by
  cases rounds with
  | nil => exact absurd rfl hne
  | cons round rounds =>
      obtain ⟨t, now⟩ := round
      rw [pselectLoop, hround t]
      rfl

theorem pselectLoop_eq_some {deadline : Option TimeSpec} {rounds : List (FdTable α × TimeSpec)}
    {t : FdTable α} {done : Nat}
    (h : pselectLoop rReady wReady nfds readFds writeFds deadline rounds = some (some (t, done))) :
    (∃ now, (t, now) ∈ rounds) ∧ pollRound rReady wReady nfds readFds writeFds t = some done := by
  induction rounds with
  | nil => cases h
  | cons round rounds ih =>
      obtain ⟨t₀, now₀⟩ := round
      rw [pselectLoop] at h
      cases hround : pollRound rReady wReady nfds readFds writeFds t₀ with
      | none => simp [hround] at h
      | some done₀ =>
          rw [hround, Option.bind_eq_bind, Option.bind_some] at h
          have hnext : pselectLoop rReady wReady nfds readFds writeFds deadline rounds =
              some (some (t, done)) → (∃ now, (t, now) ∈ (t₀, now₀) :: rounds) ∧
                pollRound rReady wReady nfds readFds writeFds t = some done := fun hrest => by
            obtain ⟨⟨now, hmem⟩, hpoll⟩ := ih hrest
            exact ⟨⟨now, List.mem_cons_of_mem _ hmem⟩, hpoll⟩
          have hhere : some (t₀, done₀) = some (t, done) → (∃ now, (t, now) ∈ (t₀, now₀) :: rounds) ∧
              pollRound rReady wReady nfds readFds writeFds t = some done := fun heq => by
            obtain ⟨rfl, rfl⟩ := Prod.mk.inj (Option.some.inj heq)
            exact ⟨⟨now₀, List.mem_cons_self⟩, hround⟩
          split at h
          · exact hhere (Option.some.inj h)
          · split at h
            · split at h
              · exact hhere (Option.some.inj h)
              · exact hnext h
            · exact hnext h

theorem mapM_clearNotReady (t : FdTable α) (ready : α → Bool) (fds : Option FdSet)
    (hn : nfds ≤ 1024) :
    ∃ r, fds.mapM (clearNotReady t ready nfds) = some r ∧ Returned t ready nfds fds r := by
  cases fds with
  | some s =>
      obtain ⟨s', hs', hbits⟩ := clearNotReady_eq t ready s hn
      exact ⟨some s', by rw [Option.mapM_some, hs']; rfl, s', rfl, hbits⟩
  | none => exact ⟨none, rfl, rfl⟩

theorem pselectFinish_eq (exceptionFds : Option FdSet) (t : FdTable α) (done : Nat)
    (hn : nfds ≤ 1024) :
    ∃ res, pselectFinish rReady wReady nfds readFds writeFds exceptionFds t done = some res ∧
      res.ret = done ∧ Returned t rReady nfds readFds res.readFds ∧
      Returned t wReady nfds writeFds res.writeFds ∧
      res.exceptionFds = exceptionFds.map fun _ => FdSet.empty := by
  obtain ⟨r, hr, hread⟩ := mapM_clearNotReady nfds t rReady readFds hn
  obtain ⟨w, hw, hwrite⟩ := mapM_clearNotReady nfds t wReady writeFds hn
  refine ⟨⟨r, w, exceptionFds.map fun _ => FdSet.empty, done⟩, ?_, rfl, hread, hwrite, rfl⟩
  rw [pselectFinish, hr, Option.bind_eq_bind, Option.bind_some, hw, Option.bind_some]
  rfl

theorem sysPselect_of_lt (exceptionFds : Option FdSet) (timeout : Option TimeSpec)
    (start : TimeSpec) (rounds : List (FdTable α × TimeSpec)) (haccept : nfds < 2 ^ 63) :
    sysPselect rReady wReady nfds readFds writeFds exceptionFds timeout start rounds =
      pselect rReady wReady nfds readFds writeFds exceptionFds timeout start rounds := by
  have hpos : ¬ Mm.toIsize nfds < 0 := by
    rw [Mm.toIsize, if_pos haccept]
    omega
  rw [sysPselect, if_neg hpos]

theorem sysPselect_result (exceptionFds : Option FdSet) (timeout : Option TimeSpec)
    (start : TimeSpec) (rounds : List (FdTable α × TimeSpec)) (haccept : nfds < 2 ^ 63) :
    (1024 < nfds → (readFds.isSome ∨ writeFds.isSome) → rounds ≠ [] →
      sysPselect rReady wReady nfds readFds writeFds exceptionFds timeout start rounds = none) ∧
    (nfds ≤ 1024 → ∀ res,
      sysPselect rReady wReady nfds readFds writeFds exceptionFds timeout start rounds =
        some (some res) →
      ∃ t, (∃ now, (t, now) ∈ rounds) ∧
        res.ret = readyCount t rReady nfds readFds + readyCount t wReady nfds writeFds ∧
        Returned t rReady nfds readFds res.readFds ∧ Returned t wReady nfds writeFds res.writeFds ∧
        res.exceptionFds = exceptionFds.map fun _ => FdSet.empty) := by
  rw [sysPselect_of_lt rReady wReady nfds readFds writeFds exceptionFds timeout start rounds haccept,
    pselect]
  refine ⟨fun hn hfds hne => ?_, fun hn res h => ?_⟩
  · rw [pselectLoop_eq_none rReady wReady nfds readFds writeFds _
      (fun t => pollRound_eq_none rReady wReady nfds readFds writeFds t hn hfds) hne]
    rfl
  · cases hloop : pselectLoop rReady wReady nfds readFds writeFds
        (timeout.map fun timeout => pselectDeadline timeout start) rounds with
    | none => simp [hloop] at h
    | some broke =>
        cases broke with
        | none => simp [hloop] at h
        | some broke =>
            -- the loop broke at a round over `t`; the final pass runs over it
            obtain ⟨t, done⟩ := broke
            obtain ⟨hmem, hpoll⟩ := pselectLoop_eq_some rReady wReady nfds readFds writeFds hloop
            obtain ⟨res', hres', hret, hread, hwrite, hexc⟩ :=
              pselectFinish_eq rReady wReady nfds readFds writeFds exceptionFds t done hn
            rw [hloop, Option.bind_eq_bind, Option.bind_some] at h
            simp only [hres', Option.map_eq_map, Option.map_some, Option.some.injEq] at h
            have hres : res' = res := h
            have hdone : done = readyCount t rReady nfds readFds + readyCount t wReady nfds writeFds :=
              Option.some.inj (hpoll.symm.trans (pollRound_eq rReady wReady nfds readFds writeFds t hn))
            subst hres
            exact ⟨t, hmem, by rw [hret, hdone]; push_cast; rfl, hread, hwrite, hexc⟩

/-- Descriptors 0, 1 and 2 open, as a new process has them; 3 is past the table. -/
def stdioTable : FdTable Unit := FdTable.new [some (), some (), some ()]

/-- A set that holds descriptor 3 alone. -/
def fdThreeSet : FdSet := FdSet.empty.setWord 0 8 (by decide)

theorem sysPselect_keeps_closed_descriptor :
    sysPselect (fun _ => true) (fun _ => true) 4 (some fdThreeSet) none none (some ⟨0, 0⟩) ⟨5, 0⟩
        [(stdioTable, ⟨5, 0⟩)] = some (some ⟨some fdThreeSet, none, none, 0⟩) ∧
      fdThreeSet.bit 3 = true ∧
      readyCount stdioTable (fun _ => true) 4 (some fdThreeSet) = 0 ∧
      sysPselect (fun _ => true) (fun _ => true) 1025 (some FdSet.empty) none none none ⟨5, 0⟩
        [(stdioTable, ⟨5, 0⟩)] = none := by
  have hres : sysPselect (fun _ => true) (fun _ => true) 4 (some fdThreeSet) none none
      (some ⟨0, 0⟩) ⟨5, 0⟩ [(stdioTable, ⟨5, 0⟩)] = some (some ⟨some fdThreeSet, none, none, 0⟩) :=
    rfl
  obtain ⟨t, ⟨now, hmem⟩, hret, -⟩ :=
    (sysPselect_result (fun _ => true) (fun _ => true) 4 (some fdThreeSet) none none (some ⟨0, 0⟩)
      ⟨5, 0⟩ [(stdioTable, ⟨5, 0⟩)] (by decide)).2 (by decide) _ hres
  obtain ⟨rfl, -⟩ := Prod.mk.inj (List.mem_singleton.mp hmem)
  have hcount : readyCount stdioTable (fun _ => true) 4 (some fdThreeSet) = 0 := by
    have h0 : (0 : Int) = readyCount stdioTable (fun _ => true) 4 (some fdThreeSet) + 0 := hret
    omega
  refine ⟨hres, by decide, hcount, ?_⟩
  exact (sysPselect_result (fun _ => true) (fun _ => true) 1025 (some FdSet.empty) none none none
    ⟨5, 0⟩ [(stdioTable, ⟨5, 0⟩)] (by decide)).1 (by decide) (Or.inl rfl) (List.cons_ne_nil _ _)

end Pselect

end OsKernel.Fs

import Mathlib

/-! # The file-descriptor table

`FdTable` of `fs/mod.rs`: the descriptor slots `inner`, the stack `recycled`
of slots that `remove` freed or that `insert_at` and `try_insert_at` skipped,
stored as `u8`, and the two limits set by `prlimit`.  Descriptors are opaque
here, so the table is generic in their type.  A failed operation returns its
errno and leaves the table as it was; an index out of range is a panic.
-/

namespace OsKernel.Fs

/-- `EBADF`. -/
def ebadf : Int := -9

/-- `EMFILE`. -/
def emfile : Int := -24

/-- How a table operation can fail. -/
inductive FdError where
  /-- `Err(errno)`, with the table unchanged. -/
  | errno (code : Int)
  /-- A Rust index out of range. -/
  | panic
  deriving DecidableEq, Repr

/-- `FdTable`. -/
structure FdTable (α : Type) where
  inner : List (Option α)
  recycled : List UInt8
  softLimit : Nat
  hardLimit : Nat
  deriving DecidableEq, Repr

namespace FdTable

variable {α : Type}

/-- `FdTable::DEFAULT_FD_LIMIT`. -/
def defaultFdLimit : Nat := 128

/-- `SYSTEM_FD_LIMIT` of `config.rs`. -/
def systemFdLimit : Nat := 256

/-- `FdTable::new`: no recycled slot, whatever `inner` holds. -/
def new (inner : List (Option α)) : FdTable α :=
  ⟨inner, [], defaultFdLimit, systemFdLimit⟩

/-- Whether slot `i` is empty: `inner[i].is_none()` inside the table, and
    vacuously so past its end. -/
def isVacant (t : FdTable α) (i : Nat) : Bool :=
  (t.inner.getD i none).isNone

/-- The shared body of `set_soft_limit` and `set_hard_limit`: below the table
    length, cut `inner` to the limit and drop the recycled slots beyond it. -/
def truncateTo (t : FdTable α) (limit : Nat) : FdTable α :=
  if limit < t.inner.length then
    { t with inner := t.inner.take limit, recycled := t.recycled.filter (·.toNat < limit) }
  else t

/-- `set_soft_limit`. -/
def setSoftLimit (t : FdTable α) (limit : Nat) : FdTable α :=
  { t.truncateTo limit with softLimit := limit }

/-- `set_hard_limit`. -/
def setHardLimit (t : FdTable α) (limit : Nat) : FdTable α :=
  { t.truncateTo limit with hardLimit := limit }

/-- `remove`: empty slot `fd` and push it on `recycled` as a `u8`. -/
def remove (t : FdTable α) (fd : Nat) : Except FdError (FdTable α × α) :=
  if t.inner.length ≤ fd then .error (.errno ebadf)
  else
    match t.inner.getD fd none with
    | some d =>
        .ok ({ t with inner := t.inner.set fd none, recycled := t.recycled ++ [UInt8.ofNat fd] }, d)
    | none => .error (.errno ebadf)

/-- `get_ref`: the descriptor in slot `fd`. -/
def getRef (t : FdTable α) (fd : Nat) : Except FdError α :=
  if t.inner.length ≤ fd then .error (.errno ebadf)
  else
    match t.inner.getD fd none with
    | some d => .ok d
    | none => .error (.errno ebadf)

/-- `insert`: reuse the last recycled slot, or else append a slot below the
    soft limit. -/
def insert (t : FdTable α) (d : α) : Except FdError (FdTable α × Nat) :=
  match t.recycled.getLast? with
  | some fd =>
      if fd.toNat < t.inner.length then
        .ok ({ t with inner := t.inner.set fd.toNat (some d), recycled := t.recycled.dropLast },
          fd.toNat)
      else .error .panic
  | none =>
      if t.inner.length = t.softLimit then .error (.errno emfile)
      else .ok ({ t with inner := t.inner ++ [some d] }, t.inner.length)

/-- `insert_at`: put `d` at `pos`, replacing what is there; past the end, the
    slots skipped are pushed on `recycled` from `pos - 1` down. -/
def insertAt (t : FdTable α) (d : α) (pos : Nat) : Except FdError (FdTable α × Nat) :=
  let current := t.inner.length
  if pos < current then
    let recycled := if t.isVacant pos then t.recycled.filter (·.toNat != pos) else t.recycled
    .ok ({ t with inner := t.inner.set pos (some d), recycled := recycled }, pos)
  else if t.softLimit ≤ pos then .error (.errno emfile)
  else
    .ok ({ t with
        recycled := t.recycled ++ (List.range' current (pos - current)).reverse.map UInt8.ofNat,
        inner := t.inner ++ List.replicate (pos - current) none ++ [some d] }, pos)

/-- `try_insert_at`: put `d` at `hint` if that slot is free; when it is taken,
    use the first recycled slot above `hint` in `recycled` order, or else append.
    The branch over a taken slot leaves `recycled` as it is. -/
def tryInsertAt (t : FdTable α) (d : α) (hint : Nat) : Except FdError (FdTable α × Nat) :=
  if t.softLimit ≤ hint then .error (.errno emfile)
  else
    let current := t.inner.length
    if hint < current then
      match t.inner.getD hint none with
      | some _ =>
          match t.recycled.find? (hint < ·.toNat) with
          | some fd =>
              if fd.toNat < current then
                .ok ({ t with inner := t.inner.set fd.toNat (some d) }, fd.toNat)
              else .error .panic
          | none =>
              if current = t.softLimit then .error (.errno emfile)
              else .ok ({ t with inner := t.inner ++ [some d] }, current)
      | none =>
          .ok ({ t with
              recycled := t.recycled.filter (·.toNat != hint),
              inner := t.inner.set hint (some d) }, hint)
    else if t.softLimit ≤ hint then .error (.errno emfile)
    else
      .ok ({ t with
          recycled := t.recycled ++ (List.range' current (hint - current)).map UInt8.ofNat,
          inner := t.inner ++ List.replicate (hint - current) none ++ [some d] }, hint)

/-- The child's table built by `ProcessControlBlock::fork`: `FdTable::new` over a
    clone of the parent's slots. -/
def forkCopy (t : FdTable α) : FdTable α :=
  new t.inner

/-- The table of `ProcessControlBlock::new`: stdin, stdout and stderr. -/
def initial (stdin stdout stderr : α) : FdTable α :=
  new [some stdin, some stdout, some stderr]

theorem getRef_eq_ok_iff {t : FdTable α} {fd : Nat} {d : α} :
    t.getRef fd = .ok d ↔ t.inner[fd]? = some (some d) := by
  unfold getRef
  by_cases hlen : t.inner.length ≤ fd
  · simp [hlen]
  · rw [if_neg hlen, List.getD_eq_getElem?_getD, List.getElem?_eq_getElem (by omega)]
    cases t.inner[fd] <;> simp

theorem getRef_tryInsertAt {t t' : FdTable α} {d : α} {hint n : Nat}
    (h : t.tryInsertAt d hint = .ok (t', n)) : t'.getRef n = .ok d := by
  rw [getRef_eq_ok_iff]
  unfold tryInsertAt at h
  dsimp only at h
  by_cases hlimit : t.softLimit ≤ hint
  · rw [if_pos hlimit] at h
    cases h
  rw [if_neg hlimit] at h
  by_cases hlt : hint < t.inner.length
  · rw [if_pos hlt] at h
    cases hslot : t.inner.getD hint none with
    | none =>
        rw [hslot] at h
        cases h
        simp [hlt]
    | some _ =>
        rw [hslot] at h
        cases hfind : t.recycled.find? (hint < ·.toNat) with
        | none =>
            simp only [hfind] at h
            split_ifs at h
            cases h
            simp
        | some fd =>
            simp only [hfind] at h
            split_ifs at h with hfd
            cases h
            simp [hfd]
  · rw [if_neg hlt, if_neg hlimit] at h
    cases h
    have hlen : (t.inner ++ List.replicate (hint - t.inner.length) none).length = hint := by
      simp only [List.length_append, List.length_replicate]
      omega
    rw [List.getElem?_append_right (by omega), hlen, Nat.sub_self]
    rfl

/-- What the table relies on: `recycled` holds, each once and without
    truncation, exactly the empty slots of `inner`. -/
def RecycledExact (t : FdTable α) : Prop :=
  (t.recycled.map UInt8.toNat).Nodup ∧
    ∀ i, i ∈ t.recycled.map UInt8.toNat ↔ i < t.inner.length ∧ t.isVacant i = true

theorem not_recycledExact_of_taken (t : FdTable α) {fd : UInt8} (hmem : fd ∈ t.recycled)
    (htaken : t.isVacant fd.toNat = false) : ¬ t.RecycledExact := by
  intro h
  have hvacant := ((h.2 fd.toNat).mp (List.mem_map_of_mem hmem)).2
  rw [htaken] at hvacant
  exact Bool.false_ne_true hvacant

/-- From the table of `ProcessControlBlock::new` (its descriptors named 0, 1
    and 2): `remove(2)`, then `try_insert_at(7, 0)` takes slot 2 but leaves 2 on
    `recycled`, and the next `insert(8)` returns slot 2 again and overwrites 7. -/
theorem insert_overwrites_slot_of_tryInsertAt :
    ∃ t₁ t₂ t₃ : FdTable Nat,
      (initial 0 1 2).remove 2 = .ok (t₁, 2) ∧
      t₁.tryInsertAt 7 0 = .ok (t₂, 2) ∧ t₂.inner = [some 0, some 1, some 7] ∧
      ¬ t₂.RecycledExact ∧
      t₂.insert 8 = .ok (t₃, 2) ∧ t₃.inner = [some 0, some 1, some 8] := by
  refine ⟨⟨[some 0, some 1, none], [2], 128, 256⟩, ⟨[some 0, some 1, some 7], [2], 128, 256⟩,
    ⟨[some 0, some 1, some 8], [], 128, 256⟩, rfl, rfl, rfl, ?_, rfl, rfl⟩
  exact not_recycledExact_of_taken _ (show (2 : UInt8) ∈ [2] by decide) (by decide)

/-- `recycled` is a stack, so the slot reused is the one freed last, not the
    lowest free one.  From the table of `ProcessControlBlock::new`: after
    `remove(0)` and `remove(1)`, `insert` returns 1 while slot 0 is free; after
    `remove(2)` and `remove(1)`, `try_insert_at(_, 0)` returns 2 while slot 1 is
    free. -/
theorem insert_returns_last_freed_slot :
    ∃ t₁ t₂ t₃ t₄ t₅ t₆ : FdTable Nat,
      (initial 0 1 2).remove 0 = .ok (t₁, 0) ∧ t₁.remove 1 = .ok (t₂, 1) ∧
      t₂.insert 3 = .ok (t₃, 1) ∧ t₃.isVacant 0 = true ∧
      (initial 0 1 2).remove 2 = .ok (t₄, 2) ∧ t₄.remove 1 = .ok (t₅, 1) ∧
      t₅.tryInsertAt 3 0 = .ok (t₆, 2) ∧ t₆.isVacant 1 = true := by
  refine ⟨⟨[none, some 1, some 2], [0], 128, 256⟩, ⟨[none, none, some 2], [0, 1], 128, 256⟩,
    ⟨[none, some 3, some 2], [0], 128, 256⟩, ⟨[some 0, some 1, none], [2], 128, 256⟩,
    ⟨[some 0, none, none], [2, 1], 128, 256⟩, ⟨[some 0, none, some 3], [2, 1], 128, 256⟩,
    rfl, rfl, rfl, rfl, rfl, rfl, rfl, rfl⟩

/-! ## A sound recycled stack

`insert` trusts the top of `recycled` to be an empty slot inside `inner`, and
`remove` keeps a slot number as a `u8`.  `Sound` is what that needs: the slots
on `recycled` are distinct empty slots of `inner`, and the table stays within
a soft limit that a `u8` can count up to.  Unlike `RecycledExact` it does not
ask every empty slot to be on the stack, so the table `fork` builds, which
forgets `recycled`, is sound too.  Every operation keeps it, `try_insert_at`
only when it does not take a recycled slot above a taken `hint`, and each
changes no slot but the one it returns. -/

/-- Slot `i` as `get_ref` sees it: what `inner` holds there, nothing past its end. -/
def slot (t : FdTable α) (i : Nat) : Option α :=
  t.inner.getD i none

/-- What `insert` and `remove` rely on. -/
structure Sound (t : FdTable α) : Prop where
  nodup : (t.recycled.map UInt8.toNat).Nodup
  vacant : ∀ fd ∈ t.recycled, fd.toNat < t.inner.length ∧ t.slot fd.toNat = none
  length_le : t.inner.length ≤ t.softLimit
  softLimit_le : t.softLimit ≤ systemFdLimit

theorem isVacant_eq_slot (t : FdTable α) (i : Nat) : t.isVacant i = (t.slot i).isNone := rfl

theorem slot_eq_none_of_le {t : FdTable α} {i : Nat} (h : t.inner.length ≤ i) :
    t.slot i = none := by
  simp [slot, List.getElem?_eq_none h]

theorem lt_length_of_slot {t : FdTable α} {i : Nat} {d : α} (h : t.slot i = some d) :
    i < t.inner.length := by
  by_contra hle
  rw [slot_eq_none_of_le (by omega)] at h
  cases h

theorem getRef_eq_ok_iff_slot {t : FdTable α} {fd : Nat} {d : α} :
    t.getRef fd = .ok d ↔ t.slot fd = some d := by
  rw [getRef_eq_ok_iff, slot, List.getD_eq_getElem?_getD]
  cases t.inner[fd]? <;> simp

theorem getRef_eq_error {t : FdTable α} {fd : Nat} {e : FdError} (h : t.getRef fd = .error e) :
    e = .errno ebadf ∧ t.slot fd = none := by
  unfold getRef at h
  split_ifs at h with hlen
  · cases h
    exact ⟨rfl, slot_eq_none_of_le hlen⟩
  · cases hslot : t.inner.getD fd none with
    | none =>
        rw [hslot] at h
        cases h
        exact ⟨rfl, hslot⟩
    | some _ =>
        rw [hslot] at h
        cases h

/-! ### How each change of `inner` moves the slots -/

theorem slot_set {t : FdTable α} {i : Nat} (hi : i < t.inner.length) (x : Option α)
    (recycled : List UInt8) (softLimit hardLimit : Nat) :
    (FdTable.mk (t.inner.set i x) recycled softLimit hardLimit).slot = Function.update t.slot i x := by
  funext j
  by_cases hj : j = i
  · subst hj
    simp [slot, hi]
  · simp [slot, Function.update_of_ne hj, Ne.symm hj]

theorem slot_append {t : FdTable α} (k : Nat) (x : Option α)
    (recycled : List UInt8) (softLimit hardLimit : Nat) :
    (FdTable.mk (t.inner ++ List.replicate k none ++ [x]) recycled softLimit hardLimit).slot =
      Function.update t.slot (t.inner.length + k) x := by
  funext j
  by_cases hj : j = t.inner.length + k
  · subst hj
    simp [slot]
  · rw [Function.update_of_ne hj]
    simp only [slot, List.getD_eq_getElem?_getD]
    rcases Nat.lt_or_ge j t.inner.length with hlt | hge
    · rw [List.getElem?_append_left (by simp; omega), List.getElem?_append_left hlt]
    · rw [List.getElem?_eq_none_iff.mpr hge]
      rcases Nat.lt_or_ge j (t.inner.length + k) with hlt' | hge'
      · rw [List.getElem?_append_left (by simp; omega), List.getElem?_append_right hge]
        simp [show j - t.inner.length < k by omega]
      · rw [List.getElem?_append_right (by simp; omega)]
        simp only [List.length_append, List.length_replicate]
        rw [List.getElem?_eq_none_iff.mpr (by simp; omega)]

theorem slot_truncateTo (t : FdTable α) (limit j : Nat) :
    (t.truncateTo limit).slot j = if j < limit then t.slot j else none := by
  unfold truncateTo
  split_ifs with hlt hj hj
  · simp [slot, hj]
  · simp [slot, hj]
  · rfl
  · exact slot_eq_none_of_le (by omega)


/-! ### The two shapes of a change that keep the table sound -/

theorem toNat_ofNat_of_sound {t : FdTable α} (hs : t.Sound) {n : Nat} (hn : n < t.softLimit) :
    (UInt8.ofNat n).toNat = n := by
  have hlimit := hs.softLimit_le
  unfold systemFdLimit at hlimit
  simp only [UInt8.toNat_ofNat']
  omega

theorem Sound.set {t : FdTable α} (hs : t.Sound) {i : Nat} (hi : i < t.inner.length)
    (x : Option α) {recycled : List UInt8} (hsub : recycled.Sublist t.recycled)
    (hne : ∀ fd ∈ recycled, fd.toNat ≠ i) :
    (FdTable.mk (t.inner.set i x) recycled t.softLimit t.hardLimit).Sound := by
  refine ⟨hs.nodup.sublist (hsub.map _), ?_, by simpa using hs.length_le, hs.softLimit_le⟩
  intro fd hfd
  rw [slot_set hi, Function.update_of_ne (hne fd hfd)]
  simpa using hs.vacant fd (hsub.subset hfd)

theorem Sound.append {t : FdTable α} (hs : t.Sound) (k : Nat) (x : Option α)
    (hlt : t.inner.length + k < t.softLimit) (skipped : List UInt8)
    (hnodup : (skipped.map UInt8.toNat).Nodup)
    (hrange : ∀ fd ∈ skipped, t.inner.length ≤ fd.toNat ∧ fd.toNat < t.inner.length + k) :
    (FdTable.mk (t.inner ++ List.replicate k none ++ [x]) (t.recycled ++ skipped)
      t.softLimit t.hardLimit).Sound := by
  refine ⟨?_, ?_, by simp; omega, hs.softLimit_le⟩
  · rw [List.map_append, List.nodup_append]
    refine ⟨hs.nodup, hnodup, ?_⟩
    intro a ha b hb
    obtain ⟨fa, hfa, rfl⟩ := List.mem_map.mp ha
    obtain ⟨fb, hfb, rfl⟩ := List.mem_map.mp hb
    have := (hs.vacant fa hfa).1
    have := (hrange fb hfb).1
    omega
  · intro fd hfd
    rw [slot_append]
    rcases List.mem_append.mp hfd with hold | hnew
    · obtain ⟨hlt', hvac⟩ := hs.vacant fd hold
      rw [Function.update_of_ne (by omega)]
      exact ⟨by simp; omega, hvac⟩
    · obtain ⟨hge, hlt'⟩ := hrange fd hnew
      rw [Function.update_of_ne (by omega)]
      exact ⟨by simp; omega, slot_eq_none_of_le hge⟩

theorem skipped_range {t : FdTable α} (hs : t.Sound) {k : Nat}
    (hlt : t.inner.length + k < t.softLimit) {l : List Nat}
    (hl : l = List.range' t.inner.length k ∨ l = (List.range' t.inner.length k).reverse) :
    ((l.map UInt8.ofNat).map UInt8.toNat).Nodup ∧
      ∀ fd ∈ l.map UInt8.ofNat, t.inner.length ≤ fd.toNat ∧ fd.toNat < t.inner.length + k := by
  have hmem : ∀ j ∈ l, t.inner.length ≤ j ∧ j < t.inner.length + k := by
    rcases hl with rfl | rfl <;> simp [List.mem_range'] <;> omega
  have hid : (l.map UInt8.ofNat).map UInt8.toNat = l := by
    rw [List.map_map]
    conv => rhs; rw [← List.map_id l]
    refine List.map_congr_left fun j hj => ?_
    exact toNat_ofNat_of_sound hs (by have := hmem j hj; omega)
  refine ⟨?_, ?_⟩
  · rw [hid]
    rcases hl with rfl | rfl
    · exact List.nodup_range'
    · exact List.nodup_reverse.mpr List.nodup_range'
  · intro fd hfd
    have hfd' : fd.toNat ∈ l := hid ▸ List.mem_map_of_mem hfd
    exact hmem _ hfd'

/-! ### Each operation on a sound table -/

/-- `t'` is `t` with `d` in slot `n`, below the soft limit, and still sound. -/
structure Puts (t t' : FdTable α) (n : Nat) (d : α) : Prop where
  lt_softLimit : n < t.softLimit
  slot_eq : t'.slot = Function.update t.slot n (some d)
  softLimit_eq : t'.softLimit = t.softLimit
  sound : t'.Sound

theorem remove_eq_ok {t t' : FdTable α} {fd : Nat} {d : α} (h : t.remove fd = .ok (t', d)) :
    t.slot fd = some d ∧
      t' = ⟨t.inner.set fd none, t.recycled ++ [UInt8.ofNat fd], t.softLimit, t.hardLimit⟩ := by
  unfold remove at h
  split_ifs at h
  cases hslot : t.inner.getD fd none with
  | none =>
      rw [hslot] at h
      cases h
  | some _ =>
      rw [hslot] at h
      cases h
      exact ⟨hslot, rfl⟩

theorem remove_eq_error {t : FdTable α} {fd : Nat} {e : FdError} (h : t.remove fd = .error e) :
    e = .errno ebadf ∧ t.slot fd = none := by
  unfold remove at h
  split_ifs at h with hlen
  · cases h
    exact ⟨rfl, slot_eq_none_of_le hlen⟩
  · cases hslot : t.inner.getD fd none with
    | none =>
        rw [hslot] at h
        cases h
        exact ⟨rfl, hslot⟩
    | some _ =>
        rw [hslot] at h
        cases h

theorem remove_spec {t t' : FdTable α} {fd : Nat} {d : α} (hs : t.Sound)
    (h : t.remove fd = .ok (t', d)) :
    t.slot fd = some d ∧ t'.slot = Function.update t.slot fd none ∧
      t'.softLimit = t.softLimit ∧ t'.Sound := by
  obtain ⟨hslot, rfl⟩ := remove_eq_ok h
  have hfd := lt_length_of_slot hslot
  have hview := slot_set hfd none (t.recycled ++ [UInt8.ofNat fd]) t.softLimit t.hardLimit
  have hbyte : (UInt8.ofNat fd).toNat = fd :=
    toNat_ofNat_of_sound hs (by have := hs.length_le; omega)
  have hfresh : fd ∉ t.recycled.map UInt8.toNat := by
    intro hmem
    obtain ⟨x, hx, rfl⟩ := List.mem_map.mp hmem
    rw [(hs.vacant x hx).2] at hslot
    cases hslot
  refine ⟨hslot, hview, rfl, ⟨?_, ?_, by simpa using hs.length_le, hs.softLimit_le⟩⟩
  · rw [List.map_append, List.map_singleton, hbyte]
    exact hs.nodup.append (List.nodup_singleton fd) (by simpa using hfresh)
  · intro x hx
    rw [hview]
    rcases List.mem_append.mp hx with hold | hnew
    · have hne : x.toNat ≠ fd := fun heq => hfresh (heq ▸ List.mem_map_of_mem hold)
      rw [Function.update_of_ne hne]
      simpa using hs.vacant x hold
    · rw [List.mem_singleton.mp hnew, hbyte]
      simp [hfd]

theorem toNat_ne_of_mem_dropLast {l : List UInt8} {a x : UInt8}
    (hnodup : (l.map UInt8.toNat).Nodup) (hlast : l.getLast? = some a) (hx : x ∈ l.dropLast) :
    x.toNat ≠ a.toNat := by
  rw [← List.dropLast_append_getLast? a hlast, List.map_append, List.nodup_append] at hnodup
  exact hnodup.2.2 _ (List.mem_map_of_mem hx) _ (by simp)

theorem insert_spec {t t' : FdTable α} {d : α} {n : Nat} (hs : t.Sound)
    (h : t.insert d = .ok (t', n)) : t.slot n = none ∧ t.Puts t' n d := by
  unfold insert at h
  cases hlast : t.recycled.getLast? with
  | some fd =>
      simp only [hlast] at h
      obtain ⟨hlt, hvac⟩ := hs.vacant fd (List.mem_of_getLast? hlast)
      rw [if_pos hlt] at h
      cases h
      refine ⟨hvac, ⟨by have := hs.length_le; omega, slot_set hlt _ _ _ _, rfl, ?_⟩⟩
      exact hs.set hlt _ (List.dropLast_sublist _)
        (fun x hx => toNat_ne_of_mem_dropLast hs.nodup hlast hx)
  | none =>
      simp only [hlast] at h
      split_ifs at h with hfull
      cases h
      have hlt : t.inner.length + 0 < t.softLimit := by have := hs.length_le; omega
      have hsound := hs.append 0 (some d) hlt [] (by simp) (by simp)
      refine ⟨slot_eq_none_of_le le_rfl, ⟨by omega, ?_, rfl, by simpa using hsound⟩⟩
      simpa using slot_append (t := t) 0 (some d) t.recycled t.softLimit t.hardLimit

theorem insert_eq_error {t : FdTable α} {d : α} {e : FdError} (hs : t.Sound)
    (h : t.insert d = .error e) : e = .errno emfile := by
  unfold insert at h
  cases hlast : t.recycled.getLast? with
  | some fd =>
      simp only [hlast] at h
      rw [if_pos (hs.vacant fd (List.mem_of_getLast? hlast)).1] at h
      cases h
  | none =>
      simp only [hlast] at h
      split_ifs at h
      cases h
      rfl

theorem insertAt_spec {t t' : FdTable α} {d : α} {pos n : Nat} (hs : t.Sound)
    (h : t.insertAt d pos = .ok (t', n)) : n = pos ∧ t.Puts t' pos d := by
  unfold insertAt at h
  dsimp only at h
  by_cases hlt : pos < t.inner.length
  · rw [if_pos hlt] at h
    have hput : ∀ {recycled : List UInt8}, recycled.Sublist t.recycled →
        (∀ fd ∈ recycled, fd.toNat ≠ pos) →
        t.Puts ⟨t.inner.set pos (some d), recycled, t.softLimit, t.hardLimit⟩ pos d :=
      fun hsub hne => ⟨by have := hs.length_le; omega, slot_set hlt _ _ _ _, rfl, hs.set hlt _ hsub hne⟩
    split_ifs at h with hvac
    · cases h
      exact ⟨rfl, hput List.filter_sublist fun fd hfd => by simpa using (List.mem_filter.mp hfd).2⟩
    · cases h
      refine ⟨rfl, hput (List.Sublist.refl _) fun fd hfd heq => hvac ?_⟩
      have hnone := (hs.vacant fd hfd).2
      rw [heq] at hnone
      rw [isVacant_eq_slot, hnone]
      rfl
  · rw [if_neg hlt] at h
    split_ifs at h with hlimit
    cases h
    have hlt' : t.inner.length + (pos - t.inner.length) < t.softLimit := by omega
    obtain ⟨hnodup, hrange⟩ := skipped_range hs hlt' (.inr rfl)
    have hpos : t.inner.length + (pos - t.inner.length) = pos := by omega
    refine ⟨rfl, ⟨by omega, ?_, rfl, hs.append _ _ hlt' _ hnodup hrange⟩⟩
    rw [slot_append, hpos]

theorem insertAt_eq_ok_of_lt {t : FdTable α} {d : α} {pos : Nat} (h : pos < t.softLimit) :
    ∃ t', t.insertAt d pos = .ok (t', pos) := by
  unfold insertAt
  dsimp only
  by_cases hlt : pos < t.inner.length
  · rw [if_pos hlt]
    exact ⟨_, rfl⟩
  · rw [if_neg hlt, if_neg (by omega)]
    exact ⟨_, rfl⟩

theorem insertAt_eq_error {t : FdTable α} {d : α} {pos : Nat} {e : FdError}
    (h : t.insertAt d pos = .error e) : e = .errno emfile := by
  unfold insertAt at h
  dsimp only at h
  split_ifs at h
  cases h
  rfl

/-- `try_insert_at` keeps the table sound and fills an empty slot at or above
    `hint`, unless it takes a recycled slot above a taken `hint`: that branch
    leaves the slot on the stack. -/
theorem tryInsertAt_spec {t t' : FdTable α} {d : α} {hint n : Nat} (hs : t.Sound)
    (hguard : t.isVacant hint = true ∨ t.recycled.find? (hint < ·.toNat) = none)
    (h : t.tryInsertAt d hint = .ok (t', n)) : hint ≤ n ∧ t.slot n = none ∧ t.Puts t' n d := by
  unfold tryInsertAt at h
  dsimp only at h
  by_cases hlimit : t.softLimit ≤ hint
  · rw [if_pos hlimit] at h
    cases h
  rw [if_neg hlimit] at h
  by_cases hlt : hint < t.inner.length
  · rw [if_pos hlt] at h
    cases hslot : t.inner.getD hint none with
    | none =>
        rw [hslot] at h
        cases h
        refine ⟨le_rfl, hslot, ⟨by omega, slot_set hlt _ _ _ _, rfl, ?_⟩⟩
        exact hs.set hlt _ List.filter_sublist fun fd hfd => by simpa using (List.mem_filter.mp hfd).2
    | some _ =>
        rw [hslot] at h
        have hfind : t.recycled.find? (hint < ·.toNat) = none := by
          refine hguard.resolve_left fun hvac => ?_
          rw [isVacant, hslot] at hvac
          cases hvac
        simp only [hfind] at h
        split_ifs at h with hfull
        cases h
        have hlt' : t.inner.length + 0 < t.softLimit := by have := hs.length_le; omega
        have hsound := hs.append 0 (some d) hlt' [] (by simp) (by simp)
        refine ⟨le_of_lt hlt, slot_eq_none_of_le le_rfl, ⟨by omega, ?_, rfl, by simpa using hsound⟩⟩
        simpa using slot_append (t := t) 0 (some d) t.recycled t.softLimit t.hardLimit
  · rw [if_neg hlt, if_neg hlimit] at h
    cases h
    have hlt' : t.inner.length + (hint - t.inner.length) < t.softLimit := by omega
    obtain ⟨hnodup, hrange⟩ := skipped_range hs hlt' (.inl rfl)
    have hpos : t.inner.length + (hint - t.inner.length) = hint := by omega
    refine ⟨le_rfl, slot_eq_none_of_le (by omega), ⟨by omega, ?_, rfl, hs.append _ _ hlt' _ hnodup hrange⟩⟩
    rw [slot_append, hpos]

theorem tryInsertAt_eq_error {t : FdTable α} {d : α} {hint : Nat} {e : FdError} (hs : t.Sound)
    (h : t.tryInsertAt d hint = .error e) : e = .errno emfile := by
  unfold tryInsertAt at h
  dsimp only at h
  by_cases hlimit : t.softLimit ≤ hint
  · rw [if_pos hlimit] at h
    cases h
    rfl
  rw [if_neg hlimit] at h
  by_cases hlt : hint < t.inner.length
  · rw [if_pos hlt] at h
    cases hslot : t.inner.getD hint none with
    | none =>
        rw [hslot] at h
        cases h
    | some _ =>
        rw [hslot] at h
        cases hfind : t.recycled.find? (hint < ·.toNat) with
        | some fd =>
            -- a recycled slot lies inside the table, so this branch does not panic
            have hlt' := (hs.vacant fd (List.mem_of_find?_eq_some hfind)).1
            simp only [hfind, if_pos hlt'] at h
            cases h
        | none =>
            simp only [hfind] at h
            split_ifs at h
            cases h
            rfl
  · rw [if_neg hlt, if_neg hlimit] at h
    cases h

/-! ### The limits -/

theorem slot_setSoftLimit (t : FdTable α) (limit j : Nat) :
    (t.setSoftLimit limit).slot j = if j < limit then t.slot j else none :=
  slot_truncateTo t limit j

theorem slot_setHardLimit (t : FdTable α) (limit j : Nat) :
    (t.setHardLimit limit).slot j = if j < limit then t.slot j else none :=
  slot_truncateTo t limit j

theorem truncateTo_sound {t : FdTable α} (hs : t.Sound) (limit : Nat) :
    ((t.truncateTo limit).recycled.map UInt8.toNat).Nodup ∧
      (∀ fd ∈ (t.truncateTo limit).recycled, fd.toNat < (t.truncateTo limit).inner.length ∧
        (t.truncateTo limit).slot fd.toNat = none) ∧
      (t.truncateTo limit).inner.length ≤ limit ⊓ t.inner.length := by
  unfold truncateTo
  split_ifs with hlt
  · refine ⟨hs.nodup.sublist (List.filter_sublist.map _), fun fd hfd => ?_, by simp⟩
    obtain ⟨hmem, hbelow⟩ := List.mem_filter.mp hfd
    have hbelow : fd.toNat < limit := by simpa using hbelow
    obtain ⟨hlen, hvac⟩ := hs.vacant fd hmem
    refine ⟨by simp; omega, ?_⟩
    rw [← hvac]
    simp [slot, hbelow]
  · exact ⟨hs.nodup, hs.vacant, by omega⟩

theorem Sound.setSoftLimit {t : FdTable α} (hs : t.Sound) {limit : Nat}
    (hlimit : limit ≤ systemFdLimit) : (t.setSoftLimit limit).Sound := by
  obtain ⟨hnodup, hvac, hlen⟩ := truncateTo_sound hs limit
  exact ⟨hnodup, hvac, le_trans hlen inf_le_left, hlimit⟩

theorem Sound.setHardLimit {t : FdTable α} (hs : t.Sound) (limit : Nat) :
    (t.setHardLimit limit).Sound := by
  obtain ⟨hnodup, hvac, hlen⟩ := truncateTo_sound hs limit
  have hsoft : (t.truncateTo limit).softLimit = t.softLimit := by
    unfold truncateTo
    split_ifs <;> rfl
  refine ⟨hnodup, hvac, ?_, ?_⟩
  · show (t.truncateTo limit).inner.length ≤ (t.truncateTo limit).softLimit
    rw [hsoft]
    exact le_trans hlen (le_trans inf_le_right hs.length_le)
  · show (t.truncateTo limit).softLimit ≤ systemFdLimit
    rw [hsoft]
    exact hs.softLimit_le

theorem sound_new {inner : List (Option α)} (h : inner.length ≤ defaultFdLimit) :
    (new inner).Sound :=
  ⟨List.nodup_nil, fun _ hfd => absurd hfd List.not_mem_nil, h, show defaultFdLimit ≤ systemFdLimit by decide⟩

theorem sound_forkCopy {t : FdTable α} (h : t.inner.length ≤ defaultFdLimit) :
    t.forkCopy.Sound :=
  sound_new h

theorem sound_initial (stdin stdout stderr : α) : (initial stdin stdout stderr).Sound :=
  sound_new (show 3 ≤ defaultFdLimit by decide)

end FdTable

end OsKernel.Fs

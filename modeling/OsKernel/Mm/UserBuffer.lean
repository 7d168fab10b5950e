import OsKernel.Mm.MemorySet
import OsKernel.Lib.Overwrite
import OsKernel.Lib.Word

/-! # User buffers

`translated_byte_buffer` of `mm/page_table.rs` cuts the user range
`[ptr, ptr + len)` at page boundaries, each piece a slice of the frame its page
maps to, and `UserBuffer` holds the pieces.  Here a piece is its frame and its
bounds in it, and a `UserBuffer` holds the bytes of its pieces; `write_at`
writes a kernel buffer into them from an offset of their concatenation.

`write_at` compares each piece with the offset by a running start, which its
`continue` does not advance: once a piece lies wholly before the offset, every
later piece is compared as if it started where the skipped one did.
-/

namespace OsKernel.Mm

/-- A piece of a user range: frame `ppn`, bytes `[lo, hi)` of it. -/
structure UserSlice where
  ppn : Nat
  lo : Nat
  hi : Nat
  deriving DecidableEq, Repr

/-- `usize::from(VirtAddr)`: the 39-bit address, sign-extended. -/
def usizeOfVa (va : Nat) : Nat :=
  if 2 ^ 38 ≤ va then va ||| (2 ^ 64 - 2 ^ 39) else va

/-- A `usize` that is a canonical Sv39 address: its bits from 38 up are all
    equal. -/
def Canonical (v : Nat) : Prop :=
  v < 2 ^ 38 ∨ 2 ^ 64 - 2 ^ 38 ≤ v ∧ v < 2 ^ 64

instance (v : Nat) : Decidable (Canonical v) :=
  inferInstanceAs (Decidable (_ ∨ _))

theorem usizeOfVa_eq {va : Nat} (hva : va < 2 ^ 39) :
    usizeOfVa va = if 2 ^ 38 ≤ va then va + (2 ^ 64 - 2 ^ 39) else va := by
  unfold usizeOfVa
  split
  · rw [show 2 ^ 64 - 2 ^ 39 = (2 ^ 25 - 1) * 2 ^ 39 by norm_num, Word.or_mul_two_pow_eq_add _ hva]
  · rfl

theorem vaFromUsize_usizeOfVa {va : Nat} (hva : va < 2 ^ 39) : vaFromUsize (usizeOfVa va) = va := by
  rw [usizeOfVa_eq hva, vaFromUsize]
  split <;> omega

theorem canonical_usizeOfVa {va : Nat} (hva : va < 2 ^ 39) : Canonical (usizeOfVa va) := by
  rw [usizeOfVa_eq hva, Canonical]
  split <;> omega

theorem usizeOfVa_vaFromUsize {v : Nat} (hv : Canonical v) : usizeOfVa (vaFromUsize v) = v := by
  have hlt : vaFromUsize v < 2 ^ 39 := Nat.mod_lt _ (by norm_num)
  rw [usizeOfVa_eq hlt, vaFromUsize]
  unfold Canonical at hv
  split <;> omega

theorem virtAddr_usize_round_trip :
    (∀ va, va < 2 ^ 39 → Canonical (usizeOfVa va) ∧ vaFromUsize (usizeOfVa va) = va) ∧
      ∀ v, Canonical v → vaFromUsize v < 2 ^ 39 ∧ usizeOfVa (vaFromUsize v) = v :=
  ⟨fun _ hva => ⟨canonical_usizeOfVa hva, vaFromUsize_usizeOfVa hva⟩,
    fun _ hv => ⟨Nat.mod_lt _ (by norm_num), usizeOfVa_vaFromUsize hv⟩⟩

/-- The slice a round pushes: to the end of the frame when `end_va` is
    aligned, else to the offset of `end_va`. -/
def sliceOf (ppn startVa endVa : Nat) : Option UserSlice :=
  if pageOffset endVa = 0 then some ⟨ppn, pageOffset startVa, pageSize⟩
  -- the range `[start..end]` of a slice panics when `start > end`
  else if pageOffset startVa ≤ pageOffset endVa then some ⟨ppn, pageOffset startVa, pageOffset endVa⟩
  else none

/-- The loop of `translated_byte_buffer` while `start < end`: the piece up to
    the next page boundary, or to `end`, of the frame the page maps to; an
    unmapped page panics at its `unwrap`.  The fuel bounds the rounds. -/
def translatedByteBufferLoop (pt : PageTable) (stop : Nat) : Nat → Nat → Option (List UserSlice)
  | 0, _ => none
  | fuel + 1, start =>
      if start < stop then do
        let startVa := vaFromUsize start
        let vpn := floor startVa
        let pte ← pt.translate vpn
        let endVa := min ((vpn + 1) * pageSize) (vaFromUsize stop)
        let piece ← sliceOf (ptePpn pte) startVa endVa
        let rest ← translatedByteBufferLoop pt stop fuel (usizeOfVa endVa)
        pure (piece :: rest)
      else pure []

/-- `translated_byte_buffer(token, ptr, len)`: every round takes at least one
    byte of a range below `2 ^ 38`, so `len + 1` rounds are enough. -/
def translatedByteBuffer (pt : PageTable) (ptr len : Nat) : Option (List UserSlice) :=
  translatedByteBufferLoop pt (wrappingAdd ptr len) (len + 1) ptr

/-- The bytes of a piece in physical memory. -/
def UserSlice.read (mem : Nat → Nat → UInt8) (piece : UserSlice) : List UInt8 :=
  (List.range (piece.hi - piece.lo)).map fun i => mem piece.ppn (piece.lo + i)

/-! ### What `translated_byte_buffer` reads

Below `2 ^ 38` an address is its own `usize`, and the slices read exactly the
bytes the page table maps at `[ptr, ptr + len)`; an unmapped page panics. -/

/-- The byte the page table maps at `va`. -/
def userByte (pt : PageTable) (mem : Nat → Nat → UInt8) (va : Nat) : Option UInt8 :=
  (pt.translate (floor va)).map fun pte => mem (ptePpn pte) (pageOffset va)

/-- The `n` bytes mapped from `va` on, if every one of them is mapped. -/
def userBytes (pt : PageTable) (mem : Nat → Nat → UInt8) : Nat → Nat → Option (List UInt8)
  | _, 0 => some []
  | va, n + 1 => do
      let byte ← userByte pt mem va
      let rest ← userBytes pt mem (va + 1) n
      pure (byte :: rest)

section Reads

variable {pt : PageTable} {mem : Nat → Nat → UInt8}

theorem userBytes_add (m n : Nat) :
    ∀ va, userBytes pt mem va (m + n) =
      (userBytes pt mem va m).bind fun xs => (userBytes pt mem (va + m) n).map (xs ++ ·) := by
  induction m with
  | zero => intro va; simp [userBytes]
  | succ m ih =>
    intro va
    rw [Nat.add_right_comm, userBytes, userBytes, ih (va + 1)]
    cases userByte pt mem va with
    | none => rfl
    | some byte =>
      cases userBytes pt mem (va + 1) m with
      | none => rfl
      | some xs =>
        simp only [Option.bind_eq_bind, Option.bind_some, Option.pure_def]
        rw [show va + 1 + m = va + (m + 1) by omega]
        cases userBytes pt mem (va + (m + 1)) n <;> rfl

theorem userBytes_of_page {pte : Nat} :
    ∀ (k va : Nat), pt.translate (floor va) = some pte → pageOffset va + k ≤ pageSize →
      userBytes pt mem va k = some ((List.range k).map fun i => mem (ptePpn pte) (pageOffset va + i)) := by
  intro k
  induction k with
  | zero => intro _ _ _; rfl
  | succ k ih =>
    intro va hpte hpage
    have hbyte : userByte pt mem va = some (mem (ptePpn pte) (pageOffset va)) := by
      simp [userByte, hpte]
    have hrest : userBytes pt mem (va + 1) k =
        some ((List.range k).map fun i => mem (ptePpn pte) (pageOffset va + (i + 1))) := by
      cases k with
      | zero => rfl
      | succ k =>
        have hoff : pageOffset (va + 1) = pageOffset va + 1 := by
          simp only [pageOffset_eq_mod, pageSize] at hpage ⊢
          omega
        have hfloor : floor (va + 1) = floor va := by
          simp only [floor, pageSize, pageOffset_eq_mod] at hpage ⊢
          omega
        rw [ih (va + 1) (hfloor ▸ hpte) (by omega), hoff]
        simp [Nat.add_assoc, Nat.add_comm 1]
    simp [userBytes, hbyte, hrest, List.range_succ_eq_map]

theorem length_of_userBytes :
    ∀ {n va : Nat} {xs : List UInt8}, userBytes pt mem va n = some xs → xs.length = n := by
  intro n
  induction n with
  | zero => intro _ _ h; cases h; rfl
  | succ n ih =>
    intro va xs h
    simp only [userBytes, Option.bind_eq_bind, Option.bind_eq_some_iff, Option.pure_def,
      Option.some.injEq] at h
    obtain ⟨_, _, rest, hrest, rfl⟩ := h
    simp [ih hrest]

end Reads

/-- Where a round of `translated_byte_buffer` from `start` stops: the next page
    boundary, or `end`. -/
def sliceEnd (start stop : Nat) : Nat :=
  min ((floor start + 1) * pageSize) stop

theorem translatedByteBufferLoop_step {pt : PageTable} {stop start : Nat} (fuel : Nat)
    (hlt : start < stop) (hstop : stop < 2 ^ 38) :
    translatedByteBufferLoop pt stop (fuel + 1) start =
      (pt.translate (floor start)).bind fun pte =>
        (translatedByteBufferLoop pt stop fuel (sliceEnd start stop)).map fun rest =>
          ⟨ptePpn pte, pageOffset start, pageOffset start + (sliceEnd start stop - start)⟩ :: rest := by
  have hva : ∀ v, v < 2 ^ 38 → vaFromUsize v = v := fun v hv => by
    unfold vaFromUsize
    omega
  have hend : sliceEnd start stop < 2 ^ 38 := by
    unfold sliceEnd
    omega
  have hback : usizeOfVa (sliceEnd start stop) = sliceEnd start stop := by
    unfold usizeOfVa
    rw [if_neg (by omega)]
  have hpiece : ∀ ppn, sliceOf ppn start (sliceEnd start stop) =
      some ⟨ppn, pageOffset start, pageOffset start + (sliceEnd start stop - start)⟩ := by
    intro ppn
    simp only [sliceOf, sliceEnd, floor, pageOffset_eq_mod, pageSize]
    split
    · simp only [Option.some.injEq, UserSlice.mk.injEq, true_and]
      omega
    · rw [if_pos (by omega)]
      simp only [Option.some.injEq, UserSlice.mk.injEq, true_and]
      omega
  rw [translatedByteBufferLoop, if_pos hlt]
  dsimp only
  rw [hva start (by omega), hva stop hstop]
  cases pt.translate (floor start) with
  | none => rfl
  | some pte =>
    simp only [Option.bind_eq_bind, Option.bind_some]
    rw [show min ((floor start + 1) * pageSize) stop = sliceEnd start stop from rfl, hpiece, hback]
    cases translatedByteBufferLoop pt stop fuel (sliceEnd start stop) <;> rfl

/-- The bytes of a list of slices, in order. -/
def readSlices (mem : Nat → Nat → UInt8) (pieces : List UserSlice) : List UInt8 :=
  (pieces.map (UserSlice.read mem)).flatten

section Loop

variable {pt : PageTable} {mem : Nat → Nat → UInt8} {stop : Nat}

/-- Each round reads the bytes up to `sliceEnd` and the rounds after it the
    rest, so the loop from `start` reads `[start, end)`; the induction is on the
    fuel, which stays above the bytes left. -/
theorem translatedByteBufferLoop_reads (hstop : stop < 2 ^ 38) :
    ∀ (fuel start : Nat), start ≤ stop → stop - start < fuel →
      (translatedByteBufferLoop pt stop fuel start).map (readSlices mem) =
        userBytes pt mem start (stop - start) := by
  intro fuel
  induction fuel with
  | zero => intro _ _ h; omega
  | succ fuel ih =>
    intro start hle hfuel
    by_cases hlt : start < stop
    · rw [translatedByteBufferLoop_step fuel hlt hstop]
      have hnext : start < sliceEnd start stop ∧ sliceEnd start stop ≤ stop := by
        simp only [sliceEnd, floor, pageSize]
        omega
      have hpage : pageOffset start + (sliceEnd start stop - start) ≤ pageSize := by
        simp only [sliceEnd, floor, pageOffset_eq_mod, pageSize]
        omega
      have hsplit : stop - start = (sliceEnd start stop - start) + (stop - sliceEnd start stop) := by
        omega
      rw [hsplit, userBytes_add, Nat.add_sub_cancel' hnext.1.le]
      cases hpte : pt.translate (floor start) with
      | none =>
        obtain ⟨k, hk⟩ : ∃ k, sliceEnd start stop - start = k + 1 := ⟨_, (Nat.succ_pred_eq_of_pos
          (by omega)).symm⟩
        simp [hk, userBytes, userByte, hpte]
      | some pte =>
        rw [userBytes_of_page _ start hpte hpage, Option.bind_some, Option.bind_some, Option.map_map,
          ← ih (sliceEnd start stop) hnext.2 (by omega), Option.map_map]
        congr 1
        funext rest
        simp [readSlices, UserSlice.read]
    · have hstart : start = stop := by omega
      subst hstart
      simp [translatedByteBufferLoop, readSlices, userBytes]

end Loop

theorem translatedByteBuffer_reads {pt : PageTable} {mem : Nat → Nat → UInt8} {ptr len : Nat}
    (hrange : ptr + len < 2 ^ 38) :
    (translatedByteBuffer pt ptr len).map (readSlices mem) = userBytes pt mem ptr len := by
  have hstop : wrappingAdd ptr len = ptr + len := by
    unfold wrappingAdd
    exact Nat.mod_eq_of_lt (by omega)
  unfold translatedByteBuffer
  rw [hstop, translatedByteBufferLoop_reads hrange (len + 1) ptr (by omega) (by omega),
    Nat.add_sub_cancel_left]

/-- `UserBuffer`: the bytes of its slices, in order. -/
structure UserBuffer where
  buffers : List (List UInt8)
  deriving DecidableEq, Repr

namespace UserBuffer

/-- `UserBuffer::new(translated_byte_buffer(..))` as the bytes it sees. -/
def ofSlices (mem : Nat → Nat → UInt8) (pieces : List UserSlice) : UserBuffer :=
  ⟨pieces.map (UserSlice.read mem)⟩

/-- `UserBuffer::len`. -/
def len (ub : UserBuffer) : Nat :=
  (ub.buffers.map List.length).sum

/-- The inner loops of `write_at` over `indices` of one slice:
    `sub_buff[index] = buf[offset_buf]`, then `offset_buf += 1`, returning once
    it reaches `len`.  Reading past the end of `buf` panics.  The flag says
    whether the loop returned. -/
def fillLoop (buf : List UInt8) (len : Nat) :
    List Nat → List UInt8 → Nat → Option (List UInt8 × Nat × Bool)
  | [], sub, offsetBuf => some (sub, offsetBuf, false)
  | index :: indices, sub, offsetBuf => do
      let byte ← buf[offsetBuf]?
      let sub := sub.set index byte
      if offsetBuf + 1 = len then pure (sub, offsetBuf + 1, true)
      else fillLoop buf len indices sub (offsetBuf + 1)

/-- The loop of `write_at` over the slices, with `offset_user_buffer` and
    `offset_buf`; it returns `EPERM` when it runs out of slices. -/
def writeAtLoop (offset len : Nat) (buf : List UInt8) :
    List (List UInt8) → Nat → Nat → Option (List (List UInt8) × Int)
  | [], _, _ => some ([], eperm)
  | sub :: subs, offsetUserBuffer, offsetBuf =>
      if offsetUserBuffer + sub.length < offset then
        -- `continue` skips `offset_user_buffer += sub_buffer_len`
        (writeAtLoop offset len buf subs offsetUserBuffer offsetBuf).map
          fun (subs, ret) => (sub :: subs, ret)
      else
        let indices := if offsetUserBuffer < offset then
            List.range' (offset - offsetUserBuffer) (sub.length - (offset - offsetUserBuffer))
          else List.range sub.length
        match fillLoop buf len indices sub offsetBuf with
        | none => none
        | some (sub, _, true) => some (sub :: subs, len)
        | some (sub, offsetBuf, false) =>
            (writeAtLoop offset len buf subs (offsetUserBuffer + sub.length) offsetBuf).map
              fun (subs, ret) => (sub :: subs, ret)

/-- `UserBuffer::write_at(offset, buf)`: it asserts a slice and panics when
    `offset + buf.len()` is past `len()`. -/
def writeAt (ub : UserBuffer) (offset : Nat) (buf : List UInt8) : Option (UserBuffer × Int) :=
  if ub.buffers = [] then none
  else if ub.len < wrappingAdd offset buf.length then none
  else
    let len := min (wrappingSub ub.len offset) buf.length
    (writeAtLoop offset len buf ub.buffers 0 0).map fun (buffers, ret) => (⟨buffers⟩, ret)

/-! ### The inner loop -/

section Fill

variable {buf : List UInt8} {len : Nat}

theorem fillLoop_range' (hlen : len ≤ buf.length) :
    ∀ (k a : Nat) (sub : List UInt8) (offsetBuf : Nat), a + k ≤ sub.length → offsetBuf < len →
      fillLoop buf len (List.range' a k) sub offsetBuf =
        if offsetBuf + k < len then
          some (sub.overwrite a ((buf.drop offsetBuf).take k), offsetBuf + k, false)
        else some (sub.overwrite a ((buf.drop offsetBuf).take (len - offsetBuf)), len, true) := by
  intro k
  induction k with
  | zero =>
    intro a sub offsetBuf _ hob
    simp [fillLoop, hob]
  | succ k ih =>
    intro a sub offsetBuf hroom hob
    have hbyte : buf[offsetBuf]? = some buf[offsetBuf] := List.getElem?_eq_getElem (by omega)
    have ha : a < sub.length := by omega
    rw [List.range'_succ]
    simp only [fillLoop, hbyte, Option.bind_eq_bind, Option.bind_some]
    by_cases hstop : offsetBuf + 1 = len
    · -- the byte just copied was the last one: `return len`
      have hone : len - offsetBuf = 0 + 1 := by omega
      rw [if_pos hstop, if_neg (by omega), hone, List.take_succ_drop_eq_cons (by omega), ← List.overwrite_set ha]
      simp [hstop]
    · rw [if_neg hstop, ih (a + 1) (sub.set a buf[offsetBuf]) (offsetBuf + 1)
        (by simp; omega) (by omega)]
      have hrest : len - offsetBuf = len - (offsetBuf + 1) + 1 := by omega
      by_cases hfit : offsetBuf + 1 + k < len
      · rw [if_pos hfit, if_pos (by omega), List.overwrite_set ha, List.take_succ_drop_eq_cons (by omega)]
        simp [Nat.add_assoc, Nat.add_comm 1 k]
      · rw [if_neg hfit, if_neg (by omega), List.overwrite_set ha, hrest,
          List.take_succ_drop_eq_cons (by omega)]

end Fill

/-! ### The loop over the slices -/

section Slices

variable {offset len : Nat} {buf : List UInt8}

/-- Past the offset every slice is written from its start, so from `offsetBuf`
    on the loop copies the rest of `buf`'s first `len` bytes over the
    concatenation of the slices left, keeping each slice's length. -/
theorem writeAtLoop_past_offset (hlen : len ≤ buf.length) :
    ∀ (subs : List (List UInt8)) (offsetUserBuffer offsetBuf : Nat), offset ≤ offsetUserBuffer →
      offsetBuf < len → len - offsetBuf ≤ (subs.map List.length).sum →
      ∃ subs' : List (List UInt8),
        writeAtLoop offset len buf subs offsetUserBuffer offsetBuf = some (subs', (len : Int)) ∧
        subs'.map List.length = subs.map List.length ∧
        subs'.flatten = subs.flatten.overwrite 0 ((buf.drop offsetBuf).take (len - offsetBuf)) := by
  intro subs
  induction subs with
  | nil =>
    intro _ offsetBuf _ hob hroom
    simp at hroom
    omega
  | cons sub subs ih =>
    intro offsetUserBuffer offsetBuf hou hob hroom
    simp only [List.map_cons, List.sum_cons] at hroom
    have hskip : ¬ offsetUserBuffer + sub.length < offset := by omega
    have hall : (if offsetUserBuffer < offset then
        List.range' (offset - offsetUserBuffer) (sub.length - (offset - offsetUserBuffer))
        else List.range sub.length) = List.range' 0 sub.length := by
      rw [if_neg (by omega), List.range_eq_range']
    simp only [writeAtLoop, if_neg hskip, hall]
    rw [fillLoop_range' hlen sub.length 0 sub offsetBuf (by omega) hob]
    by_cases hfit : offsetBuf + sub.length < len
    · -- the whole slice is written and the copy goes on into the next one
      rw [if_pos hfit]
      dsimp only
      have hpiece : ((buf.drop offsetBuf).take sub.length).length = sub.length := by
        simp
        omega
      obtain ⟨subs', hrun, hlens, hflat⟩ := ih
        (offsetUserBuffer + (sub.overwrite 0 ((buf.drop offsetBuf).take sub.length)).length)
        (offsetBuf + sub.length) (by omega) hfit (by omega)
      rw [hrun]
      refine ⟨_, rfl, ?_, ?_⟩
      · have hle : 0 + ((buf.drop offsetBuf).take sub.length).length ≤ sub.length := by omega
        simp [List.length_overwrite hle, hlens]
      · have hsplit : (buf.drop offsetBuf).take (len - offsetBuf) = (buf.drop offsetBuf).take sub.length ++
            (buf.drop (offsetBuf + sub.length)).take (len - (offsetBuf + sub.length)) := by
          rw [show len - offsetBuf = sub.length + (len - (offsetBuf + sub.length)) by omega,
            List.take_add, List.drop_drop]
        have hwhole : 0 + ((buf.drop offsetBuf).take sub.length).length = sub.length := by
          rw [Nat.zero_add, hpiece]
        simp only [List.flatten_cons, hflat, hsplit, List.overwrite_append hwhole,
          List.overwrite_zero_of_length_eq hpiece]
    · -- the copy ends inside this slice: `return len`
      rw [if_neg hfit]
      dsimp only
      have hpiece : 0 + ((buf.drop offsetBuf).take (len - offsetBuf)).length ≤ sub.length := by
        simp
        omega
      refine ⟨_, rfl, ?_, ?_⟩
      · simp [List.length_overwrite hpiece]
      · simp only [List.flatten_cons, List.overwrite_append_left _ hpiece]

theorem writeAtLoop_of_offset_le_head (hlen : len ≤ buf.length) (hpos : 0 < len)
    {sub : List UInt8} (subs : List (List UInt8)) (hoff : offset ≤ sub.length)
    (hroom : offset + len ≤ sub.length + (subs.map List.length).sum) :
    ∃ subs' : List (List UInt8), writeAtLoop offset len buf (sub :: subs) 0 0 = some (subs', (len : Int)) ∧
      subs'.map List.length = (sub :: subs).map List.length ∧
      subs'.flatten = (sub :: subs).flatten.overwrite offset (buf.take len) := by
  have hskip : ¬ 0 + sub.length < offset := by omega
  have hfrom : (if 0 < offset then List.range' (offset - 0) (sub.length - (offset - 0))
      else List.range sub.length) = List.range' offset (sub.length - offset) := by
    split
    · rfl
    · rw [List.range_eq_range', show offset = 0 by omega]
      rfl
  simp only [writeAtLoop, if_neg hskip, hfrom]
  rw [fillLoop_range' hlen (sub.length - offset) offset sub 0 (by omega) hpos]
  simp only [List.drop_zero, Nat.sub_zero, Nat.zero_add]
  by_cases hfit : sub.length - offset < len
  · rw [if_pos hfit]
    dsimp only
    have hpiece : offset + (buf.take (sub.length - offset)).length = sub.length := by
      simp
      omega
    have hkeep : (sub.overwrite offset (buf.take (sub.length - offset))).length = sub.length :=
      List.length_overwrite hpiece.le
    obtain ⟨subs', hrun, hlens, hflat⟩ := @writeAtLoop_past_offset offset len buf hlen subs
      (sub.overwrite offset (buf.take (sub.length - offset))).length (sub.length - offset)
      (by omega) hfit (by omega)
    rw [hrun]
    refine ⟨_, rfl, ?_, ?_⟩
    · simp [hkeep, hlens]
    · have hsplit : buf.take len = buf.take (sub.length - offset) ++
          (buf.drop (sub.length - offset)).take (len - (sub.length - offset)) := by
        rw [← List.take_add, Nat.add_sub_cancel' hfit.le]
      simp only [List.flatten_cons, hflat, hsplit, List.overwrite_append hpiece]
  · rw [if_neg hfit]
    dsimp only
    have hpiece : offset + (buf.take len).length ≤ sub.length := by
      simp
      omega
    refine ⟨_, rfl, ?_, ?_⟩
    · simp [List.length_overwrite hpiece]
    · simp only [List.flatten_cons, List.overwrite_append_left _ hpiece]

theorem writeAtLoop_of_short (offsetBuf : Nat) :
    ∀ (subs : List (List UInt8)) (offsetUserBuffer : Nat),
      (∀ s ∈ subs, offsetUserBuffer + s.length < offset) →
      writeAtLoop offset len buf subs offsetUserBuffer offsetBuf = some (subs, eperm) := by
  intro subs
  induction subs with
  | nil => intro _ _; rfl
  | cons sub subs ih =>
    intro offsetUserBuffer hshort
    have hsub : offsetUserBuffer + sub.length < offset := hshort sub List.mem_cons_self
    rw [writeAtLoop, if_pos hsub, ih offsetUserBuffer (fun s hs => hshort s (List.mem_cons_of_mem _ hs))]
    rfl

theorem fillLoop_nil_flag {len : Nat} {indices : List Nat} {sub : List UInt8} {offsetBuf : Nat}
    {r : List UInt8 × Nat × Bool} (h : fillLoop [] len indices sub offsetBuf = some r) :
    r.2.2 = false := by
  cases indices with
  | nil =>
    cases h
    rfl
  | cons index indices => simp [fillLoop] at h

theorem writeAtLoop_nil_buf :
    ∀ (subs : List (List UInt8)) (offsetUserBuffer offsetBuf : Nat) (r : List (List UInt8) × Int),
      writeAtLoop offset len [] subs offsetUserBuffer offsetBuf = some r → r.2 = eperm := by
  intro subs
  induction subs with
  | nil =>
    intro _ _ r h
    cases h
    rfl
  | cons sub subs ih =>
    intro offsetUserBuffer offsetBuf r h
    simp only [writeAtLoop] at h
    split at h
    · obtain ⟨r', hr', rfl⟩ := Option.map_eq_some_iff.mp h
      exact ih _ _ r' hr'
    · split at h
      · cases h
      · rename_i hfill
        cases fillLoop_nil_flag hfill
      · obtain ⟨r', hr', rfl⟩ := Option.map_eq_some_iff.mp h
        exact ih _ _ r' hr'

end Slices

theorem len_cons (sub : List UInt8) (subs : List (List UInt8)) :
    (UserBuffer.mk (sub :: subs)).len = sub.length + (UserBuffer.mk subs).len := by
  simp [len]

/-- `write_at` is right when the first slice reaches the offset: the
    concatenation gets `buf` at `offset`, every slice keeps its length, and it
    returns `buf.len()`. -/
theorem writeAt_of_offset_le_head {sub : List UInt8} {subs : List (List UInt8)} {offset : Nat}
    {buf : List UInt8} (hoff : offset ≤ sub.length) (hbuf : 0 < buf.length)
    (hfit : offset + buf.length ≤ (UserBuffer.mk (sub :: subs)).len)
    (hsize : (UserBuffer.mk (sub :: subs)).len < 2 ^ 64) :
    ∃ ub' : UserBuffer, (UserBuffer.mk (sub :: subs)).writeAt offset buf = some (ub', (buf.length : Int)) ∧
      ub'.buffers.map List.length = (sub :: subs).map List.length ∧
      ub'.buffers.flatten = (sub :: subs).flatten.overwrite offset buf := by
  have hwrap : ¬ (UserBuffer.mk (sub :: subs)).len < wrappingAdd offset buf.length :=
    not_lt.mpr ((wrappingAdd_le _ _).trans hfit)
  have hlen : min (wrappingSub (UserBuffer.mk (sub :: subs)).len offset) buf.length = buf.length := by
    rw [wrappingSub_of_le (by omega) hsize]
    omega
  have hroom : offset + buf.length ≤ sub.length + (subs.map List.length).sum := by
    simpa [len] using hfit
  obtain ⟨subs', hrun, hlens, hflat⟩ :=
    writeAtLoop_of_offset_le_head le_rfl hbuf subs hoff hroom
  refine ⟨⟨subs'⟩, ?_, hlens, by simpa using hflat⟩
  simp only [writeAt, List.cons_ne_nil, if_false, if_neg hwrap, hlen, hrun, Option.map_some]

example : (UserBuffer.mk [[0, 0], [0, 0]]).writeAt 1 [7, 8] = some (⟨[[0, 7], [8, 0]]⟩, 2) := by
  decide

/-- When every slice ends before the offset, `write_at` skips them all without
    moving its running start, writes nothing and returns `EPERM`. -/
theorem writeAt_eperm_of_short_slices (ub : UserBuffer) (offset : Nat) (buf : List UInt8)
    (hne : ub.buffers ≠ []) (hshort : ∀ s ∈ ub.buffers, s.length < offset)
    (hfit : offset + buf.length ≤ ub.len) :
    ub.writeAt offset buf = some (ub, eperm) := by
  have hwrap : ¬ ub.len < wrappingAdd offset buf.length := not_lt.mpr ((wrappingAdd_le _ _).trans hfit)
  rw [writeAt, if_neg hne, if_neg hwrap]
  dsimp only
  rw [writeAtLoop_of_short 0 ub.buffers 0 (fun s hs => by simpa using hshort s hs)]
  rfl

theorem writeAt_skips_two_short_slices :
    [[0, 0, 0, 0], [0, 0, 0, 0]] ≠ ([] : List (List UInt8)) ∧
      (∀ s ∈ [[0, 0, 0, 0], [0, 0, 0, 0]], s.length < 5) ∧
      5 + 3 ≤ (UserBuffer.mk [[0, 0, 0, 0], [0, 0, 0, 0]]).len ∧
      (UserBuffer.mk [[0, 0, 0, 0], [0, 0, 0, 0]]).writeAt 5 [1, 2, 3] =
        some (⟨[[0, 0, 0, 0], [0, 0, 0, 0]]⟩, eperm) :=
  ⟨by decide, by decide, by decide,
    writeAt_eperm_of_short_slices ⟨[[0, 0, 0, 0], [0, 0, 0, 0]]⟩ 5 [1, 2, 3] (by decide) (by decide)
      (by decide)⟩

theorem writeAt_nil_eq_eperm {ub : UserBuffer} {offset : Nat} {r : UserBuffer × Int}
    (h : ub.writeAt offset [] = some r) : r.2 = eperm := by
  simp only [writeAt] at h
  split at h
  · cases h
  · split at h
    · cases h
    · obtain ⟨r', hr', rfl⟩ := Option.map_eq_some_iff.mp h
      exact writeAtLoop_nil_buf ub.buffers 0 0 r' hr'

example : (UserBuffer.mk [[0], [0]]).writeAt 1 [] = none ∧
    (UserBuffer.mk [[0]]).writeAt 1 [] = some (⟨[[0]]⟩, eperm) := by
  decide

end UserBuffer

end OsKernel.Mm

import OsKernel.Mm.UserBuffer

/-! # The pieces of a user range

`translated_byte_buffer` cuts `[ptr, ptr + len)` at page boundaries.  Here the
cut is stated on its own terms: the range meets `pageCount ptr len` pages, and
its part in the `k`-th of them is `pieceAt ptr len k`.  The pieces are not
empty, each lies in one page, and one after the other they are the range.  The
loop of `translated_byte_buffer` returns, piece by piece, the slice of the
frame each piece's page maps to, and `UserBufferIterator` over those slices
yields the physical address of every byte of the range, in order.
-/

namespace OsKernel.Mm

/-- The number of pages that `[ptr, ptr + len)` meets. -/
def pageCount (ptr len : Nat) : Nat :=
  if len = 0 then 0 else floor (ptr + len - 1) + 1 - floor ptr

/-- The part of `[ptr, ptr + len)` in the `k`-th page it meets. -/
def pieceAt (ptr len k : Nat) : Nat × Nat :=
  (max ptr ((floor ptr + k) * pageSize), min (ptr + len) ((floor ptr + k + 1) * pageSize))

/-- The page-bounded pieces of `[ptr, ptr + len)`, in order. -/
def pagePieces (ptr len : Nat) : List (Nat × Nat) :=
  (List.range (pageCount ptr len)).map (pieceAt ptr len)

/-! ### The pieces -/

theorem pagePieces_zero (ptr : Nat) : pagePieces ptr 0 = [] := by
  simp [pagePieces, pageCount]

theorem pagePieces_cons {ptr len : Nat} (h : 0 < len) :
    pagePieces ptr len = (ptr, sliceEnd ptr (ptr + len)) ::
      pagePieces (sliceEnd ptr (ptr + len)) (ptr + len - sliceEnd ptr (ptr + len)) := by
  have hcount : pageCount ptr len =
      pageCount (sliceEnd ptr (ptr + len)) (ptr + len - sliceEnd ptr (ptr + len)) + 1 := by
    unfold pageCount sliceEnd floor pageSize
    split_ifs <;> omega
  rw [pagePieces, hcount, List.range_succ_eq_map, List.map_cons, List.map_map, pagePieces]
  congr 1
  · simp only [pieceAt, sliceEnd, floor, pageSize, Nat.add_zero, Prod.mk.injEq]
    omega
  · refine List.map_congr_left fun k hk => ?_
    have hk' := List.mem_range.mp hk
    have hrest : ptr + len - sliceEnd ptr (ptr + len) ≠ 0 := by
      intro h0
      rw [h0, pageCount, if_pos rfl] at hk'
      exact Nat.not_lt_zero _ hk'
    have hend : sliceEnd ptr (ptr + len) = (floor ptr + 1) * pageSize := by
      unfold sliceEnd at hrest ⊢
      omega
    rw [hend] at hrest
    rw [Function.comp_apply, hend]
    simp only [pieceAt, floor, pageSize, Prod.mk.injEq] at hrest ⊢
    omega

theorem lt_of_mem_pagePieces {ptr len : Nat} {piece : Nat × Nat} (h : piece ∈ pagePieces ptr len) :
    piece.1 < piece.2 := by
  obtain ⟨k, hk, rfl⟩ := List.mem_map.mp h
  have hk' := List.mem_range.mp hk
  simp only [pageCount, floor, pageSize] at hk'
  simp only [pieceAt, floor, pageSize]
  split_ifs at hk' <;> omega

theorem floor_of_mem_pagePieces {ptr len : Nat} {piece : Nat × Nat} (h : piece ∈ pagePieces ptr len)
    {va : Nat} (hlo : piece.1 ≤ va) (hhi : va < piece.2) : floor va = floor piece.1 := by
  obtain ⟨k, -, rfl⟩ := List.mem_map.mp h
  simp only [pieceAt, floor, pageSize] at hlo hhi ⊢
  omega

theorem flatMap_pagePieces (len : Nat) :
    ∀ ptr, (pagePieces ptr len).flatMap (fun piece => List.range' piece.1 (piece.2 - piece.1)) =
      List.range' ptr len := by
  induction len using Nat.strong_induction_on with
  | _ len ih =>
    intro ptr
    rcases Nat.eq_zero_or_pos len with rfl | hpos
    · rw [pagePieces_zero]
      rfl
    · have hend : ptr < sliceEnd ptr (ptr + len) ∧ sliceEnd ptr (ptr + len) ≤ ptr + len := by
        simp only [sliceEnd, floor, pageSize]
        omega
      have hsplit : len = (sliceEnd ptr (ptr + len) - ptr) + (ptr + len - sliceEnd ptr (ptr + len)) := by
        omega
      rw [pagePieces_cons hpos, List.flatMap_cons, ih _ (by omega)]
      conv => rhs; rw [hsplit, ← List.range'_append]
      rw [Nat.one_mul, Nat.add_sub_cancel' hend.1.le]

theorem fst_mem_of_mem_pagePieces {ptr len : Nat} {piece : Nat × Nat} (h : piece ∈ pagePieces ptr len) :
    ptr ≤ piece.1 ∧ piece.1 < ptr + len := by
  have hin : piece.1 ∈ (pagePieces ptr len).flatMap fun p => List.range' p.1 (p.2 - p.1) :=
    List.mem_flatMap.mpr ⟨piece, h, List.mem_range'.mpr ⟨0, by
      have := lt_of_mem_pagePieces h
      omega, by simp⟩⟩
  rw [flatMap_pagePieces, List.mem_range'] at hin
  omega

/-! ### The slices `translated_byte_buffer` returns -/

/-- The slice of frame memory that a piece within one page is: the frame its
    page maps to, from the offset of its first byte. -/
def physSlice (pt : PageTable) (piece : Nat × Nat) : Option UserSlice :=
  (pt.translate (floor piece.1)).map fun pte =>
    ⟨ptePpn pte, pageOffset piece.1, pageOffset piece.1 + (piece.2 - piece.1)⟩

/-- The loop of `translated_byte_buffer` from `start` takes the slice of every
    piece of `[start, end)` in order, and panics at the first unmapped one; the
    induction is on the fuel, which stays above the bytes left. -/
theorem translatedByteBufferLoop_eq_mapM {pt : PageTable} {stop : Nat} (hstop : stop < 2 ^ 38) :
    ∀ (fuel start : Nat), start ≤ stop → stop - start < fuel →
      translatedByteBufferLoop pt stop fuel start = (pagePieces start (stop - start)).mapM (physSlice pt) := by
  intro fuel
  induction fuel with
  | zero => intro _ _ h; omega
  | succ fuel ih =>
    intro start hle hfuel
    by_cases hlt : start < stop
    · have hnext : start < sliceEnd start stop ∧ sliceEnd start stop ≤ stop := by
        simp only [sliceEnd, floor, pageSize]
        omega
      have hstart : start + (stop - start) = stop := by omega
      rw [translatedByteBufferLoop_step fuel hlt hstop, pagePieces_cons (by omega), hstart,
        List.mapM_cons, ih (sliceEnd start stop) hnext.2 (by omega)]
      cases hpte : pt.translate (floor start) with
      | none => simp [physSlice, hpte]
      | some pte =>
          cases (pagePieces (sliceEnd start stop) (stop - sliceEnd start stop)).mapM (physSlice pt) <;>
            simp [physSlice, hpte]
    · have hstart : start = stop := by omega
      subst hstart
      rw [Nat.sub_self, pagePieces_zero, translatedByteBufferLoop, if_neg hlt]
      rfl

theorem translatedByteBuffer_eq_mapM (pt : PageTable) {ptr len : Nat} (hrange : ptr + len < 2 ^ 38) :
    translatedByteBuffer pt ptr len = (pagePieces ptr len).mapM (physSlice pt) := by
  have hstop : wrappingAdd ptr len = ptr + len := Nat.mod_eq_of_lt (by omega)
  rw [translatedByteBuffer, hstop, translatedByteBufferLoop_eq_mapM hrange _ ptr (by omega) (by omega),
    Nat.add_sub_cancel_left]

/-! ### The bytes behind the slices -/

/-- The physical address of user address `va`: the frame its page maps to,
    and its offset there. -/
def physAddr (pt : PageTable) (va : Nat) : Option Nat :=
  (pt.translate (floor va)).map fun pte => ptePpn pte * pageSize + pageOffset va

/-- The number of bytes of a slice. -/
def UserSlice.len (s : UserSlice) : Nat :=
  s.hi - s.lo

/-- The addresses of a slice's bytes, `&mut slice[i] as *mut u8` for each `i`. -/
def UserSlice.addrs (s : UserSlice) : List Nat :=
  (List.range s.len).map fun i => s.ppn * pageSize + s.lo + i

@[simp] theorem UserSlice.length_addrs (s : UserSlice) : s.addrs.length = s.len := by
  simp [UserSlice.addrs]

/-- A piece within one page. -/
def InPage (piece : Nat × Nat) : Prop :=
  piece.1 < piece.2 ∧ ∀ va, piece.1 ≤ va → va < piece.2 → floor va = floor piece.1

theorem inPage_of_mem_pagePieces {ptr len : Nat} {piece : Nat × Nat} (h : piece ∈ pagePieces ptr len) :
    InPage piece :=
  ⟨lt_of_mem_pagePieces h, fun _ hlo hhi => floor_of_mem_pagePieces h hlo hhi⟩

theorem physSlice_spec {pt : PageTable} {piece : Nat × Nat} {s : UserSlice} (hpage : InPage piece)
    (h : physSlice pt piece = some s) :
    s.lo < s.hi ∧ s.len = piece.2 - piece.1 ∧
      (List.range' piece.1 (piece.2 - piece.1)).mapM (physAddr pt) = some s.addrs := by
  obtain ⟨pte, hpte, rfl⟩ := Option.map_eq_some_iff.mp h
  obtain ⟨hlt, hfloor⟩ := hpage
  refine ⟨show pageOffset piece.1 < pageOffset piece.1 + (piece.2 - piece.1) by omega,
    by simp [UserSlice.len], ?_⟩
  have hbyte : ∀ va ∈ List.range' piece.1 (piece.2 - piece.1),
      physAddr pt va = some (ptePpn pte * pageSize + pageOffset va) := by
    intro va hva
    rw [List.mem_range'] at hva
    obtain ⟨i, hi, rfl⟩ := hva
    rw [physAddr, hfloor _ (by omega) (by omega), hpte]
    rfl
  rw [StateLoop.mapM_eq_some_map hbyte, List.range'_eq_map_range, List.map_map, UserSlice.addrs,
    UserSlice.len, Nat.add_sub_cancel_left]
  refine congrArg some (List.map_congr_left fun i hi => ?_)
  have hi' := List.mem_range.mp hi
  have hoff : pageOffset (piece.1 + i) = pageOffset piece.1 + i := by
    have hsame := hfloor (piece.1 + i) (by omega) (by omega)
    simp only [floor, pageOffset_eq_mod, pageSize] at hsame ⊢
    omega
  simp only [Function.comp_apply, hoff, Nat.add_assoc]

/-! ### `UserBufferIterator` -/

/-- `UserBufferIterator`, over the slices of the `UserBuffer` it consumes. -/
structure UserBufferIterator where
  buffers : List UserSlice
  currentBuffer : Nat
  currentIdx : Nat

namespace UserBufferIterator

/-- `UserBuffer::into_iter`. -/
def new (buffers : List UserSlice) : UserBufferIterator :=
  ⟨buffers, 0, 0⟩

/-- `next`: the address of byte `current_idx` of buffer `current_buffer`,
    then on to the next byte or the next buffer; `some none` is the end, and
    an index past the slice panics. -/
def next (it : UserBufferIterator) : Option (Option (Nat × UserBufferIterator)) :=
  if it.buffers.length ≤ it.currentBuffer then some none
  else
    let b := it.buffers.getD it.currentBuffer ⟨0, 0, 0⟩
    if it.currentIdx < b.len then
      some (some (b.ppn * pageSize + b.lo + it.currentIdx,
        if it.currentIdx + 1 = b.len then ⟨it.buffers, it.currentBuffer + 1, 0⟩
        else ⟨it.buffers, it.currentBuffer, it.currentIdx + 1⟩))
    else none

/-- The addresses `next` yields until it returns `None`; `fuel` bounds the
    calls. -/
def collect : Nat → UserBufferIterator → Option (List Nat)
  | 0, _ => none
  | fuel + 1, it =>
      match it.next with
      | none => none
      | some none => some []
      | some (some (r, it')) => (collect fuel it').map (r :: ·)

/-- What is left to yield from byte `ci` of buffer `cb` on. -/
def rest (buffers : List UserSlice) (cb ci : Nat) : List Nat :=
  ((buffers.drop cb).flatMap UserSlice.addrs).drop ci

theorem collect_rest {buffers : List UserSlice} (hne : ∀ s ∈ buffers, 0 < s.len) :
    ∀ fuel cb ci, (∀ h : cb < buffers.length, ci < buffers[cb].len) → (rest buffers cb ci).length < fuel →
      collect fuel ⟨buffers, cb, ci⟩ = some (rest buffers cb ci) := by
  intro fuel
  induction fuel with
  | zero => intro _ _ _ h; omega
  | succ fuel ih =>
    intro cb ci hpos hfuel
    by_cases hend : buffers.length ≤ cb
    · have hnext : next ⟨buffers, cb, ci⟩ = some none := if_pos hend
      rw [collect, hnext, rest, List.drop_eq_nil_of_le hend, List.flatMap_nil, List.drop_nil]
    · have hcb : cb < buffers.length := by omega
      have hci := hpos hcb
      have hget : buffers.getD cb ⟨0, 0, 0⟩ = buffers[cb] := by
        rw [List.getD_eq_getElem?_getD, List.getElem?_eq_getElem hcb]
        rfl
      have hsplit : rest buffers cb ci =
          (buffers[cb].ppn * pageSize + buffers[cb].lo + ci) :: ((buffers[cb].addrs.drop (ci + 1)) ++
            (buffers.drop (cb + 1)).flatMap UserSlice.addrs) := by
        rw [rest, List.drop_eq_getElem_cons hcb, List.flatMap_cons,
          List.drop_append_of_le_length (by simp; omega),
          List.drop_eq_getElem_cons (by simp; exact hci)]
        simp [UserSlice.addrs]
      by_cases hlast : ci + 1 = buffers[cb].len
      · have hnext : next ⟨buffers, cb, ci⟩ =
            some (some (buffers[cb].ppn * pageSize + buffers[cb].lo + ci, ⟨buffers, cb + 1, 0⟩)) := by
          simp only [next, if_neg hend, hget, if_pos hci, if_pos hlast]
        have hrest : rest buffers (cb + 1) 0 = (buffers.drop (cb + 1)).flatMap UserSlice.addrs := by
          rw [rest, List.drop_zero]
        have hdrop : buffers[cb].addrs.drop (ci + 1) = [] :=
          List.drop_eq_nil_of_le (by rw [UserSlice.length_addrs]; omega)
        rw [hsplit, hdrop, List.nil_append] at hfuel ⊢
        rw [collect, hnext]
        dsimp only
        rw [ih (cb + 1) 0 (fun h => hne _ (List.getElem_mem h)) (by rw [hrest]; simpa using hfuel),
          hrest]
        rfl
      · have hnext : next ⟨buffers, cb, ci⟩ =
            some (some (buffers[cb].ppn * pageSize + buffers[cb].lo + ci, ⟨buffers, cb, ci + 1⟩)) := by
          simp only [next, if_neg hend, hget, if_pos hci, if_neg hlast]
        have hrest : rest buffers cb (ci + 1) = buffers[cb].addrs.drop (ci + 1) ++
            (buffers.drop (cb + 1)).flatMap UserSlice.addrs := by
          rw [rest, List.drop_eq_getElem_cons hcb, List.flatMap_cons,
            List.drop_append_of_le_length (by simp; omega)]
        rw [hsplit] at hfuel ⊢
        rw [collect, hnext]
        dsimp only
        rw [ih cb (ci + 1) (fun _ => by omega) (by rw [hrest]; simpa using hfuel), hrest]
        rfl

theorem collect_new {buffers : List UserSlice} (hne : ∀ s ∈ buffers, 0 < s.len) {fuel : Nat}
    (hfuel : (buffers.flatMap UserSlice.addrs).length < fuel) :
    collect fuel (new buffers) = some (buffers.flatMap UserSlice.addrs) := by
  have h := collect_rest hne fuel 0 0 (fun h => hne _ (List.getElem_mem h)) (by simpa [rest] using hfuel)
  simpa [rest, new] using h

example : collect 3 (new [⟨5, 2, 4⟩]) = some [5 * pageSize + 2, 5 * pageSize + 3] := by
  rfl

end UserBufferIterator

/-- For a range below `2 ^ 38` whose pages are all mapped,
    `translated_byte_buffer` returns one slice for each page-bounded piece of
    the range, in order, each the piece's bytes in its frame: none empty, and
    their lengths adding up to `len`.  `UserBufferIterator` over them yields
    the physical address of every byte of the range, in order. -/
theorem translatedByteBuffer_segments {pt : PageTable} {ptr len : Nat} (hrange : ptr + len < 2 ^ 38)
    (hmapped : ∀ va, ptr ≤ va → va < ptr + len → (pt.translate (floor va)).isSome) :
    ∃ slices, translatedByteBuffer pt ptr len = some slices ∧
      (∀ s ∈ slices, s.lo < s.hi) ∧ (slices.map UserSlice.len).sum = len ∧
      List.Forall₂ (fun piece s => physSlice pt piece = some s) (pagePieces ptr len) slices ∧
      ∀ fuel, len < fuel →
        (UserBufferIterator.new slices).collect fuel = (List.range' ptr len).mapM (physAddr pt) := by
  obtain ⟨slices, hslices⟩ : ∃ slices, (pagePieces ptr len).mapM (physSlice pt) = some slices := by
    cases h : (pagePieces ptr len).mapM (physSlice pt) with
    | some slices => exact ⟨slices, rfl⟩
    | none =>
        obtain ⟨piece, hpiece, hnone⟩ := StateLoop.mapM_eq_none_iff.mp h
        obtain ⟨hlo, hhi⟩ := fst_mem_of_mem_pagePieces hpiece
        have hsome := hmapped piece.1 hlo hhi
        simp [Option.map_eq_none_iff.mp hnone] at hsome
  have hpairs := StateLoop.forall₂_of_mapM_eq_some hslices
  have hspec : List.Forall₂ (fun piece s => s.lo < s.hi ∧ s.len = piece.2 - piece.1 ∧
      (List.range' piece.1 (piece.2 - piece.1)).mapM (physAddr pt) = some s.addrs) (pagePieces ptr len) slices :=
    ((List.forall₂_and_left _ _).mpr ⟨fun _ h => inPage_of_mem_pagePieces h, hpairs⟩).imp
      fun _ _ hpair => physSlice_spec hpair.1 hpair.2
  have haddrs : (List.range' ptr len).mapM (physAddr pt) = some (slices.flatMap UserSlice.addrs) := by
    rw [← flatMap_pagePieces len ptr]
    exact StateLoop.mapM_flatMap_of_forall₂ (hspec.imp fun _ _ h => h.2.2)
  have hlen : (slices.flatMap UserSlice.addrs).length = len := by
    have := (StateLoop.forall₂_of_mapM_eq_some haddrs).length_eq
    rw [List.length_range'] at this
    exact this.symm
  have hlt : ∀ s ∈ slices, s.lo < s.hi :=
    ((List.forall₂_and_left _ _).mp (hspec.flip.imp fun _ _ h => ⟨h.1, h⟩)).1
  refine ⟨slices, translatedByteBuffer_eq_mapM pt hrange ▸ hslices, hlt, ?_, hpairs, fun fuel hfuel => ?_⟩
  · rw [← hlen, List.length_flatMap]
    simp
  · rw [haddrs]
    exact UserBufferIterator.collect_new (fun s hs => by have := hlt s hs; simp [UserSlice.len]; omega)
      (by omega)

/-- A table that maps every page `v` to frame `v + 1`. -/
def everyPageTable : PageTable :=
  ⟨0, [0], fun _ => some 0, fun _ => some 0, fun i => pteNew (i + 1) pteV⟩

theorem translatedByteBuffer_segments_across_page :
    ∃ slices, translatedByteBuffer everyPageTable 4090 10 = some slices ∧
      (∀ s ∈ slices, s.lo < s.hi) ∧ (slices.map UserSlice.len).sum = 10 ∧
      List.Forall₂ (fun piece s => physSlice everyPageTable piece = some s) (pagePieces 4090 10) slices ∧
      ∀ fuel, 10 < fuel →
        (UserBufferIterator.new slices).collect fuel = (List.range' 4090 10).mapM (physAddr everyPageTable) :=
  translatedByteBuffer_segments (by norm_num) fun _ _ _ => rfl

end OsKernel.Mm

import OsKernel.Mm.BufferSegments

/-! # Copying a segment into its area

`MapArea::copy_data` of `mm/memory_set.rs` copies the bytes of an ELF segment
into the frames of a framed area, from `offset` into its first page on: the
first round fills the rest of that page, each later one a whole page or what is
left of the data.  Each round writes its bytes where the page table maps their
addresses, and a later round never lands in an earlier round's frame when the
area's pages map to distinct frames, as the frames `MapArea::map` allocates for
a framed area are.  Two pages on one frame let a later page overwrite an
earlier one, and an area with no page panics at the `unwrap` of its start page
even for an empty segment.
-/

namespace OsKernel.Mm

open MapArea

theorem writeBytes_spec (ppn : Nat) {off : Nat} {bytes : List UInt8} (h : off + bytes.length ≤ pageSize)
    (p : Phys) :
    ∃ p', writeBytes ppn off bytes p = some ((), p') ∧ p'.allocator = p.allocator ∧
      ∀ q o, p'.mem q o =
        if q = ppn ∧ off ≤ o ∧ o < off + bytes.length then bytes.getD (o - off) 0 else p.mem q o := by
  refine ⟨_, if_pos h, rfl, fun q o => ?_⟩
  by_cases hq : q = ppn
  · subst hq
    simp
  · simp [hq]

theorem slice_getD {data : List UInt8} {lo hi i : Nat} (hlo : lo ≤ i) (hi' : i < data.length)
    (hihi : i < hi) : ((data.drop lo).take (hi - lo)).getD (i - lo) 0 = data[i] := by
  simp [List.getD_eq_getElem?_getD, show i - lo < hi - lo by omega, Nat.add_sub_cancel' hlo, hi']

/-- The frame, and the offset in it, where the page table puts user address `va`. -/
def userTarget (pt : PageTable) (va : Nat) : Option (Nat × Nat) :=
  (pt.translate (floor va)).map fun pte => (ptePpn pte, pageOffset va)

theorem userByte_eq_map (pt : PageTable) (mem : Nat → Nat → UInt8) (va : Nat) :
    userByte pt mem va = (userTarget pt va).map fun t => mem t.1 t.2 := by
  simp only [userByte, userTarget, Option.map_map]
  rfl

theorem userTarget_of_mem_page {pt : PageTable} {vpn pte va : Nat} (hpte : pt.translate vpn = some pte)
    (hlo : vpn * pageSize ≤ va) (hhi : va < vpn * pageSize + pageSize) :
    userTarget pt va = some (ptePpn pte, va - vpn * pageSize) := by
  have hfloor : floor va = vpn := by
    simp only [floor, pageSize] at *
    omega
  have hoff : pageOffset va = va - vpn * pageSize := by
    rw [pageOffset_eq_mod]
    simp only [pageSize] at *
    omega
  simp [userTarget, hfloor, hpte, hoff]

/-- The pages `vpn, …, vpn + k - 1` are mapped, to distinct frames. -/
structure MappedPages (pt : PageTable) (vpn k : Nat) : Prop where
  mapped : ∀ j < k, (pt.translate (vpn + j)).isSome
  distinct : ∀ i < k, ∀ j < k,
    (pt.translate (vpn + i)).map ptePpn = (pt.translate (vpn + j)).map ptePpn → i = j

section Pages

variable {pt : PageTable} {l k : Nat}

theorem MappedPages.translate_eq_some (hpages : MappedPages pt l k) {vpn : Nat} (hlo : l ≤ vpn)
    (hhi : vpn < l + k) : ∃ pte, pt.translate vpn = some pte := by
  have h := hpages.mapped (vpn - l) (by omega)
  rw [Nat.add_sub_cancel' hlo] at h
  exact Option.isSome_iff_exists.mp h

theorem MappedPages.frame_ne (hpages : MappedPages pt l k) {vpn pte va q o : Nat}
    (hpte : pt.translate vpn = some pte) (hvpn : l ≤ vpn) (hlo : (vpn + 1) * pageSize ≤ va)
    (hhi : va < (l + k) * pageSize) (ht : userTarget pt va = some (q, o)) : q ≠ ptePpn pte := by
  obtain ⟨pw, hpw, hqo⟩ := Option.map_eq_some_iff.mp ht
  intro hq
  have hfloor : l ≤ floor va ∧ floor va < l + k := by
    simp only [floor, pageSize] at *
    omega
  have hvk : vpn < l + k := by
    simp only [pageSize] at hlo hhi
    omega
  have hidx := hpages.distinct (floor va - l) (by omega) (vpn - l) (by omega) (by
    rw [Nat.add_sub_cancel' hfloor.1, Nat.add_sub_cancel' hvpn, hpw, hpte]
    simp only [Option.map_some, Option.some.injEq]
    rw [← hq]
    exact (Prod.mk.inj hqo).1)
  simp only [floor, pageSize] at *
  omega

end Pages

/-- `mem'` holds `data[i]` at user address `base + i` for each `i` in
    `[lo, hi)`, and agrees with `mem` wherever none of those bytes lands. -/
structure Copied (pt : PageTable) (data : List UInt8) (base lo hi : Nat)
    (mem mem' : Nat → Nat → UInt8) : Prop where
  placed : ∀ i (hi' : i < data.length), lo ≤ i → i < hi → userByte pt mem' (base + i) = some data[i]
  unchanged : ∀ q o, (∀ i, lo ≤ i → i < hi → userTarget pt (base + i) ≠ some (q, o)) → mem' q o = mem q o

theorem Copied.trans {pt : PageTable} {data : List UInt8} {base lo mid hi : Nat}
    {mem₁ mem₂ mem₃ : Nat → Nat → UInt8} (h₁ : Copied pt data base lo mid mem₁ mem₂)
    (h₂ : Copied pt data base mid hi mem₂ mem₃) (hlm : lo ≤ mid) (hmh : mid ≤ hi)
    (hdisj : ∀ i j, lo ≤ i → i < mid → mid ≤ j → j < hi → ∀ t,
      userTarget pt (base + i) = some t → userTarget pt (base + j) ≠ some t) :
    Copied pt data base lo hi mem₁ mem₃ := by
  refine ⟨fun i hi' hlo hhi => ?_, fun q o hnot => ?_⟩
  · by_cases him : i < mid
    · have hfirst := h₁.placed i hi' hlo him
      rw [userByte_eq_map] at hfirst ⊢
      obtain ⟨t, ht, hval⟩ := Option.map_eq_some_iff.mp hfirst
      rw [ht, Option.map_some, h₂.unchanged t.1 t.2 fun j hj hjhi => hdisj i j hlo him hj hjhi t ht, hval]
    · exact h₂.placed i hi' (by omega) hhi
  · rw [h₂.unchanged q o fun j hj hjhi => hnot j (by omega) hjhi,
      h₁.unchanged q o fun i hi hihi => hnot i hi (by omega)]

section Loop

variable {pt : PageTable} {data : List UInt8}

theorem copyDataLoop_succ {fuel start po vpn pte : Nat} {src : List UInt8} {p p₁ : Phys}
    (hsrc : slice data start (min data.length (start + pageSize - po)) = some src)
    (hpte : pt.translate vpn = some pte) (hwrite : writeBytes (ptePpn pte) po src p = some ((), p₁)) :
    copyDataLoop pt data (fuel + 1) start po vpn p =
      (if data.length ≤ start + pageSize - po then pure ()
        else copyDataLoop pt data fuel (start + pageSize - po) 0 (vpn + 1)) p₁ := by
  rw [copyDataLoop, StateLoop.bind_of_eq_some (StateLoop.lift_eq_some.mpr ⟨hsrc, rfl⟩),
    StateLoop.bind_of_eq_some (StateLoop.lift_eq_some.mpr ⟨hpte, rfl⟩), StateLoop.bind_of_eq_some hwrite]

/-- One round of `copy_data`, from byte `start` of the data at offset `po` of
    page `vpn`: it copies the bytes up to the end of the page, or of the data,
    into the page's frame. -/
theorem copyRound_spec (fuel : Nat) {base start po vpn pte : Nat} (hpte : pt.translate vpn = some pte)
    (hpos : vpn * pageSize + po = base + start) (hpo : po < pageSize) (hstart : start ≤ data.length)
    (p : Phys) :
    ∃ p₁, copyDataLoop pt data (fuel + 1) start po vpn p =
        (if data.length ≤ start + pageSize - po then pure ()
          else copyDataLoop pt data fuel (start + pageSize - po) 0 (vpn + 1)) p₁ ∧
      p₁.allocator = p.allocator ∧
      Copied pt data base start (min data.length (start + pageSize - po)) p.mem p₁.mem := by
  have hsrc : slice data start (min data.length (start + pageSize - po)) =
      some ((data.drop start).take (min data.length (start + pageSize - po) - start)) :=
    if_pos ⟨by omega, by omega⟩
  have hlen : ((data.drop start).take (min data.length (start + pageSize - po) - start)).length =
      min data.length (start + pageSize - po) - start := by
    simp only [List.length_take, List.length_drop]
    omega
  obtain ⟨p₁, hwrite, halloc, hmem⟩ := writeBytes_spec (ptePpn pte)
    (show po + ((data.drop start).take (min data.length (start + pageSize - po) - start)).length ≤ pageSize by
      rw [hlen]
      omega) p
  have hround : ∀ i, start ≤ i → i < start + pageSize - po →
      userTarget pt (base + i) = some (ptePpn pte, po + (i - start)) := by
    intro i hlo hhi
    rw [userTarget_of_mem_page hpte (by omega) (by omega)]
    congr 2
    omega
  refine ⟨p₁, copyDataLoop_succ hsrc hpte hwrite, halloc, fun i hi hlo hhi => ?_, fun q o hnot => ?_⟩
  · rw [userByte_eq_map, hround i hlo (by omega), Option.map_some, hmem, hlen,
      if_pos ⟨rfl, by omega, by omega⟩, Nat.add_sub_cancel_left, slice_getD hlo hi hhi]
  · rw [hmem, hlen, if_neg]
    rintro ⟨rfl, hlo, hhi⟩
    refine hnot (start + (o - po)) (by omega) (by omega) ?_
    rw [hround _ (by omega) (by omega)]
    congr 2
    omega

variable {l k offset : Nat}

/-- The loop of `copy_data` from byte `start` of the data, at offset `po` of
    page `vpn`, copies the rest of the data when the fuel covers its rounds.
    The induction is on the fuel; the invariant is that `vpn` and `po` point at
    the user address of byte `start`. -/
theorem copyDataLoop_spec (hpages : MappedPages pt l k) (hk : 0 < k) (hoffset : offset < pageSize)
    (hfit : offset + data.length ≤ pageSize * k) :
    ∀ fuel start po vpn (p : Phys), vpn * pageSize + po = l * pageSize + offset + start → po < pageSize →
      (start = 0 ∨ start < data.length) → data.length - start < fuel →
      ∃ p', copyDataLoop pt data fuel start po vpn p = some ((), p') ∧ p'.allocator = p.allocator ∧
        Copied pt data (l * pageSize + offset) start data.length p.mem p'.mem := by
  intro fuel
  induction fuel with
  | zero => intro _ _ _ _ _ _ _ h; omega
  | succ fuel ih =>
    intro start po vpn p hpos hpo hstart hfuel
    have hvpn : l ≤ vpn ∧ vpn < l + k := by
      simp only [pageSize] at *
      omega
    obtain ⟨pte, hpte⟩ := hpages.translate_eq_some hvpn.1 hvpn.2
    have hle : start ≤ data.length := by omega
    obtain ⟨p₁, hround, halloc₁, hcopied₁⟩ := copyRound_spec fuel hpte hpos hpo hle p
    rw [hround]
    by_cases hdone : data.length ≤ start + pageSize - po
    · rw [if_pos hdone]
      rw [min_eq_left hdone] at hcopied₁
      exact ⟨p₁, rfl, halloc₁, hcopied₁⟩
    · rw [if_neg hdone]
      rw [min_eq_right (by omega)] at hcopied₁
      obtain ⟨p', hrun, halloc', hcopied'⟩ := ih (start + pageSize - po) 0 (vpn + 1) p₁
        (by rw [Nat.add_mul, Nat.one_mul]; omega) (by simp [pageSize]) (.inr (by omega)) (by omega)
      refine ⟨p', hrun, halloc'.trans halloc₁, hcopied₁.trans hcopied' (by omega) (by omega) ?_⟩
      intro i j hi hihi hj hjhi t hti htj
      rw [userTarget_of_mem_page hpte (by omega) (by omega)] at hti
      obtain rfl := Option.some.inj hti
      refine hpages.frame_ne hpte hvpn.1 ?_ ?_ htj rfl
      · rw [Nat.add_mul, Nat.one_mul]
        omega
      · rw [Nat.add_mul]
        simp only [pageSize] at *
        omega

end Loop

/-- For a framed area whose first `k ≥ 1` pages are mapped to distinct frames,
    and a segment that fits in them from `offset` on, `copy_data` returns,
    with byte `i` of the segment at user address `start_vpn * 4096 + offset + i`
    and every other byte of memory, and the allocator, as they were. -/
theorem copyData_places_segment {area : MapArea} {pt : PageTable} {data : List UInt8} {offset k : Nat}
    (hframed : area.mapType = .framed) (hk : 0 < k) (hpages : MappedPages pt area.vpnRange.l k)
    (hoffset : offset < pageSize) (hfit : offset + data.length ≤ pageSize * k) (p : Phys) :
    ∃ p', area.copyData pt data offset p = some ((), p') ∧ p'.allocator = p.allocator ∧
      (∀ i (hi : i < data.length),
        userByte pt p'.mem (area.vpnRange.l * pageSize + offset + i) = some data[i]) ∧
      ∀ q o, (∀ i < data.length, userTarget pt (area.vpnRange.l * pageSize + offset + i) ≠ some (q, o)) →
        p'.mem q o = p.mem q o := by
  obtain ⟨p', hrun, halloc, hcopied⟩ := copyDataLoop_spec hpages hk hoffset hfit (data.length + 1) 0 offset
    area.vpnRange.l p (Nat.add_zero _).symm hoffset (.inl rfl) (by omega)
  refine ⟨p', ?_, halloc, fun i hi => hcopied.placed i hi (Nat.zero_le i) hi,
    fun q o hnot => hcopied.unchanged q o fun i _ hi => hnot i hi⟩
  rw [copyData, if_pos hframed]
  exact hrun

theorem everyPageTable_mapped (k : Nat) (hk : k ≤ 2 ^ 27) : MappedPages everyPageTable 0 k := by
  have hppn : ∀ v < 2 ^ 27, (everyPageTable.translate (0 + v)).map ptePpn = some (v + 1) := by
    intro v hv
    show some (ptePpn (pteNew (leafIndex (0 + v) + 1) pteV)) = some (v + 1)
    rw [Nat.zero_add, leafIndex, Nat.mod_eq_of_lt hv, ptePpn_pteNew (by omega) (by decide)]
  refine ⟨fun _ _ => rfl, fun i hi j hj h => ?_⟩
  rw [hppn i (by omega), hppn j (by omega)] at h
  simpa using h

/-- A framed area of two pages. -/
def twoPageArea : MapArea :=
  ⟨⟨0, 2, by decide⟩, [], .framed, 0⟩

theorem copyData_places_segment_two_pages :
    ∃ p', twoPageArea.copyData everyPageTable (List.replicate 200 7) 4000 (Phys.boot 0 0) = some ((), p') ∧
      p'.allocator = (Phys.boot 0 0).allocator ∧
      (∀ i (hi : i < (List.replicate 200 (7 : UInt8)).length),
        userByte everyPageTable p'.mem (twoPageArea.vpnRange.l * pageSize + 4000 + i) =
          some (List.replicate 200 (7 : UInt8))[i]) ∧
      ∀ q o, (∀ i < (List.replicate 200 (7 : UInt8)).length,
          userTarget everyPageTable (twoPageArea.vpnRange.l * pageSize + 4000 + i) ≠ some (q, o)) →
        p'.mem q o = (Phys.boot 0 0).mem q o :=
  copyData_places_segment rfl (by decide : 0 < 2) (everyPageTable_mapped 2 (by decide)) (by decide)
    (by rw [List.length_replicate]; decide) (Phys.boot 0 0)

/-- A table that maps every page to frame 1. -/
def oneFrameTable : PageTable :=
  ⟨0, [0], fun _ => some 0, fun _ => some 0, fun _ => pteNew 1 pteV⟩

/-- An area of no page, and a table that maps none. -/
def noPageArea : MapArea :=
  ⟨⟨0, 0, le_refl 0⟩, [], .framed, 0⟩

def emptyTable : PageTable :=
  ⟨0, [0], fun _ => none, fun _ => none, fun _ => 0⟩

/-- With both pages of the area on one frame, the segment's byte 4096 lands
    where byte 0 did, so user address 0 reads 1 and not byte 0's 0; with no page
    at all, copying the empty segment panics. -/
theorem copyData_overwrites_shared_frame :
    ((twoPageArea.copyData oneFrameTable (List.replicate 4096 0 ++ [1]) 0 (Phys.boot 0 0)).map
        fun r => userByte oneFrameTable r.2.mem 0) = some (some 1) ∧
      noPageArea.copyData emptyTable [] 0 (Phys.boot 0 0) = none := by
  constructor
  · decide +kernel
  · rfl

end OsKernel.Mm

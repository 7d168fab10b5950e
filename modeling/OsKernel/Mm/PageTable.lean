import OsKernel.Mm.FrameAllocator
import OsKernel.Lib.StateLoop

/-! # Sv39 page tables

Addresses, page numbers and page-table entries are their `usize` values
(`mm/address.rs`, `mm/page_table.rs`).  A page table is kept as what its three
levels determine: which level-1 and leaf tables exist (with the frame of each)
and the leaf entries, indexed by the low 27 bits of the page number, which is
all `VirtPageNum::indexes` looks at.  Creating a missing table takes a zeroed
frame from `frame_alloc`.
-/

namespace OsKernel.Mm

/-- `usize` arithmetic in release mode wraps. -/
def wrappingAdd (a b : Nat) : Nat :=
  (a + b) % 2 ^ 64

theorem wrappingAdd_le (a b : Nat) : wrappingAdd a b ≤ a + b :=
  Nat.mod_le _ _

def wrappingSub (a b : Nat) : Nat :=
  (a + (2 ^ 64 - b % 2 ^ 64)) % 2 ^ 64

theorem wrappingSub_of_le {a b : Nat} (hb : b ≤ a) (ha : a < 2 ^ 64) : wrappingSub a b = a - b := by
  unfold wrappingSub
  rw [Nat.mod_eq_of_lt (by omega : b < 2 ^ 64)]
  omega

theorem wrappingSub_mod_sixteen (a b : Nat) :
    wrappingSub a b % 16 = (a % 16 + (16 - b % 16)) % 16 := by
  unfold wrappingSub
  rw [Nat.mod_mod_of_dvd _ (by norm_num : 16 ∣ 2 ^ 64)]
  omega

/-- `VirtAddr::floor`. -/
def floor (va : Nat) : Nat :=
  va / pageSize

/-- `VirtAddr::ceil`: `(va - 1 + PAGE_SIZE) / PAGE_SIZE` on `usize`. -/
def ceil (va : Nat) : Nat :=
  wrappingAdd (wrappingSub va 1) pageSize / pageSize

/-- `VirtAddr::from(usize)`: the low 39 bits. -/
def vaFromUsize (v : Nat) : Nat :=
  v % 2 ^ 39

/-- `VirtAddr::page_offset`. -/
def pageOffset (va : Nat) : Nat :=
  va &&& (pageSize - 1)

/-- `VirtPageNum::from(VirtAddr)`, which asserts that the address is aligned. -/
def vpnFromVa (va : Nat) : Option Nat :=
  if pageOffset va = 0 then some (floor va) else none

/-- The low 27 bits of a page number, all that `VirtPageNum::indexes` reads:
    the three 9-bit indexes in order. -/
def leafIndex (vpn : Nat) : Nat :=
  vpn % 2 ^ 27

/-- The first two indexes, which select the leaf table. -/
def tableIndex (vpn : Nat) : Nat :=
  leafIndex vpn / 2 ^ 9

/-- The first index, which selects the level-1 table. -/
def rootIndex (vpn : Nat) : Nat :=
  leafIndex vpn / 2 ^ 18

/-- `PTEFlags` bits. -/
def pteV : Nat := 1 <<< 0
def pteR : Nat := 1 <<< 1
def pteW : Nat := 1 <<< 2
def pteX : Nat := 1 <<< 3
def pteU : Nat := 1 <<< 4

/-- `PageTableEntry::new`. -/
def pteNew (ppn flags : Nat) : Nat :=
  ppn <<< 10 ||| flags

/-- `PageTableEntry::ppn`. -/
def ptePpn (bits : Nat) : Nat :=
  bits >>> 10 &&& (2 ^ 44 - 1)

/-- `PageTableEntry::flags`: `from_bits(bits as u8)`. -/
def pteFlags (bits : Nat) : Nat :=
  bits % 2 ^ 8

/-- `PageTableEntry::is_valid`. -/
def pteIsValid (bits : Nat) : Bool :=
  bits &&& pteV != 0

/-- Whether the flags of an entry include `flag`. -/
def hasFlag (bits flag : Nat) : Bool :=
  pteFlags bits &&& flag != 0

/-- `PageTable`. -/
structure PageTable where
  rootPpn : Nat
  /-- The frames of the table's nodes. -/
  frames : List Nat
  /-- The level-1 table under each root index, if any. -/
  level1 : Nat → Option Nat
  /-- The leaf table under each pair of first indexes, if any. -/
  level2 : Nat → Option Nat
  /-- The leaf entries, by `leafIndex`. -/
  leaves : Nat → Nat

namespace PageTable

/-- `PageTable::new`. -/
def new : StateT Phys Option PageTable := do
  let root ← frameAlloc
  pure ⟨root, [root], fun _ => none, fun _ => none, fun _ => 0⟩

/-- `find_pte`: the leaf entry, when the tables above it exist. -/
def findPte (pt : PageTable) (vpn : Nat) : Option Nat :=
  match pt.level1 (rootIndex vpn), pt.level2 (tableIndex vpn) with
  | some _, some _ => some (pt.leaves (leafIndex vpn))
  | _, _ => none

/-- `translate`. -/
def translate (pt : PageTable) (vpn : Nat) : Option Nat :=
  pt.findPte vpn

/-- The first round of `find_pte_create`: the level-1 table of `vpn`, created
    if missing.  A new table is a zeroed frame, so no leaf table is under it. -/
def ensureLevel1 (pt : PageTable) (vpn : Nat) : StateT Phys Option PageTable :=
  match pt.level1 (rootIndex vpn) with
  | some _ => pure pt
  | none => do
      let frame ← frameAlloc
      pure { pt with level1 := Function.update pt.level1 (rootIndex vpn) (some frame),
                     level2 := fun j => if j / 2 ^ 9 = rootIndex vpn then none else pt.level2 j,
                     frames := pt.frames ++ [frame] }

/-- The second round: the leaf table of `vpn`, created zeroed if missing. -/
def ensureLevel2 (pt : PageTable) (vpn : Nat) : StateT Phys Option PageTable :=
  match pt.level2 (tableIndex vpn) with
  | some _ => pure pt
  | none => do
      let frame ← frameAlloc
      pure { pt with level2 := Function.update pt.level2 (tableIndex vpn) (some frame),
                     leaves := fun i => if i / 2 ^ 9 = tableIndex vpn then 0 else pt.leaves i,
                     frames := pt.frames ++ [frame] }

/-- `find_pte_create`, up to the leaf entry it returns. -/
def findPteCreate (pt : PageTable) (vpn : Nat) : StateT Phys Option PageTable := do
  let pt ← pt.ensureLevel1 vpn
  pt.ensureLevel2 vpn

def setLeaf (pt : PageTable) (vpn bits : Nat) : PageTable :=
  { pt with leaves := Function.update pt.leaves (leafIndex vpn) bits }

/-- `map`: asserts that the entry is not valid yet. -/
def map (pt : PageTable) (vpn ppn flags : Nat) : StateT Phys Option PageTable := do
  let pt ← pt.findPteCreate vpn
  if pteIsValid (pt.leaves (leafIndex vpn)) then failure
  else pure (pt.setLeaf vpn (pteNew ppn (flags ||| pteV)))

/-- `unmap`: `find_pte(vpn).unwrap()`, then asserts that the entry is valid. -/
def unmap (pt : PageTable) (vpn : Nat) : Option PageTable :=
  match pt.findPte vpn with
  | some bits => if pteIsValid bits then some (pt.setLeaf vpn 0) else none
  | none => none

/-- `set_pte_flags`: a valid leaf gets `flags | U | V` with its frame kept. -/
def setPteFlags (pt : PageTable) (vpn flags : Nat) : PageTable × Bool :=
  match pt.findPte vpn with
  | some bits =>
      if pteIsValid bits then
        (pt.setLeaf vpn (ptePpn bits <<< 10 ||| (flags ||| pteU ||| pteV)), true)
      else (pt, false)
  | none => (pt, false)

/-- The valid leaf entry of `vpn`, if any. -/
def validEntry (pt : PageTable) (vpn : Nat) : Option Nat :=
  match pt.findPte vpn with
  | some bits => if pteIsValid bits then some bits else none
  | none => none

/-- `translate_va`: the frame of the entry of `floor(va)` as an address plus the
    offset of `va`, through `PhysAddr::from`, which keeps 56 bits. -/
def translateVa (pt : PageTable) (va : Nat) : Option Nat :=
  (pt.findPte (floor va)).map fun bits => ((ptePpn bits <<< 12) + pageOffset va) &&& (2 ^ 56 - 1)

end PageTable

theorem rootIndex_eq (vpn : Nat) : rootIndex vpn = tableIndex vpn / 2 ^ 9 := by
  rw [rootIndex, tableIndex, Nat.div_div_eq_div_mul]
  norm_num

theorem pteIsValid_eq_testBit (bits : Nat) : pteIsValid bits = bits.testBit 0 := by
  have h : bits &&& 2 ^ 0 = (bits.testBit 0).toNat * 2 ^ 0 := Nat.and_two_pow bits 0
  simp only [pteIsValid, pteV, Nat.shiftLeft_eq, one_mul] at h ⊢
  rw [h]
  cases bits.testBit 0 <;> rfl

theorem hasFlag_eq_testBit (bits : Nat) {k : Nat} (hk : k < 8) :
    hasFlag bits (1 <<< k) = bits.testBit k := by
  have h := Nat.and_two_pow (bits % 2 ^ 8) k
  simp only [hasFlag, pteFlags, Nat.shiftLeft_eq, one_mul, h, Nat.testBit_mod_two_pow, hk,
    decide_true, Bool.true_and]
  cases bits.testBit k <;> simp

@[simp] theorem pteIsValid_pteNew_pteV (ppn flags : Nat) : pteIsValid (pteNew ppn (flags ||| pteV)) := by
  simp [pteIsValid_eq_testBit, pteNew, pteV]

theorem testBit_pteNew (ppn flags : Nat) {k : Nat} (hk : k < 10) :
    (pteNew ppn flags).testBit k = flags.testBit k := by
  have : ¬ 10 ≤ k := by omega
  simp [pteNew, Nat.testBit_or, Nat.testBit_shiftLeft, this]

theorem ptePpn_pteNew {ppn flags : Nat} (hppn : ppn < 2 ^ 44) (hflags : flags < 2 ^ 10) :
    ptePpn (pteNew ppn flags) = ppn := by
  apply Nat.eq_of_testBit_eq
  intro i
  simp only [ptePpn, pteNew, Nat.testBit_and, Nat.testBit_shiftRight, Nat.testBit_or,
    Nat.testBit_shiftLeft, Nat.testBit_two_pow_sub_one]
  have hf : flags.testBit (10 + i) = false :=
    Nat.testBit_eq_false_of_lt (lt_of_lt_of_le hflags (Nat.pow_le_pow_right (by norm_num) (by omega)))
  by_cases hi : i < 44
  · simp [hf, hi]
  · have hp : ppn.testBit i = false :=
      Nat.testBit_eq_false_of_lt (lt_of_lt_of_le hppn (Nat.pow_le_pow_right (by norm_num) (by omega)))
    simp [hi, hp]

theorem pteFlags_pteNew (ppn : Nat) {flags : Nat} (hflags : flags < 2 ^ 8) :
    pteFlags (pteNew ppn flags) = flags := by
  apply Nat.eq_of_testBit_eq
  intro i
  simp only [pteFlags, pteNew, Nat.testBit_mod_two_pow, Nat.testBit_or, Nat.testBit_shiftLeft]
  by_cases hi : i < 8
  · simp [hi, show ¬ 10 ≤ i by omega]
  · have hf : flags.testBit i = false :=
      Nat.testBit_eq_false_of_lt (lt_of_lt_of_le hflags (Nat.pow_le_pow_right (by norm_num) (by omega)))
    simp [hi, hf]

theorem pageOffset_eq_mod (va : Nat) : pageOffset va = va % pageSize :=
  Nat.and_two_pow_sub_one_eq_mod va 12

theorem pageOffset_lt (va : Nat) : pageOffset va < pageSize := by
  rw [pageOffset_eq_mod]
  exact Nat.mod_lt _ (by decide)

theorem vpnFromVa_eq_some {va vpn : Nat} : vpnFromVa va = some vpn ↔ va % pageSize = 0 ∧ floor va = vpn := by
  unfold vpnFromVa
  rw [pageOffset_eq_mod]
  split <;> simp_all

theorem ceil_of_aligned {va : Nat} (hpos : 0 < va) (hva : va < 2 ^ 64) (h : va % pageSize = 0) :
    ceil va = floor va := by
  unfold ceil floor wrappingAdd wrappingSub pageSize at *
  rw [Nat.mod_eq_of_lt (by norm_num : 1 < 2 ^ 64)]
  omega

theorem vaFromUsize_sub {x : Nat} (hpos : 0 < x) (hx : x ≤ 2 ^ 39) :
    vaFromUsize (2 ^ 64 - x) = 2 ^ 39 - x := by
  unfold vaFromUsize
  omega

theorem hasFlag_pteNew_pteU (ppn flags : Nat) : hasFlag (pteNew ppn (flags ||| pteU ||| pteV)) pteU := by
  rw [pteU, hasFlag_eq_testBit _ (by norm_num), testBit_pteNew _ _ (by norm_num)]
  rw [Nat.testBit_or, Nat.testBit_or, Bool.or_eq_true, Bool.or_eq_true]
  exact Or.inl (Or.inr (by decide))

namespace PageTable

theorem findPte_congr (pt : PageTable) {a b : Nat} (h : leafIndex a = leafIndex b) :
    pt.findPte a = pt.findPte b := by
  simp only [findPte, rootIndex, tableIndex, h]

theorem validEntry_congr (pt : PageTable) {a b : Nat} (h : leafIndex a = leafIndex b) :
    pt.validEntry a = pt.validEntry b := by
  simp only [validEntry, findPte_congr pt h]

theorem validEntry_eq_some {pt : PageTable} {vpn bits : Nat} :
    pt.validEntry vpn = some bits ↔ pt.findPte vpn = some bits ∧ pteIsValid bits := by
  unfold validEntry
  cases pt.findPte vpn with
  | none => simp
  | some old =>
      by_cases hv : pteIsValid old
      · simp only [hv, if_true, Option.some.injEq]
        constructor
        · rintro rfl
          exact ⟨rfl, hv⟩
        · rintro ⟨rfl, -⟩
          rfl
      · simp only [hv, Bool.false_eq_true, if_false, reduceCtorEq, false_iff, not_and,
          Option.some.injEq]
        rintro rfl
        exact hv

theorem validEntry_eq_none {pt : PageTable} {vpn : Nat} :
    pt.validEntry vpn = none ↔ ∀ bits, pt.findPte vpn = some bits → pteIsValid bits = false := by
  unfold validEntry
  cases pt.findPte vpn with
  | none => simp
  | some old => by_cases hv : pteIsValid old <;> simp [hv]

theorem leafIndex_ne_of_validEntry {pt : PageTable} {v w bits : Nat}
    (hv : pt.validEntry v = some bits) (hw : pt.validEntry w = none) : leafIndex v ≠ leafIndex w := by
  intro heq
  rw [validEntry_congr pt heq, hw] at hv
  cases hv

theorem findPte_setLeaf (pt : PageTable) (vpn bits other : Nat) :
    (pt.setLeaf vpn bits).findPte other =
      (pt.findPte other).map fun old => if leafIndex other = leafIndex vpn then bits else old := by
  unfold findPte setLeaf
  cases pt.level1 (rootIndex other) <;> cases pt.level2 (tableIndex other) <;>
    simp [Function.update_apply]

theorem validEntry_setLeaf_other (pt : PageTable) {vpn other : Nat} (bits : Nat)
    (h : leafIndex other ≠ leafIndex vpn) :
    (pt.setLeaf vpn bits).validEntry other = pt.validEntry other := by
  simp only [validEntry, findPte_setLeaf, h, if_false, Option.map_id']

theorem validEntry_setLeaf_self (pt : PageTable) {vpn bits : Nat} (hpte : (pt.findPte vpn).isSome)
    (hvalid : pteIsValid bits) : (pt.setLeaf vpn bits).validEntry vpn = some bits := by
  obtain ⟨old, hold⟩ := Option.isSome_iff_exists.mp hpte
  simp [validEntry, findPte_setLeaf, hold, hvalid]

theorem findPte_of_isSome {pt : PageTable} {vpn : Nat} (h : (pt.findPte vpn).isSome) :
    pt.findPte vpn = some (pt.leaves (leafIndex vpn)) := by
  revert h
  unfold findPte
  cases pt.level1 (rootIndex vpn) <;> cases pt.level2 (tableIndex vpn) <;> simp

theorem ensureLevel1_spec {pt pt' : PageTable} {vpn : Nat} {p p' : Phys}
    (h : pt.ensureLevel1 vpn p = some (pt', p')) :
    (pt'.level1 (rootIndex vpn)).isSome ∧ ∀ other, pt'.findPte other = pt.findPte other := by
  unfold ensureLevel1 at h
  cases h1 : pt.level1 (rootIndex vpn) with
  | some frame =>
      rw [h1] at h
      obtain ⟨rfl, -⟩ := StateLoop.pure_eq_some.mp h
      exact ⟨by simp [h1], fun _ => rfl⟩
  | none =>
      rw [h1] at h
      obtain ⟨frame, mid, -, hpure⟩ := StateLoop.bind_eq_some.mp h
      obtain ⟨rfl, -⟩ := StateLoop.pure_eq_some.mp hpure
      refine ⟨by simp, fun other => ?_⟩
      by_cases hroot : rootIndex other = rootIndex vpn
      · have hdiv : tableIndex other / 512 = rootIndex vpn := by
          rw [show (512 : Nat) = 2 ^ 9 by rfl, ← rootIndex_eq, hroot]
        simp [findPte, hroot, h1, hdiv]
      · have hdiv : tableIndex other / 512 ≠ rootIndex vpn := by
          rwa [show (512 : Nat) = 2 ^ 9 by rfl, ← rootIndex_eq]
        simp [findPte, hroot, hdiv]

theorem ensureLevel2_spec {pt pt' : PageTable} {vpn : Nat} {p p' : Phys}
    (h : pt.ensureLevel2 vpn p = some (pt', p')) (h1 : (pt.level1 (rootIndex vpn)).isSome) :
    (pt'.findPte vpn).isSome ∧ ∀ other, pt'.validEntry other = pt.validEntry other := by
  obtain ⟨root, hroot⟩ := Option.isSome_iff_exists.mp h1
  unfold ensureLevel2 at h
  cases h2 : pt.level2 (tableIndex vpn) with
  | some frame =>
      rw [h2] at h
      obtain ⟨rfl, -⟩ := StateLoop.pure_eq_some.mp h
      exact ⟨by simp [findPte, hroot, h2], fun _ => rfl⟩
  | none =>
      rw [h2] at h
      obtain ⟨frame, mid, -, hpure⟩ := StateLoop.bind_eq_some.mp h
      obtain ⟨rfl, -⟩ := StateLoop.pure_eq_some.mp hpure
      refine ⟨by simp [findPte, hroot], fun other => ?_⟩
      by_cases htable : tableIndex other = tableIndex vpn
      · have hroot' : rootIndex other = rootIndex vpn := by rw [rootIndex_eq, htable, ← rootIndex_eq]
        have hdiv : leafIndex other / 512 = tableIndex vpn := htable
        simp [validEntry, findPte, hroot', hroot, htable, h2, hdiv, pteIsValid]
      · have hdiv : leafIndex other / 512 ≠ tableIndex vpn := htable
        simp [validEntry, findPte, htable, hdiv]

theorem new_spec {pt : PageTable} {p p' : Phys} (h : PageTable.new p = some (pt, p')) :
    frameAlloc p = some (pt.rootPpn, p') ∧ ∀ vpn, pt.validEntry vpn = none := by
  obtain ⟨root, p₁, halloc, hpure⟩ := StateLoop.bind_eq_some.mp h
  obtain ⟨rfl, rfl⟩ := StateLoop.pure_eq_some.mp hpure
  exact ⟨halloc, fun _ => rfl⟩

theorem findPteCreate_spec {pt pt' : PageTable} {vpn : Nat} {p p' : Phys}
    (h : pt.findPteCreate vpn p = some (pt', p')) :
    (pt'.findPte vpn).isSome ∧ ∀ other, pt'.validEntry other = pt.validEntry other := by
  obtain ⟨mid, pmid, h1, h2⟩ := StateLoop.bind_eq_some.mp h
  obtain ⟨hlevel1, hsame⟩ := ensureLevel1_spec h1
  obtain ⟨hpte, hvalid⟩ := ensureLevel2_spec h2 hlevel1
  exact ⟨hpte, fun other => by rw [hvalid, validEntry, validEntry, hsame]⟩

theorem map_spec {pt pt' : PageTable} {vpn ppn flags : Nat} {p p' : Phys}
    (h : pt.map vpn ppn flags p = some (pt', p')) :
    pt.validEntry vpn = none ∧ pt'.validEntry vpn = some (pteNew ppn (flags ||| pteV)) ∧
      ∀ other, leafIndex other ≠ leafIndex vpn → pt'.validEntry other = pt.validEntry other := by
  obtain ⟨mid, pmid, hcreate, hset⟩ := StateLoop.bind_eq_some.mp h
  obtain ⟨hpte, hvalid⟩ := findPteCreate_spec hcreate
  have hleaf := findPte_of_isSome hpte
  by_cases hmapped : pteIsValid (mid.leaves (leafIndex vpn))
  · simp [hmapped] at hset
  · simp only [hmapped, Bool.false_eq_true, if_false] at hset
    obtain ⟨rfl, -⟩ := StateLoop.pure_eq_some.mp hset
    refine ⟨?_, validEntry_setLeaf_self mid hpte (pteIsValid_pteNew_pteV ppn flags), ?_⟩
    · rw [← hvalid, validEntry_eq_none]
      intro bits hbits
      rw [hleaf, Option.some.injEq] at hbits
      subst hbits
      simpa using hmapped
    · intro other hother
      rw [validEntry_setLeaf_other mid _ hother, hvalid]

theorem validEntry_ne_none_of_map {pt pt' : PageTable} {vpn ppn flags : Nat} {p p' : Phys}
    (h : pt.map vpn ppn flags p = some (pt', p')) {v : Nat} (hv : pt.validEntry v ≠ none) :
    pt'.validEntry v ≠ none := by
  obtain ⟨hfree, -, hothers⟩ := map_spec h
  have hne : leafIndex v ≠ leafIndex vpn := fun heq => hv (by rw [validEntry_congr pt heq, hfree])
  rw [hothers v hne]
  exact hv

theorem ensureLevel1_keeps {pt pt' : PageTable} {vpn : Nat} {p p' : Phys}
    (hvalid : p.allocator.Valid) (h : pt.ensureLevel1 vpn p = some (pt', p')) : p.Keeps p' := by
  unfold ensureLevel1 at h
  cases htable : pt.level1 (rootIndex vpn) with
  | some frame =>
      rw [htable] at h
      obtain ⟨-, rfl⟩ := StateLoop.pure_eq_some.mp h
      exact Phys.Keeps.refl hvalid
  | none =>
      rw [htable] at h
      obtain ⟨frame, mid, halloc, hpure⟩ := StateLoop.bind_eq_some.mp h
      obtain ⟨-, rfl⟩ := StateLoop.pure_eq_some.mp hpure
      exact (frameAlloc_keeps hvalid halloc).1

theorem ensureLevel2_keeps {pt pt' : PageTable} {vpn : Nat} {p p' : Phys}
    (hvalid : p.allocator.Valid) (h : pt.ensureLevel2 vpn p = some (pt', p')) : p.Keeps p' := by
  unfold ensureLevel2 at h
  cases htable : pt.level2 (tableIndex vpn) with
  | some frame =>
      rw [htable] at h
      obtain ⟨-, rfl⟩ := StateLoop.pure_eq_some.mp h
      exact Phys.Keeps.refl hvalid
  | none =>
      rw [htable] at h
      obtain ⟨frame, mid, halloc, hpure⟩ := StateLoop.bind_eq_some.mp h
      obtain ⟨-, rfl⟩ := StateLoop.pure_eq_some.mp hpure
      exact (frameAlloc_keeps hvalid halloc).1

theorem map_keeps {pt pt' : PageTable} {vpn ppn flags : Nat} {p p' : Phys}
    (hvalid : p.allocator.Valid) (h : pt.map vpn ppn flags p = some (pt', p')) : p.Keeps p' := by
  obtain ⟨mid, pmid, hcreate, hset⟩ := StateLoop.bind_eq_some.mp h
  obtain ⟨pt₁, p₁, h1, h2⟩ := StateLoop.bind_eq_some.mp hcreate
  have hk₁ := ensureLevel1_keeps hvalid h1
  have hk₂ := hk₁.trans (ensureLevel2_keeps hk₁.valid h2)
  split at hset
  · simp at hset
  · obtain ⟨-, rfl⟩ := StateLoop.pure_eq_some.mp hset
    exact hk₂

theorem unmap_spec {pt pt' : PageTable} {vpn : Nat} (h : pt.unmap vpn = some pt') :
    pt.validEntry vpn ≠ none ∧ pt'.translate vpn = some 0 ∧
      ∀ other, leafIndex other ≠ leafIndex vpn → pt'.findPte other = pt.findPte other := by
  unfold unmap at h
  cases hpte : pt.findPte vpn with
  | none =>
      rw [hpte] at h
      cases h
  | some bits =>
      rw [hpte] at h
      dsimp only at h
      by_cases hv : pteIsValid bits
      · rw [if_pos hv, Option.some.injEq] at h
        subst h
        refine ⟨by simp [validEntry, hpte, hv], by simp [translate, findPte_setLeaf, hpte], ?_⟩
        intro other hother
        simp [findPte_setLeaf, hother]
      · rw [if_neg hv] at h
        cases h

theorem validEntry_of_findPte_eq {pt pt' : PageTable} {vpn : Nat}
    (h : pt'.findPte vpn = pt.findPte vpn) : pt'.validEntry vpn = pt.validEntry vpn := by
  simp only [validEntry, h]

theorem ensureLevel2_findPte {pt pt' : PageTable} {vpn : Nat} {p p' : Phys}
    (h : pt.ensureLevel2 vpn p = some (pt', p')) (other : Nat) :
    pt'.findPte other = pt.findPte other ∨ (pt.findPte other = none ∧ pt'.findPte other = some 0) := by
  unfold ensureLevel2 at h
  cases h2 : pt.level2 (tableIndex vpn) with
  | some frame =>
      rw [h2] at h
      obtain ⟨rfl, -⟩ := StateLoop.pure_eq_some.mp h
      exact .inl rfl
  | none =>
      rw [h2] at h
      obtain ⟨frame, mid, -, hpure⟩ := StateLoop.bind_eq_some.mp h
      obtain ⟨rfl, -⟩ := StateLoop.pure_eq_some.mp hpure
      by_cases htable : tableIndex other = tableIndex vpn
      · have hdiv : leafIndex other / 512 = tableIndex vpn := htable
        have hroot : rootIndex other = rootIndex vpn := by
          rw [rootIndex_eq, htable, ← rootIndex_eq]
        cases h1 : pt.level1 (rootIndex vpn) with
        | none => exact .inl (by simp [findPte, hroot, h1])
        | some root => exact .inr ⟨by simp [findPte, htable, h2], by simp [findPte, hroot, h1, htable, hdiv]⟩
      · have hdiv : leafIndex other / 512 ≠ tableIndex vpn := htable
        exact .inl (by simp [findPte, htable, hdiv])

theorem map_findPte_other {pt pt' : PageTable} {vpn ppn flags : Nat} {p p' : Phys}
    (h : pt.map vpn ppn flags p = some (pt', p')) {other : Nat}
    (hother : leafIndex other ≠ leafIndex vpn) :
    pt'.findPte other = pt.findPte other ∨ (pt.findPte other = none ∧ pt'.findPte other = some 0) := by
  obtain ⟨mid, pmid, hcreate, hset⟩ := StateLoop.bind_eq_some.mp h
  obtain ⟨pt₁, p₁, h1, h2⟩ := StateLoop.bind_eq_some.mp hcreate
  have hsame₁ := (ensureLevel1_spec h1).2 other
  by_cases hmapped : pteIsValid (mid.leaves (leafIndex vpn))
  · simp [hmapped] at hset
  · simp only [hmapped, Bool.false_eq_true, if_false] at hset
    obtain ⟨rfl, -⟩ := StateLoop.pure_eq_some.mp hset
    have hleaf : (mid.setLeaf vpn (pteNew ppn (flags ||| pteV))).findPte other = mid.findPte other := by
      simp [findPte_setLeaf, hother]
    rw [hleaf, ← hsame₁]
    exact ensureLevel2_findPte h2 other

theorem ensureLevel1_of_free (pt : PageTable) (vpn : Nat) {p : Phys} (hvalid : p.allocator.Valid)
    (hfree : 0 < p.allocator.unallocatedFrames) :
    ∃ pt' p', pt.ensureLevel1 vpn p = some (pt', p') ∧
      p.allocator.unallocatedFrames ≤ p'.allocator.unallocatedFrames + 1 := by
  unfold ensureLevel1
  cases pt.level1 (rootIndex vpn) with
  | some frame => exact ⟨pt, p, rfl, Nat.le_succ _⟩
  | none =>
      obtain ⟨frame, p', halloc, hcount⟩ := frameAlloc_of_unallocatedFrames_pos hvalid hfree
      simp only [bind, StateT.bind, halloc, pure, StateT.pure]
      exact ⟨_, p', rfl, hcount.ge⟩

theorem ensureLevel2_of_free (pt : PageTable) (vpn : Nat) {p : Phys} (hvalid : p.allocator.Valid)
    (hfree : 0 < p.allocator.unallocatedFrames) :
    ∃ pt' p', pt.ensureLevel2 vpn p = some (pt', p') := by
  unfold ensureLevel2
  cases pt.level2 (tableIndex vpn) with
  | some frame => exact ⟨pt, p, rfl⟩
  | none =>
      obtain ⟨frame, p', halloc, -⟩ := frameAlloc_of_unallocatedFrames_pos hvalid hfree
      simp only [bind, StateT.bind, halloc, pure, StateT.pure]
      exact ⟨_, p', rfl⟩

theorem map_of_free {pt : PageTable} {vpn ppn flags : Nat} {p : Phys} (hvalid : p.allocator.Valid)
    (hfree : 2 ≤ p.allocator.unallocatedFrames) (hunmapped : pt.validEntry vpn = none) :
    ∃ pt' p', pt.map vpn ppn flags p = some (pt', p') := by
  obtain ⟨pt₁, p₁, h1, hcount⟩ := ensureLevel1_of_free pt vpn hvalid (by omega)
  have hk₁ := ensureLevel1_keeps hvalid h1
  obtain ⟨pt₂, p₂, h2⟩ := ensureLevel2_of_free pt₁ vpn hk₁.valid (by omega)
  have hcreate : pt.findPteCreate vpn p = some (pt₂, p₂) := by
    simp [findPteCreate, bind, StateT.bind, h1, h2]
  obtain ⟨hpte, hsame⟩ := findPteCreate_spec hcreate
  have hinvalid : pteIsValid (pt₂.leaves (leafIndex vpn)) = false := by
    have hnone : pt₂.validEntry vpn = none := (hsame vpn).trans hunmapped
    exact validEntry_eq_none.mp hnone _ (findPte_of_isSome hpte)
  refine ⟨pt₂.setLeaf vpn (pteNew ppn (flags ||| pteV)), p₂, ?_⟩
  simp [map, bind, StateT.bind, hcreate, hinvalid, pure, StateT.pure]

theorem translateVa_of_validEntry {pt : PageTable} {va ppn f : Nat}
    (h : pt.validEntry (floor va) = some (pteNew ppn f)) (hppn : ppn < 2 ^ 44) (hf : f < 2 ^ 10) :
    pt.translateVa va = some (ppn * pageSize + pageOffset va) := by
  have hpte := (validEntry_eq_some.mp h).1
  have hoff := pageOffset_lt va
  have hmask : (ppn * pageSize + pageOffset va) &&& (2 ^ 56 - 1) = ppn * pageSize + pageOffset va := by
    rw [Nat.and_two_pow_sub_one_eq_mod, Nat.mod_eq_of_lt]
    unfold pageSize at hoff ⊢
    omega
  simp only [translateVa, hpte, Option.map_some, ptePpn_pteNew hppn hf, Nat.shiftLeft_eq]
  rw [show 2 ^ 12 = pageSize by rfl, hmask]

theorem setPteFlags_of_validEntry {pt : PageTable} {vpn bits : Nat} (flags : Nat)
    (h : pt.validEntry vpn = some bits) :
    pt.setPteFlags vpn flags =
      (pt.setLeaf vpn (ptePpn bits <<< 10 ||| (flags ||| pteU ||| pteV)), true) := by
  obtain ⟨hpte, hvalid⟩ := validEntry_eq_some.mp h
  simp [setPteFlags, hpte, hvalid]

theorem setPteFlags_of_validEntry_none {pt : PageTable} {vpn : Nat} (flags : Nat)
    (h : pt.validEntry vpn = none) : pt.setPteFlags vpn flags = (pt, false) := by
  unfold setPteFlags
  cases hpte : pt.findPte vpn with
  | none => rfl
  | some bits => simp [validEntry_eq_none.mp h bits hpte]

/-- After `map` of an unmapped page, `translate` gives a valid entry with the
    frame and the flags with `V`, and `translate_va` the frame's address plus the
    offset; after `unmap`, `translate` gives the empty entry.  For every other
    page, neither call changes its valid entry, and only `map` changes its
    `translate`: from `None` to the empty entry, where it creates the leaf table
    of both pages. -/
theorem map_unmap_translate_spec {pt : PageTable} {p : Phys} {vpn ppn flags : Nat}
    (hvalid : p.allocator.Valid) (hfree : 2 ≤ p.allocator.unallocatedFrames)
    (hvpn : vpn < 2 ^ 27) (hppn : ppn < 2 ^ 44) (hflags : flags < 2 ^ 8)
    (hunmapped : pt.validEntry vpn = none) :
    (∃ pt' p', pt.map vpn ppn flags p = some (pt', p') ∧
      (∃ bits, pt'.translate vpn = some bits ∧ pteIsValid bits = true ∧ ptePpn bits = ppn ∧
        pteFlags bits = flags ||| pteV) ∧
      (∀ va, floor va = vpn → pt'.translateVa va = some (ppn * pageSize + pageOffset va)) ∧
      ∀ vpn', vpn' < 2 ^ 27 → vpn' ≠ vpn →
        pt'.validEntry vpn' = pt.validEntry vpn' ∧
        (pt'.translate vpn' = pt.translate vpn' ∨
          (pt.translate vpn' = none ∧ pt'.translate vpn' = some 0))) ∧
    ∀ pt₀ pt₁ : PageTable, pt₀.unmap vpn = some pt₁ →
      pt₁.translate vpn = some 0 ∧ pteIsValid 0 = false ∧
      ∀ vpn', vpn' < 2 ^ 27 → vpn' ≠ vpn → pt₁.translate vpn' = pt₀.translate vpn' := by
  have hV : flags ||| pteV < 2 ^ 10 := Nat.or_lt_two_pow (by omega) (by decide)
  have hV8 : flags ||| pteV < 2 ^ 8 := Nat.or_lt_two_pow hflags (by decide)
  -- below `2^27` a page number is its own leaf index
  have hdiff : ∀ vpn', vpn' < 2 ^ 27 → vpn' ≠ vpn → leafIndex vpn' ≠ leafIndex vpn := by
    intro vpn' hvpn' hne
    rw [leafIndex, leafIndex, Nat.mod_eq_of_lt hvpn', Nat.mod_eq_of_lt hvpn]
    exact hne
  refine ⟨?_, ?_⟩
  · have hmap' : ∃ pt' p', pt.map vpn ppn flags p = some (pt', p') := map_of_free hvalid hfree hunmapped
    obtain ⟨pt', p', hmap⟩ := hmap'
    obtain ⟨-, hentry, hothers⟩ := map_spec hmap
    refine ⟨pt', p', hmap, ⟨_, (validEntry_eq_some.mp hentry).1, pteIsValid_pteNew_pteV ppn flags,
      ptePpn_pteNew hppn hV, pteFlags_pteNew ppn hV8⟩, fun va hva => ?_, fun vpn' hvpn' hne => ?_⟩
    · rw [← hva] at hentry
      exact translateVa_of_validEntry hentry hppn hV
    · exact ⟨hothers vpn' (hdiff vpn' hvpn' hne), map_findPte_other hmap (hdiff vpn' hvpn' hne)⟩
  · intro pt₀ pt₁ hunmap
    obtain ⟨-, htr, hsame⟩ := unmap_spec hunmap
    exact ⟨htr, rfl, fun vpn' hvpn' hne => hsame vpn' (hdiff vpn' hvpn' hne)⟩

/-- The table `PageTable::new` builds in frame `0x80`. -/
def emptyTable : PageTable :=
  ⟨0x80, [0x80], fun _ => none, fun _ => none, fun _ => 0⟩

theorem map_unmap_translate_spec_empty_table :
    (Phys.boot 0x81 0x100).allocator.Valid ∧ 2 ≤ (Phys.boot 0x81 0x100).allocator.unallocatedFrames ∧
      (0 : Nat) < 2 ^ 27 ∧ (0x90 : Nat) < 2 ^ 44 ∧ pteR ||| pteW < 2 ^ 8 ∧
      emptyTable.validEntry 0 = none ∧
      (∃ pt' p', emptyTable.map 0 0x90 (pteR ||| pteW) (Phys.boot 0x81 0x100) = some (pt', p') ∧
        (∃ bits, pt'.translate 0 = some bits ∧ pteIsValid bits = true ∧ ptePpn bits = 0x90 ∧
          pteFlags bits = pteR ||| pteW ||| pteV) ∧
        (∀ va, floor va = 0 → pt'.translateVa va = some (0x90 * pageSize + pageOffset va)) ∧
        ∀ vpn', vpn' < 2 ^ 27 → vpn' ≠ 0 →
          pt'.validEntry vpn' = emptyTable.validEntry vpn' ∧
          (pt'.translate vpn' = emptyTable.translate vpn' ∨
            (emptyTable.translate vpn' = none ∧ pt'.translate vpn' = some 0))) ∧
      ∀ pt₀ pt₁ : PageTable, pt₀.unmap 0 = some pt₁ →
        pt₁.translate 0 = some 0 ∧ pteIsValid 0 = false ∧
        ∀ vpn', vpn' < 2 ^ 27 → vpn' ≠ 0 → pt₁.translate vpn' = pt₀.translate vpn' :=
  have hvalid : (Phys.boot 0x81 0x100).allocator.Valid :=
    (StackFrameAllocator.started_init (by decide)).valid
  ⟨hvalid, by decide, by decide, by decide, by decide, rfl,
    map_unmap_translate_spec hvalid (by decide) (by decide) (by decide) (by decide) rfl⟩

/-- `PageTable::new` on a machine whose free frames are `[0x80, 0x100)`, then
    `map(0, 0x90, R | W)`: the call creates the leaf table of pages `0 .. 512`,
    so `translate(1)` goes from `None` to the empty entry. -/
theorem map_creates_empty_entry_of_neighbour :
    ∃ pt p pt' p', PageTable.new (Phys.boot 0x80 0x100) = some (pt, p) ∧ pt.translate 1 = none ∧
      pt.map 0 0x90 (pteR ||| pteW) p = some (pt', p') ∧ pt'.translate 1 = some 0 := by
  have hrun : ((PageTable.new (Phys.boot 0x80 0x100)).bind fun r =>
      (r.1.map 0 0x90 (pteR ||| pteW) r.2).map fun m => (r.1.translate 1, m.1.translate 1)) =
      some (none, some 0) := by
    decide +kernel
  simp only [Option.bind_eq_some_iff, Option.map_eq_some_iff, Prod.mk.injEq] at hrun
  obtain ⟨⟨pt, p⟩, hnew, ⟨pt', p'⟩, hmap, hbefore, hafter⟩ := hrun
  exact ⟨pt, p, pt', p', hnew, hbefore, hmap, hafter⟩

/-! ## Runs of `map` and `unmap`

What a page table is for is a map from the 27-bit page numbers that
`VirtPageNum::indexes` reads to their valid entries.  Every run of `map` and
`unmap` refines it, and a call fails only where the map allows no step, or, for
`map`, where the frames for its tables run out. -/

/-- A call on a page table. -/
inductive PtEvent
  | map (vpn ppn flags : Nat)
  | unmap (vpn : Nat)
  deriving DecidableEq, Repr

def step (s : PageTable × Phys) : PtEvent → Option (PageTable × Phys)
  | .map vpn ppn flags => s.1.map vpn ppn flags s.2
  | .unmap vpn => (s.1.unmap vpn).map fun pt => (pt, s.2)

/-- The valid entry of each 27-bit page number. -/
def entries (pt : PageTable) (i : Nat) : Option Nat :=
  if i < 2 ^ 27 then pt.validEntry i else none

/-- `map` gives a page without an entry the entry of its frame and flags with
    `V`; `unmap` takes the entry of a page that has one. -/
inductive PageMapSpec : (Nat → Option Nat) → PtEvent → (Nat → Option Nat) → Prop
  | map {m : Nat → Option Nat} {vpn ppn flags : Nat} : m (leafIndex vpn) = none →
      PageMapSpec m (.map vpn ppn flags) (Function.update m (leafIndex vpn) (some (pteNew ppn (flags ||| pteV))))
  | unmap {m : Nat → Option Nat} {vpn : Nat} : m (leafIndex vpn) ≠ none →
      PageMapSpec m (.unmap vpn) (Function.update m (leafIndex vpn) none)

theorem leafIndex_lt (vpn : Nat) : leafIndex vpn < 2 ^ 27 :=
  Nat.mod_lt _ (by norm_num)

theorem leafIndex_leafIndex (vpn : Nat) : leafIndex (leafIndex vpn) = leafIndex vpn :=
  Nat.mod_eq_of_lt (leafIndex_lt vpn)

theorem entries_leafIndex (pt : PageTable) (vpn : Nat) : pt.entries (leafIndex vpn) = pt.validEntry vpn := by
  rw [entries, if_pos (leafIndex_lt vpn)]
  exact validEntry_congr pt (leafIndex_leafIndex vpn)

theorem entries_eq_update {pt pt' : PageTable} {vpn : Nat} {e : Option Nat}
    (hself : pt'.validEntry vpn = e)
    (hothers : ∀ other, leafIndex other ≠ leafIndex vpn → pt'.validEntry other = pt.validEntry other) :
    pt'.entries = Function.update pt.entries (leafIndex vpn) e := by
  funext i
  by_cases hi : i = leafIndex vpn
  · rw [hi, Function.update_self, entries_leafIndex, hself]
  · rw [Function.update_of_ne hi, entries, entries]
    split
    · rename_i hlt
      refine hothers i ?_
      rwa [leafIndex, Nat.mod_eq_of_lt hlt]
    · rfl

theorem step_refines {s s' : PageTable × Phys} {e : PtEvent} (h : step s e = some s') :
    PageMapSpec s.1.entries e s'.1.entries := by
  cases e with
  | map vpn ppn flags =>
      obtain ⟨hfree, hentry, hothers⟩ := map_spec h
      rw [entries_eq_update hentry hothers]
      exact PageMapSpec.map (by rw [entries_leafIndex, hfree])
  | unmap vpn =>
      obtain ⟨pt', hunmap, rfl⟩ := Option.map_eq_some_iff.mp h
      obtain ⟨hmapped, hzero, hothers⟩ := unmap_spec hunmap
      have hself : pt'.validEntry vpn = none := by
        rw [translate] at hzero
        simp [validEntry, hzero, pteIsValid]
      rw [entries_eq_update hself fun other hne => validEntry_of_findPte_eq (hothers other hne)]
      exact PageMapSpec.unmap (by rw [entries_leafIndex]; exact hmapped)

theorem unmap_isSome_iff (pt : PageTable) (vpn : Nat) : (pt.unmap vpn).isSome ↔ pt.validEntry vpn ≠ none := by
  unfold unmap validEntry
  cases pt.findPte vpn with
  | none => simp
  | some bits => by_cases hv : pteIsValid bits <;> simp [hv]

/-- The page table refines `PageMapSpec`: every run of `map` and `unmap` from any
    table is a run of the specification on its entries; `unmap` fails exactly
    where the page has no entry, and `map` of a page without one does not fail
    while two frames are free for the tables it may create. -/
theorem pageTable_refines_pageMapSpec :
    (∀ (events : List PtEvent) (pt pt' : PageTable) (p p' : Phys),
      StepRun.exec step (pt, p) events = some (pt', p') →
        StepRun.Steps PageMapSpec pt.entries events pt'.entries) ∧
    (∀ (pt : PageTable) (p : Phys) (vpn : Nat),
      (step (pt, p) (.unmap vpn)).isSome ↔ pt.entries (leafIndex vpn) ≠ none) ∧
    (∀ (pt : PageTable) (p : Phys) (vpn ppn flags : Nat), p.allocator.Valid →
      2 ≤ p.allocator.unallocatedFrames → pt.entries (leafIndex vpn) = none →
        (step (pt, p) (.map vpn ppn flags)).isSome) := by
  refine ⟨fun events pt pt' p p' hrun => ?_, fun pt p vpn => ?_, fun pt p vpn ppn flags hvalid hfree hnone => ?_⟩
  · exact @StepRun.exec_refines _ _ _ step PageMapSpec (fun s => s.1.entries) (fun _ => True)
      (fun _ _ _ _ _ => trivial) (fun _ _ _ _ h => step_refines h) _ _ events trivial hrun
  · rw [entries_leafIndex, ← unmap_isSome_iff]
    simp [step]
  · rw [entries_leafIndex] at hnone
    obtain ⟨pt', p', hmap⟩ := @map_of_free pt vpn ppn flags p hvalid hfree hnone
    simp [step, hmap]

theorem map_of_empty_table_is_some :
    (Phys.boot 0x81 0x100).allocator.Valid ∧ 2 ≤ (Phys.boot 0x81 0x100).allocator.unallocatedFrames ∧
      emptyTable.entries (leafIndex 0) = none ∧
      (step (emptyTable, Phys.boot 0x81 0x100) (.map 0 0x90 (pteR ||| pteW))).isSome :=
  have hvalid : (Phys.boot 0x81 0x100).allocator.Valid :=
    (StackFrameAllocator.started_init (by decide)).valid
  ⟨hvalid, by decide, rfl,
    pageTable_refines_pageMapSpec.2.2 emptyTable _ 0 0x90 (pteR ||| pteW) hvalid (by decide) rfl⟩

end PageTable

end OsKernel.Mm

import Mathlib

/-! # The FAT cluster allocator

`Fat` is the in-memory allocator over the first FAT of the volume
(`fs/fat32/bitmap.rs`).  Clusters come from two sources: the stack of recently
freed clusters `vacantClus`, and a scan of the table that starts at `hint` and
wraps around.  The block cache between the allocator and the disk is
transparent for the allocator, so the table is a function from cluster numbers
to raw 32-bit entries.  Release semantics: the `debug_assert!` of `alloc_one`
is not evaluated.
-/

namespace OsKernel.Fat32.Bitmap

/-- `FAT_ENTRY_FREE`: the entry of an unused cluster. -/
def fatEntryFree : Nat := 0

/-- `FAT_ENTRY_RESERVED_TO_END`: entries at or above it end a chain. -/
def fatEntryReservedToEnd : Nat := 0x0FFFFFF8

/-- `BAD_BLOCK` of `layout.rs`. -/
def badBlock : Nat := 0x0FFFFFF7

/-- `EOC`: the end-of-chain mark written after the last cluster of a chain. -/
def eoc : Nat := 0x0FFFFFFF

/-- `VACANT_CLUS_CACHE_SIZE`. -/
def vacantClusCacheSize : Nat := 64

/-- The allocator state.  The fields `fat_cache_mgr`, `start_block_id` and
    `byts_per_sec` only locate an entry on disk and are folded into `entries`. -/
structure Fat where
  /-- The raw entry of every cluster of the first FAT. -/
  entries : Nat → Nat
  /-- `tot_ent`: the number of FAT entries. -/
  totEnt : Nat
  /-- `vacant_clus`, a `VecDeque` that is only pushed and popped at its back:
      the back is the head of this list. -/
  vacantClus : List Nat
  /-- `hint`: where the next scan starts. -/
  hint : Nat

namespace Fat

/-- `get_next_clus_num`: the entry of `clus`, masked to its 28 meaningful bits. -/
def getNextClusNum (f : Fat) (clus : Nat) : Nat :=
  f.entries clus &&& eoc

/-- `set_next_clus`: write `next` into the entry of `current`, if there is one. -/
def setNextClus (f : Fat) (current : Option Nat) (next : Nat) : Fat :=
  match current with
  | none => f
  | some current => { f with entries := Function.update f.entries current next }

/-- The test `FAT_ENTRY_FREE == self.get_next_clus_num(clus_id)` of the scan. -/
def isFree (f : Fat) (clus : Nat) : Bool :=
  fatEntryFree == f.getNextClusNum clus

/-- `get_next_free_clus`: the first free cluster of `start..tot_ent`, else the
    first one of `0..start`. -/
def getNextFreeClus (f : Fat) (start : Nat) : Option Nat :=
  (List.range' start (f.totEnt - start)).find? f.isFree <|> (List.range start).find? f.isFree

/-- `alloc_one`: pop the cache, or else scan from `hint` and move `hint` past the
    cluster found; the cluster is linked after `last` but its own entry is left
    as it is. -/
def allocOne (f : Fat) (last : Option Nat) : Fat × Option Nat :=
  match f.vacantClus with
  | freeClusId :: rest =>
      (({ f with vacantClus := rest } : Fat).setNextClus last freeClusId, some freeClusId)
  | [] =>
      match f.getNextFreeClus f.hint with
      | none => (f, none)
      | some freeClusId =>
          (({ f with hint := (freeClusId + 1) % f.totEnt } : Fat).setNextClus last freeClusId,
            some freeClusId)

/-- The `for` loop of `alloc`: at most `n` more calls of `alloc_one`, stopping at
    the first failure.  Returns the allocator, the final `last` (`none` after a
    failure) and the clusters pushed, in order. -/
def allocLoop : Fat → Nat → Option Nat → Fat × Option Nat × List Nat
  | f, 0, last => (f, last, [])
  | f, n + 1, last =>
      match f.allocOne last with
      | (f', none) => (f', none, [])
      | (f', some clus) =>
          let (f'', last', rest) := allocLoop f' n (some clus)
          (f'', last', clus :: rest)

/-- `alloc`: allocate up to `allocNum` clusters after `last`, then end the chain
    at the final `last`. -/
def alloc (f : Fat) (allocNum : Nat) (last : Option Nat) : Fat × List Nat :=
  let (f', last', allocated) := allocLoop f allocNum last
  (f'.setNextClus last' eoc, allocated)

/-- The cache push of `free`, skipped once the cache holds
    `VACANT_CLUS_CACHE_SIZE` clusters. -/
def pushVacant (f : Fat) (clus : Nat) : Fat :=
  if f.vacantClus.length < vacantClusCacheSize then { f with vacantClus := clus :: f.vacantClus }
  else f

/-- `free`: mark every cluster of the list free and cache it, then end the chain
    at `last`. -/
def free (f : Fat) (clusterList : List Nat) (last : Option Nat) : Fat :=
  (clusterList.foldl (fun f clus => (f.setNextClus (some clus) fatEntryFree).pushVacant clus) f
    ).setNextClus last eoc

/-- `get_all_clus_num`: follow the chain from `current` until an entry that is
    `BAD_BLOCK`, free or at least `FAT_ENTRY_RESERVED_TO_END`.  The source loop
    has no bound; here it runs for at most `fuel` clusters and returns `none`
    when the chain has not ended by then. -/
def getAllClusNum (f : Fat) : Nat → Nat → Option (List Nat)
  | 0, _ => none
  | fuel + 1, current =>
      let next := f.getNextClusNum current
      if next = badBlock ∨ next = fatEntryFree ∨ fatEntryReservedToEnd ≤ next then some [current]
      else (getAllClusNum f fuel next).map (current :: ·)

/-! ## Small lemmas -/

@[simp] theorem setNextClus_none (f : Fat) (next : Nat) : f.setNextClus none next = f := rfl

@[simp] theorem setNextClus_vacantClus (f : Fat) (current : Option Nat) (next : Nat) :
    (f.setNextClus current next).vacantClus = f.vacantClus := by
  cases current <;> rfl

@[simp] theorem setNextClus_hint (f : Fat) (current : Option Nat) (next : Nat) :
    (f.setNextClus current next).hint = f.hint := by
  cases current <;> rfl

@[simp] theorem setNextClus_totEnt (f : Fat) (current : Option Nat) (next : Nat) :
    (f.setNextClus current next).totEnt = f.totEnt := by
  cases current <;> rfl

theorem setNextClus_entries_other (f : Fat) {current : Nat} (next : Nat) {clus : Nat}
    (h : clus ≠ current) : (f.setNextClus (some current) next).entries clus = f.entries clus := by
  simp [setNextClus, Function.update_of_ne h]

@[simp] theorem setNextClus_entries_self (f : Fat) (current next : Nat) :
    (f.setNextClus (some current) next).entries current = next := by
  simp [setNextClus]

theorem getNextFreeClus_eq_find (f : Fat) (start : Nat) :
    f.getNextFreeClus start =
      (List.range' start (f.totEnt - start) ++ List.range start).find? f.isFree := by
  simp only [getNextFreeClus, List.find?_append]
  cases (List.range' start (f.totEnt - start)).find? f.isFree <;> rfl

theorem mem_scan_of_lt {start totEnt clus : Nat} (hstart : start ≤ totEnt) (hclus : clus < totEnt) :
    clus ∈ List.range' start (totEnt - start) ++ List.range start := by
  simp only [List.mem_append, List.mem_range'_1, List.mem_range]
  omega

theorem find?_eq_some_of_unique {α : Type*} {p : α → Bool} {l : List α} {b : α}
    (hmem : b ∈ l) (hb : p b) (hunique : ∀ x ∈ l, p x → x = b) : l.find? p = some b := by
  obtain ⟨y, hy⟩ := Option.isSome_iff_exists.mp (List.find?_isSome.mpr ⟨b, hmem, hb⟩)
  rw [hy, hunique y (List.mem_of_find?_eq_some hy) (List.find?_some hy)]

theorem getNextFreeClus_of_unique (f : Fat) {start clus : Nat} (hstart : start ≤ f.totEnt)
    (hclus : clus < f.totEnt) (hfree : f.isFree clus)
    (hothers : ∀ d < f.totEnt, f.isFree d → d = clus) :
    f.getNextFreeClus start = some clus := by
  rw [getNextFreeClus_eq_find]
  apply find?_eq_some_of_unique (mem_scan_of_lt hstart hclus) hfree
  intro d hd hdfree
  have hlt : d < f.totEnt := by
    simp only [List.mem_append, List.mem_range'_1, List.mem_range] at hd
    omega
  exact hothers d hlt hdfree

theorem eoc_eq : eoc = 2 ^ 28 - 1 := rfl

theorem getNextClusNum_of_lt (f : Fat) {clus : Nat} (h : f.entries clus < 2 ^ 28) :
    f.getNextClusNum clus = f.entries clus := by
  rw [getNextClusNum, eoc_eq, Nat.and_two_pow_sub_one_of_lt_two_pow h]

/-- A scan never changes the entries, so freeness only depends on `entries`. -/
@[simp] theorem isFree_hint (f : Fat) (hint clus : Nat) :
    ({ f with hint := hint } : Fat).isFree clus = f.isFree clus := rfl

theorem getAllClusNum_self_loop (f : Fat) {clus : Nat} (hloop : f.getNextClusNum clus = clus)
    (hbad : clus ≠ badBlock) (hfree : clus ≠ fatEntryFree) (hend : clus < fatEntryReservedToEnd) :
    ∀ fuel, f.getAllClusNum fuel clus = none := by
  intro fuel
  induction fuel with
  | zero => rfl
  | succ fuel ih =>
      have hcont : ¬ (clus = badBlock ∨ clus = fatEntryFree ∨ fatEntryReservedToEnd ≤ clus) := by
        omega
      simp only [getAllClusNum, hloop, hcont, if_false, ih, Option.map_none]

/-- `get_all_clus_num` never ends from a cluster of a set that the FAT maps into
    itself with no bad, free or end entry: a cycle of any length, or a chain
    that reaches one. -/
theorem getAllClusNum_of_closed (f : Fat) {S : Nat → Prop}
    (hclosed : ∀ c, S c → S (f.getNextClusNum c))
    (hcont : ∀ c, S c → ¬ (f.getNextClusNum c = badBlock ∨ f.getNextClusNum c = fatEntryFree ∨
      fatEntryReservedToEnd ≤ f.getNextClusNum c)) :
    ∀ fuel c, S c → f.getAllClusNum fuel c = none := by
  intro fuel
  induction fuel with
  | zero =>
      intro c _
      rfl
  | succ fuel ih =>
      intro c hc
      simp only [getAllClusNum, if_neg (hcont c hc), ih _ (hclosed c hc), Option.map_none]

/-! ## A cluster handed out twice

`alloc_one` links the cluster it returns after `last`, but leaves the entry of
that cluster itself free until the next iteration links it in turn.  When the
cluster is the only free one, the scan of the next iteration finds it again. -/

section UniqueFree

variable (f : Fat) {clus : Nat} (hvacant : f.vacantClus = []) (hhint : f.hint ≤ f.totEnt)
  (hclus : clus < f.totEnt) (hfree : f.isFree clus)
  (hothers : ∀ d < f.totEnt, f.isFree d → d = clus)

include hvacant hhint hclus hfree hothers in
theorem allocOne_first_of_unique :
    f.allocOne none = ({ f with hint := (clus + 1) % f.totEnt }, some clus) := by
  simp [allocOne, hvacant, getNextFreeClus_of_unique f hhint hclus hfree hothers]

include hvacant hclus hfree hothers in
theorem allocOne_second_of_unique :
    ({ f with hint := (clus + 1) % f.totEnt } : Fat).allocOne (some clus) =
      (({ f with hint := (clus + 1) % f.totEnt } : Fat).setNextClus (some clus) clus, some clus) := by
  have hpos : 0 < f.totEnt := by omega
  have hscan : ({ f with hint := (clus + 1) % f.totEnt } : Fat).getNextFreeClus
      ((clus + 1) % f.totEnt) = some clus :=
    getNextFreeClus_of_unique _ (Nat.mod_lt _ hpos).le hclus hfree hothers
  rw [hvacant] at hscan
  simp only [allocOne, hvacant, hscan]

include hvacant hclus hfree hothers in
theorem allocOne_third_of_unique (hpos : 0 < clus) (hsmall : clus < 2 ^ 28) :
    (({ f with hint := (clus + 1) % f.totEnt } : Fat).setNextClus (some clus) clus).allocOne
        (some clus) =
      (({ f with hint := (clus + 1) % f.totEnt } : Fat).setNextClus (some clus) clus, none) := by
  set f2 := ({ f with hint := (clus + 1) % f.totEnt } : Fat).setNextClus (some clus) clus
  have hhint2 : f2.hint = (clus + 1) % f.totEnt := by simp [f2]
  have htot2 : f2.totEnt = f.totEnt := by simp [f2]
  have hentry2 : f2.entries clus = clus := by simp [f2]
  have hnone : f2.getNextFreeClus f2.hint = none := by
    rw [getNextFreeClus_eq_find, List.find?_eq_none]
    intro d hd hdfree
    have hlt : d < f.totEnt := by
      have hbound := Nat.mod_lt (clus + 1) (show 0 < f.totEnt by omega)
      rw [hhint2, htot2] at hd
      simp only [List.mem_append, List.mem_range'_1, List.mem_range] at hd
      omega
    by_cases hd : d = clus
    · subst hd
      have hread : f2.getNextClusNum d = d := by
        rw [getNextClusNum_of_lt f2 (by rw [hentry2]; exact hsmall), hentry2]
      simp [isFree, hread, fatEntryFree] at hdfree
      omega
    · have hsame : f2.isFree d = f.isFree d := by
        simp only [f2, isFree, getNextClusNum, setNextClus_entries_other _ _ hd]
      exact hd (hothers d hlt (hsame ▸ hdfree))
  have hvac : f2.vacantClus = [] := by simp [f2, hvacant]
  simp only [allocOne, hvac, hnone]

include hvacant hhint hclus hfree hothers in
theorem alloc_two_of_unique_free :
    (f.alloc 2 none).2 = [clus, clus] ∧ (f.alloc 2 none).1.entries clus = eoc := by
  have hfirst := allocOne_first_of_unique f hvacant hhint hclus hfree hothers
  have hsecond := allocOne_second_of_unique f hvacant hclus hfree hothers
  simp [alloc, allocLoop, hfirst, hsecond]

include hvacant hhint hclus hfree hothers in
theorem alloc_three_of_unique_free (hpos : 0 < clus) (hsmall : clus < 2 ^ 28) :
    (f.alloc 3 none).2 = [clus, clus] ∧ (f.alloc 3 none).1.entries clus = clus := by
  have hfirst := allocOne_first_of_unique f hvacant hhint hclus hfree hothers
  have hsecond := allocOne_second_of_unique f hvacant hclus hfree hothers
  have hthird := allocOne_third_of_unique f hvacant hclus hfree hothers hpos hsmall
  simp [alloc, allocLoop, hfirst, hsecond, hthird]

end UniqueFree

/-- A volume of three FAT entries as `Fat::new` leaves it: the reserved entries
    0 and 1 hold `EOC`, cluster 2 is free, the cache is empty and `hint` is 0. -/
def threeEntryFat : Fat where
  entries := fun clus => if clus < 2 then eoc else fatEntryFree
  totEnt := 3
  vacantClus := []
  hint := 0

theorem threeEntryFat_unique_free : ∀ d < threeEntryFat.totEnt, threeEntryFat.isFree d → d = 2 := by
  decide

/-- On `threeEntryFat`, `alloc(2, None)` returns cluster 2 twice while the chain
    from 2 is `[2]`; `alloc(3, None)` leaves cluster 2 linked to itself, so
    `get_all_clus_num` from it never ends. -/
theorem alloc_hands_out_cluster_twice :
    (threeEntryFat.alloc 2 none).2 = [2, 2] ∧
      (threeEntryFat.alloc 2 none).1.getAllClusNum 3 2 = some [2] ∧
      ∀ fuel, (threeEntryFat.alloc 3 none).1.getAllClusNum fuel 2 = none := by
  obtain ⟨htwo, hend⟩ := threeEntryFat.alloc_two_of_unique_free rfl (by decide) (by decide)
    (by decide) threeEntryFat_unique_free
  obtain ⟨-, hloop⟩ := threeEntryFat.alloc_three_of_unique_free rfl (by decide) (by decide)
    (by decide) threeEntryFat_unique_free (by decide) (by decide)
  refine ⟨htwo, ?_, ?_⟩
  · simp [getAllClusNum, getNextClusNum, hend, eoc, badBlock, fatEntryFree, fatEntryReservedToEnd]
  · apply getAllClusNum_self_loop
    · rw [getNextClusNum_of_lt _ (by rw [hloop]; decide), hloop]
    all_goals decide

end Fat

end OsKernel.Fat32.Bitmap

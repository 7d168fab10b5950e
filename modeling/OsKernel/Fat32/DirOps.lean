import OsKernel.Fat32.DirLayout

/-! # Creating and deleting directory entries

`alloc_dir_ent`, `create_dir_ent` and `delete_dir_ent` over a laid-out
directory.  Allocation takes the entries from `hint` on, growing the file by a
cluster whenever it reaches the end; what a new cluster held stays in the
entries after the new `hint`, which nothing reads.  Deletion marks a name's
entries unused and moves `hint` back over the unused entries before it.
-/

namespace OsKernel.Fat32

open Inode Fs DirIter DirItem

/-- The FAT gives a cluster to each of `n` growths of the file by one cluster,
    one after the other. -/
def GrowsBy : Nat → FileState → Prop
  | 0, _ => True
  | n + 1, st => Supplies st 1 ∧ GrowsBy n (allocClus st 1)

theorem GrowsBy.congr : ∀ (n : Nat) {st st' : FileState}, st'.fat = st.fat →
    st'.content.clusList = st.content.clusList → GrowsBy n st → GrowsBy n st'
  | 0, _, _, _, _, _ => trivial
  | n + 1, st, st', hfat, hclus, ⟨hsup, hrest⟩ => by
      refine ⟨?_, GrowsBy.congr n ?_ ?_ hrest⟩
      · unfold Supplies at hsup ⊢
        rw [hfat, hclus]
        exact hsup
      · show (st'.fat.alloc 1 st'.content.clusList.getLast?).1 = (st.fat.alloc 1 st.content.clusList.getLast?).1
        rw [hfat, hclus]
      · show st'.content.clusList ++ (st'.fat.alloc 1 st'.content.clusList.getLast?).2 =
          st.content.clusList ++ (st.fat.alloc 1 st.content.clusList.getLast?).2
        rw [hfat, hclus]

theorem GrowsBy.of_cachesOnly {n : Nat} {st st' : FileState} (hst : CachesOnly st st') (h : GrowsBy n st) :
    GrowsBy n st' :=
  GrowsBy.congr n hst.fat (by rw [hst.content]) h

theorem setIterOffset_fwdAt {h : Nat} (hh : stepSize * h < 2 ^ 32) :
    (DirIter.mk none .enum forward).setIterOffset (stepSize * h) = fwdAt .enum h := by
  rcases h with _ | h
  · rfl
  · have hsub : Word.sub 32 (stepSize * (h + 1)) stepSize = stepSize * h := by
      rw [Word.sub_of_le (by unfold stepSize; omega) hh]
      unfold stepSize
      omega
    have hne : stepSize * (h + 1) ≠ 0 := by
      unfold stepSize
      omega
    simp [setIterOffset, fwdAt, forward, hsub, hne]

/-! ## `alloc_dir_ent` -/

section Alloc

variable {efs : Efs} (h512 : efs.bytsPerSec = bufferSize)
include h512

/-- What `alloc_dir_ent` of `a` entries leaves after the entries `pre` that
    end at `hint`: `a` entries, then a `last_and_unused` entry or the end of
    the file, with `hint` past the `a` entries. -/
structure Allocated (efs : Efs) (st₀ st : FileState) (pre : List FATDirEnt) (a : Nat) : Prop where
  represents : ∃ mid tail, mid.length = a ∧ (∀ e ∈ tail.head?, e = FATDirEnt.unusedAndLastEntry) ∧
    Represents efs st (entBytes (pre ++ mid ++ tail))
  hint_eq : st.content.hint = stepSize * (pre.length + a)
  size_dvd : efs.clusSize ∣ st.content.size
  size_le : st₀.content.size ≤ st.content.size

theorem allocDirEntLoop_spec (a : Nat) :
    ∀ (fuel E : Nat) (pre rest : List FATDirEnt) (found : Nat) (st : FileState),
      Represents efs st (entBytes (pre ++ rest)) → pre.length + found ≤ (pre ++ rest).length → found < a →
      efs.clusSize ∣ st.content.size → pre.length + a ≤ (pre ++ rest).length + E * (16 * efs.secPerClus) →
      GrowsBy E st → st.content.size + E * efs.clusSize < 2 ^ 32 → a - found + E ≤ fuel →
      ∃ st', allocDirEntLoop efs a fuel st (fwdAt .enum (pre.length + found)) found =
        some (st', stepSize * (pre.length + a - 1)) ∧ Allocated efs st st' pre a
  | 0, _, _, _, _, _, _, _, hfound, _, _, _, _, hfuel => absurd hfuel (by omega)
  | fuel + 1, E, pre, rest, found, st, hrep, hp, hfound, hdvd, hroom, hgrow, hsize, hfuel => by
      have hlen : st.content.size = stepSize * (pre ++ rest).length := by
        rw [hrep.size_eq, length_entBytes]
      have hsize32 : stepSize * (pre ++ rest).length < 2 ^ 32 := by
        rw [← length_entBytes]
        exact hrep.size_lt
      obtain ⟨st₁, hrep₁, hst₁, hnext⟩ := next_refines h512 hrep (fwdAt .enum (pre.length + found))
      have hsize₁ : st₁.content.size = st.content.size := by rw [hst₁.content]
      by_cases hp' : pre.length + found < (pre ++ rest).length
      · -- an entry of the file: count it
        rw [allocDirEntLoop, hnext, nextOn_fwdAt_enum hsize32 hp']
        simp only [Option.map_some, Option.bind_eq_bind, Option.bind_some]
        by_cases hlast : a ≤ found + 1
        · -- the last entry: mark the one after it, or meet the end of the file
          have ha : a = found + 1 := by omega
          have hoff : (fwdAt .enum (pre.length + found + 1)).offset = some (stepSize * (pre.length + found)) := by
            simp [fwdAt]
          obtain ⟨st₂, hrep₂, hst₂, hnext₂⟩ := next_refines h512 hrep₁ (fwdAt .enum (pre.length + found + 1))
          have hsize₂ : st₂.content.size = st.content.size := by rw [hst₂.content, hsize₁]
          rw [if_pos hlast, hoff]
          simp only [Option.bind_some]
          rw [hnext₂]
          by_cases hq : pre.length + found + 1 < (pre ++ rest).length
          · have hoff' : (fwdAt .enum (pre.length + found + 1 + 1)).offset =
                some (stepSize * (pre.length + found + 1)) := by
              simp [fwdAt]
            obtain ⟨st₃, hwrite, hrep₃, hst₃⟩ :=
              writeToCurrentEnt_entBytes h512 hrep₂ hoff' hq FATDirEnt.unusedAndLastEntry
            rw [nextOn_fwdAt_enum hsize32 hq]
            simp only [Option.map_some, Option.bind_some, hwrite, hoff']
            refine ⟨_, by rw [ha]; rfl, ⟨?_, ?_, ?_, ?_⟩⟩
            · have hrest : a < rest.length := by simp at hq; omega
              refine ⟨rest.take a, FATDirEnt.unusedAndLastEntry :: rest.drop (a + 1), by simp; omega,
                by simp, ?_⟩
              have hset : (pre ++ rest).set (pre.length + found + 1) FATDirEnt.unusedAndLastEntry =
                  pre ++ rest.take a ++ FATDirEnt.unusedAndLastEntry :: rest.drop (a + 1) := by
                rw [List.set_append_right _ _ (by omega), show pre.length + found + 1 - pre.length = a by omega,
                  List.set_eq_take_append_cons_drop, if_pos hrest, List.append_assoc]
              rw [← hset]
              exact hrep₃.withHint _
            · show stepSize * (pre.length + found + 1) = _
              rw [ha, Nat.add_assoc]
            · show efs.clusSize ∣ st₃.content.size
              rw [hst₃.content, hsize₂]
              exact hdvd
            · show st.content.size ≤ st₃.content.size
              rw [hst₃.content, hsize₂]
          · have hend : pre.length + found + 1 = (pre ++ rest).length := by omega
            rw [hend, nextOn_fwdAt_enum_end hsize32]
            simp only [Option.map_some, Option.bind_some]
            refine ⟨_, by rw [ha]; rfl, ⟨⟨rest, [], by simp at hend; omega, by simp, ?_⟩, ?_, ?_, ?_⟩⟩
            · rw [List.append_nil]
              exact hrep₂.withHint _
            · show st₂.content.size = _
              rw [hsize₂, hlen, ← hend, ha, Nat.add_assoc]
            · show efs.clusSize ∣ st₂.content.size
              rw [hsize₂]
              exact hdvd
            · show st.content.size ≤ st₂.content.size
              rw [hsize₂]
        · rw [if_neg hlast]
          obtain ⟨st', hloop, hall⟩ := allocDirEntLoop_spec a fuel E pre rest (found + 1) st₁ hrep₁ (by omega)
            (by omega) (by rw [hsize₁]; exact hdvd) hroom (hgrow.of_cachesOnly hst₁) (by rw [hsize₁]; exact hsize)
            (by omega)
          refine ⟨st', by rw [Nat.add_assoc]; exact hloop, ?_⟩
          exact ⟨hall.represents, hall.hint_eq, hall.size_dvd, by rw [← hsize₁]; exact hall.size_le⟩
      · -- the end of the file: grow it by a cluster
        have hend : pre.length + found = (pre ++ rest).length := by omega
        have hlenpr : (pre ++ rest).length = pre.length + rest.length := List.length_append
        cases E with
        | zero => rw [Nat.zero_mul, Nat.add_zero] at hroom; omega
        | succ E =>
            rw [Nat.add_one_mul] at hroom hsize
            obtain ⟨hsup, hgrow'⟩ := hgrow.of_cachesOnly hst₁
            obtain ⟨junk, hjunk, st₂, hexp, hrep₂, -, hsize₂, hfat₂, hclus₂⟩ :=
              expandDirSize_entBytes h512 hrep₁ (by rw [hsize₁]; exact hdvd) (by rw [hsize₁]; omega) hsup
            rw [List.append_assoc] at hrep₂
            have hlen₂ : (pre ++ (rest ++ junk)).length = pre.length + rest.length + 16 * efs.secPerClus := by
              rw [List.length_append, List.length_append, hjunk, Nat.add_assoc]
            obtain ⟨st', hloop, hall⟩ := allocDirEntLoop_spec a fuel E pre (rest ++ junk) found st₂ hrep₂
              (by omega) hfound
              (by rw [hsize₂, hsize₁]; exact Nat.dvd_add hdvd (dvd_refl _))
              (by omega) (GrowsBy.congr E hfat₂ hclus₂ hgrow') (by rw [hsize₂, hsize₁]; omega)
              (by omega)
            rw [allocDirEntLoop, hnext, hend, nextOn_fwdAt_enum_end hsize32, ← hend]
            simp only [Option.map_some, Option.bind_eq_bind, Option.bind_some, hexp]
            refine ⟨st', hloop, hall.represents, hall.hint_eq, hall.size_dvd, ?_⟩
            have := hall.size_le
            rw [hsize₂, hsize₁] at this
            omega

theorem allocDirEnt_spec {st : FileState} {pre rest : List FATDirEnt} {a E : Nat}
    (hrep : Represents efs st (entBytes (pre ++ rest))) (hhint : st.content.hint = stepSize * pre.length)
    (ha : 0 < a) (hdvd : efs.clusSize ∣ st.content.size)
    (hroom : pre.length + a ≤ (pre ++ rest).length + E * (16 * efs.secPerClus)) (hgrow : GrowsBy E st)
    (hsize : st.content.size + E * efs.clusSize < 2 ^ 32) (hE : E ≤ a + 2) :
    ∃ st', allocDirEnt efs st a = some (st', stepSize * (pre.length + a - 1)) ∧ Allocated efs st st' pre a := by
  have hpre : stepSize * pre.length < 2 ^ 32 := by
    have hlt := hrep.size_lt
    rw [length_entBytes, List.length_append] at hlt
    exact lt_of_le_of_lt (Nat.mul_le_mul_left _ (Nat.le_add_right _ _)) hlt
  have hstart := allocDirEntLoop_spec h512 a (2 * a + 2) E pre rest 0 st hrep (by simp) ha hdvd hroom hgrow hsize
    (by omega)
  rw [Nat.add_zero] at hstart
  rw [allocDirEnt, hhint, setIterOffset_fwdAt hpre]
  exact hstart

end Alloc

/-! ## `create_dir_ent` -/

theorem set_length_append_cons (A B : List FATDirEnt) (x e : FATDirEnt) :
    (A ++ x :: B).set A.length e = A ++ e :: B := by
  rw [List.set_append_right _ _ le_rfl, Nat.sub_self, List.set_cons_zero]

section Create

variable {efs : Efs} (h512 : efs.bytsPerSec = bufferSize)
include h512

/-- The loop of `create_dir_ent` over the long entries: back from the short
    entry, each long entry goes one entry further back. -/
theorem foldlM_writeLongs :
    ∀ (longs A M B : List FATDirEnt) (st : FileState), M.length = longs.length →
      Represents efs st (entBytes (A ++ M ++ B)) →
      ∃ st', longs.foldlM (fun (st, iter) longEnt => do
          let (st, iter, _) ← iter.next efs st
          let st ← iter.writeToCurrentEnt efs st longEnt
          pure (st, iter)) (st, bwdAt .enum (A.length + M.length)) = some (st', bwdAt .enum A.length) ∧
        Represents efs st' (entBytes (A ++ longs.reverse ++ B)) ∧ CachesOnly st st'
  | [], A, M, B, st, hM, hrep => by
      obtain rfl : M = [] := List.length_eq_zero_iff.mp hM
      exact ⟨st, rfl, by simpa using hrep, CachesOnly.refl st⟩
  | l :: ls, A, M, B, st, hM, hrep => by
      obtain ⟨M', x, rfl⟩ : ∃ M' x, M = M' ++ [x] := by
        cases M using List.reverseRecOn with
        | nil => simp at hM
        | append_singleton M' x => exact ⟨M', x, rfl⟩
      have hM' : M'.length = ls.length := by simpa using hM
      have hsize : stepSize * (A ++ M' ++ x :: B).length < 2 ^ 32 := by
        rw [← length_entBytes]
        simpa using hrep.size_lt
      have hes : A ++ (M' ++ [x]) ++ B = A ++ M' ++ x :: B := by simp
      rw [hes] at hrep
      obtain ⟨st₁, hrep₁, hst₁, hnext⟩ := next_refines h512 hrep (bwdAt .enum (A.length + (M' ++ [x]).length))
      have hpos : A.length + (M' ++ [x]).length = (A ++ M').length + 1 := by simp; omega
      have hlt : (A ++ M').length < (A ++ M' ++ x :: B).length := by simp
      have hoff : (bwdAt .enum (A ++ M').length).offset = some (stepSize * (A ++ M').length) := rfl
      obtain ⟨st₂, hwrite, hrep₂, hst₂⟩ := writeToCurrentEnt_entBytes h512 hrep₁ hoff hlt l
      rw [set_length_append_cons] at hrep₂
      obtain ⟨st', hfold, hrep', hst'⟩ := foldlM_writeLongs ls A M' (l :: B) st₂ hM' (by simpa using hrep₂)
      refine ⟨st', ?_, by simpa using hrep', hst₁.trans (hst₂.trans hst')⟩
      rw [hpos] at hnext
      rw [List.foldlM_cons, hpos]
      simp only [hnext, nextOn_bwdAt_enum hsize hlt, Option.map_some, Option.bind_eq_bind, Option.bind_some,
        hwrite]
      rw [List.length_append]
      exact hfold

/-- `create_dir_ent` after the entries `pre` that end at `hint`: the long
    entries, last part first, and the short entry, then a `last_and_unused`
    entry or the end of the file; it returns the offset of the short entry. -/
theorem createDirEnt_spec {st : FileState} {pre rest : List FATDirEnt} {E : Nat} (short : FATDirEnt)
    (longs : List FATDirEnt) (hrep : Represents efs st (entBytes (pre ++ rest)))
    (hhint : st.content.hint = stepSize * pre.length) (hdvd : efs.clusSize ∣ st.content.size)
    (hroom : pre.length + (1 + longs.length) ≤ (pre ++ rest).length + E * (16 * efs.secPerClus))
    (hgrow : GrowsBy E st) (hsize : st.content.size + E * efs.clusSize < 2 ^ 32) (hE : E ≤ longs.length + 3) :
    ∃ st' tail, Inode.createDirEnt efs st short longs = some (st', stepSize * (pre.length + longs.length)) ∧
      (∀ e ∈ tail.head?, e = FATDirEnt.unusedAndLastEntry) ∧
      Represents efs st' (entBytes (pre ++ (longs.reverse ++ [short]) ++ tail)) ∧
      st'.content.hint = stepSize * (pre.length + (longs.reverse ++ [short]).length) ∧
      efs.clusSize ∣ st'.content.size ∧ st.content.size ≤ st'.content.size := by
  obtain ⟨st₁, halloc, hall⟩ := allocDirEnt_spec h512 hrep hhint (by omega) hdvd hroom hgrow hsize (by omega)
  obtain ⟨mid, tail, hmid, htail, hrep₁⟩ := hall.represents
  rw [show pre.length + (1 + longs.length) - 1 = pre.length + longs.length by omega] at halloc
  obtain ⟨M, x, rfl⟩ : ∃ M x, mid = M ++ [x] := by
    cases mid using List.reverseRecOn with
    | nil => simp at hmid; omega
    | append_singleton M x => exact ⟨M, x, rfl⟩
  have hM : M.length = longs.length := by simp at hmid; omega
  rw [show pre ++ (M ++ [x]) ++ tail = pre ++ M ++ x :: tail by simp] at hrep₁
  have hlt : (pre ++ M).length < (pre ++ M ++ x :: tail).length := by simp
  have hiter : (⟨some (stepSize * (pre.length + longs.length)), .enum, backward⟩ : DirIter) =
      bwdAt .enum (pre ++ M).length := by
    simp [bwdAt, hM]
  obtain ⟨st₂, hwrite, hrep₂, hst₂⟩ := writeToCurrentEnt_entBytes h512 hrep₁ (rfl : (bwdAt .enum (pre ++ M).length).offset = _) hlt short
  rw [set_length_append_cons] at hrep₂
  obtain ⟨st₃, hfold, hrep₃, hst₃⟩ := foldlM_writeLongs h512 longs pre M (short :: tail) st₂ hM hrep₂
  refine ⟨st₃, tail, ?_, htail, by simpa using hrep₃, ?_, ?_, ?_⟩
  · rw [createDirEnt, halloc]
    simp only [Option.bind_eq_bind, Option.bind_some] at hfold ⊢
    rw [hiter, hwrite]
    simp only [Option.bind_some]
    rw [show (pre ++ M).length = pre.length + M.length from List.length_append, hfold]
    rfl
  · rw [hst₃.content, hst₂.content, hall.hint_eq]
    congr 1
    simp only [List.length_append, List.length_reverse, List.length_singleton]
    omega
  · rw [hst₃.content, hst₂.content]
    exact hall.size_dvd
  · rw [hst₃.content, hst₂.content]
    exact hall.size_le

end Create

/-! ## `delete_dir_ent` -/

/-- A run of items ends in a run of entries marked unused, after a name or at
    the start. -/
theorem exists_trailing_deleted : ∀ items : List DirItem, ∃ I D, items = I ++ D ∧
    (∀ item ∈ D, ∃ e, item = deleted e) ∧ ∀ item ∈ I.getLast?, ∃ longs short, item = named longs short := by
  intro items
  induction items using List.reverseRecOn with
  | nil => exact ⟨[], [], rfl, by simp, by simp⟩
  | append_singleton items item ih =>
      cases item with
      | named longs short => exact ⟨items ++ [named longs short], [], by simp, by simp, by simp⟩
      | deleted e =>
          obtain ⟨I, D, rfl, hD, hI⟩ := ih
          refine ⟨I, D ++ [deleted e], by simp, fun item hitem => ?_, hI⟩
          rcases List.mem_append.mp hitem with h | h
          · exact hD item h
          · exact ⟨e, List.mem_singleton.mp h⟩

theorem unused_of_mem_entsOf {D : List DirItem} (hD : ∀ item ∈ D, ∃ e, item = deleted e)
    (hvalid : ∀ item ∈ D, item.Valid) : ∀ e ∈ entsOf D, e.unused = true := by
  intro e he
  obtain ⟨item, hitem, he⟩ := List.mem_flatMap.mp he
  obtain ⟨d, rfl⟩ := hD item hitem
  have hd : d.unusedNotLast = true := hvalid _ hitem
  simp only [ents, List.mem_singleton] at he
  simp [he, FATDirEnt.unused, hd]

theorem getElem_mem_between {X Y Z : List FATDirEnt} {s : FATDirEnt} {j : Nat}
    (hj : j < (X ++ s :: (Y ++ Z)).length) (h₁ : X.length + 1 ≤ j) (h₂ : j < X.length + 1 + Y.length) :
    (X ++ s :: (Y ++ Z))[j] ∈ Y := by
  have hY : j - X.length - 1 < Y.length := by omega
  have heq : (X ++ s :: (Y ++ Z))[j] = Y[j - X.length - 1] := by
    rw [List.getElem_append_right (by omega)]
    obtain ⟨i, hi⟩ : ∃ i, j - X.length = i + 1 := ⟨j - X.length - 1, by omega⟩
    simp only [hi, List.getElem_cons_succ]
    rw [List.getElem_append_left (by omega)]
    congr 1
  rw [heq]
  exact List.getElem_mem _

theorem getLast_entsOf_used {I : List DirItem} (hI : ∀ item ∈ I.getLast?, ∃ longs short, item = named longs short)
    (hvalid : ∀ item ∈ I, item.Valid) : ∀ x ∈ (entsOf I).getLast?, x.unused = false := by
  cases I using List.reverseRecOn with
  | nil => simp
  | append_singleton I item =>
      obtain ⟨longs, short, rfl⟩ := hI item (by simp)
      obtain ⟨-, -, hused⟩ : (named longs short).Valid := hvalid _ (by simp)
      intro x hx
      have hlast : (entsOf (I ++ [named longs short])).getLast? = some short := by
        simp [ents]
      rw [hlast, Option.mem_def, Option.some.injEq] at hx
      rw [← hx]
      exact hused

theorem entsOf_replicate_deleted (e : FATDirEnt) :
    ∀ k, entsOf (List.replicate k (deleted e)) = List.replicate k e
  | 0 => rfl
  | k + 1 => by
      rw [List.replicate_succ, entsOf_cons, entsOf_replicate_deleted e k]
      rfl

/-- A free part that starts with `last_and_unused` entries, cut anywhere. -/
theorem head_take_free {k n : Nat} {tail : List FATDirEnt} (htail : ∀ e ∈ tail.head?, e.lastAndUnused = true) :
    ∀ e ∈ ((List.replicate k FATDirEnt.unusedAndLastEntry ++ tail).take n).head?, e.lastAndUnused = true := by
  intro e he
  rw [List.head?_take] at he
  split at he
  · simp at he
  · cases k with
    | zero => exact htail e (by simpa using he)
    | succ k =>
        simp only [List.replicate_succ, List.cons_append, List.head?_cons, Option.mem_def,
          Option.some.injEq] at he
        rw [← he]
        decide

/-- Back in `Used` mode from just after a used entry: that entry. -/
theorem nextOn_bwdAt_used_append_cons {X Y : List FATDirEnt} {L : FATDirEnt}
    (hsize : stepSize * (X ++ L :: Y).length < 2 ^ 32) (hused : L.unused = false) :
    (bwdAt .used (X.length + 1)).nextOn (entBytes (X ++ L :: Y)) = some (bwdAt .used X.length, some L) := by
  have hget : (X ++ L :: Y)[X.length] = L := by simp
  have hback := nextOn_bwdAt_used hsize (k := 0) (p := X.length) (by simp)
    (fun j _ h₁ h₂ => absurd h₂ (by omega)) (by rw [hget]; exact hused)
  simpa only [Nat.add_zero, hget] using hback

/-- Back from the end of a run of items in `Used` mode: the short entry of the
    last name, or nothing. -/
theorem nextOn_bwdAt_used_items {before : List DirItem} {post : List FATDirEnt}
    (hsize : stepSize * (entsOf before ++ post).length < 2 ^ 32) (hvalid : ∀ item ∈ before, item.Valid) :
    ∃ it r, (bwdAt .used (entsOf before).length).nextOn (entBytes (entsOf before ++ post)) = some (it, r) ∧
      ∀ e ∈ r, e.isLong = false := by
  obtain ⟨I, D, rfl, hD, hI⟩ := exists_trailing_deleted before
  have hunused := unused_of_mem_entsOf hD fun item h => hvalid item (List.mem_append_right I h)
  cases I using List.reverseRecOn with
  | nil =>
      refine ⟨_, _, nextOn_bwdAt_used_start hsize (by simp) fun j hj h => ?_, by simp⟩
      have hmem : (entsOf ([] ++ D) ++ post)[j] ∈ entsOf D := by
        simp only [List.nil_append] at hj h ⊢
        rw [List.getElem_append_left h]
        exact List.getElem_mem _
      exact hunused _ hmem
  | append_singleton I item =>
      obtain ⟨longs, short, rfl⟩ := hI item (by simp)
      obtain ⟨-, hshort, hused⟩ : (named longs short).Valid := hvalid _ (by simp)
      have hes : entsOf (I ++ [named longs short] ++ D) ++ post =
          (entsOf I ++ longs) ++ short :: (entsOf D ++ post) := by
        simp [ents]
      have hpos : (entsOf (I ++ [named longs short] ++ D)).length =
          (entsOf I ++ longs).length + 1 + (entsOf D).length := by
        simp [ents]
        omega
      have hget : ((entsOf I ++ longs) ++ short :: (entsOf D ++ post))[(entsOf I ++ longs).length] = short := by
        simp
      have hback := nextOn_bwdAt_used (hes ▸ hsize) (k := (entsOf D).length) (p := (entsOf I ++ longs).length)
        (by simp; omega) (fun j hj h₁ h₂ => hunused _ (getElem_mem_between hj h₁ h₂)) (by rw [hget]; exact hused)
      rw [hget] at hback
      refine ⟨_, _, by rw [hes, hpos]; exact hback, ?_⟩
      simpa [FATDirEnt.isShort] using hshort

section Delete

variable {efs : Efs} (h512 : efs.bytsPerSec = bufferSize)
include h512

/-- The hint loop: back from `hint` over the unused entries `R` (nearest
    first), each becomes `last_and_unused`, and `hint` stops at the used entry
    before them or at the start. -/
theorem deleteHintLoop_spec :
    ∀ (R X T : List FATDirEnt) (st : FileState) (fuel : Nat),
      Represents efs st (entBytes (X ++ R.reverse ++ T)) → (∀ d ∈ R, d.unused = true) →
      (∀ x ∈ X.getLast?, x.unused = false) → st.content.hint = stepSize * (X ++ R.reverse).length →
      R.length < fuel →
      ∃ st', deleteHintLoop efs fuel st (bwdAt .enum (X ++ R.reverse).length) = some st' ∧
        Represents efs st' (entBytes (X ++ List.replicate R.length FATDirEnt.unusedAndLastEntry ++ T)) ∧
        st'.content.hint = stepSize * X.length ∧ st'.content.size = st.content.size
  | _, _, _, _, 0, _, _, _, _, hfuel => absurd hfuel (Nat.not_lt_zero _)
  | [], X, T, st, fuel + 1, hrep, _, hlast, hhint, _ => by
      simp only [List.reverse_nil, List.append_nil, List.length_nil, List.replicate_zero] at hrep hhint ⊢
      obtain ⟨st₁, hrep₁, hst₁, hnext⟩ := next_refines h512 hrep (bwdAt .enum X.length)
      rw [deleteHintLoop, hnext]
      cases X using List.reverseRecOn with
      | nil =>
          refine ⟨_, by rw [List.length_nil, nextOn_bwdAt_zero]; rfl, (hrep₁.withHint 0), rfl, ?_⟩
          show st₁.content.size = st.content.size
          rw [hst₁.content]
      | append_singleton X x =>
          have hsize : stepSize * (X ++ [x] ++ T).length < 2 ^ 32 := by
            rw [← length_entBytes]
            exact hrep.size_lt
          have hx : x.unused = false := hlast x (by simp)
          have hlt : X.length < (X ++ [x] ++ T).length := by simp
          have hget : (X ++ [x] ++ T)[X.length] = x := by simp
          rw [show (X ++ [x]).length = X.length + 1 by simp, nextOn_bwdAt_enum hsize hlt]
          simp only [Option.map_some, Option.bind_eq_bind, Option.bind_some, hget, hx]
          refine ⟨st₁, rfl, hrep₁, by rw [hst₁.content, hhint]; simp, by rw [hst₁.content]⟩
  | d :: R, X, T, st, fuel + 1, hrep, hunused, hlast, hhint, hfuel => by
      have hes : X ++ (d :: R).reverse ++ T = (X ++ R.reverse) ++ d :: T := by simp
      rw [hes] at hrep
      have hsize : stepSize * ((X ++ R.reverse) ++ d :: T).length < 2 ^ 32 := by
        rw [← length_entBytes]
        exact hrep.size_lt
      have hlt : (X ++ R.reverse).length < ((X ++ R.reverse) ++ d :: T).length := by simp
      have hget : ((X ++ R.reverse) ++ d :: T)[(X ++ R.reverse).length] = d := by simp
      have hd : d.unused = true := hunused d List.mem_cons_self
      have hpos : (X ++ (d :: R).reverse).length = (X ++ R.reverse).length + 1 := by simp; omega
      obtain ⟨st₁, hrep₁, hst₁, hnext⟩ := next_refines h512 hrep (bwdAt .enum (X ++ (d :: R).reverse).length)
      rw [hpos, nextOn_bwdAt_enum hsize hlt] at hnext
      obtain ⟨st₂, hwrite, hrep₂, hst₂⟩ := writeToCurrentEnt_entBytes h512
        (hrep₁.withHint (stepSize * (X ++ R.reverse).length)) (rfl : (bwdAt .enum (X ++ R.reverse).length).offset = _)
        hlt FATDirEnt.unusedAndLastEntry
      rw [set_length_append_cons] at hrep₂
      obtain ⟨st', hloop, hrep', hhint', hsize'⟩ := deleteHintLoop_spec R X (FATDirEnt.unusedAndLastEntry :: T) st₂
        fuel (by simpa using hrep₂) (fun x hx => hunused x (List.mem_cons_of_mem d hx)) hlast
        (by rw [hst₂.content]) (by simp at hfuel; omega)
      refine ⟨st', ?_, ?_, hhint', ?_⟩
      · rw [deleteHintLoop, hpos, hnext]
        simp only [Option.map_some, Option.bind_eq_bind, Option.bind_some, hget, hd, if_true]
        rw [show (bwdAt DirIterMode.enum (X ++ R.reverse).length).offset =
            some (stepSize * (X ++ R.reverse).length) from rfl]
        simp only [Option.bind_some, hwrite]
        exact hloop
      · rw [List.length_cons, List.replicate_succ', List.append_assoc, List.append_assoc]
        simpa using hrep'
      · rw [hsize', hst₂.content]
        show st₁.content.size = st.content.size
        rw [hst₁.content]

/-- The long-entry loop: back from the entry before the short one over a name's
    long entries `R` (nearest first), each is marked unused, up to the one
    marked last. -/
theorem deleteLongLoop_spec :
    ∀ (R A B : List FATDirEnt) (st : FileState) (fuel : Nat), R ≠ [] →
      Represents efs st (entBytes (A ++ R.reverse ++ B)) →
      (∀ i (hi : i < R.length), R[i].isLong = true ∧ R[i].unused = false ∧
        R[i].isLastLongDirEnt = (i + 1 == R.length)) → R.length ≤ fuel →
      ∃ st', deleteLongLoop efs fuel st (bwdAt .used (A.length + R.length - 1)) = some (st', true) ∧
        Represents efs st' (entBytes (A ++ List.replicate R.length FATDirEnt.unusedNotLastEntry ++ B)) ∧
        CachesOnly st st'
  | [], _, _, _, _, hR, _, _, _ => absurd rfl hR
  | _ :: _, _, _, _, 0, _, _, _, hfuel => absurd hfuel (by simp)
  | L :: R, A, B, st, fuel + 1, _, hrep, hchain, hfuel => by
      obtain ⟨hlong, -, hlast⟩ := hchain 0 (by simp)
      simp only [List.getElem_cons_zero, Nat.zero_add, List.length_cons] at hlong hlast
      have hes : A ++ (L :: R).reverse ++ B = (A ++ R.reverse) ++ L :: B := by simp
      rw [hes] at hrep
      have hpos : A.length + (L :: R).length - 1 = (A ++ R.reverse).length := by simp
      have hlt : (A ++ R.reverse).length < ((A ++ R.reverse) ++ L :: B).length := by simp
      have hget : ((A ++ R.reverse) ++ L :: B)[(A ++ R.reverse).length] = L := by simp
      have hoff : (bwdAt .used (A ++ R.reverse).length).offset = some (stepSize * (A ++ R.reverse).length) := rfl
      obtain ⟨st₁, hclone, hrep₁, hst₁⟩ := currentClone_entBytes h512 hrep hoff hlt
      obtain ⟨st₂, hwrite, hrep₂, hst₂⟩ := writeToCurrentEnt_entBytes h512 hrep₁ hoff hlt
        FATDirEnt.unusedNotLastEntry
      rw [set_length_append_cons] at hrep₂
      have hsize₂ : stepSize * ((A ++ R.reverse) ++ FATDirEnt.unusedNotLastEntry :: B).length < 2 ^ 32 := by
        rw [← length_entBytes]
        exact hrep₂.size_lt
      obtain ⟨st₃, hrep₃, hst₃, hnext⟩ := next_refines h512 hrep₂ (bwdAt .used (A ++ R.reverse).length)
      rw [hpos, deleteLongLoop, hclone]
      simp only [Option.bind_eq_bind, Option.bind_some, hget, hlong, Bool.not_true, Bool.false_eq_true,
        if_false, hwrite, hnext]
      cases R with
      | nil =>
          obtain ⟨r, hr⟩ := nextOn_bwdAt_isSome hsize₂ .used (p := (A ++ [].reverse).length) (by simp)
          rw [hr]
          simp only [Option.map_some, Option.bind_some, hlast, List.length_nil, Nat.zero_add, beq_self_eq_true,
            if_true]
          exact ⟨st₃, rfl, by simpa using hrep₃, hst₁.trans (hst₂.trans hst₃)⟩
      | cons L' R =>
          have hnotlast : L.isLastLongDirEnt = false := by simpa using hlast
          have hes' : (A ++ (L' :: R).reverse) ++ FATDirEnt.unusedNotLastEntry :: B =
              (A ++ R.reverse) ++ L' :: FATDirEnt.unusedNotLastEntry :: B := by simp
          obtain ⟨-, hused', -⟩ := hchain 1 (by simp)
          simp only [List.getElem_cons_succ, List.getElem_cons_zero] at hused'
          have hposL : (A ++ (L' :: R).reverse).length = (A ++ R.reverse).length + 1 := by simp; omega
          have hback' : (bwdAt .used (A ++ (L' :: R).reverse).length).nextOn
              (entBytes ((A ++ (L' :: R).reverse) ++ FATDirEnt.unusedNotLastEntry :: B)) =
              some (bwdAt .used (A ++ R.reverse).length, some L') := by
            rw [hes', hposL]
            exact nextOn_bwdAt_used_append_cons (hes' ▸ hsize₂) hused'
          rw [hback']
          simp only [Option.map_some, Option.bind_some, hnotlast, Bool.false_eq_true, if_false]
          obtain ⟨st', hloop, hrep', hst'⟩ := deleteLongLoop_spec (L' :: R) A (FATDirEnt.unusedNotLastEntry :: B) st₃
            fuel (List.cons_ne_nil _ _) hrep₃
            (fun i hi => by
              obtain ⟨h₁, h₂, h₃⟩ := hchain (i + 1) (by simp at hi ⊢; omega)
              simp only [List.getElem_cons_succ, List.length_cons] at h₁ h₂ h₃
              exact ⟨h₁, h₂, by simpa using h₃⟩)
            (by simp at hfuel ⊢; omega)
          have hposR : A.length + (L' :: R).length - 1 = (A ++ R.reverse).length := by simp
          rw [hposR] at hloop
          refine ⟨st', hloop, ?_, hst₁.trans (hst₂.trans (hst₃.trans hst'))⟩
          rw [List.length_cons, List.replicate_succ']
          simpa using hrep'

/-- The end of `delete_dir_ent`: the hint loop over the unused entries that
    end the run, and `shrink_dir_size`; the run loses its trailing unused
    entries to the free part. -/
theorem hintLoop_shrink_spec {st : FileState} {M : List DirItem} {tail : List FATDirEnt}
    (hrep : Represents efs st (entBytes (entsOf M ++ tail))) (hhint : st.content.hint = stepSize * (entsOf M).length)
    (hvalid : ∀ item ∈ M, item.Valid) (htail : ∀ e ∈ tail.head?, e.lastAndUnused = true)
    (hdvd : efs.clusSize ∣ st.content.size) (hpos : 0 < st.content.size) :
    ∃ st₁ st' I D tail',
      deleteHintLoop efs (st.content.hint / stepSize + 1) st ⟨some st.content.hint, .enum, backward⟩ = some st₁ ∧
      shrinkDirSize efs st₁ = some st' ∧ M = I ++ D ∧ (∀ item ∈ D, ∃ e, item = deleted e) ∧
      Layout efs st' I tail' := by
  obtain ⟨I, D, rfl, hD, hI⟩ := exists_trailing_deleted M
  have hX := getLast_entsOf_used hI fun item h => hvalid item (List.mem_append_left D h)
  have hR : ∀ d ∈ (entsOf D).reverse, d.unused = true := fun d hd =>
    unused_of_mem_entsOf hD (fun item h => hvalid item (List.mem_append_right I h)) d (List.mem_reverse.mp hd)
  have hes : entsOf (I ++ D) ++ tail = entsOf I ++ (entsOf D).reverse.reverse ++ tail := by simp
  have hlen : (entsOf I ++ (entsOf D).reverse.reverse).length = (entsOf (I ++ D)).length := by simp
  rw [hes] at hrep
  have hiter : (⟨some st.content.hint, .enum, backward⟩ : DirIter) =
      bwdAt .enum (entsOf I ++ (entsOf D).reverse.reverse).length := by
    rw [hhint, hlen]
    rfl
  have hfuel : st.content.hint / stepSize + 1 = (entsOf (I ++ D)).length + 1 := by
    rw [hhint, Nat.mul_div_cancel_left _ (by decide)]
  obtain ⟨st₁, hloop, hrep₁, hhint₁, hsize₁⟩ := deleteHintLoop_spec h512 (entsOf D).reverse (entsOf I) tail st
    (st.content.hint / stepSize + 1) hrep hR hX (by rw [hhint, hlen]) (by rw [hfuel]; simp)
  have hle : st₁.content.hint ≤ st₁.content.size := by
    rw [hhint₁, hrep₁.size_eq, length_entBytes]
    exact Nat.mul_le_mul_left _ (by simp)
  obtain ⟨st', hshrink, hrep', hhint', hm⟩ := shrinkDirSize_entBytes h512 hrep₁ (by rw [hsize₁]; exact hdvd)
    (by rw [hsize₁]; exact hpos) hle
  set m := 16 * efs.secPerClus * max (totalClus efs st₁.content.hint) 1 with hmdef
  have hmX : (entsOf I).length ≤ m := by
    have hcover : st₁.content.hint ≤ stepSize * m := by
      rw [hmdef, ← Nat.mul_assoc, ← clusSize_eq h512, Nat.mul_comm]
      exact le_trans (le_totalClus_mul _) (Nat.mul_le_mul_right _ (le_max_left _ _))
    rw [hhint₁] at hcover
    exact Nat.le_of_mul_le_mul_left hcover (by decide)
  have htake : (entsOf I ++ List.replicate (entsOf D).reverse.length FATDirEnt.unusedAndLastEntry ++ tail).take m =
      entsOf I ++ (List.replicate (entsOf D).reverse.length FATDirEnt.unusedAndLastEntry ++ tail).take
        (m - (entsOf I).length) := by
    rw [List.append_assoc, List.take_append, List.take_of_length_le hmX]
  rw [htake] at hrep'
  have hmpos : 0 < m := Nat.mul_pos (Nat.mul_pos (by decide) efs.secPerClus_pos) (by omega)
  refine ⟨st₁, st', I, D, _, hiter ▸ hloop, hshrink, rfl, hD,
    ⟨fun item h => hvalid item (List.mem_append_left D h), hrep', by rw [hhint', hhint₁],
      head_take_free htail, ?_, ?_⟩⟩
  · rw [hrep'.size_eq, ← htake, length_entBytes, List.length_take, Nat.min_eq_left (by simpa using hm),
      hmdef, ← Nat.mul_assoc, ← clusSize_eq h512]
    exact Dvd.intro _ rfl
  · rw [hrep'.size_eq, ← htake, length_entBytes, List.length_take, Nat.min_eq_left (by simpa using hm)]
    exact Nat.mul_pos (by decide) hmpos

/-- `delete_dir_ent` of a name at the offset of its short entry: its entries
    become unused items, and those that end the run go to the free part. -/
theorem deleteDirEnt_spec {st : FileState} {before after : List DirItem} {longs : List FATDirEnt}
    {short : FATDirEnt} {tail : List FATDirEnt} (hl : Layout efs st (before ++ named longs short :: after) tail) :
    ∃ st' items' D tail',
      deleteDirEnt efs st (stepSize * ((entsOf before).length + longs.length)) = some (st', true) ∧
      before ++ List.replicate (longs.length + 1) (deleted FATDirEnt.unusedNotLastEntry) ++ after = items' ++ D ∧
      (∀ item ∈ D, ∃ e, item = deleted e) ∧ Layout efs st' items' tail' := by
  obtain ⟨hchain, -, -⟩ : (named longs short).Valid := hl.valid _ (by simp)
  have hes : entsOf (before ++ named longs short :: after) ++ tail =
      (entsOf before ++ longs) ++ short :: (entsOf after ++ tail) := by
    simp [ents]
  have hrep := hl.represents
  rw [hes] at hrep
  have hiter : (⟨some (stepSize * ((entsOf before).length + longs.length)), .used, backward⟩ : DirIter) =
      bwdAt .used (entsOf before ++ longs).length := by
    simp [bwdAt]
  have hlt : (entsOf before ++ longs).length < ((entsOf before ++ longs) ++ short :: (entsOf after ++ tail)).length := by
    simp
  obtain ⟨st₁, hwrite, hrep₁, hst₁⟩ := writeToCurrentEnt_entBytes h512 hrep
    (rfl : (bwdAt .used (entsOf before ++ longs).length).offset = _) hlt FATDirEnt.unusedNotLastEntry
  rw [set_length_append_cons] at hrep₁
  have hsize₁ : stepSize * ((entsOf before ++ longs) ++ FATDirEnt.unusedNotLastEntry :: (entsOf after ++ tail)).length <
      2 ^ 32 := by
    rw [← length_entBytes]
    exact hrep₁.size_lt
  obtain ⟨st₂, hrep₂, hst₂, hnext⟩ := next_refines h512 hrep₁ (bwdAt .used (entsOf before ++ longs).length)
  have hvalidM : ∀ item ∈ before ++ List.replicate (longs.length + 1) (deleted FATDirEnt.unusedNotLastEntry) ++ after,
      item.Valid := by
    intro item hitem
    simp only [List.mem_append, List.mem_replicate] at hitem
    rcases hitem with (h | ⟨-, rfl⟩) | h
    · exact hl.valid item (by simp [h])
    · show FATDirEnt.unusedNotLastEntry.unusedNotLast = true
      decide
    · exact hl.valid item (by simp [h])
  have hentsM : entsOf (before ++ List.replicate (longs.length + 1) (deleted FATDirEnt.unusedNotLastEntry) ++ after) ++
      tail = entsOf before ++ List.replicate longs.length FATDirEnt.unusedNotLastEntry ++
        FATDirEnt.unusedNotLastEntry :: (entsOf after ++ tail) := by
    simp [entsOf_replicate_deleted, List.replicate_succ', ents]
  have hlenM : (entsOf (before ++ named longs short :: after)).length =
      (entsOf (before ++ List.replicate (longs.length + 1) (deleted FATDirEnt.unusedNotLastEntry) ++ after)).length := by
    simp [ents, entsOf_replicate_deleted]
    omega
  have hhint₂ : st₂.content.hint = st.content.hint := by rw [hst₂.content, hst₁.content]
  have hsize₂ : st₂.content.size = st.content.size := by rw [hst₂.content, hst₁.content]
  rw [deleteDirEnt, hiter, hwrite]
  simp only [Option.bind_eq_bind, Option.bind_some]
  rw [hnext]
  cases longs using List.reverseRecOn with
  | nil =>
      -- a short entry alone: the used entry before it, if any, is a short one
      have hpost : (entsOf before ++ []) ++ FATDirEnt.unusedNotLastEntry :: (entsOf after ++ tail) =
          entsOf before ++ FATDirEnt.unusedNotLastEntry :: (entsOf after ++ tail) := by simp
      obtain ⟨it, r, hr, hshortBefore⟩ := nextOn_bwdAt_used_items (hpost ▸ hsize₁)
        fun item h => hl.valid item (List.mem_append_left _ h)
      have hr' : (bwdAt .used (entsOf before ++ []).length).nextOn
          (entBytes ((entsOf before ++ []) ++ FATDirEnt.unusedNotLastEntry :: (entsOf after ++ tail))) = some (it, r) := by
        rw [hpost, List.append_nil]
        exact hr
      have hlayout : Layout efs st₂ (before ++ deleted FATDirEnt.unusedNotLastEntry :: after) tail :=
        ⟨fun item h => hvalidM item (by simpa using h), by simpa [ents] using hrep₂,
          by rw [hhint₂, hl.hint_eq]; simp [ents], hl.tail_free, by rw [hsize₂]; exact hl.size_dvd,
          by rw [hsize₂]; exact hl.size_pos⟩
      rw [hr']
      cases r with
      | none => exact ⟨st₂, _, [], tail, rfl, by simp, by simp, hlayout⟩
      | some e =>
          have he : e.isLong = false := hshortBefore e rfl
          simp only [Option.map_some, Option.bind_some, he, Bool.not_false, if_true]
          exact ⟨st₂, _, [], tail, rfl, by simp, by simp, hlayout⟩
  | append_singleton ls L =>
      -- long entries: the nearest is the part of order 1
      obtain ⟨hL, hLused, -, -⟩ := hchain ls.length (by simp)
      simp only [List.getElem_append_right (Nat.le_refl _), Nat.sub_self, List.getElem_cons_zero] at hL hLused
      have hes₁ : (entsOf before ++ (ls ++ [L])) ++ FATDirEnt.unusedNotLastEntry :: (entsOf after ++ tail) =
          (entsOf before ++ ls) ++ L :: (FATDirEnt.unusedNotLastEntry :: (entsOf after ++ tail)) := by simp
      have hback' : (bwdAt .used (entsOf before ++ (ls ++ [L])).length).nextOn
          (entBytes ((entsOf before ++ (ls ++ [L])) ++ FATDirEnt.unusedNotLastEntry :: (entsOf after ++ tail))) =
          some (bwdAt .used (entsOf before ++ ls).length, some L) := by
        rw [hes₁, show (entsOf before ++ (ls ++ [L])).length = (entsOf before ++ ls).length + 1 by simp; omega]
        exact nextOn_bwdAt_used_append_cons (hes₁ ▸ hsize₁) hLused
      obtain ⟨st₃, hloop, hrep₃, hst₃⟩ := deleteLongLoop_spec h512 (ls ++ [L]).reverse (entsOf before)
        (FATDirEnt.unusedNotLastEntry :: (entsOf after ++ tail)) st₂
        (stepSize * ((entsOf before).length + (ls ++ [L]).length) / stepSize + 1) (by simp)
        (by simpa using hrep₂)
        (fun i hi => by
          -- the loop reads the chain nearest part first, which is first part first
          obtain ⟨h₁, h₂, -, h₄⟩ := longChain_reverse_iff.mp (by rwa [List.reverse_reverse]) i hi
          exact ⟨h₁, h₂, h₄⟩)
        (by rw [Nat.mul_div_cancel_left _ (by decide)]; simp; omega)
      have hpos : (entsOf before).length + (ls ++ [L]).reverse.length - 1 = (entsOf before ++ ls).length := by
        simp only [List.length_reverse, List.length_append, List.length_singleton]
        omega
      rw [hpos] at hloop
      have hM : Represents efs st₃ (entBytes (entsOf (before ++ List.replicate ((ls ++ [L]).length + 1)
          (deleted FATDirEnt.unusedNotLastEntry) ++ after) ++ tail)) := by
        rw [hentsM]
        simpa using hrep₃
      obtain ⟨st₄, st₅, I, D, tail', hhintLoop, hshrink, hsplit, hD, hlayout⟩ := hintLoop_shrink_spec h512 hM
        (by rw [hst₃.content, hhint₂, hl.hint_eq, hlenM]) hvalidM hl.tail_free
        (by rw [hst₃.content, hsize₂]; exact hl.size_dvd) (by rw [hst₃.content, hsize₂]; exact hl.size_pos)
      rw [hback']
      simp only [Option.map_some, Option.bind_some, hL, Bool.not_true, Bool.false_eq_true, if_false, hloop,
        hhintLoop, hshrink]
      exact ⟨st₅, I, D, tail', rfl, hsplit, hD, hlayout⟩

end Delete

end OsKernel.Fat32

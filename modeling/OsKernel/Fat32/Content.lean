import OsKernel.Fat32.Vfs

/-! # The content of a file as a byte string

The content operations of `Inode` refine `ByteFile`.  A read sees the byte at
`i` of a file through the cache of its page when the pool holds one, and
otherwise on the sector that `get_neighboring_sec` maps it to.  The content
operations never write a cache back, so the device stays as it is and the view
of a byte changes only where a round writes it.  Sectors are 512 bytes, the
size of a buffer of a page cache, as on the kernel's block devices.
-/

namespace OsKernel.Fat32

open Bitmap Fs

/-! ## The rounds of the page loop -/

/-- `Tiles start stop done rs`: the rounds `rs` cover `[start, stop)` in order,
    one page each, the first at offset `done` of the buffer. -/
inductive Tiles : Nat → Nat → Nat → List Round → Prop
  | last {start stop done : Nat} : start ≤ stop → stop ≤ (start / cacheSz + 1) * cacheSz →
      Tiles start stop done [⟨start / cacheSz, start % cacheSz, stop - start, done⟩]
  | next {start stop done : Nat} {rs : List Round} : (start / cacheSz + 1) * cacheSz < stop →
      Tiles ((start / cacheSz + 1) * cacheSz) stop (done + ((start / cacheSz + 1) * cacheSz - start)) rs →
      Tiles start stop done
        (⟨start / cacheSz, start % cacheSz, (start / cacheSz + 1) * cacheSz - start, done⟩ :: rs)

theorem lt_nextPage (start : Nat) : start < (start / cacheSz + 1) * cacheSz := by
  unfold cacheSz
  omega

theorem pageRoundsLoop_tiles {stop : Nat} :
    ∀ fuel start done, start ≤ stop → stop / cacheSz - start / cacheSz < fuel →
      ∃ rs, pageRoundsLoop fuel (start / cacheSz) start stop done = some rs ∧ Tiles start stop done rs
  | 0, _, _, _, hfuel => absurd hfuel (Nat.not_lt_zero _)
  | fuel + 1, start, done, hle, hfuel => by
      have hstart := lt_nextPage start
      unfold pageRoundsLoop
      dsimp only
      rw [if_neg (by omega)]
      by_cases hlast : stop ≤ (start / cacheSz + 1) * cacheSz
      · rw [min_eq_right hlast, if_pos rfl]
        exact ⟨_, rfl, .last hle hlast⟩
      · have hnext : (start / cacheSz + 1) * cacheSz < stop := Nat.lt_of_not_le hlast
        have hpage : (start / cacheSz + 1) * cacheSz / cacheSz = start / cacheSz + 1 :=
          Nat.mul_div_cancel _ (by decide)
        rw [min_eq_left hnext.le, if_neg hnext.ne]
        obtain ⟨rs, hrs, htiles⟩ := pageRoundsLoop_tiles fuel ((start / cacheSz + 1) * cacheSz)
          (done + ((start / cacheSz + 1) * cacheSz - start)) hnext.le
          (by rw [hpage]; unfold cacheSz at hfuel hnext ⊢; omega)
        rw [hpage] at hrs
        refine ⟨_, ?_, .next hnext htiles⟩
        rw [hrs]
        rfl

theorem pageRounds_tiles {start stop : Nat} (hle : start ≤ stop) :
    ∃ rs, pageRounds start stop = some rs ∧ Tiles start stop 0 rs :=
  pageRoundsLoop_tiles _ start 0 hle (Nat.lt_succ_self _)

namespace Tiles

theorem sum_len {start stop done : Nat} {rs : List Round} (h : Tiles start stop done rs) :
    (rs.map Round.len).sum = stop - start := by
  induction h with
  | last => simp
  | next hnext _ ih =>
      rw [List.map_cons, List.sum_cons, ih]
      dsimp only
      unfold cacheSz at *
      omega

theorem round_bounds {start stop done : Nat} {rs : List Round} (h : Tiles start stop done rs) :
    ∀ r ∈ rs, start ≤ r.cacheId * cacheSz + r.pageOff ∧
      r.cacheId * cacheSz + r.pageOff + r.len ≤ stop ∧ r.pageOff + r.len ≤ cacheSz ∧
      r.bufOff = done + (r.cacheId * cacheSz + r.pageOff - start) := by
  induction h with
  | @last start stop done hle hlast =>
      intro r hr
      rw [List.mem_singleton.mp hr]
      dsimp only
      rw [Nat.div_add_mod']
      unfold cacheSz at *
      exact ⟨le_rfl, by omega, by omega, by omega⟩
  | @next start stop done rs hnext _ ih =>
      intro r hr
      rcases List.mem_cons.mp hr with rfl | hr
      · dsimp only
        rw [Nat.div_add_mod']
        unfold cacheSz at *
        exact ⟨le_rfl, by omega, by omega, by omega⟩
      · obtain ⟨h₁, h₂, h₃, h₄⟩ := ih r hr
        unfold cacheSz at *
        exact ⟨by omega, h₂, h₃, by omega⟩

end Tiles

/-! ## The byte string, byte by byte -/

namespace ByteFile

theorem take_drop_eq_map_getD {α : Type _} (l : List α) (d : α) (off n : Nat) :
    (l.drop off).take n = (List.range (min (off + n) l.length - off)).map fun k => l.getD (off + k) d := by
  have hlen : ((l.drop off).take n).length = (List.range (min (off + n) l.length - off)).length := by
    simp only [List.length_take, List.length_drop, List.length_range]
    omega
  refine List.ext_getElem (by simpa using hlen) fun k h₁ h₂ => ?_
  rw [List.getElem_take, List.getElem_drop, List.getElem_map, List.getElem_range,
    List.getD_eq_getElem]

theorem read_eq_map (s : List UInt8) (off n : Nat) :
    read s off n = (List.range (min (off + n) s.length - off)).map fun k => s.getD (off + k) 0 :=
  take_drop_eq_map_getD s 0 off n

theorem length_write {s : List UInt8} {off : Nat} (buf : List UInt8) (h : off ≤ s.length) :
    (write s off buf).length = max s.length (off + buf.length) := by
  simp only [write, Nat.sub_eq_zero_of_le h, List.replicate_zero, List.append_nil,
    List.length_append, List.length_take, List.length_drop]
  omega

theorem getD_write {s : List UInt8} {off : Nat} (buf : List UInt8) (h : off ≤ s.length) (i : Nat) :
    (write s off buf).getD i 0 =
      if off ≤ i ∧ i < off + buf.length then buf.getD (i - off) 0 else s.getD i 0 := by
  simp only [write, Nat.sub_eq_zero_of_le h, List.replicate_zero, List.append_nil]
  have htake : (s.take off).length = off := List.length_take_of_le h
  by_cases hlo : i < off
  · rw [List.append_assoc, List.getD_append _ _ _ _ (by omega), if_neg (by omega),
      List.getD_eq_getElem?_getD, List.getElem?_take, if_pos hlo, ← List.getD_eq_getElem?_getD]
  · rw [List.append_assoc, List.getD_append_right _ _ _ _ (by omega), htake]
    by_cases hhi : i < off + buf.length
    · rw [List.getD_append _ _ _ _ (by omega), if_pos ⟨by omega, hhi⟩]
    · rw [List.getD_append_right _ _ _ _ (by omega), if_neg (by omega),
        List.getD_eq_getElem?_getD, List.getElem?_drop, ← List.getD_eq_getElem?_getD]
      congr 1
      omega

theorem length_truncate (s : List UInt8) (n : Nat) : (truncate s n).length = n := by
  simp only [truncate, List.length_append, List.length_take, List.length_replicate]
  omega

theorem getD_truncate (s : List UInt8) (n i : Nat) :
    (truncate s n).getD i 0 = if i < n then s.getD i 0 else 0 := by
  unfold truncate
  by_cases hi : i < (s.take n).length
  · rw [List.getD_append _ _ _ _ hi, List.getD_eq_getElem?_getD, List.getElem?_take]
    rw [List.length_take] at hi
    rw [if_pos (by omega), if_pos (by omega), ← List.getD_eq_getElem?_getD]
  · rw [List.length_take] at hi
    rw [List.getD_append_right _ _ _ _ (by simp only [List.length_take]; omega)]
    split_ifs with hn
    · rw [List.getD_replicate _
          (show i - (s.take n).length < n - s.length by simp only [List.length_take]; omega),
        List.getD_eq_default _ _ (by omega)]
    · exact List.getD_eq_default _ _ (by simp only [List.length_take, List.length_replicate]; omega)

theorem length_read {s : List UInt8} {off n : Nat} (h : off + n ≤ s.length) :
    (read s off n).length = n := by
  rw [read, List.length_take, List.length_drop]
  omega

theorem write_read_self {s : List UInt8} {off n : Nat} (h : off + n ≤ s.length) :
    write s off (read s off n) = s := by
  simp only [write, Nat.sub_eq_zero_of_le (by omega : off ≤ s.length), List.replicate_zero,
    List.append_nil, length_read h]
  rw [read, List.append_assoc, ← List.drop_drop, List.take_append_drop, List.take_append_drop]

theorem length_read_eq (s : List UInt8) (off n : Nat) : (read s off n).length = min n (s.length - off) := by
  simp [read]

theorem read_add (s : List UInt8) (off m n : Nat) : read s off (m + n) = read s off m ++ read s (off + m) n := by
  rw [read, List.take_add, read, read, List.drop_drop]

theorem read_length_self (s : List UInt8) (off n : Nat) : read s off (read s off n).length = read s off n := by
  rw [length_read_eq, read, read]
  by_cases hn : n ≤ s.length - off
  · rw [Nat.min_eq_left hn]
  · rw [Nat.min_eq_right (by omega), List.take_of_length_le (by simp),
      List.take_of_length_le (by simp; omega)]

theorem write_of_le {s : List UInt8} {off : Nat} (buf : List UInt8) (h : off ≤ s.length) :
    write s off buf = s.take off ++ buf ++ s.drop (off + buf.length) := by
  simp only [write, Nat.sub_eq_zero_of_le h, List.replicate_zero, List.append_nil]

theorem write_write_append (s : List UInt8) (off : Nat) (a b : List UInt8) :
    write (write s off a) (off + a.length) b = write s off (a ++ b) := by
  set padded := s ++ List.replicate (off - s.length) 0
  have hoff : off ≤ padded.length := by simp [padded]; omega
  have hfront : (padded.take off ++ a).length = off + a.length := by
    rw [List.length_append, List.length_take_of_le hoff]
  have hfirst : write s off a = (padded.take off ++ a) ++ padded.drop (off + a.length) := rfl
  have hlen : off + a.length ≤ (write s off a).length := by
    rw [hfirst, List.length_append, hfront]
    omega
  calc write (write s off a) (off + a.length) b
      = (write s off a).take (off + a.length) ++ b ++
          (write s off a).drop (off + a.length + b.length) := write_of_le b hlen
    _ = (padded.take off ++ a) ++ b ++ padded.drop (off + a.length + b.length) := by
        rw [hfirst, List.take_left' hfront, ← hfront, List.drop_append, List.drop_eq_nil_of_le (by omega),
          List.nil_append, hfront, List.drop_drop]
        congr 3
        omega
    _ = write s off (a ++ b) := by
        simp only [write, List.append_assoc, List.length_append, Nat.add_assoc]
        rfl

end ByteFile

namespace Inode

variable (efs : Efs)

/-- The byte at `i` of a file with clusters `clusList`, as the device holds it. -/
def diskByte (clusList : List Nat) (d : Disk) (i : Nat) : UInt8 :=
  let secId := i / bufferSize
  if secId / efs.secPerClus < clusList.length then
    d (efs.firstSectorOfCluster (clusList.getD (secId / efs.secPerClus) 0) +
      secId % efs.secPerClus) (i % bufferSize)
  else 0

/-- The byte at `i` of the file, as a read sees it. -/
def viewByte (st : FileState) (i : Nat) : UInt8 :=
  match st.fileCacheMgr.slot (i / cacheSz) with
  | some pc => pc.page (i % cacheSz)
  | none => diskByte efs st.content.clusList st.disk i

/-! ## Pages and sectors -/

variable {efs}

theorem neighboringLoop_length_le_fuel (clusList : List Nat) :
    ∀ n secId, (neighboringLoop efs clusList n secId).length ≤ n
  | 0, _ => Nat.le_refl 0
  | n + 1, secId => by
      unfold neighboringLoop
      dsimp only
      split_ifs
      · exact Nat.zero_le _
      · simpa using neighboringLoop_length_le_fuel clusList n (secId + 1)

theorem neighboringLoop_getD {clusList : List Nat} :
    ∀ {n secId u : Nat}, u < n → (secId + u) / efs.secPerClus < clusList.length →
      u < (neighboringLoop efs clusList n secId).length ∧
        (neighboringLoop efs clusList n secId).getD u 0 =
          efs.firstSectorOfCluster (clusList.getD ((secId + u) / efs.secPerClus) 0) +
            (secId + u) % efs.secPerClus
  | 0, _, _, hu, _ => absurd hu (Nat.not_lt_zero _)
  | n + 1, secId, u, hu, hclus => by
      have hfirst : ¬ clusList.length ≤ secId / efs.secPerClus :=
        Nat.not_le.mpr (lt_of_le_of_lt (Nat.div_le_div_right (Nat.le_add_right _ _)) hclus)
      unfold neighboringLoop
      dsimp only
      rw [if_neg hfirst]
      cases u with
      | zero => simp
      | succ u =>
          have hclus' : (secId + 1 + u) / efs.secPerClus < clusList.length := by
            rwa [Nat.add_assoc, Nat.add_comm 1 u]
          obtain ⟨hlen, hget⟩ := @neighboringLoop_getD clusList n (secId + 1) u (by omega) hclus'
          refine ⟨by simpa using hlen, ?_⟩
          rw [List.getD_cons_succ, hget, Nat.add_assoc, Nat.add_comm 1 u]

theorem neighboringLoop_length_le {clusList : List Nat} :
    ∀ {n secId u : Nat}, clusList.length ≤ (secId + u) / efs.secPerClus →
      (neighboringLoop efs clusList n secId).length ≤ u
  | 0, _, _, _ => Nat.zero_le _
  | n + 1, secId, u, hclus => by
      unfold neighboringLoop
      dsimp only
      split_ifs with hfirst
      · exact Nat.zero_le _
      · cases u with
        | zero => exact absurd hclus hfirst
        | succ u =>
            have hclus' : clusList.length ≤ (secId + 1 + u) / efs.secPerClus := by
              rwa [Nat.add_assoc, Nat.add_comm 1 u]
            simpa using neighboringLoop_length_le hclus'

section Sectors

variable (h512 : efs.bytsPerSec = bufferSize)
include h512

theorem getNeighboringSec_length (clusList : List Nat) (c : Nat) :
    (getNeighboringSec efs clusList c).length ≤ pageBuffers := by
  have h8 : cacheSz / bufferSize = pageBuffers := by decide
  unfold getNeighboringSec
  rw [h512, h8]
  exact neighboringLoop_length_le_fuel clusList _ _

theorem blockPage_getNeighboringSec (clusList : List Nat) (d : Disk) {c j : Nat}
    (hj : j < cacheSz) :
    PageCache.blockPage (getNeighboringSec efs clusList c) d j =
      diskByte efs clusList d (c * cacheSz + j) := by
  have hsec : (c * cacheSz + j) / bufferSize = c * (cacheSz / efs.bytsPerSec) + j / bufferSize := by
    rw [h512]
    unfold cacheSz bufferSize at *
    omega
  have hoff : (c * cacheSz + j) % bufferSize = j % bufferSize := by
    unfold cacheSz bufferSize
    omega
  have hu : j / bufferSize < cacheSz / efs.bytsPerSec := by
    rw [h512]
    unfold cacheSz bufferSize at *
    omega
  unfold PageCache.blockPage diskByte getNeighboringSec
  simp only [hsec, hoff]
  by_cases hclus : (c * (cacheSz / efs.bytsPerSec) + j / bufferSize) / efs.secPerClus <
      clusList.length
  · obtain ⟨hlen, hget⟩ := neighboringLoop_getD hu hclus
    rw [if_pos hlen, if_pos hclus, hget]
  · have hlen := neighboringLoop_length_le (n := cacheSz / efs.bytsPerSec)
      (Nat.le_of_not_lt hclus)
    rw [if_neg (Nat.not_lt.mpr hlen), if_neg hclus]

theorem getNeighboringSec_eq (clusList : List Nat) (c : Nat) :
    getNeighboringSec efs clusList c = neighboringLoop efs clusList pageBuffers (c * pageBuffers) := by
  have h8 : cacheSz / efs.bytsPerSec = pageBuffers := by
    rw [h512]
    decide
  unfold getNeighboringSec
  rw [h8]

theorem getNeighboringSec_length_eq (clusList : List Nat) (c : Nat) :
    (getNeighboringSec efs clusList c).length =
      min pageBuffers (clusList.length * efs.secPerClus - c * pageBuffers) := by
  have hspc := efs.secPerClus_pos
  rw [getNeighboringSec_eq h512]
  have hfuel := @neighboringLoop_length_le_fuel efs clusList pageBuffers (c * pageBuffers)
  have hin : ∀ u, u < pageBuffers → c * pageBuffers + u < clusList.length * efs.secPerClus →
      u < (neighboringLoop efs clusList pageBuffers (c * pageBuffers)).length :=
    fun u hu hlt => (neighboringLoop_getD hu ((Nat.div_lt_iff_lt_mul hspc).mpr hlt)).1
  have hout : ∀ u, clusList.length * efs.secPerClus ≤ c * pageBuffers + u →
      (neighboringLoop efs clusList pageBuffers (c * pageBuffers)).length ≤ u :=
    fun u hge => neighboringLoop_length_le ((Nat.le_div_iff_mul_le hspc).mpr hge)
  apply le_antisymm
  · by_cases hfull : c * pageBuffers + pageBuffers ≤ clusList.length * efs.secPerClus
    · omega
    · have := hout (clusList.length * efs.secPerClus - c * pageBuffers) (by omega)
      omega
  · by_cases hnone : min pageBuffers (clusList.length * efs.secPerClus - c * pageBuffers) = 0
    · omega
    · have := hin (min pageBuffers (clusList.length * efs.secPerClus - c * pageBuffers) - 1)
        (by omega) (by omega)
      omega

theorem getNeighboringSec_getD {clusList : List Nat} {c u : Nat}
    (hu : u < (getNeighboringSec efs clusList c).length) :
    (getNeighboringSec efs clusList c).getD u 0 =
      efs.firstSectorOfCluster (clusList.getD ((c * pageBuffers + u) / efs.secPerClus) 0) +
        (c * pageBuffers + u) % efs.secPerClus := by
  have hlen := getNeighboringSec_length_eq h512 clusList c
  have hclus : (c * pageBuffers + u) / efs.secPerClus < clusList.length :=
    (Nat.div_lt_iff_lt_mul efs.secPerClus_pos).mpr (by omega)
  rw [getNeighboringSec_eq h512]
  exact (neighboringLoop_getD (by omega) hclus).2

end Sectors

theorem firstSectorOfCluster_of_fits {c : Nat} (h2 : 2 ≤ c) (hc : c < 2 ^ 32)
    (hfit : efs.dataAreaStartBlock + (c - 1) * efs.secPerClus ≤ 2 ^ 32) :
    efs.firstSectorOfCluster c = efs.dataAreaStartBlock + (c - 2) * efs.secPerClus := by
  have hspc := efs.secPerClus_pos
  have hmul : (c - 2) * efs.secPerClus + efs.secPerClus = (c - 1) * efs.secPerClus := by
    rw [← Nat.succ_mul]
    congr 1
    omega
  unfold Efs.firstSectorOfCluster
  rw [Word.sub_of_le h2 hc, Word.mul, Nat.mod_eq_of_lt (by omega), Word.add_of_lt (by omega)]

theorem sector_inj {spc c₁ c₂ r₁ r₂ : Nat} (hr₁ : r₁ < spc) (hr₂ : r₂ < spc)
    (h : c₁ * spc + r₁ = c₂ * spc + r₂) : c₁ = c₂ ∧ r₁ = r₂ := by
  have hspc : 0 < spc := by omega
  have hdiv := congrArg (· / spc) h
  have hmod := congrArg (· % spc) h
  simp only [Nat.add_comm _ r₁, Nat.add_comm _ r₂, Nat.add_mul_div_right _ _ hspc,
    Nat.div_eq_of_lt hr₁, Nat.div_eq_of_lt hr₂, Nat.zero_add, Nat.add_mul_mod_self_right,
    Nat.mod_eq_of_lt hr₁, Nat.mod_eq_of_lt hr₂] at hdiv hmod
  exact ⟨hdiv, hmod⟩

/-- How `get_neighboring_sec` maps a page of a file to sectors: its length, the
    sector of each entry and that it holds file bytes, and, for a cluster list
    without repeats whose sectors fit in `u32`, that no two entries of the
    file's pages name one sector. -/
structure SectorMap (efs : Efs) (clusList : List Nat) : Prop where
  length : ∀ c, (getNeighboringSec efs clusList c).length =
    min pageBuffers (clusList.length * efs.secPerClus - c * pageBuffers)
  sector : ∀ c u, u < (getNeighboringSec efs clusList c).length →
    (getNeighboringSec efs clusList c).getD u 0 =
      efs.firstSectorOfCluster (clusList.getD ((c * pageBuffers + u) / efs.secPerClus) 0) +
        (c * pageBuffers + u) % efs.secPerClus
  inFile : ∀ c u, u < (getNeighboringSec efs clusList c).length →
    (c * pageBuffers + u + 1) * bufferSize ≤ clusList.length * efs.clusSize
  injective : clusList.Nodup →
    (∀ clus ∈ clusList, 2 ≤ clus ∧ clus < 2 ^ 32 ∧
      efs.dataAreaStartBlock + (clus - 1) * efs.secPerClus ≤ 2 ^ 32) →
    ∀ c₁ u₁ c₂ u₂, u₁ < (getNeighboringSec efs clusList c₁).length →
      u₂ < (getNeighboringSec efs clusList c₂).length →
      (getNeighboringSec efs clusList c₁).getD u₁ 0 = (getNeighboringSec efs clusList c₂).getD u₂ 0 →
      c₁ = c₂ ∧ u₁ = u₂

section SectorMapOfPages

variable (h512 : efs.bytsPerSec = bufferSize)
include h512

theorem getNeighboringSec_injective {clusList : List Nat} (hnodup : clusList.Nodup)
    (hfit : ∀ clus ∈ clusList, 2 ≤ clus ∧ clus < 2 ^ 32 ∧
      efs.dataAreaStartBlock + (clus - 1) * efs.secPerClus ≤ 2 ^ 32)
    {c₁ u₁ c₂ u₂ : Nat} (h₁ : u₁ < (getNeighboringSec efs clusList c₁).length)
    (h₂ : u₂ < (getNeighboringSec efs clusList c₂).length)
    (heq : (getNeighboringSec efs clusList c₁).getD u₁ 0 =
      (getNeighboringSec efs clusList c₂).getD u₂ 0) :
    c₁ = c₂ ∧ u₁ = u₂ := by
  have hspc := efs.secPerClus_pos
  have hlen₁ := getNeighboringSec_length_eq h512 clusList c₁
  have hlen₂ := getNeighboringSec_length_eq h512 clusList c₂
  have hk₁ : (c₁ * pageBuffers + u₁) / efs.secPerClus < clusList.length :=
    (Nat.div_lt_iff_lt_mul hspc).mpr (by omega)
  have hk₂ : (c₂ * pageBuffers + u₂) / efs.secPerClus < clusList.length :=
    (Nat.div_lt_iff_lt_mul hspc).mpr (by omega)
  rw [getNeighboringSec_getD h512 h₁, getNeighboringSec_getD h512 h₂,
    List.getD_eq_getElem _ _ hk₁, List.getD_eq_getElem _ _ hk₂] at heq
  obtain ⟨hlo₁, hhi₁, hfit₁⟩ := hfit _ (List.getElem_mem hk₁)
  obtain ⟨hlo₂, hhi₂, hfit₂⟩ := hfit _ (List.getElem_mem hk₂)
  rw [firstSectorOfCluster_of_fits hlo₁ hhi₁ hfit₁, firstSectorOfCluster_of_fits hlo₂ hhi₂ hfit₂]
    at heq
  have hsame : (clusList[(c₁ * pageBuffers + u₁) / efs.secPerClus] - 2) * efs.secPerClus +
      (c₁ * pageBuffers + u₁) % efs.secPerClus =
      (clusList[(c₂ * pageBuffers + u₂) / efs.secPerClus] - 2) * efs.secPerClus +
      (c₂ * pageBuffers + u₂) % efs.secPerClus := by
    omega
  obtain ⟨hclus, hoff⟩ := sector_inj (Nat.mod_lt _ hspc) (Nat.mod_lt _ hspc) hsame
  have hk : (c₁ * pageBuffers + u₁) / efs.secPerClus = (c₂ * pageBuffers + u₂) / efs.secPerClus :=
    (hnodup.getElem_inj_iff).mp (by omega)
  have hidx : c₁ * pageBuffers + u₁ = c₂ * pageBuffers + u₂ := by
    rw [← Nat.div_add_mod (c₁ * pageBuffers + u₁) efs.secPerClus,
      ← Nat.div_add_mod (c₂ * pageBuffers + u₂) efs.secPerClus, hk, hoff]
  unfold pageBuffers at *
  omega

theorem getNeighboringSec_spec (clusList : List Nat) : SectorMap efs clusList where
  length := getNeighboringSec_length_eq h512 clusList
  sector := fun _ _ hu => getNeighboringSec_getD h512 hu
  inFile := fun c u hu => by
    have hlen := getNeighboringSec_length_eq h512 clusList c
    have hlt : c * pageBuffers + u + 1 ≤ clusList.length * efs.secPerClus := by omega
    calc (c * pageBuffers + u + 1) * bufferSize
        ≤ clusList.length * efs.secPerClus * bufferSize := Nat.mul_le_mul_right _ hlt
      _ = clusList.length * efs.clusSize := by
        rw [Efs.clusSize, h512, Nat.mul_assoc, Nat.mul_comm efs.secPerClus]
  injective := fun hnodup hfit _ _ _ _ h₁ h₂ heq =>
    getNeighboringSec_injective h512 hnodup hfit h₁ h₂ heq

end SectorMapOfPages

theorem getNeighboringSec_spec_two_clusters :
    sdEfs.bytsPerSec = bufferSize ∧ SectorMap sdEfs [5, 3] :=
  ⟨rfl, getNeighboringSec_spec rfl [5, 3]⟩

/-- Two-sector clusters of 512-byte sectors, with data from sector 100. -/
def twoSectorEfs : Efs :=
  ⟨2, 512, 100, by decide, sectorBytes_pos⟩

/-- Clusters `2` and `2 ^ 31 + 2` are distinct `u32` values, but
    `(2 ^ 31 + 2 - 2) * 2` wraps to 0 in `first_sector_of_cluster`: entries 0
    and 2 of page 0 both name sector 100. -/
theorem getNeighboringSec_repeats_sector_of_wrapped_cluster :
    [2, 2 ^ 31 + 2].Nodup ∧ getNeighboringSec twoSectorEfs [2, 2 ^ 31 + 2] 0 = [100, 101, 100, 101] := by
  decide

/-! ## The view through one round -/

/-- `st'` differs from `st` in its page caches at most. -/
structure CachesOnly (st st' : FileState) : Prop where
  content : st'.content = st.content
  fat : st'.fat = st.fat
  disk : st'.disk = st.disk

theorem CachesOnly.refl (st : FileState) : CachesOnly st st :=
  ⟨rfl, rfl, rfl⟩

theorem CachesOnly.trans {st₁ st₂ st₃ : FileState} (h₁ : CachesOnly st₁ st₂)
    (h₂ : CachesOnly st₂ st₃) : CachesOnly st₁ st₃ :=
  ⟨h₂.content.trans h₁.content, h₂.fat.trans h₁.fat, h₂.disk.trans h₁.disk⟩

theorem CachesOnly.withManager (st : FileState) (mgr : PageCacheManager) :
    CachesOnly st { st with fileCacheMgr := mgr } :=
  ⟨rfl, rfl, rfl⟩

theorem viewByte_of_slot_some {st : FileState} {i : Nat} {pc : PageCache}
    (h : st.fileCacheMgr.slot (i / cacheSz) = some pc) : viewByte efs st i = pc.page (i % cacheSz) := by
  simp [viewByte, h]

theorem viewByte_of_slot_eq {st st' : FileState} {i : Nat} (hst : CachesOnly st st')
    (h : st'.fileCacheMgr.slot (i / cacheSz) = st.fileCacheMgr.slot (i / cacheSz)) :
    viewByte efs st' i = viewByte efs st i := by
  simp only [viewByte, h, hst.content, hst.disk]

theorem viewByte_eq_of_slot {st st' : FileState} {i : Nat}
    (hslot : st'.fileCacheMgr.slot (i / cacheSz) = st.fileCacheMgr.slot (i / cacheSz))
    (hdisk : st.fileCacheMgr.slot (i / cacheSz) = none →
      diskByte efs st'.content.clusList st'.disk i = diskByte efs st.content.clusList st.disk i) :
    viewByte efs st' i = viewByte efs st i := by
  unfold viewByte
  rw [hslot]
  cases hnone : st.fileCacheMgr.slot (i / cacheSz) with
  | some pc => rfl
  | none => exact hdisk hnone

theorem div_cacheSz_of_lt {c j : Nat} (hj : j < cacheSz) : (c * cacheSz + j) / cacheSz = c := by
  unfold cacheSz at *
  omega

theorem mod_cacheSz_of_lt {c j : Nat} (hj : j < cacheSz) : (c * cacheSz + j) % cacheSz = j := by
  unfold cacheSz at *
  omega

theorem page_eq_viewByte {st : FileState} {c : Nat} {pc : PageCache}
    (hslot : st.fileCacheMgr.slot c = some pc) {j : Nat} (hj : j < cacheSz) :
    pc.page j = viewByte efs st (c * cacheSz + j) := by
  rw [viewByte_of_slot_some (by rwa [div_cacheSz_of_lt hj]), mod_cacheSz_of_lt hj]

section Rounds

variable (h512 : efs.bytsPerSec = bufferSize)
include h512

theorem getCache_view (st : FileState) (c : Nat) :
    ∃ mgr pc, st.fileCacheMgr.getCache c (getNeighboringSec efs st.content.clusList c) st.disk =
        some (mgr, pc) ∧
      c < mgr.cachePool.length ∧ mgr.slot c = some pc ∧
      (∀ j, j ≠ c → mgr.slot j = st.fileCacheMgr.slot j) ∧
      ∀ i, viewByte efs { st with fileCacheMgr := mgr } i = viewByte efs st i := by
  obtain ⟨mgr, pc, hget, hpage, hlen, hslot, hother⟩ :=
    st.fileCacheMgr.getCache_spec c st.disk (getNeighboringSec_length h512 st.content.clusList c)
  refine ⟨mgr, pc, hget, hlen, hslot, hother, fun i => ?_⟩
  by_cases hi : i / cacheSz = c
  · subst hi
    rw [@viewByte_of_slot_some efs { st with fileCacheMgr := mgr } _ _ hslot, hpage]
    cases hold : st.fileCacheMgr.slot (i / cacheSz) with
    | some pc₀ => rw [viewByte_of_slot_some hold]; rfl
    | none =>
        have hmod : i % cacheSz < cacheSz := Nat.mod_lt _ (by decide)
        simp only [viewByte, hold, Option.getD_none]
        rw [blockPage_getNeighboringSec h512 _ _ hmod, Nat.mul_comm, Nat.div_add_mod]
  · exact viewByte_of_slot_eq (CachesOnly.withManager st mgr) (hother _ hi)

theorem readRound_spec (st : FileState) (r : Round) (hr : r.pageOff + r.len ≤ cacheSz) :
    ∃ st', readRound efs st r =
        some (st', (List.range r.len).map fun k => viewByte efs st (r.cacheId * cacheSz + r.pageOff + k)) ∧
      CachesOnly st st' ∧ ∀ i, viewByte efs st' i = viewByte efs st i := by
  obtain ⟨mgr, pc, hget, -, hslot, -, hview⟩ := getCache_view h512 st r.cacheId
  refine ⟨{ st with fileCacheMgr := mgr }, ?_, CachesOnly.withManager st mgr, hview⟩
  have hbytes : pc.read r.pageOff r.len =
      (List.range r.len).map fun k => viewByte efs st (r.cacheId * cacheSz + r.pageOff + k) := by
    refine List.map_congr_left fun k hk => ?_
    have hk' : r.pageOff + k < cacheSz := by
      have := List.mem_range.mp hk
      omega
    rw [@page_eq_viewByte efs { st with fileCacheMgr := mgr } _ _ hslot _ hk', hview,
      Nat.add_assoc]
  simp only [readRound, hget]
  rw [← hbytes]
  rfl

theorem writeRound_spec (st : FileState) (r : Round) (bytes : List UInt8)
    (hr : r.pageOff + bytes.length ≤ cacheSz) :
    ∃ st', writeRound efs st r bytes = some st' ∧ CachesOnly st st' ∧
      ∀ i, viewByte efs st' i =
        if r.cacheId * cacheSz + r.pageOff ≤ i ∧ i < r.cacheId * cacheSz + r.pageOff + bytes.length
        then bytes.getD (i - (r.cacheId * cacheSz + r.pageOff)) 0
        else viewByte efs st i := by
  obtain ⟨mgr, pc, hget, hlen, hslot, hother, hview⟩ := getCache_view h512 st r.cacheId
  let st' : FileState := { st with fileCacheMgr := mgr.setCache r.cacheId (pc.write r.pageOff bytes) }
  refine ⟨st', by simp only [writeRound, hget]; rfl, CachesOnly.withManager st _, fun i => ?_⟩
  have hslot' : ∀ j, st'.fileCacheMgr.slot j =
      if j = r.cacheId then some (pc.write r.pageOff bytes) else mgr.slot j :=
    fun j => mgr.slot_setCache _ j hlen
  by_cases hi : i / cacheSz = r.cacheId
  · have hsplit : i = r.cacheId * cacheSz + i % cacheSz := by
      rw [← hi, Nat.mul_comm, Nat.div_add_mod]
    have hmod : i % cacheSz < cacheSz := Nat.mod_lt _ (by decide)
    rw [viewByte_of_slot_some (by rw [hslot', if_pos hi])]
    simp only [PageCache.write]
    by_cases hin : r.pageOff ≤ i % cacheSz ∧ i % cacheSz < r.pageOff + bytes.length
    · rw [if_pos hin, if_pos (by omega)]
      congr 1
      omega
    · rw [if_neg hin, if_neg (by omega), ← hview i,
        @viewByte_of_slot_some efs { st with fileCacheMgr := mgr } _ _ (by rw [hi]; exact hslot)]
  · have hout : ¬ (r.cacheId * cacheSz + r.pageOff ≤ i ∧
        i < r.cacheId * cacheSz + r.pageOff + bytes.length) := by
      rintro ⟨hlo, hhi⟩
      apply hi
      have hlo' : r.cacheId * cacheSz ≤ i := le_trans (Nat.le_add_right _ _) hlo
      have hhi' : i < r.cacheId * cacheSz + cacheSz := by omega
      unfold cacheSz at *
      omega
    rw [if_neg hout, ← hview i]
    refine viewByte_of_slot_eq ⟨rfl, rfl, rfl⟩ ?_
    show st'.fileCacheMgr.slot (i / cacheSz) = mgr.slot (i / cacheSz)
    rw [hslot', if_neg hi]

theorem writeRound_range (st : FileState) (r : Round) (b : Nat → UInt8)
    (hr : r.pageOff + r.len ≤ cacheSz) :
    ∃ st', writeRound efs st r
        ((List.range r.len).map fun k => b (r.cacheId * cacheSz + r.pageOff + k)) = some st' ∧
      CachesOnly st st' ∧
      ∀ i, viewByte efs st' i =
        if r.cacheId * cacheSz + r.pageOff ≤ i ∧ i < r.cacheId * cacheSz + r.pageOff + r.len
        then b i else viewByte efs st i := by
  obtain ⟨st', hw, hst, hview⟩ := writeRound_spec h512 st r
    ((List.range r.len).map fun k => b (r.cacheId * cacheSz + r.pageOff + k)) (by simpa using hr)
  refine ⟨st', hw, hst, fun i => ?_⟩
  rw [hview]
  simp only [List.length_map, List.length_range]
  split_ifs with hin
  · rw [List.getD_eq_getElem _ _ (by simp; omega), List.getElem_map, List.getElem_range]
    congr 1
    omega
  · rfl

theorem foldlM_writeRound {start stop done : Nat} {rs : List Round}
    (htiles : Tiles start stop done rs) (bytesOf : Round → List UInt8) (b : Nat → UInt8)
    (hbytes : ∀ r ∈ rs,
      bytesOf r = (List.range r.len).map fun k => b (r.cacheId * cacheSz + r.pageOff + k))
    (st : FileState) :
    ∃ st', rs.foldlM (fun st r => writeRound efs st r (bytesOf r)) st = some st' ∧
      CachesOnly st st' ∧
      ∀ i, viewByte efs st' i = if start ≤ i ∧ i < stop then b i else viewByte efs st i := by
  induction htiles generalizing st with
  | @last start stop done hle hlast =>
      obtain ⟨-, -, hpage, -⟩ :=
        (@Tiles.last start stop done hle hlast).round_bounds _ (List.mem_singleton_self _)
      obtain ⟨st', hw, hst, hview⟩ := writeRound_range h512 st _ b hpage
      refine ⟨st', ?_, hst, fun i => ?_⟩
      · rw [List.foldlM_cons, hbytes _ (List.mem_singleton_self _), hw]
        rfl
      · rw [hview]
        dsimp only
        rw [Nat.div_add_mod', Nat.add_sub_cancel' hle]
  | @next start stop done rs hnext htail ih =>
      obtain ⟨-, -, hpage, -⟩ :=
        (Tiles.next hnext htail).round_bounds _ (List.mem_cons_self ..)
      obtain ⟨st₁, hw, hst₁, hview₁⟩ := writeRound_range h512 st _ b hpage
      obtain ⟨st₂, hfold, hst₂, hview₂⟩ :=
        ih (fun r hr => hbytes r (List.mem_cons_of_mem _ hr)) st₁
      refine ⟨st₂, ?_, hst₁.trans hst₂, fun i => ?_⟩
      · rw [List.foldlM_cons, hbytes _ (List.mem_cons_self ..), hw]
        exact hfold
      · have hstart := lt_nextPage start
        rw [hview₂, hview₁]
        dsimp only
        rw [Nat.div_add_mod', Nat.add_sub_cancel' hstart.le]
        split_ifs <;> first | rfl | omega

theorem foldlM_readRound {start stop done : Nat} {rs : List Round}
    (htiles : Tiles start stop done rs)
    (f : FileState × List UInt8 → Round → Option (FileState × List UInt8))
    (hf : ∀ st out r, f (st, out) r = (readRound efs st r).bind fun p => some (p.1, out ++ p.2))
    (st : FileState) (out : List UInt8) :
    ∃ st', rs.foldlM f (st, out) =
        some (st', out ++ (List.range (stop - start)).map fun k => viewByte efs st (start + k)) ∧
      CachesOnly st st' ∧ ∀ i, viewByte efs st' i = viewByte efs st i := by
  induction htiles generalizing st out with
  | @last start stop done hle hlast =>
      obtain ⟨-, -, hpage, -⟩ :=
        (@Tiles.last start stop done hle hlast).round_bounds _ (List.mem_singleton_self _)
      obtain ⟨st', hr, hst, hview⟩ := readRound_spec h512 st _ hpage
      refine ⟨st', ?_, hst, hview⟩
      rw [List.foldlM_cons, hf, hr]
      dsimp only
      rw [Nat.div_add_mod']
      rfl
  | @next start stop done rs hnext htail ih =>
      obtain ⟨-, -, hpage, -⟩ :=
        (Tiles.next hnext htail).round_bounds _ (List.mem_cons_self ..)
      obtain ⟨st₁, hr, hst₁, hview₁⟩ := readRound_spec h512 st _ hpage
      obtain ⟨st₂, hfold, hst₂, hview₂⟩ := ih st₁
        (out ++ (List.range ((start / cacheSz + 1) * cacheSz - start)).map fun k =>
          viewByte efs st (start + k))
      refine ⟨st₂, ?_, hst₁.trans hst₂, fun i => (hview₂ i).trans (hview₁ i)⟩
      have hstart := lt_nextPage start
      have hlen : stop - start = ((start / cacheSz + 1) * cacheSz - start) +
          (stop - (start / cacheSz + 1) * cacheSz) := by omega
      have hrest : ((List.range (stop - (start / cacheSz + 1) * cacheSz)).map fun k =>
            viewByte efs st₁ ((start / cacheSz + 1) * cacheSz + k)) =
          (List.range (stop - (start / cacheSz + 1) * cacheSz)).map
            ((fun k => viewByte efs st (start + k)) ∘
              fun k => (start / cacheSz + 1) * cacheSz - start + k) := by
        refine List.map_congr_left fun k _ => ?_
        simp only [Function.comp_apply, hview₁]
        congr 1
        omega
      rw [List.foldlM_cons, hf, hr]
      change List.foldlM f (st₁, out ++ _) rs = _
      dsimp only
      rw [Nat.div_add_mod', hfold, hrest, hlen, List.range_add, List.map_append, List.map_map,
        List.append_assoc]

end Rounds

/-! ## Clusters and the size -/

theorem clusSize_pos (efs : Efs) : 0 < efs.clusSize :=
  Nat.mul_pos efs.bytsPerSec_pos efs.secPerClus_pos

theorem totalClus_le_iff (n m : Nat) : totalClus efs n ≤ m ↔ n ≤ m * efs.clusSize := by
  have hpos := clusSize_pos efs
  unfold totalClus
  rw [← Nat.lt_succ_iff, Nat.div_lt_iff_lt_mul hpos, Nat.succ_mul]
  constructor <;> intro h <;> omega

theorem le_totalClus_mul (n : Nat) : n ≤ totalClus efs n * efs.clusSize :=
  (totalClus_le_iff n _).mp le_rfl

theorem totalClus_mono {a b : Nat} (h : a ≤ b) : totalClus efs a ≤ totalClus efs b :=
  (totalClus_le_iff a _).mpr (le_trans h (le_totalClus_mul b))

theorem totalClus_le_self (n : Nat) : totalClus efs n ≤ n :=
  (totalClus_le_iff n n).mpr (Nat.le_mul_of_pos_right n (clusSize_pos efs))

theorem sub_totalClus {a b : Nat} (hba : b ≤ a) (ha : a < 2 ^ 64) :
    Word.sub 64 (totalClus efs a) (totalClus efs b) = totalClus efs a - totalClus efs b :=
  Word.sub_of_le (totalClus_mono hba) (lt_of_le_of_lt (totalClus_le_self a) ha)

theorem ofInt_add_diff {len n : Nat} {diff : Int} (hdiff : diff = (n : Int) - len)
    (hn : n < 2 ^ 32) : Word.ofInt 32 (len + diff) = n := by
  rw [hdiff, add_sub_cancel, Word.ofInt_of_lt (by omega) (by exact_mod_cast hn)]
  rfl

theorem cluster_lt (h512 : efs.bytsPerSec = bufferSize) {i n : Nat}
    (hi : i < n * efs.clusSize) : i / bufferSize / efs.secPerClus < n := by
  rw [Nat.div_div_eq_div_mul, Nat.div_lt_iff_lt_mul (Nat.mul_pos (by decide) efs.secPerClus_pos)]
  rwa [Efs.clusSize, h512] at hi

theorem diskByte_append {clusList : List Nat} (more : List Nat) (d : Disk) {i : Nat}
    (hi : i / bufferSize / efs.secPerClus < clusList.length) :
    diskByte efs (clusList ++ more) d i = diskByte efs clusList d i := by
  unfold diskByte
  dsimp only
  rw [if_pos (by simp only [List.length_append]; omega), if_pos hi, List.getD_append _ _ _ _ hi]

theorem diskByte_take (clusList : List Nat) (d : Disk) {i n : Nat}
    (hi : i / bufferSize / efs.secPerClus < n) :
    diskByte efs (clusList.take n) d i = diskByte efs clusList d i := by
  unfold diskByte
  dsimp only
  simp only [List.length_take, lt_min_iff, hi, true_and, List.getD_eq_getElem?_getD,
    List.getElem?_take, if_true]

theorem allocClus_clusList (st : FileState) (n : Nat) :
    (allocClus st n).content.clusList =
      st.content.clusList ++ (st.fat.alloc n st.content.clusList.getLast?).2 :=
  rfl

theorem viewByte_allocClus (st : FileState) (n : Nat) {i : Nat}
    (hi : i / bufferSize / efs.secPerClus < st.content.clusList.length) :
    viewByte efs (allocClus st n) i = viewByte efs st i := by
  have hmgr : (allocClus st n).fileCacheMgr = st.fileCacheMgr := rfl
  exact viewByte_eq_of_slot (by rw [hmgr]) (fun _ => diskByte_append _ _ hi)

theorem viewByte_withSize (st : FileState) (n i : Nat) :
    viewByte efs { st with content := { st.content with size := n } } i = viewByte efs st i :=
  rfl

/-- The file holds the byte string `s`: `s` is as long as the file, which a
    `u32` holds, the clusters cover it, and a read sees `s` below the size. -/
structure Represents (efs : Efs) (st : FileState) (s : List UInt8) : Prop where
  size_eq : st.content.size = s.length
  size_lt : s.length < 2 ^ 32
  covers : s.length ≤ st.content.clusList.length * efs.clusSize
  bytes : ∀ i, i < s.length → viewByte efs st i = s.getD i 0

/-- The FAT gives all the `n` clusters that `alloc_clus` asks it for. -/
def Supplies (st : FileState) (n : Nat) : Prop :=
  (st.fat.alloc n st.content.clusList.getLast?).2.length = n

theorem supplies_zero (st : FileState) : Supplies st 0 := rfl

/-- `alloc_clus` takes as many clusters as the FAT gives and `modify_size_lock`
    sets the new size whatever it got: when the FAT falls short of a growth, the
    size ends past the bytes the clusters back. -/
theorem modifySizeLock_short_alloc_leaves_size_unbacked {st : FileState} {n : Nat} {diff : Int}
    (hcov : st.content.clusList.length ≤ totalClus efs st.content.size)
    (hlt : st.content.size < n) (hn : n < 2 ^ 32) (hdiff : diff = (n : Int) - st.content.size)
    (hshort : (st.fat.alloc (totalClus efs n - totalClus efs st.content.size)
      st.content.clusList.getLast?).2.length < totalClus efs n - totalClus efs st.content.size) :
    ∃ st', modifySizeLock efs st diff false = some st' ∧ st'.content.size = n ∧
      st'.content.clusList.length * efs.clusSize < n := by
  have hpos : 0 < diff := by omega
  have hmono : totalClus efs st.content.size ≤ totalClus efs n := totalClus_mono hlt.le
  unfold modifySizeLock
  dsimp only
  rw [ofInt_add_diff hdiff hn, sub_totalClus hlt.le (by omega), if_pos hpos, if_pos hpos,
    if_neg Bool.false_ne_true]
  refine ⟨_, rfl, rfl, ?_⟩
  have hfew : (allocClus st (totalClus efs n - totalClus efs st.content.size)).content.clusList.length <
      totalClus efs n := by
    rw [allocClus_clusList, List.length_append]
    omega
  exact Nat.lt_of_not_le fun hle => absurd ((totalClus_le_iff _ _).mpr hle) (Nat.not_le_of_lt hfew)

/-- An empty file on `sdEfs` whose FAT has no free cluster left. -/
def fullVolumeFile : FileState :=
  { emptyFile with fat := ⟨fun _ => eoc, 16, [], 2⟩ }

theorem modifySizeLock_short_alloc_on_full_volume :
    fullVolumeFile.content.clusList.length ≤ totalClus sdEfs fullVolumeFile.content.size ∧
      fullVolumeFile.content.size < 10 ∧ (10 : Nat) < 2 ^ 32 ∧
      (fullVolumeFile.fat.alloc (totalClus sdEfs 10 - totalClus sdEfs fullVolumeFile.content.size)
        fullVolumeFile.content.clusList.getLast?).2.length <
        totalClus sdEfs 10 - totalClus sdEfs fullVolumeFile.content.size ∧
      ∃ st', modifySizeLock sdEfs fullVolumeFile 10 false = some st' ∧ st'.content.size = 10 ∧
        st'.content.clusList.length * sdEfs.clusSize < 10 :=
  ⟨by decide, by decide, by decide, by decide,
    modifySizeLock_short_alloc_leaves_size_unbacked (by decide) (by decide) (by decide)
      (by decide) (by decide)⟩

section Resize

variable (h512 : efs.bytsPerSec = bufferSize)
include h512

theorem modifySizeLock_grow {st : FileState} {s : List UInt8} {n : Nat} {diff : Int}
    (clear : Bool) (hrep : Represents efs st s) (hlt : s.length < n) (hn : n < 2 ^ 32)
    (hdiff : diff = (n : Int) - s.length)
    (hfat : Supplies st (totalClus efs n - totalClus efs s.length)) :
    ∃ st', modifySizeLock efs st diff clear = some st' ∧ st'.content.size = n ∧
      n ≤ st'.content.clusList.length * efs.clusSize ∧
      (∀ i, i < s.length → viewByte efs st' i = s.getD i 0) ∧
      (clear = true → ∀ i, s.length ≤ i → i < n → viewByte efs st' i = 0) := by
  have hpos : 0 < diff := by omega
  have hold : totalClus efs s.length ≤ st.content.clusList.length :=
    (totalClus_le_iff _ _).mpr hrep.covers
  let st₁ : FileState := allocClus st (totalClus efs n - totalClus efs s.length)
  let st₂ : FileState := { st₁ with content := { st₁.content with size := n } }
  have hcovers : n ≤ st₂.content.clusList.length * efs.clusSize := by
    rw [← totalClus_le_iff]
    show totalClus efs n ≤ (allocClus st _).content.clusList.length
    rw [allocClus_clusList, List.length_append, hfat]
    omega
  have hbytes : ∀ i, i < s.length → viewByte efs st₂ i = s.getD i 0 := fun i h => by
    rw [viewByte_withSize, viewByte_allocClus _ _ (cluster_lt h512 (lt_of_lt_of_le h hrep.covers)),
      hrep.bytes i h]
  unfold modifySizeLock
  dsimp only
  rw [hrep.size_eq, ofInt_add_diff hdiff hn, sub_totalClus hlt.le (by omega), if_pos hpos,
    if_pos hpos]
  cases clear with
  | false => exact ⟨st₂, by rw [if_neg Bool.false_ne_true]; rfl, rfl, hcovers, hbytes, by simp⟩
  | true =>
      -- `clear_at` zeroes `[old size, n)` through the caches
      obtain ⟨rs, hrs, htiles⟩ := pageRounds_tiles hlt.le
      obtain ⟨st₃, hfold, hst₃, hview⟩ := foldlM_writeRound h512 htiles
        (fun r => List.replicate r.len 0) (fun _ => 0)
        (fun r _ => by simp [List.map_const']) st₂
      have hsub : Word.sub 32 n s.length = n - s.length := Word.sub_of_le hlt.le hn
      refine ⟨st₃, ?_, by rw [hst₃.content], by rw [hst₃.content]; exact hcovers,
        fun i h => ?_, fun _ i hlo hhi => ?_⟩
      · rw [if_pos rfl]
        simp only [clearAtBlockCacheLock, hsub, Nat.add_sub_cancel' hlt.le, hrs, Option.bind_eq_bind,
          Option.bind_some]
        change Option.bind (Option.bind (List.foldlM (m := Option) _ st₂ rs) _) _ = _
        rw [hfold]
        rfl
      · rw [hview, if_neg (by omega), hbytes i h]
      · rw [hview, if_pos ⟨hlo, hhi⟩]

theorem modifySizeLock_shrink {st : FileState} {s : List UInt8} {n : Nat} {diff : Int}
    (clear : Bool) (hrep : Represents efs st s) (hle : n ≤ s.length)
    (hdiff : diff = (n : Int) - s.length) :
    ∃ st', modifySizeLock efs st diff clear = some st' ∧ Represents efs st' (s.take n) := by
  have hpos : ¬ 0 < diff := by omega
  have hsize := hrep.size_lt
  have hold : totalClus efs s.length ≤ st.content.clusList.length :=
    (totalClus_le_iff _ _).mpr hrep.covers
  let kept := st.content.clusList.length - (totalClus efs s.length - totalClus efs n)
  have hkept : (deallocClus st (totalClus efs s.length - totalClus efs n)).content.clusList =
      st.content.clusList.take kept := by
    simp only [deallocClus, kept]
    congr 2
    omega
  have hkeptLen : totalClus efs n ≤ kept := by
    have : totalClus efs n ≤ totalClus efs s.length := totalClus_mono hle
    omega
  unfold modifySizeLock
  dsimp only
  rw [hrep.size_eq, ofInt_add_diff hdiff (by omega), sub_totalClus hle (by omega), if_neg hpos,
    if_neg hpos]
  have htake : (s.take n).length = n := List.length_take_of_le hle
  refine ⟨_, rfl, ⟨by rw [htake], by omega, ?_, fun i hi => ?_⟩⟩
  · rw [htake, ← totalClus_le_iff]
    show totalClus efs n ≤ (deallocClus st _).content.clusList.length
    rw [hkept, List.length_take]
    omega
  · -- below the new end a page keeps its cache, and a sector its cluster
    rw [htake] at hi
    -- the new size is a `u32`, so the page count of `notify_new_size` does not wrap
    have hn64 : n + cacheSz ≤ 2 ^ 64 :=
      le_trans (Nat.add_le_add_right (le_of_lt (lt_of_le_of_lt hle hrep.size_lt)) cacheSz) (by decide)
    have hpage : i / cacheSz < PageCacheManager.newPages n := by
      rw [PageCacheManager.newPages_of_le hn64]
      unfold cacheSz
      omega
    have hidx : i / bufferSize / efs.secPerClus < kept :=
      lt_of_lt_of_le (cluster_lt h512 (lt_of_lt_of_le hi (le_totalClus_mul n))) hkeptLen
    rw [List.getD_eq_getElem?_getD, List.getElem?_take, if_pos hi, ← List.getD_eq_getElem?_getD,
      ← hrep.bytes i (by omega)]
    have hmgr : (deallocClus st (totalClus efs s.length - totalClus efs n)).fileCacheMgr =
        st.fileCacheMgr := rfl
    refine viewByte_eq_of_slot ?_ (fun _ => ?_)
    · exact (PageCacheManager.slot_notifyNewSize _ n _).trans (by rw [if_pos hpage, hmgr])
    · show diskByte efs (deallocClus st _).content.clusList st.disk i = _
      rw [hkept, diskByte_take _ _ hidx]

end Resize

theorem Represents.of_view {st st' : FileState} {s : List UInt8} (hrep : Represents efs st s)
    (hst : CachesOnly st st') (hview : ∀ i, viewByte efs st' i = viewByte efs st i) :
    Represents efs st' s :=
  ⟨by rw [hst.content, hrep.size_eq], hrep.size_lt, by rw [hst.content]; exact hrep.covers,
    fun i hi => by rw [hview, hrep.bytes i hi]⟩

theorem represents_nil {st : FileState} (h : st.content.size = 0) : Represents efs st [] :=
  ⟨h, by decide, Nat.zero_le _, fun _ hi => absurd hi (Nat.not_lt_zero _)⟩

/-! ## The content operations refine `ByteFile` -/

section Refinement

variable (h512 : efs.bytsPerSec = bufferSize)
include h512

/-- `read_at` returns the bytes of the string and changes only the caches. -/
theorem readAtBlockCacheRlock_caches {st : FileState} {s : List UInt8}
    (hrep : Represents efs st s) (offset len : Nat) (hlen : offset + len < 2 ^ 64) :
    ∃ st', readAtBlockCacheRlock efs st offset len = some (st', ByteFile.read s offset len) ∧
      Represents efs st' s ∧ CachesOnly st st' := by
  have hadd : Word.add 64 offset len = offset + len := Word.add_of_lt hlen
  have hbytes : ∀ stop, stop ≤ s.length →
      ((List.range (stop - offset)).map fun k => viewByte efs st (offset + k)) =
        (List.range (stop - offset)).map fun k => s.getD (offset + k) 0 :=
    fun stop hstop => List.map_congr_left fun k hk =>
      hrep.bytes _ (by have := List.mem_range.mp hk; omega)
  unfold readAtBlockCacheRlock
  dsimp only
  rw [hadd, hrep.size_eq, ByteFile.read_eq_map]
  by_cases hstop : min (offset + len) s.length ≤ offset
  · rw [if_pos hstop, Nat.sub_eq_zero_of_le hstop]
    exact ⟨st, rfl, hrep, CachesOnly.refl st⟩
  · rw [if_neg hstop]
    obtain ⟨rs, hrs, htiles⟩ := pageRounds_tiles (Nat.le_of_not_le hstop)
    obtain ⟨st', hfold, hst, hview⟩ := foldlM_readRound h512 htiles
      (fun p r => (readRound efs p.1 r).bind fun q => some (q.1, p.2 ++ q.2)) (fun _ _ _ => rfl) st []
    refine ⟨st', ?_, hrep.of_view hst hview, hst⟩
    rw [hrs, Option.bind_eq_bind, Option.bind_some, ← hbytes _ (min_le_right _ _)]
    exact hfold

theorem readAtBlockCacheRlock_refines {st : FileState} {s : List UInt8}
    (hrep : Represents efs st s) (offset len : Nat) (hlen : offset + len < 2 ^ 64) :
    ∃ st', readAtBlockCacheRlock efs st offset len = some (st', ByteFile.read s offset len) ∧
      Represents efs st' s := by
  obtain ⟨st', hread, hrep', -⟩ := readAtBlockCacheRlock_caches h512 hrep offset len hlen
  exact ⟨st', hread, hrep'⟩

theorem truncateSize_refines {st : FileState} {s : List UInt8} (hrep : Represents efs st s)
    {n : Nat} (hn : n < 2 ^ 32) (hfat : Supplies st (totalClus efs n - totalClus efs s.length)) :
    ∃ st', truncateSize efs st n = some st' ∧ Represents efs st' (ByteFile.truncate s n) := by
  have hsize := hrep.size_lt
  have hdiff : Word.signed 64 (Word.sub 64 n s.length) = (n : Int) - s.length :=
    Word.signed_sub (by decide) (by omega) (by omega)
  unfold truncateSize
  rw [hrep.size_eq, hdiff]
  by_cases hgrow : s.length < n
  · obtain ⟨st', hmod, hsize', hcovers, hkeep, hzero⟩ :=
      modifySizeLock_grow h512 true hrep hgrow hn rfl hfat
    refine ⟨st', hmod, ⟨by rw [hsize', ByteFile.length_truncate], by
      rw [ByteFile.length_truncate]; exact hn, by rwa [ByteFile.length_truncate], fun i hi => ?_⟩⟩
    rw [ByteFile.length_truncate] at hi
    rw [ByteFile.getD_truncate, if_pos hi]
    by_cases hold : i < s.length
    · exact hkeep i hold
    · rw [hzero rfl i (Nat.le_of_not_lt hold) hi, List.getD_eq_default _ _ (Nat.le_of_not_lt hold)]
  · have hle : n ≤ s.length := Nat.le_of_not_lt hgrow
    obtain ⟨st', hmod, hrep'⟩ := modifySizeLock_shrink h512 true hrep hle rfl
    have htrunc : ByteFile.truncate s n = s.take n := by
      simp only [ByteFile.truncate, Nat.sub_eq_zero_of_le hle, List.replicate_zero, List.append_nil]
    exact ⟨st', hmod, htrunc ▸ hrep'⟩

/-- The growth step of `write_at_block_cache_lock`: a write that ends past the
    file first grows it to the end of the write, and the bytes already there
    stay. -/
theorem growForWrite {st : FileState} {s : List UInt8} (hrep : Represents efs st s) {offset : Nat}
    (buf : List UInt8) (hend : offset + buf.length < 2 ^ 32)
    (hfat : Supplies st (totalClus efs (offset + buf.length) - totalClus efs s.length)) :
    ∃ st₂,
      (∀ rest : FileState → Option (FileState × Nat),
        (if 0 < ((offset + buf.length : Nat) : Int) - s.length then
          modifySizeLock efs st (((offset + buf.length : Nat) : Int) - s.length) false >>= rest
        else pure st >>= rest) = rest st₂) ∧
      st₂.content.size = max s.length (offset + buf.length) ∧
      max s.length (offset + buf.length) ≤ st₂.content.clusList.length * efs.clusSize ∧
      (∀ i, i < s.length → viewByte efs st₂ i = s.getD i 0) ∧
      (offset + buf.length ≤ s.length → st₂ = st) := by
  by_cases hgrow : s.length < offset + buf.length
  · obtain ⟨st₂, hmod, hsize₂, hcovers₂, hkeep₂, -⟩ :=
      modifySizeLock_grow h512 false hrep hgrow hend rfl hfat
    refine ⟨st₂, fun rest => by rw [if_pos (by omega), hmod]; rfl, ?_, ?_, hkeep₂, fun h => absurd h (by omega)⟩ <;>
      rw [max_eq_right hgrow.le] <;> assumption
  · refine ⟨st, fun rest => by rw [if_neg (by omega)]; rfl, ?_, ?_, hrep.bytes, fun _ => rfl⟩ <;>
      rw [max_eq_left (Nat.le_of_not_lt hgrow)]
    · exact hrep.size_eq
    · exact hrep.covers

/-- `write_at` at or below the end of the file returns the length of the
    buffer and makes the file hold the string with the buffer written at
    `offset`, when the FAT gives the clusters a growth needs. -/
theorem writeAtBlockCacheLock_caches {st : FileState} {s : List UInt8}
    (hrep : Represents efs st s) {offset : Nat} (buf : List UInt8) (hoff : offset ≤ s.length)
    (hend : offset + buf.length < 2 ^ 32)
    (hfat : Supplies st (totalClus efs (offset + buf.length) - totalClus efs s.length)) :
    ∃ st', writeAtBlockCacheLock efs st offset buf = some (st', buf.length) ∧
      Represents efs st' (ByteFile.write s offset buf) ∧
      (offset + buf.length ≤ s.length → CachesOnly st st') := by
  have hsize := hrep.size_lt
  have hdiff : Word.signed 64 (Word.sub 64 (Word.add 64 buf.length offset) s.length) =
      ((offset + buf.length : Nat) : Int) - s.length := by
    rw [Word.add_of_lt (by omega), Nat.add_comm]
    exact Word.signed_sub (by decide) (by omega) (by omega)
  obtain ⟨st₂, hres, hsize₂, hcovers₂, hkeep₂, hsame⟩ := growForWrite h512 hrep buf hend hfat
  have hstop : min (Word.add 64 offset buf.length) st₂.content.size = offset + buf.length := by
    rw [Word.add_of_lt (by omega), hsize₂]
    omega
  obtain ⟨rs, hrs, htiles⟩ := pageRounds_tiles (Nat.le_add_right offset buf.length)
  have hround : ∀ r ∈ rs, (buf.drop r.bufOff).take r.len =
      (List.range r.len).map fun k => buf.getD (r.cacheId * cacheSz + r.pageOff + k - offset) 0 := by
    intro r hr
    obtain ⟨hlo, hhi, -, hbuf⟩ := htiles.round_bounds r hr
    have hlen : min (r.bufOff + r.len) buf.length - r.bufOff = r.len := by omega
    rw [ByteFile.take_drop_eq_map_getD buf 0, hlen]
    refine List.map_congr_left fun k _ => ?_
    congr 1
    omega
  obtain ⟨st₃, hfold, hst₃, hview₃⟩ := foldlM_writeRound h512 htiles
    (fun r => (buf.drop r.bufOff).take r.len) (fun i => buf.getD (i - offset) 0) hround st₂
  refine ⟨st₃, ?_, ⟨?_, ?_, ?_, fun i hi => ?_⟩, fun hin => hsame hin ▸ hst₃⟩
  · unfold writeAtBlockCacheLock
    dsimp only
    rw [hrep.size_eq, hdiff, hres, hstop, hrs, Option.bind_eq_bind, Option.bind_some, Option.bind_eq_bind, hfold,
      Option.bind_some, htiles.sum_len, Nat.add_sub_cancel_left]
    rfl
  · rw [hst₃.content, hsize₂, ByteFile.length_write buf hoff]
  · rw [ByteFile.length_write buf hoff]
    omega
  · rw [hst₃.content, ByteFile.length_write buf hoff]
    exact hcovers₂
  · rw [ByteFile.length_write buf hoff] at hi
    rw [hview₃, ByteFile.getD_write buf hoff]
    split_ifs with hin
    · rfl
    · exact hkeep₂ i (by omega)

theorem writeAtBlockCacheLock_refines {st : FileState} {s : List UInt8}
    (hrep : Represents efs st s) {offset : Nat} (buf : List UInt8) (hoff : offset ≤ s.length)
    (hend : offset + buf.length < 2 ^ 32)
    (hfat : Supplies st (totalClus efs (offset + buf.length) - totalClus efs s.length)) :
    ∃ st', writeAtBlockCacheLock efs st offset buf = some (st', buf.length) ∧
      Represents efs st' (ByteFile.write s offset buf) := by
  obtain ⟨st', hwrite, hrep', -⟩ := writeAtBlockCacheLock_caches h512 hrep buf hoff hend hfat
  exact ⟨st', hwrite, hrep'⟩

end Refinement

end Inode

end OsKernel.Fat32

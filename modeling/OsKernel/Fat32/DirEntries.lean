import OsKernel.Fat32.Metadata
import OsKernel.Fat32.Dir

/-! # A directory as a list of entries

A directory file of `32 n` bytes is a list of `n` entries.  Reading it through
`DirIter` changes only its caches, so each pass that only reads — `step`,
`next`, the loop of `DirWalker::next` and a walk to the end — is a function of
the bytes the file holds; the functions `…On` below are those passes over the
bytes, and every pass over a file that holds `s` returns what the pass over `s`
returns.  Over the entries `es`, an iterator is a position in `es`.
-/

namespace OsKernel.Fat32

open Inode Fs

/-- The entry at `offset` of a file holding `s`: what `read_at` of 32 bytes
    into a fresh `FATDirEnt` leaves in it. -/
def entAt (s : List UInt8) (offset : Nat) : FATDirEnt :=
  FATDirEnt.ofRead (ByteFile.read s offset stepSize)

/-- The bytes of a directory whose entries are `es`. -/
def entBytes (es : List FATDirEnt) : List UInt8 :=
  es.flatMap FATDirEnt.bytes

theorem entBytes_append (es es' : List FATDirEnt) : entBytes (es ++ es') = entBytes es ++ entBytes es' :=
  List.flatMap_append

theorem entBytes_cons (e : FATDirEnt) (es : List FATDirEnt) : entBytes (e :: es) = e.bytes ++ entBytes es :=
  List.flatMap_cons

theorem length_entBytes (es : List FATDirEnt) : (entBytes es).length = stepSize * es.length := by
  induction es with
  | nil => rfl
  | cons e es ih =>
      rw [entBytes_cons, List.length_append, ih, e.length_eq, List.length_cons]
      ring

theorem FATDirEnt.ofRead_self (e : FATDirEnt) : FATDirEnt.ofRead e.bytes = e := by
  obtain ⟨bytes, h⟩ := e
  show FATDirEnt.mk _ _ = FATDirEnt.mk bytes h
  congr 1
  exact FATDirEnt.ofRead_bytes h

theorem entBytes_split {es : List FATDirEnt} {i : Nat} (hi : i < es.length) :
    entBytes es = entBytes (es.take i) ++ es[i].bytes ++ entBytes (es.drop (i + 1)) := by
  conv_lhs => rw [← List.take_append_drop i es, List.drop_eq_getElem_cons hi]
  rw [entBytes_append, entBytes_cons, List.append_assoc]

theorem read_entBytes {es : List FATDirEnt} {i : Nat} (hi : i < es.length) :
    ByteFile.read (entBytes es) (stepSize * i) stepSize = es[i].bytes := by
  have hpre : (entBytes (es.take i)).length = stepSize * i := by
    rw [length_entBytes, List.length_take_of_le hi.le]
  rw [entBytes_split hi, ByteFile.read, List.append_assoc, List.drop_left' hpre,
    List.take_left' es[i].length_eq]

theorem entAt_entBytes {es : List FATDirEnt} {i : Nat} (hi : i < es.length) :
    entAt (entBytes es) (stepSize * i) = es[i] := by
  rw [entAt, read_entBytes hi, FATDirEnt.ofRead_self]

theorem write_entBytes {es : List FATDirEnt} {i : Nat} (hi : i < es.length) (e : FATDirEnt) :
    ByteFile.write (entBytes es) (stepSize * i) e.bytes = entBytes (es.set i e) := by
  have hpre : (entBytes (es.take i)).length = stepSize * i := by
    rw [length_entBytes, List.length_take_of_le hi.le]
  have hmid : (entBytes (es.take i) ++ es[i].bytes).length = stepSize * i + e.bytes.length := by
    rw [List.length_append, hpre, es[i].length_eq, e.length_eq]
  have hset : es.set i e = es.take i ++ e :: es.drop (i + 1) := by
    rw [List.set_eq_take_append_cons_drop, if_pos hi]
  have hlen : stepSize * i ≤ (entBytes es).length := by
    rw [entBytes_split hi, List.append_assoc, List.length_append, hpre]
    exact Nat.le_add_right _ _
  have htake : (entBytes (es.take i) ++ es[i].bytes ++ entBytes (es.drop (i + 1))).take (stepSize * i) =
      entBytes (es.take i) := by
    rw [List.append_assoc, List.take_left' hpre]
  have hdrop : (entBytes (es.take i) ++ es[i].bytes ++ entBytes (es.drop (i + 1))).drop
      (stepSize * i + e.bytes.length) = entBytes (es.drop (i + 1)) :=
    List.drop_left' hmid
  rw [ByteFile.write_of_le _ hlen, hset, entBytes_append, entBytes_cons, entBytes_split hi, htake, hdrop,
    List.append_assoc]

theorem entBytes_take : ∀ (es : List FATDirEnt) (m : Nat), entBytes (es.take m) = (entBytes es).take (stepSize * m)
  | [], _ => by simp [entBytes]
  | _ :: _, 0 => rfl
  | e :: es, m + 1 => by
      have he : e.bytes.take (stepSize + stepSize * m) = e.bytes :=
        List.take_of_length_le (by rw [e.length_eq]; exact Nat.le_add_right _ _)
      rw [List.take_succ_cons, entBytes_cons, entBytes_cons, entBytes_take es m, Nat.mul_succ, Nat.add_comm,
        List.take_append, e.length_eq, Nat.add_sub_cancel_left, he]

/-- Bytes that are whole entries are the bytes of their entries. -/
theorem exists_entBytes : ∀ (n : Nat) (s : List UInt8), s.length = stepSize * n → ∃ es, entBytes es = s
  | 0, s, h => by
      have hs : s = [] := List.length_eq_zero_iff.mp (by rw [h, Nat.mul_zero])
      exact ⟨[], by rw [hs]; rfl⟩
  | n + 1, s, h => by
      obtain ⟨es, hes⟩ := exists_entBytes n (s.drop stepSize) (by rw [List.length_drop, h]; ring_nf; omega)
      have htake : (s.take stepSize).length = stepSize := List.length_take_of_le (by rw [h]; ring_nf; omega)
      refine ⟨FATDirEnt.ofRead (s.take stepSize) :: es, ?_⟩
      rw [entBytes_cons, FATDirEnt.ofRead_bytes htake, hes, List.take_append_drop]

theorem Inode.Represents.withHint {efs : Efs} {st : FileState} {s : List UInt8} (hrep : Represents efs st s)
    (hint : Nat) : Represents efs { st with content := { st.content with hint } } s :=
  ⟨hrep.size_eq, hrep.size_lt, hrep.covers, hrep.bytes⟩

/-! ## Growing and shrinking by clusters

`expand_dir_size` adds a cluster that it does not clear, so the entries it adds
are whatever the cluster held; `shrink_dir_size` keeps the entries of the
clusters below `hint`. -/

theorem totalClus_mul (efs : Efs) (m : Nat) : totalClus efs (m * efs.clusSize) = m := by
  have hpos := clusSize_pos efs
  unfold totalClus
  rw [show m * efs.clusSize + efs.clusSize - 1 = efs.clusSize * m + (efs.clusSize - 1) by
      rw [Nat.mul_comm]; omega,
    Nat.mul_add_div hpos, Nat.div_eq_of_lt (by omega), Nat.add_zero]

theorem clusSize_eq {efs : Efs} (h512 : efs.bytsPerSec = bufferSize) :
    efs.clusSize = stepSize * (16 * efs.secPerClus) := by
  rw [Efs.clusSize, h512, bufferSize, stepSize, ← Nat.mul_assoc]

theorem hint_modifySizeLock {efs : Efs} {st st' : FileState} {diff : Int}
    (h : modifySizeLock efs st diff false = some st') : st'.content.hint = st.content.hint := by
  unfold modifySizeLock at h
  by_cases hpos : 0 < diff
  · simp only [hpos, if_true, Bool.false_eq_true, if_false] at h
    cases h
    rfl
  · simp only [hpos, if_false] at h
    cases h
    rfl

theorem modifySizeLock_of_lt {efs : Efs} {st : FileState} {n : Nat} {diff : Int}
    (hlt : st.content.size < n) (hn : n < 2 ^ 32) (hdiff : diff = (n : Int) - st.content.size) :
    modifySizeLock efs st diff false =
      some { allocClus st (totalClus efs n - totalClus efs st.content.size) with
        content := { (allocClus st (totalClus efs n - totalClus efs st.content.size)).content with size := n } } := by
  have hpos : 0 < diff := by omega
  unfold modifySizeLock
  dsimp only
  rw [ofInt_add_diff hdiff hn, sub_totalClus hlt.le (by omega), if_pos hpos, if_pos hpos,
    if_neg Bool.false_ne_true]
  rfl

section Resize

variable {efs : Efs} (h512 : efs.bytsPerSec = bufferSize)
include h512

/-- `expand_dir_size` of a directory of whole clusters: one cluster of entries
    more, holding what the cluster held. -/
theorem expandDirSize_entBytes {st : FileState} {es : List FATDirEnt} (hrep : Represents efs st (entBytes es))
    (hmul : efs.clusSize ∣ st.content.size) (hn : st.content.size + efs.clusSize < 2 ^ 32)
    (hfat : Supplies st 1) :
    ∃ junk : List FATDirEnt, junk.length = 16 * efs.secPerClus ∧
      ∃ st', expandDirSize efs st = some st' ∧ Represents efs st' (entBytes (es ++ junk)) ∧
        st'.content.hint = st.content.hint ∧ st'.content.size = st.content.size + efs.clusSize ∧
        st'.fat = (allocClus st 1).fat ∧ st'.content.clusList = (allocClus st 1).content.clusList := by
  obtain ⟨m, hm⟩ := hmul
  have hlen : (entBytes es).length = st.content.size := hrep.size_eq.symm
  have hclus := clusSize_pos efs
  have hone : totalClus efs (st.content.size + efs.clusSize) - totalClus efs st.content.size = 1 := by
    rw [hm, Nat.mul_comm, ← Nat.succ_mul, totalClus_mul, totalClus_mul]
    omega
  have hdiff : (efs.clusSize : Int) = ((st.content.size + efs.clusSize : Nat) : Int) - st.content.size := by
    push_cast
    ring
  have hdiff' : (efs.clusSize : Int) = ((st.content.size + efs.clusSize : Nat) : Int) - (entBytes es).length := by
    rw [hlen]
    exact hdiff
  obtain ⟨st', hmod, hsize', hcovers', hkeep, -⟩ := modifySizeLock_grow h512 false hrep (by omega) hn
    hdiff' (by rw [hlen, hone]; exact hfat)
  have hst' := Option.some.inj (hmod.symm.trans (modifySizeLock_of_lt (by omega) hn hdiff))
  rw [hone] at hst'
  let s' := (List.range (st.content.size + efs.clusSize)).map (viewByte efs st')
  have hrep' : Represents efs st' s' := by
    refine ⟨by simp [s', hsize'], by simpa [s'] using hn, by simpa [s'] using hcovers', fun i hi => ?_⟩
    simp only [s', List.length_map, List.length_range] at hi
    simp [s', List.getD_eq_getElem?_getD, hi]
  have htake : s'.take st.content.size = entBytes es := by
    refine List.ext_getElem (by simp [s', hlen]) fun i h₁ h₂ => ?_
    rw [List.getElem_take, List.getElem_map, List.getElem_range, hkeep i h₂, List.getD_eq_getElem _ _ h₂]
  have hdrop : (s'.drop st.content.size).length = stepSize * (16 * efs.secPerClus) := by
    simp [s', ← clusSize_eq h512]
  obtain ⟨junk, hjunk⟩ := exists_entBytes _ _ hdrop
  have hjunkLen : junk.length = 16 * efs.secPerClus := by
    have h := congrArg List.length hjunk
    rw [length_entBytes, hdrop] at h
    exact Nat.eq_of_mul_eq_mul_left (by decide) h
  refine ⟨junk, hjunkLen, st', hmod, ?_, by rw [hst']; rfl, hsize', by rw [hst'], by rw [hst']⟩
  rw [entBytes_append, hjunk, ← htake, List.take_append_drop]
  exact hrep'

/-- `shrink_dir_size` of a directory of whole clusters: the entries of the
    clusters `hint` reaches into, and one cluster at least. -/
theorem shrinkDirSize_entBytes {st : FileState} {es : List FATDirEnt} (hrep : Represents efs st (entBytes es))
    (hmul : efs.clusSize ∣ st.content.size) (hpos : 0 < st.content.size) (hhint : st.content.hint ≤ st.content.size) :
    ∃ st', shrinkDirSize efs st = some st' ∧
      Represents efs st' (entBytes (es.take (16 * efs.secPerClus * max (totalClus efs st.content.hint) 1))) ∧
      st'.content.hint = st.content.hint ∧ 16 * efs.secPerClus * max (totalClus efs st.content.hint) 1 ≤ es.length := by
  obtain ⟨m, hm⟩ := hmul
  have hclus := clusSize_pos efs
  have hlen : (entBytes es).length = st.content.size := hrep.size_eq.symm
  have hhintClus : totalClus efs st.content.hint ≤ m := by
    rw [totalClus_le_iff, Nat.mul_comm, ← hm]
    exact hhint
  have hm1 : 1 ≤ m := by
    rcases m with _ | m
    · omega
    · omega
  have hmul32 : Word.mul 32 (totalClus efs st.content.hint) efs.clusSize =
      totalClus efs st.content.hint * efs.clusSize := by
    have hle : totalClus efs st.content.hint * efs.clusSize ≤ st.content.size := by
      rw [hm, Nat.mul_comm]
      exact Nat.mul_le_mul_left _ hhintClus
    exact Nat.mod_eq_of_lt (lt_of_le_of_lt hle (by rw [← hlen]; exact hrep.size_lt))
  have hnew : max (Word.mul 32 (totalClus efs st.content.hint) efs.clusSize) efs.clusSize =
      stepSize * (16 * efs.secPerClus * max (totalClus efs st.content.hint) 1) := by
    rw [hmul32, ← Nat.mul_assoc, ← clusSize_eq h512]
    rcases Nat.eq_zero_or_pos (totalClus efs st.content.hint) with h0 | h0
    · rw [h0]
      simp
    · rw [max_eq_left (Nat.le_mul_of_pos_left _ h0), max_eq_left h0, Nat.mul_comm]
  have hle : stepSize * (16 * efs.secPerClus * max (totalClus efs st.content.hint) 1) ≤ (entBytes es).length := by
    rw [← Nat.mul_assoc, ← clusSize_eq h512, hlen, hm]
    exact Nat.mul_le_mul_left _ (max_le hhintClus hm1)
  obtain ⟨st', hmod, hrep'⟩ := modifySizeLock_shrink h512 false hrep hle rfl
  refine ⟨st', ?_, by rw [entBytes_take]; exact hrep', hint_modifySizeLock hmod,
    Nat.le_of_mul_le_mul_left (by rwa [length_entBytes] at hle) (by decide : 0 < stepSize)⟩
  rw [shrinkDirSize, hnew, ← hlen]
  exact hmod

end Resize

/-! ## Passes that only read -/

namespace DirIter

/-- `step` over the bytes `s`. -/
def stepOn (s : List UInt8) (it : DirIter) : DirIter × Option FATDirEnt :=
  if it.direction then
    let offset := (it.offset.map fun offset => Word.add 32 offset stepSize).getD 0
    if s.length ≤ offset then (it, none)
    else
      let dirEnt := entAt s offset
      if it.mode ≠ .enum ∧ dirEnt.lastAndUnused then (it, none)
      else ({ it with offset := some offset }, some dirEnt)
  else
    match it.offset with
    | none => (it, none)
    | some 0 => ({ it with offset := none }, none)
    | some offset =>
        let offset := Word.sub 32 offset stepSize
        ({ it with offset := some offset }, some (entAt s offset))

/-- The loop of `next` over the bytes `s`. -/
def nextLoopOn (s : List UInt8) : Nat → DirIter → Option (DirIter × Option FATDirEnt)
  | 0, _ => none
  | fuel + 1, it =>
      match it.stepOn s with
      | (it, none) => some (it, none)
      | (it, some dirEnt) =>
          if checkDirEntLegality it.mode dirEnt then some (it, some dirEnt)
          else nextLoopOn s fuel it

/-- `next` over the bytes `s`. -/
def nextOn (s : List UInt8) (it : DirIter) : Option (DirIter × Option FATDirEnt) :=
  nextLoopOn s ((s.length + it.offset.getD 0) / stepSize + 2) it

end DirIter

/-- The loop of `DirWalker::next` over the bytes `s`. -/
def walkLoopOn (s : List UInt8) :
    Nat → List Char → Nat → DirIter → Option (DirIter × Option (List Char × FATDirEnt))
  | 0, _, _, _ => none
  | fuel + 1, name, shouldBeOrd, it => do
      let (it, dirEnt) ← it.nextOn s
      match dirEnt with
      | none => pure (it, none)
      | some dirEnt =>
          if dirEnt.isLong then
            if dirEnt.isLastLongDirEnt then
              walkLoopOn s fuel (dirEnt.getName ++ name) (Word.sub 64 dirEnt.ord 1) it
            else if dirEnt.ord = shouldBeOrd then
              walkLoopOn s fuel (dirEnt.getName ++ name) (Word.sub 64 shouldBeOrd 1) it
            else none
          else if dirEnt.isShort then
            pure (it, some (if name.isEmpty then dirEnt.getName else name, dirEnt))
          else walkLoopOn s fuel name shouldBeOrd it

/-- `DirWalker::next` over the bytes `s`. -/
def walkerNextOn (s : List UInt8) (it : DirIter) : Option (DirIter × Option (List Char × FATDirEnt)) :=
  walkLoopOn s ((s.length + it.offset.getD 0) / stepSize + 2) [] usizeMax it

/-- A walk to the end over the bytes `s`. -/
def walkAllLoopOn (s : List UInt8) : Nat → DirIter → Option (List (List Char × FATDirEnt))
  | 0, _ => none
  | fuel + 1, it => do
      let (it, pair) ← walkerNextOn s it
      match pair with
      | none => pure []
      | some pair => (pair :: ·) <$> walkAllLoopOn s fuel it

/-- The names of a directory holding `s`, as `DirWalker` over
    `DirIter(None, Used, FORWARD)` yields them. -/
def walkAllOn (s : List UInt8) : Option (List (List Char × FATDirEnt)) :=
  walkAllLoopOn s (s.length / stepSize + 1) ⟨none, .used, forward⟩

section Refinement

variable {efs : Efs} (h512 : efs.bytsPerSec = bufferSize)
include h512

theorem readEnt_refines {st : FileState} {s : List UInt8} (hrep : Represents efs st s) {offset : Nat}
    (hoff : offset < 2 ^ 32) :
    ∃ st', DirIter.readEnt efs st offset = some (st', entAt s offset) ∧ Represents efs st' s ∧
      CachesOnly st st' := by
  obtain ⟨st', hread, hrep', hst⟩ := readAtBlockCacheRlock_caches h512 hrep offset stepSize
    (by unfold stepSize; omega)
  exact ⟨st', by simp [DirIter.readEnt, hread, entAt], hrep', hst⟩

theorem step_refines {st : FileState} {s : List UInt8} (hrep : Represents efs st s) (it : DirIter) :
    ∃ st', it.step efs st = some (st', it.stepOn s) ∧ Represents efs st' s ∧ CachesOnly st st' := by
  unfold DirIter.step DirIter.stepOn
  cases hdir : it.direction with
  | true =>
      have hlt : (it.offset.map fun offset => Word.add 32 offset stepSize).getD 0 < 2 ^ 32 := by
        cases it.offset with
        | none => exact Nat.two_pow_pos 32
        | some offset => exact Nat.mod_lt _ (Nat.two_pow_pos 32)
      simp only [if_true, hrep.size_eq]
      by_cases hend : s.length ≤ (it.offset.map fun offset => Word.add 32 offset stepSize).getD 0
      · simp only [if_pos hend]
        exact ⟨st, rfl, hrep, CachesOnly.refl st⟩
      · obtain ⟨st', hread, hrep', hst⟩ := readEnt_refines h512 hrep hlt
        refine ⟨st', ?_, hrep', hst⟩
        simp only [if_neg hend, hread, Option.bind_eq_bind, Option.bind_some]
        split_ifs <;> rfl
  | false =>
      simp only [Bool.false_eq_true, if_false]
      rcases it.offset with _ | _ | offset
      · exact ⟨st, rfl, hrep, CachesOnly.refl st⟩
      · exact ⟨st, rfl, hrep, CachesOnly.refl st⟩
      · have hlt : Word.sub 32 (offset + 1) stepSize < 2 ^ 32 := Nat.mod_lt _ (Nat.two_pow_pos 32)
        obtain ⟨st', hread, hrep', hst⟩ := readEnt_refines h512 hrep hlt
        refine ⟨st', ?_, hrep', hst⟩
        simp only [hread, Option.bind_eq_bind, Option.bind_some]
        rfl

theorem nextLoop_refines {s : List UInt8} :
    ∀ (fuel : Nat) (it : DirIter) {st : FileState}, Represents efs st s →
      ∃ st', Represents efs st' s ∧ CachesOnly st st' ∧
        DirIter.nextLoop efs fuel it st = (it.nextLoopOn s fuel).map fun r => (st', r)
  | 0, _, st, hrep => ⟨st, hrep, CachesOnly.refl st, rfl⟩
  | fuel + 1, it, st, hrep => by
      obtain ⟨st₁, hstep, hrep₁, hst₁⟩ := step_refines h512 hrep it
      rw [DirIter.nextLoop, DirIter.nextLoopOn, hstep, Option.bind_eq_bind, Option.bind_some]
      rcases it.stepOn s with ⟨it', _ | e⟩
      · exact ⟨st₁, hrep₁, hst₁, rfl⟩
      · by_cases hlegal : checkDirEntLegality it'.mode e = true
        · simp only [hlegal, if_true]
          exact ⟨st₁, hrep₁, hst₁, rfl⟩
        · simp only [hlegal, Bool.false_eq_true, if_false]
          obtain ⟨st₂, hrep₂, hst₂, hloop⟩ := nextLoop_refines fuel it' hrep₁
          exact ⟨st₂, hrep₂, hst₁.trans hst₂, hloop⟩

theorem next_refines {st : FileState} {s : List UInt8} (hrep : Represents efs st s) (it : DirIter) :
    ∃ st', Represents efs st' s ∧ CachesOnly st st' ∧ it.next efs st = (it.nextOn s).map fun r => (st', r) := by
  have hfuel : it.fuel st = (s.length + it.offset.getD 0) / stepSize + 2 := by
    rw [DirIter.fuel, hrep.size_eq]
  rw [DirIter.next, DirIter.nextOn, hfuel]
  exact nextLoop_refines h512 _ it hrep

theorem walkLoop_refines {s : List UInt8} :
    ∀ (fuel : Nat) (name : List Char) (shouldBeOrd : Nat) (it : DirIter) {st : FileState}, Represents efs st s →
      ∃ st', Represents efs st' s ∧
        walkLoop efs fuel name shouldBeOrd it st = (walkLoopOn s fuel name shouldBeOrd it).map fun r => (st', r)
  | 0, _, _, _, st, hrep => ⟨st, hrep, rfl⟩
  | fuel + 1, name, shouldBeOrd, it, st, hrep => by
      obtain ⟨st₁, hrep₁, -, hnext⟩ := next_refines h512 hrep it
      rw [walkLoop, walkLoopOn, hnext]
      rcases it.nextOn s with _ | ⟨it', _ | e⟩
      · exact ⟨st, hrep, rfl⟩
      · exact ⟨st₁, hrep₁, rfl⟩
      · simp only [Option.map_some, Option.bind_eq_bind, Option.bind_some]
        by_cases hlong : e.isLong = true
        · by_cases hlast : e.isLastLongDirEnt = true
          · simp only [hlong, hlast, if_true]
            exact walkLoop_refines fuel _ _ it' hrep₁
          · by_cases hord : e.ord = shouldBeOrd
            · simp only [hlong, hlast, hord, if_true, Bool.false_eq_true, if_false]
              exact walkLoop_refines fuel _ _ it' hrep₁
            · simp only [hlong, hlast, hord, if_true, Bool.false_eq_true, if_false]
              exact ⟨st₁, hrep₁, rfl⟩
        · by_cases hshort : e.isShort = true
          · simp only [hlong, hshort, Bool.false_eq_true, if_false, if_true]
            exact ⟨st₁, hrep₁, rfl⟩
          · simp only [hlong, hshort, Bool.false_eq_true, if_false]
            exact walkLoop_refines fuel _ _ it' hrep₁

theorem walkerNext_refines {st : FileState} {s : List UInt8} (hrep : Represents efs st s) (it : DirIter) :
    ∃ st', Represents efs st' s ∧ walkerNext efs it st = (walkerNextOn s it).map fun r => (st', r) := by
  have hfuel : it.fuel st = (s.length + it.offset.getD 0) / stepSize + 2 := by
    rw [DirIter.fuel, hrep.size_eq]
  rw [walkerNext, walkerNextOn, hfuel]
  exact walkLoop_refines h512 _ _ _ it hrep

theorem walkAllLoop_refines {s : List UInt8} :
    ∀ (fuel : Nat) (it : DirIter) {st : FileState}, Represents efs st s →
      walkAllLoop efs fuel it st = walkAllLoopOn s fuel it
  | 0, _, _, _ => rfl
  | fuel + 1, it, st, hrep => by
      obtain ⟨st₁, hrep₁, hnext⟩ := walkerNext_refines h512 hrep it
      rw [walkAllLoop, walkAllLoopOn, hnext]
      rcases walkerNextOn s it with _ | ⟨it', _ | pair⟩
      · rfl
      · rfl
      · simp only [Option.map_some, Option.bind_eq_bind, Option.bind_some]
        rw [walkAllLoop_refines fuel it' hrep₁]

theorem currentClone_refines {st : FileState} {s : List UInt8} (hrep : Represents efs st s) {it : DirIter}
    {offset : Nat} (hoff : it.offset = some offset) (hend : offset + stepSize ≤ s.length) :
    ∃ st', it.currentClone efs st = some (st', some (entAt s offset)) ∧ Represents efs st' s ∧
      CachesOnly st st' := by
  have hsize := hrep.size_lt
  obtain ⟨st', hread, hrep', hst⟩ := readAtBlockCacheRlock_caches h512 hrep offset stepSize (by omega)
  have hlen : (ByteFile.read s offset stepSize).length ≠ 0 := by
    rw [ByteFile.length_read hend]
    decide
  refine ⟨st', ?_, hrep', hst⟩
  rw [DirIter.currentClone, hoff, hrep.size_eq]
  dsimp only
  rw [if_pos (by unfold stepSize at hend; omega), hread]
  simp only [Option.bind_eq_bind, Option.bind_some, if_pos hlen, entAt]
  rfl

theorem writeToCurrentEnt_refines {st : FileState} {s : List UInt8} (hrep : Represents efs st s)
    {it : DirIter} {offset : Nat} (hoff : it.offset = some offset) (hend : offset + stepSize ≤ s.length)
    (e : FATDirEnt) :
    ∃ st', it.writeToCurrentEnt efs st e = some st' ∧ Represents efs st' (ByteFile.write s offset e.bytes) ∧
      CachesOnly st st' := by
  have hsize := hrep.size_lt
  have hlen := e.length_eq
  have hfat : Supplies st (totalClus efs (offset + e.bytes.length) - totalClus efs s.length) := by
    rw [Nat.sub_eq_zero_of_le (totalClus_mono (by omega))]
    exact supplies_zero st
  obtain ⟨st', hwrite, hrep', hst⟩ := writeAtBlockCacheLock_caches h512 hrep e.bytes (by omega) (by omega) hfat
  refine ⟨st', ?_, hrep', hst (by omega)⟩
  simp [DirIter.writeToCurrentEnt, hoff, hwrite]

theorem currentClone_entBytes {st : FileState} {es : List FATDirEnt} (hrep : Represents efs st (entBytes es))
    {it : DirIter} {i : Nat} (hoff : it.offset = some (stepSize * i)) (hi : i < es.length) :
    ∃ st', it.currentClone efs st = some (st', some es[i]) ∧ Represents efs st' (entBytes es) ∧
      CachesOnly st st' := by
  have hend : stepSize * i + stepSize ≤ (entBytes es).length := by
    rw [length_entBytes, ← Nat.mul_succ]
    exact Nat.mul_le_mul_left _ hi
  rw [← entAt_entBytes hi]
  exact currentClone_refines h512 hrep hoff hend

theorem writeToCurrentEnt_entBytes {st : FileState} {es : List FATDirEnt}
    (hrep : Represents efs st (entBytes es)) {it : DirIter} {i : Nat} (hoff : it.offset = some (stepSize * i))
    (hi : i < es.length) (e : FATDirEnt) :
    ∃ st', it.writeToCurrentEnt efs st e = some st' ∧ Represents efs st' (entBytes (es.set i e)) ∧
      CachesOnly st st' := by
  have hend : stepSize * i + stepSize ≤ (entBytes es).length := by
    rw [length_entBytes, ← Nat.mul_succ]
    exact Nat.mul_le_mul_left _ hi
  rw [← write_entBytes hi]
  exact writeToCurrentEnt_refines h512 hrep hoff hend e

/-- `DirWalker` over a directory holding `s` yields what the walk over `s` does. -/
theorem walkAll_refines {st : FileState} {s : List UInt8} (hrep : Represents efs st s) :
    walkAll efs st = walkAllOn s := by
  rw [walkAll, walkAllOn, hrep.size_eq]
  exact walkAllLoop_refines h512 _ _ hrep

end Refinement

/-! ## Iterators as positions

Over the entries `es`, a forward iterator whose next entry is entry `p`, and a
backward one at entry `p`, whose next entry is entry `p - 1`. -/

namespace DirIter

/-- The forward iterator in `mode` whose next step reads entry `p`. -/
def fwdAt (mode : DirIterMode) (p : Nat) : DirIter :=
  ⟨if p = 0 then none else some (stepSize * (p - 1)), mode, forward⟩

/-- The backward iterator in `mode` at entry `p`. -/
def bwdAt (mode : DirIterMode) (p : Nat) : DirIter :=
  ⟨some (stepSize * p), mode, backward⟩

variable {es : List FATDirEnt} {mode : DirIterMode} {p : Nat}

theorem fwdAt_succ_eq (mode : DirIterMode) (p : Nat) :
    (⟨some (stepSize * p), mode, true⟩ : DirIter) = fwdAt mode (p + 1) := by
  simp [fwdAt, forward]

theorem stepOn_fwdAt (hp : stepSize * p < 2 ^ 32) :
    (fwdAt mode p).stepOn (entBytes es) =
      if h : p < es.length then
        if mode ≠ .enum ∧ es[p].lastAndUnused then (fwdAt mode p, none) else (fwdAt mode (p + 1), some es[p])
      else (fwdAt mode p, none) := by
  have hoff : ((fwdAt mode p).offset.map fun offset => Word.add 32 offset stepSize).getD 0 = stepSize * p := by
    rcases p with _ | p
    · rfl
    · simp only [fwdAt, Nat.add_one_ne_zero, if_false, Nat.add_sub_cancel, Option.map_some, Option.getD_some]
      rw [Word.add_of_lt (by rw [← Nat.mul_succ]; exact hp), ← Nat.mul_succ]
  have hlen : (entBytes es).length ≤ stepSize * p ↔ es.length ≤ p := by
    rw [length_entBytes]
    exact Nat.mul_le_mul_left_iff (by decide)
  have hdir : (fwdAt mode p).direction = true := rfl
  have hmode : (fwdAt mode p).mode = mode := rfl
  unfold stepOn
  dsimp only
  rw [if_pos hdir, hoff, hmode]
  by_cases h : p < es.length
  · rw [if_neg (by rw [hlen]; omega), dif_pos h, entAt_entBytes h, hdir, fwdAt_succ_eq]
  · rw [if_pos (hlen.mpr (Nat.le_of_not_lt h)), dif_neg h]

theorem FATDirEnt.lastAndUnused_of_unusedNotLast {e : FATDirEnt} (h : e.unusedNotLast = true) :
    e.lastAndUnused = false := by
  simp only [FATDirEnt.unusedNotLast, beq_iff_eq] at h
  simp [FATDirEnt.lastAndUnused, h, dirEntryUnused, dirEntryLastAndUnused]

theorem nextOn_fwdAt_eq (mode : DirIterMode) (p : Nat) :
    (fwdAt mode p).nextOn (entBytes es) = nextLoopOn (entBytes es) (es.length + (p - 1) + 2) (fwdAt mode p) := by
  have hoff : (fwdAt mode p).offset.getD 0 = stepSize * (p - 1) := by
    rcases p with _ | p <;> rfl
  rw [nextOn, hoff, length_entBytes, ← Nat.mul_add, Nat.mul_div_cancel_left _ (by decide)]

section Forward

variable (hsize : stepSize * es.length < 2 ^ 32)
include hsize

theorem stepOn_fwdAt_of_lt (hp : p < es.length) :
    (fwdAt mode p).stepOn (entBytes es) =
      if mode ≠ .enum ∧ es[p].lastAndUnused then (fwdAt mode p, none) else (fwdAt mode (p + 1), some es[p]) := by
  rw [stepOn_fwdAt (lt_of_le_of_lt (Nat.mul_le_mul_left _ hp.le) hsize), dif_pos hp]

/-- Used entries forward: entries marked unused are passed over. -/
theorem nextLoopOn_fwdAt_skip (fuel : Nat) :
    ∀ (k p : Nat), p + k ≤ es.length →
      (∀ j (hj : j < es.length), p ≤ j → j < p + k → es[j].unusedNotLast = true) →
      nextLoopOn (entBytes es) (fuel + k) (fwdAt .used p) = nextLoopOn (entBytes es) fuel (fwdAt .used (p + k))
  | 0, _, _, _ => rfl
  | k + 1, p, hk, hdel => by
      have hp : p < es.length := by omega
      have hskip := hdel p hp le_rfl (by omega)
      have hlegal : checkDirEntLegality .used es[p] = false := by
        simp [checkDirEntLegality, FATDirEnt.unused, hskip]
      rw [← Nat.add_assoc, nextLoopOn, stepOn_fwdAt_of_lt hsize hp,
        if_neg (by simp [FATDirEnt.lastAndUnused_of_unusedNotLast hskip])]
      dsimp only
      have hmode : (fwdAt DirIterMode.used (p + 1)).mode = .used := rfl
      rw [hmode, hlegal, if_neg Bool.false_ne_true,
        nextLoopOn_fwdAt_skip fuel k (p + 1) (by omega) (fun j hj h₁ h₂ => hdel j hj (by omega) (by omega)),
        Nat.add_right_comm p 1 k]
      rfl

theorem nextLoopOn_fwdAt_used (fuel : Nat) (hp : p < es.length) (hused : es[p].unused = false) :
    nextLoopOn (entBytes es) (fuel + 1) (fwdAt .used p) = some (fwdAt .used (p + 1), some es[p]) := by
  have hlast : es[p].lastAndUnused = false := by
    simp only [FATDirEnt.unused, Bool.or_eq_false_iff] at hused
    exact hused.1
  have hlegal : checkDirEntLegality .used es[p] = true := by
    simp [checkDirEntLegality, hused]
  rw [nextLoopOn, stepOn_fwdAt_of_lt hsize hp, if_neg (by simp [hlast])]
  dsimp only
  have hmode : (fwdAt DirIterMode.used (p + 1)).mode = .used := rfl
  rw [hmode, hlegal, if_pos rfl]

theorem nextLoopOn_fwdAt_end (fuel : Nat) (hmode : mode ≠ .enum) (hp : p ≤ es.length)
    (hend : ∀ h : p < es.length, es[p].lastAndUnused = true) :
    nextLoopOn (entBytes es) (fuel + 1) (fwdAt mode p) = some (fwdAt mode p, none) := by
  by_cases hlt : p < es.length
  · rw [nextLoopOn, stepOn_fwdAt_of_lt hsize hlt, if_pos ⟨hmode, hend hlt⟩]
  · rw [nextLoopOn, stepOn_fwdAt (lt_of_le_of_lt (Nat.mul_le_mul_left _ hp) hsize), dif_neg hlt]

theorem nextLoopOn_fwdAt_enum (fuel : Nat) (hp : p < es.length) :
    nextLoopOn (entBytes es) (fuel + 1) (fwdAt .enum p) = some (fwdAt .enum (p + 1), some es[p]) := by
  rw [nextLoopOn, stepOn_fwdAt_of_lt hsize hp, if_neg (by simp)]
  rfl

/-- `next` of a forward iterator in `Used` mode: past the entries marked
    unused, the next used entry. -/
theorem nextOn_fwdAt_used {k : Nat} (hk : p + k < es.length)
    (hdel : ∀ j (hj : j < es.length), p ≤ j → j < p + k → es[j].unusedNotLast = true)
    (hused : es[p + k].unused = false) :
    (fwdAt .used p).nextOn (entBytes es) = some (fwdAt .used (p + k + 1), some es[p + k]) := by
  rw [nextOn_fwdAt_eq, show es.length + (p - 1) + 2 = es.length + (p - 1) + 1 - k + 1 + k by omega,
    nextLoopOn_fwdAt_skip hsize _ k p hk.le hdel, nextLoopOn_fwdAt_used hsize _ hk hused]

/-- `next` of a forward iterator in `Used` mode past the entries marked unused
    up to the end of the file or a `last_and_unused` entry: nothing. -/
theorem nextOn_fwdAt_used_end {k : Nat} (hk : p + k ≤ es.length)
    (hdel : ∀ j (hj : j < es.length), p ≤ j → j < p + k → es[j].unusedNotLast = true)
    (hend : ∀ h : p + k < es.length, es[p + k].lastAndUnused = true) :
    (fwdAt .used p).nextOn (entBytes es) = some (fwdAt .used (p + k), none) := by
  rw [nextOn_fwdAt_eq, show es.length + (p - 1) + 2 = es.length + (p - 1) + 1 - k + 1 + k by omega,
    nextLoopOn_fwdAt_skip hsize _ k p hk hdel, nextLoopOn_fwdAt_end hsize _ (by decide) hk hend]

theorem nextOn_fwdAt_enum (hp : p < es.length) :
    (fwdAt .enum p).nextOn (entBytes es) = some (fwdAt .enum (p + 1), some es[p]) := by
  rw [nextOn_fwdAt_eq, show es.length + (p - 1) + 2 = es.length + (p - 1) + 1 + 1 by omega,
    nextLoopOn_fwdAt_enum hsize _ hp]

theorem nextOn_fwdAt_enum_end :
    (fwdAt .enum es.length).nextOn (entBytes es) = some (fwdAt .enum es.length, none) := by
  rw [nextOn_fwdAt_eq, nextLoopOn, stepOn_fwdAt hsize, dif_neg (Nat.lt_irrefl _)]

end Forward

theorem stepOn_bwdAt_zero (s : List UInt8) (mode : DirIterMode) :
    (bwdAt mode 0).stepOn s = (⟨none, mode, backward⟩, none) :=
  rfl

theorem nextOn_bwdAt_eq (mode : DirIterMode) (p : Nat) :
    (bwdAt mode p).nextOn (entBytes es) = nextLoopOn (entBytes es) (es.length + p + 2) (bwdAt mode p) := by
  have hoff : (bwdAt mode p).offset.getD 0 = stepSize * p := rfl
  rw [nextOn, hoff, length_entBytes, ← Nat.mul_add, Nat.mul_div_cancel_left _ (by decide)]

theorem nextOn_bwdAt_zero (s : List UInt8) (mode : DirIterMode) :
    (bwdAt mode 0).nextOn s = some (⟨none, mode, backward⟩, none) :=
  rfl

section Backward

variable (hsize : stepSize * es.length < 2 ^ 32)
include hsize

theorem stepOn_bwdAt_succ (hp : p < es.length) :
    (bwdAt mode (p + 1)).stepOn (entBytes es) = (bwdAt mode p, some es[p]) := by
  have hsucc : stepSize * (p + 1) = (stepSize * p + 31) + 1 := by
    unfold stepSize
    ring
  have hle : stepSize * (p + 1) < 2 ^ 32 := lt_of_le_of_lt (Nat.mul_le_mul_left _ hp) hsize
  have hsub : Word.sub 32 (stepSize * p + 31 + 1) stepSize = stepSize * p := by
    rw [← hsucc, Word.sub_of_le (by unfold stepSize; omega) hle]
    unfold stepSize
    omega
  have hoff : (bwdAt mode (p + 1)).offset = some ((stepSize * p + 31) + 1) := by
    rw [← hsucc]
    rfl
  have hdir : (bwdAt mode (p + 1)).direction = false := rfl
  unfold stepOn
  rw [hdir, if_neg Bool.false_ne_true, hoff]
  simp only [hsub, entAt_entBytes hp]
  rfl

theorem nextLoopOn_bwdAt_enum (fuel : Nat) (hp : p < es.length) :
    nextLoopOn (entBytes es) (fuel + 1) (bwdAt .enum (p + 1)) = some (bwdAt .enum p, some es[p]) := by
  rw [nextLoopOn, stepOn_bwdAt_succ hsize hp]
  rfl

/-- Used entries backward: entries marked unused are passed over. -/
theorem nextLoopOn_bwdAt_skip (fuel : Nat) :
    ∀ (k p : Nat), p + k ≤ es.length →
      (∀ j (hj : j < es.length), p ≤ j → j < p + k → es[j].unused = true) →
      nextLoopOn (entBytes es) (fuel + k) (bwdAt .used (p + k)) = nextLoopOn (entBytes es) fuel (bwdAt .used p)
  | 0, _, _, _ => rfl
  | k + 1, p, hk, hdel => by
      have hq : p + k < es.length := by omega
      have hlegal : checkDirEntLegality .used es[p + k] = false := by
        simp [checkDirEntLegality, hdel (p + k) hq (by omega) (by omega)]
      rw [← Nat.add_assoc, ← Nat.add_assoc, nextLoopOn, stepOn_bwdAt_succ hsize hq]
      dsimp only
      have hmode : (bwdAt DirIterMode.used (p + k)).mode = .used := rfl
      rw [hmode, hlegal, if_neg Bool.false_ne_true]
      exact nextLoopOn_bwdAt_skip fuel k p (by omega) fun j hj h₁ h₂ => hdel j hj h₁ (by omega)

theorem nextLoopOn_bwdAt_used (fuel : Nat) (hp : p < es.length) (hused : es[p].unused = false) :
    nextLoopOn (entBytes es) (fuel + 1) (bwdAt .used (p + 1)) = some (bwdAt .used p, some es[p]) := by
  have hlegal : checkDirEntLegality .used es[p] = true := by
    simp [checkDirEntLegality, hused]
  rw [nextLoopOn, stepOn_bwdAt_succ hsize hp]
  dsimp only
  have hmode : (bwdAt DirIterMode.used p).mode = .used := rfl
  rw [hmode, hlegal, if_pos rfl]

theorem nextOn_bwdAt_enum (hp : p < es.length) :
    (bwdAt .enum (p + 1)).nextOn (entBytes es) = some (bwdAt .enum p, some es[p]) := by
  rw [nextOn_bwdAt_eq, show es.length + (p + 1) + 2 = es.length + p + 2 + 1 by omega,
    nextLoopOn_bwdAt_enum hsize _ hp]

/-- `next` of a backward iterator in `Used` mode: back past the entries marked
    unused, the used entry before them. -/
theorem nextOn_bwdAt_used {k : Nat} (hk : p + 1 + k ≤ es.length)
    (hdel : ∀ j (hj : j < es.length), p + 1 ≤ j → j < p + 1 + k → es[j].unused = true)
    (hused : es[p].unused = false) :
    (bwdAt .used (p + 1 + k)).nextOn (entBytes es) = some (bwdAt .used p, some es[p]) := by
  rw [nextOn_bwdAt_eq, show es.length + (p + 1 + k) + 2 = es.length + p + 3 + k by omega,
    nextLoopOn_bwdAt_skip hsize _ k (p + 1) hk hdel,
    show es.length + p + 3 = es.length + p + 2 + 1 by omega, nextLoopOn_bwdAt_used hsize _ (by omega) hused]

/-- `next` of a backward iterator in `Used` mode over entries that are all
    marked unused: nothing, at the start of the file. -/
theorem nextOn_bwdAt_used_start {k : Nat} (hk : k ≤ es.length)
    (hdel : ∀ j (hj : j < es.length), j < k → es[j].unused = true) :
    (bwdAt .used k).nextOn (entBytes es) = some (⟨none, .used, backward⟩, none) := by
  have hskip := nextLoopOn_bwdAt_skip hsize (es.length + 2) k 0 (by omega) fun j hj _ h => hdel j hj (by omega)
  rw [Nat.zero_add] at hskip
  rw [nextOn_bwdAt_eq, show es.length + k + 2 = es.length + 2 + k by omega, hskip]
  rfl

/-- Backward, `next` always ends: at a legal entry or at the start of the file. -/
theorem nextLoopOn_bwdAt_isSome (mode : DirIterMode) :
    ∀ (p fuel : Nat), p ≤ es.length → p < fuel → ∃ r, nextLoopOn (entBytes es) fuel (bwdAt mode p) = some r
  | 0, fuel + 1, _, _ => ⟨_, by rw [nextLoopOn, stepOn_bwdAt_zero]⟩
  | p + 1, fuel + 1, hp, hfuel => by
      rw [nextLoopOn, stepOn_bwdAt_succ hsize (by omega)]
      dsimp only
      split
      · exact ⟨_, rfl⟩
      · exact nextLoopOn_bwdAt_isSome mode p fuel (by omega) (by omega)

theorem nextOn_bwdAt_isSome (mode : DirIterMode) (hp : p ≤ es.length) :
    ∃ r, (bwdAt mode p).nextOn (entBytes es) = some r := by
  rw [nextOn_bwdAt_eq]
  exact nextLoopOn_bwdAt_isSome hsize mode p _ hp (by omega)

end Backward

end DirIter

end OsKernel.Fat32

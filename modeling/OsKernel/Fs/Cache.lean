import Mathlib
import OsKernel.Lib.Word
import OsKernel.Lib.Run

/-! # Page caches

`PageCache` and `PageCacheManager` of `fs/cache.rs`.  A page cache is one
frame holding up to eight consecutive 512-byte buffers of a file; `read_in`
and `write_back` hand each run of consecutive block ids to the device in one
call, and the device (`VirtIOBlock`) acts on a buffer of `k` blocks as on `k`
consecutive blocks.  The dirty bit that the kernel's page table keeps for the
frame is the field `dirty`: a write through the cache sets it and `read_in`
clears it.  No other party holds a cache or its frame between two calls, so
the `Arc` counts that `oom` and `notify_new_size` test are 1.
-/

namespace OsKernel.Fs

/-- `PAGE_BUFFERS`. -/
def pageBuffers : Nat := 8

/-- `BUFFER_SIZE`, also `BLOCK_SZ`. -/
def bufferSize : Nat := 512

/-- `PRIORITY_UPPERBOUND`. -/
def priorityUpperbound : Nat := 1

/-- `PageCacheManager::CACHE_SZ`, the page size. -/
def cacheSz : Nat := 4096

/-- `usize::MAX`. -/
def usizeMax : Nat := 2 ^ 64 - 1

/-- The bytes of every block of the device. -/
abbrev Disk := Nat → Nat → UInt8

/-- A run of `conLength` consecutive blocks from `startBlockId`, which goes to
    the page from buffer `startBufId` on. -/
structure BlockRun where
  startBlockId : Nat
  conLength : Nat
  startBufId : Nat
deriving DecidableEq, Repr

/-- The loop of `read_in` and `write_back` over `block_ids`, up to the device
    calls: the runs it hands to the device, in order, the last one being the
    run it is left with. -/
def runsLoop : BlockRun → List Nat → List BlockRun
  | run, [] => [run]
  | run, blockId :: rest =>
      if run.conLength = 0 then runsLoop ⟨blockId, 1, run.startBufId⟩ rest
      else if blockId ≠ run.startBlockId + run.conLength then
        run :: runsLoop ⟨blockId, 1, run.startBufId + run.conLength⟩ rest
      else runsLoop { run with conLength := run.conLength + 1 } rest

def runs (blockIds : List Nat) : List BlockRun :=
  runsLoop ⟨usizeMax, 0, 0⟩ blockIds

/-- `read_block(start_block_id, buf)` into the buffers of the run. -/
def readRun (d : Disk) (run : BlockRun) (page : Nat → UInt8) : Nat → UInt8 := fun i =>
  if run.startBufId * bufferSize ≤ i ∧ i < (run.startBufId + run.conLength) * bufferSize then
    d (run.startBlockId + (i / bufferSize - run.startBufId)) (i % bufferSize)
  else page i

/-- `write_block(start_block_id, buf)` from the buffers of the run. -/
def writeRun (page : Nat → UInt8) (run : BlockRun) (d : Disk) : Disk := fun b j =>
  if run.startBlockId ≤ b ∧ b < run.startBlockId + run.conLength then
    page ((run.startBufId + (b - run.startBlockId)) * bufferSize + j)
  else d b j

/-- Where buffer `u` of the page comes from when the runs loop holds `run` and
    has `rest` to go. -/
def runBlock (run : BlockRun) (rest : List Nat) (u : Nat) : Nat :=
  if u < run.startBufId + run.conLength then run.startBlockId + (u - run.startBufId)
  else rest.getD (u - run.startBufId - run.conLength) 0

theorem le_div_bufferSize {b i : Nat} : b ≤ i / bufferSize ↔ b * bufferSize ≤ i :=
  Nat.le_div_iff_mul_le (by decide)

theorem div_bufferSize_lt {c i : Nat} : i / bufferSize < c ↔ i < c * bufferSize :=
  Nat.div_lt_iff_lt_mul (by decide)

theorem readRun_apply (d : Disk) (run : BlockRun) (page : Nat → UInt8) (i : Nat) :
    readRun d run page i =
      if run.startBufId ≤ i / bufferSize ∧ i / bufferSize < run.startBufId + run.conLength then
        d (runBlock run [] (i / bufferSize)) (i % bufferSize)
      else page i := by
  unfold readRun runBlock
  by_cases hin : run.startBufId ≤ i / bufferSize ∧ i / bufferSize < run.startBufId + run.conLength
  · rw [if_pos (by rwa [le_div_bufferSize, div_bufferSize_lt] at hin), if_pos hin, if_pos hin.2]
  · rw [if_neg (by rwa [le_div_bufferSize, div_bufferSize_lt] at hin), if_neg hin]

theorem runBlock_start (x s : Nat) (rest : List Nat) {b k u : Nat} (hu : b + k ≤ u) :
    runBlock ⟨x, 1, b + k⟩ rest u = runBlock ⟨s, k, b⟩ (x :: rest) u := by
  obtain ⟨t, rfl⟩ : ∃ t, u = b + k + t := ⟨u - (b + k), by omega⟩
  cases t with
  | zero => simp [runBlock]
  | succ t =>
      have hlt : ¬ b + k + (t + 1) < b + k + 1 := by omega
      have hlt' : ¬ b + k + (t + 1) < b + k := by omega
      have hidx : b + k + (t + 1) - b - k = t + 1 := by omega
      simp only [runBlock, hlt, hlt', if_false, hidx, List.getD_cons_succ]
      congr 1
      omega

theorem runBlock_extend (s : Nat) (rest : List Nat) {b k u : Nat} (hu : b ≤ u) :
    runBlock ⟨s, k + 1, b⟩ rest u = runBlock ⟨s, k, b⟩ ((s + k) :: rest) u := by
  unfold runBlock
  by_cases hlt : u < b + k
  · simp only [show u < b + (k + 1) by omega, hlt, if_true]
  · by_cases heq : u = b + k
    · subst heq
      simp
    · have hlt' : ¬ u < b + (k + 1) := by omega
      have hidx : u - b - k = (u - b - (k + 1)) + 1 := by omega
      simp only [hlt, hlt', if_false, hidx, List.getD_cons_succ]

theorem foldl_readRun_runsLoop (d : Disk) (run : BlockRun) (rest : List Nat)
    (page : Nat → UInt8) :
    (runsLoop run rest).foldl (fun page run => readRun d run page) page = fun i =>
      if run.startBufId ≤ i / bufferSize ∧
          i / bufferSize < run.startBufId + run.conLength + rest.length then
        d (runBlock run rest (i / bufferSize)) (i % bufferSize)
      else page i := by
  induction rest generalizing run page with
  | nil =>
      funext i
      simp only [runsLoop, List.foldl_cons, List.foldl_nil, readRun_apply, List.length_nil,
        Nat.add_zero]
  | cons x rest ih =>
      obtain ⟨s, k, b⟩ := run
      funext i
      by_cases hk : k = 0
      · subst hk
        simp only [runsLoop, if_true, ih, List.length_cons]
        by_cases hin : b ≤ i / bufferSize ∧ i / bufferSize < b + 1 + rest.length
        · have hstart := runBlock_start x s rest (b := b) (k := 0) (u := i / bufferSize) (by omega)
          rw [Nat.add_zero] at hstart
          rw [if_pos hin, if_pos (by omega), hstart]
        · rw [if_neg hin, if_neg (by omega)]
      · by_cases hx : x ≠ s + k
        · rw [runsLoop, if_neg hk, if_pos hx, List.foldl_cons, ih]
          simp only [List.length_cons, readRun_apply]
          by_cases hnew : b + k ≤ i / bufferSize ∧ i / bufferSize < b + k + 1 + rest.length
          · rw [if_pos hnew, if_pos (by omega), runBlock_start x s rest hnew.1]
          · rw [if_neg hnew]
            by_cases hold : b ≤ i / bufferSize ∧ i / bufferSize < b + k
            · rw [if_pos hold, if_pos (by omega)]
              simp only [runBlock, if_pos hold.2]
            · rw [if_neg hold, if_neg (by omega)]
        · have hx' : x = s + k := not_not.mp hx
          subst hx'
          rw [runsLoop, if_neg hk, if_neg (not_not.mpr rfl), ih]
          simp only [List.length_cons]
          by_cases hin : b ≤ i / bufferSize ∧ i / bufferSize < b + (k + 1) + rest.length
          · rw [if_pos hin, if_pos (by omega), runBlock_extend s rest hin.1]
          · rw [if_neg hin, if_neg (by omega)]

/-! ### Runs as single blocks -/

/-- `write_block` of the single block `b` from buffer `u` of the page. -/
def writeBlock (page : Nat → UInt8) (u b : Nat) (d : Disk) : Disk := fun b' j =>
  if b' = b then page (u * bufferSize + j) else d b' j

/-- Single-block writes, each a block and the buffer it comes from, in order. -/
def writeBlocks (page : Nat → UInt8) (pairs : List (Nat × Nat)) (d : Disk) : Disk :=
  pairs.foldl (fun d pair => writeBlock page pair.2 pair.1 d) d

theorem writeBlocks_append (page : Nat → UInt8) (first second : List (Nat × Nat)) (d : Disk) :
    writeBlocks page (first ++ second) d = writeBlocks page second (writeBlocks page first d) :=
  List.foldl_append

theorem writeBlocks_cons (page : Nat → UInt8) (pair : Nat × Nat) (pairs : List (Nat × Nat))
    (d : Disk) : writeBlocks page (pair :: pairs) d = writeBlocks page pairs (writeBlock page pair.2 pair.1 d) :=
  rfl

/-- The single blocks of a run: block `startBlockId + k` with buffer
    `startBufId + k`. -/
def BlockRun.pairs (run : BlockRun) : List (Nat × Nat) :=
  (List.range run.conLength).map fun k => (run.startBlockId + k, run.startBufId + k)

theorem writeRun_eq_writeBlocks (page : Nat → UInt8) (run : BlockRun) (d : Disk) :
    writeRun page run d = writeBlocks page run.pairs d := by
  obtain ⟨s, k, u⟩ := run
  induction k with
  | zero =>
      funext b j
      simp [writeRun, writeBlocks, BlockRun.pairs]
  | succ k ih =>
      have hpairs : BlockRun.pairs ⟨s, k + 1, u⟩ = BlockRun.pairs ⟨s, k, u⟩ ++ [(s + k, u + k)] := by
        simp [BlockRun.pairs, List.range_succ]
      rw [hpairs, writeBlocks_append, ← ih, writeBlocks_cons]
      funext b j
      simp only [writeBlocks, List.foldl_nil, writeBlock, writeRun]
      by_cases hb : b = s + k
      · subst hb
        rw [if_pos rfl, if_pos (by omega), Nat.add_sub_cancel_left]
      · by_cases hin : s ≤ b ∧ b < s + k
        · rw [if_neg hb, if_pos (by omega), if_pos hin]
        · rw [if_neg hb, if_neg (by omega), if_neg hin]

theorem flatMap_pairs_runsLoop (run : BlockRun) (rest : List Nat) :
    (runsLoop run rest).flatMap BlockRun.pairs =
      run.pairs ++ rest.zipIdx (run.startBufId + run.conLength) := by
  induction rest generalizing run with
  | nil => simp [runsLoop]
  | cons x rest ih =>
      obtain ⟨s, k, b⟩ := run
      by_cases hk : k = 0
      · subst hk
        rw [runsLoop, if_pos rfl, ih]
        simp [BlockRun.pairs]
      · by_cases hx : x ≠ s + k
        · rw [runsLoop, if_neg hk, if_pos hx, List.flatMap_cons, ih]
          simp [BlockRun.pairs]
        · have hx' : x = s + k := not_not.mp hx
          subst hx'
          rw [runsLoop, if_neg hk, if_neg (not_not.mpr rfl), ih]
          simp [BlockRun.pairs, List.range_succ, Nat.add_assoc]

theorem foldl_writeRun (page : Nat → UInt8) (runs : List BlockRun) (d : Disk) :
    runs.foldl (fun d run => writeRun page run d) d = writeBlocks page (runs.flatMap BlockRun.pairs) d := by
  rw [writeBlocks, List.foldl_flatMap]
  congr 1
  funext d run
  rw [writeRun_eq_writeBlocks]
  rfl

theorem writeBlocks_of_not_mem (page : Nat → UInt8) {pairs : List (Nat × Nat)} {b : Nat}
    (hb : ∀ pair ∈ pairs, pair.1 ≠ b) (d : Disk) (j : Nat) : writeBlocks page pairs d b j = d b j := by
  induction pairs generalizing d with
  | nil => rfl
  | cons pair pairs ih =>
      rw [writeBlocks_cons, ih (fun q hq => hb q (List.mem_cons_of_mem pair hq))]
      simp only [writeBlock]
      rw [if_neg (Ne.symm (hb pair List.mem_cons_self))]

structure PageCache where
  priority : Nat
  /-- The bytes of the frame, `0 .. PAGE_SIZE`. -/
  page : Nat → UInt8
  dirty : Bool

namespace PageCache

/-- `PageCache::new`: a zeroed frame from `frame_alloc`. -/
def new : PageCache :=
  ⟨0, fun _ => 0, false⟩

/-- `read_in`: the blocks of `block_ids` into the page, in order, and zeroes
    after them; it asserts at most `PAGE_BUFFERS` blocks. -/
def readIn (pc : PageCache) (blockIds : List Nat) (d : Disk) : Option PageCache :=
  if blockIds = [] then some pc
  else if pageBuffers < blockIds.length then none
  else
    let page := (runs blockIds).foldl (fun page run => readRun d run page) pc.page
    some { pc with
      page := fun i => if blockIds.length * bufferSize ≤ i then 0 else page i,
      dirty := false }

/-- `write_back`: the buffers of the page to the blocks of `block_ids`. -/
def writeBack (pc : PageCache) (blockIds : List Nat) (d : Disk) : Disk :=
  if blockIds = [] then d
  else (runs blockIds).foldl (fun d run => writeRun pc.page run d) d

/-- `sync`: write back a dirty page. -/
def sync (pc : PageCache) (blockIds : List Nat) (d : Disk) : Disk :=
  if pc.dirty then pc.writeBack blockIds d else d

/-- The `modify` closures of `write_at` and `clear_at`: `bytes` from `off` on. -/
def write (pc : PageCache) (off : Nat) (bytes : List UInt8) : PageCache :=
  { pc with
    page := fun i => if off ≤ i ∧ i < off + bytes.length then bytes.getD (i - off) 0 else pc.page i,
    dirty := pc.dirty || !bytes.isEmpty }

/-- The `read` closure of `read_at`: `len` bytes from `off` on. -/
def read (pc : PageCache) (off len : Nat) : List UInt8 :=
  (List.range len).map fun k => pc.page (off + k)

/-- The page that `read_in` fills from `blockIds`: buffer `u` holds block
    `blockIds[u]`, and zeroes follow the last one. -/
def blockPage (blockIds : List Nat) (d : Disk) : Nat → UInt8 := fun i =>
  if i / bufferSize < blockIds.length then d (blockIds.getD (i / bufferSize) 0) (i % bufferSize)
  else 0

theorem readIn_eq (pc : PageCache) {blockIds : List Nat} (d : Disk) (hne : blockIds ≠ [])
    (hlen : blockIds.length ≤ pageBuffers) :
    pc.readIn blockIds d = some { pc with page := blockPage blockIds d, dirty := false } := by
  unfold readIn
  rw [if_neg hne, if_neg (Nat.not_lt.mpr hlen), runs, foldl_readRun_runsLoop]
  dsimp only
  congr 2
  funext i
  -- the first run is empty and starts at buffer 0, so buffer `u` is `blockIds[u]`
  have hrun : ∀ u, runBlock ⟨usizeMax, 0, 0⟩ blockIds u = blockIds.getD u 0 := by
    intro u
    simp [runBlock]
  simp only [blockPage, hrun, Nat.zero_le, true_and, Nat.zero_add]
  by_cases hi : i / bufferSize < blockIds.length
  · rw [if_neg (Nat.not_le.mpr (div_bufferSize_lt.mp hi)), if_pos hi, if_pos hi]
  · rw [if_pos (Nat.le_of_not_lt (mt div_bufferSize_lt.mpr hi)), if_neg hi]

theorem readIn_new {blockIds : List Nat} (d : Disk) (hlen : blockIds.length ≤ pageBuffers) :
    new.readIn blockIds d = some ⟨0, blockPage blockIds d, false⟩ := by
  by_cases hne : blockIds = []
  · subst hne
    have hzero : blockPage [] d = fun _ => 0 := by
      funext i
      simp [blockPage]
    rw [hzero]
    rfl
  · exact readIn_eq new d hne hlen

theorem writeBack_eq (pc : PageCache) (blockIds : List Nat) (d : Disk) :
    pc.writeBack blockIds d = writeBlocks pc.page blockIds.zipIdx d := by
  unfold writeBack
  split
  · next hnil =>
      subst hnil
      rfl
  · rw [foldl_writeRun, runs, flatMap_pairs_runsLoop]
    simp [BlockRun.pairs]

/-- `read_in` of one to eight ids fills buffer `u` of the page with block
    `blockIds[u]` and zeroes the rest; `write_back` writes block `blockIds[u]`
    from buffer `u`, for each `u` in order, and no other block. -/
theorem readIn_writeBack_per_block (pc : PageCache) {blockIds : List Nat} (d : Disk)
    (hne : blockIds ≠ []) (hlen : blockIds.length ≤ pageBuffers) :
    pc.readIn blockIds d = some { pc with
      page := fun i => if i / bufferSize < blockIds.length then
        d (blockIds.getD (i / bufferSize) 0) (i % bufferSize) else 0,
      dirty := false } ∧
    pc.writeBack blockIds d = writeBlocks pc.page blockIds.zipIdx d ∧
    ∀ b j, b ∉ blockIds → pc.writeBack blockIds d b j = d b j := by
  refine ⟨readIn_eq pc d hne hlen, writeBack_eq pc blockIds d, fun b j hb => ?_⟩
  rw [writeBack_eq]
  refine writeBlocks_of_not_mem pc.page (fun pair hpair hname => hb ?_) d j
  obtain ⟨-, hi, hget⟩ := List.mem_zipIdx hpair
  rw [← hname, hget]
  exact List.getElem_mem _

/-- A disk whose every block holds its own id in each byte. -/
def blockIdDisk : Disk := fun b _ => UInt8.ofNat b

/-- Ids out of order and repeated, blocks 5, 5 and 3, on `blockIdDisk`. -/
theorem readIn_writeBack_per_block_five_five_three :
    [5, 5, 3] ≠ ([] : List Nat) ∧ [5, 5, 3].length ≤ pageBuffers ∧
      new.readIn [5, 5, 3] blockIdDisk = some { new with
        page := fun i => if i / bufferSize < [5, 5, 3].length then
          blockIdDisk ([5, 5, 3].getD (i / bufferSize) 0) (i % bufferSize) else 0,
        dirty := false } ∧
      new.writeBack [5, 5, 3] blockIdDisk = writeBlocks new.page [5, 5, 3].zipIdx blockIdDisk ∧
      ∀ b j, b ∉ [5, 5, 3] → new.writeBack [5, 5, 3] blockIdDisk b j = blockIdDisk b j :=
  ⟨by decide, by decide, readIn_writeBack_per_block new blockIdDisk (by decide) (by decide)⟩

end PageCache

structure PageCacheManager where
  cachePool : List (Option PageCache)
  allocatedCache : List Nat

namespace PageCacheManager

def new : PageCacheManager :=
  ⟨[], []⟩

/-- `get_cache`: the cache of page `innerCacheId`, read in from `neighbor` when
    the pool has none, with its priority raised up to `PRIORITY_UPPERBOUND`;
    the pool is extended with empty slots up to the page. -/
def getCache (m : PageCacheManager) (innerCacheId : Nat) (neighbor : List Nat) (d : Disk) :
    Option (PageCacheManager × PageCache) := do
  let pool := m.cachePool ++ List.replicate (innerCacheId + 1 - m.cachePool.length) none
  let (pc, allocated) ← match pool.getD innerCacheId none with
    | some pc => pure (pc, m.allocatedCache)
    | none => do
        let pc ← PageCache.new.readIn neighbor d
        pure (pc, m.allocatedCache ++ [innerCacheId])
  let pc := if pc.priority < priorityUpperbound then { pc with priority := pc.priority + 1 } else pc
  pure (⟨pool.set innerCacheId (some pc), allocated⟩, pc)

/-- Store back the cache of a slot after a `modify` through it. -/
def setCache (m : PageCacheManager) (innerCacheId : Nat) (pc : PageCache) : PageCacheManager :=
  { m with cachePool := m.cachePool.set innerCacheId (some pc) }

/-- One round of `oom` over `allocated_cache`: a cache with priority left is
    kept with one less, one without is synced and dropped; a slot without a
    cache panics on its `unwrap`. -/
def oomStep (neighbor : Nat → List Nat) :
    PageCacheManager × List Nat × Disk × Nat → Nat → Option (PageCacheManager × List Nat × Disk × Nat)
  | (m, kept, d, dropped), innerCacheId =>
      match m.cachePool.getD innerCacheId none with
      | none => none
      | some pc =>
          if 0 < pc.priority then
            some (m.setCache innerCacheId { pc with priority := pc.priority - 1 },
              kept ++ [innerCacheId], d, dropped)
          else
            some ({ m with cachePool := m.cachePool.set innerCacheId none }, kept,
              pc.sync (neighbor innerCacheId) d, dropped + 1)

/-- `oom`: returns the manager, the device and the number of caches dropped. -/
def oom (m : PageCacheManager) (neighbor : Nat → List Nat) (d : Disk) :
    Option (PageCacheManager × Disk × Nat) := do
  let (m', kept, d', dropped) ← m.allocatedCache.foldlM (oomStep neighbor) (m, [], d, 0)
  pure ({ m' with allocatedCache := kept }, d', dropped)

/-- `(new_size + PAGE_SIZE - 1) / PAGE_SIZE` of `notify_new_size`, in `usize`.
    Irreducible: unfolded on a symbolic size, the wrap would make `whnf` count
    up to `2 ^ 64`; `newPages_of_le` gives its value. -/
@[irreducible] def newPages (newSize : Nat) : Nat :=
  Word.sub 64 (Word.add 64 newSize cacheSz) 1 / cacheSz

/-- `notify_new_size`: drop the caches of the pages at or past the new end. -/
def notifyNewSize (m : PageCacheManager) (newSize : Nat) : PageCacheManager :=
  ⟨m.cachePool.take (newPages newSize), m.allocatedCache.filter (· < newPages newSize)⟩

theorem newPages_of_le {newSize : Nat} (h : newSize + cacheSz ≤ 2 ^ 64) :
    newPages newSize = (newSize + cacheSz - 1) / cacheSz := by
  have hcache : cacheSz = 4096 := rfl
  have hwrap : Word.sub 64 (Word.add 64 newSize cacheSz) 1 = newSize + cacheSz - 1 := by
    unfold Word.add Word.sub
    rw [hcache] at h ⊢
    omega
  rw [newPages, hwrap]

/-! ### The slots of the pool -/

/-- The cache of page `innerCacheId`, if the pool holds one. -/
def slot (m : PageCacheManager) (innerCacheId : Nat) : Option PageCache :=
  m.cachePool.getD innerCacheId none

theorem getD_set_none {α : Type*} (l : List (Option α)) (id j : Nat) (x : Option α) :
    (l.set id x).getD j none = if j = id ∧ id < l.length then x else l.getD j none := by
  rw [List.getD_eq_getElem?_getD, List.getElem?_set, List.getD_eq_getElem?_getD]
  by_cases hj : id = j
  · subst hj
    by_cases hl : id < l.length
    · simp [hl]
    · simp [hl]
  · simp [hj, Ne.symm hj]

theorem getD_append_replicate_none {α : Type*} (l : List (Option α)) (k j : Nat) :
    (l ++ List.replicate k none).getD j none = l.getD j none := by
  by_cases hj : j < l.length
  · exact List.getD_append l _ none j hj
  · rw [List.getD_eq_getElem?_getD, List.getElem?_append_right (Nat.le_of_not_lt hj),
      List.getD_eq_getElem?_getD, List.getElem?_eq_none (Nat.le_of_not_lt hj),
      List.getElem?_replicate]
    split_ifs <;> rfl

theorem slot_setCache (m : PageCacheManager) {innerCacheId : Nat} (pc : PageCache) (j : Nat)
    (h : innerCacheId < m.cachePool.length) :
    (m.setCache innerCacheId pc).slot j = if j = innerCacheId then some pc else m.slot j := by
  simp only [slot, setCache, getD_set_none, h, and_true]

@[simp] theorem length_setCache (m : PageCacheManager) (innerCacheId : Nat) (pc : PageCache) :
    (m.setCache innerCacheId pc).cachePool.length = m.cachePool.length :=
  List.length_set

theorem slot_notifyNewSize (m : PageCacheManager) (newSize j : Nat) :
    (m.notifyNewSize newSize).slot j = if j < newPages newSize then m.slot j else none := by
  simp only [slot, notifyNewSize, List.getD_eq_getElem?_getD, List.getElem?_take]
  split_ifs <;> rfl

theorem getCache_spec (m : PageCacheManager) (innerCacheId : Nat) {neighbor : List Nat} (d : Disk)
    (hlen : neighbor.length ≤ pageBuffers) :
    ∃ m' pc, m.getCache innerCacheId neighbor d = some (m', pc) ∧
      pc.page = ((m.slot innerCacheId).getD ⟨0, PageCache.blockPage neighbor d, false⟩).page ∧
      innerCacheId < m'.cachePool.length ∧ m'.slot innerCacheId = some pc ∧
      ∀ j, j ≠ innerCacheId → m'.slot j = m.slot j := by
  have hpad : ∀ j, (m.cachePool ++ List.replicate (innerCacheId + 1 - m.cachePool.length) none).getD
      j none = m.slot j := fun j => getD_append_replicate_none _ _ j
  have hlong : innerCacheId <
      (m.cachePool ++ List.replicate (innerCacheId + 1 - m.cachePool.length) none).length := by
    simp only [List.length_append, List.length_replicate]
    omega
  unfold getCache
  dsimp only
  rw [hpad]
  cases hslot : m.slot innerCacheId with
  | some pc =>
      refine ⟨_, _, rfl, ?_, ?_, ?_, ?_⟩
      · split_ifs <;> rfl
      · simpa using hlong
      · simp only [slot, getD_set_none, hlong, and_self, if_true]
      · intro j hj
        simp only [slot, getD_set_none, hj, false_and, if_false, hpad]
  | none =>
      simp only [PageCache.readIn_new d hlen, Option.getD_none]
      refine ⟨_, _, rfl, ?_, ?_, ?_, ?_⟩
      · split_ifs <;> rfl
      · simpa using hlong
      · simp only [slot, getD_set_none, hlong, and_self, if_true]
      · intro j hj
        simp only [slot, getD_set_none, hj, false_and, if_false, hpad]

/-! ### The bookkeeping of `allocated_cache` -/

/-- `allocated_cache` names each page whose slot holds a cache, once. -/
structure Tracked (m : PageCacheManager) : Prop where
  nodup : m.allocatedCache.Nodup
  mem_iff : ∀ i, i ∈ m.allocatedCache ↔ (m.slot i).isSome

theorem tracked_new : Tracked new :=
  ⟨List.nodup_nil, fun i => by simp [new, slot]⟩

theorem lt_length_of_slot_isSome {m : PageCacheManager} {j : Nat} (h : (m.slot j).isSome) :
    j < m.cachePool.length := by
  by_contra hlen
  simp [slot, List.getD_eq_getElem?_getD, List.getElem?_eq_none (Nat.le_of_not_lt hlen)] at h

/-- What `get_cache` does to the bookkeeping: the page's slot holds the cache it
    hands out, the other slots keep theirs, and the page joins
    `allocated_cache` when its slot was empty. -/
theorem getCache_eq_some {m m' : PageCacheManager} {innerCacheId : Nat} {neighbor : List Nat}
    {d : Disk} {pc : PageCache} (h : m.getCache innerCacheId neighbor d = some (m', pc)) :
    m'.slot innerCacheId = some pc ∧ (∀ j, j ≠ innerCacheId → m'.slot j = m.slot j) ∧
      m'.allocatedCache = if (m.slot innerCacheId).isSome then m.allocatedCache
        else m.allocatedCache ++ [innerCacheId] := by
  have hpad : ∀ j, (m.cachePool ++ List.replicate (innerCacheId + 1 - m.cachePool.length) none).getD
      j none = m.slot j := fun j => getD_append_replicate_none _ _ j
  have hlong : innerCacheId <
      (m.cachePool ++ List.replicate (innerCacheId + 1 - m.cachePool.length) none).length := by
    simp only [List.length_append, List.length_replicate]
    omega
  unfold getCache at h
  dsimp only at h
  rw [hpad] at h
  cases hslot : m.slot innerCacheId with
  | some pc₀ =>
    simp only [hslot, Option.pure_def, Option.bind_eq_bind, Option.bind_some, Option.some.injEq,
      Prod.mk.injEq] at h
    obtain ⟨rfl, rfl⟩ := h
    refine ⟨by simp only [slot, getD_set_none, hlong, and_self, if_true], fun j hj => ?_, by simp⟩
    simp only [slot, getD_set_none, hj, false_and, if_false, hpad]
  | none =>
    simp only [hslot, Option.pure_def, Option.bind_eq_bind] at h
    cases hread : PageCache.new.readIn neighbor d with
    | none => simp [hread] at h
    | some pc₀ =>
      simp only [hread, Option.bind_some, Option.some.injEq, Prod.mk.injEq] at h
      obtain ⟨rfl, rfl⟩ := h
      refine ⟨by simp only [slot, getD_set_none, hlong, and_self, if_true], fun j hj => ?_, by simp⟩
      simp only [slot, getD_set_none, hj, false_and, if_false, hpad]

theorem getCache_tracked {m m' : PageCacheManager} {innerCacheId : Nat} {neighbor : List Nat}
    {d : Disk} {pc : PageCache} (ht : Tracked m)
    (h : m.getCache innerCacheId neighbor d = some (m', pc)) : Tracked m' := by
  obtain ⟨hself, hother, halloc⟩ := getCache_eq_some h
  by_cases hsome : (m.slot innerCacheId).isSome
  · rw [if_pos hsome] at halloc
    refine ⟨halloc ▸ ht.nodup, fun j => ?_⟩
    by_cases hj : j = innerCacheId
    · subst hj
      simp [hself, halloc, (ht.mem_iff j).mpr hsome]
    · rw [hother j hj, halloc, ht.mem_iff j]
  · rw [if_neg hsome] at halloc
    have hnot : innerCacheId ∉ m.allocatedCache := fun hmem => hsome ((ht.mem_iff _).mp hmem)
    refine ⟨halloc ▸ ht.nodup.append (List.nodup_singleton _) (by simpa using hnot), fun j => ?_⟩
    by_cases hj : j = innerCacheId
    · subst hj
      simp [hself, halloc]
    · simp [hother j hj, halloc, hj, ht.mem_iff j]

/-- The slot of a page after `oom` has visited it: one priority less, or
    dropped at priority 0. -/
def age (slot : Option PageCache) : Option PageCache :=
  slot.bind fun pc => if 0 < pc.priority then some { pc with priority := pc.priority - 1 } else none

theorem oomStep_spec (neighbor : Nat → List Nat) {m : PageCacheManager} {kept : List Nat} {d : Disk}
    {dropped j : Nat} {pc : PageCache} (hpc : m.slot j = some pc) :
    ∃ m₁ d₁ dropped₁, oomStep neighbor (m, kept, d, dropped) j =
        some (m₁, (if 0 < pc.priority then kept ++ [j] else kept), d₁, dropped₁) ∧
      (∀ j', m₁.slot j' = if j' = j then age (some pc) else m.slot j') ∧
      m₁.allocatedCache = m.allocatedCache := by
  have hlen := @lt_length_of_slot_isSome m j (by simp [hpc])
  have hread : m.cachePool.getD j none = some pc := hpc
  by_cases hprio : 0 < pc.priority
  · refine ⟨m.setCache j { pc with priority := pc.priority - 1 }, d, dropped, ?_, fun j' => ?_, rfl⟩
    · simp only [oomStep, hread, if_pos hprio]
    · simp [slot_setCache m _ j' hlen, age, hprio]
  · refine ⟨{ m with cachePool := m.cachePool.set j none }, pc.sync (neighbor j) d, dropped + 1, ?_,
      fun j' => ?_, rfl⟩
    · simp only [oomStep, hread, if_neg hprio]
    · simp only [slot, getD_set_none, hlen, and_true]
      split <;> simp [age, hprio]

theorem oomFold_spec (neighbor : Nat → List Nat) :
    ∀ (rest : List Nat) (m : PageCacheManager) (kept : List Nat) (d : Disk) (dropped : Nat),
      rest.Nodup → (∀ j ∈ rest, (m.slot j).isSome) →
      ∃ m' d' dropped', rest.foldlM (oomStep neighbor) (m, kept, d, dropped) =
          some (m', kept ++ rest.filter (fun j => (m'.slot j).isSome), d', dropped') ∧
        (∀ j, m'.slot j = if j ∈ rest then age (m.slot j) else m.slot j) ∧
        m'.allocatedCache = m.allocatedCache := by
  intro rest
  induction rest with
  | nil =>
    intro m kept d dropped _ _
    exact ⟨m, d, dropped, by simp, fun j => by simp, rfl⟩
  | cons j rest ih =>
    intro m kept d dropped hnd hsome
    obtain ⟨hj, hnd'⟩ := List.nodup_cons.mp hnd
    obtain ⟨pc, hpc⟩ := Option.isSome_iff_exists.mp (hsome j List.mem_cons_self)
    obtain ⟨m₁, d₁, dropped₁, hstep, hslot₁, halloc₁⟩ := @oomStep_spec neighbor m kept d
      dropped j pc hpc
    have hsome₁ : ∀ j' ∈ rest, (m₁.slot j').isSome := by
      intro j' hj'
      have hne : j' ≠ j := by
        rintro rfl
        exact hj hj'
      rw [hslot₁, if_neg hne]
      exact hsome j' (List.mem_cons_of_mem _ hj')
    obtain ⟨m', d', dropped', hrun, hslots, halloc⟩ := ih m₁ _ d₁ dropped₁ hnd' hsome₁
    have hlast : m'.slot j = age (some pc) := by
      rw [hslots, if_neg hj, hslot₁, if_pos rfl]
    refine ⟨m', d', dropped', ?_, fun j' => ?_, halloc.trans halloc₁⟩
    · simp only [List.foldlM_cons, hstep, Option.bind_eq_bind, Option.bind_some]
      rw [hrun, List.filter_cons, hlast]
      by_cases hprio : 0 < pc.priority <;> simp [hprio, age]
    · rw [hslots, hslot₁]
      by_cases hrest : j' ∈ rest
      · have hne : j' ≠ j := by
          rintro rfl
          exact hj hrest
        simp [hrest, hne]
      · by_cases hjj : j' = j
        · subst hjj
          simp [hpc, hrest]
        · simp [hrest, hjj]

theorem oom_spec {m : PageCacheManager} (ht : Tracked m) (neighbor : Nat → List Nat) (d : Disk) :
    ∃ m' d' dropped, m.oom neighbor d = some (m', d', dropped) ∧
      (∀ j, m'.slot j = if j ∈ m.allocatedCache then age (m.slot j) else m.slot j) ∧
      m'.allocatedCache = m.allocatedCache.filter fun j => (m'.slot j).isSome := by
  obtain ⟨m', d', dropped, hrun, hslots, -⟩ := oomFold_spec neighbor m.allocatedCache m [] d 0
    ht.nodup (fun j hj => (ht.mem_iff j).mp hj)
  refine ⟨{ m' with allocatedCache := m.allocatedCache.filter fun j => (m'.slot j).isSome }, d',
    dropped, ?_, hslots, rfl⟩
  simp only [oom, hrun, List.nil_append, Option.pure_def, Option.bind_eq_bind, Option.bind_some]

theorem oom_tracked {m m' : PageCacheManager} {neighbor : Nat → List Nat} {d d' : Disk}
    {dropped : Nat} (ht : Tracked m) (h : m.oom neighbor d = some (m', d', dropped)) : Tracked m' := by
  obtain ⟨m'', d'', dropped', hrun, hslots, halloc⟩ := oom_spec ht neighbor d
  rw [h, Option.some.injEq, Prod.mk.injEq] at hrun
  obtain ⟨rfl, -⟩ := hrun
  refine ⟨halloc ▸ ht.nodup.filter _, fun j => ?_⟩
  rw [halloc, List.mem_filter]
  by_cases hj : j ∈ m.allocatedCache
  · simp [hj]
  · have hnone : (m.slot j).isSome = false := by simpa [ht.mem_iff] using hj
    simp [hj, hslots j, hnone]

theorem notifyNewSize_tracked {m : PageCacheManager} (ht : Tracked m) (newSize : Nat) :
    Tracked (m.notifyNewSize newSize) := by
  refine ⟨ht.nodup.filter _, fun j => ?_⟩
  rw [slot_notifyNewSize]
  simp only [notifyNewSize, List.mem_filter, decide_eq_true_eq]
  split
  · simp [ht.mem_iff, *]
  · simp [*]

end PageCacheManager

/-! ### Runs of calls on a page-cache manager -/

/-- The calls the file system makes on a `PageCacheManager`. -/
inductive CacheCall where
  | getCache (innerCacheId : Nat) (neighbor : List Nat)
  | oom (neighbor : Nat → List Nat)
  | notifyNewSize (newSize : Nat)

/-- One call, on the manager and the device; `none` is a panic. -/
def cacheStep : PageCacheManager × Disk → CacheCall → Option (PageCacheManager × Disk)
  | (m, d), .getCache innerCacheId neighbor => (m.getCache innerCacheId neighbor d).map fun r => (r.1, d)
  | (m, d), .oom neighbor => (m.oom neighbor d).map fun r => (r.1, r.2.1)
  | (m, d), .notifyNewSize newSize => some (m.notifyNewSize newSize, d)

theorem cacheStep_tracked {s s' : PageCacheManager × Disk} {call : CacheCall}
    (ht : s.1.Tracked) (h : cacheStep s call = some s') : s'.1.Tracked := by
  obtain ⟨m, d⟩ := s
  cases call with
  | getCache innerCacheId neighbor =>
    obtain ⟨⟨m', pc⟩, hget, rfl⟩ := Option.map_eq_some_iff.mp h
    exact PageCacheManager.getCache_tracked ht hget
  | oom neighbor =>
    obtain ⟨⟨m', d', dropped⟩, hoom, rfl⟩ := Option.map_eq_some_iff.mp h
    exact PageCacheManager.oom_tracked ht hoom
  | notifyNewSize newSize =>
    cases h
    exact PageCacheManager.notifyNewSize_tracked ht newSize

/-- In every state a run of `get_cache`, `oom` and `notify_new_size` calls
    reaches from a new manager, `allocated_cache` names each page with a cache
    once, `oom` does not panic, and `notify_new_size(n)` for `n` below the top
    page of `usize`, as every `u32` size of `modify_size_lock` is, drops exactly
    the caches from page `ceil(n / PAGE_SIZE)` on. -/
theorem page_cache_bookkeeping {d₀ : Disk} {s : PageCacheManager × Disk}
    (hs : StepRun.Reachable cacheStep (PageCacheManager.new, d₀) s) :
    s.1.Tracked ∧ (∀ neighbor d, (s.1.oom neighbor d).isSome) ∧
      ∀ newSize j, newSize + cacheSz ≤ 2 ^ 64 →
        (s.1.notifyNewSize newSize).slot j =
          if j < (newSize + cacheSz - 1) / cacheSz then s.1.slot j else none := by
  have ht : s.1.Tracked :=
    @StepRun.Reachable.invariant _ _ cacheStep _ (fun s => s.1.Tracked) PageCacheManager.tracked_new
      (fun _ _ _ hs hstep => cacheStep_tracked hs hstep) _ hs
  refine ⟨ht, fun neighbor d => ?_, fun newSize j hsize => ?_⟩
  · obtain ⟨m', d', dropped, hoom, -⟩ := PageCacheManager.oom_spec ht neighbor d
    simp [hoom]
  · rw [PageCacheManager.slot_notifyNewSize, PageCacheManager.newPages_of_le hsize]

theorem page_cache_bookkeeping_after_get_and_oom :
    ∃ s, StepRun.exec cacheStep (PageCacheManager.new, PageCache.blockIdDisk)
        [.getCache 0 [], .getCache 2 [3], .oom fun _ => []] = some s ∧
      s.1.Tracked ∧ (∀ neighbor d, (s.1.oom neighbor d).isSome) ∧
        ∀ newSize j, newSize + cacheSz ≤ 2 ^ 64 →
          (s.1.notifyNewSize newSize).slot j =
            if j < (newSize + cacheSz - 1) / cacheSz then s.1.slot j else none :=
  ⟨_, rfl, page_cache_bookkeeping ⟨[.getCache 0 [], .getCache 2 [3], .oom fun _ => []], rfl⟩⟩

end OsKernel.Fs
